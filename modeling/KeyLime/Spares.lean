import KeyLime.Call
import KeyLime.Stored
import KeyLime.Delivery

/-!
# What a call leaves of the other connections

`Spares fd P k k'`: nothing was read off another connection than `fd`, and
no file was written or moved in but those in `P`. A call of `handle_data`
on a record writes the temporary file of that record and no other
(`parsePhase_spares`, `doPut_spares`).

It is the frame condition of a call with respect to the other connections, and it
is what their half-received frames need: their bytes, their files and the places
in these are as they were. A file is known by its path here, so that two records
whose names denote the same file are not spared by each other; `P` is where a
caller says which paths those are.
-/

namespace KeyLime

/-- The calls from `k` to `k'` have read connection `fd` only, and written
files in `P` only. -/
structure Spares (fd : Int) (P : Bytes → Prop) (k k' : Kernel) : Prop where
  taken : ∀ g, g ≠ fd → k'.taken g = k.taken g
  sock : ∀ g, g ≠ fd → k.desc g = some .sock → k'.desc g = some .sock
  file : ∀ g path off, ¬ P path → k.desc g = some (.file path off) →
    k'.desc g = some (.file path off)
  store : ∀ path, ¬ P path → k'.store path = k.store path
  resolve : k'.resolve = k.resolve

theorem Kernel.Ranged.closed {k : Kernel} (h : k.Ranged) : k.desc (-1) = none := by
  by_contra hne
  have := (h (-1) hne).1
  omega

namespace Spares

variable {fd g : Int} {P : Bytes → Prop} {k k₁ k' : Kernel} {path : Bytes} {off : Nat}

theorem refl (fd : Int) (P : Bytes → Prop) (k : Kernel) : Spares fd P k k :=
  ⟨fun _ _ => rfl, fun _ _ => id, fun _ _ _ _ => id, fun _ _ => rfl, rfl⟩

theorem trans (h : Spares fd P k k₁) (h' : Spares fd P k₁ k') : Spares fd P k k' where
  taken g hg := (h'.taken g hg).trans (h.taken g hg)
  sock g hg hd := h'.sock g hg (h.sock g hg hd)
  file g path off hP hd := h'.file g path off hP (h.file g path off hP hd)
  store path hP := (h'.store path hP).trans (h.store path hP)
  resolve := h'.resolve.trans h.resolve

theorem of_eq (htaken : ∀ g, g ≠ fd → k'.taken g = k.taken g) (hdesc : k'.desc = k.desc)
    (hstore : k'.store = k.store) (hres : k'.resolve = k.resolve) : Spares fd P k k' :=
  ⟨htaken, fun _ _ hd => by rw [hdesc, hd], fun _ _ _ _ hd => by rw [hdesc, hd],
    fun _ _ => by rw [hstore], hres⟩

theorem advance (k : Kernel) (rest : List Item) : Spares fd P k (k.advance fd rest) :=
  of_eq (fun _ hg => Function.update_of_ne hg _ _) rfl rfl rfl

theorem of_file {off' : Nat} (hd : k.desc g = some (.file path off)) (hP : P path)
    (hdesc : k'.desc = Function.update k.desc g (some (.file path off')))
    (htaken : k'.taken = k.taken) (hstore : ∀ path', ¬ P path' → k'.store path' = k.store path')
    (hres : k'.resolve = k.resolve) : Spares fd P k k' where
  taken g' _ := by rw [htaken]
  sock g' _ hsock := by
    have hne : g' ≠ g := by
      rintro rfl
      rw [hd] at hsock
      cases hsock
    rw [hdesc, Function.update_of_ne hne, hsock]
  file g' path' off₁ hP' hfile := by
    have hne : g' ≠ g := by
      rintro rfl
      rw [hd] at hfile
      obtain ⟨rfl, -⟩ := Desc.file.inj (Option.some.inj hfile)
      exact hP' hP
    rw [hdesc, Function.update_of_ne hne, hfile]
  store := hstore
  resolve := hres

theorem put_file (hd : k.desc g = some (.file path off)) (hP : P path) (bs : Bytes) :
    Spares fd P k (k.put g bs) := by
  by_cases hbs : bs = []
  · rw [hbs, Kernel.put_nil]
    exact refl fd P k
  · rw [Kernel.put_file hd hbs]
    refine of_file hd hP rfl rfl (fun path' hP' => ?_) rfl
    refine Function.update_of_ne ?_ _ _
    rintro rfl
    exact hP' hP

theorem opened (hk : k.Ranged) {name : Bytes} (hP : P (k.resolve name)) :
    Spares fd P k (k.opened name) := by
  have hfree : k.desc k.nextFd = none := by
    by_contra hne
    have := (hk _ hne).2
    omega
  refine ⟨fun _ _ => rfl, ?_, ?_, ?_, rfl⟩
  · intro g _ hd
    have hne : g ≠ k.nextFd := by
      rintro rfl
      rw [hfree] at hd
      cases hd
    exact (Function.update_of_ne hne _ _).trans hd
  · intro g path off _ hd
    have hne : g ≠ k.nextFd := by
      rintro rfl
      rw [hfree] at hd
      cases hd
    exact (Function.update_of_ne hne _ _).trans hd
  · intro path hP'
    refine Function.update_of_ne ?_ _ _
    rintro rfl
    exact hP' hP

end Spares

variable {fd dst : Int} {P : Bytes → Prop} {k k' : Kernel} {w : Worker}

theorem getBinaryData_spares (hk : k.Ranged) (ho : w.Opened k) (io : RecvIo)
    (hP : (openTemp k w io).2.tempFd ≠ -1 → P (w.tempPath k)) :
    Spares fd P k (getBinaryData k w io).2 := by
  obtain ⟨bs, hbs⟩ := getBinaryData_put k w io
  have hopen : Spares fd P k (openTemp k w io).1 := by
    rcases openTemp_cases k w io with ⟨heq, -⟩ | ⟨name, -, -, hname, heq⟩
    · rw [heq]
      exact .refl fd P k
    · have hpath : w.tempPath k = k.resolve name := by rw [Worker.tempPath, hname, Option.getD_some]
      rw [heq] at hP ⊢
      refine .opened hk (hpath ▸ hP ?_)
      show ((k.nextFd : Nat) : Int) ≠ -1
      omega
  rw [hbs]
  by_cases hne : (openTemp k w io).2.tempFd = -1
  · have hext := (openTemp_ops k w io).extends hk
    rw [Kernel.put_none (hne ▸ hext.ranged.closed)]
    exact hopen
  · obtain ⟨off, hd⟩ := openTemp_opened ho io hne
    obtain ⟨g, hrec⟩ := openTemp_record k w io
    refine hopen.trans (.put_file hd ?_ bs)
    have hpath : (openTemp k w io).1.resolve ((openTemp k w io).2.tempFileName.getD []) =
        w.tempPath k := by
      rw [hrec, hopen.resolve]
      rfl
    rw [hpath]
    exact hP hne

theorem getBinaryData_tempFd (k : Kernel) (w : Worker) (io : RecvIo) :
    (getBinaryData k w io).1.w.tempFd = (openTemp k w io).2.tempFd := by
  rw [getBinaryData_eq]
  obtain ⟨x, hx⟩ := dataLoop_record (k.inbox w.workerFd).length (k.inbox w.workerFd) io.disk none
    (openTemp k w io).2 (openTemp k w io).1
  rw [hx]

theorem doPut_closed {io : PutIo} {ret : Ret} (hdst : k.desc dst = none)
    (h : doPut k dst w io = some (ret, k')) : ret = .bigFailure ∧ k' = k.lock.unlock := by
  obtain ⟨name, -, h⟩ := Option.map_eq_some_iff.mp h
  have hwrite : writeAllToSocket k.lock dst (putHeader name) io.writes = (-1, io.writes, k.lock) :=
    if_pos ⟨by simp [putHeader], hdst⟩
  simp only [hwrite] at h
  rw [if_pos (by omega)] at h
  obtain ⟨hret, hk⟩ := Prod.mk.inj h
  exact ⟨hret.symm, hk.symm⟩

theorem doPut_spares {io : PutIo} {ret : Ret} (fd : Int)
    (hdst : k.desc dst = some .sock ∨ k.desc dst = none) (hk : k.Ranged) (ho : w.Opened k)
    (hP : w.tempFd ≠ -1 → P (w.tempPath k)) (h : doPut k dst w io = some (ret, k')) :
    Spares fd P k k' := by
  rcases hdst with hdst | hdst
  · obtain ⟨name, hname, -⟩ := Option.map_eq_some_iff.mp h
    have hsrc : w.tempFd ≠ dst := by
      rintro rfl
      obtain ⟨off, hd⟩ := ho (hk.ne hdst)
      rw [hd] at hdst
      cases hdst
    obtain ⟨bs, hends⟩ := doPut_spec hname hdst hsrc h
    have hdel := hends.delivered
    refine ⟨fun g _ => by rw [(doPut_ops h).reads.2],
      fun g _ hd => ((doPut_extends hk h).sock g).mpr hd, fun g path off hP' hd => ?_,
      fun path _ => by rw [hdel.store], hdel.resolve⟩
    have hne : g ≠ w.tempFd := by
      rintro rfl
      obtain ⟨off', hd'⟩ := ho (hk.ne hd)
      rw [hd] at hd'
      obtain ⟨rfl, -⟩ := Desc.file.inj (Option.some.inj hd')
      exact hP' (hP (hk.ne hd))
    exact (hdel.desc g hne).trans hd
  · rw [(doPut_closed hdst h).2]
    exact .of_eq (fun _ _ => rfl) rfl rfl rfl

namespace Master

variable {m m₁ m' : Master} {p : Nat} {f : Flow} {io : DataIo}

theorem headerStage_spares (hr : Registry m) (hfd : (m.heap p).workerFd = fd)
    (h : m.headerStage fd p = some f) : Spares fd P m.kernel f.master.kernel := by
  subst hfd
  cases headerStage_case h with
  | skip => exact .refl _ _ _
  | more r | header r | reject r => exact .advance m.kernel r.rest
  | register r m₁ hst hgc hret hverb hifd hreg =>
      obtain ⟨l, -, rfl⟩ := register_eq hreg
      exact (Spares.advance m.kernel r.rest).trans (.of_eq (fun _ _ => rfl) rfl rfl rfl)
  | quit r hst hgc hret hifd =>
      refine (Spares.advance m.kernel r.rest).trans ?_
      refine ⟨fun _ _ => rfl, ?_, ?_, fun _ _ => rfl, rfl⟩
      · intro g hg hd
        exact (Function.update_of_ne (hifd ▸ hg) _ _).trans hd
      · intro g path off _ hd
        have hne : g ≠ m.interfaceFd := by
          rintro rfl
          obtain ⟨-, -, -, hsock, -⟩ := hr.iface (hr.ranged.ne hd)
          rw [show m.kernel.desc m.interfaceFd = some (.file path off) from hd] at hsock
          cases hsock
        exact (Function.update_of_ne hne _ _).trans hd

theorem sizeStage_spares (hfd : (m.heap p).workerFd = fd) (h : m.sizeStage p = some f) :
    Spares fd P m.kernel f.master.kernel := by
  subst hfd
  cases sizeStage_case h with
  | skip => exact .refl _ _ _
  | more r | size r | fail r => exact .advance m.kernel r.rest

theorem dataStage_spares {io : RecvIo} (hk : m.kernel.Ranged) (hfd : (m.heap p).workerFd = fd)
    (ho : (m.heap p).Opened m.kernel) (h : m.dataStage p io = some f)
    (hP : (f.master.heap p).tempFd ≠ -1 → P ((f.master.heap p).tempPath m.kernel)) :
    Spares fd P m.kernel f.master.kernel := by
  subst hfd
  have key : ((openTemp m.kernel (m.heap p) io).2.tempFd ≠ -1 →
      P ((m.heap p).tempPath m.kernel)) →
      Spares (m.heap p).workerFd P m.kernel (m.received p io).kernel := by
    intro hP
    rw [received_kernel]
    exact (getBinaryData_spares hk ho io hP).trans (.advance _ _)
  have hname : (getBinaryData m.kernel (m.heap p) io).1.w.tempFileName =
      (m.heap p).tempFileName := by
    obtain ⟨g, x, hw⟩ := getBinaryData_record m.kernel (m.heap p) io
    rw [hw]
  have hfd := getBinaryData_tempFd m.kernel (m.heap p) io
  cases dataStage_case h with
  | skip => exact .refl _ _ _
  | more | fail =>
      refine key fun hne => ?_
      rw [Flow.master, received_heap_self, hfd, Worker.tempPath, hname] at hP
      exact hP hne
  | data =>
      refine key fun hne => ?_
      rw [Flow.master, set_heap_self, Worker.tempPath] at hP
      dsimp only at hP
      rw [hfd, hname] at hP
      exact hP hne

/-- **The parser writes one file**, the temporary file of its record, and
reads from one connection. -/
theorem parsePhase_spares {io : RecvIo} (hr : Registry m) (hat : At m fd p)
    (hs : (m.heap p).Sound) (ho : (m.heap p).Opened m.kernel)
    (h : m.parsePhase fd p io = some f)
    (hP : (f.master.heap p).tempFd ≠ -1 → P ((f.master.heap p).tempPath m.kernel)) :
    Spares fd P m.kernel f.master.kernel := by
  rw [parsePhase, Flow.andThen_assoc] at h
  rcases Flow.andThen_eq_some.mp h with ⟨m₁, h1, rfl⟩ | ⟨m₁, h1, h2⟩
  · exact headerStage_spares hr hat.workerFd h1
  · have hspare1 := headerStage_spares (P := P) hr hat.workerFd h1
    have ho1 := headerStage_opened hs ho h1
    have hr1 : Registry m₁ := hr.change hat (headerStage_change hr hat h1)
    have hfd1 : (m₁.heap p).workerFd = fd :=
      (headerStage_parserOnly h1).record.workerFd.trans hat.workerFd
    rcases Flow.andThen_eq_some.mp h2 with ⟨m₂, h3, rfl⟩ | ⟨m₂, h3, h4⟩
    · exact hspare1.trans (sizeStage_spares hfd1 h3)
    · have hspare2 := hspare1.trans (sizeStage_spares hfd1 h3)
      have hfd2 : (m₂.heap p).workerFd = fd :=
        (sizeStage_parserOnly h3).record.workerFd.trans hfd1
      refine hspare2.trans (dataStage_spares (sizeStage_same hr1.ranged h3).kernel.ranged hfd2
        (sizeStage_opened ho1 h3) h4 ?_)
      rw [Worker.tempPath, hspare2.resolve]
      exact hP

theorem target_desc (hr : Registry m) :
    m.kernel.desc m.target = some .sock ∨ m.kernel.desc m.target = none := by
  unfold target
  cases hb : m.bestWorker with
  | none => exact Or.inr hr.ranged.closed
  | some q => exact Or.inl (hr.isOpen q (bestWorker_eligible hb).1)

theorem interfaceFd_desc (hr : Registry m) :
    m.kernel.desc m.interfaceFd = some .sock ∨ m.kernel.desc m.interfaceFd = none := by
  by_cases hne : m.interfaceFd = -1
  · exact Or.inr (hne ▸ hr.ranged.closed)
  · obtain ⟨-, -, -, hd, -⟩ := hr.iface hne
    exact Or.inl hd

/-- **A call writes one file and reads one connection**: the file is that of its own
record. Of the other connections it reads nothing, and the other files stay as
they were. -/
theorem CallCase.spares (hready : Ready m) (hr : Registry m) (hat : At m fd p)
    (hd : m.kernel.desc fd = some .sock) (halive : (m.heap p).alive = true)
    (hc : CallCase fd p io m m')
    (hP : ∀ f, m.parsePhase fd p io.recv = some f → (f.master.heap p).tempFd ≠ -1 →
      P ((f.master.heap p).tempPath m.kernel)) : Spares fd P m.kernel m'.kernel := by
  have hparse : ∀ {f : Flow}, m.parsePhase fd p io.recv = some f →
      Spares fd P m.kernel f.master.kernel := fun hpar =>
    parsePhase_spares hr hat (hready.sound p) (hready.opened p) hpar (hP _ hpar)
  -- the file `do_put` reads is the one the parser has written
  have hput : ∀ {m₁ m₂ : Master} {ret : Ret} {k : Kernel},
      m.parsePhase fd p io.recv = some (.next m₁) → Same m₁ m₂ →
      Spares fd P m₁.kernel m₂.kernel → (m₂.heap p).tempFd = (m₁.heap p).tempFd →
      (m₂.heap p).tempFileName = (m₁.heap p).tempFileName →
      (m₂.kernel.desc (m₂.heap p).fdToSendTo = some .sock
        ∨ m₂.kernel.desc (m₂.heap p).fdToSendTo = none) →
      doPut m₂.kernel (m₂.heap p).fdToSendTo (m₂.heap p) io.put = some (ret, k) →
      Spares fd P m.kernel k := by
    intro m₁ m₂ ret k hpar hs hk hfd hname hdst hdo
    have h1 : Spares fd P m.kernel m₁.kernel := hparse hpar
    have hopen : (m₁.heap p).Opened m₁.kernel :=
      (parsePhase_ready hready hr hat hd halive hpar).opened p
    refine (h1.trans hk).trans (doPut_spares fd hdst hs.kernel.ranged ?_ ?_ hdo)
    · intro hne
      rw [hfd] at hne ⊢
      obtain ⟨off, hd₁⟩ := hopen hne
      rw [hname, hs.kernel.resolve]
      exact hs.kernel.file _ _ _ hd₁
    · intro hne
      rw [hfd] at hne
      have := hP _ hpar hne
      rw [Worker.tempPath] at this ⊢
      rw [hname, hs.kernel.resolve, h1.resolve]
      exact this
  cases hc with
  | unfinished f hpar hst heq => exact heq ▸ hparse hpar
  | dropped m₁ hpar hst hifd hal heq => exact heq ▸ hparse hpar
  | submitted m₁ name ret k hpar hst hname hifd hdo heq =>
      have hr1 : Registry m₁ := hr.change hat (parsePhase_change hr hat hpar)
      have hs := submitted_same (p := p) hr1.ranged name
      obtain ⟨ts, hself⟩ := submitted_self (m := m₁) (p := p) name
      have hkernel : (m₁.submitted p name).kernel = m₁.kernel.lock.unlock := submitted_kernel name
      rw [heq]
      refine hput hpar hs ?_ (by rw [hself]) (by rw [hself]) ?_ hdo <;> rw [hkernel]
      · exact .of_eq (fun _ _ => rfl) rfl rfl rfl
      · rw [hself]
        exact target_desc hr1
  | answered m₁ name ret k hpar hst hname hifd hal hdo heq =>
      have hr1 : Registry m₁ := hr.change hat (parsePhase_change hr hat hpar)
      have hs := answered_same (p := p) hr1.ranged name
      obtain ⟨ts, hself⟩ := answered_self (m := m₁) (p := p) name
      have hkernel : (m₁.answered p name).kernel = m₁.kernel := answered_kernel name
      rw [heq]
      refine hput hpar hs ?_ (by rw [hself]) (by rw [hself]) ?_ hdo <;> rw [hkernel]
      · exact .refl _ _ _
      · rw [hself]
        exact interfaceFd_desc hr1

end Master

end KeyLime
