import KeyLime.Completion
import KeyLime.Losses
import KeyLime.Naming

/-!
# What `reschedule` sends

`reschedule` opens the file of a task with the flags of a file that is to be
received, which empties it, and then asks for its size. The frame that is sent
is the task's only if there was nothing in the file (`carried_iff`).

The rounds for the other tasks of the record come before and after. They open
files of their own, under names that may be the same, and call `do_put`, which
changes no file (`doPut_store`). So a round is looked at between `m₁`, which the
rounds before it have led to, and `m₃`, where the rounds behind it end: the
file's contents are what they were when the pass began, or are already gone.

`Recovers` ties this to the pass: `reschedule` is called of a record that has
just been marked dead, by `detectPass` in a reachable state. `Smooth` writes are
those that nothing refuses, so that what is lost is not lost on the way.
-/

namespace KeyLime

open Resume

variable {k k' : Kernel} {dst : Int} {w : Worker} {ret : Ret}

/-! ## Calls of `do_put` -/

theorem doPut_store {io : PutIo} (hdst : k.desc dst = some .sock ∨ k.desc dst = none)
    (hsrc : k.desc dst = some .sock → w.tempFd ≠ dst) (h : doPut k dst w io = some (ret, k')) :
    k'.store = k.store ∧ k'.resolve = k.resolve := by
  rcases hdst with hdst | hdst
  · obtain ⟨name, hname, -⟩ := Option.map_eq_some_iff.mp h
    obtain ⟨bs, hends⟩ := doPut_spec hname hdst (hsrc hdst) h
    exact ⟨hends.delivered.store, hends.delivered.resolve⟩
  · obtain ⟨-, rfl⟩ := doPut_closed hdst h
    exact ⟨rfl, rfl⟩

theorem through_smooth {os : List Outcome} (hs : Smooth os) (n : Nat) :
    ∃ os', through n os = some os' ∧ Smooth os' := by
  induction os generalizing n with
  | nil => cases n <;> exact ⟨[], rfl, hs⟩
  | cons o os ih =>
      cases n with
      | zero => exact ⟨o :: os, rfl, hs⟩
      | succ n =>
          cases o with
          | take m => exact ih hs.tail (n - m)
          | intr => exact ih hs.tail (n + 1)
          | again => exact ih hs.tail (n + 1)
          | zero => exact ((hs .zero List.mem_cons_self).1 rfl).elim
          | fail => exact ((hs .fail List.mem_cons_self).2 rfl).elim

theorem announces_smooth {os : List Outcome} (hs : Smooth os) (name : Bytes) :
    announces name os = true := by
  obtain ⟨os₁, h1, hs1⟩ := through_smooth hs (putHeader name).length
  obtain ⟨os₂, h2, -⟩ := through_smooth hs1 8
  rw [announces, h1, Option.bind_some, h2]
  rfl

namespace Master

variable {m m' m₁ m₂ m₃ : Master} {p q : Nat} {t : Task} {mem : Worker} {io : ResendIo}
  {path contents : Bytes}

/-! ## The calls of `reschedule` -/

/-- What a detection pass does to a record before it calls `reschedule`. -/
def markDead (m : Master) (p : Nat) : Master :=
  { m with kernel := m.kernel.lock.unlock }.set p { m.heap p with alive := false }

/-- The failure detector calls `reschedule` of record `p`: it has passed the
records before it, and has just cleared `alive`. -/
def Recovers (m : Master) (p : Nat) : Prop :=
  ∃ m₀ now mem ios l₁ l₂ m₁, Reachable m₀ ∧ m₀.workerList = l₁ ++ p :: l₂
    ∧ m₀.detectPass now mem ios l₁ = some m₁ ∧ silent (m₁.heap p) now = true
    ∧ m = m₁.markDead p

theorem detectPass_append {now : ℚ} {ios : Nat → List ResendIo} (l₁ l₂ : List Nat) :
    m.detectPass now mem ios (l₁ ++ l₂) =
      (m.detectPass now mem ios l₁).bind fun m => m.detectPass now mem ios l₂ := by
  induction l₁ generalizing m with
  | nil => rfl
  | cons p l₁ ih =>
      rw [List.cons_append, detectPass, detectPass]
      dsimp only
      split
      · rw [Option.bind_assoc]
        exact congrArg _ (funext fun m => ih)
      · exact ih

theorem detect_recovers {now : ℚ} {ios : Nat → List ResendIo} {l₁ l₂ : List Nat}
    (h : Reachable m) (hlist : m.workerList = l₁ ++ p :: l₂)
    (hpass : m.detectPass now mem ios l₁ = some m₁) (hsilent : silent (m₁.heap p) now = true) :
    ∃ m₂, Recovers m₂ p
      ∧ m.handle (.detect now mem ios) =
        (m₂.reschedule p mem (ios p)).bind fun m => m.detectPass now mem ios l₂ := by
  refine ⟨_, ⟨m, now, mem, ios, l₁, l₂, m₁, h, hlist, hpass, hsilent, rfl⟩, ?_⟩
  show m.detectPass now mem ios m.workerList = _
  rw [hlist, detectPass_append, hpass, Option.bind_some, detectPass]
  exact if_pos hsilent

theorem Recovers.registry (h : Recovers m p) : Registry m := by
  obtain ⟨m₀, now, mem, ios, l₁, l₂, m₁, hr, -, hpass, -, rfl⟩ := h
  have h1 := hr.registry.same (detectPass_same hr.registry.ranged hpass)
  have h2 := h1.same (same_of_kernel (lock_unlock_extends h1.ranged))
  exact h2.same (set_same h2.ranged ⟨rfl, rfl, rfl, rfl, rfl, fun hal => by cases hal⟩)

theorem Recovers.named (h : Recovers m p) : Named m := by
  obtain ⟨m₀, now, mem, ios, l₁, l₂, m₁, hr, -, hpass, -, rfl⟩ := h
  exact (hr.named.detectPass hpass).kill p

/-! ## One task -/

theorem schedule_target (hr : Registry m) (t : Task) :
    (m.schedule t).1.kernel.desc (m.schedule t).2 = some .sock ∨ (m.schedule t).2 = -1 := by
  cases hb : m.bestWorker with
  | none =>
      rw [schedule_of_none hb]
      exact Or.inr rfl
  | some q =>
      rw [schedule_of_some hb]
      exact Or.inl (hr.isOpen q (bestWorker_eligible hb).1)

theorem open_ne_target (hk : k.Ranged) (hdst : k.desc dst = some .sock) (name : Bytes) (ok : Bool) :
    (k.openWithAllPermission name ok).2.desc dst = some .sock
      ∧ (k.openWithAllPermission name ok).1 ≠ dst := by
  have hlt := hk dst (by simp [hdst])
  unfold Kernel.openWithAllPermission
  split
  · have hne : dst ≠ k.nextFd := by omega
    exact ⟨by simp [hne, hdst], hne.symm⟩
  · exact ⟨hdst, fun heq => by rw [← heq] at hlt; omega⟩

theorem open_store (name : Bytes) (ok : Bool) (path : Bytes) :
    (k.openWithAllPermission name ok).2.resolve = k.resolve
      ∧ ((k.openWithAllPermission name ok).2.store path = k.store path
        ∨ (k.openWithAllPermission name ok).2.store path = some []) := by
  unfold Kernel.openWithAllPermission
  split
  · refine ⟨rfl, ?_⟩
    by_cases hp : path = k.resolve name
    · exact Or.inr (by simp [hp])
    · exact Or.inl (by simp [hp])
  · exact ⟨rfl, Or.inl rfl⟩

theorem resend_store (hr : Registry m) (h : m.resend mem t io = some m') (path : Bytes) :
    m'.kernel.resolve = m.kernel.resolve
      ∧ (m'.kernel.store path = m.kernel.store path ∨ m'.kernel.store path = some []) := by
  obtain ⟨k, ret, rfl, hput⟩ := resend_eq h
  have hs := schedule_same hr.ranged t
  have hstore : (m.schedule t).1.kernel.store = m.kernel.store := by
    cases hb : m.bestWorker with
    | none => rw [schedule_of_none hb]; rfl
    | some q => rw [schedule_of_some hb]; rfl
  obtain ⟨hres, hopen⟩ := open_store (k := (m.schedule t).1.kernel) t.fileName io.openOk path
  have hranged := (Kernel.open_extends hs.kernel.ranged t.fileName io.openOk).ranged
  have hkeep : k.store = ((m.schedule t).1.kernel.openWithAllPermission t.fileName io.openOk).2.store
      ∧ k.resolve =
        ((m.schedule t).1.kernel.openWithAllPermission t.fileName io.openOk).2.resolve := by
    rcases schedule_target hr t with hdst | hdst
    · obtain ⟨hdst', hne⟩ := open_ne_target hs.kernel.ranged hdst t.fileName io.openOk
      exact doPut_store (Or.inl hdst') (fun _ => hne) hput
    · have hclosed := hranged.closed
      rw [← hdst] at hclosed
      exact doPut_store (Or.inr hclosed) (fun h => by rw [hclosed] at h; cases h) hput
  rw [hstore] at hopen
  show k.resolve = m.kernel.resolve ∧ (k.store path = m.kernel.store path ∨ k.store path = some [])
  rw [hkeep.1, hkeep.2, hres]
  exact ⟨hs.kernel.resolve, hopen⟩

theorem resendAll_store {ts : List Task} {ios : List ResendIo} (hr : Registry m)
    (h : m.resendAll mem ts ios = some m') (path : Bytes) :
    Registry m' ∧ m'.kernel.resolve = m.kernel.resolve
      ∧ (m'.kernel.store path = m.kernel.store path ∨ m'.kernel.store path = some []) := by
  induction ts generalizing m ios with
  | nil =>
      obtain rfl := Option.some.inj h
      exact ⟨hr, rfl, Or.inl rfl⟩
  | cons t ts ih =>
      rw [resendAll] at h
      obtain ⟨m₁, h1, h2⟩ := Option.bind_eq_some_iff.mp h
      obtain ⟨hres, hstore⟩ := resend_store hr h1 path
      obtain ⟨hr', hres', hstore'⟩ := ih (hr.same (resend_same hr.ranged h1)) h2
      refine ⟨hr', hres'.trans hres, ?_⟩
      rcases hstore' with heq | hnil
      · exact hstore.imp heq.trans heq.trans
      · exact Or.inr hnil

/-- What a round for `t` has to do, between `m₁` and `m₂`, when the rounds end
in `m₃`: write a frame on `fd` that gives back the name and the contents, and
leave the file alone. -/
structure Carried (t : Task) (contents : Bytes) (fd : Int) (m₁ m₂ m₃ : Master) : Prop where
  sent : m₂.kernel.sent fd = m₁.kernel.sent fd ++ frame putVerb t.fileName contents
  decodes : frameReader.feed (.header []) (frame putVerb t.fileName contents) =
    (.done .put t.fileName contents, [])
  stored : m₃.kernel.store (m₃.kernel.resolve t.fileName) = some contents

/-- What `open` makes of the kernel of a round. -/
def reopened (m : Master) (t : Task) (ok : Bool) : Int × Kernel :=
  m.kernel.lock.unlock.openWithAllPermission t.fileName ok

/-- The temporary record of a round. -/
def temporary (m : Master) (t : Task) (mem : Worker) (ok : Bool) : Worker :=
  { mem with tempFileName := some t.fileName, tempFd := (m.reopened t ok).1 }

/-- A round that has found a worker calls `do_put` on the connection of that
worker, and has changed nothing since that matters. -/
structure Round (m : Master) (t : Task) (mem : Worker) (io : ResendIo) (fd : Int) (ret : Ret)
    (bs : Bytes) (m' : Master) : Prop where
  isOpen : (m.reopened t io.openOk).2.desc fd = some .sock
  put : doPut (m.reopened t io.openOk).2 fd (m.temporary t mem io.openOk) io.put =
    some (ret, m'.kernel)
  ends : PutEnds fd (m.reopened t io.openOk).1 t.fileName
    (getFileSize (m.reopened t io.openOk).2 t.fileName io.put.fopenOk) (m.reopened t io.openOk).2
      ret m'.kernel bs
  sent : m'.kernel.sent fd = m.kernel.sent fd ++ bs
  size : getFileSize (m.reopened t io.openOk).2 t.fileName io.put.fopenOk ≤
    ((m'.kernel.store (m'.kernel.resolve t.fileName)).getD []).length

theorem resend_round (hr : Registry m) (hnew : m.bestWorker = some q)
    (h : m.resend mem t io = some m') :
    ∃ ret bs, Round m t mem io (m.heap q).workerFd ret bs m' := by
  obtain ⟨k, ret, rfl, hput⟩ := resend_eq h
  rw [schedule_of_some hnew] at hput
  have hsock := hr.isOpen q (bestWorker_eligible hnew).1
  have hranged := (lock_unlock_extends hr.ranged).ranged
  obtain ⟨hdst, hne⟩ : (m.reopened t io.openOk).2.desc (m.heap q).workerFd = some .sock
      ∧ (m.temporary t mem io.openOk).tempFd ≠ (m.heap q).workerFd :=
    open_ne_target hranged hsock t.fileName io.openOk
  have hput' : doPut (m.reopened t io.openOk).2 (m.heap q).workerFd
      (m.temporary t mem io.openOk) io.put = some (ret, k) := hput
  obtain ⟨bs, hends⟩ := doPut_spec (w := m.temporary t mem io.openOk) rfl hdst hne hput'
  have hsent₀ : (m.reopened t io.openOk).2.sent = m.kernel.sent := by
    unfold reopened Kernel.openWithAllPermission
    split <;> rfl
  refine ⟨ret, bs, hdst, hput', hends, ?_, ?_⟩
  · show k.sent _ = _
    rw [hends.delivered.sent, Function.update_self]
    exact congrArg (fun f => f (m.heap q).workerFd ++ bs) hsent₀
  · have hsize := getFileSize_le (m.reopened t io.openOk).2 t.fileName io.put.fopenOk
    rwa [← hends.delivered.store, ← hends.delivered.resolve] at hsize

/-- A round never sends a file with something in it and leaves it so. -/
theorem Round.loses {fd : Int} {bs : Bytes} {ret : Ret} (hr : Registry m)
    (h : Round m t mem io fd ret bs m')
    (hstored : m'.kernel.store (m'.kernel.resolve t.fileName) = some contents)
    (hfull : contents ≠ []) : bs ≠ frame putVerb t.fileName contents := by
  intro hbs
  cases hok : io.openOk with
  | true =>
      -- the file has been emptied
      have hstore := h.ends.delivered.store
      have hres := h.ends.delivered.resolve
      rw [hok] at hstore hres
      rw [hres, hstore] at hstored
      have hempty : (m.reopened t true).2.store ((m.reopened t true).2.resolve t.fileName) =
          some [] := Function.update_self ..
      exact hfull (Option.some.inj (hstored.symm.trans hempty))
  | false =>
      -- there is no descriptor to read the contents from
      have hsize := h.size
      rw [hstored, Option.getD_some] at hsize
      have hlen := congrArg List.length hbs
      rw [frame_length] at hlen
      have hpos := List.length_pos_of_ne_nil hfull
      have hsrc : ((m.reopened t io.openOk).2.rewind (m.reopened t io.openOk).1).remaining
          (m.reopened t io.openOk).1 = [] := by
        rw [hok]
        have hclosed : (m.reopened t false).2.desc (-1) = none :=
          (lock_unlock_extends hr.ranged).ranged.closed
        show ((m.reopened t false).2.rewind (-1)).remaining (-1) = []
        simp [Kernel.rewind, Kernel.remaining, hclosed]
      by_cases hret : ret = .doneSending
      · obtain ⟨body, hbody, hblen, heq⟩ := h.ends.done hret
        rw [hsrc] at hbody
        rw [List.prefix_nil.mp hbody] at hblen heq
        rw [heq] at hlen
        simp only [List.length_append, sizeBytes_length, List.length_nil] at hlen
        omega
      · have := (h.ends.failed hret).2
        omega

/-- A round sends a file with nothing in it. -/
theorem Round.sends {fd : Int} {bs : Bytes} {ret : Ret} (h : Round m t mem io fd ret bs m')
    (hsmooth : Smooth io.put.writes)
    (hstored : m'.kernel.store (m'.kernel.resolve t.fileName) = some []) :
    bs = frame putVerb t.fileName [] := by
  have hsize := h.size
  rw [hstored, Option.getD_some, List.length_nil, Nat.le_zero] at hsize
  obtain ⟨k', hdone⟩ := doPut_empty (w := m.temporary t mem io.openOk) rfl h.isOpen hsize
    (announces_smooth hsmooth t.fileName)
  obtain ⟨rfl, -⟩ := Prod.mk.inj (Option.some.inj (h.put.symm.trans hdone))
  obtain ⟨body, -, hblen, heq⟩ := h.ends.done rfl
  rw [hsize] at hblen heq
  rw [heq, List.eq_nil_of_length_eq_zero hblen]
  simp [frame, putHeader]

/-! ## All of them -/

/-- **Recovered tasks.** In a round that finds a worker, no write to which
fails, the task's program is sent, and is still there afterwards, exactly when
its stored file was empty before the call. The `open` of the round has
`O_TRUNC`, and the size is taken behind it, so that the frame is that of an
empty program, and success is reported. -/
theorem carried_iff {pre post : List Task} {ios ios' : List ResendIo} (h : Recovers m p)
    (htasks : (m.heap p).tasks = pre ++ t :: post)
    (hstore : m.kernel.store (m.kernel.resolve t.fileName) = some contents)
    (hpre : m.resendAll mem pre ios = some m₁) (hnew : m₁.bestWorker = some q)
    (hround : m₁.resend mem t io = some m₂) (hpost : m₂.resendAll mem post ios' = some m₃)
    (hsmooth : Smooth io.put.writes) :
    Carried t contents (m₁.heap q).workerFd m₁ m₂ m₃ ↔ contents = [] := by
  have hname : HeaderName t.fileName := h.named.tasks p t (by simp [htasks])
  obtain ⟨hr₁, hres₁, hstore₁⟩ := resendAll_store h.registry hpre (m.kernel.resolve t.fileName)
  obtain ⟨hres₂, hstore₂⟩ := resend_store hr₁ hround (m.kernel.resolve t.fileName)
  have hr₂ := hr₁.same (resend_same hr₁.ranged hround)
  obtain ⟨-, hres₃, hstore₃⟩ := resendAll_store hr₂ hpost (m.kernel.resolve t.fileName)
  obtain ⟨ret, bs, hrd⟩ := resend_round hr₁ hnew hround
  have hpath₂ : m₂.kernel.resolve t.fileName = m.kernel.resolve t.fileName := by rw [hres₂, hres₁]
  have hpath₃ : m₃.kernel.resolve t.fileName = m.kernel.resolve t.fileName := by
    rw [hres₃, hpath₂]
  constructor
  · intro hc
    by_contra hfull
    have hbs := List.append_cancel_left (hrd.sent.symm.trans hc.sent)
    have hstored := hc.stored
    rw [hpath₃] at hstored
    refine hrd.loses hr₁ ?_ hfull hbs
    rw [hpath₂]
    rcases hstore₃ with heq | hnil
    · exact heq.symm.trans hstored
    · exact (hfull (Option.some.inj (hstored.symm.trans hnil))).elim
  · rintro rfl
    have hempty₁ : m₁.kernel.store (m.kernel.resolve t.fileName) = some [] :=
      hstore₁.elim (fun heq => heq.trans hstore) id
    have hempty₂ : m₂.kernel.store (m.kernel.resolve t.fileName) = some [] :=
      hstore₂.elim (fun heq => heq.trans hempty₁) id
    have hempty₃ : m₃.kernel.store (m.kernel.resolve t.fileName) = some [] :=
      hstore₃.elim (fun heq => heq.trans hempty₂) id
    refine ⟨?_, ?_, hpath₃ ▸ hempty₃⟩
    · rw [hrd.sent, hrd.sends hsmooth (hpath₂ ▸ hempty₂)]
    · have hlen : ([] : Bytes).length < 2 ^ 64 := by decide
      have hfeed := feed_frame (v := .put) hname.sendable hlen []
      rwa [List.append_nil] at hfeed

/-- A worker that has one task falls silent, and there is another worker. -/
def silentWorker (submission : Bytes) : List Event :=
  [.accept [⟨5, [], default⟩, ⟨6, [1], default⟩, ⟨7, [2], default⟩], .heartbeat [1] 1 1,
    .heartbeat [2] 2 4, .data 5 (submission.map .byte) {}]

/-- The run, to the round of its task. -/
theorem silentWorker_round (submission payload : Bytes)
    (h : ((init id).execWithin (fun _ _ => true) (silentWorker submission)).map
      (fun m => decide (m.workerList = [1, 2] ∧ silent (m.heap 1) 5 = true
        ∧ ((m.markDead 1).heap 1).tasks = [⟨0, [97], 0, 0⟩]
        ∧ (m.markDead 1).kernel.store ((m.markDead 1).kernel.resolve [97]) = some payload
        ∧ (m.markDead 1).bestWorker = some 2 ∧ ((m.markDead 1).heap 2).workerFd = 7)) = some true) :
    ∃ m m₂, Recovers m 1 ∧ (m.heap 1).tasks = [⟨0, [97], 0, 0⟩]
      ∧ m.kernel.store (m.kernel.resolve [97]) = some payload ∧ m.bestWorker = some 2
      ∧ (m.heap 2).workerFd = 7 ∧ m.resend default ⟨0, [97], 0, 0⟩ {} = some m₂ := by
  obtain ⟨m₀, hr, hv⟩ := execWithin_spec id _ h
  obtain ⟨hlist, hsil, htasks, hstore, hbest, hfd⟩ := of_decide_eq_true hv
  obtain ⟨m₂, h₂, -⟩ := resend_dealtOne (m := m₀.markDead 1) ⟨0, [97], 0, 0⟩ default {}
  exact ⟨m₀.markDead 1, m₂,
    ⟨m₀, 5, default, fun _ => [], [], [2], m₀, hr.reachable, hlist, rfl, hsil, rfl⟩,
    htasks, hstore, hbest, hfd, h₂⟩

/-- An empty program. -/
theorem carried_iff_empty :
    ∃ m m₂, Recovers m 1 ∧ m.resend default ⟨0, [97], 0, 0⟩ {} = some m₂
      ∧ Carried ⟨0, [97], 0, 0⟩ [] 7 m m₂ m₂ := by
  obtain ⟨m, m₂, hrec, htasks, hstore, hbest, hfd, h₂⟩ :=
    silentWorker_round (submitLine ++ sizeBytes 0) [] (by decide +kernel)
  have hpre : m.resendAll default [] [] = some m := rfl
  have hpost : m₂.resendAll default [] [] = some m₂ := rfl
  have hcarried := (carried_iff hrec htasks hstore hpre hbest h₂ hpost (by decide)).mpr rfl
  rw [hfd] at hcarried
  exact ⟨m, m₂, hrec, h₂, hcarried⟩

/-- A program of one byte. -/
theorem recovered_file_emptied :
    ∃ m m₂, Recovers m 1 ∧ (m.heap 1).tasks = [⟨0, [97], 0, 0⟩]
      ∧ m.kernel.store (m.kernel.resolve [97]) = some [120] ∧ m.bestWorker = some 2
      ∧ m.resend default ⟨0, [97], 0, 0⟩ {} = some m₂
      ∧ ¬ Carried ⟨0, [97], 0, 0⟩ [120] 7 m m₂ m₂ := by
  obtain ⟨m, m₂, hrec, htasks, hstore, hbest, hfd, h₂⟩ :=
    silentWorker_round submitFrame [120] (by decide +kernel)
  refine ⟨m, m₂, hrec, htasks, hstore, hbest, h₂, ?_⟩
  intro hc
  obtain ⟨ret, bs, hround⟩ := resend_round hrec.registry hbest h₂
  rw [hfd] at hround
  have hbs := List.append_cancel_left (hround.sent.symm.trans hc.sent)
  exact hround.loses hrec.registry hc.stored (by decide) hbs

end Master

end KeyLime
