import KeyLime.Ready

/-!
# What the parser branches do to the kernel

The header and the size leave the files and what has been sent alone. The
data branch opens and writes the temporary file of its record, and nothing
else.

`Unwritten` is the relation of a call that has written nothing: the same stored
files, the same open ones at the same offsets, the same bytes sent. It is
about what others could see, not about the inbox of the connection, which every
stage reads. From it and the one lemma about the data branch it follows that the
parser as a whole writes nothing on any connection (`parsePhase_sent`), so that
all bytes a peer gets come from `do_put`.
-/

namespace KeyLime

/-- Nothing was written: the stored files, the open ones and what has been
sent are as before. -/
structure Unwritten (k k' : Kernel) : Prop where
  sent : k'.sent = k.sent
  store : k'.store = k.store
  resolve : k'.resolve = k.resolve
  file : ∀ g path off, k'.desc g = some (.file path off) ↔ k.desc g = some (.file path off)

variable {k k₁ k' : Kernel}

theorem Unwritten.of_desc (hs : k'.sent = k.sent) (hst : k'.store = k.store)
    (hr : k'.resolve = k.resolve) (hd : k'.desc = k.desc) : Unwritten k k' :=
  ⟨hs, hst, hr, fun _ _ _ => by rw [hd]⟩

theorem Unwritten.refl (k : Kernel) : Unwritten k k := .of_desc rfl rfl rfl rfl

namespace Master

variable {m m' : Master} {fd : Int} {p : Nat} {f : Flow}

theorem headerStage_unwritten (hr : Registry m) (hf : m.headerStage fd p = some f) :
    Unwritten m.kernel f.master.kernel := by
  cases headerStage_case hf with
  | skip => exact .refl _
  | more | header | reject => exact .of_desc rfl rfl rfl rfl
  | register r m₁ hst hgc hret hverb hifd hreg =>
      obtain ⟨l, -, rfl⟩ := register_eq hreg
      exact .of_desc rfl rfl rfl rfl
  | quit r hst hgc hret hfd =>
      refine ⟨rfl, rfl, rfl, ?_⟩
      intro g path off
      show Function.update m.kernel.desc m.interfaceFd none g = _ ↔ _
      by_cases hg : g = m.interfaceFd
      · subst hg
        rw [Function.update_self]
        refine iff_of_false nofun fun h => ?_
        obtain ⟨-, -, -, hsock, -⟩ := hr.iface (hr.ranged.ne h)
        rw [hsock] at h
        cases h
      · rw [Function.update_of_ne hg]

theorem sizeStage_unwritten (hf : m.sizeStage p = some f) :
    Unwritten m.kernel f.master.kernel := by
  cases sizeStage_case hf with
  | skip => exact .refl _
  | more | size | fail => exact .of_desc rfl rfl rfl rfl

theorem put_temp_sent {w : Worker} (hk : k.Ranged) (ho : w.Opened k) (bs : Bytes) :
    (k.put w.tempFd bs).sent = k.sent := by
  by_cases hbs : bs = []
  · rw [hbs, Kernel.put_nil]
  by_cases hne : w.tempFd = -1
  · cases hd : k.desc w.tempFd with
    | none => rw [Kernel.put_none hd]
    | some d => exact (hk.ne hd hne).elim
  · obtain ⟨off, hd⟩ := ho hne
    rw [Kernel.put_file hd hbs]

theorem getBinaryData_sent {w : Worker} (hk : k.Ranged) (ho : w.Opened k) (io : RecvIo) :
    (getBinaryData k w io).2.sent = k.sent := by
  obtain ⟨bs, hbs⟩ := getBinaryData_put k w io
  have hopen : (openTemp k w io).1.sent = k.sent := by
    rcases openTemp_cases k w io with ⟨heq, -⟩ | ⟨name, -, -, -, heq⟩ <;> rw [heq]
    rfl
  rw [hbs, put_temp_sent ((openTemp_ops k w io).extends hk).ranged (openTemp_opened ho io), hopen]

theorem received_kernel (io : RecvIo) :
    (m.received p io).kernel = (getBinaryData m.kernel (m.heap p) io).2.advance
      (m.heap p).workerFd (getBinaryData m.kernel (m.heap p) io).1.rest := by
  unfold received opening
  split <;> rfl

theorem dataStage_sent {io : RecvIo} (hk : m.kernel.Ranged) (ho : (m.heap p).Opened m.kernel)
    (hf : m.dataStage p io = some f) : f.master.kernel.sent = m.kernel.sent := by
  have key : (m.received p io).kernel.sent = m.kernel.sent := by
    rw [received_kernel]
    exact getBinaryData_sent hk ho io
  cases dataStage_case hf with
  | skip => rfl
  | more | data | fail => exact key

theorem parsePhase_sent {io : RecvIo} (hr : Registry m) (hat : At m fd p)
    (hs : (m.heap p).Sound) (ho : (m.heap p).Opened m.kernel)
    (hf : m.parsePhase fd p io = some f) : f.master.kernel.sent = m.kernel.sent := by
  rw [parsePhase, Flow.andThen_assoc] at hf
  rcases Flow.andThen_eq_some.mp hf with ⟨m₁, h1, rfl⟩ | ⟨m₁, h1, h2⟩
  · exact (headerStage_unwritten hr h1).sent
  · have ho1 := headerStage_opened hs ho h1
    have hr1 : Registry m₁ := hr.change hat (headerStage_change hr hat h1)
    have hs1 := (headerStage_unwritten hr h1).sent
    rcases Flow.andThen_eq_some.mp h2 with ⟨m₂, h3, rfl⟩ | ⟨m₂, h3, h4⟩
    · exact (sizeStage_unwritten h3).sent.trans hs1
    · have h5 := dataStage_sent (sizeStage_same hr1.ranged h3).kernel.ranged
        (sizeStage_opened ho1 h3) h4
      exact h5.trans ((sizeStage_unwritten h3).sent.trans hs1)

end Master

end KeyLime
