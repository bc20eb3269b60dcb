import KeyLime.Call

/-!
# How a frame is handled

`handle_data` parses the verb of a frame, and then goes by the descriptor:
a frame on `interface_fd` is a submission, any other a result. Where the
two criteria agree, and what becomes of an empty frame.

They disagree for a second interface, whose submissions are taken for results,
and for an interface that sends `PUT`, whose results are taken for submissions;
and an empty result is dropped, since its size is taken for the end of the
connection. `Agrees` is the negation of these three, a condition on the verb,
the descriptor and the length of the payload, and `handledAs_iff` says that it
decides.
-/

namespace KeyLime

open Resume

namespace Master

variable {m m' m₁ : Master} {fd : Int} {p : Nat} {io : DataIo} {arrived : List Item}

/-- The call has handled a frame with verb `v` and name `name` on `fd` as
the verb says. -/
def HandledAs (v : Command) (fd : Int) (name : Bytes) (m m' : Master) : Prop :=
  match v with
  | .interfacePut =>
      ∃ t, t.fileName = name ∧ madeTasks (newLog m m') = [t] ∧ scheduledTasks (newLog m m') = [t]
  | .put =>
      madeTasks (newLog m m') = [] ∧ removals (newLog m m') = [(fd, name)]
        ∧ targets (newLog m m') = [m'.interfaceFd]

/-- Where the verb and the descriptor agree, and a result is not empty. -/
def Agrees (m : Master) (fd : Int) (p : Nat) (v : Command) (got : Bytes) : Prop :=
  match v with
  | .interfacePut =>
      fd = m.interfaceFd ∨ (m.interfaceFd = -1 ∧ (m.heap p).status = .start)
  | .put => fd ≠ m.interfaceFd ∧ got ≠ []

/-- The call has read the last byte of a frame on record `p`. -/
def Receives (m : Master) (p : Nat) (m' : Master) : Prop :=
  ∃ last, .parsed .data p .doneSending last ∈ newLog m m'

theorem CallCase.received (hready : Ready m) (hat : At m fd p) (halive : (m.heap p).alive = true)
    (hc : CallCase fd p io m m') (hrec : Receives m p m') :
    ¬ ∃ f, m.parsePhase fd p io.recv = some f ∧ (f.master.heap p).status ≠ .forwardData
      ∧ m' = f.master := by
  rintro ⟨f, hpar, hst, rfl⟩
  obtain ⟨last, hmem⟩ := hrec
  have key : ∀ {m₁ : Master} {o : Obs}, Entered p m m₁ o →
      .parsed .data p .doneSending last ∈ newLog m m₁ → o = .parsed .data p .doneSending last := by
    rintro m₁ o ⟨l, hl, hp⟩ h
    rw [newLog_of_append (hl.trans (List.append_assoc ..))] at h
    rcases List.mem_append.mp h with h | h
    · rcases hp _ h with ⟨st, hne, h⟩ | ⟨name, h⟩
      · cases h
        exact (hne rfl).elim
      · cases h
    · exact (List.mem_singleton.mp h).symm
  cases parsePhase_unfinished hready hat halive hpar hst with
  | starved _ _ _ _ _ _ _ hlog => cases key hlog hmem
  | complete _ _ _ _ _ _ _ _ hst' => exact hst hst'
  | rejected _ _ _ hlog => cases key hlog hmem
  | failed _ _ _ _ hlog => cases key hlog hmem

theorem Complete.alive_of_receives {v : Command} {name got : Bytes}
    (hc : Complete fd p m m₁ v name got) (he : Ended p m₁ m') (hrec : Receives m p m') :
    (m₁.heap p).alive = decide (got ≠ []) := by
  rcases hc.now with ⟨-, rfl⟩ | ⟨-, hal, -⟩
  · obtain ⟨last, hmem⟩ := hrec
    obtain ⟨l, hl, hnot⟩ := he.log
    rw [newLog_of_append hl] at hmem
    exact (hnot _ _ _ _ hmem).elim
  · exact hal

/-- **Verbs.** A frame whose last byte a call reads is handled as its verb
says exactly when the verb agrees with the descriptor, and a result is not
empty. The code does not look at the verb again once the frame has ended: it
takes what comes on the interface's descriptor for a submission, and all else
for a result. -/
theorem handledAs_iff {v : Command} {name got : Bytes} (hr : Reachable m)
    (hs : Step m (.data fd arrived io) m') (hcur : m.current fd = some p)
    (hrec : Receives m p m') (hread : (m.reading p (m.stream fd arrived)).1 = .done v name got) :
    HandledAs v fd name m m' ↔ m.Agrees fd p v got := by
  obtain ⟨p', hat, hready0, hr0, hat0, -, hcase⟩ := hs.call hr
  obtain rfl := hat.unique hcur
  rcases hcase with ⟨-, rfl⟩ | ⟨hal, hcase⟩
  · obtain ⟨last, hmem⟩ := hrec
    simp [newLog, arriving] at hmem
  · have hfin : ∀ {m₁ : Master}, (m.arriving fd arrived).parsePhase fd p io.recv
          = some (.next m₁) → (m₁.heap p).status = .forwardData → Ended p m₁ m' →
        (m₁.heap p).tempFileName = some name ∧ (m₁.heap p).alive = decide (got ≠ [])
          ∧ (fd = m₁.interfaceFd ↔ m.Submits fd p v) := by
      intro m₁ hpar hst he
      obtain ⟨v', name', got', hcomp⟩ := parsePhase_complete hready0 hat0 hal hpar hst
      have hread' := congrArg Prod.fst hcomp.reading_eq
      obtain ⟨rfl, rfl, rfl⟩ := Dec.done.inj (hread.symm.trans hread')
      have hiff := hcomp.interface_iff hr0 hat0 hpar hst
      exact ⟨hcomp.name, hcomp.alive_of_receives he hrec, hiff⟩
    cases hcase with
    | unfinished f hpar hst heq =>
        exact (CallCase.received hready0 hat0 hal (.unfinished f hpar hst heq) hrec
          ⟨f, hpar, hst, heq⟩).elim
    | dropped m₁ hpar hst hfd hdead heq =>
        subst heq
        obtain ⟨-, halive, hiff⟩ := hfin hpar hst (.refl p m')
        obtain ⟨hmade, hrem⟩ := dropped_views (m := m.arriving fd arrived)
          (parsePhase_parserOnly hpar)
        have hgot : got = [] := by
          rw [hdead] at halive
          simpa using halive.symm
        rw [ne_eq, hiff, Submits, not_or] at hfd
        change madeTasks (newLog m m') = [] at hmade
        change removals (newLog m m') = [] at hrem
        cases v with
        | interfacePut =>
            refine iff_of_false ?_ fun h => h.elim hfd.1 fun h => hfd.2 ⟨h.1, h.2, rfl⟩
            rintro ⟨t, -, h, -⟩
            rw [hmade] at h
            cases h
        | put =>
            refine iff_of_false ?_ fun h => h.2 hgot
            rintro ⟨-, h, -⟩
            rw [hrem] at h
            cases h
    | submitted m₁ name' ret k hpar hst hname hfd hput heq =>
        obtain ⟨hname', -, hiff⟩ := hfin hpar hst (submitted_ended hput heq)
        obtain rfl := Option.some.inj (hname.symm.trans hname')
        obtain ⟨hmade, hsched⟩ := submitted_views (m := m.arriving fd arrived)
          (parsePhase_parserOnly hpar) heq
        change madeTasks (newLog m m') = _ at hmade
        change scheduledTasks (newLog m m') = _ at hsched
        rw [hiff, Submits] at hfd
        cases v with
        | interfacePut =>
            exact iff_of_true ⟨_, rfl, hmade, hsched⟩ (hfd.imp_right fun h => ⟨h.1, h.2.1⟩)
        | put =>
            refine iff_of_false ?_ fun h => hfd.elim h.1 (by simp)
            rintro ⟨h, -⟩
            rw [hmade] at h
            cases h
    | answered m₁ name' ret k hpar hst hname hfd hlive hput heq =>
        obtain ⟨hname', halive, hiff⟩ := hfin hpar hst (answered_ended hput heq)
        obtain rfl := Option.some.inj (hname.symm.trans hname')
        obtain ⟨hmade, hrem, htgt⟩ := answered_views (m := m.arriving fd arrived)
          (parsePhase_parserOnly hpar) heq
        have hwfd : (m₁.heap p).workerFd = fd :=
          (parsePhase_parserOnly hpar).record.workerFd.trans hat.workerFd
        have hifd : m'.interfaceFd = m₁.interfaceFd := by
          rw [heq]
          exact answered_interfaceFd name'
        have hgot : got ≠ [] := by
          rw [hlive] at halive
          exact of_decide_eq_true halive.symm
        change madeTasks (newLog m m') = _ at hmade
        change removals (newLog m m') = _ at hrem
        change targets (newLog m m') = _ at htgt
        rw [ne_eq, hiff, Submits, not_or] at hfd
        cases v with
        | interfacePut =>
            refine iff_of_false ?_ fun h => h.elim hfd.1 fun h => hfd.2 ⟨h.1, h.2, rfl⟩
            rintro ⟨t, -, h, -⟩
            rw [hmade] at h
            cases h
        | put => exact iff_of_true ⟨hmade, hwfd ▸ hrem, hifd ▸ htgt⟩ ⟨hfd.1, hgot⟩

/-- The first frame of the first interface is taken for a submission. -/
theorem handledAs_iff_first :
    ∃ m m', Reachable m ∧ Step m (.data 5 (submitFrame.map .byte) {}) m'
      ∧ HandledAs .interfacePut 5 [97] m m' := by
  obtain ⟨m, m', hr, hs, hv⟩ := execStep_spec id (v := true)
    ([.accept [⟨5, [], default⟩]]) (e := .data 5 (submitFrame.map .byte) {})
    (f := fun m m' => decide (m.current 5 = some 0
      ∧ .parsed .data 0 .doneSending (some .data) ∈ newLog m m'
      ∧ (m.reading 0 (m.stream 5 (submitFrame.map .byte))).1 = .done .interfacePut [97] [120]
      ∧ m.interfaceFd = -1 ∧ (m.heap 0).status = .start)) (by decide +kernel)
  obtain ⟨hcur, hrec, hread, hifd, hst⟩ := of_decide_eq_true hv
  exact ⟨m, m', hr, hs, (handledAs_iff hr hs hcur ⟨_, hrec⟩ hread).mpr (Or.inr ⟨hifd, hst⟩)⟩

/-- The first frame of a second interface is taken for a result: no task is
made of it. -/
theorem second_interface_not_handled :
    ∃ m m', Reachable m ∧ Step m (.data 6 (submitFrame.map .byte) {}) m'
      ∧ m.current 6 = some 1 ∧ Receives m 1 m'
      ∧ (m.reading 1 (m.stream 6 (submitFrame.map .byte))).1 = .done .interfacePut [97] [120]
      ∧ removals (newLog m m') = [(6, [97])] ∧ ¬ HandledAs .interfacePut 6 [97] m m' := by
  obtain ⟨m, m', hr, hs, hv⟩ := execStep_spec id (v := true)
    ([.accept [⟨5, [], default⟩, ⟨6, [], default⟩], .data 5 (submitFrame.map .byte) {}])
    (e := .data 6 (submitFrame.map .byte) {})
    (f := fun m m' => decide (m.current 6 = some 1
      ∧ .parsed .data 1 .doneSending (some .data) ∈ newLog m m'
      ∧ (m.reading 1 (m.stream 6 (submitFrame.map .byte))).1 = .done .interfacePut [97] [120]
      ∧ removals (newLog m m') = [(6, [97])] ∧ madeTasks (newLog m m') = []))
    (by decide +kernel)
  obtain ⟨hcur, hrec, hread, hrem, hmade⟩ := of_decide_eq_true hv
  refine ⟨m, m', hr, hs, hcur, ⟨_, hrec⟩, hread, hrem, ?_⟩
  rintro ⟨t, -, h, -⟩
  rw [hmade] at h
  cases h

end Master

end KeyLime
