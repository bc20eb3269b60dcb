import KeyLime.Call

/-!
# Failed reads

Which failed reads retire their connection. In the header a failure marks
the record dead, and an interface that fails there is closed and
forgotten. In the size and in the data a failure is only printed.

The three stages of the parser return the same code for a failure, and
`handle_data` treats it in three ways; only the first is what a caller of the
parser would expect. A record that is not retired stays in the list, live and in
the middle of a frame, and its descriptor stays open with nothing more to come:
for a worker that means tasks for a peer that has gone, for the interface that
no other one is accepted in its place (`failure_not_retired`).

So the result is an equivalence on one quantity, where the reader of frames
stands when the failure comes (`Dec.beforeSize`), for every failing call in
every reachable state.
-/

namespace KeyLime

open Resume

/-- The reader of frames has not come beyond the header line. -/
def Dec.beforeSize (d : Dec) : Prop := d.inHeader = true ∨ d = .bad

instance (d : Dec) : Decidable d.beforeSize :=
  inferInstanceAs (Decidable (d.inHeader = true ∨ d = .bad))

namespace Master

variable {m m' m₁ : Master} {fd : Int} {p : Nat} {io : DataIo} {arrived : List Item}

/-- The connection of record `p` is retired: its record is dead, and if it
is the interface it has been closed and there is no interface. -/
def Retired (m : Master) (fd : Int) (p : Nat) (m' : Master) : Prop :=
  (m'.heap p).alive = false
    ∧ (fd = m.interfaceFd ∨ fd = m'.interfaceFd →
      m'.kernel.desc fd = none ∧ m'.interfaceFd = -1)

def IsFailure (o : Obs) : Prop := ∃ st p last, o = .parsed st p .bigFailure last

theorem Passed.not_failure {o : Obs} (h : Passed p o) : ¬ IsFailure o := by
  rintro ⟨st, q, last, rfl⟩
  rcases h with ⟨st', -, h⟩ | ⟨name, h⟩ <;> cases h

theorem Entered.failure {o o' : Obs} (h : Entered p m m' o) (ho' : o' ∈ newLog m m')
    (hf : IsFailure o') : o' = o := by
  obtain ⟨l, hl, hp⟩ := h
  rw [newLog_of_append (by rw [hl, List.append_assoc])] at ho'
  rcases List.mem_append.mp ho' with h | h
  · exact ((hp o' h).not_failure hf).elim
  · exact List.mem_singleton.mp h

theorem CallCase.failure {o : Obs} (hready : Ready m) (hat : At m fd p)
    (halive : (m.heap p).alive = true) (hc : CallCase fd p io m m') (ho : o ∈ newLog m m')
    (hf : IsFailure o) :
    ∃ f, m.parsePhase fd p io.recv = some f ∧ (f.master.heap p).status ≠ .forwardData
      ∧ m' = f.master := by
  rcases hc.ended hready hat halive with h | ⟨m₁, v, name, got, hcomp, hend⟩
  · exact h
  · rcases hcomp.entries hend ho with h | ⟨last, -, rfl⟩ | h
    · exact (h.not_failure hf).elim
    · obtain ⟨st, q, last', h⟩ := hf
      cases h
    · obtain ⟨st, q, last', rfl⟩ := hf
      exact (h _ _ _ _ rfl).elim

/-- **Failed reads.** A failure retires its connection exactly when the
stream has not come beyond the header. A failure of `get_command` clears
`alive`; one of the two parsers behind it is only reported, so that the record
lives, and keeps its place in the frame. -/
theorem failure_retires_iff {st : Stage} {q : Nat} {last : Option ReadResult}
    (hr : Reachable m) (hs : Step m (.data fd arrived io) m') (hcur : m.current fd = some p)
    (hfail : .parsed st q .bigFailure last ∈ newLog m m') :
    Retired m fd p m' ↔ (m.reading p (m.stream fd arrived)).1.beforeSize := by
  obtain ⟨p', hat, hready0, -, hat0, -, hcase⟩ := hs.call hr
  obtain rfl := hat.unique hcur
  rcases hcase with ⟨-, rfl⟩ | ⟨halive, hcase⟩
  · simp [newLog, arriving] at hfail
  · obtain ⟨f, hpar, hst, rfl⟩ := hcase.failure hready0 hat0 halive hfail ⟨st, q, last, rfl⟩
    cases parsePhase_reading hready0 hat0 halive hpar hst with
    | starved _ _ _ _ _ _ _ hlog =>
        have := hlog.failure (m := m.arriving fd arrived) hfail ⟨st, q, last, rfl⟩
        cases this
    | complete _ _ _ _ _ _ _ _ hst' => exact (hst hst').elim
    | rejected _ _ hres _ _ _ hal hflow =>
        refine iff_of_true ⟨hal, fun hfd => ?_⟩ (hres.imp And.left And.left)
        rcases hflow with ⟨-, -, hifd, hclosed⟩ | ⟨hne, -, hifd⟩
        · exact ⟨hclosed, hifd⟩
        · exact (hfd.elim hne fun h => hne (h.trans hifd)).elim
    | failed m₁ _ _ hres _ _ _ _ _ _ hal =>
        refine iff_of_false (fun h => ?_)
          fun h => h.elim (fun h1 => Bool.noConfusion (hres.1.symm.trans h1)) hres.2
        have hal' : (m₁.heap p).alive = false := h.1
        rw [hal] at hal'
        cases hal'

/-- An interface that waits for its next header quits, and is retired. -/
theorem failure_retires_iff_quit :
    ∃ m m', Reachable m ∧ Step m (.data 5 [.eof] {}) m' ∧ Retired m 5 0 m' := by
  obtain ⟨m, m', hr, hs, hv⟩ := execStep_spec id (v := true)
    ([.accept [⟨5, [], default⟩],
      .data 5 (submitFrame.map .byte) {}])
    (e := .data 5 [.eof] {})
    (f := fun m m' => decide (m.current 5 = some 0
      ∧ .parsed .header 0 .bigFailure (some .eof) ∈ newLog m m'
      ∧ (m.reading 0 (m.stream 5 [.eof])).1.beforeSize)) (by decide +kernel)
  obtain ⟨hcur, hfail, hbefore⟩ := of_decide_eq_true hv
  exact ⟨m, m', hr, hs, (failure_retires_iff hr hs hcur hfail).mpr hbefore⟩

/-- An interface that goes away behind its first header is never replaced. -/
theorem failure_not_retired :
    ∃ m m', Reachable m
      ∧ Step m (.data 5 (submitLine.map .byte ++ [.eof]) {}) m'
      ∧ m.current 5 = some 0 ∧ .parsed .size 0 .bigFailure (some .eof) ∈ newLog m m'
      ∧ m'.interfaceFd = 5 ∧ ¬ Retired m 5 0 m' := by
  obtain ⟨m, m', hr, hs, hv⟩ := execStep_spec id (v := true)
    ([.accept [⟨5, [], default⟩]])
    (e := .data 5 (submitLine.map .byte ++ [.eof]) {})
    (f := fun m m' => decide (m.current 5 = some 0
      ∧ .parsed .size 0 .bigFailure (some .eof) ∈ newLog m m'
      ∧ m'.interfaceFd = 5 ∧ (m'.heap 0).alive = true)) (by decide +kernel)
  obtain ⟨hcur, hfail, hifd, hal⟩ := of_decide_eq_true hv
  refine ⟨m, m', hr, hs, hcur, hfail, hifd, ?_⟩
  intro hret
  rw [hret.1] at hal
  cases hal

end Master

end KeyLime
