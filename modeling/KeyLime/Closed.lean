import KeyLime.Targets

/-!
# Closed connections

A read that meets end-of-file in a header marks the record dead, and a dead
record is no target of `schedule`. But in the size and in the data
end-of-file is only printed, and a heartbeat revives the first record of
its address, closed or not. Where neither happens, a worker that has closed
its connection is not scheduled again.

`closed` is read off the history: some read on the connection of the record has
returned end-of-file. The theorem is about two stretches of a run: up to the
state in which the record is closed, and from there on, however long. Both are
runs within the condition (`closesInHeader`), since the record could be revived
at any time, and the invariant of the second stretch (`StillClosed`) says that
it stays dead and stays in the list.
-/

namespace KeyLime

open Transition Resume

namespace Master

variable {m m₀ m' m₁ : Master} {fd : Int} {p q : Nat} {io : DataIo} {e : Event} {t : Task}

/-- A read on the connection of record `p` returned end-of-file. -/
def IsEof (p : Nat) (o : Obs) : Prop := ∃ st ret, o = .parsed st p ret (some .eof)

/-- Such a read is in the history. -/
def closed (m : Master) (p : Nat) : Bool :=
  m.log.any fun
    | .parsed _ q _ (some .eof) => q == p
    | _ => false

theorem closed_iff : m.closed p = true ↔ ∃ o ∈ m.log, IsEof p o := by
  unfold closed IsEof
  rw [List.any_eq_true]
  refine exists_congr fun o => and_congr_right fun _ => ?_
  constructor
  · intro h
    split at h
    · rename_i st q ret _
      rw [beq_iff_eq] at h
      exact ⟨st, ret, h ▸ rfl⟩
    · cases h
  · rintro ⟨st, ret, rfl⟩
    exact beq_self_eq_true p

/-- End-of-file is met only in headers, but for the interface; and no
heartbeat is taken for one of a closed connection. -/
def closesInHeader (m : Master) : Event → Bool
  | .data fd arrived _ =>
      match m.current fd with
      | some p =>
          fd == m.interfaceFd || !(m.heap p).alive || ending (m.stream fd arrived) != .eof
            || (m.reading p (m.stream fd arrived)).1.inHeader
            || frameReader.final (m.reading p (m.stream fd arrived)).1
      | none => true
  | .heartbeat addr usage now =>
      match m.beating (.heartbeat addr usage now) with
      | some p => !m.closed p
      | none => true
  | _ => true

/-- The listed records of closed connections are dead. A record that registers as
the interface leaves the list, and is no concern here. -/
structure ClosedDead (m : Master) : Prop where
  lt : ∀ p, m.closed p = true → p < m.nextWorker
  dead : ∀ p ∈ m.workerList, m.closed p = true → (m.heap p).alive = false

/-- A call that meets end-of-file retires its record, or has met it behind a
header and before the end of the frame. -/
theorem CallCase.eof {o : Obs} (hready : Ready m) (hat : At m fd p)
    (halive : (m.heap p).alive = true) (hc : CallCase fd p io m m') (ho : o ∈ newLog m m')
    (hq : IsEof q o) :
    q = p ∧ ((m'.heap p).alive = false
      ∨ (ending (m.kernel.inbox fd) = .eof
        ∧ (frameReader.feed ((m.heap p).dec []) (readable (m.kernel.inbox fd))).1.inHeader = false
        ∧ frameReader.final
          (frameReader.feed ((m.heap p).dec []) (readable (m.kernel.inbox fd))).1 = false)) := by
  have hpassed : ¬ Passed p o := by
    obtain ⟨st, ret, rfl⟩ := hq
    rintro (⟨st', -, h⟩ | ⟨name, h⟩) <;> cases h
  have key : ∀ {m₁ : Master} {o' : Obs}, Entered p m m₁ o' → o ∈ newLog m m₁ → o = o' := by
    rintro m₁ o' ⟨l, hl, hp⟩ h
    rw [newLog_of_append (hl.trans (List.append_assoc ..))] at h
    rcases List.mem_append.mp h with h | h
    · exact (hpassed (hp _ h)).elim
    · exact List.mem_singleton.mp h
  rcases hc.ended hready hat halive with ⟨f, hpar, hst, rfl⟩ | ⟨m₁, v, name, got, hcomp, hend⟩
  · cases parsePhase_unfinished hready hat halive hpar hst with
    | starved m₁ st got hres hrun hend hinbox hlog =>
        obtain ⟨st', ret', heq⟩ := hq
        cases heq.symm.trans (key hlog ho)
    | complete _ _ _ _ _ _ _ _ hst' => exact (hst hst').elim
    | rejected f last hres hlog hst' hsound hdead =>
        obtain ⟨st', ret', heq⟩ := hq
        cases heq.symm.trans (key hlog ho)
        exact ⟨rfl, Or.inl hdead⟩
    | failed m₁ st last hres hlog hstage hst' hlast =>
        obtain ⟨st', ret', heq⟩ := hq
        cases heq.symm.trans (key hlog ho)
        rcases hlast with h | ⟨h, -, hrun⟩
        · cases h
        · exact ⟨rfl, Or.inr ⟨(Option.some.inj h).symm, hres.1, hrun⟩⟩
  · rcases hcomp.entries hend ho with h | ⟨last, hlast, rfl⟩ | h
    · exact (hpassed h).elim
    · obtain ⟨st', ret', heq⟩ := hq
      cases heq
      rcases hlast with h | h <;> cases h
    · obtain ⟨st', ret', rfl⟩ := hq
      exact (h _ _ _ _ rfl).elim

theorem At.lt (hr : Registry m) (hat : At m fd p) : p < m.nextWorker := by
  rcases hat.place with h | h
  · exact hr.lt p h.1
  · exact (hr.unlisted p h.1).2

theorem ClosedDead.old (hr : Reachable m) (h : ClosedDead m) (hs : Step m e m')
    (hc : m.closesInHeader e = true) (hcl : m.closed p = true) :
    p < m'.nextWorker ∧ (p ∈ m'.workerList → (m'.heap p).alive = false) := by
  have haged := hs.aged hr (h.lt p hcl)
  refine ⟨haged.lt, ?_⟩
  intro hp
  cases hal : (m'.heap p).alive with
  | false => rfl
  | true =>
      rcases haged.alive hal with h1 | h1
      · rw [h.dead p (haged.listed hp) hcl] at h1
        cases h1
      · cases e with
        | heartbeat addr usage now =>
            rw [closesInHeader, h1] at hc
            simp [hcl] at hc
        | _ => cases h1

theorem Step.closedDead (hr : Reachable m) (h : ClosedDead m) (hs : Step m e m')
    (hc : m.closesInHeader e = true) : ClosedDead m' := by
  suffices hnew : ∀ p, m'.closed p = true →
      p < m'.nextWorker ∧ (p ∈ m'.workerList → (m'.heap p).alive = false) from
    ⟨fun p hcl => (hnew p hcl).1, fun p hp hcl => (hnew p hcl).2 hp⟩
  intro p hcl
  by_cases hold : m.closed p = true
  · exact h.old hr hs hc hold
  -- the end-of-file is met in this step
  obtain ⟨o, ho, hq⟩ := closed_iff.mp hcl
  have hno : o ∉ m.log := fun hmem => hold (closed_iff.mpr ⟨o, hmem, hq⟩)
  cases e with
  | data fd arrived io =>
      obtain ⟨p', hat, hready0, hr0, hat0, -, hcase⟩ := hs.call hr
      rcases hcase with ⟨-, rfl⟩ | ⟨halive, hcase⟩
      · exact (hno ho).elim
      · obtain ⟨l, hl⟩ := hs.log hr
        have hmem : o ∈ newLog (m.arriving fd arrived) m' := by
          rw [newLog_of_append (m := m.arriving fd arrived) hl]
          exact (List.mem_append.mp (hl ▸ ho)).resolve_left hno
        obtain ⟨rfl, hdead⟩ := hcase.eof hready0 hat0 halive hmem hq
        have haged := hs.aged hr (hat.lt hr.registry)
        refine ⟨haged.lt, fun hp => hdead.resolve_right ?_⟩
        rintro ⟨heof, hheader, hrun⟩
        rw [arriving_inbox] at heof hheader hrun
        have hfd : fd ≠ m.interfaceFd :=
          hat.place.elim And.right fun h => (h.2.2 (haged.listed hp)).elim
        simp only [closesInHeader, hat.current, halive, heof] at hc
        change (m.reading p (m.stream fd arrived)).1.inHeader = false at hheader
        change frameReader.final (m.reading p (m.stream fd arrived)).1 = false at hrun
        simp [hfd, hheader, hrun] at hc
  | _ =>
      obtain ⟨l, hl, hpass⟩ := hs.passes hr.registry nofun
      obtain ⟨st, ret, rfl⟩ := hq
      rcases hpass _ ((List.mem_append.mp (hl ▸ ho)).resolve_left hno) with
        ⟨_, _, -, heq⟩ | ⟨_, _, _, heq⟩ <;> cases heq

theorem ReachableWithin.closedDead
    (h : ReachableWithin (fun m e _ => m.closesInHeader e = true) m) : ClosedDead m :=
  h.invariant (fun _ => ⟨nofun, nofun⟩)
    fun _ _ _ hr hi hs hc => Step.closedDead hr.reachable hi hs hc

/-- What holds of the record of a closed connection from `m₀` on. -/
structure StillClosed (m m₀ : Master) (p : Nat) : Prop where
  reach : ReachableWithin (fun m e _ => m.closesInHeader e = true) m
  listed : p ∈ m.workerList
  closed : m.closed p = true
  workerFd : (m.heap p).workerFd = (m₀.heap p).workerFd

/-- **Closed connections.** When a read on a worker's connection has returned
end-of-file, no later call of `schedule` returns its descriptor, in a run in
which end-of-file is met in headers only and heartbeats of its address are
taken for those of another record. Both parts are needed: elsewhere in a frame
the record stays alive, and a heartbeat makes a dead one alive again. -/
theorem closed_not_scheduled {r : Int}
    (h : ReachableWithin (fun m e _ => m.closesInHeader e = true) m₀)
    (hp : p ∈ m₀.workerList) (hcl : m₀.closed p = true)
    (hlater : Reach (Within Step fun m e _ => m.closesInHeader e = true) m₀ m)
    (hs : Step m e m') (ho : .scheduled t r ∈ newLog m m') : r ≠ (m₀.heap p).workerFd := by
  obtain ⟨hr, hp1, hcl1, hfd1⟩ : m.StillClosed m₀ p := by
    refine hlater.invariant (I := fun m => m.StillClosed m₀ p) ⟨h, hp, hcl, rfl⟩ ?_
    rintro m₁ e₁ m₂ - ⟨hr, hp1, hcl1, hfd1⟩ ⟨hs1, hc1⟩
    obtain ⟨l, hl⟩ := hs1.log hr.reachable
    have haged := hs1.aged hr.reachable (hr.closedDead.lt p hcl1)
    refine ⟨hr.step hs1 hc1, haged.stays hp1 (hr.closedDead.dead p hp1 hcl1), ?_,
      haged.workerFd.trans hfd1⟩
    obtain ⟨o, ho, hq⟩ := closed_iff.mp hcl1
    exact closed_iff.mpr ⟨o, hl ▸ List.mem_append_left _ ho, hq⟩
  rw [← hfd1]
  exact (hs.schedulable hr.reachable ho).ne_dead hr.reachable.registry hp1
    (hr.closedDead.dead p hp1 hcl1)

/-- A worker has quit, and the next submission goes to another one. -/
theorem closed_not_scheduled_quit :
    ∃ m m', Step m (.data 5 (submitFrame.map .byte) {}) m'
      ∧ .scheduled ⟨0, [97], 0, 0⟩ 7 ∈ newLog m m' ∧ 7 ≠ (m.heap 1).workerFd := by
  obtain ⟨m, m', hr, hs, -, hv⟩ := execStepWithin_spec (c := closesInHeader) id
    (v := true)
    ([.accept [⟨5, [], default⟩, ⟨6, [], default⟩, ⟨7, [], default⟩], .data 6 [.eof] {}])
    (e := .data 5 (submitFrame.map .byte) {})
    (f := fun m m' => decide (1 ∈ m.workerList ∧ m.closed 1 = true
      ∧ .scheduled ⟨0, [97], 0, 0⟩ 7 ∈ newLog m m')) (by decide +kernel)
  obtain ⟨hp, hcl, ho⟩ := of_decide_eq_true hv
  exact ⟨m, m', hs, ho, closed_not_scheduled hr hp hcl .refl hs ho⟩

/-- A worker that has quit behind the header of a result is given the next
submission. -/
theorem closed_scheduled :
    ∃ m m', Reachable m ∧ Step m (.data 5 (submitFrame.map .byte) {}) m'
      ∧ 1 ∈ m.workerList ∧ m.closed 1 = true ∧ (m.heap 1).workerFd = 6
      ∧ .scheduled ⟨0, [97], 0, 0⟩ 6 ∈ newLog m m' := by
  obtain ⟨m, m', hr, hs, hv⟩ := execStep_spec id (v := true)
    ([.accept [⟨5, [], default⟩, ⟨6, [], default⟩, ⟨7, [], default⟩],
      .data 6 (resultLine.map .byte ++ [.eof]) {}])
    (e := .data 5 (submitFrame.map .byte) {})
    (f := fun m m' => decide (1 ∈ m.workerList ∧ m.closed 1 = true
      ∧ (m.heap 1).workerFd = 6 ∧ .scheduled ⟨0, [97], 0, 0⟩ 6 ∈ newLog m m'))
    (by decide +kernel)
  exact ⟨m, m', hr, hs, of_decide_eq_true hv⟩

end Master

end KeyLime
