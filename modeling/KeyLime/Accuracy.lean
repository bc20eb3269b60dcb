import KeyLime.Beats
import KeyLime.Dispatch

/-!
# The failure detector is accurate

What the records say of heartbeats may be missing (`beat_reset`), but it is
never wrong: a time in a record is that of the last heartbeat it was credited
with. So a pass takes for dead only what has been silent, and as long as
heartbeats come in time nothing is moved: each task is scheduled once, when
it is made.

The invariant is `Credible`. A step that forgets the time of a record keeps it, as
a forgotten time is no wrong one, and `silent` is false of a record without a
time; a heartbeat that is credited sets the time in the record and in `beats`
alike. `detectPass_kills` then reads off a pass what it has taken for dead.

`timely` is a condition on each pass of a run: no listed record has had its last
heartbeat more than three seconds before. Such a pass changes no record
(`detectPass_still`), so `reschedule` is not called in the whole run, and every
`schedule` in the history is that of a submission (`Direct`).
-/

namespace Transition

variable {σ ε : Type*} {T : σ → ε → σ → Prop} {s₀ : σ}

theorem Reach.foldlM {f : σ → ε → Option σ} (hf : ∀ s e s', f s e = some s' → T s e s') :
    ∀ {es : List ε} {s s' : σ}, Reach T s₀ s → es.foldlM f s = some s' → Reach T s₀ s'
  | [], _, _, hr, h => Option.some.inj h ▸ hr
  | e :: es, s, s', hr, h => by
      rw [List.foldlM_cons] at h
      obtain ⟨s₁, h1, h2⟩ := Option.bind_eq_some_iff.mp h
      exact Reach.foldlM hf (hr.step (hf s e s₁ h1)) h2

end Transition

namespace KeyLime

open Bookkeeping Transition

namespace Master

variable {m m' m₁ : Master} {fd : Int} {p q : Nat} {io : DataIo} {e : Event} {t : Task}
  {beats : Nat → Option ℚ}

/-! ## Times are those of heartbeats -/

/-- A time in a record is that of the last heartbeat it was credited with. The
converse fails: a record that is reset has no time, whatever it had before. -/
def Credible (m : Master) (beats : Nat → Option ℚ) : Prop :=
  ∀ q, 0 < (m.heap q).lastBeatReceived → beats q = some (m.heap q).lastBeatReceived

theorem Credible.of_heap (h : Credible m beats)
    (hbeat : ∀ q, (m'.heap q).lastBeatReceived = 0
      ∨ (m'.heap q).lastBeatReceived = (m.heap q).lastBeatReceived) : Credible m' beats := by
  intro q hq
  rcases hbeat q with hzero | hsame
  · rw [hzero] at hq
    exact (lt_irrefl _ hq).elim
  · rw [hsame] at hq ⊢
    exact h q hq

/-- A call leaves the times of other records alone, and that of its own or
resets it. -/
theorem CallCase.lastBeat (hr : Registry m) (hat : At m fd p) (hc : CallCase fd p io m m')
    (q : Nat) : (m'.heap q).lastBeatReceived = 0
      ∨ (m'.heap q).lastBeatReceived = (m.heap q).lastBeatReceived := by
  by_cases hq : q = p
  · rw [hq]
    cases hc with
    | unfinished f hpar hst heq =>
        exact Or.inr (heq ▸ (parsePhase_parserOnly hpar).record.lastBeat)
    | dropped m₁ hpar hst hfd hal heq =>
        exact Or.inr (heq ▸ (parsePhase_parserOnly hpar).record.lastBeat)
    | submitted | answered =>
        left
        subst m'
        rw [forwarded_self]
        rfl
  · obtain ⟨ts, hrec⟩ := (hc.attended hr hat).others q hq
    exact Or.inr (by rw [hrec])

theorem Step.credible (hr : Reachable m) (h : Credible m beats) (hs : Step m e m') :
    Credible m' (m.beatsAfter beats e) := by
  cases e with
  | accept cs =>
      obtain rfl := Option.some.inj hs.2
      refine acceptConnections_invariant (I := fun m => Credible m beats) (fun m c hm => ?_) h
      refine hm.of_heap fun q => ?_
      by_cases hq : q = m.nextWorker
      · left
        rw [hq, acceptOne_new]
        rfl
      · exact Or.inr (congrArg Worker.lastBeatReceived (acceptOne_of_ne c hq))
  | data fd arrived io =>
      obtain ⟨p, -, -, hr0, hat0, -, hcase⟩ := hs.call hr
      have h0 : Credible (m.arriving fd arrived) beats := h
      rcases hcase with ⟨-, rfl⟩ | ⟨-, hcase⟩
      · exact h0
      · exact h0.of_heap (hcase.lastBeat hr0 hat0)
  | heartbeat addr usage now =>
      obtain rfl := Option.some.inj hs.2
      rw [beatsAfter]
      cases hfind : m.workerList.find? fun p => (m.heap p).ip = addr with
      | none =>
          rw [reportHeartbeat, hfind]
          exact h
      | some p =>
          intro q hq
          rw [reportHeartbeat_credited _ _ hfind q] at hq ⊢
          by_cases hqp : q = p
          · subst hqp
            simp
          · rw [if_neg hqp] at hq ⊢
            simpa [hqp] using h q hq
  | detect now mem ios => exact h.of_heap fun q => Or.inr (detectPass_lastBeat q hs.2)

theorem TimedStep.credible {s s' : Master × (Nat → Option ℚ)} (hs : TimedStep s e s')
    (h : Reachable s.1 ∧ Credible s.1 s.2) : Reachable s'.1 ∧ Credible s'.1 s'.2 := by
  obtain ⟨hstep, hbeats⟩ := hs
  rw [hbeats]
  exact ⟨h.1.step hstep, hstep.credible h.1 h.2⟩

theorem init_credible (resolve : Bytes → Bytes) : Credible (init resolve) fun _ => none :=
  fun _ h => (lt_irrefl _ h).elim

theorem TimedWithin.credible {c : Master → Event → Bool} (h : TimedWithin c m beats) :
    Reachable m ∧ Credible m beats := by
  obtain ⟨resolve, h⟩ := h
  exact h.invariant (I := fun s => Reachable s.1 ∧ Credible s.1 s.2)
    ⟨⟨resolve, .refl⟩, init_credible resolve⟩ fun s e s' _ hi hs => TimedStep.credible hs.1 hi

/-! ## What a pass takes for dead -/

theorem detectPass_kills {now : ℚ} {mem : Worker} {ios : Nat → List ResendIo} :
    ∀ {ps : List Nat} {m : Master}, m.detectPass now mem ios ps = some m' →
      (m.heap q).alive = true → (m'.heap q).alive = false → silent (m.heap q) now = true
  | [], m, h, halive, hdead => by
      obtain rfl := Option.some.inj h
      rw [halive] at hdead
      cases hdead
  | p :: ps, m, h, halive, hdead => by
      rw [detectPass] at h
      split at h
      · rename_i hsil
        obtain ⟨m₁, h1, h2⟩ := Option.bind_eq_some_iff.mp h
        by_cases hq : q = p
        · exact hq ▸ hsil
        · have hal1 := reschedule_alive (by simp) h1 q
          have hbeat1 := reschedule_lastBeat (by simp) h1 q
          rw [set_heap_of_ne _ hq] at hal1 hbeat1
          have hsil1 := detectPass_kills h2 (hal1.trans halive) hdead
          rw [silent, hal1, hbeat1] at hsil1
          exact hsil1
      · exact detectPass_kills (m := { m with kernel := m.kernel.lock.unlock }) h halive hdead

/-- **Only silent workers are taken for dead.** A record that a detection pass
marks had its last heartbeat, and it had one, more than three seconds before the
pass. The run is any: what is forgotten of heartbeats makes the detector pass
over a record, never suspect one. -/
theorem suspects_silent {c : Master → Event → Bool} {now : ℚ} {mem : Worker}
    {ios : Nat → List ResendIo} (h : TimedWithin c m beats) (hs : Step m (.detect now mem ios) m')
    (halive : (m.heap p).alive = true) (hdead : (m'.heap p).alive = false) :
    ∃ t, beats p = some t ∧ 3 < now - t := by
  have hsil := detectPass_kills hs.2 halive hdead
  simp only [silent, Bool.and_eq_true, decide_eq_true_eq] at hsil
  exact ⟨_, h.credible.2 p hsil.1.1, hsil.2⟩

/-- A worker is taken for dead four seconds after its heartbeat. -/
theorem suspects_silent_one :
    ∃ m m' beats, TimedWithin (fun _ _ => true) m beats
      ∧ Step m (.detect 5 default fun _ => []) m' ∧ (m'.heap 0).alive = false
      ∧ ∃ t, beats 0 = some t ∧ 3 < 5 - t := by
  obtain ⟨m, beats, h, hv⟩ := execTimed_spec (c := fun _ _ => true) id
    ([.accept [⟨6, [1], default⟩], .heartbeat [1] 50 1])
    (f := fun m _ => decide ((m.heap 0).alive = true
      ∧ (m.handle (.detect 5 default fun _ => [])).map (fun m' => (m'.heap 0).alive) = some false))
    (by decide +kernel)
  obtain ⟨halive, hstep⟩ := of_decide_eq_true hv
  obtain ⟨m', hm', hdead⟩ := Option.map_eq_some_iff.mp hstep
  exact ⟨m, m', beats, h, ⟨rfl, hm'⟩, hdead, suspects_silent h ⟨rfl, hm'⟩ halive hdead⟩

/-! ## Runs in which heartbeats come in time -/

/-- At a pass, no listed record had its last heartbeat more than three seconds
before. -/
def timely (s : Master × (Nat → Option ℚ)) : Event → Bool
  | .detect now _ _ => s.1.workerList.all fun p =>
      match s.2 p with
      | some t => decide (now - t ≤ 3)
      | none => true
  | _ => true

/-- `m` is reached in some run in which all heartbeats come in time. -/
def Timely (m : Master) (beats : Nat → Option ℚ) : Prop :=
  ∃ resolve, Reach (Within TimedStep fun s e _ => timely s e = true) (init resolve, fun _ => none)
    (m, beats)

theorem detectPass_still {now : ℚ} {mem : Worker} {ios : Nat → List ResendIo} :
    ∀ {ps : List Nat} {m : Master}, (∀ p ∈ ps, silent (m.heap p) now = false) →
      m.detectPass now mem ios ps = some m' → m' = { m with kernel := m'.kernel }
  | [], m, _, h => by
      obtain rfl := Option.some.inj h
      rfl
  | p :: ps, m, hno, h => by
      rw [detectPass, if_neg (by simp [hno p (List.mem_cons_self ..)])] at h
      exact detectPass_still (m := { m with kernel := m.kernel.lock.unlock })
        (fun q hq => hno q (List.mem_cons_of_mem _ hq)) h

/-- No record is silent at a pass to which all heartbeats have come in time. -/
theorem Credible.not_silent {now : ℚ} {mem : Worker} {ios : Nat → List ResendIo}
    (h : Credible m beats) (ht : timely (m, beats) (.detect now mem ios) = true)
    (hp : p ∈ m.workerList) : silent (m.heap p) now = false := by
  cases hsil : silent (m.heap p) now with
  | false => rfl
  | true =>
      simp only [silent, Bool.and_eq_true, decide_eq_true_eq] at hsil
      have hbeat := List.all_eq_true.mp ht p hp
      simp only [h p hsil.1.1, decide_eq_true_eq] at hbeat
      exact (not_lt_of_ge hbeat hsil.2).elim

/-- Tasks are scheduled when they are made, in that order, and never sent again:
what the history shows of a run in which `reschedule` was not called. -/
structure Direct (l : List Obs) : Prop where
  scheduled : scheduledTasks l = madeTasks l
  resent : ∀ t dst ret, .resent t dst ret ∉ l

theorem Direct.append {l l' : List Obs} (h : Direct l) (h' : Direct l') : Direct (l ++ l') := by
  constructor
  · rw [scheduledTasks, List.filterMap_append, madeTasks_append]
    exact congrArg₂ _ h.scheduled h'.scheduled
  · intro t dst ret hmem
    exact (List.mem_append.mp hmem).elim (h.resent t dst ret) (h'.resent t dst ret)

theorem Direct.of_parsing {l : List Obs} (h : ∀ o ∈ l, OfParser p o) : Direct l := by
  constructor
  · rw [scheduledTasks, madeTasks, List.filterMap_eq_nil_iff.mpr, List.filterMap_eq_nil_iff.mpr] <;>
      intro o ho <;> rcases h o ho with ⟨_, _, _, rfl⟩ | ⟨_, rfl⟩ <;> rfl
  · intro t dst ret hmem
    rcases h _ hmem with ⟨_, _, _, heq⟩ | ⟨_, heq⟩ <;> cases heq

theorem CallCase.direct (hc : CallCase fd p io m m') (h : Direct m.log) : Direct m'.log := by
  have hmid : ∀ {f : Flow}, m.parsePhase fd p io.recv = some f → Direct f.master.log :=
    fun hpar => by
      obtain ⟨l, hl, ho⟩ := (parsePhase_parserOnly hpar).log
      exact hl ▸ h.append (.of_parsing ho)
  cases hc with
  | unfinished f hpar hst heq => exact heq ▸ hmid hpar
  | dropped m₁ hpar hst hfd hal heq => exact heq ▸ hmid hpar
  | submitted m₁ name ret k hpar hst hname hfd hput heq =>
      rw [heq, forwarded_log, submitted_log]
      exact ((hmid hpar).append ⟨rfl, by simp⟩).append ⟨rfl, by simp⟩
  | answered m₁ name ret k hpar hst hname hfd hal hput heq =>
      rw [heq, forwarded_log, answered_log]
      exact ((hmid hpar).append ⟨rfl, by simp⟩).append ⟨rfl, by simp⟩

theorem Step.direct (hr : Reachable m) (hk : Credible m beats) (ht : timely (m, beats) e = true)
    (h : Direct m.log) (hs : Step m e m') : Direct m'.log := by
  cases e with
  | accept cs =>
      obtain rfl := Option.some.inj hs.2
      rw [acceptConnections_log]
      exact h
  | data fd arrived io =>
      obtain ⟨p, -, -, -, -, -, hcase⟩ := hs.call hr
      have h0 : Direct (m.arriving fd arrived).log := h
      rcases hcase with ⟨-, rfl⟩ | ⟨-, hcase⟩
      · exact h0
      · exact hcase.direct h0
  | heartbeat addr usage now =>
      obtain rfl := Option.some.inj hs.2
      rw [reportHeartbeat_log]
      exact h
  | detect now mem ios =>
      rw [detectPass_still (fun p hp => hk.not_silent ht hp) hs.2]
      exact h

theorem Timely.direct (h : Timely m beats) : Reachable m ∧ Direct m.log := by
  obtain ⟨resolve, h⟩ := h
  have hinv := h.invariant (I := fun s => (Reachable s.1 ∧ Credible s.1 s.2) ∧ Direct s.1.log)
    ⟨⟨⟨resolve, .refl⟩, init_credible resolve⟩, ⟨rfl, by simp [init]⟩⟩
    fun s e s' _ hi hs =>
      ⟨TimedStep.credible hs.1 hi.1, Step.direct hi.1.1 hi.1.2 hs.2 hi.2 hs.1.1⟩
  exact ⟨hinv.1.1, hinv.2⟩

/-- **Each task is dispatched once** in a run in which heartbeats come in
time, and the worker it was given to then is the only one that ever has it.
`schedule` has been called for the tasks in the order in which they were made,
and nothing has been sent again. -/
theorem dispatched_once (h : Timely m beats) :
    scheduledTasks m.log = madeTasks m.log ∧ (scheduledTasks m.log).Nodup
      ∧ (∀ t dst ret, .resent t dst ret ∉ m.log)
      ∧ ∀ q < m.nextWorker, ∀ t ∈ (m.heap q).tasks, ∀ r, .scheduled t r ∈ m.log →
        r = (m.heap q).workerFd := by
  obtain ⟨hr, hdirect⟩ := h.direct
  have hnodup : (scheduledTasks m.log).Nodup := hdirect.scheduled ▸ hr.conserved.nodup
  refine ⟨hdirect.scheduled, hnodup, hdirect.resent, ?_⟩
  intro q hq t ht r hmem
  refine lastPlace_unique ?_ (hr.traced.lists q hq t ht) (List.mem_filterMap.mpr ⟨_, hmem, rfl⟩)
  rw [map_placements]
  exact hnodup

def handleTimely (s : Master × (Nat → Option ℚ)) (e : Event) :
    Option (Master × (Nat → Option ℚ)) :=
  if s.1.enabled e && timely s e then (s.1.handle e).map (·, s.1.beatsAfter s.2 e) else none

theorem handleTimely_step {s s' : Master × (Nat → Option ℚ)} (h : handleTimely s e = some s') :
    Within TimedStep (fun s e _ => timely s e = true) s e s' := by
  rw [handleTimely] at h
  split at h
  · rename_i hen
    rw [Bool.and_eq_true] at hen
    obtain ⟨m', hm', rfl⟩ := Option.map_eq_some_iff.mp h
    exact ⟨⟨⟨hen.1, hm'⟩, rfl⟩, hen.2⟩
  · cases h

/-- A task that is with a worker whose heartbeat came two seconds before a
pass. -/
theorem dispatched_once_one :
    ∃ m beats t, Timely m beats ∧ beats 1 = some 1 ∧ (m.heap 1).tasks = [t]
      ∧ scheduledTasks m.log = madeTasks m.log ∧ (scheduledTasks m.log).Nodup
      ∧ ∀ r, .scheduled t r ∈ m.log → r = 6 := by
  have hrun : (List.foldlM handleTimely (init id, fun _ => none)
      [.accept [⟨5, [], default⟩, ⟨6, [1], default⟩], .heartbeat [1] 1 1,
        .data 5 (submitFrame.map .byte) {}, .detect 3 default fun _ => []]).map
      (fun s => decide (s.2 1 = some 1 ∧ 1 < s.1.nextWorker
        ∧ (s.1.heap 1).tasks = [⟨0, [97], 0, 0⟩] ∧ (s.1.heap 1).workerFd = 6)) = some true := by
    decide +kernel
  obtain ⟨⟨m, beats⟩, hm, hv⟩ := Option.map_eq_some_iff.mp hrun
  obtain ⟨hbeat, hlt, htasks, hfd⟩ := of_decide_eq_true hv
  have h : Timely m beats := ⟨id, Reach.foldlM (fun _ _ _ => handleTimely_step) .refl hm⟩
  obtain ⟨hmade, hnodup, -, honly⟩ := dispatched_once h
  refine ⟨m, beats, ⟨0, [97], 0, 0⟩, h, hbeat, htasks, hmade, hnodup, ?_⟩
  intro r hr
  have hmem : (⟨0, [97], 0, 0⟩ : Task) ∈ (m.heap 1).tasks := htasks ▸ List.mem_singleton_self _
  exact (honly 1 hlt _ hmem r hr).trans hfd

end Master

end KeyLime
