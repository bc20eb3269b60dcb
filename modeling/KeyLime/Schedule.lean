import Mathlib.Algebra.Order.Ring.Rat
import KeyLime.Handle

/-!
# The scheduler's effects

One equation for each way `schedule` and `scheduler_remove_task` can end,
and what `reschedule` does to a record: it completes only when the record
holds at most one task, which `schedule` then places again.

The last is no restriction of the model. The second loop of `reschedule` erases
at the positions 0, 1, … of a vector that shrinks as it goes, so with two tasks
it asks `vector_erase` for a position behind the last one; and the first loop has
placed both by then. So what is proved of recovery later is about a record with
one task or none, and that a pass does not come back otherwise is a theorem of
its own (`Reschedule`).

`Eligible` is the specification of the scan: live, and with a load below the
bound it starts with. What is picked is eligible (`bestWorker_eligible`), and
nothing is picked only if nobody is (`bestWorker_eq_none`).
-/

namespace KeyLime

namespace Master

variable {m m' : Master} {p q : Nat} {t : Task} {fd : Int} {name : Bytes}

/-! ## `schedule` -/

theorem schedule_of_none (h : m.bestWorker = none) :
    m.schedule t =
      ({ m with
          taskList := m.taskList ++ [t]
          kernel := m.kernel.lock.unlock
          log := m.log ++ [.scheduled t (-1)] }, -1) := by
  have h' : { m with kernel := m.kernel.lock }.bestWorker = none := h
  simp [schedule, h', record]

theorem schedule_of_some (h : m.bestWorker = some p) :
    m.schedule t =
      ({ m with
          heap := Function.update m.heap p
            { m.heap p with tasks := (m.heap p).tasks ++ [t] }
          kernel := m.kernel.lock.unlock
          log := m.log ++ [.scheduled t (m.heap p).workerFd] }, (m.heap p).workerFd) := by
  have h' : { m with kernel := m.kernel.lock }.bestWorker = some p := h
  simp [schedule, h', record, pushTask, set]

theorem schedule_record (t : Task) (q : Nat) :
    ∃ ts, (m.schedule t).1.heap q = { m.heap q with tasks := ts } := by
  cases hb : m.bestWorker with
  | none =>
      rw [schedule_of_none hb]
      exact ⟨_, rfl⟩
  | some p =>
      rw [schedule_of_some hb]
      by_cases hq : q = p
      · subst hq
        exact ⟨_, Function.update_self ..⟩
      · exact ⟨_, Function.update_of_ne hq ..⟩

theorem schedule_nextTask (t : Task) : (m.schedule t).1.nextTask = m.nextTask := by
  cases hb : m.bestWorker with
  | none => rw [schedule_of_none hb]
  | some p => rw [schedule_of_some hb]

theorem scheduleScan_mem (heap : Nat → Worker) :
    ∀ (ps : List Nat) (least : ℚ) (best : Option Nat),
      scheduleScan heap ps least best = some p →
        best = some p ∨ (p ∈ ps ∧ (heap p).alive = true ∧ loadFactor (heap p) < least)
  | [], least, best, h => Or.inl h
  | q :: ps, least, best, h => by
      rw [scheduleScan] at h
      split at h
      · rename_i hq
        rcases scheduleScan_mem heap ps _ _ h with heq | ⟨hp, hal, hlt⟩
        · obtain rfl := Option.some.inj heq
          exact Or.inr ⟨List.mem_cons_self .., hq⟩
        · exact Or.inr ⟨List.mem_cons_of_mem _ hp, hal, hlt.trans hq.2⟩
      · exact (scheduleScan_mem heap ps _ _ h).imp_right
          fun ⟨hp, hrest⟩ => ⟨List.mem_cons_of_mem _ hp, hrest⟩

/-- The scan finds nothing only when there is nothing below the bound. -/
theorem scheduleScan_none (heap : Nat → Worker) :
    ∀ (ps : List Nat) (least : ℚ) (best : Option Nat),
      scheduleScan heap ps least best = none →
        best = none ∧ ∀ p ∈ ps, (heap p).alive = true → ¬ loadFactor (heap p) < least
  | [], least, best, h => ⟨h, by simp⟩
  | q :: ps, least, best, h => by
      rw [scheduleScan] at h
      split at h
      · have := (scheduleScan_none heap ps _ _ h).1
        cases this
      · rename_i hq
        obtain ⟨hbest, hall⟩ := scheduleScan_none heap ps _ _ h
        refine ⟨hbest, ?_⟩
        intro p hp hal
        rcases List.mem_cons.mp hp with rfl | hp
        · exact fun hlt => hq ⟨hal, hlt⟩
        · exact hall p hp hal

/-- A record `schedule` could give a task to: listed, alive, and with a load below
the bound its scan begins with. -/
def Eligible (m : Master) (p : Nat) : Prop :=
  p ∈ m.workerList ∧ (m.heap p).alive = true ∧ loadFactor (m.heap p) < 100000000

theorem bestWorker_eligible (h : m.bestWorker = some p) : m.Eligible p := by
  rcases scheduleScan_mem m.heap m.workerList _ _ h with heq | hp
  · cases heq
  · exact hp

theorem bestWorker_eq_none : m.bestWorker = none ↔ ∀ p, ¬ m.Eligible p := by
  constructor
  · intro h p ⟨hp, hal, hlt⟩
    exact (scheduleScan_none m.heap m.workerList _ _ h).2 p hp hal hlt
  · intro h
    cases hb : m.bestWorker with
    | none => rfl
    | some p => exact (h p (bestWorker_eligible hb)).elim

/-! ## `scheduler_remove_task` -/

/-- The task a response for `name` on descriptor `fd` satisfies. -/
def finds (m : Master) (fd : Int) (name : Bytes) : Option (Nat × Nat) :=
  (m.ownerOf fd).bind fun p =>
    ((m.heap p).tasks.findIdx? fun t => t.fileName = name).map fun i => (p, i)

theorem schedulerRemoveTask_of_none (h : m.finds fd name = none) :
    m.schedulerRemoveTask fd name = m.record (.removed fd name none) := by
  unfold finds at h
  unfold schedulerRemoveTask
  cases ho : m.ownerOf fd with
  | none => rfl
  | some p =>
      rw [ho, Option.bind_some, Option.map_eq_none_iff] at h
      simp only [h]

theorem schedulerRemoveTask_of_some {i : Nat} (h : m.finds fd name = some (p, i)) :
    ∃ t, (m.heap p).tasks[i]? = some t ∧ t.fileName = name ∧ m.ownerOf fd = some p
      ∧ m.schedulerRemoveTask fd name =
        (m.set p { m.heap p with tasks := (m.heap p).tasks.eraseIdx i }).record
          (.removed fd name (some t)) := by
  unfold finds at h
  obtain ⟨p', ho, h⟩ := Option.bind_eq_some_iff.mp h
  obtain ⟨i', hi, heq⟩ := Option.map_eq_some_iff.mp h
  obtain ⟨rfl, rfl⟩ := Prod.mk.inj heq
  obtain ⟨hlt, hname, -⟩ := List.findIdx?_eq_some_iff_getElem.mp hi
  refine ⟨(m.heap p').tasks[i'], List.getElem?_eq_getElem hlt, by simpa using hname, ho, ?_⟩
  unfold schedulerRemoveTask
  simp only [ho, hi, List.getElem?_eq_getElem hlt]

theorem schedulerRemoveTask_record (fd : Int) (name : Bytes) (q : Nat) :
    ∃ ts, (m.schedulerRemoveTask fd name).heap q = { m.heap q with tasks := ts } := by
  cases hf : m.finds fd name with
  | none =>
      rw [schedulerRemoveTask_of_none hf]
      exact ⟨_, rfl⟩
  | some pi =>
      obtain ⟨t, -, -, -, heq⟩ := schedulerRemoveTask_of_some hf
      rw [heq]
      by_cases hq : q = pi.1
      · rw [hq]
        exact ⟨_, Function.update_self ..⟩
      · exact ⟨_, Function.update_of_ne hq ..⟩

theorem schedulerRemoveTask_frame (fd : Int) (name : Bytes) :
    ∃ heap log, m.schedulerRemoveTask fd name = { m with heap := heap, log := log } := by
  cases hf : m.finds fd name with
  | none => exact ⟨_, _, schedulerRemoveTask_of_none hf⟩
  | some pi =>
      obtain ⟨t, -, -, -, heq⟩ := schedulerRemoveTask_of_some hf
      exact ⟨_, _, heq⟩

theorem ownerOf_spec (h : m.ownerOf fd = some p) :
    p ∈ m.workerList ∧ (m.heap p).workerFd = fd := by
  unfold ownerOf at h
  exact ⟨List.mem_of_find?_eq_some h, by simpa using List.find?_some h⟩

/-! ## `reschedule` -/

theorem resend_eq {mem : Worker} {io : ResendIo} (h : m.resend mem t io = some m') :
    ∃ k ret, m' = { (m.schedule t).1 with kernel := k }.record
        (.resent t (m.schedule t).2 ret)
      ∧ doPut ((m.schedule t).1.kernel.openWithAllPermission t.fileName io.openOk).2
          (m.schedule t).2
          { mem with
            tempFileName := some t.fileName
            tempFd := ((m.schedule t).1.kernel.openWithAllPermission t.fileName io.openOk).1 }
          io.put = some (ret, k) := by
  unfold resend at h
  obtain ⟨⟨ret, k⟩, hput, rfl⟩ := Option.map_eq_some_iff.mp h
  exact ⟨k, ret, rfl, hput⟩

/-- Each round of the erase loop shortens the vector and moves the index up,
so the loop leaves the vector when it is to do more rounds than that allows. -/
theorem eraseAll_eq_none : ∀ (n i : Nat) (ts : List Task),
    0 < n → ts.length + 2 ≤ i + 2 * n → eraseAll n i ts = none
  | 0, _, _, h0, _ => absurd h0 (Nat.lt_irrefl 0)
  | n + 1, i, ts, _, hle => by
      rw [eraseAll, vectorErase]
      split
      · rename_i hi
        have hn : 0 < n := by omega
        have hlen : (ts.eraseIdx i).length = ts.length - 1 := List.length_eraseIdx_of_lt hi
        exact eraseAll_eq_none n (i + 1) _ hn (by omega)
      · rfl

theorem eraseAll_eq_some {ts ts' : List Task} (h : eraseAll ts.length 0 ts = some ts') :
    ts' = [] ∧ (ts = [] ∨ ∃ t, ts = [t]) := by
  match ts, h with
  | [], h => exact ⟨(Option.some.inj h).symm, Or.inl rfl⟩
  | [t], h => exact ⟨(Option.some.inj h).symm, Or.inr ⟨t, rfl⟩⟩
  | t :: u :: ts, h =>
      rw [eraseAll_eq_none _ _ _ (by simp) (by simp only [List.length_cons]; omega)] at h
      cases h

theorem schedule_dead (h : (m.heap p).alive = false) :
    (m.schedule t).1.heap p = m.heap p := by
  cases hb : m.bestWorker with
  | none => rw [schedule_of_none hb]
  | some q =>
      rw [schedule_of_some hb]
      have hne : p ≠ q := fun heq => by
        subst heq
        rw [(bestWorker_eligible hb).2.1] at h
        cases h
      exact Function.update_of_ne hne _ _

theorem resend_dead {mem : Worker} {io : ResendIo} (h : m.resend mem t io = some m')
    (hal : (m.heap p).alive = false) : m'.heap p = m.heap p := by
  obtain ⟨k, ret, rfl, -⟩ := resend_eq h
  exact schedule_dead hal

theorem resendAll_dead {mem : Worker} :
    ∀ {ts : List Task} {ios : List ResendIo} {m : Master}, m.resendAll mem ts ios = some m' →
      (m.heap p).alive = false → m'.heap p = m.heap p
  | [], _, _, h, _ => by rw [Option.some.inj h]
  | t :: ts, ios, m, h, hal => by
      rw [resendAll] at h
      obtain ⟨m₁, h1, h2⟩ := Option.bind_eq_some_iff.mp h
      have heq := resend_dead h1 hal
      exact (resendAll_dead h2 (heq ▸ hal)).trans heq

/-- A completed `reschedule` of a dead record has found no task on it, or
one, which is then placed and sent again. -/
theorem reschedule_spec {mem : Worker} {ios : List ResendIo}
    (h : m.reschedule p mem ios = some m') (hal : (m.heap p).alive = false) :
    ((m.heap p).tasks = [] ∧ m' = m)
      ∨ ∃ t m₁, (m.heap p).tasks = [t] ∧ m.resend mem t (ios.headD {}) = some m₁
        ∧ m' = m₁.set p { m.heap p with tasks := [] } := by
  unfold reschedule at h
  obtain ⟨m₁, h1, h2⟩ := Option.bind_eq_some_iff.mp h
  obtain ⟨ts, hts, rfl⟩ := Option.map_eq_some_iff.mp h2
  rw [resendAll_dead h1 hal] at hts ⊢
  obtain ⟨rfl, hnil | ⟨t, ht⟩⟩ := eraseAll_eq_some hts
  · left
    rw [hnil] at h1
    obtain rfl := Option.some.inj h1
    refine ⟨hnil, ?_⟩
    have : { m.heap p with tasks := [] } = m.heap p := by rw [← hnil]
    rw [this, set, Function.update_eq_self]
  · right
    rw [ht, resendAll] at h1
    obtain ⟨m₂, hm₂, heq⟩ := Option.bind_eq_some_iff.mp h1
    obtain rfl := Option.some.inj heq
    exact ⟨t, m₂, ht, hm₂, rfl⟩

end Master

end KeyLime
