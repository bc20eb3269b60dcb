import KeyLime.Scheduler

/-!
# The record `schedule` chooses

`schedule` gets its list of records as a vector of pointers and passes over
the null ones. Its scan keeps the least load seen so far and the record it was
seen on, and ends on the first of the live records with the least load
(`scheduleLoop_first`). What it then does is one push (`schedules_first_least`).

The scan starts from a load of 100000000, and a record is taken only below that.
Nothing checks the usages that are reported, so the results speak of the live
records below the bound; if there is none, the task goes to `task_list`. Loads
are compared as rationals, where the code has doubles.

In the model of the master the list has no null pointers, and
`schedule_eq_scheduleOn` says that its `schedule` is this one.
-/

namespace KeyLime

namespace Master

variable {m : Master} {heap : Nat → Worker} {p : Nat} {t : Task} {least : ℚ} {best : Option Nat}
  {ps : List (Option Nat)}

/-- The loop of `schedule`, on the pointers still to see. -/
def scheduleLoop (heap : Nat → Worker) : List (Option Nat) → ℚ → Option Nat → Option Nat
  | [], _, best => best
  | none :: ps, least, best => scheduleLoop heap ps least best
  | some p :: ps, least, best =>
      if (heap p).alive = true then
        if loadFactor (heap p) < least then scheduleLoop heap ps (loadFactor (heap p)) (some p)
        else scheduleLoop heap ps least best
      else scheduleLoop heap ps least best

/-- `schedule(t, list)`. -/
def scheduleOn (m : Master) (t : Task) (list : List (Option Nat)) : Master × Int :=
  let m := { m with kernel := m.kernel.lock }
  match scheduleLoop m.heap list 100000000 none with
  | none =>
      ({ m with taskList := m.taskList ++ [t], kernel := m.kernel.unlock }.record
        (.scheduled t (-1)), -1)
  | some p =>
      let m := m.pushTask p t
      ({ m with kernel := m.kernel.unlock }.record (.scheduled t (m.heap p).workerFd),
        (m.heap p).workerFd)

/-! ## On `worker_list` -/

theorem scheduleLoop_eq (heap : Nat → Worker) (ps : List Nat) (least : ℚ) (best : Option Nat) :
    scheduleLoop heap (ps.map some) least best = scheduleScan heap ps least best := by
  induction ps generalizing least best with
  | nil => rfl
  | cons p ps ih =>
      rw [List.map_cons, scheduleLoop, scheduleScan, ih, ih]
      by_cases hal : (heap p).alive = true <;> simp [hal]

theorem schedule_eq_scheduleOn (t : Task) :
    m.schedule t = m.scheduleOn t (m.workerList.map some) := by
  unfold scheduleOn
  dsimp only
  rw [scheduleLoop_eq]
  rfl

/-! ## The scan -/

/-- `p` is the first of the live records of the list with the least load. -/
def FirstLeast (heap : Nat → Worker) (ps : List (Option Nat)) (p : Nat) : Prop :=
  (heap p).alive = true
    ∧ (∀ q, some q ∈ ps → (heap q).alive = true → loadFactor (heap p) ≤ loadFactor (heap q))
    ∧ ∃ l₁ l₂, ps = l₁ ++ some p :: l₂
      ∧ ∀ q, some q ∈ l₁ → (heap q).alive = true → loadFactor (heap p) < loadFactor (heap q)

theorem FirstLeast.cons {x : Option Nat} (h : FirstLeast heap ps p)
    (hx : ∀ q, x = some q → (heap q).alive = true → loadFactor (heap p) < loadFactor (heap q)) :
    FirstLeast heap (x :: ps) p := by
  obtain ⟨hal, hmin, l₁, l₂, rfl, hfirst⟩ := h
  refine ⟨hal, ?_, x :: l₁, l₂, rfl, ?_⟩
  · intro q hq halq
    rcases List.mem_cons.mp hq with heq | hq
    · exact (hx q heq.symm halq).le
    · exact hmin q hq halq
  · intro q hq halq
    rcases List.mem_cons.mp hq with heq | hq
    · exact hx q heq.symm halq
    · exact hfirst q hq halq

/-- What the rest of the scan does: nothing when no live record is below the
least load so far, and else it ends on the first one with the least. -/
theorem scheduleLoop_first (heap : Nat → Worker) (ps : List (Option Nat)) (least : ℚ)
    (best : Option Nat) :
    (scheduleLoop heap ps least best = best
        ∧ ∀ q, some q ∈ ps → (heap q).alive = true → least ≤ loadFactor (heap q))
      ∨ ∃ p, scheduleLoop heap ps least best = some p ∧ loadFactor (heap p) < least
        ∧ FirstLeast heap ps p := by
  induction ps generalizing least best with
  | nil => exact Or.inl ⟨rfl, fun q hq => absurd hq List.not_mem_nil⟩
  | cons x ps ih =>
      -- a pointer that changes nothing: null, or not below the least so far
      have hskip : (∀ q, x = some q → (heap q).alive = true → least ≤ loadFactor (heap q)) →
          scheduleLoop heap (x :: ps) least best = scheduleLoop heap ps least best →
          (scheduleLoop heap (x :: ps) least best = best
              ∧ ∀ q, some q ∈ x :: ps → (heap q).alive = true → least ≤ loadFactor (heap q))
            ∨ ∃ p, scheduleLoop heap (x :: ps) least best = some p ∧ loadFactor (heap p) < least
              ∧ FirstLeast heap (x :: ps) p := by
        intro hx heq
        rw [heq]
        rcases ih least best with ⟨hres, hall⟩ | ⟨p, hres, hlt, hfirst⟩
        · refine Or.inl ⟨hres, fun q hq hal => ?_⟩
          rcases List.mem_cons.mp hq with hq | hq
          · exact hx q hq.symm hal
          · exact hall q hq hal
        · exact Or.inr ⟨p, hres, hlt, hfirst.cons fun q hq hal => hlt.trans_le (hx q hq hal)⟩
      cases x with
      | none => exact hskip (fun q hq => by cases hq) rfl
      | some r =>
          by_cases hr : (heap r).alive = true ∧ loadFactor (heap r) < least
          · have heq : scheduleLoop heap (some r :: ps) least best =
                scheduleLoop heap ps (loadFactor (heap r)) (some r) := by
              rw [scheduleLoop, if_pos hr.1, if_pos hr.2]
            right
            rw [heq]
            rcases ih (loadFactor (heap r)) (some r) with ⟨hres, hall⟩ | ⟨p, hres, hlt, hfirst⟩
            · refine ⟨r, hres, hr.2, hr.1, ?_, [], ps, rfl, ?_⟩
              · intro q hq hal
                rcases List.mem_cons.mp hq with hq | hq
                · rw [Option.some.inj hq]
                · exact hall q hq hal
              · intro q hq
                cases hq
            · refine ⟨p, hres, hlt.trans hr.2, hfirst.cons fun q hq _ => ?_⟩
              rw [← Option.some.inj hq]
              exact hlt
          · refine hskip (fun q hq hal => ?_) ?_
            · obtain rfl := Option.some.inj hq
              exact not_lt.mp fun hlt => hr ⟨hal, hlt⟩
            · rw [scheduleLoop]
              by_cases hal : (heap r).alive = true
              · rw [if_pos hal, if_neg fun hlt => hr ⟨hal, hlt⟩]
              · rw [if_neg hal]

/-! ## The whole call -/

theorem scheduleOn_of_some (h : scheduleLoop m.heap ps 100000000 none = some p) :
    m.scheduleOn t ps =
      ({ m with
          heap := Function.update m.heap p
            { m.heap p with tasks := (m.heap p).tasks ++ [t] }
          kernel := m.kernel.lock.unlock
          log := m.log ++ [.scheduled t (m.heap p).workerFd] }, (m.heap p).workerFd) := by
  unfold scheduleOn
  simp [h, record, pushTask, set]

theorem scheduleOn_of_none (h : scheduleLoop m.heap ps 100000000 none = none) :
    m.scheduleOn t ps =
      ({ m with
          taskList := m.taskList ++ [t]
          kernel := m.kernel.lock.unlock
          log := m.log ++ [.scheduled t (-1)] }, -1) := by
  unfold scheduleOn
  simp [h, record]

/-- **The least-loaded worker.** If a live record is below the bound, the task
goes to the end of the tasks of the first live one with the least load, and
else to the end of `task_list`. But for the mutex, which is taken and given
back, nothing but that vector changes. -/
theorem schedules_first_least (m : Master) (t : Task) (list : List (Option Nat)) :
    ((∃ q, some q ∈ list ∧ (m.heap q).alive = true ∧ loadFactor (m.heap q) < 100000000) →
        ∃ p, FirstLeast m.heap list p
          ∧ m.scheduleOn t list =
            ({ m with
                heap := Function.update m.heap p
                  { m.heap p with tasks := (m.heap p).tasks ++ [t] }
                kernel := m.kernel.lock.unlock
                log := m.log ++ [.scheduled t (m.heap p).workerFd] }, (m.heap p).workerFd))
      ∧ ((¬ ∃ q, some q ∈ list ∧ (m.heap q).alive = true
          ∧ loadFactor (m.heap q) < 100000000) →
        m.scheduleOn t list =
          ({ m with
              taskList := m.taskList ++ [t]
              kernel := m.kernel.lock.unlock
              log := m.log ++ [.scheduled t (-1)] }, -1)) := by
  rcases scheduleLoop_first m.heap list 100000000 none with ⟨hres, hall⟩ | ⟨p, hres, hlt, hfirst⟩
  · refine ⟨?_, fun _ => scheduleOn_of_none hres⟩
    rintro ⟨q, hq, hal, hlt⟩
    exact absurd hlt (not_lt.mpr (hall q hq hal))
  · refine ⟨fun _ => ⟨p, hfirst, scheduleOn_of_some hres⟩, ?_⟩
    intro hnone
    obtain ⟨hal, -, l₁, l₂, rfl, -⟩ := hfirst
    exact absurd ⟨p, by simp, hal, hlt⟩ hnone

end Master

end KeyLime
