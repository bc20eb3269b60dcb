import KeyLime.Scheduler

/-!
# What `reschedule` does to the lists

The first loop places every task of the dead record again, in order, and takes
none of what is there away (`resendAll_deals`). The second one erases at 0, 1
and so on from a vector that gets shorter: it does what it should when there is
one task at most, and leaves the vector otherwise (`rescheduled_iff`).

`resendFrom` and `rescheduleByIndex` are the loops as they are written, with
every `vector_get` and `vector_erase`; a position outside of the vector is
`none`, as the vector has no check and what is read there is anything. The model
of a detection pass uses the recursion on the list of tasks, and `resendFrom_eq`
says that it is the same: the record that is being emptied is dead, so `schedule`
never gives it a task.

What should come of the first loop is `Dealt`: each task is at the end of the
list of a live record, or of `task_list` when none has room, in the order in
which they were, and what the other lists had is where it was.
-/

namespace KeyLime

namespace Master

variable {m m' m₁ : Master} {p q : Nat} {t : Task} {ts pre : List Task} {mem : Worker}
  {io : ResendIo} {ios : List ResendIo} {d d' : Option Nat} {dests : List (Option Nat)}

/-! ## The loops as they are written -/

/-- The first loop, `n` rounds from index `i` on: `vector_get` is on the
vector of the record as it is then, and `none` is a position outside of it. -/
def resendFrom (m : Master) (mem : Worker) (p : Nat) : Nat → Nat → List ResendIo → Option Master
  | 0, _, _ => some m
  | n + 1, i, ios =>
      match (m.heap p).tasks[i]? with
      | none => none
      | some t =>
          (m.resend mem t (ios.headD {})).bind fun m => m.resendFrom mem p n (i + 1) ios.tail

/-- `reschedule`, with every `vector_get` and `vector_erase`. -/
def rescheduleByIndex (m : Master) (p : Nat) (mem : Worker) (ios : List ResendIo) :
    Option Master :=
  let size := (m.heap p).tasks.length
  (m.resendFrom mem p size 0 ios).bind fun m =>
    (eraseAll size 0 (m.heap p).tasks).map fun ts => m.set p { m.heap p with tasks := ts }

theorem resendFrom_eq (mem : Worker) (ios : List ResendIo) (hdead : (m.heap p).alive = false)
    (htasks : (m.heap p).tasks = pre ++ ts) :
    m.resendFrom mem p ts.length pre.length ios = m.resendAll mem ts ios := by
  induction ts generalizing m pre ios with
  | nil => rfl
  | cons t ts ih =>
      have hget : (m.heap p).tasks[pre.length]? = some t := by
        rw [htasks, List.getElem?_append_right (Nat.le_refl _), Nat.sub_self]
        rfl
      rw [List.length_cons, resendFrom, hget, resendAll]
      dsimp only
      cases hr : m.resend mem t (ios.headD {}) with
      | none => rfl
      | some m₁ =>
          have hsame := resend_dead hr hdead
          have htasks' : (m₁.heap p).tasks = (pre ++ [t]) ++ ts := by
            rw [hsame, htasks, List.append_assoc]
            rfl
          have hrest := ih ios.tail (hsame ▸ hdead) htasks'
          rw [List.length_append] at hrest
          exact hrest

theorem rescheduleByIndex_eq (hdead : (m.heap p).alive = false) :
    m.rescheduleByIndex p mem ios = m.reschedule p mem ios := by
  have hfrom : m.resendFrom mem p (m.heap p).tasks.length ([] : List Task).length ios =
      m.resendAll mem (m.heap p).tasks ios := resendFrom_eq mem ios hdead rfl
  rw [List.length_nil] at hfrom
  rw [rescheduleByIndex, reschedule]
  dsimp only
  rw [hfrom]

/-! ## Dealing out tasks -/

/-- The tasks that go to `d` when `dests` says where each of them goes:
`some q` is the vector of record `q`, and `none` is `task_list`. -/
def dealt (ts : List Task) (dests : List (Option Nat)) (d : Option Nat) : List Task :=
  ((ts.zip dests).filter fun x => x.2 = d).map Prod.fst

theorem dealt_cons :
    dealt (t :: ts) (d' :: dests) d = (if d' = d then [t] else []) ++ dealt ts dests d := by
  unfold dealt
  rw [List.zip_cons_cons, List.filter_cons]
  by_cases h : d' = d <;> simp [h]

/-- Every task of `ts` is appended to the list that `dests` says: that of a
live record, or `task_list` when each of these has too much to do. -/
structure Dealt (ts : List Task) (dests : List (Option Nat)) (m m' : Master) : Prop where
  length : dests.length = ts.length
  worker : ∀ q, some q ∈ dests → q ∈ m.workerList ∧ (m.heap q).alive = true
  pool : ∀ i, dests[i]? = some none → ∀ q ∈ m.workerList, (m.heap q).alive = true →
    100000000 ≤ (m.heap q).cpuUsage * 10 +
      ((m.heap q).tasks ++ dealt (ts.take i) dests (some q)).length
  tasks : ∀ q, (m'.heap q).tasks = (m.heap q).tasks ++ dealt ts dests (some q)
  taskList : m'.taskList = m.taskList ++ dealt ts dests none

theorem Dealt.nil (m : Master) : Dealt [] [] m m :=
  ⟨rfl, by simp, by simp, fun q => (List.append_nil _).symm, (List.append_nil _).symm⟩

/-- One task: the list it goes to, and what the records keep. -/
structure DealtOne (t : Task) (d : Option Nat) (m m' : Master) : Prop where
  workerList : m'.workerList = m.workerList
  record : ∀ q, (m'.heap q).alive = (m.heap q).alive ∧ (m'.heap q).cpuUsage = (m.heap q).cpuUsage
  worker : ∀ q, d = some q → q ∈ m.workerList ∧ (m.heap q).alive = true
  pool : d = none → ∀ q ∈ m.workerList, (m.heap q).alive = true →
    100000000 ≤ (m.heap q).cpuUsage * 10 + (m.heap q).tasks.length
  tasks : ∀ q, (m'.heap q).tasks = (m.heap q).tasks ++ if d = some q then [t] else []
  taskList : m'.taskList = m.taskList ++ if d = none then [t] else []

theorem Dealt.cons (h : DealtOne t d m m₁) (h' : Dealt ts dests m₁ m') :
    Dealt (t :: ts) (d :: dests) m m' where
  length := by rw [List.length_cons, List.length_cons, h'.length]
  worker q hq := by
    rcases List.mem_cons.mp hq with heq | hq
    · exact h.worker q heq.symm
    · obtain ⟨hmem, hal⟩ := h'.worker q hq
      exact ⟨h.workerList ▸ hmem, (h.record q).1 ▸ hal⟩
  pool i hi q hq hal := by
    cases i with
    | zero =>
        have := h.pool (Option.some.inj hi) q hq hal
        simpa [dealt] using this
    | succ i =>
        have := h'.pool i hi q (h.workerList.symm ▸ hq) ((h.record q).1.symm ▸ hal)
        rw [(h.record q).2, h.tasks, List.append_assoc] at this
        rw [List.take_succ_cons, dealt_cons]
        exact this
  tasks q := by rw [h'.tasks, h.tasks, dealt_cons, List.append_assoc]
  taskList := by rw [h'.taskList, h.taskList, dealt_cons, List.append_assoc]

theorem schedule_dealtOne (t : Task) : DealtOne t m.bestWorker m (m.schedule t).1 := by
  have hrec : ∀ q, ((m.schedule t).1.heap q).alive = (m.heap q).alive
      ∧ ((m.schedule t).1.heap q).cpuUsage = (m.heap q).cpuUsage := by
    intro q
    obtain ⟨us, hus⟩ := schedule_record (m := m) t q
    rw [hus]
    exact ⟨rfl, rfl⟩
  cases hb : m.bestWorker with
  | none =>
      refine ⟨schedule_workerList t, hrec, by simp, ?_, ?_, ?_⟩
      · intro _ q hq hal
        exact not_lt.mp fun hlt => bestWorker_eq_none.mp hb q ⟨hq, hal, hlt⟩
      · intro q
        rw [schedule_of_none hb]
        simp
      · rw [schedule_of_none hb]
        simp
  | some p =>
      obtain ⟨hmem, hal, -⟩ := bestWorker_eligible hb
      refine ⟨schedule_workerList t, hrec, ?_, by simp, ?_, ?_⟩
      · rintro q hq
        obtain rfl := Option.some.inj hq
        exact ⟨hmem, hal⟩
      · intro q
        rw [schedule_of_some hb]
        by_cases hq : q = p
        · subst hq
          simp
        · simp [hq, Ne.symm hq]
      · rw [schedule_of_some hb]
        simp

theorem resend_dealtOne (t : Task) (mem : Worker) (io : ResendIo) :
    ∃ m', m.resend mem t io = some m' ∧ DealtOne t m.bestWorker m m' := by
  have h := schedule_dealtOne (m := m) t
  unfold resend doPut
  exact ⟨_, rfl, ⟨h.workerList, h.record, h.worker, h.pool, h.tasks, h.taskList⟩⟩

theorem resendAll_deals (mem : Worker) (ts : List Task) (ios : List ResendIo) :
    ∃ m' dests, m.resendAll mem ts ios = some m' ∧ Dealt ts dests m m' := by
  induction ts generalizing m ios with
  | nil => exact ⟨m, [], rfl, .nil m⟩
  | cons t ts ih =>
      obtain ⟨m₁, h₁, hone⟩ := resend_dealtOne (m := m) t mem (ios.headD {})
      obtain ⟨m', dests, h', hrest⟩ := ih (m := m₁) ios.tail
      exact ⟨m', _ :: dests, by rw [resendAll, h₁]; exact h', .cons hone hrest⟩

/-! ## The whole function -/

/-- The tasks of record `p` are dealt out, which leads to the lists of `m₁`,
and then its own vector is emptied. -/
def Rescheduled (p : Nat) (m m' : Master) : Prop :=
  (m'.heap p).tasks = [] ∧ ∃ dests m₁, Dealt (m.heap p).tasks dests m m₁
    ∧ (∀ q, q ≠ p → (m'.heap q).tasks = (m₁.heap q).tasks) ∧ m'.taskList = m₁.taskList

theorem eraseAll_small (h : ts.length ≤ 1) : eraseAll ts.length 0 ts = some [] := by
  match ts, h with
  | [], _ => rfl
  | [t], _ => rfl

/-- **Bookkeeping of `reschedule`.** It does what it should exactly when the dead
record has one task at most. With more, the second round of the loop that erases
is at position 1 of a vector that has shrunk, leaves elements in place, and in
the end gets outside of the vector. -/
theorem rescheduled_iff (mem : Worker) (ios : List ResendIo) (hdead : (m.heap p).alive = false) :
    (∃ m', m.rescheduleByIndex p mem ios = some m' ∧ Rescheduled p m m')
      ↔ (m.heap p).tasks.length ≤ 1 := by
  rw [rescheduleByIndex_eq hdead]
  obtain ⟨m₁, dests, hall, hdealt⟩ :=
    resendAll_deals (m := m) mem (m.heap p).tasks ios
  have hsame := resendAll_dead hall hdead
  constructor
  · rintro ⟨m', hm', -⟩
    unfold reschedule at hm'
    dsimp only at hm'
    rw [hall, Option.bind_some, hsame] at hm'
    obtain ⟨us, hus, -⟩ := Option.map_eq_some_iff.mp hm'
    rcases (eraseAll_eq_some hus).2 with hnil | ⟨t, ht⟩
    · rw [hnil]
      exact Nat.zero_le 1
    · rw [ht]
      exact Nat.le_refl 1
  · intro hle
    refine ⟨m₁.set p { m₁.heap p with tasks := [] }, ?_, ?_⟩
    · unfold reschedule
      dsimp only
      rw [hall, Option.bind_some, hsame, eraseAll_small hle]
      rfl
    · refine ⟨?_, dests, m₁, hdealt, ?_, rfl⟩
      · simp [set]
      · intro q hq
        simp [set, hq]

/-- The dead one of the three has tasks of these names. -/
def crewWith (names : List Bytes) : Master :=
  crew.set 2 { crew.heap 2 with tasks := names.map (taskAt 0) }

theorem rescheduled_iff_one :
    ∃ m', (crewWith [[97]]).rescheduleByIndex 2 default [] = some m'
      ∧ Rescheduled 2 (crewWith [[97]]) m' :=
  (rescheduled_iff default [] rfl).mpr (Nat.le_refl 1)

/-- Behind the first of two tasks the vector has one element, and the second
`vector_erase` is at position 1. -/
theorem reschedule_leaves_vector :
    (crewWith [[97], [98]]).rescheduleByIndex 2 default [] = none
      ∧ ¬ ∃ m', (crewWith [[97], [98]]).rescheduleByIndex 2 default [] = some m'
        ∧ Rescheduled 2 (crewWith [[97], [98]]) m' := by
  have hnone : (crewWith [[97], [98]]).rescheduleByIndex 2 default [] = none :=
    Option.isNone_iff_eq_none.mp (by decide +kernel)
  refine ⟨hnone, ?_⟩
  rintro ⟨m', hm', -⟩
  rw [hnone] at hm'
  cases hm'

end Master

end KeyLime
