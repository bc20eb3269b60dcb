import KeyLime.Balance
import KeyLime.Call

/-!
# Sequences of scheduler calls

`schedule` and `scheduler_remove_task`, called in any order on any worker
list. Two results are about whole sequences of calls.

`schedules_greedily` is about calls of `schedule` alone. Its scan stops at a live
record of least load (`bestWorker_least`), so that each call is a step of
`Balance`, and no live record has more than one task too many in the end.

`tasks_accounted` is about any calls, between which flags and usages change as
they like. A task is named by its address, and no two offered tasks have the same
one. `Accounted` is the invariant:

* each task that was offered is at one position of one list, or has been taken off
  by one call;
* every list is in the order of time.

A call of `schedule` puts its task at the end of one list (`Placed`), and one of
`scheduler_remove_task` takes off at most one, the earliest of its name
(`TakenOff`); `CallEffect` says so of each call in the sequence.
-/

namespace KeyLime

open Bookkeeping

namespace Master

variable {m m' m₀ : Master} {p q : Nat} {t : Task} {ts : List Task} {fd : Int} {name : Bytes}

/-! ## The least load -/

theorem scheduleScan_least (heap : Nat → Worker) :
    ∀ (ps : List Nat) (least : ℚ) (best : Option Nat),
      scheduleScan heap ps least best = some p → (∀ q, best = some q → loadFactor (heap q) = least) →
        loadFactor (heap p) ≤ least
          ∧ ∀ q ∈ ps, (heap q).alive = true → loadFactor (heap p) ≤ loadFactor (heap q)
  | [], least, best, h, hbest => ⟨le_of_eq (hbest p h), by simp⟩
  | r :: ps, least, best, h, hbest => by
      rw [scheduleScan] at h
      split at h
      · rename_i hr
        obtain ⟨hle, hall⟩ := scheduleScan_least heap ps _ _ h fun q hq => by
          rw [Option.some.inj hq]
        refine ⟨hle.trans hr.2.le, ?_⟩
        intro q hq hal
        rcases List.mem_cons.mp hq with rfl | hq
        · exact hle
        · exact hall q hq hal
      · rename_i hr
        obtain ⟨hle, hall⟩ := scheduleScan_least heap ps _ _ h hbest
        refine ⟨hle, ?_⟩
        intro q hq hal
        rcases List.mem_cons.mp hq with rfl | hq
        · exact hle.trans (not_lt.mp fun hlt => hr ⟨hal, hlt⟩)
        · exact hall q hq hal

theorem bestWorker_least (h : m.bestWorker = some p) (hq : q ∈ m.workerList)
    (hal : (m.heap q).alive = true) : loadFactor (m.heap p) ≤ loadFactor (m.heap q) :=
  (scheduleScan_least m.heap m.workerList _ _ h (by simp)).2 q hq hal

/-! ## Calls of `schedule` alone -/

def scheduleAll (m : Master) (ts : List Task) : Master := ts.foldl (fun m t => (m.schedule t).1) m

theorem schedule_workerList (t : Task) : (m.schedule t).1.workerList = m.workerList := by
  cases hb : m.bestWorker with
  | none => rw [schedule_of_none hb]
  | some p => rw [schedule_of_some hb]

theorem scheduleAll_record (ts : List Task) :
    (m.scheduleAll ts).workerList = m.workerList
      ∧ ∀ q, ∃ us, (m.scheduleAll ts).heap q = { m.heap q with tasks := us } := by
  induction ts generalizing m with
  | nil => exact ⟨rfl, fun q => ⟨_, rfl⟩⟩
  | cons t ts ih =>
      obtain ⟨hlist, hrec⟩ := ih (m := (m.schedule t).1)
      refine ⟨hlist.trans (schedule_workerList t), ?_⟩
      intro q
      obtain ⟨us, hus⟩ := hrec q
      obtain ⟨vs, hvs⟩ := schedule_record (m := m) t q
      exact ⟨us, by rw [scheduleAll, List.foldl_cons]; exact hus.trans (by rw [hvs])⟩

def Live (m : Master) (q : Nat) : Prop := q ∈ m.workerList ∧ (m.heap q).alive = true

/-- No live record is more than one task ahead. -/
def Even (m : Master) : Prop :=
  Balanced m.Live (fun q => (m.heap q).cpuUsage * 10) fun q => (m.heap q).tasks.length

theorem Even.schedule (h : m.Even) (t : Task) : (m.schedule t).1.Even := by
  cases hb : m.bestWorker with
  | none =>
      rw [schedule_of_none hb]
      exact h
  | some p =>
      have hmin : ∀ q, m.Live q → (m.heap p).cpuUsage * 10 + ((m.heap p).tasks.length : ℚ) ≤
          (m.heap q).cpuUsage * 10 + ((m.heap q).tasks.length : ℚ) :=
        fun q hq => bestWorker_least hb hq.1 hq.2
      have hnext := Balanced.place h hmin
      have hrec : ∀ q, ((m.schedule t).1.heap q).alive = (m.heap q).alive
          ∧ ((m.schedule t).1.heap q).cpuUsage = (m.heap q).cpuUsage := by
        intro q
        obtain ⟨us, hus⟩ := schedule_record (m := m) t q
        rw [hus]
        exact ⟨rfl, rfl⟩
      have hlen : (fun q => ((m.schedule t).1.heap q).tasks.length) =
          Function.update (fun q => (m.heap q).tasks.length) p ((m.heap p).tasks.length + 1) := by
        funext q
        rw [schedule_of_some hb]
        by_cases hq : q = p
        · subst hq
          simp
        · simp [hq]
      intro i j hi hj hpos
      have hlive : ∀ q, (m.schedule t).1.Live q → m.Live q := by
        rintro q ⟨hmem, hal⟩
        rw [schedule_workerList] at hmem
        rw [(hrec q).1] at hal
        exact ⟨hmem, hal⟩
      rw [hlen] at hpos ⊢
      simp only [(hrec i).2, (hrec j).2]
      exact hnext i j (hlive i hi) (hlive j hj) hpos

theorem Even.scheduleAll (h : m.Even) (ts : List Task) : (m.scheduleAll ts).Even := by
  induction ts generalizing m with
  | nil => exact h
  | cons t ts ih => exact ih (h.schedule t)

theorem scheduleAll_dead (ts : List Task) (h : (m.heap q).alive = false) :
    (m.scheduleAll ts).heap q = m.heap q := by
  induction ts generalizing m with
  | nil => rfl
  | cons t ts ih =>
      have hsame := schedule_dead (t := t) h
      exact (ih (hsame ▸ h)).trans hsame

/-- **Greedy assignment.** After any number of calls no live record has more
than one task too many; of two with the same usage, none has two more than
the other; and a dead one has been given none. -/
theorem schedules_greedily (ts : List Task)
    (hempty : ∀ q ∈ m.workerList, (m.heap q).tasks = []) :
    (∀ i ∈ m.workerList, ∀ j ∈ m.workerList, (m.heap i).alive = true → (m.heap j).alive = true →
      ((m.scheduleAll ts).heap i).tasks ≠ [] →
        10 * (m.heap i).cpuUsage + ((m.scheduleAll ts).heap i).tasks.length - 1 ≤
          10 * (m.heap j).cpuUsage + ((m.scheduleAll ts).heap j).tasks.length)
      ∧ (∀ i ∈ m.workerList, ∀ j ∈ m.workerList, (m.heap i).alive = true →
        (m.heap j).alive = true → (m.heap i).cpuUsage = (m.heap j).cpuUsage →
          ((m.scheduleAll ts).heap i).tasks.length ≤ ((m.scheduleAll ts).heap j).tasks.length + 1)
      ∧ ∀ q, (m.heap q).alive = false → ((m.scheduleAll ts).heap q).tasks = (m.heap q).tasks := by
  have heven : m.Even := Balanced.of_zero fun q hq => by rw [hempty q hq.1, List.length_nil]
  have hall := heven.scheduleAll ts
  obtain ⟨hlist, hrec⟩ := scheduleAll_record (m := m) ts
  have hflags : ∀ q, ((m.scheduleAll ts).heap q).alive = (m.heap q).alive
      ∧ ((m.scheduleAll ts).heap q).cpuUsage = (m.heap q).cpuUsage := by
    intro q
    obtain ⟨us, hus⟩ := hrec q
    rw [hus]
    exact ⟨rfl, rfl⟩
  have hlive : ∀ q ∈ m.workerList, (m.heap q).alive = true → (m.scheduleAll ts).Live q :=
    fun q hq hal => ⟨hlist ▸ hq, (hflags q).1 ▸ hal⟩
  refine ⟨fun i hi j hj hali halj hne => ?_, fun i hi j hj hali halj heq => ?_,
    fun q hdead => by rw [scheduleAll_dead ts hdead]⟩
  · have hle := hall i j (hlive i hi hali) (hlive j hj halj) (List.length_pos_of_ne_nil hne)
    simp only [(hflags i).2, (hflags j).2] at hle
    linarith
  · have hw : ((m.scheduleAll ts).heap i).cpuUsage * 10 =
        ((m.scheduleAll ts).heap j).cpuUsage * 10 := by
      rw [(hflags i).2, (hflags j).2, heq]
    unfold Even at hall
    exact hall.close (hlive i hi hali) (hlive j hj halj) hw

/-- Two idle workers and a dead one. -/
def crew : Master :=
  { init id with
    heap := fun p => { (default : Worker) with workerFd := p + 5, alive := p ≠ 2 }
    workerList := [0, 1, 2] }

/-- The address and the name of a task. -/
def taskAt (i : Nat) (name : Bytes) : Task := { ptr := i, fileName := name, orphan := 0, fdOwner := 5 }

/-- Five tasks for the three. -/
theorem schedules_greedily_crew :
    ((crew.scheduleAll ((List.range 5).map fun i => taskAt i [97])).heap 0).tasks.length ≤
        ((crew.scheduleAll ((List.range 5).map fun i => taskAt i [97])).heap 1).tasks.length + 1
      ∧ ((crew.scheduleAll ((List.range 5).map fun i => taskAt i [97])).heap 2).tasks = [] := by
  obtain ⟨-, hclose, hdead⟩ := schedules_greedily (m := crew)
    ((List.range 5).map fun i => taskAt i [97]) fun _ _ => rfl
  exact ⟨hclose 0 (by decide) 1 (by decide) rfl rfl rfl, hdead 2 rfl⟩

/-! ## Mixed calls -/

/-- A call of the scheduler, or a change of the records' flags and usages. -/
inductive SchedulerCall where
  | schedule (t : Task)
  | remove (fd : Int) (name : Bytes)
  | report (alive : Nat → Bool) (usage : Nat → ℚ)

/-- The tasks given to `schedule`, in time order. -/
def offered (cs : List SchedulerCall) : List Task :=
  cs.filterMap fun
    | .schedule t => some t
    | _ => none

def call (m : Master) : SchedulerCall → Master
  | .schedule t => (m.schedule t).1
  | .remove fd name => m.schedulerRemoveTask fd name
  | .report alive usage =>
      { m with heap := fun q => { m.heap q with alive := alive q, cpuUsage := usage q } }

def calls (m : Master) (cs : List SchedulerCall) : Master := cs.foldl call m

/-- At how many positions of the lists a task is. -/
def positions (m : Master) (t : Task) : Nat :=
  (m.workerList.map fun p => (m.heap p).tasks.count t).sum + m.taskList.count t

/-- What `schedule` does to the lists: `t` goes to the end of that of a live record,
or to the end of `task_list`, and the history says which. -/
inductive Placed (t : Task) (m m' : Master) : Prop where
  | worker (p : Nat) (hmem : p ∈ m.workerList) (hal : (m.heap p).alive = true)
      (hheap : m'.heap = Function.update m.heap p
        { m.heap p with tasks := (m.heap p).tasks ++ [t] })
      (hpool : m'.taskList = m.taskList)
      (hlog : m'.log = m.log ++ [.scheduled t (m.heap p).workerFd])
  | pool (hheap : m'.heap = m.heap) (hpool : m'.taskList = m.taskList ++ [t])
      (hlog : m'.log = m.log ++ [.scheduled t (-1)])

/-- What `scheduler_remove_task` does to them, when the tasks before are in
the order `o`. -/
inductive TakenOff (o : List Task) (fd : Int) (name : Bytes) (m m' : Master) : Prop where
  | found (p : Nat) (t : Task) (l₁ l₂ : List Task) (hmem : p ∈ m.workerList)
      (hfd : (m.heap p).workerFd = fd) (htasks : (m.heap p).tasks = l₁ ++ t :: l₂)
      (hname : t.fileName = name)
      (hfirst : ∀ u ∈ l₁ ++ l₂, u.fileName = name → [t, u].Sublist o)
      (hheap : m'.heap = Function.update m.heap p { m.heap p with tasks := l₁ ++ l₂ })
      (hpool : m'.taskList = m.taskList)
      (hlog : m'.log = m.log ++ [.removed fd name (some t)])
  | missing (hnone : ∀ p ∈ m.workerList, (m.heap p).workerFd = fd →
        ∀ t ∈ (m.heap p).tasks, t.fileName ≠ name)
      (hheap : m'.heap = m.heap) (hpool : m'.taskList = m.taskList)
      (hlog : m'.log = m.log ++ [.removed fd name none])

/-- What one call does to the lists. -/
def CallEffect (o : List Task) (m : Master) : SchedulerCall → Master → Prop
  | .schedule t, m' => Placed t m m'
  | .remove fd name, m' => TakenOff o fd name m m'
  | .report _ _, m' =>
      (∀ q, (m'.heap q).tasks = (m.heap q).tasks) ∧ m'.taskList = m.taskList ∧ m'.log = m.log

theorem schedule_placed (t : Task) : Placed t m (m.schedule t).1 := by
  cases hb : m.bestWorker with
  | none =>
      rw [schedule_of_none hb]
      exact .pool rfl rfl rfl
  | some p =>
      rw [schedule_of_some hb]
      obtain ⟨hmem, hal, -⟩ := bestWorker_eligible hb
      exact .worker p hmem hal rfl rfl rfl

theorem removeTask_takenOff {o : List Task}
    (hfds : (m.workerList.map fun p => (m.heap p).workerFd).Nodup)
    (ho : ∀ p ∈ m.workerList, (m.heap p).tasks.Sublist o) (fd : Int) (name : Bytes) :
    TakenOff o fd name m (m.schedulerRemoveTask fd name) := by
  cases hf : m.finds fd name with
  | none =>
      rw [schedulerRemoveTask_of_none hf]
      refine .missing (fun p hp hfd t ht hname => ?_) rfl rfl rfl
      unfold finds at hf
      cases hown : m.ownerOf fd with
      | none =>
          unfold ownerOf at hown
          simpa [hfd] using List.find?_eq_none.mp hown p hp
      | some q =>
          obtain ⟨hq, hqfd⟩ := ownerOf_spec hown
          obtain rfl : q = p := List.inj_on_of_nodup_map hfds hq hp (hqfd.trans hfd.symm)
          rw [hown, Option.bind_some, Option.map_eq_none_iff] at hf
          simpa [hname] using List.findIdx?_eq_none_iff.mp hf t ht
  | some pi =>
      obtain ⟨p, i⟩ := pi
      obtain ⟨t, hget, hname, hown, heq⟩ := schedulerRemoveTask_of_some hf
      obtain ⟨hmem, hfd⟩ := ownerOf_spec hown
      obtain ⟨hlt, rfl⟩ := List.getElem?_eq_some_iff.mp hget
      have htasks : (m.heap p).tasks =
          (m.heap p).tasks.take i ++ (m.heap p).tasks[i] :: (m.heap p).tasks.drop (i + 1) := by
        rw [List.getElem_cons_drop, List.take_append_drop]
      rw [heq]
      refine .found p _ _ _ hmem hfd htasks hname (fun u hu huname => ?_)
        (by rw [← List.eraseIdx_eq_take_drop_succ]; rfl) rfl rfl
      have hnot : u ∉ (m.heap p).tasks.take i := by
        intro hu
        unfold finds at hf
        rw [hown, Option.bind_some] at hf
        obtain ⟨j, hj, hpj⟩ := Option.map_eq_some_iff.mp hf
        obtain ⟨-, rfl⟩ := Prod.mk.inj hpj
        obtain ⟨k, hk, rfl⟩ := List.mem_take_iff_getElem.mp hu
        have := (List.findIdx?_eq_some_iff_getElem.mp hj).2.2 k (by omega)
        simp [huname] at this
      have hdrop : u ∈ (m.heap p).tasks.drop (i + 1) := (List.mem_append.mp hu).resolve_left hnot
      have hpair := (List.singleton_sublist.mpr hdrop).cons_cons (m.heap p).tasks[i]
      have hsub := hpair.trans (List.sublist_append_right ((m.heap p).tasks.take i) _)
      rw [← htasks] at hsub
      exact hsub.trans (ho p hmem)

/-! ## The invariant -/

theorem positions_set (hl : m.workerList.Nodup) (hp : p ∈ m.workerList) (w : Worker) (t : Task) :
    (m.set p w).positions t + (m.heap p).tasks.count t = m.positions t + w.tasks.count t := by
  have hupd : (fun q => ((m.set p w).heap q).tasks.count t) =
      Function.update (fun q => (m.heap q).tasks.count t) p (w.tasks.count t) := by
    funext q
    by_cases hq : q = p
    · subst hq
      simp [set]
    · simp [set, hq]
  have hsum := sum_map_update hl hp (fun q => (m.heap q).tasks.count t) (w.tasks.count t)
  have hmap : (m.workerList.map fun q => ((m.set p w).heap q).tasks.count t).sum +
      (m.heap p).tasks.count t =
        (m.workerList.map fun q => (m.heap q).tasks.count t).sum + w.tasks.count t := by
    rw [hupd]
    exact hsum
  have hset : (m.set p w).positions t =
      (m.workerList.map fun q => ((m.set p w).heap q).tasks.count t).sum +
        m.taskList.count t := rfl
  rw [hset, positions]
  omega

/-- After calls that offered `o`: nothing is lost or doubled, and every list
is in time order. -/
structure Accounted (o : List Task) (m₀ m : Master) : Prop where
  count : ∀ t, m.positions t + (removedTasks (newLog m₀ m)).count t = o.count t
  ordered : ∀ p ∈ m.workerList, (m.heap p).tasks.Sublist o
  pool : m.taskList.Sublist o

theorem newLog_append (hlog : ∃ l, m.log = m₀.log ++ l) {l' : List Obs}
    (h : m'.log = m.log ++ l') : newLog m₀ m' = newLog m₀ m ++ l' := by
  obtain ⟨l, hl⟩ := hlog
  rw [newLog_of_append hl, newLog_of_append (l := l ++ l') (by rw [h, hl, List.append_assoc])]

theorem removedTasks_other (hlog : ∃ l, m.log = m₀.log ++ l) {o : Obs}
    (h : m'.log = m.log ++ [o]) (ho : removedTasks [o] = []) :
    removedTasks (newLog m₀ m') = removedTasks (newLog m₀ m) := by
  rw [newLog_append hlog h, removedTasks, List.filterMap_append]
  exact (congrArg _ ho).trans (List.append_nil _)

theorem Accounted.placed {o : List Task} (h : Accounted o m₀ m) (hl : m.workerList.Nodup)
    (hlist : m'.workerList = m.workerList) (hlog₀ : ∃ l, m.log = m₀.log ++ l)
    (he : Placed t m m') : Accounted (o ++ [t]) m₀ m' := by
  have hsub : ∀ {l : List Task}, l.Sublist o → l.Sublist (o ++ [t]) :=
    fun hl => hl.trans (List.sublist_append_left o [t])
  have hlast : ∀ {l : List Task}, l.Sublist o → (l ++ [t]).Sublist (o ++ [t]) :=
    fun hl => hl.append (List.Sublist.refl _)
  cases he with
  | worker p hmem hal hheap hpool hlog =>
      refine ⟨?_, ?_, hpool ▸ hsub h.pool⟩
      · intro x
        have hset := positions_set hl hmem
          { m.heap p with tasks := (m.heap p).tasks ++ [t] } x
        have hpos : m'.positions x =
            (m.set p { m.heap p with tasks := (m.heap p).tasks ++ [t] }).positions x := by
          simp only [positions, hlist, hheap, hpool, set]
        have hold := h.count x
        rw [removedTasks_other hlog₀ hlog rfl, hpos]
        simp only [List.count_append] at hset ⊢
        omega
      · intro q hq
        rw [hlist] at hq
        rw [hheap]
        by_cases hqp : q = p
        · subst hqp
          rw [Function.update_self]
          exact hlast (h.ordered q hq)
        · rw [Function.update_of_ne hqp]
          exact hsub (h.ordered q hq)
  | pool hheap hpool hlog =>
      refine ⟨?_, ?_, hpool ▸ hlast h.pool⟩
      · intro x
        have hold := h.count x
        rw [removedTasks_other hlog₀ hlog rfl]
        simp only [positions, hlist, hheap, hpool, List.count_append] at hold ⊢
        omega
      · intro q hq
        rw [hlist] at hq
        rw [hheap]
        exact hsub (h.ordered q hq)

theorem Accounted.takenOff {o : List Task} (h : Accounted o m₀ m) (hl : m.workerList.Nodup)
    (hlist : m'.workerList = m.workerList) (hlog₀ : ∃ l, m.log = m₀.log ++ l)
    (he : TakenOff o fd name m m') : Accounted o m₀ m' := by
  cases he with
  | found p t l₁ l₂ hmem hfd htasks hname hfirst hheap hpool hlog =>
      refine ⟨?_, ?_, hpool ▸ h.pool⟩
      · intro x
        have hset := positions_set hl hmem { m.heap p with tasks := l₁ ++ l₂ } x
        have hpos : m'.positions x =
            (m.set p { m.heap p with tasks := l₁ ++ l₂ }).positions x := by
          simp only [positions, hlist, hheap, hpool, set]
        have hlast : removedTasks (newLog m₀ m') = removedTasks (newLog m₀ m) ++ [t] := by
          rw [newLog_append hlog₀ hlog, removedTasks, List.filterMap_append]
          rfl
        have hold := h.count x
        rw [htasks] at hset
        rw [hlast, hpos]
        simp only [List.count_append, List.count_cons, List.count_nil] at hset ⊢
        omega
      · intro q hq
        rw [hlist] at hq
        rw [hheap]
        by_cases hqp : q = p
        · subst hqp
          have hord := h.ordered q hq
          rw [htasks] at hord
          rw [Function.update_self]
          exact ((List.Sublist.refl l₁).append (List.sublist_cons_self t l₂)).trans hord
        · rw [Function.update_of_ne hqp]
          exact h.ordered q hq
  | missing hnone hheap hpool hlog =>
      refine ⟨?_, ?_, hpool ▸ h.pool⟩
      · intro x
        have hold := h.count x
        rw [removedTasks_other hlog₀ hlog rfl]
        simp only [positions, hlist, hheap, hpool] at hold ⊢
        omega
      · intro q hq
        rw [hlist] at hq
        rw [hheap]
        exact h.ordered q hq

/-! ## Runs -/

theorem call_frame (c : SchedulerCall) :
    (m.call c).workerList = m.workerList
      ∧ (∀ q, ((m.call c).heap q).workerFd = (m.heap q).workerFd)
      ∧ ∃ l, (m.call c).log = m.log ++ l := by
  cases c with
  | schedule t =>
      refine ⟨schedule_workerList t, ?_, ?_⟩
      · intro q
        obtain ⟨us, hus⟩ := schedule_record (m := m) t q
        rw [call, hus]
      · cases schedule_placed (m := m) t with
        | worker p hmem hal hheap hpool hlog => exact ⟨_, hlog⟩
        | pool hheap hpool hlog => exact ⟨_, hlog⟩
  | remove fd name =>
      refine ⟨?_, ?_, ?_⟩
      · obtain ⟨heap, log, heq⟩ := schedulerRemoveTask_frame (m := m) fd name
        rw [call, heq]
      · intro q
        obtain ⟨us, hus⟩ := schedulerRemoveTask_record (m := m) fd name q
        rw [call, hus]
      · cases hf : m.finds fd name with
        | none =>
            rw [call, schedulerRemoveTask_of_none hf]
            exact ⟨_, rfl⟩
        | some pi =>
            obtain ⟨t, -, -, -, heq⟩ := schedulerRemoveTask_of_some hf
            rw [call, heq]
            exact ⟨_, rfl⟩
  | report alive usage => exact ⟨rfl, fun _ => rfl, [], (List.append_nil _).symm⟩

theorem calls_append (cs ds : List SchedulerCall) :
    m.calls (cs ++ ds) = (m.calls cs).calls ds := List.foldl_append

theorem calls_frame (cs : List SchedulerCall) :
    (m.calls cs).workerList = m.workerList
      ∧ (∀ q, ((m.calls cs).heap q).workerFd = (m.heap q).workerFd)
      ∧ ∃ l, (m.calls cs).log = m.log ++ l := by
  induction cs generalizing m with
  | nil => exact ⟨rfl, fun _ => rfl, [], (List.append_nil _).symm⟩
  | cons c cs ih =>
      obtain ⟨hlist, hfd, l, hl⟩ := call_frame (m := m) c
      obtain ⟨hlist', hfd', l', hl'⟩ := ih (m := m.call c)
      exact ⟨hlist'.trans hlist, fun q => (hfd' q).trans (hfd q), l ++ l',
        hl'.trans (by rw [hl, List.append_assoc])⟩

theorem offered_append (cs ds : List SchedulerCall) :
    offered (cs ++ ds) = offered cs ++ offered ds := List.filterMap_append

theorem Accounted.effect {o : List Task} (h : Accounted o m₀ m)
    (hfds : (m.workerList.map fun p => (m.heap p).workerFd).Nodup) (c : SchedulerCall) :
    CallEffect o m c (m.call c) := by
  cases c with
  | schedule t => exact schedule_placed t
  | remove fd name => exact removeTask_takenOff hfds h.ordered fd name
  | report alive usage => exact ⟨fun _ => rfl, rfl, rfl⟩

theorem Accounted.call {o : List Task} (h : Accounted o m₀ m)
    (hfds : (m.workerList.map fun p => (m.heap p).workerFd).Nodup)
    (hlog₀ : ∃ l, m.log = m₀.log ++ l) (c : SchedulerCall) :
    Accounted (o ++ offered [c]) m₀ (m.call c) := by
  have hl : m.workerList.Nodup := hfds.of_map
  have hlist := (call_frame (m := m) c).1
  have he := h.effect hfds c
  cases c with
  | schedule t => exact h.placed hl hlist hlog₀ he
  | remove fd name =>
      rw [show offered [.remove fd name] = [] from rfl, List.append_nil]
      exact h.takenOff hl hlist hlog₀ he
  | report alive usage =>
      rw [show offered [.report alive usage] = [] from rfl, List.append_nil]
      exact ⟨h.count, h.ordered, h.pool⟩

theorem calls_accounted (hempty : ∀ p ∈ m.workerList, (m.heap p).tasks = [])
    (hpool : m.taskList = []) (hfds : (m.workerList.map fun p => (m.heap p).workerFd).Nodup)
    (cs : List SchedulerCall) : Accounted (offered cs) m (m.calls cs) := by
  induction cs using List.reverseRecOn with
  | nil =>
      rw [show m.calls [] = m from rfl]
      refine ⟨fun t => ?_, fun p hp => (hempty p hp).symm ▸ List.nil_sublist _,
        hpool.symm ▸ List.nil_sublist _⟩
      have hzero : (m.workerList.map fun p => (m.heap p).tasks.count t).sum = 0 := by
        refine List.sum_eq_zero_iff_forall_eq_nat.mpr fun x hx => ?_
        obtain ⟨p, hp, rfl⟩ := List.mem_map.mp hx
        rw [hempty p hp, List.count_nil]
      rw [newLog_of_append (l := []) (List.append_nil _).symm, positions, hzero, hpool]
      rfl
  | append_singleton cs c ih =>
      obtain ⟨hlist, hfd, hlog⟩ := calls_frame (m := m) cs
      rw [offered_append, calls_append]
      refine ih.call ?_ hlog c
      simpa only [hlist, hfd] using hfds

/-- **Conservation of tasks.** Whatever is called, every task that was given
to `schedule` is at one position of one list or was removed by one call, the
lists are in time order, and each call does to them what it should. -/
theorem tasks_accounted (cs : List SchedulerCall)
    (hempty : ∀ p ∈ m.workerList, (m.heap p).tasks = []) (hpool : m.taskList = [])
    (hfds : (m.workerList.map fun p => (m.heap p).workerFd).Nodup)
    (hfresh : (offered cs).Nodup) :
    (∀ t ∈ offered cs,
        (m.calls cs).positions t + (removedTasks (newLog m (m.calls cs))).count t = 1)
      ∧ (∀ p ∈ m.workerList, ((m.calls cs).heap p).tasks.Sublist (offered cs))
      ∧ (m.calls cs).taskList.Sublist (offered cs)
      ∧ ∀ pre c post, cs = pre ++ c :: post →
          CallEffect (offered pre) (m.calls pre) c ((m.calls pre).call c) := by
  have h := calls_accounted hempty hpool hfds cs
  refine ⟨?_, fun p hp => h.ordered p ?_, h.pool, ?_⟩
  · intro t ht
    rw [h.count, List.count_eq_one_of_mem hfresh ht]
  · rw [(calls_frame cs).1]
    exact hp
  · intro pre c post _
    obtain ⟨hlist, hfd, -⟩ := calls_frame (m := m) pre
    refine (calls_accounted hempty hpool hfds pre).effect ?_ c
    simpa only [hlist, hfd] using hfds

/-- Three tasks, two of one name, and the removal of the first of them. -/
theorem tasks_accounted_three :
    (crew.calls [.schedule (taskAt 0 [97]), .report (fun _ => true) fun _ => 0,
        .schedule (taskAt 1 [97]), .schedule (taskAt 2 [97]), .remove 5 [97]]).positions
          (taskAt 1 [97])
      + (removedTasks (newLog crew (crew.calls [.schedule (taskAt 0 [97]),
        .report (fun _ => true) fun _ => 0, .schedule (taskAt 1 [97]),
        .schedule (taskAt 2 [97]), .remove 5 [97]]))).count (taskAt 1 [97]) = 1 :=
  (tasks_accounted (m := crew) [.schedule (taskAt 0 [97]), .report (fun _ => true) fun _ => 0,
    .schedule (taskAt 1 [97]), .schedule (taskAt 2 [97]), .remove 5 [97]] (fun _ _ => rfl) rfl
    (by decide) (by decide)).1 _ (by decide)

end Master

end KeyLime
