import KeyLime.Call
import KeyLime.Ledger

/-!
# No task is lost or duplicated on the lists

The task lists of the records and `task_list` are a ledger. The scheduler
places a task on it, `scheduler_remove_task` takes one off, `reschedule`
moves one. So in every reachable state each task that was ever made is on
exactly one list, or has been removed (`Reachable.conserved`).

In three layers:

* the operations of the master as operations of the ledger (`schedule_ledger`,
  `schedulerRemoveTask_ledger` and so on), with equality where the master does
  nothing to the lists;
* the passes: `reschedule` first schedules a task of a dead record anew and
  erases it behind that, so in between it is on two lists. What counts is the
  pass as a whole (`reschedule_tally`), which moves it and changes no tally;
* the invariant (`Conserved`), an equation of tallies between the ledger, the
  tasks made and the tasks removed, the last two being views of the history.

The tasks made are pairwise different, since each has the number it was made
under. That is history, too: the source compares addresses of records.
-/

namespace KeyLime

open Bookkeeping

namespace Master

variable {m m' m₁ : Master} {fd : Int} {p q : Nat} {io : DataIo} {t : Task}

def ledger (m : Master) : Ledger Task where
  count := m.nextWorker
  lists p := (m.heap p).tasks
  pool := m.taskList

theorem ledger_congr (hn : m'.nextWorker = m.nextWorker)
    (ht : ∀ q, (m'.heap q).tasks = (m.heap q).tasks) (hl : m'.taskList = m.taskList) :
    m'.ledger = m.ledger := by
  simp only [ledger, hn, ht, hl]

/-! ## The operations -/

theorem schedule_ledger (t : Task) :
    (m.schedule t).1.ledger = m.ledger.place m.bestWorker t := by
  cases hb : m.bestWorker with
  | none =>
      rw [schedule_of_none hb]
      rfl
  | some p =>
      rw [schedule_of_some hb]
      simp only [ledger, Ledger.place, Ledger.mk.injEq, true_and, and_true]
      funext q
      by_cases hq : q = p
      · subst hq
        simp
      · simp [hq]

theorem schedulerRemoveTask_ledger (fd : Int) (name : Bytes) :
    (m.schedulerRemoveTask fd name).ledger =
      match m.finds fd name with
      | none => m.ledger
      | some (q, i) => m.ledger.take q i := by
  cases hf : m.finds fd name with
  | none =>
      rw [schedulerRemoveTask_of_none hf]
      rfl
  | some qi =>
      obtain ⟨t, -, -, -, heq⟩ := schedulerRemoveTask_of_some hf
      rw [heq]
      simp only [ledger, Ledger.take, record, set, Ledger.mk.injEq, true_and, and_true]
      funext q
      by_cases hq : q = qi.1
      · rw [hq]
        simp
      · simp [hq]

theorem ParserOnly.ledger (h : ParserOnly p m m') : m'.ledger = m.ledger :=
  ledger_congr h.nextWorker (fun q => by
    by_cases hq : q = p
    · rw [hq]
      exact h.record.tasks
    · rw [h.others q hq]) h.taskList

theorem submitted_ledger (name : Bytes) :
    (m.submitted p name).ledger = m.ledger.place m.bestWorker (m.newTask p name) := by
  have h : ((m.makeTask (m.heap p) name).2.schedule (m.newTask p name)).1.ledger
      = m.ledger.place m.bestWorker (m.newTask p name) := schedule_ledger _
  rw [← h]
  refine ledger_congr rfl (fun q => ?_) rfl
  by_cases hq : q = p
  · rw [hq, submitted, set_heap_self]
    rfl
  · simp [submitted, newTask, makeTask, set, hq]

theorem answered_ledger (name : Bytes) :
    (m.answered p name).ledger =
      (m.schedulerRemoveTask (m.heap p).workerFd name).ledger := by
  refine ledger_congr rfl (fun q => ?_) rfl
  by_cases hq : q = p
  · rw [hq]
    simp [answered]
  · simp [answered, set, hq]

theorem forwarded_ledger (ret : Ret) (k : Kernel) :
    (m.forwarded fd p ret k).ledger = m.ledger := by
  refine ledger_congr rfl (fun q => ?_) rfl
  by_cases hq : q = p
  · rw [hq, forwarded_self]
    rfl
  · simp [forwarded, record, hq]

theorem acceptOne_ledger (c : Conn) : (m.acceptOne c).ledger = m.ledger.extend := by
  simp only [ledger, Ledger.extend, Ledger.mk.injEq]
  refine ⟨rfl, ?_, rfl⟩
  funext q
  by_cases hq : q = m.nextWorker
  · rw [hq]
    simp [acceptOne_new, Conn.worker]
  · simp [acceptOne_of_ne c hq, hq]

theorem reportHeartbeat_ledger (addr : Bytes) (usage now : ℚ) :
    (m.reportHeartbeat addr usage now).ledger = m.ledger := by
  unfold reportHeartbeat
  split
  · rfl
  · rename_i p hp
    refine ledger_congr rfl (fun q => ?_) rfl
    by_cases hq : q = p
    · rw [hq]
      simp
    · simp [set, hq]

theorem resend_ledger {mem : Worker} {io : ResendIo} (h : m.resend mem t io = some m') :
    m'.ledger = m.ledger.place m.bestWorker t := by
  obtain ⟨k, ret, rfl, -⟩ := resend_eq h
  exact schedule_ledger t

/-! ## Tallies -/

theorem bestWorker_lt (hr : Registry m) : ∀ q, m.bestWorker = some q → q < m.ledger.count :=
  fun q hq => hr.lt q (bestWorker_eligible hq).1

theorem bestWorker_ne (hal : (m.heap p).alive = false) : m.bestWorker ≠ some p := fun hb => by
  have := (bestWorker_eligible hb).2.1
  rw [hal] at this
  cases this

theorem reschedule_moves {mem : Worker} {ios : List ResendIo}
    (hal : (m.heap p).alive = false) (h : m.reschedule p mem ios = some m') :
    m' = m ∨ ∃ t ret, (m.heap p).tasks = [t]
      ∧ m'.ledger = (m.ledger.place m.bestWorker t).take p 0
      ∧ m'.log = m.log ++ [.scheduled t m.target, .resent t m.target ret] := by
  rcases reschedule_spec h hal with ⟨-, rfl⟩ | ⟨t, m₁, htasks, h1, rfl⟩
  · exact Or.inl rfl
  · have hrec : m₁.heap p = m.heap p := resend_dead h1 hal
    have htake : (m₁.set p { m.heap p with tasks := [] }).ledger = m₁.ledger.take p 0 := by
      simp only [ledger, Ledger.take, set, Ledger.mk.injEq, true_and, and_true]
      funext q
      by_cases hq : q = p
      · rw [hq]
        simp [hrec, htasks]
      · simp [hq]
    obtain ⟨k, ret, heq, -⟩ := resend_eq h1
    refine Or.inr ⟨t, ret, htasks, htake.trans (by rw [resend_ledger h1]), ?_⟩
    show m₁.log = _
    rw [heq, ← schedule_ret t]
    show (m.schedule t).1.log ++ _ = _
    rw [schedule_log, schedule_ret, List.append_assoc]
    rfl

theorem reschedule_tally {mem : Worker} {ios : List ResendIo} (P : Task → Bool)
    (hr : Registry m) (hp : p < m.nextWorker) (hal : (m.heap p).alive = false)
    (h : m.reschedule p mem ios = some m') :
    m'.ledger.tally P = m.ledger.tally P := by
  rcases reschedule_moves hal h with rfl | ⟨t, ret, htasks, hled, -⟩
  · rfl
  · have h0 : (m.ledger.lists p)[0]? = some t := by
      show (m.heap p).tasks[0]? = some t
      rw [htasks]
      rfl
    rw [hled, Ledger.place_take (bestWorker_ne hal),
      Ledger.tally_place (l := m.ledger.take p 0) (bestWorker_lt hr)]
    exact Ledger.tally_take hp h0

theorem detectPass_tally {now : ℚ} {mem : Worker} {ios : Nat → List ResendIo} (P : Task → Bool) :
    ∀ {ps : List Nat} {m : Master}, Registry m → (∀ p ∈ ps, p < m.nextWorker) →
      m.detectPass now mem ios ps = some m' → m'.ledger.tally P = m.ledger.tally P
  | [], m, _, _, h => by
      obtain rfl := Option.some.inj h
      rfl
  | p :: ps, m, hr, hlt, h => by
      have hr0 := hr.same (same_of_kernel (lock_unlock_extends hr.ranged))
      rw [detectPass] at h
      split at h
      · obtain ⟨m₁, h1, h2⟩ := Option.bind_eq_some_iff.mp h
        have hs := set_same (p := p) (w := { m.heap p with alive := false }) hr0.ranged
          ⟨rfl, rfl, rfl, rfl, rfl, by simp⟩
        have hr1 := hr0.same hs
        have hs2 := reschedule_same hr1.ranged (by simp) h1
        have hflip : (Master.set { m with kernel := m.kernel.lock.unlock } p
            { m.heap p with alive := false }).ledger = m.ledger :=
          ledger_congr rfl (fun q => by
            by_cases hq : q = p
            · rw [hq]
              simp
            · simp [set, hq]) rfl
        have h3 := reschedule_tally P hr1 (hlt p (List.mem_cons_self ..)) (by simp) h1
        have h4 := detectPass_tally P (hr1.same hs2) (fun q hq => by
          rw [hs2.nextWorker]
          exact hlt q (List.mem_cons_of_mem _ hq)) h2
        rw [h4, h3, hflip]
      · exact detectPass_tally (m := { m with kernel := m.kernel.lock.unlock }) P hr0
          (fun q hq => hlt q (List.mem_cons_of_mem _ hq)) h

/-! ## What a pass adds to the history -/

/-- `r` is what `schedule` can return: no descriptor, or that of a live
record of the list. -/
def Schedulable (m : Master) (r : Int) : Prop :=
  r = -1 ∨ ∃ q ∈ m.workerList, (m.heap q).alive = true ∧ (m.heap q).workerFd = r

theorem target_schedulable : m.Schedulable m.target := by
  unfold target
  cases hb : m.bestWorker with
  | none => exact Or.inl rfl
  | some q => exact Or.inr ⟨q, (bestWorker_eligible hb).1, (bestWorker_eligible hb).2.1, rfl⟩

theorem Schedulable.mono {r : Int} (hs : Same m m')
    (hal : ∀ q, (m'.heap q).alive = true → (m.heap q).alive = true)
    (h : m'.Schedulable r) : m.Schedulable r := by
  refine h.imp_right ?_
  rintro ⟨q, hq, hqal, hqfd⟩
  exact ⟨q, hs.workerList ▸ hq, hal q hqal, (hs.workerFd q).symm.trans hqfd⟩

/-- The entries a detection pass makes. -/
def OfPass (m : Master) (o : Obs) : Prop :=
  (∃ t r, m.Schedulable r ∧ o = .scheduled t r) ∨ ∃ t dst ret, o = .resent t dst ret

theorem resend_log {mem : Worker} {io : ResendIo} (h : m.resend mem t io = some m') :
    ∃ l, m'.log = m.log ++ l ∧ ∀ o ∈ l, OfPass m o := by
  obtain ⟨k, ret, rfl, -⟩ := resend_eq h
  refine ⟨[.scheduled t m.target, .resent t (m.schedule t).2 ret], ?_, ?_⟩
  · show (m.schedule t).1.log ++ _ = _
    rw [schedule_log, List.append_assoc]
    rfl
  · rintro o (_ | ⟨_, _ | ⟨_, h⟩⟩)
    · exact Or.inl ⟨t, _, target_schedulable, rfl⟩
    · exact Or.inr ⟨_, _, _, rfl⟩
    · cases h

theorem resend_alive {mem : Worker} {io : ResendIo} (h : m.resend mem t io = some m') (q : Nat) :
    (m'.heap q).alive = (m.heap q).alive := by
  obtain ⟨k, ret, rfl, -⟩ := resend_eq h
  obtain ⟨ts, hrec⟩ := schedule_record (m := m) t q
  show ((m.schedule t).1.heap q).alive = _
  rw [hrec]

theorem reschedule_alive {mem : Worker} {ios : List ResendIo}
    (hal : (m.heap p).alive = false) (h : m.reschedule p mem ios = some m') (q : Nat) :
    (m'.heap q).alive = (m.heap q).alive := by
  rcases reschedule_spec h hal with ⟨-, rfl⟩ | ⟨t, m₁, -, h1, rfl⟩
  · rfl
  · by_cases hq : q = p
    · rw [hq, set_heap_self]
    · have := resend_alive h1 q
      simpa [set, hq] using this

theorem reschedule_log {mem : Worker} {ios : List ResendIo}
    (hal : (m.heap p).alive = false) (h : m.reschedule p mem ios = some m') :
    ∃ l, m'.log = m.log ++ l ∧ ∀ o ∈ l, OfPass m o := by
  rcases reschedule_spec h hal with ⟨-, rfl⟩ | ⟨t, m₁, -, h1, rfl⟩
  · exact ⟨[], by simp, by simp⟩
  · obtain ⟨l, hl, ho⟩ := resend_log h1
    exact ⟨l, hl, ho⟩

theorem detectPass_alive {now : ℚ} {mem : Worker} {ios : Nat → List ResendIo} (q : Nat) :
    ∀ {ps : List Nat} {m : Master}, m.detectPass now mem ios ps = some m' →
      (m'.heap q).alive = true → (m.heap q).alive = true
  | [], m, h, hal => by
      obtain rfl := Option.some.inj h
      exact hal
  | p :: ps, m, h, hal => by
      rw [detectPass] at h
      split at h
      · obtain ⟨m₁, h1, h2⟩ := Option.bind_eq_some_iff.mp h
        have h3 := detectPass_alive q h2 hal
        rw [reschedule_alive (by simp) h1 q] at h3
        by_cases hq : q = p
        · rw [hq, set_heap_self] at h3
          cases h3
        · simpa [set, hq] using h3
      · exact detectPass_alive (m := { m with kernel := m.kernel.lock.unlock }) q h hal

theorem acceptConnections_log :
    ∀ (cs : List Conn) {m : Master}, (m.acceptConnections cs).log = m.log
  | [], _ => rfl
  | c :: cs, m => acceptConnections_log cs (m := m.acceptOne c)

theorem reportHeartbeat_log (addr : Bytes) (usage now : ℚ) :
    (m.reportHeartbeat addr usage now).log = m.log := by
  unfold reportHeartbeat
  split <;> rfl

theorem OfPass.mono {o : Obs} (hs : Same m m')
    (hal : ∀ q, (m'.heap q).alive = true → (m.heap q).alive = true) (h : OfPass m' o) :
    OfPass m o := by
  rcases h with ⟨t, r, hr, rfl⟩ | h
  · exact Or.inl ⟨t, r, hr.mono hs hal, rfl⟩
  · exact Or.inr h

theorem detectPass_log {now : ℚ} {mem : Worker} {ios : Nat → List ResendIo} :
    ∀ {ps : List Nat} {m : Master}, m.kernel.Ranged → m.detectPass now mem ios ps = some m' →
      ∃ l, m'.log = m.log ++ l ∧ ∀ o ∈ l, OfPass m o
  | [], m, _, h => by
      obtain rfl := Option.some.inj h
      exact ⟨[], by simp, by simp⟩
  | p :: ps, m, hr, h => by
      have hs0 : Same m { m with kernel := m.kernel.lock.unlock } :=
        same_of_kernel (lock_unlock_extends hr)
      rw [detectPass] at h
      split at h
      · obtain ⟨m₁, h1, h2⟩ := Option.bind_eq_some_iff.mp h
        have hs1 := hs0.trans (set_same (p := p) (w := { m.heap p with alive := false })
          hs0.kernel.ranged ⟨rfl, rfl, rfl, rfl, rfl, by simp⟩)
        have hs2 := hs1.trans (reschedule_same hs1.kernel.ranged (by simp) h1)
        have hal1 : ∀ q, ((Master.set { m with kernel := m.kernel.lock.unlock } p
            { m.heap p with alive := false }).heap q).alive = true →
              (m.heap q).alive = true := fun q hq => by
          by_cases hqp : q = p
          · rw [hqp, set_heap_self] at hq
            cases hq
          · simpa [set, hqp] using hq
        have hal2 : ∀ q, (m₁.heap q).alive = true → (m.heap q).alive = true := fun q hq =>
          hal1 q ((reschedule_alive (by simp) h1 q).symm.trans hq)
        obtain ⟨l₁, hl₁, ho₁⟩ := reschedule_log (by simp) h1
        obtain ⟨l₂, hl₂, ho₂⟩ := detectPass_log hs2.kernel.ranged h2
        refine ⟨l₁ ++ l₂, by rw [hl₂, hl₁, List.append_assoc]; rfl, ?_⟩
        intro o ho
        rcases List.mem_append.mp ho with ho | ho
        · exact (ho₁ o ho).mono hs1 hal1
        · exact (ho₂ o ho).mono hs2 hal2
      · obtain ⟨l, hl, ho⟩ := detectPass_log hs0.kernel.ranged h
        exact ⟨l, hl, ho⟩

/-! ## Conservation -/

/-- Every task made is on one list, or has been removed; whatever property
is counted. And the tasks made are pairwise different. -/
structure Conserved (m : Master) : Prop where
  tally : ∀ P, m.ledger.tally P + (removedTasks m.log).countP P = (madeTasks m.log).countP P
  nodup : (madeTasks m.log).Nodup
  lt : ∀ t ∈ madeTasks m.log, t.ptr < m.nextTask

theorem madeTasks_append (l l' : List Obs) : madeTasks (l ++ l') = madeTasks l ++ madeTasks l' :=
  List.filterMap_append

theorem removedTasks_append (l l' : List Obs) :
    removedTasks (l ++ l') = removedTasks l ++ removedTasks l' :=
  List.filterMap_append

theorem Conserved.quiet (hc : Conserved m) (htally : ∀ P, m'.ledger.tally P = m.ledger.tally P)
    (hn : m'.nextTask = m.nextTask) {l : List Obs} (hlog : m'.log = m.log ++ l)
    (hmade : madeTasks l = []) (hrem : removedTasks l = []) : Conserved m' := by
  have h1 : madeTasks m'.log = madeTasks m.log := by rw [hlog, madeTasks_append, hmade,
    List.append_nil]
  have h2 : removedTasks m'.log = removedTasks m.log := by rw [hlog, removedTasks_append, hrem,
    List.append_nil]
  refine ⟨?_, ?_, ?_⟩
  · intro P
    rw [htally, h1, h2]
    exact hc.tally P
  · rw [h1]
    exact hc.nodup
  · rw [h1, hn]
    exact hc.lt

theorem ParserOnly.conserved (hp : ParserOnly p m m') (hc : Conserved m) : Conserved m' := by
  obtain ⟨l, hl, ho⟩ := hp.log
  refine hc.quiet (fun P => by rw [hp.ledger]) hp.nextTask hl ?_ ?_ <;>
    refine List.filterMap_eq_nil_iff.mpr fun o h => ?_ <;>
    rcases ho o h with ⟨_, _, _, rfl⟩ | ⟨_, rfl⟩ <;> rfl

theorem forwarded_conserved {ret : Ret} {k : Kernel} (hc : Conserved m) :
    Conserved (m.forwarded fd p ret k) :=
  hc.quiet (fun P => by rw [forwarded_ledger]) rfl (forwarded_log fd ret k) rfl rfl

theorem submitted_conserved (hr : Registry m) (hc : Conserved m) (name : Bytes) :
    Conserved (m.submitted p name) := by
  have hmade : madeTasks (m.submitted p name).log =
      madeTasks m.log ++ [m.newTask p name] := by
    rw [submitted_log, madeTasks_append]
    rfl
  have hrem : removedTasks (m.submitted p name).log = removedTasks m.log := by
    rw [submitted_log, removedTasks_append]
    exact List.append_nil _
  have hnext : (m.submitted p name).nextTask = m.nextTask + 1 :=
    schedule_nextTask (m := (m.makeTask (m.heap p) name).2) _
  refine ⟨?_, ?_, ?_⟩
  · intro P
    have h1 := hc.tally P
    have h2 := Ledger.tally_place (P := P) (l := m.ledger) (a := m.newTask p name)
      (bestWorker_lt hr)
    rw [submitted_ledger, h2, hmade, hrem, List.countP_append, List.countP_singleton]
    omega
  · rw [hmade]
    refine hc.nodup.append (List.nodup_singleton _) fun t ht ht' => ?_
    obtain rfl := List.mem_singleton.mp ht'
    exact absurd (hc.lt _ ht) (Nat.lt_irrefl _)
  · rw [hmade, hnext]
    intro t ht
    rcases List.mem_append.mp ht with h | h
    · exact (hc.lt t h).trans (Nat.lt_succ_self _)
    · obtain rfl := List.mem_singleton.mp h
      exact Nat.lt_succ_self _

theorem finds_spec {name : Bytes} {q i : Nat} (h : m.finds fd name = some (q, i)) :
    ∃ t, (m.heap q).tasks[i]? = some t ∧ t.fileName = name ∧ q ∈ m.workerList
      ∧ (m.heap q).workerFd = fd := by
  obtain ⟨t, ht, hname, ho, -⟩ := schedulerRemoveTask_of_some h
  exact ⟨t, ht, hname, ownerOf_spec ho⟩

/-- On the connection of a listed record, `scheduler_remove_task` looks at
the list of that record. -/
theorem At.ownerOf (hr : Registry m) (hat : At m fd p) (hfd : fd ≠ m.interfaceFd) :
    m.ownerOf fd = some p := by
  have hp : p ∈ m.workerList := hat.place.elim And.left fun h => (hfd h.2.1).elim
  cases ho : m.ownerOf fd with
  | none =>
      unfold Master.ownerOf at ho
      have := List.find?_eq_none.mp ho p hp
      simp [hat.workerFd] at this
  | some q =>
      obtain ⟨hq, hqfd⟩ := ownerOf_spec ho
      rw [hr.fdInj q hq p hp (hqfd.trans hat.workerFd.symm)]

theorem At.answeredTask_iff {name : Bytes} (hr : Registry m) (hat : At m fd p)
    (hfd : fd ≠ m.interfaceFd) :
    (∃ t, m.answeredTask fd name = some t ∧ t.fileName = name)
      ↔ name ∈ (m.heap p).tasks.map Task.fileName := by
  have howner := hat.ownerOf hr hfd
  constructor
  · rintro ⟨t, ht, hn⟩
    obtain ⟨⟨q, i⟩, hf, ht⟩ := Option.bind_eq_some_iff.mp ht
    obtain ⟨u, hu, -, ho, -⟩ := schedulerRemoveTask_of_some hf
    obtain rfl := Option.some.inj (howner.symm.trans ho)
    exact List.mem_map.mpr ⟨t, List.mem_of_getElem? ht, hn⟩
  · intro hname
    obtain ⟨i, hi⟩ : ∃ i, (m.heap p).tasks.findIdx? (fun t => t.fileName = name) = some i := by
      obtain ⟨t, ht, hn⟩ := List.mem_map.mp hname
      refine Option.isSome_iff_exists.mp ?_
      rw [List.findIdx?_isSome, List.any_eq_true]
      exact ⟨t, ht, by simpa using hn⟩
    have hf : m.finds fd name = some (p, i) := by simp [finds, howner, hi]
    obtain ⟨t, ht, hn, -⟩ := finds_spec hf
    exact ⟨t, by simp [answeredTask, hf, ht], hn⟩

theorem answered_conserved (hr : Registry m) (hc : Conserved m) (name : Bytes) :
    Conserved (m.answered p name) := by
  have hmade : madeTasks (m.answered p name).log = madeTasks m.log := by
    rw [answered_log, madeTasks_append]
    exact List.append_nil _
  have hrem : removedTasks (m.answered p name).log =
      removedTasks m.log ++ (m.answeredTask (m.heap p).workerFd name).toList := by
    rw [answered_log, removedTasks_append]
    cases m.answeredTask (m.heap p).workerFd name <;> rfl
  have hnext : (m.answered p name).nextTask = m.nextTask := by
    obtain ⟨heap, log, heq⟩ := schedulerRemoveTask_frame (m := m) (m.heap p).workerFd name
    rw [answered, heq]
    rfl
  refine ⟨?_, by rw [hmade]; exact hc.nodup, by rw [hmade, hnext]; exact hc.lt⟩
  intro P
  have h1 := hc.tally P
  rw [answered_ledger, schedulerRemoveTask_ledger, hmade, hrem, List.countP_append, answeredTask]
  cases hf : m.finds (m.heap p).workerFd name with
  | none => simpa using h1
  | some qi =>
      obtain ⟨t, ht, -, hq, -⟩ := finds_spec hf
      have h2 := Ledger.tally_take (P := P) (l := m.ledger) (hr.lt _ hq) ht
      simp only [Option.bind_some, ht, Option.toList_some, List.countP_singleton]
      omega

theorem handleData_conserved (hready : Ready m) (hr : Registry m) (hc : Conserved m)
    (hd : m.kernel.desc fd = some .sock) (h : m.handleData fd io = some m') : Conserved m' := by
  obtain ⟨p, hat⟩ := hr.at hd
  cases halive : (m.heap p).alive with
  | false =>
      rcases handleData_cases h with ⟨rfl, -⟩ | ⟨q, hcur, hal, -⟩
      · exact hc
      · obtain rfl := hat.unique hcur
        rw [halive] at hal
        cases hal
  | true =>
      have hmid : ∀ {f : Flow}, m.parsePhase fd p io.recv = some f →
          Registry f.master ∧ Conserved f.master := fun hpar =>
        ⟨hr.change hat (parsePhase_change hr hat hpar),
          (parsePhase_parserOnly hpar).conserved hc⟩
      cases handleData_call hready hr hat hd halive hat.current h with
      | unfinished f hpar hst heq => exact heq ▸ (hmid hpar).2
      | dropped m₁ hpar hst hfd hal heq => exact heq ▸ (hmid hpar).2
      | submitted m₁ name ret k hpar hst hname hfd hput heq =>
          exact heq ▸ forwarded_conserved (submitted_conserved (hmid hpar).1 (hmid hpar).2 name)
      | answered m₁ name ret k hpar hst hname hfd hal hput heq =>
          exact heq ▸ forwarded_conserved (answered_conserved (hmid hpar).1 (hmid hpar).2 name)

theorem acceptConnections_conserved {cs : List Conn} (hc : Conserved m) :
    Conserved (m.acceptConnections cs) := by
  refine acceptConnections_invariant (fun m c hc => ?_) hc
  exact hc.quiet (fun P => by rw [acceptOne_ledger, Ledger.tally_extend]) rfl
    (List.append_nil _).symm rfl rfl

theorem reschedule_nextTask {mem : Worker} {ios : List ResendIo}
    (hal : (m.heap p).alive = false) (h : m.reschedule p mem ios = some m') :
    m'.nextTask = m.nextTask := by
  rcases reschedule_spec h hal with ⟨-, rfl⟩ | ⟨t, m₁, -, h1, rfl⟩
  · rfl
  · obtain ⟨k, ret, rfl, -⟩ := resend_eq h1
    exact schedule_nextTask t

theorem detectPass_nextTask {now : ℚ} {mem : Worker} {ios : Nat → List ResendIo} :
    ∀ {ps : List Nat} {m : Master}, m.detectPass now mem ios ps = some m' →
      m'.nextTask = m.nextTask
  | [], m, h => by
      obtain rfl := Option.some.inj h
      rfl
  | p :: ps, m, h => by
      rw [detectPass] at h
      split at h
      · obtain ⟨m₁, h1, h2⟩ := Option.bind_eq_some_iff.mp h
        have h3 := reschedule_nextTask (by simp) h1
        exact (detectPass_nextTask h2).trans h3
      · exact detectPass_nextTask (m := { m with kernel := m.kernel.lock.unlock }) h

/-- Outside of `handle_data`, the history shows what a detection pass does. -/
theorem Step.passes {e : Event} (hr : Registry m) (hs : Step m e m')
    (he : ∀ fd arrived io, e ≠ .data fd arrived io) :
    ∃ l, m'.log = m.log ++ l ∧ ∀ o ∈ l, OfPass m o := by
  obtain ⟨-, h⟩ := hs
  cases e with
  | accept cs =>
      obtain rfl := Option.some.inj h
      exact ⟨[], (acceptConnections_log cs).trans (List.append_nil _).symm, nofun⟩
  | data fd arrived io => exact (he fd arrived io rfl).elim
  | heartbeat addr usage now =>
      obtain rfl := Option.some.inj h
      exact ⟨[], (reportHeartbeat_log addr usage now).trans (List.append_nil _).symm, nofun⟩
  | detect now mem ios => exact detectPass_log hr.ranged h

theorem Step.conserved {e : Event} (hr : Registry m) (hready : Ready m) (hc : Conserved m)
    (hs : Step m e m') : Conserved m' := by
  obtain ⟨hen, h⟩ := hs
  cases e with
  | accept cs =>
      obtain rfl := Option.some.inj h
      exact acceptConnections_conserved hc
  | data fd arrived io =>
      simp only [enabled, Bool.and_eq_true, beq_iff_eq] at hen
      have hs0 := deliver_same fd hr.ranged arrived
      exact handleData_conserved (hready.untouched hs0.kernel fun q => .refl _) (hr.same hs0)
        ⟨hc.tally, hc.nodup, hc.lt⟩ hen.1 h
  | heartbeat addr usage now =>
      obtain rfl := Option.some.inj h
      have hlog := (reportHeartbeat_log (m := m) addr usage now).trans (List.append_nil _).symm
      have hnext : (m.reportHeartbeat addr usage now).nextTask = m.nextTask := by
        unfold reportHeartbeat
        split <;> rfl
      exact hc.quiet (fun P => by rw [reportHeartbeat_ledger]) hnext hlog rfl rfl
  | detect now mem ios =>
      obtain ⟨l, hl, ho⟩ := detectPass_log hr.ranged h
      refine hc.quiet (fun P => detectPass_tally P hr hr.lt h) (detectPass_nextTask h) hl ?_ ?_ <;>
        refine List.filterMap_eq_nil_iff.mpr fun o h => ?_ <;>
        rcases ho o h with ⟨_, _, -, rfl⟩ | ⟨_, _, _, rfl⟩ <;> rfl

theorem init_conserved (resolve : Bytes → Bytes) : Conserved (init resolve) where
  tally _ := rfl
  nodup := List.nodup_nil
  lt _ h := nomatch h

/-- **Conservation.** In every reachable state the tasks that have been made are
those on the lists and in `task_list`, and those that have been removed, with
each of them once. -/
theorem Reachable.conserved (h : Reachable m) : Conserved m :=
  h.invariant init_conserved fun _ _ _ hr hc hs => hs.conserved hr.registry hr.ready hc

end Master

end KeyLime
