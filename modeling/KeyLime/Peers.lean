import KeyLime.Idle

/-!
# Tasks for interface processes

Until its first header has been read, the connection of an interface is a
record of `worker_list` like any other, and with a lower load than any
worker that has been heard of; with another interface registered it stays
one. While no such record is live and listed when `schedule` is called, no
task goes to an interface.

Which peers are interfaces is not something the master knows. The result is about
any assignment of records (`iface`), and the condition (`schedulesWorkers`) says
of the state before an event, if a task is to be given away in it, that the live
records of the list are those of workers. Under it the records of interfaces have
no tasks, which is the invariant, and none is given to them, which is read off
what `schedule` can return.
-/

namespace KeyLime

open Bookkeeping

namespace Master

variable {m m' m₁ : Master} {fd : Int} {p q : Nat} {io : DataIo} {e : Event} {t : Task}
  {iface : Nat → Bool}

/-- When a submission ends in the event, or a silent worker with tasks is
found, the live records of the list, other than that of the submission, are
those of workers. -/
def schedulesWorkers (iface : Nat → Bool) (m : Master) : Event → Bool
  | .data fd arrived _ =>
      match m.completes fd arrived with
      | some (p, v, _, _) =>
          !decide (m.Submits fd p v)
            || m.workerList.all fun q => q == p || !(m.heap q).alive || !iface q
      | none => true
  | .detect now _ _ =>
      (m.workerList.all fun q => !silent (m.heap q) now || (m.heap q).tasks.isEmpty)
        || m.workerList.all fun q => !(m.heap q).alive || !iface q
  | _ => true

/-- The interfaces have no tasks, and no task of the step went to one. -/
structure ToWorkers (iface : Nat → Bool) (m m' : Master) : Prop where
  tasks : ∀ q, iface q = true → (m'.heap q).tasks = []
  scheduled : ∀ t r, .scheduled t r ∈ newLog m m' →
    r = -1 ∨ ∃ q ∈ m'.workerList, (m'.heap q).workerFd = r ∧ iface q = false

theorem ToWorkers.of_tasks (hnone : ∀ q, iface q = true → (m.heap q).tasks = [])
    (htasks : ∀ q, (m.heap q).tasks = [] → (m'.heap q).tasks = [])
    (hlog : ∀ t r, .scheduled t r ∉ newLog m m') : ToWorkers iface m m' :=
  ⟨fun q hq => htasks q (hnone q hq), fun t r ho => (hlog t r ho).elim⟩

theorem submitted_toWorkers {name : Bytes} {ret : Ret} {k : Kernel} (hr : Registry m)
    (hat : At m fd p) (hpar : m.parsePhase fd p io.recv = some (.next m₁))
    (hfd : fd = m₁.interfaceFd) (hnone : ∀ q, iface q = true → (m.heap q).tasks = [])
    (hwork : ∀ q, q ≠ p → m.Eligible q → iface q = false)
    (heq : m' = (m₁.submitted p name).forwarded fd p ret k) : ToWorkers iface m m' := by
  have hp : ParserOnly p m m₁ := parsePhase_parserOnly hpar
  have hr1 : Registry m₁ := hr.change hat (parsePhase_change hr hat hpar)
  have hsame := submitted_same (p := p) hr1.ranged name
  have hledger : m'.ledger = m₁.ledger.place m₁.bestWorker (m₁.newTask p name) := by
    rw [heq, forwarded_ledger, submitted_ledger]
  have hlog := forwarded_log (m := m₁.submitted p name) (p := p) fd ret k
  rw [submitted_log, List.append_assoc, ← heq] at hlog
  constructor
  · intro q hq
    have hlists : (m'.heap q).tasks =
        (m₁.ledger.place m₁.bestWorker (m₁.newTask p name)).lists q :=
      congrFun (congrArg Ledger.lists hledger) q
    have hold : m₁.ledger.lists q = [] := (hp.tasks q).trans (hnone q hq)
    rw [hlists]
    cases hb : m₁.bestWorker with
    | none => exact hold
    | some b =>
        have hne : q ≠ b := fun h => by
          obtain ⟨hbp, helig⟩ :=
            (parsePhase_eligible hr hat hpar hfd b).mp (bestWorker_eligible hb)
          rw [h, hwork b hbp helig] at hq
          cases hq
        simpa [Ledger.place, hne] using hold
  · intro t r ho
    have hno : ¬ OfParser p (.scheduled t r) := by
      rintro (⟨_, _, _, h⟩ | ⟨_, h⟩) <;> cases h
    have hmem := hp.mem_rest hlog ho hno
    simp only [List.cons_append, List.nil_append, List.mem_cons, List.not_mem_nil,
      reduceCtorEq, or_false, false_or, Obs.scheduled.injEq] at hmem
    rcases submitted_target hr hat hpar hfd hmem.2.symm with h | ⟨q, hb, hqp, helig, hqfd⟩
    · exact Or.inl h
    · refine Or.inr ⟨q, ?_, ?_, hwork q hqp helig⟩
      · show q ∈ m'.workerList
        rw [heq]
        exact hsame.workerList ▸ (bestWorker_eligible hb).1
      · rw [heq, forwarded_others ret k hqp]
        obtain ⟨ts, hrec⟩ := submitted_others (m := m₁) name hqp
        rw [hrec]
        exact (hp.workerFd q).trans hqfd

theorem Step.toWorkers (hr : Reachable m) (hnone : ∀ q, iface q = true → (m.heap q).tasks = [])
    (hs : Step m e m') (hc : m.schedulesWorkers iface e = true) : ToWorkers iface m m' := by
  cases e with
  | accept cs =>
      obtain rfl := Option.some.inj hs.2
      exact .of_tasks hnone (fun q => acceptConnections_tasks cs)
        fun t r => not_mem_newLog (acceptConnections_log cs)
  | heartbeat addr usage now =>
      obtain rfl := Option.some.inj hs.2
      refine .of_tasks hnone (fun q hq => ?_)
        fun t r => not_mem_newLog (reportHeartbeat_log addr usage now)
      exact (congrFun (congrArg Ledger.lists (reportHeartbeat_ledger addr usage now)) q).trans hq
  | detect now mem ios =>
      have hlist : m'.workerList = m.workerList :=
        (detectPass_same hr.registry.ranged hs.2).workerList
      have hfd := (detectPass_same hr.registry.ranged hs.2).workerFd
      rw [schedulesWorkers, Bool.or_eq_true, List.all_eq_true, List.all_eq_true] at hc
      rcases hc with hquiet | hwork
      · obtain ⟨hlog, htasks, -⟩ := detectPass_quiet (fun q hq hsil => by
          simpa [hsil] using hquiet q hq) hs.2
        exact .of_tasks hnone (fun q hq => (htasks q).trans hq) fun t r => not_mem_newLog hlog
      · constructor
        · intro q hq
          refine (Idle.detectPass (m := m) ⟨hnone q hq, fun hmem => ?_⟩ hs.2).tasks
          simpa [hq] using hwork q hmem
        · intro t r ho
          refine (hs.schedulable hr ho).imp_right ?_
          rintro ⟨q, hq, hal, hqfd⟩
          exact ⟨q, hlist ▸ hq, (hfd q).trans hqfd, by simpa [hal] using hwork q hq⟩
  | data fd arrived io =>
      obtain ⟨p, hat, hready0, hr0, hat0, -, hcase⟩ := hs.call hr
      have hquiet : ∀ {m₁ : Master}, ParserOnly p (m.arriving fd arrived) m₁ → m' = m₁ →
          ToWorkers iface m m' := by
        rintro m₁ hp rfl
        refine .of_tasks hnone (fun q hq => (hp.tasks q).trans hq) fun t r ho => ?_
        refine nomatch hp.mem_rest (l := []) (List.append_nil _).symm ho ?_
        rintro (⟨_, _, _, h⟩ | ⟨_, h⟩) <;> cases h
      rcases hcase with ⟨-, heq⟩ | ⟨halive, hcase⟩
      · exact hquiet (.refl _ p) heq
      · cases hcase with
        | unfinished f hpar hst heq => exact hquiet (parsePhase_parserOnly hpar) heq
        | dropped m₁ hpar hst hfd hal heq => exact hquiet (parsePhase_parserOnly hpar) heq
        | submitted m₁ name ret k hpar hst hname hfd hput heq =>
            obtain ⟨v, name', got, hcomp⟩ := parsePhase_complete hready0 hat0 halive hpar hst
            have hsub : m.Submits fd p v := (hcomp.interface_iff hr0 hat0 hpar hst).mp hfd
            rw [schedulesWorkers, hcomp.completes hat.current] at hc
            simp only [hsub, decide_true, Bool.not_true, Bool.false_or, List.all_eq_true] at hc
            have hwork : ∀ q, q ≠ p → m.Eligible q → iface q = false := fun q hqp helig => by
              simpa [hqp, helig.2.1] using hc q helig.1
            obtain ⟨h1, h2⟩ := submitted_toWorkers (m := m.arriving fd arrived) hr0 hat0
              hpar hfd hnone hwork heq
            exact ⟨h1, h2⟩
        | answered m₁ name ret k hpar hst hname hfd hal hput heq =>
            have hp : ParserOnly p (m.arriving fd arrived) m₁ := parsePhase_parserOnly hpar
            have hlog := forwarded_log (m := m₁.answered p name) (p := p) fd ret k
            rw [answered_log, List.append_assoc, ← heq] at hlog
            refine .of_tasks hnone (fun q hq => ?_) fun t r ho => ?_
            · have hledger : m'.ledger =
                  (m₁.schedulerRemoveTask (m₁.heap p).workerFd name).ledger := by
                rw [heq, forwarded_ledger, answered_ledger]
              have hlists : (m'.heap q).tasks = _ := congrFun (congrArg Ledger.lists hledger) q
              rw [hlists, schedulerRemoveTask_ledger]
              have hold : m₁.ledger.lists q = [] := (hp.tasks q).trans hq
              split
              · exact hold
              · rename_i b i _
                by_cases hqb : q = b
                · simp [Ledger.take, ← hqb, hold]
                · simpa [Ledger.take, hqb] using hold
            · have hmem := hp.mem_rest hlog ho (by
                rintro (⟨_, _, _, h⟩ | ⟨_, h⟩) <;> cases h)
              simp at hmem

theorem ReachableWithin.noTasks
    (h : ReachableWithin (fun m e _ => m.schedulesWorkers iface e = true) m) :
    ∀ q, iface q = true → (m.heap q).tasks = [] :=
  h.invariant (I := fun m => ∀ q, iface q = true → (m.heap q).tasks = []) (fun _ _ _ => rfl)
    fun _ _ _ hr hi hs hc => (Step.toWorkers hr.reachable hi hs hc).tasks

/-- **Tasks go to workers.** Let `iface` tell which records are of interfaces. In
a run in which the live records of the list are workers' whenever a task is to
be given away, no record of an interface has a task after any step, and no task
is given to one. -/
theorem tasks_to_workers
    (h : ReachableWithin (fun m e _ => m.schedulesWorkers iface e = true) m)
    (hs : Step m e m') (hc : m.schedulesWorkers iface e = true) : ToWorkers iface m m' :=
  hs.toWorkers h.reachable h.noTasks hc

/-- One interface and one worker. -/
theorem tasks_to_workers_one :
    ∃ m m', Step m (.data 5 (submitFrame.map .byte) {}) m'
      ∧ .scheduled ⟨0, [97], 0, 0⟩ 6 ∈ newLog m m' ∧ ToWorkers (· == 0) m m' := by
  obtain ⟨m, m', hr, hs, hc, hv⟩ := execStepWithin_spec (c := schedulesWorkers (· == 0))
    id (v := true)
    ([.accept [⟨5, [], default⟩, ⟨6, [], default⟩]])
    (e := .data 5 (submitFrame.map .byte) {})
    (f := fun m m' => decide (.scheduled ⟨0, [97], 0, 0⟩ 6 ∈ newLog m m')) (by decide +kernel)
  exact ⟨m, m', hs, of_decide_eq_true hv, tasks_to_workers hr hs hc⟩

/-- Of two interfaces that have connected, the first submits, and the second
is given the task; then it sends its header. -/
theorem interface_given_task :
    ∃ m, Reachable m ∧ (m.heap 1).workerFd = 6 ∧ m.kernel.taken 5 = submitFrame
      ∧ m.kernel.taken 6 = submitLine ∧ (m.heap 1).toDo = .interfacePut
      ∧ .scheduled ⟨0, [97], 0, 0⟩ 6 ∈ m.log ∧ (m.heap 1).tasks = [⟨0, [97], 0, 0⟩] := by
  obtain ⟨m, hr, hv⟩ := execWithin_spec (c := fun _ _ => true) id (v := true)
    ([.accept [⟨5, [], default⟩, ⟨6, [], default⟩, ⟨7, [], default⟩],
      .data 5 (submitFrame.map .byte) {}, .data 6 (submitLine.map .byte) {}])
    (f := fun m => decide ((m.heap 1).workerFd = 6 ∧ m.kernel.taken 5 = submitFrame
      ∧ m.kernel.taken 6 = submitLine ∧ (m.heap 1).toDo = .interfacePut
      ∧ .scheduled ⟨0, [97], 0, 0⟩ 6 ∈ m.log ∧ (m.heap 1).tasks = [⟨0, [97], 0, 0⟩]))
    (by decide +kernel)
  exact ⟨m, hr.reachable, of_decide_eq_true hv⟩

end Master

end KeyLime
