import KeyLime.Places

/-!
# The end of the worker

After its receive loop the main thread pushes one end marker for each
tasking thread and one for the sending thread, and joins them all. A tasking
thread ends with the marker it pulls, so the markers that were pulled and
the threads that have exited are equally many (`Ending`), and whoever still
waits finds a marker left for it.

The result is about states (`no_deadlock`): behind the loop some thread can take
a step of its own, a wakeup for no reason not counted, or all have exited. It is
proved thread by thread. A tasking thread that cannot go on has exited or finds
`task_queue` empty (`Wired.tasking_progress`), the sending thread has exited or
finds `finished_task_queue` empty, and if all of them are in this position, the
main thread is not: it is at a push on a queue that is not full, at a call that
does not wait, or at a join of a thread that has exited.

The sending thread may have gone long before, after a failed write. Then its
queue only grows, which nobody waits for since it is not bounded, and its marker
stays in it.
-/

namespace KeyLime

open Transition

def WorkerTask.isEnd (t : WorkerTask) : Bool := t.inputFilename.isNone

/-- `kill_heartbeat` has been called. -/
def MainPc.killed : MainPc → Bool
  | .closing | .ending _ | .endingSender | .joining _ | .joiningSending | .joiningHeartbeat
  | .done => true
  | _ => false

/-- The end marker of the sending thread has been pushed. -/
def MainPc.endedSender : MainPc → Bool
  | .joining _ | .joiningSending | .joiningHeartbeat | .done => true
  | _ => false

/-- Tasking thread `j` has been joined. -/
def MainPc.joined : MainPc → Nat → Bool
  | .joining i, j => j < i
  | .joiningSending, _ | .joiningHeartbeat, _ | .done, _ => true
  | _, _ => false

def MainPc.joinedSending : MainPc → Bool
  | .joiningHeartbeat | .done => true
  | _ => false

/-- Not a wakeup for no reason. -/
def PipelineEvent.own : PipelineEvent → Bool
  | .wake _ => false
  | _ => true

/-- The thread whose step it is. -/
def PipelineEvent.thread : PipelineEvent → Option Thread
  | .request .. | .leave | .exit | .openFile _ | .createOutput _ | .main => some .main
  | .tasking i _ | .garble i _ | .noShell i => some (.tasking i)
  | .sending .. => some .sending
  | .heartbeat _ => none
  | .call th | .enter th _ | .wake th => some th

namespace Pipeline

variable {exec : Bytes → Bytes} {s s' : Pipeline} {e : PipelineEvent} {i : Fin numThread}
  {th : Thread}

/-- The tasking threads that have exited. -/
def exits (s : Pipeline) : Finset (Fin numThread) := Finset.univ.filter fun i => s.tasking i = .exited

theorem mem_exits : i ∈ s.exits ↔ s.tasking i = .exited := by simp [exits]

structure Ending (s : Pipeline) : Prop where
  ends : ∀ i, s.ends i = if s.tasking i = .exited then 1 else 0
  markers : s.tasks.pulled.countP WorkerTask.isEnd = s.exits.card
  killed : s.main.killed = true → s.stayAlive = false
  endedSender : s.main.endedSender = true → ∃ t ∈ s.finished.pushed, t.inputFilename = none
  running : s.sending ≠ .exited → ∀ t ∈ s.finished.pulled, t.inputFilename ≠ none
  joined : ∀ j, s.main.joined j = true → ∀ hj : j < numThread, s.tasking ⟨j, hj⟩ = .exited
  joinedSending : s.main.joinedSending = true → s.sending = .exited
  done : s.main = .done → s.heartbeatExited = true

theorem start_ending (resolve : Bytes → Bytes) (store : Bytes → Option Bytes) :
    (start resolve store).Ending where
  ends i := by simp [start]
  markers := by simp [start, exits, Monitor.create]
  killed h := by cases h
  endedSender h := by cases h
  running _ t ht := by cases ht
  joined _ h := by cases h
  joinedSending h := by cases h
  done h := by cases h

/-! ## What keeps the books of the exits -/

theorem Ending.exits_still (h : s.Ending) (hex : ∀ j, s'.tasking j = .exited ↔ s.tasking j = .exited)
    (hends : s'.ends = s.ends)
    (hpulled : s'.tasks.pulled.countP WorkerTask.isEnd = s.tasks.pulled.countP WorkerTask.isEnd) :
    (∀ i, s'.ends i = if s'.tasking i = .exited then 1 else 0) ∧
      s'.tasks.pulled.countP WorkerTask.isEnd = s'.exits.card := by
  have hexits : s'.exits = s.exits := by
    ext j
    rw [mem_exits, mem_exits, hex]
  refine ⟨?_, by rw [hpulled, hexits, h.markers]⟩
  intro i
  rw [hends, h.ends i]
  simp only [hex]

theorem setTasking_exited {pc : TaskingPc} (hpc : pc ≠ .exited) (hi : s.tasking i ≠ .exited)
    (j : Fin numThread) : (s.setTasking i pc).tasking j = .exited ↔ s.tasking j = .exited := by
  by_cases hj : j = i
  · subst hj
    rw [setTasking_self]
    exact ⟨fun h => (hpc h).elim, fun h => (hi h).elim⟩
  · rw [setTasking_of_ne hj]

theorem TaskingCase.exits (h : TaskingCase exec s i e s') (j : Fin numThread) :
    s'.tasking j = .exited ↔ s.tasking j = .exited := by
  have hi : s.tasking i ≠ .exited := by cases h <;> simp [*]
  have hpc : ∀ pc : TaskingPc, pc ≠ .exited → ((s.setTasking i pc).tasking j = .exited
      ↔ s.tasking j = .exited) := fun _ hpc => setTasking_exited hpc hi j
  cases h <;> exact hpc _ (by simp)

theorem Ending.exits_step (h : s.Ending) (hs : StepCase exec s e s') :
    (∀ i, s'.ends i = if s'.tasking i = .exited then 1 else 0) ∧
      s'.tasks.pulled.countP WorkerTask.isEnd = s'.exits.card := by
  cases hs with
  | main hs =>
      obtain ⟨heq, -, -⟩ := hs.frame
      exact h.exits_still (fun j => by rw [heq]) (by rw [heq]) (by rw [heq])
  | tasking i hs =>
      obtain ⟨heq, -, -⟩ := hs.frame
      exact h.exits_still hs.exits (by rw [heq]; rfl) (by rw [heq]; rfl)
  | sending hs =>
      obtain ⟨heq, -⟩ := hs.frame
      exact h.exits_still (fun j => by rw [heq]) (by rw [heq]) (by rw [heq])
  | heartbeat hs => exact h.exits_still (fun j => by rw [hs]) (by rw [hs]) (by rw [hs])
  | queue hs =>
      cases hs with
      | take i t q hpc hname hcontents hpushed hpulled =>
          refine h.exits_still (setTasking_exited nofun (by simp [hpc])) rfl ?_
          have hreal : t.isEnd = false := by
            simpa [WorkerTask.isEnd, Option.isSome_iff_ne_none] using hname
          show q.pulled.countP WorkerTask.isEnd = _
          simp [hpulled, hreal]
      | retire i t q hpc hname hcontents hpushed hpulled =>
          have hi : i ∉ s.exits := by simp [mem_exits, hpc]
          have hexits : exits { s.setTasking i .exited with
              tasks := q, ends := Function.update s.ends i (s.ends i + 1) } = insert i s.exits := by
            ext j
            rw [mem_exits, Finset.mem_insert, mem_exits]
            by_cases hj : j = i
            · subst hj
              exact iff_of_true (setTasking_self ..) (Or.inl rfl)
            · show (s.setTasking i .exited).tasking j = _ ↔ _
              rw [setTasking_of_ne hj, or_iff_right hj]
          have hend : t.isEnd = true := by simp [WorkerTask.isEnd, hname]
          constructor
          · intro j
            show Function.update s.ends i (s.ends i + 1) j
              = if (s.setTasking i .exited).tasking j = .exited then 1 else 0
            by_cases hj : j = i
            · subst hj
              rw [Function.update_self, setTasking_self, if_pos rfl, h.ends j, hpc]
              rfl
            · rw [Function.update_of_ne hj, setTasking_of_ne hj, h.ends j]
          · rw [hexits, Finset.card_insert_of_notMem hi, ← h.markers]
            show q.pulled.countP WorkerTask.isEnd = _
            simp [hpulled, hend]
      | hand i t q hpc hcontents hpushed hpulled =>
          exact h.exits_still (setTasking_exited nofun (by simp [hpc])) rfl rfl
      | task q hq hpushed hpulled =>
          exact h.exits_still (fun _ => Iff.rfl) rfl (by simp only [hpulled])
      | accept t payload q hpc hcontents hpushed hpulled =>
          exact h.exits_still (fun _ => Iff.rfl) rfl (by simp only [hpulled])
      | endTask i q hpc hcontents hpushed hpulled =>
          exact h.exits_still (fun _ => Iff.rfl) rfl (by simp only [hpulled])
      | finish | endSender | collect | stop => exact h.exits_still (fun _ => Iff.rfl) rfl rfl

theorem StepCase.exited (h : StepCase exec s e s') {j : Fin numThread}
    (hj : s.tasking j = .exited) : s'.tasking j = .exited := by
  have hset {i : Fin numThread} {pc : TaskingPc} (hpc : s.tasking i = .pulling ∨
      ∃ t, s.tasking i = .returning t) : (s.setTasking i pc).tasking j = .exited := by
    refine (setTasking_of_ne fun heq => ?_).trans hj
    subst heq
    rw [hj] at hpc
    rcases hpc with hpc | ⟨t, hpc⟩ <;> cases hpc
  cases h with
  | main hs =>
      obtain ⟨heq, -, -⟩ := hs.frame
      rw [heq]
      exact hj
  | tasking i hs => exact (hs.exits j).mpr hj
  | sending hs =>
      obtain ⟨heq, -⟩ := hs.frame
      rw [heq]
      exact hj
  | heartbeat hs =>
      rw [hs]
      exact hj
  | queue hs =>
      cases hs with
      | take i t q hpc => exact hset (Or.inl hpc)
      | retire i t q hpc => exact hset (Or.inl hpc)
      | hand i t q hpc => exact hset (Or.inr ⟨t, hpc⟩)
      | _ => exact hj

theorem StepCase.exited_sending (h : StepCase exec s e s') (hs : s.sending = .exited) :
    s'.sending = .exited := by
  cases h with
  | main h =>
      obtain ⟨heq, -, -⟩ := h.frame
      rw [heq]
      exact hs
  | tasking i h =>
      obtain ⟨heq, -, -⟩ := h.frame
      rw [heq]
      exact hs
  | sending h =>
      cases h with
      | giveUp => rfl
      | header t name mem hpc | measure t mem hpc | block t remain mem buffer body bs hpc
      | sent t mem buffer short body hpc =>
          rw [hs] at hpc
          cases hpc
  | heartbeat h =>
      rw [h]
      exact hs
  | queue h =>
      cases h with
      | collect t q hpc =>
          rw [hs] at hpc
          cases hpc
      | stop => rfl
      | _ => exact hs

/-! ## What the main thread may rely on -/

/-- What a step of the main thread outside of the queues adds to what it
may rely on. -/
theorem MainCase.gains (h : MainCase s e s') (hend : s.Ending) :
    (s'.main.killed = true → s'.stayAlive = false) ∧
    (s'.main.endedSender = true → s.main.endedSender = true) ∧
    (∀ j, s'.main.joined j = true → ∀ hj : j < numThread, s.tasking ⟨j, hj⟩ = .exited) ∧
    (s'.main.joinedSending = true → s.sending = .exited) ∧
    (s'.main = .done → s.heartbeatExited = true) := by
  have hjoined := hend.joined
  have hkilled := hend.killed
  have hsending := hend.joinedSending
  cases h with
  | join i hpc hi hexited =>
      refine ⟨fun _ => hkilled (by rw [hpc]; rfl), fun _ => by rw [hpc]; rfl, fun j hj hlt => ?_,
        nofun, nofun⟩
      have hj' : j < i + 1 := of_decide_eq_true hj
      rcases Nat.lt_succ_iff_lt_or_eq.mp hj' with hj' | rfl
      · exact hjoined j (by rw [hpc]; exact decide_eq_true hj') hlt
      · exact hexited
  | joined i hpc hi =>
      refine ⟨fun _ => hkilled (by rw [hpc]; rfl), fun _ => by rw [hpc]; rfl, fun j _ hlt => ?_,
        nofun, nofun⟩
      exact hjoined j (by rw [hpc]; exact decide_eq_true (Nat.lt_of_lt_of_le hlt hi)) hlt
  | joinSending hpc hexited =>
      exact ⟨fun _ => hkilled (by rw [hpc]; rfl), fun _ => by rw [hpc]; rfl,
        fun j _ => hjoined j (by rw [hpc]; rfl), fun _ => hexited, nofun⟩
  | joinHeartbeat hpc hexited =>
      exact ⟨fun _ => hkilled (by rw [hpc]; rfl), fun _ => by rw [hpc]; rfl,
        fun j _ => hjoined j (by rw [hpc]; rfl), fun _ => hsending (by rw [hpc]; rfl),
        fun _ => hexited⟩
  | kill hpc => exact ⟨fun _ => rfl, nofun, fun _ => nofun, nofun, nofun⟩
  | close hpc =>
      exact ⟨fun _ => hkilled (by rw [hpc]; rfl), nofun, fun _ => nofun, nofun, nofun⟩
  | _ => exact ⟨nofun, nofun, fun _ => nofun, nofun, nofun⟩

theorem QueueCase.running (h : QueueCase s s')
    (hs : s.sending ≠ .exited → ∀ t ∈ s.finished.pulled, t.inputFilename ≠ none) :
    s'.sending ≠ .exited → ∀ t ∈ s'.finished.pulled, t.inputFilename ≠ none := by
  cases h with
  | collect t q hpc hname hcontents hpushed hpulled =>
      intro _ u hu
      have hu' : u ∈ s.finished.pulled ++ [t] := hpulled ▸ hu
      rcases List.mem_append.mp hu' with hu' | hu'
      · exact hs (by simp [hpc]) u hu'
      · rw [List.mem_singleton.mp hu']
        exact hname
  | stop t q hpc => exact fun hne => (hne rfl).elim
  | finish q hq hpushed hpulled =>
      intro hne u hu
      exact hs hne u (hpulled ▸ hu)
  | endSender q hpc hcontents hpushed hpulled =>
      intro hne u hu
      exact hs hne u (hpulled ▸ hu)
  | hand i t q hpc hcontents hpushed hpulled =>
      intro hne u hu
      exact hs hne u (hpulled ▸ hu)
  | _ => exact hs

theorem QueueCase.endedSender (h : QueueCase s s') (hend : s.Ending)
    (hm : s'.main.endedSender = true) : ∃ t ∈ s'.finished.pushed, t.inputFilename = none := by
  have hend' := hend.endedSender
  cases h with
  | endSender q hpc hcontents hpushed hpulled =>
      refine ⟨KeyLime.endTask, ?_, rfl⟩
      show _ ∈ q.pushed
      rw [hpushed]
      exact List.mem_append_right _ (List.mem_singleton_self _)
  | hand i t q hpc hcontents hpushed hpulled =>
      obtain ⟨u, hu, hname⟩ := hend' hm
      refine ⟨u, ?_, hname⟩
      show _ ∈ q.pushed
      rw [hpushed]
      exact List.mem_append_left _ hu
  | finish q hq hpushed hpulled =>
      obtain ⟨u, hu, hname⟩ := hend' hm
      exact ⟨u, hpushed ▸ hu, hname⟩
  | collect t q hpc hname' hcontents hpushed hpulled =>
      obtain ⟨u, hu, hname⟩ := hend' hm
      exact ⟨u, hpushed ▸ hu, hname⟩
  | stop t q hpc hname' hcontents hpushed hpulled =>
      obtain ⟨u, hu, hname⟩ := hend' hm
      exact ⟨u, hpushed ▸ hu, hname⟩
  | accept => cases hm
  | endTask i q hpc =>
      have hm' : MainPc.endedSender (if i + 1 < numThread then .ending (i + 1) else .endingSender)
        = true := hm
      split at hm' <;> cases hm'
  | task | take | retire => exact hend' hm

theorem QueueCase.main (h : QueueCase s s') :
    s'.main = s.main ∨ ((s'.main.killed = true → s.main.killed = true)
      ∧ (∀ j, s'.main.joined j = false) ∧ s'.main.joinedSending = false ∧ s'.main ≠ .done) := by
  cases h with
  | accept => exact Or.inr ⟨nofun, fun _ => rfl, rfl, nofun⟩
  | endTask i q hpc =>
      right
      show (MainPc.killed (if i + 1 < numThread then .ending (i + 1) else .endingSender) = true → _)
        ∧ (∀ j, MainPc.joined (if i + 1 < numThread then .ending (i + 1) else .endingSender) j = false)
        ∧ MainPc.joinedSending (if i + 1 < numThread then .ending (i + 1) else .endingSender) = false
        ∧ (if i + 1 < numThread then .ending (i + 1) else .endingSender) ≠ MainPc.done
      rw [hpc]
      split <;> exact ⟨fun _ => rfl, fun _ => rfl, rfl, nofun⟩
  | endSender q hpc =>
      rw [hpc]
      exact Or.inr ⟨fun _ => rfl, fun j => decide_eq_false (Nat.not_lt_zero j), rfl, nofun⟩
  | _ => exact Or.inl rfl

theorem Ending.step (h : s.Ending) (hs : StepCase exec s e s') : s'.Ending := by
  obtain ⟨hends, hmarkers⟩ := h.exits_step hs
  have hexited := fun j (hj : j < numThread) => hs.exited (j := ⟨j, hj⟩)
  have hsending := hs.exited_sending
  -- A step that leaves the main thread and the finished tasks alone.
  have still (hm : s'.main = s.main) (hstay : s'.stayAlive = s.stayAlive)
      (hpushed : s'.finished.pushed = s.finished.pushed)
      (hrunning : s'.sending ≠ .exited → ∀ t ∈ s'.finished.pulled, t.inputFilename ≠ none)
      (hbeat : s.heartbeatExited = true → s'.heartbeatExited = true) : s'.Ending :=
    { ends := hends
      markers := hmarkers
      killed := fun hk => hstay.trans (h.killed (hm ▸ hk))
      endedSender := fun hk => hpushed ▸ h.endedSender (hm ▸ hk)
      running := hrunning
      joined := fun j hj hlt => hexited j hlt (h.joined j (hm ▸ hj) hlt)
      joinedSending := fun hk => hsending (h.joinedSending (hm ▸ hk))
      done := fun hd => hbeat (h.done (hm ▸ hd)) }
  cases hs with
  | main hs =>
      obtain ⟨hkilled, hended, hjoined, hjs, hdone⟩ := hs.gains h
      obtain ⟨heq, -, -⟩ := hs.frame
      refine ⟨hends, hmarkers, hkilled, fun hk => ?_, ?_, fun j hj hlt =>
        hexited j hlt (hjoined j hj hlt), fun hk => hsending (hjs hk), fun hd => ?_⟩
      · rw [heq]
        exact h.endedSender (hended hk)
      · rw [heq]
        exact h.running
      · rw [heq]
        exact hdone hd
  | tasking i hs =>
      obtain ⟨heq, -, -⟩ := hs.frame
      refine still (by rw [heq]; rfl) (by rw [heq]; rfl) (by rw [heq]; rfl) ?_ ?_
      · rw [heq]
        exact h.running
      · rw [heq]
        exact id
  | sending hs =>
      obtain ⟨heq, hop⟩ := hs.frame
      refine still (by rw [heq]) (by rw [heq]) (by rw [heq]) (fun _ => ?_) ?_
      · rw [heq]
        refine h.running fun hex => ?_
        cases hs with
        | giveUp t mem short k bs htask hk =>
            rw [hex] at htask
            cases htask
        | header t name mem hpc | measure t mem hpc | block t remain mem buffer body bs hpc
        | sent t mem buffer short body hpc =>
            rw [hex] at hpc
            cases hpc
      · rw [heq]
        exact id
  | heartbeat hs =>
      subst hs
      exact still rfl rfl rfl h.running fun _ => rfl
  | queue hs =>
      have hstay : s'.stayAlive = s.stayAlive ∧ s'.heartbeatExited = s.heartbeatExited := by
        cases hs <;> exact ⟨rfl, rfl⟩
      obtain ⟨hstay, hbeat⟩ := hstay
      refine ⟨hends, hmarkers, fun hk => ?_, hs.endedSender h, hs.running h.running,
        fun j hj hlt => ?_, fun hk => ?_, fun hd => ?_⟩
      · rw [hstay]
        rcases hs.main with hm | ⟨hkill, -⟩
        · exact h.killed (hm ▸ hk)
        · exact h.killed (hkill hk)
      · rcases hs.main with hm | ⟨-, hno, -⟩
        · exact hexited j hlt (h.joined j (hm ▸ hj) hlt)
        · rw [hno] at hj
          cases hj
      · rcases hs.main with hm | ⟨-, -, hno, -⟩
        · exact hsending (h.joinedSending (hm ▸ hk))
        · rw [hno] at hk
          cases hk
      · rcases hs.main with hm | ⟨-, -, -, hno⟩
        · rw [hbeat]
          exact h.done (hm ▸ hd)
        · exact (hno hd).elim

theorem Reachable.ending (h : Reachable exec s) : s.Wired ∧ s.Accounts ∧ s.Ending := by
  obtain ⟨resolve, store, h⟩ := h
  refine h.invariant (I := fun s => s.Wired ∧ s.Accounts ∧ s.Ending)
    ⟨start_wired resolve store, start_accounts resolve store, start_ending resolve store⟩ ?_
  intro s e s' _ ⟨hw, ha, hend⟩ hs
  obtain ⟨hcase, hw', -⟩ := hw.step hs
  exact ⟨hw', ha.step hcase, hend.step hcase⟩

/-! ## Progress -/

/-- Some thread can take a step. -/
def Progress (exec : Bytes → Bytes) (s : Pipeline) : Prop :=
  ∃ e s', e.own = true ∧ Step exec s e s'

/-- Thread `th` can. -/
def Moves (exec : Bytes → Bytes) (s : Pipeline) (th : Thread) : Prop :=
  ∃ e s', e.own = true ∧ e.thread = some th ∧ Step exec s e s'

variable {op : QueueOp WorkerTask}

theorem Moves.progress (h : Moves exec s th) : Progress exec s := by
  obtain ⟨e, s', hown, -, hs⟩ := h
  exact ⟨e, s', hown, hs⟩

theorem Moves.of_handle {e : PipelineEvent} (he : e.own = true) (hth : e.thread = some th)
    (h : ∃ s', s.handle exec e = some s') : Moves exec s th := by
  obtain ⟨s', hs'⟩ := h
  exact ⟨e, s', he, hth, hs'⟩

theorem handle_of_live (hlive : s.main ≠ .exited ∧ s.main ≠ .done) (e : PipelineEvent) :
    s.handle exec e =
      match e with
      | .request name payload => s.request name payload
      | .leave => s.leave
      | .exit => s.exit
      | .openFile ok => s.openFile ok
      | .createOutput ok => s.createOutput ok
      | .main => s.mainStep
      | .tasking i n => s.taskingStep exec i n
      | .garble i store => s.garble i store
      | .noShell i => s.noShell i
      | .sending mem short => s.sendingStep mem short
      | .heartbeat fails => s.heartbeat fails
      | .call th => s.call th
      | .enter th p => s.enter th p
      | .wake th => s.wake th := by
  unfold handle
  refine (if_neg (not_or.mpr hlive)).trans ?_
  cases e <;> rfl

/-- A thread with something to do on `task_queue` goes there, gets the mutex
or waits. -/
theorem Wired.task_progress (h : s.Wired) (hlive : s.main ≠ .exited ∧ s.main ≠ .done)
    (hop : s.taskOp th = some op) : Moves exec s th ∨ s.tasks.threads th = .waiting op := by
  rcases h.taskOps th with hout | ⟨op', hop', hready | hwaiting⟩
  · refine Or.inl ⟨.call th, { s with tasks := { s.tasks with
      threads := Function.update s.tasks.threads th (.ready op) } }, rfl, rfl, ?_⟩
    rw [Step, handle_of_live hlive]
    simp only [Pipeline.call, hop, Monitor.call, hout, Option.map_some]
  · obtain ⟨p, q, r, hq⟩ := h.tasks.enter_total hready
    refine Or.inl ⟨.enter th p, afterOp { s with tasks := q } th r, rfl, rfl, ?_⟩
    rw [Step, handle_of_live hlive]
    simp only [Pipeline.enter, hop, hq, Option.map_some]
  · rw [hop] at hop'
    obtain rfl := Option.some.inj hop'
    exact Or.inr hwaiting

theorem Wired.finished_progress (h : s.Wired) (hlive : s.main ≠ .exited ∧ s.main ≠ .done)
    (hnone : s.taskOp th = none) (hop : s.finishedOp th = some op) :
    Moves exec s th ∨ s.finished.threads th = .waiting op := by
  rcases h.finishedOps th with hout | ⟨op', hop', hready | hwaiting⟩
  · refine Or.inl ⟨.call th, { s with finished := { s.finished with
      threads := Function.update s.finished.threads th (.ready op) } }, rfl, rfl, ?_⟩
    rw [Step, handle_of_live hlive]
    simp only [Pipeline.call, hnone, hop, Monitor.call, hout, Option.map_some]
  · obtain ⟨p, q, r, hq⟩ := h.finished.enter_total hready
    refine Or.inl ⟨.enter th p, afterOp { s with finished := q } th r, rfl, rfl, ?_⟩
    rw [Step, handle_of_live hlive]
    simp only [Pipeline.enter, hnone, hop, hq, Option.map_some]
  · rw [hop] at hop'
    obtain rfl := Option.some.inj hop'
    exact Or.inr hwaiting

theorem Wired.push_finished {t : WorkerTask} (h : s.Wired)
    (hlive : s.main ≠ .exited ∧ s.main ≠ .done) (hnone : s.taskOp th = none)
    (hop : s.finishedOp th = some (.push t)) : Moves exec s th := by
  rcases h.finished_progress hlive hnone hop with hp | hwaiting
  · exact hp
  · have hpos := (h.finished.pushers th t hwaiting).1
    rw [h.finishedMax] at hpos
    exact absurd hpos (by decide)

/-- A tasking thread takes a step, has exited, or sleeps on an empty queue. -/
theorem Wired.tasking_rest (h : s.Wired) (ha : s.Accounts)
    (hlive : s.main ≠ .exited ∧ s.main ≠ .done) (i : Fin numThread) :
    Moves exec s (.tasking i) ∨ s.tasking i = .exited ∨
      s.tasking i = .pulling ∧ s.tasks.contents = [] := by
  have hnames : ∀ t ph, (t, ph) ∈ (s.tasking i).job →
      t.inputFilename ≠ none ∧ t.outputFilename ≠ none := fun t ph ht => by
    refine ha.named (t, ph) ?_
    rw [inFlight_tasking s i]
    exact Multiset.mem_add.mpr (Or.inl ht)
  cases hpc : s.tasking i with
  | pulling =>
      have hop : s.taskOp (.tasking i) = some .pull := by simp [taskOp, hpc]
      rcases h.task_progress hlive hop with hp | hwaiting
      · exact Or.inl hp
      · exact Or.inr (Or.inr ⟨rfl, h.tasks.pullers _ hwaiting⟩)
  | executing t =>
      obtain ⟨hin, hout⟩ := hnames t .executing (by simp [hpc, TaskingPc.job])
      obtain ⟨name, hname⟩ := Option.ne_none_iff_exists'.mp hin
      obtain ⟨output, houtput⟩ := Option.ne_none_iff_exists'.mp hout
      left
      cases hruns : runsProgram name with
      | true =>
          refine .of_handle (e := .tasking i 0) rfl rfl ?_
          rw [handle_of_live hlive]
          simp only [taskingStep, hpc, hname, houtput, hruns, if_true]
          exact ⟨_, rfl⟩
      | false =>
          refine .of_handle (e := .garble i s.kernel.store) rfl rfl ?_
          rw [handle_of_live hlive]
          simp only [garble, hpc, hname, Option.map_some, hruns, Option.getD_some,
            Bool.false_eq_true, if_false]
          exact ⟨_, rfl⟩
  | opened t =>
      obtain ⟨hin, -⟩ := hnames t .opened (by simp [hpc, TaskingPc.job])
      obtain ⟨name, hname⟩ := Option.ne_none_iff_exists'.mp hin
      refine Or.inl (.of_handle (e := .tasking i 0) rfl rfl ?_)
      rw [handle_of_live hlive]
      simp only [taskingStep, hpc, hname, Option.map_some]
      exact ⟨_, rfl⟩
  | running t off rest =>
      obtain ⟨-, hout⟩ := hnames t (.running off rest) (by simp [hpc, TaskingPc.job])
      obtain ⟨output, houtput⟩ := Option.ne_none_iff_exists'.mp hout
      refine Or.inl (.of_handle (e := .tasking i 0) rfl rfl ?_)
      rw [handle_of_live hlive]
      simp only [taskingStep, hpc, houtput, Option.map_some]
      split
      · exact ⟨_, rfl⟩
      · exact ⟨_, rfl⟩
  | returning t =>
      have hnone : s.taskOp (.tasking i) = none := by simp [taskOp, hpc]
      have hop : s.finishedOp (.tasking i) = some (.push t) := by simp [finishedOp, hpc]
      exact Or.inl (h.push_finished hlive hnone hop)
  | exited => exact Or.inr (Or.inl rfl)

theorem Wired.tasking_progress (h : s.Wired) (ha : s.Accounts)
    (hlive : s.main ≠ .exited ∧ s.main ≠ .done) (i : Fin numThread) :
    Moves exec s (.tasking i) ∨ s.tasking i = .exited ∨ s.tasks.contents = [] :=
  (h.tasking_rest ha hlive i).imp_right (Or.imp_right And.right)

theorem Wired.sending_rest (h : s.Wired) (ha : s.Accounts)
    (hlive : s.main ≠ .exited ∧ s.main ≠ .done) :
    Moves exec s .sending ∨ s.sending = .exited ∨
      s.sending = .pulling ∧ s.finished.contents = [] := by
  have step (hs : ∃ s', s.sendingStep (fun _ => 0) none = some s') : Moves exec s .sending := by
    refine .of_handle (e := .sending (fun _ => 0) none) rfl rfl ?_
    rw [handle_of_live hlive]
    exact hs
  cases hpc : s.sending with
  | pulling =>
      have hop : s.finishedOp .sending = some .pull := by simp [finishedOp, hpc]
      rcases h.finished_progress hlive rfl hop with hp | hwaiting
      · exact Or.inl hp
      · exact Or.inr (Or.inr ⟨rfl, h.finished.pullers _ hwaiting⟩)
  | header t =>
      have hmem : (t, Phase.finished) ∈ s.inFlight := by
        rw [inFlight_sending, hpc]
        exact Multiset.mem_add.mpr (Or.inl (Multiset.mem_singleton_self _))
      obtain ⟨name, hname⟩ := Option.ne_none_iff_exists'.mp (ha.named _ hmem).1
      refine Or.inl (step ?_)
      simp only [sendingStep, hpc]
      rw [hname]
      exact ⟨_, rfl⟩
  | measuring t =>
      refine Or.inl (step ?_)
      simp only [sendingStep, hpc]
      split <;> exact ⟨_, rfl⟩
  | body t remain buffer out =>
      refine Or.inl (step ?_)
      simp only [sendingStep, hpc]
      split
      · exact ⟨_, rfl⟩
      · split <;> split <;> exact ⟨_, rfl⟩
  | exited => exact Or.inr (Or.inl rfl)

/-- The sending thread takes a step, has exited, or finds
`finished_task_queue` empty. -/
theorem Wired.sending_progress (h : s.Wired) (ha : s.Accounts)
    (hlive : s.main ≠ .exited ∧ s.main ≠ .done) :
    Moves exec s .sending ∨ s.sending = .exited ∨ s.finished.contents = [] :=
  (h.sending_rest ha hlive).imp_right (Or.imp_right And.right)

theorem Wired.task_history (h : s.Wired) : s.tasks.pulled ++ s.tasks.contents = s.tasks.pushed := by
  rw [h.tasks.history, h.taskCopy]
  simp only [funext taskCopyConstructor_eq, List.map_id']

theorem Wired.finished_history (h : s.Wired) :
    s.finished.pulled ++ s.finished.contents = s.finished.pushed := by
  rw [h.finished.history, h.finishedCopy]
  simp only [funext taskCopyConstructor_eq, List.map_id']

theorem Accounts.markers (h : s.Accounts) :
    s.tasks.pushed.countP WorkerTask.isEnd = s.main.endsPushed := by
  obtain ⟨ts, hpushed, -, hnames⟩ := h.pushed
  have hts : ts.countP WorkerTask.isEnd = 0 := by
    rw [List.countP_eq_zero]
    intro t ht
    simpa [WorkerTask.isEnd, Option.isSome_iff_ne_none] using hnames t ht
  have hends : (List.replicate s.main.endsPushed endTask).countP WorkerTask.isEnd =
      s.main.endsPushed := by
    rw [List.countP_replicate]
    rfl
  rw [hpushed, List.countP_append, hts, hends, Nat.zero_add]

/-- As long as end markers are missing or left, some tasking thread runs. -/
theorem Ending.exits_le (hend : s.Ending) (hw : s.Wired) (ha : s.Accounts) :
    s.exits.card ≤ s.main.endsPushed := by
  rw [← hend.markers, ← ha.markers, ← hw.task_history, List.countP_append]
  exact Nat.le_add_right _ _

theorem card_exits_of_all (h : ∀ i, s.tasking i = .exited) : s.exits.card = numThread := by
  have huniv : s.exits = Finset.univ := Finset.eq_univ_iff_forall.mpr fun i => mem_exits.mpr (h i)
  rw [huniv, Finset.card_univ, Fintype.card_fin]

theorem Wired.main_progress (h : s.Wired) (ha : s.Accounts) (hend : s.Ending)
    (hlive : s.main ≠ .exited ∧ s.main ≠ .done) (hleft : s.main.inLoop = false)
    (htasking : ∀ i, s.tasking i = .exited ∨ s.tasks.contents = [])
    (hsending : s.sending = .exited ∨ s.finished.contents = []) : Progress exec s := by
  have step (hs : ∃ s', s.mainStep = some s') : Progress exec s := by
    refine Moves.progress (.of_handle (e := .main) rfl rfl ?_)
    rw [handle_of_live hlive]
    exact hs
  cases hpc : s.main with
  | receiving | opening _ _ | storing _ _ _ _ | creating _ _ | pushing _ _ =>
      rw [hpc] at hleft
      cases hleft
  | exited => exact (hlive.1 hpc).elim
  | done => exact (hlive.2 hpc).elim
  | killing => exact step (by simp only [mainStep, hpc]; exact ⟨_, rfl⟩)
  | closing => exact step (by simp only [mainStep, hpc]; exact ⟨_, rfl⟩)
  | ending i =>
      have hop : s.taskOp .main = some (.push endTask) := by simp [taskOp, hpc]
      rcases h.task_progress hlive hop with hp | hwaiting
      · exact hp.progress
      · -- The queue is full, so nobody waits for it to fill: all have
        -- exited, with more markers than have been pushed.
        have hfull := (h.tasks.pushers _ _ hwaiting).2
        rw [h.taskMax] at hfull
        have hall : ∀ j, s.tasking j = .exited := fun j =>
          (htasking j).resolve_right fun hnil => by
            rw [hnil] at hfull
            exact absurd hfull (by decide)
        have hle := hend.exits_le h ha
        rw [card_exits_of_all hall, hpc] at hle
        exact absurd (ha.ending i hpc) (Nat.not_lt.mpr hle)
  | endingSender =>
      have hnone : s.taskOp .main = none := by simp [taskOp, hpc]
      have hop : s.finishedOp .main = some (.push endTask) := by simp [finishedOp, hpc]
      exact (h.push_finished hlive hnone hop).progress
  | joining i =>
      by_cases hi : i < numThread
      · by_cases hexited : s.tasking ⟨i, hi⟩ = .exited
        · exact step (by simp only [mainStep, hpc, dif_pos hi, if_pos hexited]; exact ⟨_, rfl⟩)
        · -- It waits for an empty queue, so all markers have been pulled.
          have hnil := (htasking ⟨i, hi⟩).resolve_left hexited
          have hcard : s.exits.card = numThread := by
            have hmarkers := ha.markers
            rw [← h.task_history, hnil, List.append_nil, hend.markers, hpc] at hmarkers
            exact hmarkers
          have huniv := (Finset.card_eq_iff_eq_univ s.exits).mp
            (hcard.trans (Fintype.card_fin numThread).symm)
          exact (hexited (mem_exits.mp (huniv ▸ Finset.mem_univ _))).elim
      · exact step (by simp only [mainStep, hpc, dif_neg hi]; exact ⟨_, rfl⟩)
  | joiningSending =>
      rcases hsending with hexited | hnil
      · exact step (by simp only [mainStep, hpc, hexited]; exact ⟨_, rfl⟩)
      · by_cases hexited : s.sending = .exited
        · exact step (by simp only [mainStep, hpc, hexited]; exact ⟨_, rfl⟩)
        · obtain ⟨t, ht, hname⟩ := hend.endedSender (by rw [hpc]; rfl)
          rw [← h.finished_history, hnil, List.append_nil] at ht
          exact (hend.running hexited t ht hname).elim
  | joiningHeartbeat =>
      cases hbeat : s.heartbeatExited with
      | true => exact step (by simp only [mainStep, hpc, hbeat, if_true]; exact ⟨_, rfl⟩)
      | false =>
          have hstay := hend.killed (by rw [hpc]; rfl)
          refine ⟨.heartbeat false, { s with heartbeatExited := true }, rfl, ?_⟩
          rw [Step, handle_of_live hlive]
          simp only [heartbeat, hbeat, hstay, Bool.false_and, Bool.or_false, Bool.false_eq_true,
            if_false]

/-- **The shutdown does not get stuck.** Once the main thread has left its
loop, some thread can take a step, or all is done: every thread has exited,
each tasking thread with one end marker. -/
theorem no_deadlock (h : Reachable exec s) (hleft : s.main.inLoop = false)
    (hlive : s.main ≠ .exited) :
    (∃ e s', e.own = true ∧ Step exec s e s') ∨
      (s.main = .done ∧ s.sending = .exited ∧ s.heartbeatExited = true ∧
        ∀ i, s.tasking i = .exited ∧ s.ends i = 1) := by
  obtain ⟨hw, ha, hend⟩ := h.ending
  by_cases hdone : s.main = .done
  · have hall : ∀ i, s.tasking i = .exited := fun i => hend.joined i (by rw [hdone]; rfl) i.isLt
    refine Or.inr ⟨hdone, hend.joinedSending (by rw [hdone]; rfl), hend.done hdone, fun i => ?_⟩
    rw [hend.ends i, if_pos (hall i)]
    exact ⟨hall i, rfl⟩
  · left
    have hlive' : s.main ≠ .exited ∧ s.main ≠ .done := ⟨hlive, hdone⟩
    by_contra hstuck
    have htasking : ∀ i, s.tasking i = .exited ∨ s.tasks.contents = [] := fun i =>
      (hw.tasking_progress ha hlive' i).resolve_left fun hm => hstuck hm.progress
    have hsending : s.sending = .exited ∨ s.finished.contents = [] :=
      (hw.sending_progress ha hlive').resolve_left fun hm => hstuck hm.progress
    exact hstuck (hw.main_progress ha hend hlive' hleft htasking hsending)

/-- The sending thread has gone after an error, and two of the end markers
have been pushed. -/
theorem proceeds_without_sender :
    ∃ s, Reachable id s ∧ s.main = .ending 2 ∧ s.abandoned = [0] ∧
      ((∃ e s', e.own = true ∧ Step id s e s') ∨
        (s.main = .done ∧ s.sending = .exited ∧ s.heartbeatExited = true ∧
          ∀ i, s.tasking i = .exited ∧ s.ends i = 1)) := by
  have hexec : execRun id
      (requested [97] [1] 0 ++ through (.tasking 0) 0 ++ List.replicate 4 (.tasking 0 0)
        ++ through (.tasking 0) 0 ++ through .sending 0 ++ [.sending (fun _ => 0) (some 3)]
        ++ [.leave, .main, .main] ++ through .main 0 ++ through .main 1)
      (fun s => (s.main, s.abandoned)) = some (.ending 2, [0]) := by decide +kernel
  obtain ⟨s, hr, hv⟩ := execRun_spec hexec
  obtain ⟨hmain, habandoned⟩ := Prod.mk.inj hv
  exact ⟨s, hr, hmain, habandoned, no_deadlock hr (by rw [hmain]; rfl) (by rw [hmain]; nofun)⟩

end Pipeline

end KeyLime
