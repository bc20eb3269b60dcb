import KeyLime.Pipeline

/-!
# The steps of the worker's threads

`StepCase`: everything a step of the pipeline can do, by thread. The cases
of the queues rest on `Wired`: a thread is in a queue's functions only
while its program counter says so, with the operation it says.

The queues are `Monitor`s of their own, with their own idea of which thread is
where. `Serves` relates the two: a function from threads to operations says what
a thread is doing as far as its program counter goes, and the monitor has it
there. A step of one thread changes its own program counter and nobody else's
operation, so `Wired` is kept; and from `Wired`, a step on a queue is a step of
that queue together with what the thread does when the function returns: the
cases of `QueueCase`.

Outside of the queues there is one type of cases for each kind of thread
(`MainCase`, `TaskingCase`, `SendingCase`), with a frame lemma that says what the
thread leaves alone. Later modules go by these and unfold no step.
-/

namespace KeyLime

open Transition

namespace Monitor

variable {τ α : Type*} [DecidableEq τ] {s s' : Monitor τ α} {f f' : τ → Option (QueueOp α)}
  {t : τ} {op : QueueOp α} {r : QueueRet α}

/-- The threads in the queue's functions are those `f` says, with the
operation it says. -/
def Serves (s : Monitor τ α) (f : τ → Option (QueueOp α)) : Prop :=
  ∀ t, s.threads t = .out ∨ ∃ op, f t = some op ∧
    (s.threads t = .ready op ∨ s.threads t = .waiting op)

omit [DecidableEq τ] in
theorem Serves.out (h : s.Serves f) (hf : f t = none) : s.threads t = .out := by
  rcases h t with hout | ⟨op, hop, -⟩
  · exact hout
  · rw [hf] at hop
    cases hop

omit [DecidableEq τ] in
theorem Serves.ready (h : s.Serves f) (hop : s.threads t = .ready op) : f t = some op := by
  rcases h t with hout | ⟨op', hf, hst | hst⟩
  · rw [hop] at hout
    cases hout
  · rw [hop] at hst
    obtain rfl := QueueStatus.ready.inj hst
    exact hf
  · rw [hop] at hst
    cases hst

omit [DecidableEq τ] in
theorem Serves.waiting (h : s.Serves f) (hop : s.threads t = .waiting op) : f t = some op := by
  rcases h t with hout | ⟨op', hf, hst | hst⟩
  · rw [hop] at hout
    cases hout
  · rw [hop] at hst
    cases hst
  · rw [hop] at hst
    obtain rfl := QueueStatus.waiting.inj hst
    exact hf

omit [DecidableEq τ] in
theorem Serves.congr (h : s.Serves f) (hf : ∀ t, f t = none ∨ f' t = f t) : s.Serves f' := by
  intro t
  rcases hf t with hnone | heq
  · exact Or.inl (h.out hnone)
  · rw [heq]
    exact h t

theorem Serves.call (h : s.Serves f) (hf : f t = some op) (hs : s.call t op = some s') :
    s'.Serves f := by
  unfold Monitor.call at hs
  split at hs
  · obtain rfl := Option.some.inj hs
    intro t'
    by_cases heq : t' = t
    · subst heq
      exact Or.inr ⟨op, hf, Or.inl (by simp)⟩
    · simpa [heq] using h t'
  · cases hs

theorem Serves.wake (h : s.Serves f) (hs : s.wake t = some s') : s'.Serves f := by
  unfold Monitor.wake at hs
  split at hs
  · rename_i op hop
    obtain rfl := Option.some.inj hs
    intro t'
    by_cases heq : t' = t
    · subst heq
      exact Or.inr ⟨op, h.waiting hop, Or.inl (by simp)⟩
    · simpa [heq] using h t'
  · cases hs

omit [DecidableEq τ] in
theorem Serves.broadcast {threads : τ → QueueStatus α} {b : Bool} (h : s.Serves f)
    (heq : threads = Monitor.broadcast s.threads b) (t : τ) :
    threads t = .out ∨ ∃ op, f t = some op ∧ (threads t = .ready op ∨ threads t = .waiting op) := by
  subst heq
  rcases h t with hout | ⟨op, hf, hst | hst⟩
  · left
    cases b <;> simp [Monitor.broadcast, QueueStatus.woken, hout]
  · refine Or.inr ⟨op, hf, Or.inl ?_⟩
    cases b <;> simp [Monitor.broadcast, QueueStatus.woken, hst]
  · refine Or.inr ⟨op, hf, ?_⟩
    cases b <;> simp [Monitor.broadcast, QueueStatus.woken, hst]

theorem Serves.enter (h : s.Serves f) (hc : EnterCase t s s' r) (hf : ∀ t', t' ≠ t → f' t' = f t')
    (hw : r = .waits → f' t = f t) : s'.Serves f' := by
  cases hc with
  | waits op _ hop hblocked heq =>
      subst heq
      intro t'
      by_cases heq : t' = t
      · subst heq
        exact Or.inr ⟨op, (hw rfl).trans (h.ready hop), Or.inr (by simp)⟩
      · rw [hf t' heq]
        simpa [heq] using h t'
  | pushed data _ hop hroom hcontents hpushed hpulled hthreads hmax hcopy =>
      intro t'
      rw [hthreads]
      by_cases heq : t' = t
      · exact Or.inl (by simp [heq])
      · rw [Function.update_of_ne heq, hf t' heq]
        exact h.broadcast rfl t'
  | pulled x _ hop hcontents hpushed hpulled hthreads hmax hcopy =>
      intro t'
      rw [hthreads]
      by_cases heq : t' = t
      · exact Or.inl (by simp [heq])
      · rw [Function.update_of_ne heq, hf t' heq]
        exact h.broadcast rfl t'

theorem call_frame (hs : s.call t op = some s') :
    s'.queue = s.queue ∧ s'.pushed = s.pushed ∧ s'.pulled = s.pulled := by
  unfold Monitor.call at hs
  split at hs
  · obtain rfl := Option.some.inj hs
    exact ⟨rfl, rfl, rfl⟩
  · cases hs

theorem wake_frame (hs : s.wake t = some s') :
    s'.queue = s.queue ∧ s'.pushed = s.pushed ∧ s'.pulled = s.pulled := by
  unfold Monitor.wake at hs
  split at hs
  · obtain rfl := Option.some.inj hs
    exact ⟨rfl, rfl, rfl⟩
  · cases hs

end Monitor

def MainPc.inLoop : MainPc → Bool
  | .receiving | .opening .. | .storing .. | .creating .. | .pushing .. => true
  | _ => false

def SendingPc.task : SendingPc → Option WorkerTask
  | .header t | .measuring t | .body t .. => some t
  | _ => none

namespace Pipeline

variable {exec : Bytes → Bytes} {s s' : Pipeline} {e : PipelineEvent} {th : Thread} {p : Nat}
  {i : Fin numThread} {n : Nat}

/-! ## The queues are wired to the threads -/

structure Wired (s : Pipeline) : Prop where
  tasks : s.tasks.Inv
  finished : s.finished.Inv
  taskMax : s.tasks.queue.maxSize = maxConcurrentTask
  finishedMax : s.finished.queue.maxSize = -1
  taskCopy : s.tasks.queue.copyConstructor = taskCopyConstructor
  finishedCopy : s.finished.queue.copyConstructor = taskCopyConstructor
  taskOps : s.tasks.Serves s.taskOp
  finishedOps : s.finished.Serves s.finishedOp

theorem start_wired (resolve : Bytes → Bytes) (store : Bytes → Option Bytes) :
    (start resolve store).Wired :=
  ⟨Monitor.create_inv _ _, Monitor.create_inv _ _, rfl, rfl, rfl, rfl, fun _ => Or.inl rfl,
    fun _ => Or.inl rfl⟩

theorem Wired.own (h : s.Wired) (ht : s'.tasks = s.tasks) (hf : s'.finished = s.finished)
    (hto : ∀ th, s.taskOp th = none ∨ s'.taskOp th = s.taskOp th)
    (hfo : ∀ th, s.finishedOp th = none ∨ s'.finishedOp th = s.finishedOp th) : s'.Wired := by
  refine ⟨?_, ?_, ?_, ?_, ?_, ?_, ?_, ?_⟩ <;> first | rw [ht] | rw [hf]
  exacts [h.tasks, h.finished, h.taskMax, h.finishedMax, h.taskCopy, h.finishedCopy,
    h.taskOps.congr hto, h.finishedOps.congr hfo]

theorem finishedOp_of_taskOp (h : s.taskOp th ≠ none) : s.finishedOp th = none := by
  cases th with
  | main =>
      simp only [taskOp, finishedOp] at h ⊢
      cases hm : s.main <;> simp_all
  | tasking i =>
      simp only [taskOp, finishedOp] at h ⊢
      cases hm : s.tasking i <;> simp_all
  | sending => exact (h rfl).elim

/-! ## A step on a queue -/

/-- What a step on a queue can come to. -/
inductive QueueCase (s : Pipeline) : Pipeline → Prop where
  /-- A thread comes to `task_queue`, waits for it or wakes up. -/
  | task (q : Monitor Thread WorkerTask) (hq : q.queue = s.tasks.queue)
      (hpushed : q.pushed = s.tasks.pushed) (hpulled : q.pulled = s.tasks.pulled) :
      QueueCase s { s with tasks := q }
  | finish (q : Monitor Thread WorkerTask) (hq : q.queue = s.finished.queue)
      (hpushed : q.pushed = s.finished.pushed) (hpulled : q.pulled = s.finished.pulled) :
      QueueCase s { s with finished := q }
  | accept (t : WorkerTask) (payload : Bytes) (q : Monitor Thread WorkerTask)
      (hpc : s.main = .pushing t payload) (hcontents : q.contents = s.tasks.contents ++ [t])
      (hpushed : q.pushed = s.tasks.pushed ++ [t]) (hpulled : q.pulled = s.tasks.pulled) :
      QueueCase s { s with
        tasks := q, main := .receiving
        accepted := s.accepted ++ [(t.inputFilename.getD [], payload)] }
  | endTask (i : Nat) (q : Monitor Thread WorkerTask) (hpc : s.main = .ending i)
      (hcontents : q.contents = s.tasks.contents ++ [endTask])
      (hpushed : q.pushed = s.tasks.pushed ++ [KeyLime.endTask])
      (hpulled : q.pulled = s.tasks.pulled) :
      QueueCase s { s with
        tasks := q, main := if i + 1 < numThread then .ending (i + 1) else .endingSender }
  | endSender (q : Monitor Thread WorkerTask) (hpc : s.main = .endingSender)
      (hcontents : q.contents = s.finished.contents ++ [KeyLime.endTask])
      (hpushed : q.pushed = s.finished.pushed ++ [KeyLime.endTask])
      (hpulled : q.pulled = s.finished.pulled) :
      QueueCase s { s with finished := q, main := .joining 0 }
  | take (i : Fin numThread) (t : WorkerTask) (q : Monitor Thread WorkerTask)
      (hpc : s.tasking i = .pulling) (hname : t.inputFilename ≠ none)
      (hcontents : s.tasks.contents = t :: q.contents)
      (hpushed : q.pushed = s.tasks.pushed) (hpulled : q.pulled = s.tasks.pulled ++ [t]) :
      QueueCase s { s.setTasking i (.executing t) with tasks := q }
  | retire (i : Fin numThread) (t : WorkerTask) (q : Monitor Thread WorkerTask)
      (hpc : s.tasking i = .pulling) (hname : t.inputFilename = none)
      (hcontents : s.tasks.contents = t :: q.contents)
      (hpushed : q.pushed = s.tasks.pushed) (hpulled : q.pulled = s.tasks.pulled ++ [t]) :
      QueueCase s { s.setTasking i .exited with
        tasks := q, ends := Function.update s.ends i (s.ends i + 1) }
  | hand (i : Fin numThread) (t : WorkerTask) (q : Monitor Thread WorkerTask)
      (hpc : s.tasking i = .returning t) (hcontents : q.contents = s.finished.contents ++ [t])
      (hpushed : q.pushed = s.finished.pushed ++ [t]) (hpulled : q.pulled = s.finished.pulled) :
      QueueCase s { s.setTasking i .pulling with finished := q }
  | collect (t : WorkerTask) (q : Monitor Thread WorkerTask) (hpc : s.sending = .pulling)
      (hname : t.inputFilename ≠ none) (hcontents : s.finished.contents = t :: q.contents)
      (hpushed : q.pushed = s.finished.pushed) (hpulled : q.pulled = s.finished.pulled ++ [t]) :
      QueueCase s { s with finished := q, sending := .header t }
  | stop (t : WorkerTask) (q : Monitor Thread WorkerTask) (hpc : s.sending = .pulling)
      (hname : t.inputFilename = none) (hcontents : s.finished.contents = t :: q.contents)
      (hpushed : q.pushed = s.finished.pushed) (hpulled : q.pulled = s.finished.pulled ++ [t]) :
      QueueCase s { s with finished := q, sending := .exited }

theorem taskOp_congr (hm : th = .main → s'.main = s.main)
    (ht : ∀ i, th = .tasking i → s'.tasking i = s.tasking i) : s'.taskOp th = s.taskOp th := by
  cases th with
  | main => simp only [taskOp, hm rfl]
  | tasking i => simp only [taskOp, ht i rfl]
  | sending => rfl

theorem finishedOp_congr (hm : th = .main → s'.main = s.main)
    (ht : ∀ i, th = .tasking i → s'.tasking i = s.tasking i)
    (hs : th = .sending → s'.sending = s.sending) : s'.finishedOp th = s.finishedOp th := by
  cases th with
  | main => simp only [finishedOp, hm rfl]
  | tasking i => simp only [finishedOp, ht i rfl]
  | sending => simp only [finishedOp, hs rfl]

theorem setTasking_of_ne {i j : Fin numThread} {pc : TaskingPc} (h : j ≠ i) :
    (s.setTasking i pc).tasking j = s.tasking j := Function.update_of_ne h _ _

@[simp] theorem setTasking_self (pc : TaskingPc) : (s.setTasking i pc).tasking i = pc :=
  Function.update_self ..

theorem taskOp_push {t : WorkerTask} (h : s.taskOp th = some (.push t)) : th = .main ∧
    ((∃ payload, s.main = .pushing t payload) ∨ ∃ i, s.main = .ending i ∧ t = endTask) := by
  cases th with
  | main =>
      simp only [taskOp] at h
      split at h
      · rename_i t' payload hpc
        obtain rfl := QueueOp.push.inj (Option.some.inj h)
        exact ⟨rfl, Or.inl ⟨payload, hpc⟩⟩
      · rename_i i hpc
        obtain rfl := QueueOp.push.inj (Option.some.inj h)
        exact ⟨rfl, Or.inr ⟨i, hpc, rfl⟩⟩
      · cases h
  | tasking i =>
      simp only [taskOp] at h
      split at h <;> cases h
  | sending => cases h

theorem taskOp_pull (h : s.taskOp th = some .pull) :
    ∃ i, th = .tasking i ∧ s.tasking i = .pulling := by
  cases th with
  | main =>
      simp only [taskOp] at h
      split at h <;> cases h
  | tasking i =>
      simp only [taskOp] at h
      split at h
      · rename_i hpc
        exact ⟨i, rfl, hpc⟩
      · cases h
  | sending => cases h

theorem finishedOp_push {t : WorkerTask} (h : s.finishedOp th = some (.push t)) :
    (th = .main ∧ s.main = .endingSender ∧ t = endTask) ∨
      ∃ i, th = .tasking i ∧ s.tasking i = .returning t := by
  cases th with
  | main =>
      simp only [finishedOp] at h
      split at h
      · rename_i hpc
        obtain rfl := QueueOp.push.inj (Option.some.inj h)
        exact Or.inl ⟨rfl, hpc, rfl⟩
      · cases h
  | tasking i =>
      simp only [finishedOp] at h
      split at h
      · rename_i t' hpc
        obtain rfl := QueueOp.push.inj (Option.some.inj h)
        exact Or.inr ⟨i, rfl, hpc⟩
      · cases h
  | sending =>
      simp only [finishedOp] at h
      split at h <;> cases h

theorem finishedOp_pull (h : s.finishedOp th = some .pull) :
    th = .sending ∧ s.sending = .pulling := by
  cases th with
  | main =>
      simp only [finishedOp] at h
      split at h <;> cases h
  | tasking i =>
      simp only [finishedOp] at h
      split at h <;> cases h
  | sending =>
      simp only [finishedOp] at h
      split at h
      · rename_i hpc
        exact ⟨rfl, hpc⟩
      · cases h

theorem Wired.enter_task {q : Monitor Thread WorkerTask} {r : QueueRet WorkerTask}
    (h : s.Wired) (henter : s.tasks.enter th p = some (q, r)) (htasks : s'.tasks = q)
    (hfinished : s'.finished = s.finished) (hop : s.taskOp th ≠ none)
    (hto : ∀ th', th' ≠ th → s'.taskOp th' = s.taskOp th')
    (hfo : ∀ th', th' ≠ th → s'.finishedOp th' = s.finishedOp th')
    (hw : r = .waits → s'.taskOp th = s.taskOp th) : s'.Wired := by
  obtain ⟨hcase, hinv⟩ := h.tasks.enter henter
  refine ⟨htasks ▸ hinv, hfinished ▸ h.finished, ?_, hfinished ▸ h.finishedMax, ?_,
    hfinished ▸ h.finishedCopy, ?_, ?_⟩
  · rw [htasks, hcase.consts.1, h.taskMax]
  · rw [htasks, hcase.consts.2, h.taskCopy]
  · rw [htasks]
    exact h.taskOps.enter hcase hto hw
  · rw [hfinished]
    refine h.finishedOps.congr fun th' => ?_
    by_cases heq : th' = th
    · exact Or.inl (heq ▸ finishedOp_of_taskOp hop)
    · exact Or.inr (hfo th' heq)

theorem Wired.enter_finished {q : Monitor Thread WorkerTask} {r : QueueRet WorkerTask}
    (h : s.Wired) (henter : s.finished.enter th p = some (q, r)) (htasks : s'.tasks = s.tasks)
    (hfinished : s'.finished = q) (hop : s.taskOp th = none)
    (hto : ∀ th', th' ≠ th → s'.taskOp th' = s.taskOp th')
    (hfo : ∀ th', th' ≠ th → s'.finishedOp th' = s.finishedOp th')
    (hw : r = .waits → s'.finishedOp th = s.finishedOp th) : s'.Wired := by
  obtain ⟨hcase, hinv⟩ := h.finished.enter henter
  refine ⟨htasks ▸ h.tasks, hfinished ▸ hinv, htasks ▸ h.taskMax, ?_, htasks ▸ h.taskCopy, ?_, ?_, ?_⟩
  · rw [hfinished, hcase.consts.1, h.finishedMax]
  · rw [hfinished, hcase.consts.2, h.finishedCopy]
  · rw [htasks]
    refine h.taskOps.congr fun th' => ?_
    by_cases heq : th' = th
    · exact Or.inl (heq ▸ hop)
    · exact Or.inr (hto th' heq)
  · rw [hfinished]
    exact h.finishedOps.enter hcase hfo hw

theorem Wired.enter_taskOp {op : QueueOp WorkerTask} (h : s.Wired) (hop : s.taskOp th = some op)
    (hs : s.enter th p = some s') : QueueCase s s' ∧ s'.Wired := by
  have hne : s.taskOp th ≠ none := by simp [hop]
  simp only [Pipeline.enter, hop] at hs
  obtain ⟨⟨q, r⟩, henter, rfl⟩ := Option.map_eq_some_iff.mp hs
  have hwired := fun s' : Pipeline => @enter_task s s' th p q r h henter
  cases (h.tasks.enter henter).1 with
  | waits op' _ hop' hblocked heq =>
      exact ⟨.task q (by rw [heq]) (by rw [heq]) (by rw [heq]),
        hwired _ rfl rfl hne (fun _ _ => rfl) (fun _ _ => rfl) fun _ => rfl⟩
  | pushed data _ hop' hroom hcontents hpushed hpulled hthreads hmax hcopy =>
      rw [h.taskCopy, taskCopyConstructor_eq] at hcontents
      obtain ⟨rfl, ⟨payload, hpc⟩ | ⟨i, hpc, rfl⟩⟩ := taskOp_push (h.taskOps.ready hop')
      · simp only [afterOp, afterPush, hpc]
        refine ⟨.accept data payload q hpc hcontents hpushed hpulled,
          hwired _ rfl rfl hne (fun th' hth' => ?_) (fun th' hth' => ?_) nofun⟩
        · exact taskOp_congr (fun heq => (hth' heq).elim) fun _ _ => rfl
        · exact finishedOp_congr (fun heq => (hth' heq).elim) (fun _ _ => rfl) fun _ => rfl
      · simp only [afterOp, afterPush, hpc]
        refine ⟨.endTask i q hpc hcontents hpushed hpulled,
          hwired _ rfl rfl hne (fun th' hth' => ?_) (fun th' hth' => ?_) nofun⟩
        · exact taskOp_congr (fun heq => (hth' heq).elim) fun _ _ => rfl
        · exact finishedOp_congr (fun heq => (hth' heq).elim) (fun _ _ => rfl) fun _ => rfl
  | pulled x _ hop' hcontents hpushed hpulled hthreads hmax hcopy =>
      obtain ⟨i, rfl, hpc⟩ := taskOp_pull (h.taskOps.ready hop')
      have hto : ∀ (s' : Pipeline) th', th' ≠ .tasking i → s'.main = s.main →
          (∀ j, j ≠ i → s'.tasking j = s.tasking j) → s'.taskOp th' = s.taskOp th' :=
        fun s' th' hth' hm ht => taskOp_congr (fun _ => hm) fun j heq =>
          ht j fun hji => hth' (heq.trans (hji ▸ rfl))
      have hfo : ∀ (s' : Pipeline) th', th' ≠ .tasking i → s'.main = s.main →
          (∀ j, j ≠ i → s'.tasking j = s.tasking j) → s'.sending = s.sending →
            s'.finishedOp th' = s.finishedOp th' :=
        fun s' th' hth' hm ht hs => finishedOp_congr (fun _ => hm) (fun j heq =>
          ht j fun hji => hth' (heq.trans (hji ▸ rfl))) fun _ => hs
      by_cases hname : x.inputFilename = none
      · simp only [afterOp, afterPull, hname, if_true]
        exact ⟨.retire i x q hpc hname hcontents hpushed hpulled,
          hwired _ rfl rfl hne (fun th' hth' => hto _ th' hth' rfl fun j hj => setTasking_of_ne hj)
            (fun th' hth' => hfo _ th' hth' rfl (fun j hj => setTasking_of_ne hj) rfl) nofun⟩
      · simp only [afterOp, afterPull, hname, if_false]
        exact ⟨.take i x q hpc hname hcontents hpushed hpulled,
          hwired _ rfl rfl hne (fun th' hth' => hto _ th' hth' rfl fun j hj => setTasking_of_ne hj)
            (fun th' hth' => hfo _ th' hth' rfl (fun j hj => setTasking_of_ne hj) rfl) nofun⟩

theorem Wired.enter_finishedOp {op : QueueOp WorkerTask} (h : s.Wired)
    (hnone : s.taskOp th = none) (hop : s.finishedOp th = some op)
    (hs : s.enter th p = some s') : QueueCase s s' ∧ s'.Wired := by
  simp only [Pipeline.enter, hnone, hop] at hs
  obtain ⟨⟨q, r⟩, henter, rfl⟩ := Option.map_eq_some_iff.mp hs
  have hwired := fun s' : Pipeline => @enter_finished s s' th p q r h henter
  cases (h.finished.enter henter).1 with
  | waits op' _ hop' hblocked heq =>
      exact ⟨.finish q (by rw [heq]) (by rw [heq]) (by rw [heq]),
        hwired _ rfl rfl hnone (fun _ _ => rfl) (fun _ _ => rfl) fun _ => rfl⟩
  | pushed data _ hop' hroom hcontents hpushed hpulled hthreads hmax hcopy =>
      rw [h.finishedCopy, taskCopyConstructor_eq] at hcontents
      obtain ⟨rfl, hpc, rfl⟩ | ⟨i, rfl, hpc⟩ := finishedOp_push (h.finishedOps.ready hop')
      · simp only [afterOp, afterPush, hpc]
        refine ⟨.endSender q hpc hcontents hpushed hpulled,
          hwired _ rfl rfl hnone (fun th' hth' => ?_) (fun th' hth' => ?_) nofun⟩
        · exact taskOp_congr (fun heq => (hth' heq).elim) fun _ _ => rfl
        · exact finishedOp_congr (fun heq => (hth' heq).elim) (fun _ _ => rfl) fun _ => rfl
      · simp only [afterOp, afterPush]
        refine ⟨.hand i data q hpc hcontents hpushed hpulled,
          hwired _ rfl rfl hnone (fun th' hth' => ?_) (fun th' hth' => ?_) nofun⟩
        · exact taskOp_congr (fun _ => rfl) fun j heq =>
            setTasking_of_ne fun hji => hth' (heq.trans (hji ▸ rfl))
        · exact finishedOp_congr (fun _ => rfl) (fun j heq =>
            setTasking_of_ne fun hji => hth' (heq.trans (hji ▸ rfl))) fun _ => rfl
  | pulled x _ hop' hcontents hpushed hpulled hthreads hmax hcopy =>
      obtain ⟨rfl, hpc⟩ := finishedOp_pull (h.finishedOps.ready hop')
      have hto : ∀ (s' : Pipeline) th', s'.main = s.main → s'.tasking = s.tasking →
          s'.taskOp th' = s.taskOp th' :=
        fun s' th' hm ht => taskOp_congr (fun _ => hm) fun j _ => congrFun ht j
      have hfo : ∀ (s' : Pipeline) th', th' ≠ .sending → s'.main = s.main →
          s'.tasking = s.tasking → s'.finishedOp th' = s.finishedOp th' :=
        fun s' th' hth' hm ht => finishedOp_congr (fun _ => hm) (fun j _ => congrFun ht j)
          fun heq => (hth' heq).elim
      by_cases hname : x.inputFilename = none
      · simp only [afterOp, afterPull, hname, if_true]
        exact ⟨.stop x q hpc hname hcontents hpushed hpulled,
          hwired _ rfl rfl hnone (fun th' _ => hto _ th' rfl rfl)
            (fun th' hth' => hfo _ th' hth' rfl rfl) nofun⟩
      · simp only [afterOp, afterPull, hname, if_false]
        exact ⟨.collect x q hpc hname hcontents hpushed hpulled,
          hwired _ rfl rfl hnone (fun th' _ => hto _ th' rfl rfl)
            (fun th' hth' => hfo _ th' hth' rfl rfl) nofun⟩

theorem Wired.enter (h : s.Wired) (hs : s.enter th p = some s') : QueueCase s s' ∧ s'.Wired := by
  cases hop : s.taskOp th with
  | some op => exact h.enter_taskOp hop hs
  | none =>
      cases hop' : s.finishedOp th with
      | some op => exact h.enter_finishedOp hop hop' hs
      | none =>
          simp only [Pipeline.enter, hop, hop'] at hs
          cases hs

theorem Wired.call (h : s.Wired) (hs : s.call th = some s') : QueueCase s s' ∧ s'.Wired := by
  unfold Pipeline.call at hs
  split at hs
  · rename_i hop
    obtain ⟨q, hq, rfl⟩ := Option.map_eq_some_iff.mp hs
    obtain ⟨hqueue, hpushed, hpulled⟩ := Monitor.call_frame hq
    exact ⟨.task q hqueue hpushed hpulled, ⟨h.tasks.call hq, h.finished, hqueue ▸ h.taskMax,
      h.finishedMax, hqueue ▸ h.taskCopy, h.finishedCopy, h.taskOps.call hop hq, h.finishedOps⟩⟩
  · rename_i hop
    obtain ⟨q, hq, rfl⟩ := Option.map_eq_some_iff.mp hs
    obtain ⟨hqueue, hpushed, hpulled⟩ := Monitor.call_frame hq
    exact ⟨.finish q hqueue hpushed hpulled, ⟨h.tasks, h.finished.call hq, h.taskMax,
      hqueue ▸ h.finishedMax, h.taskCopy, hqueue ▸ h.finishedCopy, h.taskOps,
      h.finishedOps.call hop hq⟩⟩
  · cases hs

theorem Wired.wake (h : s.Wired) (hs : s.wake th = some s') : QueueCase s s' ∧ s'.Wired := by
  unfold Pipeline.wake at hs
  split at hs
  · obtain ⟨q, hq, rfl⟩ := Option.map_eq_some_iff.mp hs
    obtain ⟨hqueue, hpushed, hpulled⟩ := Monitor.wake_frame hq
    exact ⟨.task q hqueue hpushed hpulled, ⟨h.tasks.wake hq, h.finished, hqueue ▸ h.taskMax,
      h.finishedMax, hqueue ▸ h.taskCopy, h.finishedCopy, h.taskOps.wake hq, h.finishedOps⟩⟩
  · obtain ⟨q, hq, rfl⟩ := Option.map_eq_some_iff.mp hs
    obtain ⟨hqueue, hpushed, hpulled⟩ := Monitor.wake_frame hq
    exact ⟨.finish q hqueue hpushed hpulled, ⟨h.tasks, h.finished.wake hq, h.taskMax,
      hqueue ▸ h.finishedMax, h.taskCopy, hqueue ▸ h.finishedCopy, h.taskOps,
      h.finishedOps.wake hq⟩⟩
  · cases hs

/-! ## A step outside of the queues -/

/-- What a step of the main thread outside of the queues can be. -/
inductive MainCase (s : Pipeline) : PipelineEvent → Pipeline → Prop where
  | request (name payload : Bytes) (hpc : s.main = .receiving) :
      MainCase s (.request name payload) { s with main := .opening name payload }
  | leave (hpc : s.main = .receiving) : MainCase s .leave { s with main := .killing }
  | exit (e : PipelineEvent) (hpc : s.main.inLoop = true) (hto : s.taskOp .main = none) :
      MainCase s e { s with main := .exited }
  | opened (name payload : Bytes) (hpc : s.main = .opening name payload) :
      MainCase s (.openFile true) { s with
        kernel := (s.kernel.openWithAllPermission name true).2
        main := .storing name s.kernel.nextFd payload payload }
  | store (name : Bytes) (fd : Int) (rest payload : Bytes)
      (hpc : s.main = .storing name fd rest payload) (hmore : rest.drop fileBufferSize ≠ []) :
      MainCase s .main { s with
        kernel := s.kernel.put fd (rest.take fileBufferSize)
        main := .storing name fd (rest.drop fileBufferSize) payload }
  | stored (name : Bytes) (fd : Int) (rest payload : Bytes)
      (hpc : s.main = .storing name fd rest payload) (hlast : rest.drop fileBufferSize = []) :
      MainCase s .main { s with
        kernel := (s.kernel.put fd rest).close fd, main := .creating name payload }
  | created (name payload : Bytes) (ok : Bool) (hpc : s.main = .creating name payload) :
      MainCase s (.createOutput ok) { s with
        kernel := (s.kernel.openWithAllPermission (outputName name) ok).2
        main := .pushing
          { seq := s.accepted.length, inputFilename := some name
            outputFilename := some (outputName name)
            outputFd := (s.kernel.openWithAllPermission (outputName name) ok).1 } payload }
  | kill (hpc : s.main = .killing) :
      MainCase s .main { s with stayAlive := false, main := .closing }
  | close (hpc : s.main = .closing) :
      MainCase s .main { s with kernel := s.kernel.close socketFd, main := .ending 0 }
  | join (i : Nat) (hpc : s.main = .joining i) (hi : i < numThread)
      (hexited : s.tasking ⟨i, hi⟩ = .exited) : MainCase s .main { s with main := .joining (i + 1) }
  | joined (i : Nat) (hpc : s.main = .joining i) (hi : numThread ≤ i) :
      MainCase s .main { s with main := .joiningSending }
  | joinSending (hpc : s.main = .joiningSending) (hexited : s.sending = .exited) :
      MainCase s .main { s with main := .joiningHeartbeat }
  | joinHeartbeat (hpc : s.main = .joiningHeartbeat) (hexited : s.heartbeatExited = true) :
      MainCase s .main { s with main := .done }

/-- What a step of tasking thread `i` outside of the queues can be. -/
inductive TaskingCase (exec : Bytes → Bytes) (s : Pipeline) (i : Fin numThread) :
    PipelineEvent → Pipeline → Prop where
  | open (t : WorkerTask) (name output : Bytes) (n : Nat) (hpc : s.tasking i = .executing t)
      (hin : t.inputFilename = some name) (hout : t.outputFilename = some output)
      (hruns : runsProgram name = true) :
      TaskingCase exec s i (.tasking i n) { s.setTasking i (.opened t) with
        kernel := { s.kernel with
          store := Function.update s.kernel.store (s.kernel.resolve output) (some []) }
        started := s.started ++ [t.seq] }
  | load (t : WorkerTask) (name : Bytes) (n : Nat) (hpc : s.tasking i = .opened t)
      (hin : t.inputFilename = some name) :
      TaskingCase exec s i (.tasking i n) (s.setTasking i
        (.running t 0 (exec ((s.kernel.store (s.kernel.resolve name)).getD []))))
  | write (t : WorkerTask) (output : Bytes) (off n : Nat) (rest : Bytes)
      (hpc : s.tasking i = .running t off rest) (hrest : rest ≠ [])
      (hout : t.outputFilename = some output) :
      TaskingCase exec s i (.tasking i n)
        { s.setTasking i (.running t (off + (rest.take (n + 1)).length) (rest.drop (n + 1))) with
          kernel := { s.kernel with
            store := Function.update s.kernel.store (s.kernel.resolve output) (some
              (Kernel.splice ((s.kernel.store (s.kernel.resolve output)).getD []) off
                (rest.take (n + 1)))) } }
  | finish (t : WorkerTask) (off n : Nat) (hpc : s.tasking i = .running t off []) :
      TaskingCase exec s i (.tasking i n) (s.setTasking i (.returning t))
  | garble (t : WorkerTask) (store : Bytes → Option Bytes) (hpc : s.tasking i = .executing t)
      (hruns : ∀ name, t.inputFilename = some name → runsProgram name = false) :
      TaskingCase exec s i (.garble i store) { s.setTasking i (.returning t) with
        kernel := { s.kernel with store := store }, started := s.started ++ [t.seq] }
  | noShell (t : WorkerTask) (name : Bytes) (hpc : s.tasking i = .executing t)
      (hin : t.inputFilename = some name) :
      TaskingCase exec s i (.noShell i) { s.setTasking i (.returning t) with
        kernel := (s.kernel.put t.outputFd badExecMessage).put t.outputFd (name ++ [0])
        started := s.started ++ [t.seq] }

/-- How many bytes `write_file_to_socket` takes next. -/
def blockSize (remain : Nat) : Nat := if fileBufferSize ≤ remain then fileBufferSize else remain

/-- What a step of the sending thread outside of the queues can be. -/
inductive SendingCase (s : Pipeline) : PipelineEvent → Pipeline → Prop where
  | header (t : WorkerTask) (name : Bytes) (mem : Nat → UInt8) (hpc : s.sending = .header t)
      (hin : t.inputFilename = some name) :
      SendingCase s (.sending mem none) { s with
        kernel := s.kernel.put socketFd (createHeader name), sending := .measuring t }
  | measure (t : WorkerTask) (mem : Nat → UInt8) (hpc : s.sending = .measuring t) :
      SendingCase s (.sending mem none) { s with
        kernel := (s.kernel.rewind t.outputFd).put socketFd
          (sizeBytes (endOffset s.kernel t.outputFd))
        sending := .body t (endOffset s.kernel t.outputFd) mem [] }
  | block (t : WorkerTask) (remain : Nat) (mem buffer : Nat → UInt8) (body bs : Bytes)
      (hpc : s.sending = .body t remain buffer body) (hremain : remain ≠ 0)
      (hbs : bs = fetch
        (overwrite buffer (s.kernel.readFile t.outputFd (blockSize remain)).1) (blockSize remain)) :
      SendingCase s (.sending mem none) { s with
        kernel := (s.kernel.readFile t.outputFd (blockSize remain)).2.put socketFd bs
        sending := .body t (remain - blockSize remain)
          (overwrite buffer (s.kernel.readFile t.outputFd (blockSize remain)).1) (body ++ bs) }
  | sent (t : WorkerTask) (mem buffer : Nat → UInt8) (short : Option Nat) (body : Bytes)
      (hpc : s.sending = .body t 0 buffer body) :
      SendingCase s (.sending mem short) { s with
        kernel := s.kernel.close t.outputFd, sending := .pulling
        sent := s.sent ++ [(t.seq, body)] }
  | giveUp (t : WorkerTask) (mem : Nat → UInt8) (short : Option Nat) (k : Kernel) (bs : Bytes)
      (htask : s.sending.task = some t)
      (hk : k = s.kernel ∨ k = s.kernel.rewind t.outputFd
        ∨ ∃ n, k = (s.kernel.readFile t.outputFd n).2) :
      SendingCase s (.sending mem short) (s.giveUp t (Pipeline.write k bs short).2)

/-- **Everything a step can do.** -/
inductive StepCase (exec : Bytes → Bytes) (s : Pipeline) (e : PipelineEvent) (s' : Pipeline) :
    Prop where
  | main (h : MainCase s e s')
  | tasking (i : Fin numThread) (h : TaskingCase exec s i e s')
  | sending (h : SendingCase s e s')
  | heartbeat (h : s' = { s with heartbeatExited := true })
  | queue (h : QueueCase s s')

theorem write_ok {k k' : Kernel} {bs : Bytes} {short : Option Nat}
    (h : write k bs short = (true, k')) :
    k.desc socketFd ≠ none ∧ short = none ∧ k' = k.put socketFd bs := by
  unfold write at h
  split at h
  · cases h
  · rename_i hd
    cases short with
    | none =>
        obtain ⟨-, rfl⟩ := Prod.mk.inj h
        exact ⟨hd, rfl, rfl⟩
    | some n => cases h

theorem mainStep_case (hs : s.mainStep = some s') : MainCase s .main s' := by
  unfold mainStep at hs
  split at hs
  · rename_i name fd rest payload hpc
    simp only at hs
    split at hs
    · rename_i hlast
      obtain rfl := Option.some.inj hs
      have htake : rest.take fileBufferSize = rest :=
        List.take_of_length_le (List.drop_eq_nil_iff.mp hlast)
      rw [htake]
      exact .stored name fd rest payload hpc hlast
    · rename_i hmore
      obtain rfl := Option.some.inj hs
      exact .store name fd rest payload hpc hmore
  · rename_i hpc
    obtain rfl := Option.some.inj hs
    exact .kill hpc
  · rename_i hpc
    obtain rfl := Option.some.inj hs
    exact .close hpc
  · rename_i i hpc
    split at hs
    · rename_i hi
      split at hs
      · rename_i hexited
        obtain rfl := Option.some.inj hs
        exact .join i hpc hi hexited
      · cases hs
    · rename_i hi
      obtain rfl := Option.some.inj hs
      exact .joined i hpc (Nat.le_of_not_lt hi)
  · rename_i hpc
    split at hs
    · rename_i hexited
      obtain rfl := Option.some.inj hs
      exact .joinSending hpc hexited
    · cases hs
  · rename_i hpc
    split at hs
    · rename_i hexited
      obtain rfl := Option.some.inj hs
      exact .joinHeartbeat hpc hexited
    · cases hs
  · cases hs

theorem exit_case (hs : s.exit = some s') : MainCase s .exit s' := by
  unfold Pipeline.exit at hs
  split at hs
  · rename_i hpc
    obtain rfl := Option.some.inj hs
    exact .exit _ (by simp [hpc, MainPc.inLoop]) (by simp [hpc, taskOp])
  · rename_i hpc
    obtain rfl := Option.some.inj hs
    exact .exit _ (by simp [hpc, MainPc.inLoop]) (by simp [hpc, taskOp])
  · rename_i hpc
    obtain rfl := Option.some.inj hs
    exact .exit _ (by simp [hpc, MainPc.inLoop]) (by simp [hpc, taskOp])
  · cases hs

theorem openFile_case {ok : Bool} (hs : s.openFile ok = some s') :
    MainCase s (.openFile ok) s' := by
  unfold openFile at hs
  split at hs
  · rename_i name payload hpc
    cases ok with
    | true =>
        have hne : (s.kernel.nextFd : Int) ≠ -1 := by omega
        simp only [Kernel.openWithAllPermission, if_true, if_neg hne] at hs
        obtain rfl := Option.some.inj hs
        exact .opened name payload hpc
    | false =>
        simp only [Kernel.openWithAllPermission, Bool.false_eq_true, if_false, if_true] at hs
        obtain rfl := Option.some.inj hs
        exact .exit _ (by simp [hpc, MainPc.inLoop]) (by simp [hpc, taskOp])
  · cases hs

theorem createOutput_case {ok : Bool} (hs : s.createOutput ok = some s') :
    MainCase s (.createOutput ok) s' := by
  unfold createOutput at hs
  split at hs
  · rename_i name payload hpc
    obtain rfl := Option.some.inj hs
    exact .created name payload ok hpc
  · cases hs

theorem taskingStep_case (hs : s.taskingStep exec i n = some s') :
    TaskingCase exec s i (.tasking i n) s' := by
  unfold taskingStep at hs
  split at hs
  · rename_i t hpc
    split at hs
    · rename_i name output hin hout
      split at hs
      · rename_i hruns
        obtain rfl := Option.some.inj hs
        exact .open t name output n hpc hin hout hruns
      · cases hs
    · cases hs
  · rename_i t hpc
    obtain ⟨name, hin, rfl⟩ := Option.map_eq_some_iff.mp hs
    exact .load t name n hpc hin
  · rename_i t off rest hpc
    split at hs
    · rename_i hrest
      subst hrest
      obtain rfl := Option.some.inj hs
      exact .finish t off n hpc
    · rename_i hrest
      obtain ⟨output, hout, rfl⟩ := Option.map_eq_some_iff.mp hs
      exact .write t output off n rest hpc hrest hout
  · cases hs

theorem garble_case {store : Bytes → Option Bytes} (hs : s.garble i store = some s') :
    TaskingCase exec s i (.garble i store) s' := by
  unfold garble at hs
  split at hs
  · rename_i t hpc
    split at hs
    · cases hs
    · rename_i hruns
      obtain rfl := Option.some.inj hs
      refine .garble t store hpc fun name hin => ?_
      simpa [hin] using hruns
  · cases hs

theorem noShell_case (hs : s.noShell i = some s') : TaskingCase exec s i (.noShell i) s' := by
  unfold noShell at hs
  split at hs
  · rename_i t hpc
    obtain ⟨name, hin, rfl⟩ := Option.map_eq_some_iff.mp hs
    exact .noShell t name hpc hin
  · cases hs

theorem sendingStep_case {mem : Nat → UInt8} {short : Option Nat}
    (hs : s.sendingStep mem short = some s') : SendingCase s (.sending mem short) s' := by
  unfold sendingStep at hs
  split at hs
  · rename_i t hpc
    obtain ⟨name, hin, h1⟩ := Option.map_eq_some_iff.mp hs
    cases hw : write s.kernel (createHeader name) short with
    | mk ok k =>
        simp only [hw] at h1
        cases ok with
        | true =>
            obtain ⟨-, rfl, rfl⟩ := write_ok hw
            subst h1
            exact .header t name mem hpc hin
        | false =>
            have hk : k = (write s.kernel (createHeader name) short).2 := by rw [hw]
            subst h1
            rw [hk]
            exact .giveUp t mem short _ _ (by simp [hpc, SendingPc.task]) (Or.inl rfl)
  · rename_i t hpc
    simp only at hs
    cases hw : write (s.kernel.rewind t.outputFd) (sizeBytes (endOffset s.kernel t.outputFd)) short
      with
    | mk ok k =>
        simp only [hw] at hs
        cases ok with
        | true =>
            obtain ⟨-, rfl, rfl⟩ := write_ok hw
            obtain rfl := Option.some.inj hs
            exact .measure t mem hpc
        | false =>
            have hk : k = (write (s.kernel.rewind t.outputFd)
              (sizeBytes (endOffset s.kernel t.outputFd)) short).2 := by rw [hw]
            obtain rfl := Option.some.inj hs
            rw [hk]
            exact .giveUp t mem short _ _ (by simp [hpc, SendingPc.task]) (Or.inr (Or.inl rfl))
  · rename_i t remain buffer body hpc
    split at hs
    · rename_i hremain
      subst hremain
      obtain rfl := Option.some.inj hs
      exact .sent t mem buffer short body hpc
    · rename_i hremain
      rw [← blockSize] at hs
      cases hr : s.kernel.readFile t.outputFd (blockSize remain) with
      | mk blk k₁ =>
          simp only [hr] at hs
          cases hw : write k₁ (fetch (overwrite buffer blk) (blockSize remain)) short with
          | mk ok k =>
              simp only [hw] at hs
              cases ok with
              | true =>
                  obtain ⟨-, rfl, rfl⟩ := write_ok hw
                  obtain rfl := Option.some.inj hs
                  have h := SendingCase.block t remain mem buffer body _ hpc hremain rfl
                  rw [hr] at h
                  exact h
              | false =>
                  have hk : k = (write k₁ (fetch (overwrite buffer blk) (blockSize remain))
                    short).2 := by rw [hw]
                  obtain rfl := Option.some.inj hs
                  rw [hk]
                  exact .giveUp t mem short _ _ (by simp [hpc, SendingPc.task])
                    (Or.inr (Or.inr ⟨blockSize remain, by rw [hr]⟩))
  · cases hs

/-! ## What a step of one thread leaves alone -/

theorem MainCase.frame (h : MainCase s e s') :
    s' = { s with kernel := s'.kernel, main := s'.main, stayAlive := s'.stayAlive }
      ∧ s.taskOp .main = none ∧ s.finishedOp .main = none := by
  cases h with
  | exit e hpc hto =>
      refine ⟨rfl, hto, ?_⟩
      cases hm : s.main <;> simp_all [finishedOp, MainPc.inLoop]
  | _ => exact ⟨rfl, by simp [taskOp, *], by simp [finishedOp, *]⟩

theorem TaskingCase.frame (h : TaskingCase exec s i e s') :
    s' = { s.setTasking i (s'.tasking i) with kernel := s'.kernel, started := s'.started }
      ∧ s.taskOp (.tasking i) = none ∧ s.finishedOp (.tasking i) = none := by
  cases h <;> exact ⟨by simp [setTasking], by simp [taskOp, *], by simp [finishedOp, *]⟩

theorem SendingCase.frame (h : SendingCase s e s') :
    s' = { s with
        kernel := s'.kernel, sending := s'.sending, sent := s'.sent, abandoned := s'.abandoned }
      ∧ s.finishedOp .sending = none := by
  cases h with
  | giveUp t mem short k bs htask hk =>
      refine ⟨rfl, ?_⟩
      cases hs : s.sending <;> simp_all [finishedOp, SendingPc.task]
  | _ => exact ⟨rfl, by simp [finishedOp, *]⟩

theorem MainCase.wired (h : MainCase s e s') (hw : s.Wired) : s'.Wired := by
  obtain ⟨heq, hto, hfo⟩ := h.frame
  rw [heq]
  refine hw.own rfl rfl (fun th => ?_) fun th => ?_
  · by_cases hth : th = .main
    · exact Or.inl (hth ▸ hto)
    · exact Or.inr (taskOp_congr (fun h => (hth h).elim) fun _ _ => rfl)
  · by_cases hth : th = .main
    · exact Or.inl (hth ▸ hfo)
    · exact Or.inr (finishedOp_congr (fun h => (hth h).elim) (fun _ _ => rfl) fun _ => rfl)

theorem TaskingCase.wired (h : TaskingCase exec s i e s') (hw : s.Wired) : s'.Wired := by
  obtain ⟨heq, hto, hfo⟩ := h.frame
  rw [heq]
  refine hw.own rfl rfl (fun th => ?_) fun th => ?_
  · by_cases hth : th = .tasking i
    · exact Or.inl (hth ▸ hto)
    · exact Or.inr (taskOp_congr (fun _ => rfl) fun j heq =>
        setTasking_of_ne fun hji => hth (heq.trans (hji ▸ rfl)))
  · by_cases hth : th = .tasking i
    · exact Or.inl (hth ▸ hfo)
    · exact Or.inr (finishedOp_congr (fun _ => rfl) (fun j heq =>
        setTasking_of_ne fun hji => hth (heq.trans (hji ▸ rfl))) fun _ => rfl)

theorem SendingCase.wired (h : SendingCase s e s') (hw : s.Wired) : s'.Wired := by
  obtain ⟨heq, hfo⟩ := h.frame
  rw [heq]
  refine hw.own rfl rfl (fun th => Or.inr (taskOp_congr (fun _ => rfl) fun _ _ => rfl))
    fun th => ?_
  by_cases hth : th = .sending
  · exact Or.inl (hth ▸ hfo)
  · exact Or.inr (finishedOp_congr (fun _ => rfl) (fun _ _ => rfl) fun h => (hth h).elim)

/-- **One step** is one of the cases, and keeps the queues, the threads and the joins
in step with each other. A process that has ended takes none. -/
theorem Wired.step (h : s.Wired) (hs : Step exec s e s') :
    StepCase exec s e s' ∧ s'.Wired ∧ s.main ≠ .exited ∧ s.main ≠ .done := by
  unfold Step Pipeline.handle at hs
  split at hs
  · cases hs
  · rename_i hlive
    rw [not_or] at hlive
    suffices hcase : StepCase exec s e s' ∧ s'.Wired from ⟨hcase.1, hcase.2, hlive⟩
    have main (hc : MainCase s e s') : StepCase exec s e s' ∧ s'.Wired := ⟨.main hc, hc.wired h⟩
    have tasking i (hc : TaskingCase exec s i e s') : StepCase exec s e s' ∧ s'.Wired :=
      ⟨.tasking i hc, hc.wired h⟩
    have queue (hc : QueueCase s s' ∧ s'.Wired) : StepCase exec s e s' ∧ s'.Wired :=
      ⟨.queue hc.1, hc.2⟩
    cases e with
    | request name payload =>
        refine main ?_
        simp only [Pipeline.request] at hs
        split at hs
        · rename_i hpc
          obtain rfl := Option.some.inj hs
          exact .request name payload hpc
        · cases hs
    | leave =>
        refine main ?_
        simp only [Pipeline.leave] at hs
        split at hs
        · rename_i hpc
          obtain rfl := Option.some.inj hs
          exact .leave hpc
        · cases hs
    | exit => exact main (exit_case hs)
    | openFile ok => exact main (openFile_case hs)
    | createOutput ok => exact main (createOutput_case hs)
    | main => exact main (mainStep_case hs)
    | tasking i n => exact tasking i (taskingStep_case hs)
    | garble i store => exact tasking i (garble_case hs)
    | noShell i => exact tasking i (noShell_case hs)
    | sending mem short => exact ⟨.sending (sendingStep_case hs), (sendingStep_case hs).wired h⟩
    | heartbeat fails =>
        simp only [Pipeline.heartbeat] at hs
        split at hs
        · cases hs
        · obtain rfl := Option.some.inj hs
          exact ⟨.heartbeat rfl, h.own rfl rfl (fun _ => Or.inr rfl) fun _ => Or.inr rfl⟩
    | call th => exact queue (h.call hs)
    | enter th p => exact queue (h.enter hs)
    | wake th => exact queue (h.wake hs)

end Pipeline

end KeyLime
