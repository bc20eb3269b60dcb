import Mathlib.Algebra.BigOperators.Group.Finset.Piecewise
import Mathlib.Tactic.Abel
import KeyLime.Wiring

/-!
# Where the accepted tasks are

A task that has been accepted goes through `task_queue`, a tasking thread,
`finished_task_queue` and the sending thread, and is sent or given up there.
`inFlight` lists the tasks on the way with what has been done for each;
`Flow` says how one step changes it. Nothing is lost and nothing is there
twice: the numbers of the tasks in flight, sent and given up are those of
the accepted tasks, once each (`Accounts`).

The accounts are kept as equations between multisets, so that a step is an
addition on one side and the same on the other, and no case has to be made of
which tasking thread or which position of a queue it is about. There are two of
them. `places` has every place a task can be in; from it, a task is in one place.
`turns` has the tasks no thread has begun to execute and those some thread has;
from it, none is executed twice.

End markers are in the queues as well and are no tasks. They are accounted for by
the number the main thread has pushed (`MainPc.endsPushed`), and by the order of
what has been pushed: all tasks, and then the markers.
-/

namespace KeyLime

open Transition

/-- What has been done for a task. -/
inductive Phase where
  | queued
  | executing
  | opened
  | running (off : Nat) (rest : Bytes)
  | finished
  | measuring
  | body (remain : Nat) (buffer : Nat → UInt8) (body : Bytes)

/-- No thread has begun to execute it. -/
def Phase.fresh : Phase → Bool
  | .queued | .executing => true
  | _ => false

/-- The task a tasking thread holds. -/
def TaskingPc.job : TaskingPc → Multiset (WorkerTask × Phase)
  | .executing t => {(t, .executing)}
  | .opened t => {(t, .opened)}
  | .running t off rest => {(t, .running off rest)}
  | .returning t => {(t, .finished)}
  | .pulling | .exited => 0

/-- The task the sending thread holds. -/
def SendingPc.job : SendingPc → Multiset (WorkerTask × Phase)
  | .header t => {(t, .finished)}
  | .measuring t => {(t, .measuring)}
  | .body t remain buffer out => {(t, .body remain buffer out)}
  | .pulling | .exited => 0

def queued (ph : Phase) (ts : List WorkerTask) : Multiset (WorkerTask × Phase) :=
  ((ts.filter fun t => t.inputFilename.isSome).map fun t => (t, ph) : List (WorkerTask × Phase))

/-- The numbers of the tasks that no thread has begun to execute. -/
def freshSeqs (xs : Multiset (WorkerTask × Phase)) : Multiset Nat :=
  (xs.filter fun x => x.2.fresh).map fun x => x.1.seq

theorem freshSeqs_cons_pos {t : WorkerTask} {ph : Phase} {xs : Multiset (WorkerTask × Phase)}
    (h : ph.fresh = true) : freshSeqs ((t, ph) ::ₘ xs) = t.seq ::ₘ freshSeqs xs := by
  simp [freshSeqs, h]

theorem freshSeqs_cons_neg {t : WorkerTask} {ph : Phase} {xs : Multiset (WorkerTask × Phase)}
    (h : ph.fresh = false) : freshSeqs ((t, ph) ::ₘ xs) = freshSeqs xs := by
  simp [freshSeqs, h]

/-- How many end markers have been pushed on `task_queue`. -/
def MainPc.endsPushed : MainPc → Nat
  | .ending i => i
  | .endingSender | .joining _ | .joiningSending | .joiningHeartbeat | .done => numThread
  | _ => 0

@[simp] theorem queued_cons_task {ph : Phase} {t : WorkerTask} {ts : List WorkerTask}
    (h : t.inputFilename ≠ none) : queued ph (t :: ts) = (t, ph) ::ₘ queued ph ts := by
  have hs : t.inputFilename.isSome = true := Option.isSome_iff_ne_none.mpr h
  simp [queued, hs]

@[simp] theorem queued_cons_end {ph : Phase} {t : WorkerTask} {ts : List WorkerTask}
    (h : t.inputFilename = none) : queued ph (t :: ts) = queued ph ts := by
  simp [queued, h]

theorem queued_append (ph : Phase) (ts us : List WorkerTask) :
    queued ph (ts ++ us) = queued ph ts + queued ph us := by
  simp [queued]

@[simp] theorem queued_nil (ph : Phase) : queued ph [] = 0 := rfl

@[simp] theorem queued_singleton_task {ph : Phase} {t : WorkerTask} (h : t.inputFilename ≠ none) :
    queued ph [t] = {(t, ph)} := by
  rw [queued_cons_task h]
  rfl

namespace Pipeline

variable {exec : Bytes → Bytes} {s s' : Pipeline} {e : PipelineEvent} {i : Fin numThread}

/-- The tasks on their way. -/
def inFlight (s : Pipeline) : Multiset (WorkerTask × Phase) :=
  queued .queued s.tasks.contents + ∑ i, (s.tasking i).job
    + queued .finished s.finished.contents + s.sending.job

/-- Every place a task can be in, with the numbers of the tasks there: on its way
through the queues and threads, sent, or given up. -/
def places (s : Pipeline) : Multiset Nat :=
  s.inFlight.map (fun x => x.1.seq) + (s.sent.map Prod.fst : List Nat) + (s.abandoned : List Nat)

/-- The tasks no thread has begun to execute, and those some thread has. -/
def turns (s : Pipeline) : Multiset Nat :=
  freshSeqs s.inFlight + (s.started : List Nat)

def others (s : Pipeline) (i : Fin numThread) : Multiset (WorkerTask × Phase) :=
  ∑ j ∈ Finset.univ.erase i, (s.tasking j).job

theorem sum_job (s : Pipeline) (i : Fin numThread) :
    ∑ j, (s.tasking j).job = (s.tasking i).job + s.others i :=
  (Finset.add_sum_erase _ _ (Finset.mem_univ i)).symm

theorem sum_job_setTasking (s : Pipeline) (i : Fin numThread) (pc : TaskingPc) :
    ∑ j, ((s.setTasking i pc).tasking j).job = pc.job + s.others i := by
  rw [sum_job (s.setTasking i pc) i, setTasking_self]
  congr 1
  refine Finset.sum_congr rfl fun j hj => ?_
  rw [setTasking_of_ne (Finset.ne_of_mem_erase hj)]

/-! ## One step -/

/-- How a step changes what is in flight. -/
inductive Flow (s s' : Pipeline) : Prop where
  | still (hflight : s'.inFlight = s.inFlight) (haccepted : s'.accepted = s.accepted)
      (hstarted : s'.started = s.started) (hsent : s'.sent = s.sent)
      (habandoned : s'.abandoned = s.abandoned)
  | accept (t : WorkerTask) (payload : Bytes) (hpc : s.main = .pushing t payload)
      (hflight : s'.inFlight = (t, .queued) ::ₘ s.inFlight)
      (haccepted : s'.accepted = s.accepted ++ [(t.inputFilename.getD [], payload)])
      (hstarted : s'.started = s.started) (hsent : s'.sent = s.sent)
      (habandoned : s'.abandoned = s.abandoned)
  | move (t : WorkerTask) (ph ph' : Phase) (rest : Multiset (WorkerTask × Phase))
      (hflight : s.inFlight = (t, ph) ::ₘ rest) (hflight' : s'.inFlight = (t, ph') ::ₘ rest)
      (hfresh : ph'.fresh = ph.fresh) (haccepted : s'.accepted = s.accepted)
      (hstarted : s'.started = s.started) (hsent : s'.sent = s.sent)
      (habandoned : s'.abandoned = s.abandoned)
  | start (t : WorkerTask) (ph' : Phase) (rest : Multiset (WorkerTask × Phase))
      (hflight : s.inFlight = (t, .executing) ::ₘ rest)
      (hflight' : s'.inFlight = (t, ph') ::ₘ rest) (hfresh : ph'.fresh = false)
      (haccepted : s'.accepted = s.accepted) (hstarted : s'.started = s.started ++ [t.seq])
      (hsent : s'.sent = s.sent) (habandoned : s'.abandoned = s.abandoned)
  | send (t : WorkerTask) (ph : Phase) (body : Bytes)
      (hflight : s.inFlight = (t, ph) ::ₘ s'.inFlight) (hfresh : ph.fresh = false)
      (haccepted : s'.accepted = s.accepted) (hstarted : s'.started = s.started)
      (hsent : s'.sent = s.sent ++ [(t.seq, body)]) (habandoned : s'.abandoned = s.abandoned)
  | giveUp (t : WorkerTask) (ph : Phase) (hflight : s.inFlight = (t, ph) ::ₘ s'.inFlight)
      (hfresh : ph.fresh = false) (haccepted : s'.accepted = s.accepted)
      (hstarted : s'.started = s.started) (hsent : s'.sent = s.sent)
      (habandoned : s'.abandoned = s.abandoned ++ [t.seq])

/-- How a step on a queue does. -/
inductive QueueFlow (s s' : Pipeline) : Prop where
  | still (hflight : s'.inFlight = s.inFlight) (haccepted : s'.accepted = s.accepted)
  | accept (t : WorkerTask) (payload : Bytes) (hpc : s.main = .pushing t payload)
      (hmain : s'.main = .receiving) (hflight : s'.inFlight = (t, .queued) ::ₘ s.inFlight)
      (haccepted : s'.accepted = s.accepted ++ [(t.inputFilename.getD [], payload)])
  | take (t : WorkerTask) (rest : Multiset (WorkerTask × Phase)) (hmain : s'.main = s.main)
      (hflight : s.inFlight = (t, .queued) ::ₘ rest)
      (hflight' : s'.inFlight = (t, .executing) ::ₘ rest) (haccepted : s'.accepted = s.accepted)

theorem inFlight_congr (ht : s'.tasks.contents = s.tasks.contents) (hi : s'.tasking = s.tasking)
    (hf : s'.finished.contents = s.finished.contents) (hs : s'.sending = s.sending) :
    s'.inFlight = s.inFlight := by
  rw [inFlight, inFlight, ht, hi, hf, hs]

theorem inFlight_tasking (s : Pipeline) (i : Fin numThread) :
    s.inFlight = (s.tasking i).job + (queued .queued s.tasks.contents + s.others i
      + queued .finished s.finished.contents + s.sending.job) := by
  rw [inFlight, sum_job s i]
  abel

theorem inFlight_setTasking (pc : TaskingPc) (ht : s'.tasking = (s.setTasking i pc).tasking) :
    s'.inFlight = pc.job + (queued .queued s'.tasks.contents + s.others i
      + queued .finished s'.finished.contents + s'.sending.job) := by
  rw [inFlight, ht, sum_job_setTasking]
  abel

theorem TaskingCase.flow (h : TaskingCase exec s i e s') : Flow s s' := by
  have hs := inFlight_tasking s i
  have hs' (pc : TaskingPc) (ht : s'.tasking = (s.setTasking i pc).tasking) :=
    inFlight_setTasking pc ht
  cases h with
  | «open» t name output n hpc hin hout hruns =>
      rw [hpc] at hs
      exact .start t _ _ hs (hs' _ rfl) rfl rfl rfl rfl rfl
  | load t name n hpc hin =>
      rw [hpc] at hs
      exact .move t _ _ _ hs (hs' _ rfl) rfl rfl rfl rfl rfl
  | write t output off n rest hpc hrest hout =>
      rw [hpc] at hs
      exact .move t _ _ _ hs (hs' _ rfl) rfl rfl rfl rfl rfl
  | finish t off n hpc =>
      rw [hpc] at hs
      exact .move t _ _ _ hs (hs' _ rfl) rfl rfl rfl rfl rfl
  | garble t store hpc hruns =>
      rw [hpc] at hs
      exact .start t _ _ hs (hs' _ rfl) rfl rfl rfl rfl rfl
  | noShell t name hpc hin =>
      rw [hpc] at hs
      exact .start t _ _ hs (hs' _ rfl) rfl rfl rfl rfl rfl

theorem inFlight_sending (s : Pipeline) :
    s.inFlight = s.sending.job + (queued .queued s.tasks.contents + ∑ i, (s.tasking i).job
      + queued .finished s.finished.contents) := by
  rw [inFlight]
  abel

theorem SendingCase.flow (h : SendingCase s e s') : Flow s s' := by
  have hs := inFlight_sending s
  have hs' := inFlight_sending s'
  cases h with
  | header t name mem hpc hin =>
      rw [hpc] at hs
      exact .move t _ _ _ hs hs' rfl rfl rfl rfl rfl
  | measure t mem hpc =>
      rw [hpc] at hs
      exact .move t _ _ _ hs hs' rfl rfl rfl rfl rfl
  | block t remain mem buffer body bs hpc hremain hbs =>
      rw [hpc] at hs
      exact .move t _ _ _ hs hs' rfl rfl rfl rfl rfl
  | sent t mem buffer short body hpc =>
      rw [hpc] at hs
      refine .send t (.body 0 buffer body) body ?_ rfl rfl rfl rfl rfl
      rw [hs, hs', SendingPc.job, SendingPc.job, zero_add]
      rfl
  | giveUp t mem short k bs htask hk =>
      have hjob : ∃ ph : Phase, s.sending.job = {(t, ph)} ∧ ph.fresh = false := by
        cases hpc : s.sending with
        | pulling | exited =>
            rw [hpc] at htask
            cases htask
        | header _ | measuring _ | body _ _ _ _ =>
            rw [hpc] at htask
            obtain rfl := Option.some.inj htask
            exact ⟨_, rfl, rfl⟩
      obtain ⟨ph, hjob, hfresh⟩ := hjob
      refine .giveUp t ph ?_ hfresh rfl rfl rfl rfl
      rw [hs, hs', hjob]
      show _ = _ ::ₘ (SendingPc.job .exited + _)
      rw [SendingPc.job, zero_add]
      rfl

theorem QueueCase.flow (h : QueueCase s s')
    (hmain : ∀ t payload, s.main = .pushing t payload → t.inputFilename ≠ none)
    (hheld : ∀ i t, s.tasking i = .returning t → t.inputFilename ≠ none) : QueueFlow s s' := by
  have hset {i : Fin numThread} (pc : TaskingPc) (ht : s'.tasking = (s.setTasking i pc).tasking) :=
    inFlight_setTasking pc ht
  cases h with
  | task q hq hpushed hpulled =>
      refine .still (inFlight_congr ?_ rfl rfl rfl) rfl
      simp only [Monitor.contents, hq, hpushed, hpulled]
  | finish q hq hpushed hpulled =>
      refine .still (inFlight_congr rfl rfl ?_ rfl) rfl
      simp only [Monitor.contents, hq, hpushed, hpulled]
  | accept t payload q hpc hcontents hpushed hpulled =>
      refine .accept t payload hpc rfl ?_ rfl
      simp only [inFlight, hcontents, queued_append, queued_singleton_task (hmain t payload hpc)]
      rw [← Multiset.singleton_add]
      abel
  | endTask i q hpc hcontents hpushed hpulled =>
      refine .still ?_ rfl
      simp [inFlight, hcontents, queued_append, KeyLime.endTask]
  | endSender q hpc hcontents hpushed hpulled =>
      refine .still ?_ rfl
      simp [inFlight, hcontents, queued_append, KeyLime.endTask]
  | take i t q hpc hname hcontents hpushed hpulled =>
      refine .take t (queued .queued q.contents + s.others i
        + queued .finished s.finished.contents + s.sending.job) rfl ?_ ?_ rfl
      · rw [inFlight_tasking s i, hpc, hcontents, queued_cons_task hname, TaskingPc.job, zero_add,
          Multiset.cons_add, Multiset.cons_add, Multiset.cons_add]
      · exact hset _ rfl
  | retire i t q hpc hname hcontents hpushed hpulled =>
      refine .still ?_ rfl
      rw [inFlight_tasking s i, hpc, hcontents, queued_cons_end hname]
      exact hset .exited rfl
  | hand i t q hpc hcontents hpushed hpulled =>
      refine .still ?_ rfl
      refine (hset .pulling rfl).trans ?_
      rw [inFlight_tasking s i, hpc]
      simp only [TaskingPc.job, hcontents, queued_append, queued_singleton_task (hheld i t hpc)]
      show 0 + (queued .queued s.tasks.contents + s.others i + _ + s.sending.job) = _
      abel
  | collect t q hpc hname hcontents hpushed hpulled =>
      refine .still ?_ rfl
      simp only [inFlight, hpc, hcontents, queued_cons_task hname, SendingPc.job]
      rw [← Multiset.singleton_add]
      abel
  | stop t q hpc hname hcontents hpushed hpulled =>
      refine .still ?_ rfl
      simp only [inFlight, hpc, hcontents, queued_cons_end hname, SendingPc.job]

theorem QueueCase.histories (h : QueueCase s s') :
    s'.kernel = s.kernel ∧ s'.started = s.started ∧ s'.sent = s.sent
      ∧ s'.abandoned = s.abandoned := by
  cases h <;> exact ⟨rfl, rfl, rfl, rfl⟩

theorem QueueFlow.flow (h : QueueFlow s s') (hstarted : s'.started = s.started)
    (hsent : s'.sent = s.sent) (habandoned : s'.abandoned = s.abandoned) : Flow s s' := by
  cases h with
  | still hflight haccepted => exact .still hflight haccepted hstarted hsent habandoned
  | accept t payload hpc hmain hflight haccepted =>
      exact .accept t payload hpc hflight haccepted hstarted hsent habandoned
  | take t rest hmain hflight hflight' haccepted =>
      exact .move t _ _ rest hflight hflight' rfl haccepted hstarted hsent habandoned

/-! ## The accounts -/

structure Accounts (s : Pipeline) : Prop where
  places : s.places = Multiset.range s.accepted.length
  turns : s.turns = Multiset.range s.accepted.length
  /-- First the tasks were pushed, then the end markers. -/
  pushed : ∃ ts, s.tasks.pushed = ts ++ List.replicate s.main.endsPushed endTask ∧
    ts.map (·.seq) = List.range s.accepted.length ∧ ∀ t ∈ ts, t.inputFilename ≠ none
  ending : ∀ i, s.main = .ending i → i < numThread
  pushing : ∀ t payload, s.main = .pushing t payload →
    t.seq = s.accepted.length ∧ t.inputFilename ≠ none ∧ t.outputFilename ≠ none
  named : ∀ x ∈ s.inFlight, x.1.inputFilename ≠ none ∧ x.1.outputFilename ≠ none

theorem start_accounts (resolve : Bytes → Bytes) (store : Bytes → Option Bytes) :
    (start resolve store).Accounts where
  places := by simp [Pipeline.places, inFlight, start, Monitor.create, Monitor.contents,
    TaskingPc.job, SendingPc.job]
  turns := by simp [Pipeline.turns, freshSeqs, inFlight, start, Monitor.create, Monitor.contents,
    TaskingPc.job, SendingPc.job]
  pushed := ⟨[], rfl, rfl, nofun⟩
  ending _ h := by cases h
  pushing _ _ h := by cases h
  named x hx := by
    simp [inFlight, start, Monitor.create, Monitor.contents, TaskingPc.job, SendingPc.job] at hx

theorem Flow.places (h : Flow s s')
    (hpushing : ∀ t payload, s.main = .pushing t payload → t.seq = s.accepted.length)
    (hs : s.places = Multiset.range s.accepted.length) :
    s'.places = Multiset.range s'.accepted.length := by
  unfold Pipeline.places at hs ⊢
  cases h with
  | still hflight haccepted hstarted hsent habandoned =>
      rw [hflight, haccepted, hsent, habandoned, hs]
  | accept t payload hpc hflight haccepted hstarted hsent habandoned =>
      rw [hflight, haccepted, hsent, habandoned, List.length_append, List.length_singleton,
        Multiset.range_succ, ← hs, Multiset.map_cons, hpushing t payload hpc, Multiset.cons_add,
        Multiset.cons_add]
  | move t ph ph' rest hflight hflight' hfresh haccepted hstarted hsent habandoned =>
      rw [hflight, Multiset.map_cons] at hs
      rw [hflight', Multiset.map_cons, haccepted, hsent, habandoned, hs]
  | start t ph' rest hflight hflight' hfresh haccepted hstarted hsent habandoned =>
      rw [hflight, Multiset.map_cons] at hs
      rw [hflight', Multiset.map_cons, haccepted, hsent, habandoned, hs]
  | send t ph body hflight hfresh haccepted hstarted hsent habandoned =>
      rw [hflight, Multiset.map_cons, ← Multiset.singleton_add] at hs
      rw [haccepted, hsent, habandoned, ← hs, List.map_append, ← Multiset.coe_add]
      show _ + (_ + {t.seq}) + _ = _
      abel
  | giveUp t ph hflight hfresh haccepted hstarted hsent habandoned =>
      rw [hflight, Multiset.map_cons, ← Multiset.singleton_add] at hs
      rw [haccepted, hsent, habandoned, ← hs, ← Multiset.coe_add]
      show _ + _ + (_ + {t.seq}) = _
      abel

theorem Flow.turns (h : Flow s s')
    (hpushing : ∀ t payload, s.main = .pushing t payload → t.seq = s.accepted.length)
    (hs : s.turns = Multiset.range s.accepted.length) :
    s'.turns = Multiset.range s'.accepted.length := by
  unfold Pipeline.turns at hs ⊢
  cases h with
  | still hflight haccepted hstarted hsent habandoned => rw [hflight, haccepted, hstarted, hs]
  | accept t payload hpc hflight haccepted hstarted hsent habandoned =>
      rw [hflight, haccepted, hstarted, List.length_append, List.length_singleton,
        Multiset.range_succ, ← hs, freshSeqs_cons_pos rfl, hpushing t payload hpc,
        Multiset.cons_add]
  | move t ph ph' rest hflight hflight' hfresh haccepted hstarted hsent habandoned =>
      rw [haccepted, hstarted, ← hs, hflight, hflight']
      cases hph : ph.fresh with
      | true => rw [freshSeqs_cons_pos hph, freshSeqs_cons_pos (hfresh.trans hph)]
      | false => rw [freshSeqs_cons_neg hph, freshSeqs_cons_neg (hfresh.trans hph)]
  | start t ph' rest hflight hflight' hfresh haccepted hstarted hsent habandoned =>
      rw [haccepted, hstarted, ← hs, hflight, hflight', freshSeqs_cons_neg hfresh,
        freshSeqs_cons_pos rfl, ← Multiset.singleton_add, ← Multiset.coe_add]
      show _ + (_ + {t.seq}) = _
      abel
  | send t ph body hflight hfresh haccepted hstarted hsent habandoned =>
      rw [haccepted, hstarted, ← hs, hflight, freshSeqs_cons_neg hfresh]
  | giveUp t ph hflight hfresh haccepted hstarted hsent habandoned =>
      rw [haccepted, hstarted, ← hs, hflight, freshSeqs_cons_neg hfresh]

theorem Flow.named (h : Flow s s')
    (hpushing : ∀ t payload, s.main = .pushing t payload →
      t.inputFilename ≠ none ∧ t.outputFilename ≠ none)
    (hs : ∀ x ∈ s.inFlight, x.1.inputFilename ≠ none ∧ x.1.outputFilename ≠ none) :
    ∀ x ∈ s'.inFlight, x.1.inputFilename ≠ none ∧ x.1.outputFilename ≠ none := by
  intro x hx
  cases h with
  | still hflight => exact hs x (hflight ▸ hx)
  | accept t payload hpc hflight =>
      rw [hflight] at hx
      rcases Multiset.mem_cons.mp hx with rfl | hx
      · exact hpushing t payload hpc
      · exact hs x hx
  | move t ph ph' rest hflight hflight' =>
      rw [hflight'] at hx
      rw [hflight] at hs
      rcases Multiset.mem_cons.mp hx with rfl | hx
      · exact hs (t, ph) (Multiset.mem_cons_self ..)
      · exact hs x (Multiset.mem_cons_of_mem hx)
  | start t ph' rest hflight hflight' =>
      rw [hflight'] at hx
      rw [hflight] at hs
      rcases Multiset.mem_cons.mp hx with rfl | hx
      · exact hs (t, .executing) (Multiset.mem_cons_self ..)
      · exact hs x (Multiset.mem_cons_of_mem hx)
  | send t ph body hflight => exact hs x (hflight ▸ Multiset.mem_cons_of_mem hx)
  | giveUp t ph hflight => exact hs x (hflight ▸ Multiset.mem_cons_of_mem hx)

theorem Accounts.queueFlow (h : s.Accounts) (hs : QueueCase s s') : QueueFlow s s' := by
  refine hs.flow (fun t payload hpc => (h.pushing t payload hpc).2.1) fun i t hpc => ?_
  have hmem : (t, Phase.finished) ∈ s.inFlight := by
    rw [inFlight_tasking s i, hpc]
    exact Multiset.mem_add.mpr (Or.inl (Multiset.mem_singleton_self _))
  exact (h.named _ hmem).1

theorem Accounts.flow (h : s.Accounts) (hs : StepCase exec s e s') : Flow s s' := by
  cases hs with
  | main hs =>
      obtain ⟨heq, -, -⟩ := hs.frame
      rw [heq]
      exact .still rfl rfl rfl rfl rfl
  | tasking i hs => exact hs.flow
  | sending hs => exact hs.flow
  | heartbeat hs =>
      rw [hs]
      exact .still rfl rfl rfl rfl rfl
  | queue hs =>
      obtain ⟨-, hstarted, hsent, habandoned⟩ := hs.histories
      exact (h.queueFlow hs).flow hstarted hsent habandoned

theorem MainCase.endsPushed (h : MainCase s e s') :
    s'.main.endsPushed = s.main.endsPushed := by
  cases h with
  | exit e hpc hto =>
      show 0 = _
      cases hm : s.main <;> simp_all [MainPc.endsPushed, MainPc.inLoop]
  | _ => simp [MainPc.endsPushed, *]

theorem MainCase.pushing (h : MainCase s e s') {t : WorkerTask} {payload : Bytes}
    (hpc : s'.main = .pushing t payload) :
    t.seq = s'.accepted.length ∧ t.inputFilename ≠ none ∧ t.outputFilename ≠ none := by
  cases h with
  | created name payload' ok hpc' =>
      obtain ⟨rfl, -⟩ := MainPc.pushing.inj hpc
      exact ⟨rfl, nofun, nofun⟩
  | _ => cases hpc

theorem Accounts.pushed_step (h : s.Accounts) (hs : StepCase exec s e s') :
    ∃ ts, s'.tasks.pushed = ts ++ List.replicate s'.main.endsPushed endTask ∧
      ts.map (·.seq) = List.range s'.accepted.length ∧ ∀ t ∈ ts, t.inputFilename ≠ none := by
  obtain ⟨ts, hpushed, hseqs, hnames⟩ := h.pushed
  have still (htasks : s'.tasks.pushed = s.tasks.pushed) (hacc : s'.accepted = s.accepted)
      (hends : s'.main.endsPushed = s.main.endsPushed) :
      ∃ ts, s'.tasks.pushed = ts ++ List.replicate s'.main.endsPushed endTask ∧
        ts.map (·.seq) = List.range s'.accepted.length ∧ ∀ t ∈ ts, t.inputFilename ≠ none :=
    ⟨ts, by rw [htasks, hends, hpushed], by rw [hacc, hseqs], hnames⟩
  cases hs with
  | main hs =>
      obtain ⟨heq, -, -⟩ := hs.frame
      exact still (by rw [heq]) (by rw [heq]) hs.endsPushed
  | tasking i hs =>
      obtain ⟨heq, -, -⟩ := hs.frame
      exact still (by rw [heq]; rfl) (by rw [heq]; rfl) (by rw [heq]; rfl)
  | sending hs =>
      obtain ⟨heq, -⟩ := hs.frame
      exact still (by rw [heq]) (by rw [heq]) (by rw [heq])
  | heartbeat hs => exact still (by rw [hs]) (by rw [hs]) (by rw [hs])
  | queue hs =>
      cases hs with
      | accept t payload q hpc hcontents hq hpulled =>
          obtain ⟨hseq, hname, -⟩ := h.pushing t payload hpc
          refine ⟨ts ++ [t], ?_, ?_, ?_⟩
          · rw [hpc] at hpushed
            simp only [hq, hpushed, MainPc.endsPushed, List.replicate_zero, List.append_nil]
          · rw [List.map_append, hseqs, List.length_append, List.length_singleton,
              List.range_succ, List.map_singleton, hseq]
          · intro u hu
            rcases List.mem_append.mp hu with hu | hu
            · exact hnames u hu
            · rw [List.mem_singleton.mp hu]
              exact hname
      | endTask i q hpc hcontents hq hpulled =>
          have hi := h.ending i hpc
          have hends : MainPc.endsPushed (if i + 1 < numThread then .ending (i + 1)
              else .endingSender) = i + 1 := by
            split
            · rfl
            · show numThread = i + 1
              omega
          refine ⟨ts, ?_, hseqs, hnames⟩
          rw [hpc] at hpushed
          show q.pushed = ts ++ List.replicate (MainPc.endsPushed (if i + 1 < numThread
            then .ending (i + 1) else .endingSender)) KeyLime.endTask
          rw [hends, hq, hpushed, List.replicate_succ', List.append_assoc]
          rfl
      | endSender q hpc hcontents hq hpulled => exact still rfl rfl (by rw [hpc]; rfl)
      | task q hq hq' hpulled => exact still hq' rfl rfl
      | take i t q hpc hname hcontents hq hpulled => exact still hq rfl rfl
      | retire i t q hpc hname hcontents hq hpulled => exact still hq rfl rfl
      | finish q hq hq' hpulled => exact still rfl rfl rfl
      | hand i t q hpc hcontents hq hpulled => exact still rfl rfl rfl
      | collect t q hpc hname hcontents hq hpulled => exact still rfl rfl rfl
      | stop t q hpc hname hcontents hq hpulled => exact still rfl rfl rfl

theorem Accounts.main_step (h : s.Accounts) (hs : StepCase exec s e s') :
    (∀ i, s'.main = .ending i → i < numThread) ∧
    ∀ t payload, s'.main = .pushing t payload →
      t.seq = s'.accepted.length ∧ t.inputFilename ≠ none ∧ t.outputFilename ≠ none := by
  have still (hm : s'.main = s.main) (hacc : s'.accepted = s.accepted) :
      (∀ i, s'.main = .ending i → i < numThread) ∧
      ∀ t payload, s'.main = .pushing t payload →
        t.seq = s'.accepted.length ∧ t.inputFilename ≠ none ∧ t.outputFilename ≠ none := by
    rw [hm, hacc]
    exact ⟨h.ending, h.pushing⟩
  cases hs with
  | main hs =>
      refine ⟨?_, fun t payload hpc => hs.pushing hpc⟩
      intro i hi
      cases hs with
      | close hpc =>
          obtain rfl := MainPc.ending.inj hi
          decide
      | _ => cases hi
  | tasking i hs =>
      obtain ⟨heq, -, -⟩ := hs.frame
      exact still (by rw [heq]; rfl) (by rw [heq]; rfl)
  | sending hs =>
      obtain ⟨heq, -⟩ := hs.frame
      exact still (by rw [heq]) (by rw [heq])
  | heartbeat hs => exact still (by rw [hs]) (by rw [hs])
  | queue hs =>
      cases hs with
      | accept t payload q hpc hcontents hq hpulled => exact ⟨nofun, nofun⟩
      | endTask i q hpc hcontents hq hpulled =>
          constructor
          · intro j hj
            have hj' : (if i + 1 < numThread then MainPc.ending (i + 1) else .endingSender)
              = .ending j := hj
            split at hj'
            · rename_i hlt
              exact MainPc.ending.inj hj' ▸ hlt
            · cases hj'
          · intro t payload hpc
            have hpc' : (if i + 1 < numThread then MainPc.ending (i + 1) else .endingSender)
              = .pushing t payload := hpc
            split at hpc' <;> cases hpc'
      | endSender q hpc hcontents hq hpulled => exact ⟨nofun, nofun⟩
      | task | take | retire | finish | hand | collect | stop => exact still rfl rfl

theorem Accounts.step (h : s.Accounts) (hs : StepCase exec s e s') : s'.Accounts where
  places := (h.flow hs).places (fun t payload hpc => (h.pushing t payload hpc).1) h.places
  turns := (h.flow hs).turns (fun t payload hpc => (h.pushing t payload hpc).1) h.turns
  pushed := h.pushed_step hs
  ending := (h.main_step hs).1
  pushing := (h.main_step hs).2
  named := (h.flow hs).named (fun t payload hpc => (h.pushing t payload hpc).2) h.named

theorem Reachable.accounts (h : Reachable exec s) : s.Wired ∧ s.Accounts := by
  obtain ⟨resolve, store, h⟩ := h
  refine h.invariant (I := fun s => s.Wired ∧ s.Accounts)
    ⟨start_wired resolve store, start_accounts resolve store⟩ ?_
  intro s e s' _ ⟨hw, ha⟩ hs
  obtain ⟨hcase, hw', -⟩ := hw.step hs
  exact ⟨hw', ha.step hcase⟩

def execRun {β : Type*} (exec : Bytes → Bytes) (es : List PipelineEvent) (f : Pipeline → β) :
    Option β :=
  (es.foldlM (handle exec) (start id fun _ => none)).map f

theorem foldlM_reach {g : Pipeline → PipelineEvent → Option Pipeline} {s₀ : Pipeline} :
    ∀ {es : List PipelineEvent} {s s' : Pipeline},
      Reach (fun s e s' => g s e = some s') s₀ s → es.foldlM g s = some s' →
      Reach (fun s e s' => g s e = some s') s₀ s'
  | [], s, s', hr, h => by
      obtain rfl := Option.some.inj h
      exact hr
  | e :: es, s, s', hr, h => by
      rw [List.foldlM_cons] at h
      obtain ⟨s₁, h1, h2⟩ := Option.bind_eq_some_iff.mp h
      exact foldlM_reach (Reach.step (T := fun s e s' => g s e = some s') hr h1) h2

theorem execRun_spec {β : Type*} {es : List PipelineEvent} {f : Pipeline → β} {v : β}
    (h : execRun exec es f = some v) : ∃ s, Reachable exec s ∧ f s = v := by
  obtain ⟨s, hs, hv⟩ := Option.map_eq_some_iff.mp h
  exact ⟨s, ⟨id, fun _ => none, foldlM_reach Reach.refl hs⟩, hv⟩

/-! ## Nothing is lost, nothing is there twice -/

/-- **Every accepted task is in one place**: in `task_queue`, with one
tasking thread, in `finished_task_queue`, with the sending thread, sent or
given up. None is executed or sent twice, and all are pulled before any end
marker is. -/
theorem one_place (h : Reachable exec s) :
    (∃ ps, s.tasks.queue.Holds ps s.tasks.contents) ∧
    (∃ ps, s.finished.queue.Holds ps s.finished.contents) ∧
    s.places = Multiset.range s.accepted.length ∧
    s.started.Nodup ∧ (s.sent.map Prod.fst).Nodup ∧
    ∀ before t after, s.tasks.pulled = before ++ t :: after → t.inputFilename = none →
      ∀ k < s.accepted.length, ∃ u ∈ before, u.inputFilename ≠ none ∧ u.seq = k := by
  obtain ⟨hw, ha⟩ := h.accounts
  have hnodup := Multiset.nodup_range s.accepted.length
  refine ⟨hw.tasks.holds, hw.finished.holds, ha.places, ?_, ?_, ?_⟩
  · rw [← ha.turns] at hnodup
    exact Multiset.coe_nodup.mp (Multiset.nodup_add.mp hnodup).2.1
  · rw [← ha.places] at hnodup
    exact Multiset.coe_nodup.mp (Multiset.nodup_add.mp (Multiset.nodup_add.mp hnodup).1).2.1
  · intro before t after hpulled hend k hk
    obtain ⟨ts, hpushed, hseqs, hnames⟩ := ha.pushed
    have hhist := hw.tasks.history
    rw [hw.taskCopy, hpushed, hpulled, List.append_assoc] at hhist
    simp only [funext taskCopyConstructor_eq, List.map_id', List.cons_append] at hhist
    have hbefore : ∃ more, before = ts ++ more := by
      rcases List.append_eq_append_iff.mp hhist with ⟨as, rfl, has⟩ | ⟨more, hmore, -⟩
      · cases as with
        | nil => exact ⟨[], by simp⟩
        | cons u as =>
            obtain ⟨rfl, -⟩ := List.cons.inj has
            exact (hnames t (by simp) hend).elim
      · exact ⟨more, hmore⟩
    obtain ⟨more, rfl⟩ := hbefore
    have hk' : k ∈ ts.map (·.seq) := by
      rw [hseqs]
      exact List.mem_range.mpr hk
    obtain ⟨u, hu, rfl⟩ := List.mem_map.mp hk'
    exact ⟨u, List.mem_append_left _ hu, hnames u hu, rfl⟩

/-- The steps of a push and of a pull. -/
def through (th : Thread) (p : Nat) : List PipelineEvent := [.call th, .enter th p]

/-- A request of this name with a payload of at most one block. -/
def requested (name payload : Bytes) (p : Nat) : List PipelineEvent :=
  [.request name payload, .openFile true, .main, .createOutput true] ++ through .main p

/-- Two tasks: one has been sent, the other one is with a tasking thread,
and another tasking thread has pulled an end marker. -/
theorem two_placed :
    ∃ s, Reachable id s ∧ s.places = Multiset.range 2 ∧ s.started = [0] ∧
      s.sent.map Prod.fst = [0] ∧
      ∃ t₀ t₁, s.tasks.pulled = [t₀, t₁, endTask] ∧
        ∀ k < 2, ∃ u ∈ [t₀, t₁], u.inputFilename ≠ none ∧ u.seq = k := by
  have hexec : execRun id
      (requested [97] [1] 0 ++ through (.tasking 0) 0 ++ List.replicate 4 (.tasking 0 0)
        ++ through (.tasking 0) 0 ++ through .sending 0
        ++ List.replicate 4 (.sending (fun _ => 0) none) ++ requested [98] [2] 0
        ++ through (.tasking 1) 0 ++ [.leave, .main, .main] ++ through .main 0
        ++ through (.tasking 2) 0)
      (fun s => (s.accepted.length, s.started, s.sent.map Prod.fst, s.tasks.pulled)) =
      some (2, [0], [0], [⟨0, some [97], some (outputName [97]), 5⟩,
        ⟨1, some [98], some (outputName [98]), 7⟩, endTask]) := by decide +kernel
  obtain ⟨s, hr, hv⟩ := execRun_spec hexec
  simp only [Prod.mk.injEq] at hv
  obtain ⟨hacc, hstarted, hsent, hpulled⟩ := hv
  obtain ⟨-, -, hplaces, -, -, hends⟩ := one_place hr
  rw [hacc] at hplaces hends
  exact ⟨s, hr, hplaces, hstarted, hsent, _, _, hpulled, hends [_, _] endTask [] hpulled rfl⟩

end Pipeline

end KeyLime
