import Mathlib.Algebra.Order.BigOperators.Group.Finset
import Mathlib.Data.Fintype.Option
import KeyLime.Shutdown

/-!
# The work there is left

Three numbers that say how far the threads of the worker have to go with what
has been accepted: the stages the tasks and the main thread have before them,
the bytes that are being written, and the steps that lead into the queues and
to sleep there. A step of a thread of its own lowers the first that it
changes (`Step.lower`), so left alone the threads come to rest.

They are compared in this order. A task that goes on a stage may have many bytes
before it there, the output of its program among them, which nobody knows in
advance; and behind each block or task a thread goes into a queue again. So no
single number would do, and `rank` is a lexicographic one.

Steps of a thread of its own are those that need nothing from the outside: no
request comes in, nobody enters `exit`, and no thread is woken without having been
signalled (`PipelineEvent.inner`). A signal wakes a thread, which has a step into
the queue before it again; but it comes with an item that is pushed or pulled,
and that lowers the stages (`QueueCase.lower`).
-/

namespace KeyLime

open Transition

/-- Not a wakeup for no reason, and nothing from the outside. -/
def PipelineEvent.inner : PipelineEvent → Bool
  | .request .. | .leave | .exit | .wake _ => false
  | _ => true

/-! ## Stages -/

/-- The stages that are left: more for a task than for an end marker. -/
def WorkerTask.stages (n : Nat) (t : WorkerTask) : Nat := if t.inputFilename = none then 1 else n

def TaskingPc.stages : TaskingPc → Nat
  | .executing _ => 11
  | .opened _ => 10
  | .running .. => 9
  | .returning _ => 8
  | .pulling | .exited => 0

def SendingPc.stages : SendingPc → Nat
  | .header _ => 6
  | .measuring _ => 5
  | .body .. => 4
  | .pulling | .exited => 0

def MainPc.stages : MainPc → Nat
  | .opening .. => 46
  | .storing .. => 45
  | .creating .. => 44
  | .pushing .. => 43
  | .receiving => 30
  | .killing => 29
  | .closing => 28
  | .ending i => 17 + 2 * (numThread - i)
  | .endingSender => 16
  | .joining i => 3 + (numThread - i)
  | .joiningSending => 2
  | .joiningHeartbeat => 1
  | .done | .exited => 0

/-! ## Bytes -/

def TaskingPc.bytes : TaskingPc → Nat
  | .running _ _ rest => rest.length
  | _ => 0

def SendingPc.bytes : SendingPc → Nat
  | .body _ remain _ _ => remain
  | _ => 0

def MainPc.bytes : MainPc → Nat
  | .storing _ _ rest _ => rest.length
  | _ => 0

/-! ## Steps into a queue -/

/-- The steps to sleep. -/
def QueueStatus.steps {α : Type*} : QueueStatus α → Nat
  | .out => 2
  | .ready _ => 1
  | .waiting _ => 0

theorem sum_comp_update {ι α : Type*} [Fintype ι] [DecidableEq ι] (f : α → Nat) (g : ι → α)
    (i : ι) (x : α) :
    ∑ j, f (Function.update g i x j) + f (g i) = ∑ j, f (g j) + f x := by
  have hrest : ∑ j ∈ Finset.univ.erase i, f (Function.update g i x j) =
      ∑ j ∈ Finset.univ.erase i, f (g j) :=
    Finset.sum_congr rfl fun j hj => by rw [Function.update_of_ne (Finset.ne_of_mem_erase hj)]
  rw [← Finset.add_sum_erase _ _ (Finset.mem_univ i), hrest, Function.update_self,
    ← Finset.add_sum_erase Finset.univ (fun j => f (g j)) (Finset.mem_univ i)]
  omega

namespace Monitor

variable {τ α : Type*} [DecidableEq τ] [Fintype τ] {s s' : Monitor τ α} {t : τ} {op : QueueOp α}

omit [DecidableEq τ] in
def steps (s : Monitor τ α) : Nat := ∑ t, (s.threads t).steps

theorem steps_update {st : QueueStatus α} (hs : s'.threads = Function.update s.threads t st)
    (h : st.steps < (s.threads t).steps) : s'.steps < s.steps := by
  have hsum := sum_comp_update QueueStatus.steps s.threads t st
  simp only [steps, hs]
  omega

theorem call_steps (hs : s.call t op = some s') : s'.steps < s.steps := by
  unfold Monitor.call at hs
  split at hs
  · rename_i hout
    obtain rfl := Option.some.inj hs
    exact steps_update rfl (by simp [hout, QueueStatus.steps])
  · cases hs

end Monitor

instance : Fintype Thread :=
  Fintype.ofEquiv (Option (Option (Fin numThread)))
    { toFun := fun
        | none => .main
        | some none => .sending
        | some (some i) => .tasking i
      invFun := fun
        | .main => none
        | .sending => some none
        | .tasking i => some (some i)
      left_inv := by rintro (_ | _ | i) <;> rfl
      right_inv := by rintro (_ | i | _) <;> rfl }

namespace Pipeline

variable {exec : Bytes → Bytes} {s s' : Pipeline} {e : PipelineEvent} {i : Fin numThread}
  {th : Thread} {p : Nat}

def stages (s : Pipeline) : Nat :=
  s.main.stages + (s.tasks.contents.map (WorkerTask.stages 12)).sum
    + ∑ i, (s.tasking i).stages + (s.finished.contents.map (WorkerTask.stages 7)).sum
    + s.sending.stages + (!s.heartbeatExited).toNat

def bytes (s : Pipeline) : Nat := s.main.bytes + ∑ i, (s.tasking i).bytes + s.sending.bytes

def steps (s : Pipeline) : Nat := s.tasks.steps + s.finished.steps

def rank (s : Pipeline) : Nat × Nat × Nat := (s.stages, s.bytes, s.steps)

def Lower (s' s : Pipeline) : Prop :=
  Prod.Lex (· < ·) (Prod.Lex (· < ·) (· < ·)) s'.rank s.rank

theorem Lower.of_stages (h : s'.stages < s.stages) : Lower s' s := .left _ _ h

theorem Lower.of_bytes (hs : s'.stages = s.stages) (h : s'.bytes < s.bytes) : Lower s' s := by
  rw [Lower, rank, rank, hs]
  exact .right _ (.left _ _ h)

theorem Lower.of_steps (hs : s'.stages = s.stages) (hb : s'.bytes = s.bytes)
    (h : s'.steps < s.steps) : Lower s' s := by
  rw [Lower, rank, rank, hs, hb]
  exact .right _ (.right _ h)

/-! ## The main thread -/

theorem MainCase.lower (h : MainCase s e s') (he : e.inner = true) : Lower s' s := by
  cases h with
  | store name fd rest payload hpc hmore =>
      refine .of_bytes ?_ ?_
      · simp only [stages, hpc, MainPc.stages]
      · have hlen : (rest.drop fileBufferSize).length < rest.length := by
          rw [List.length_drop]
          have := List.length_pos_of_ne_nil hmore
          rw [List.length_drop] at this
          unfold fileBufferSize at *
          omega
        simp only [bytes, hpc, MainPc.bytes]
        omega
  | exit e hpc hto =>
      refine .of_stages ?_
      simp only [stages, MainPc.stages]
      cases hm : s.main <;> rw [hm] at hpc <;> simp_all [MainPc.inLoop]
  | request name payload hpc => cases he
  | leave hpc => cases he
  | join i hpc hi hexited =>
      refine .of_stages ?_
      simp only [stages, hpc, MainPc.stages]
      omega
  | _ =>
      have hnum : numThread = 5 := rfl
      refine .of_stages ?_
      simp only [stages, *, MainPc.stages]
      omega

/-! ## The tasking and the sending threads -/

theorem Lower.of_tasking {pc : TaskingPc} (ht : s'.tasking = Function.update s.tasking i pc)
    (hm : s'.main = s.main) (htasks : s'.tasks = s.tasks) (hfinished : s'.finished = s.finished)
    (hs : s'.sending = s.sending) (hbeat : s'.heartbeatExited = s.heartbeatExited)
    (h : pc.stages < (s.tasking i).stages ∨
      pc.stages = (s.tasking i).stages ∧ pc.bytes < (s.tasking i).bytes) : Lower s' s := by
  have hstages := sum_comp_update TaskingPc.stages s.tasking i pc
  have hbytes := sum_comp_update TaskingPc.bytes s.tasking i pc
  rw [← ht] at hstages hbytes
  rcases h with hlt | ⟨heq, hlt⟩
  · refine .of_stages ?_
    simp only [Pipeline.stages, hm, htasks, hfinished, hs, hbeat]
    omega
  · refine .of_bytes ?_ ?_
    · simp only [Pipeline.stages, hm, htasks, hfinished, hs, hbeat]
      omega
    · simp only [Pipeline.bytes, hm, hs]
      omega

theorem TaskingCase.lower (h : TaskingCase exec s i e s') : Lower s' s := by
  cases h with
  | «open» t name output n hpc | load t name n hpc | finish t off n hpc | garble t store hpc
  | noShell t name hpc =>
      exact .of_tasking rfl rfl rfl rfl rfl rfl (Or.inl (by simp [hpc, TaskingPc.stages]))
  | write t output off n rest hpc hrest hout =>
      refine .of_tasking rfl rfl rfl rfl rfl rfl (Or.inr ⟨by simp [hpc, TaskingPc.stages], ?_⟩)
      have := List.length_pos_of_ne_nil hrest
      simp only [hpc, TaskingPc.bytes, List.length_drop]
      omega

theorem SendingCase.lower (h : SendingCase s e s') : Lower s' s := by
  obtain ⟨heq, -⟩ := h.frame
  have hstages (hlt : s'.sending.stages < s.sending.stages) : Lower s' s := by
    refine .of_stages ?_
    rw [heq]
    simp only [stages]
    omega
  cases h with
  | header t name mem hpc | measure t mem hpc | sent t mem buffer short body hpc =>
      exact hstages (by simp [hpc, SendingPc.stages])
  | block t remain mem buffer body bs hpc hremain hbs =>
      have hpos : 0 < blockSize remain := by
        unfold blockSize fileBufferSize
        split <;> omega
      refine .of_bytes ?_ ?_
      · simp only [stages, hpc, SendingPc.stages]
      · simp only [bytes, hpc, SendingPc.bytes]
        omega
  | giveUp t mem short k bs htask hk =>
      refine hstages ?_
      cases hpc : s.sending with
      | pulling | exited =>
          rw [hpc] at htask
          cases htask
      | header _ | measuring _ | body _ _ _ _ => exact Nat.succ_pos _

/-! ## The queues -/

theorem stages_le (n : Nat) (hn : 0 < n) (t : WorkerTask) : t.stages n ≤ n := by
  unfold WorkerTask.stages
  split <;> omega

theorem stages_task {n : Nat} {t : WorkerTask} (h : t.inputFilename ≠ none) : t.stages n = n :=
  if_neg h

theorem stages_end {n : Nat} {t : WorkerTask} (h : t.inputFilename = none) : t.stages n = 1 :=
  if_pos h

theorem QueueCase.lower (h : QueueCase s s') (ha : s.Accounts) :
    Lower s' s ∨ s'.tasks.pushed = s.tasks.pushed ∧ s'.tasks.pulled = s.tasks.pulled
      ∧ s'.finished.pushed = s.finished.pushed ∧ s'.finished.pulled = s.finished.pulled := by
  have hpull : TaskingPc.pulling.stages = 0 := rfl
  cases h with
  | task q hq hpushed hpulled => exact Or.inr ⟨hpushed, hpulled, rfl, rfl⟩
  | finish q hq hpushed hpulled => exact Or.inr ⟨rfl, rfl, hpushed, hpulled⟩
  | accept t payload q hpc hcontents hpushed hpulled =>
      have hle := stages_le 12 (by decide) t
      refine Or.inl (.of_stages ?_)
      simp only [stages, hpc, hcontents, MainPc.stages, List.map_append, List.sum_append,
        List.map_cons, List.map_nil, List.sum_cons, List.sum_nil]
      omega
  | endTask j q hpc hcontents hpushed hpulled =>
      have hlt := ha.ending j hpc
      have hend : KeyLime.endTask.stages 12 = 1 := rfl
      have hnext : (if j + 1 < numThread then MainPc.ending (j + 1) else .endingSender).stages + 2 ≤
          (MainPc.ending j).stages := by
        split <;> simp only [MainPc.stages] <;> omega
      refine Or.inl (.of_stages ?_)
      simp only [stages, hpc, hcontents, List.map_append, List.sum_append,
        List.map_cons, List.map_nil, List.sum_cons, List.sum_nil, hend]
      omega
  | endSender q hpc hcontents hpushed hpulled =>
      have hnum : numThread = 5 := rfl
      have hend : KeyLime.endTask.stages 7 = 1 := rfl
      refine Or.inl (.of_stages ?_)
      simp only [stages, hpc, hcontents, MainPc.stages, List.map_append, List.sum_append,
        List.map_cons, List.map_nil, List.sum_cons, List.sum_nil, hend]
      omega
  | take i t q hpc hname hcontents hpushed hpulled =>
      have hsum := sum_comp_update TaskingPc.stages s.tasking i (.executing t)
      have hheld : (TaskingPc.executing t).stages = 11 := rfl
      rw [hpc] at hsum
      refine Or.inl (.of_stages ?_)
      simp only [stages, setTasking, hcontents, List.map_cons, List.sum_cons, stages_task hname]
      omega
  | retire i t q hpc hname hcontents hpushed hpulled =>
      have hsum := sum_comp_update TaskingPc.stages s.tasking i .exited
      have hheld : TaskingPc.exited.stages = 0 := rfl
      rw [hpc] at hsum
      refine Or.inl (.of_stages ?_)
      simp only [stages, setTasking, hcontents, List.map_cons, List.sum_cons, stages_end hname]
      omega
  | hand i t q hpc hcontents hpushed hpulled =>
      have hsum := sum_comp_update TaskingPc.stages s.tasking i .pulling
      have hheld : (TaskingPc.returning t).stages = 8 := rfl
      rw [hpc] at hsum
      have hle := stages_le 7 (by decide) t
      refine Or.inl (.of_stages ?_)
      simp only [stages, setTasking, hcontents, List.map_append, List.sum_append, List.map_cons,
        List.map_nil, List.sum_cons, List.sum_nil]
      omega
  | collect t q hpc hname hcontents hpushed hpulled =>
      refine Or.inl (.of_stages ?_)
      simp only [stages, hpc, SendingPc.stages, hcontents, List.map_cons, List.sum_cons,
        stages_task hname]
      omega
  | stop t q hpc hname hcontents hpushed hpulled =>
      refine Or.inl (.of_stages ?_)
      simp only [stages, hpc, SendingPc.stages, hcontents, List.map_cons, List.sum_cons,
        stages_end hname]
      omega

theorem call_lower (hs : s.call th = some s') : Lower s' s := by
  unfold Pipeline.call at hs
  split at hs
  · obtain ⟨q, hq, rfl⟩ := Option.map_eq_some_iff.mp hs
    obtain ⟨hqueue, hpushed, hpulled⟩ := Monitor.call_frame hq
    refine .of_steps ?_ rfl (Nat.add_lt_add_right (Monitor.call_steps hq) _)
    simp only [stages, Monitor.contents, hqueue, hpushed, hpulled]
  · obtain ⟨q, hq, rfl⟩ := Option.map_eq_some_iff.mp hs
    obtain ⟨hqueue, hpushed, hpulled⟩ := Monitor.call_frame hq
    refine .of_steps ?_ rfl (Nat.add_lt_add_left (Monitor.call_steps hq) _)
    simp only [stages, Monitor.contents, hqueue, hpushed, hpulled]
  · cases hs

theorem afterOp_queues (s : Pipeline) (th : Thread) (r : QueueRet WorkerTask) :
    (s.afterOp th r).tasks = s.tasks ∧ (s.afterOp th r).finished = s.finished := by
  cases r with
  | waits => exact ⟨rfl, rfl⟩
  | pushed =>
      cases th with
      | main =>
          simp only [afterOp, afterPush]
          split <;> exact ⟨rfl, rfl⟩
      | tasking i => exact ⟨rfl, rfl⟩
      | sending => exact ⟨rfl, rfl⟩
  | pulled t =>
      cases th with
      | main => exact ⟨rfl, rfl⟩
      | tasking i =>
          simp only [afterOp, afterPull]
          split <;> exact ⟨rfl, rfl⟩
      | sending => exact ⟨rfl, rfl⟩

theorem enter_lower (hw : s.Wired) (ha : s.Accounts) (hs : s.enter th p = some s') :
    Lower s' s := by
  have hcase := (hw.enter hs).1.lower ha
  unfold Pipeline.enter at hs
  split at hs
  · obtain ⟨⟨q, r⟩, henter, rfl⟩ := Option.map_eq_some_iff.mp hs
    obtain ⟨htasks, -⟩ := afterOp_queues { s with tasks := q } th r
    simp only [htasks] at hcase
    cases (hw.tasks.enter henter).1 with
    | waits op _ hop hblocked heq =>
        subst heq
        exact .of_steps rfl rfl (Nat.add_lt_add_right
          (Monitor.steps_update rfl (by simp [hop, QueueStatus.steps])) _)
    | pushed data _ hop hroom hcontents hpushed =>
        refine hcase.resolve_right ?_
        rintro ⟨h, -⟩
        rw [hpushed] at h
        simp at h
    | pulled x _ hop hcontents hpushed hpulled =>
        refine hcase.resolve_right ?_
        rintro ⟨-, h, -⟩
        rw [hpulled] at h
        simp at h
  · obtain ⟨⟨q, r⟩, henter, rfl⟩ := Option.map_eq_some_iff.mp hs
    obtain ⟨-, hfinished⟩ := afterOp_queues { s with finished := q } th r
    simp only [hfinished] at hcase
    cases (hw.finished.enter henter).1 with
    | waits op _ hop hblocked heq =>
        subst heq
        exact .of_steps rfl rfl (Nat.add_lt_add_left
          (Monitor.steps_update rfl (by simp [hop, QueueStatus.steps])) _)
    | pushed data _ hop hroom hcontents hpushed =>
        refine hcase.resolve_right ?_
        rintro ⟨-, -, h, -⟩
        rw [hpushed] at h
        simp at h
    | pulled x _ hop hcontents hpushed hpulled =>
        refine hcase.resolve_right ?_
        rintro ⟨-, -, -, h⟩
        rw [hpulled] at h
        simp at h
  · cases hs

theorem heartbeat_lower {fails : Bool} (hs : s.heartbeat fails = some s') : Lower s' s := by
  unfold Pipeline.heartbeat at hs
  split at hs
  · cases hs
  · rename_i hbeat
    obtain rfl := Option.some.inj hs
    have hexited : s.heartbeatExited = false := by
      cases hb : s.heartbeatExited with
      | true => exact (hbeat (by rw [hb]; rfl)).elim
      | false => rfl
    refine .of_stages ?_
    simp only [stages, hexited, Bool.not_true, Bool.not_false, Bool.toNat_true, Bool.toNat_false]
    omega

/-! ## Every step -/

/-- **What is left gets less with every step of a thread**, by one of the three
numbers with the ones in front of it unchanged. -/
theorem Step.lower (hw : s.Wired) (ha : s.Accounts) (he : e.inner = true)
    (hs : Step exec s e s') : Lower s' s := by
  unfold Step handle at hs
  split at hs
  · cases hs
  · cases e with
    | request name payload | leave | exit | wake th => cases he
    | openFile ok => exact (openFile_case hs).lower he
    | createOutput ok => exact (createOutput_case hs).lower he
    | main => exact (mainStep_case hs).lower he
    | tasking i n => exact (taskingStep_case hs).lower
    | garble i store =>
        have hcase : TaskingCase exec s i _ s' := garble_case hs
        exact hcase.lower
    | noShell i =>
        have hcase : TaskingCase exec s i _ s' := noShell_case hs
        exact hcase.lower
    | sending mem short => exact (sendingStep_case hs).lower
    | heartbeat fails => exact heartbeat_lower hs
    | call th => exact call_lower hs
    | enter th p => exact enter_lower hw ha hs

end Pipeline

end KeyLime
