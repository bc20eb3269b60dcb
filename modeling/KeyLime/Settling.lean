import KeyLime.Draining
import KeyLime.Transition

/-!
# The worker comes to rest

Left alone, without another request, the threads of the worker run out of
steps, since every one lowers what is left (`Step.lower`). Where they end
is what the progress lemmas leave: in the receive loop with all that was
accepted executed, or, once the loop has been left, with every thread joined.

The two results, one for each half of `worker_main`:

* `settles`: from a state in the receive loop, the threads come to rest around
  the main thread, which is back at its socket (`Settled`);
* `finishes`: from a state behind the loop, they come to where `worker_main`
  returns (`Finished`).

Both are about a process that can be killed. `worker.c` installs a handler for
SIGINT only, so a `write` of the sending thread that fails with `EPIPE` kills
it: the master has closed the connection, or `kill_worker` has called
`shutdown(socket_fd, SHUT_RDWR)` and the main thread has not yet come to its
`close(socket_fd)`. Such a write is one that could as well fail with an error
the thread is told of, so the deaths are put on top of the runs of `Inner`
(`Mortal`), and each result is proved without them first (`settles_alive`,
`finishes_alive`).
-/

namespace KeyLime

open Transition

/-- The request the main thread is at. -/
def MainPc.pending : MainPc → List (Bytes × Bytes)
  | .opening name payload | .storing name _ _ payload | .creating name payload => [(name, payload)]
  | .pushing t payload => [(t.inputFilename.getD [], payload)]
  | _ => []

/-- Whether it is at a `write` to the socket. -/
def SendingPc.writes : SendingPc → Bool
  | .header _ | .measuring _ => true
  | .body _ remain _ _ => remain != 0
  | .pulling | .exited => false

namespace Pipeline

variable {exec : Bytes → Bytes} {s s' : Pipeline} {e : PipelineEvent} {i : Fin numThread}
  {th : Thread}

def Inner (exec : Bytes → Bytes) : Pipeline → PipelineEvent → Pipeline → Prop :=
  Within (Step exec) fun _ e _ => e.inner = true

/-- A `write` to the open socket fails, perhaps with `EPIPE`. -/
def raisesSigpipe (s : Pipeline) : PipelineEvent → Prop
  | .sending _ (some _) => s.kernel.desc socketFd ≠ none ∧ s.sending.writes = true
  | _ => False

/-- The threads' own steps in a process that SIGPIPE may end. -/
def Threaded (exec : Bytes → Bytes) : Option Pipeline → PipelineEvent → Option Pipeline → Prop :=
  Mortal (Inner exec) raisesSigpipe

/-- The tasks that have been accepted, and the one that will be next. -/
def taken (s : Pipeline) : List (Bytes × Bytes) := s.accepted ++ s.main.pending

/-- The finished tasks that the sending thread has not taken. -/
def left (s : Pipeline) : List Nat :=
  (s.finished.contents.filter fun t => t.inputFilename.isSome).map (·.seq)

/-- Every accepted task has been executed once, and then sent, given up or
left in `finished_task_queue`. -/
def Executed (s : Pipeline) : Prop :=
  s.started.Perm (List.range s.accepted.length) ∧
    (s.left ++ s.sent.map Prod.fst ++ s.abandoned).Perm (List.range s.accepted.length)

/-! ## A state without steps -/

theorem Accounts.executed (ha : s.Accounts) (htasks : s.tasks.contents = [])
    (htasking : ∀ i, s.tasking i = .exited ∨ s.tasking i = .pulling)
    (hsending : s.sending = .exited ∨ s.sending = .pulling) : s.Executed := by
  have hjobs : ∑ i, (s.tasking i).job = 0 := by
    refine Finset.sum_eq_zero fun i _ => ?_
    rcases htasking i with h | h <;> rw [h] <;> rfl
  have hjob : s.sending.job = 0 := by rcases hsending with h | h <;> rw [h] <;> rfl
  have hflight : s.inFlight = queued .finished s.finished.contents := by
    rw [inFlight, htasks, hjobs, hjob, queued_nil, zero_add, zero_add, add_zero]
  have hfresh : freshSeqs (queued .finished s.finished.contents) = 0 := by
    rw [freshSeqs, Multiset.filter_eq_nil.mpr, Multiset.map_zero]
    intro x hx
    obtain ⟨t, -, rfl⟩ := List.mem_map.mp (Multiset.mem_coe.mp hx)
    exact Bool.false_ne_true
  have hturns := ha.turns
  have hplaces := ha.places
  rw [Pipeline.turns, hflight, hfresh, zero_add] at hturns
  rw [Pipeline.places, hflight] at hplaces
  refine ⟨Multiset.coe_eq_coe.mp hturns, Multiset.coe_eq_coe.mp ?_⟩
  rw [← Multiset.coe_add, ← Multiset.coe_add]
  refine Eq.trans ?_ hplaces
  simp [left, queued, Function.comp_def]

/-- Outside of the receive loop, and at `queue_push` in it, a thread's step
comes from no one else. -/
theorem Step.inner (hs : Step exec s e s') (hown : e.own = true) (hexit : s.exit = none) :
    e.inner = true := by
  unfold Step handle at hs
  split at hs
  · cases hs
  · cases e with
    | request name payload =>
        simp only [Pipeline.request] at hs
        split at hs
        · rename_i hpc
          simp [Pipeline.exit, hpc] at hexit
        · cases hs
    | leave =>
        simp only [Pipeline.leave] at hs
        split at hs
        · rename_i hpc
          simp [Pipeline.exit, hpc] at hexit
        · cases hs
    | exit =>
        rw [hexit] at hs
        cases hs
    | wake th => cases hown
    | _ => rfl

theorem Moves.inner (h : Moves exec s th) (hth : th ≠ .main) : ∃ e s', Inner exec s e s' := by
  obtain ⟨e, s', hown, hthread, hs⟩ := h
  refine ⟨e, s', hs, ?_⟩
  cases e with
  | request | leave | exit => exact (hth (Option.some.inj hthread).symm).elim
  | wake => cases hown
  | _ => rfl

/-! ## Why the sending thread has exited -/

/-- The sending thread exits with a task it gives up or with its end marker,
which nobody pushes in the receive loop. -/
structure Gone (s : Pipeline) : Prop where
  sending : s.sending = .exited → s.abandoned ≠ [] ∨ ∃ t ∈ s.finished.pulled, t.inputFilename = none
  ends : s.main.inLoop = true → ∀ t ∈ s.finished.pushed, t.inputFilename ≠ none

theorem start_gone (resolve : Bytes → Bytes) (store : Bytes → Option Bytes) :
    (start resolve store).Gone where
  sending h := by cases h
  ends _ t ht := by cases ht

theorem MainCase.inLoop (h : MainCase s e s') (hin : s'.main.inLoop = true) :
    s.main.inLoop = true := by
  cases h with
  | exit | leave | kill | close | join | joined | joinSending | joinHeartbeat => cases hin
  | _ => simp [*, MainPc.inLoop]

theorem QueueCase.gone (h : QueueCase s s') (hg : s.Gone)
    (hheld : ∀ i t, s.tasking i = .returning t → t.inputFilename ≠ none) : s'.Gone := by
  obtain ⟨hsending, hends⟩ := hg
  cases h with
  | task q | take i t q | retire i t q => exact ⟨hsending, hends⟩
  | finish q hq hpushed hpulled =>
      exact ⟨by simpa only [hpulled] using hsending, by simpa only [hpushed] using hends⟩
  | accept t payload q hpc => exact ⟨hsending, fun _ => hends (by rw [hpc]; rfl)⟩
  | endTask i q hpc =>
      refine ⟨hsending, ?_⟩
      intro hin
      have hin' : MainPc.inLoop (if i + 1 < numThread then .ending (i + 1) else .endingSender)
        = true := hin
      split at hin' <;> cases hin'
  | endSender q hpc hcontents hpushed hpulled =>
      exact ⟨by simpa only [hpulled] using hsending, fun hin => by cases hin⟩
  | hand i t q hpc hcontents hpushed hpulled =>
      constructor
      · intro hex
        simp only [hpulled]
        exact hsending hex
      · intro hin u hu
        have hu' : u ∈ s.finished.pushed ++ [t] := hpushed ▸ hu
        rcases List.mem_append.mp hu' with hu' | hu'
        · exact hends hin u hu'
        · rw [List.mem_singleton.mp hu']
          exact hheld i t hpc
  | collect t q hpc hname hcontents hpushed hpulled =>
      refine ⟨?_, by simpa only [hpushed] using hends⟩
      intro hex
      cases hex
  | stop t q hpc hname hcontents hpushed hpulled =>
      refine ⟨fun _ => Or.inr ⟨t, ?_, hname⟩, by simpa only [hpushed] using hends⟩
      show t ∈ q.pulled
      rw [hpulled]
      exact List.mem_append_right _ (List.mem_singleton_self t)

theorem Gone.step (hg : s.Gone) (ha : s.Accounts) (hs : StepCase exec s e s') :
    s'.Gone := by
  obtain ⟨hsending, hends⟩ := hg
  cases hs with
  | main hs =>
      obtain ⟨heq, -, -⟩ := hs.frame
      constructor
      · rw [heq]
        exact hsending
      · intro hin
        rw [heq]
        exact hends (hs.inLoop hin)
  | tasking i hs =>
      obtain ⟨heq, -, -⟩ := hs.frame
      rw [heq]
      exact ⟨hsending, hends⟩
  | sending hs =>
      obtain ⟨heq, -⟩ := hs.frame
      constructor
      · intro hex
        cases hs with
        | giveUp t mem short k bs htask hk => exact Or.inl (by simp [Pipeline.giveUp])
        | _ => cases hex
      · rw [heq]
        exact hends
  | heartbeat hs =>
      rw [hs]
      exact ⟨hsending, hends⟩
  | queue hs =>
      refine hs.gone ⟨hsending, hends⟩ fun i t hpc => ?_
      have hmem : (t, Phase.finished) ∈ s.inFlight := by
        rw [inFlight_tasking s i, hpc]
        exact Multiset.mem_add.mpr (Or.inl (Multiset.mem_singleton_self _))
      exact (ha.named _ hmem).1

theorem Reachable.gone (h : Reachable exec s) : s.Gone := by
  obtain ⟨resolve, store, h⟩ := h
  have hall : s.Wired ∧ s.Accounts ∧ s.Gone := by
    refine h.invariant (I := fun s => s.Wired ∧ s.Accounts ∧ s.Gone)
      ⟨start_wired resolve store, start_accounts resolve store, start_gone resolve store⟩ ?_
    intro s e s' _ ⟨hw, ha, hg⟩ hs
    obtain ⟨hcase, hw', -⟩ := hw.step hs
    exact ⟨hw', ha.step hcase, hg.step ha hcase⟩
  exact hall.2.2

/-! ## The receive loop -/

/-- The main thread stays in its loop, unless the process exits, and what it
is at comes to be accepted. -/
theorem StepCase.taken (hs : StepCase exec s e s') (he : e.inner = true)
    (hin : s.main.inLoop = true) :
    s'.main = .exited ∨ s'.main.inLoop = true ∧ s'.taken = s.taken := by
  cases hs with
  | main hs =>
      cases hs with
      | exit => exact Or.inl rfl
      | request | leave => cases he
      | opened name payload hpc | store name fd rest payload hpc | stored name fd rest payload hpc
      | created name payload ok hpc =>
          exact Or.inr ⟨rfl, by simp [Pipeline.taken, hpc, MainPc.pending]⟩
      | kill hpc | close hpc | join i hpc | joined i hpc | joinSending hpc | joinHeartbeat hpc =>
          rw [hpc] at hin
          cases hin
  | tasking i hs =>
      obtain ⟨heq, -, -⟩ := hs.frame
      rw [heq]
      exact Or.inr ⟨hin, rfl⟩
  | sending hs =>
      obtain ⟨heq, -⟩ := hs.frame
      rw [heq]
      exact Or.inr ⟨hin, rfl⟩
  | heartbeat hs =>
      rw [hs]
      exact Or.inr ⟨hin, rfl⟩
  | queue hs =>
      cases hs with
      | accept t payload q hpc =>
          exact Or.inr ⟨rfl, by simp [Pipeline.taken, hpc, MainPc.pending]⟩
      | endTask i q hpc | endSender q hpc =>
          rw [hpc] at hin
          cases hin
      | _ => exact Or.inr ⟨hin, rfl⟩

theorem Ending.no_exits (hend : s.Ending) (hw : s.Wired) (ha : s.Accounts)
    (hin : s.main.inLoop = true) (i : Fin numThread) : s.tasking i ≠ .exited := by
  have hnone : s.main.endsPushed = 0 := by
    cases hm : s.main <;> rw [hm] at hin <;> first | rfl | cases hin
  intro hi
  have hle := hend.exits_le hw ha
  rw [hnone, Nat.le_zero, Finset.card_eq_zero] at hle
  have := mem_exits.mpr hi
  rw [hle] at this
  exact absurd this (Finset.notMem_empty i)

/-- What holds of a state in the loop in which no thread can take a step: the main
thread is at its socket, every accepted task has been executed, and if the
sending thread has given up none, it has taken all there are. -/
def Settled (s : Pipeline) : Prop :=
  s.main = .receiving ∧ s.Executed ∧ (s.abandoned = [] → s.left = [])

theorem Settled.answered (h : s.Settled) (hgiven : s.abandoned = []) :
    s.sent.length = s.accepted.length := by
  obtain ⟨-, ⟨-, hperm⟩, hleft⟩ := h
  have hlen := hperm.length_eq
  rw [hleft hgiven, hgiven, List.nil_append, List.append_nil, List.length_map,
    List.length_range] at hlen
  exact hlen

theorem Gone.left (hg : s.Gone) (hw : s.Wired) (hin : s.main.inLoop = true)
    (habandoned : s.abandoned = [])
    (hsending : s.sending = .exited ∨ s.sending = .pulling ∧ s.finished.contents = []) :
    s.left = [] := by
  rcases hsending with hex | ⟨-, hnil⟩
  · obtain hne | ⟨t, ht, hname⟩ := hg.sending hex
    · exact (hne habandoned).elim
    · refine (hg.ends hin t ?_ hname).elim
      rw [← hw.finished_history]
      exact List.mem_append_left _ ht
  · rw [Pipeline.left, hnil]
    rfl

theorem settled_or_inner (hw : s.Wired) (ha : s.Accounts) (hend : s.Ending) (hg : s.Gone)
    (hin : s.main.inLoop = true) : s.Settled ∨ ∃ e s', Inner exec s e s' := by
  have hlive : s.main ≠ .exited ∧ s.main ≠ .done := by
    constructor <;> intro hm <;> rw [hm] at hin <;> cases hin
  by_cases hgo : ∃ e s', Inner exec s e s'
  · exact Or.inr hgo
  left
  have stuck {e : PipelineEvent} (he : e.inner = true)
      (h : ∃ s', s.handle exec e = some s') : False := by
    obtain ⟨s', hs'⟩ := h
    exact hgo ⟨e, s', hs', he⟩
  have htasking (i) : s.tasking i = .pulling ∧ s.tasks.contents = [] :=
    ((hw.tasking_rest ha hlive i).resolve_left fun hm => hgo (hm.inner nofun)).resolve_left
      (hend.no_exits hw ha hin i)
  have hsending := (hw.sending_rest ha hlive).resolve_left fun hm => hgo (hm.inner nofun)
  cases hpc : s.main with
  | receiving =>
      exact ⟨hpc, ha.executed (htasking 0).2 (fun i => Or.inr (htasking i).1)
        (hsending.imp_right And.left), fun habandoned => hg.left hw hin habandoned hsending⟩
  | opening name payload =>
      refine (stuck (e := .openFile true) rfl ?_).elim
      rw [handle_of_live hlive]
      simp only [openFile, hpc]
      split <;> exact ⟨_, rfl⟩
  | storing name fd rest payload =>
      refine (stuck (e := .main) rfl ?_).elim
      rw [handle_of_live hlive]
      simp only [mainStep, hpc]
      split <;> exact ⟨_, rfl⟩
  | creating name payload =>
      refine (stuck (e := .createOutput true) rfl ?_).elim
      rw [handle_of_live hlive]
      simp only [createOutput, hpc]
      exact ⟨_, rfl⟩
  | pushing t payload =>
      have hop : s.taskOp .main = some (.push t) := by simp [taskOp, hpc]
      have hprogress : Moves exec s .main ∨ _ := hw.task_progress hlive hop
      rcases hprogress with hm | hwaiting
      · obtain ⟨e, s', hown, -, hs⟩ := hm
        exact (hgo ⟨e, s', hs, hs.inner hown (by simp [Pipeline.exit, hpc])⟩).elim
      · -- The queue it waits for would be full and empty.
        have hfull := (hw.tasks.pushers _ _ hwaiting).2
        rw [hw.taskMax, (htasking 0).2] at hfull
        exact absurd hfull (by decide)
  | _ =>
      rw [hpc] at hin
      cases hin

theorem settles_alive (h : Reachable exec s) (hin : s.main.inLoop = true) :
    Inevitable (Inner exec)
      (fun s' => s'.main = .exited ∨ s'.Settled ∧ s'.accepted = s.taken) s := by
  obtain ⟨hw, ha, hend⟩ := h.ending
  refine inevitable_of_rank (I := fun s' => s'.Wired ∧ s'.Accounts ∧ s'.Ending ∧ s'.Gone ∧
    (s'.main = .exited ∨ s'.main.inLoop = true ∧ s'.taken = s.taken))
    (Prod.instWellFoundedRelation.wf) rank ?_ ?_ ⟨hw, ha, hend, h.gone, Or.inr ⟨hin, rfl⟩⟩
  · rintro s₁ e s₂ ⟨hw, ha, hend, hg, hm⟩ ⟨hs, he⟩
    obtain ⟨hcase, hw', hlive, -⟩ := hw.step hs
    obtain ⟨hin, htaken⟩ := hm.resolve_left hlive
    refine ⟨⟨hw', ha.step hcase, hend.step hcase, hg.step ha hcase, ?_⟩, hs.lower hw ha he⟩
    rw [← htaken]
    exact hcase.taken he hin
  · rintro s₁ ⟨hw, ha, hend, hg, hm⟩
    rcases hm with hexited | ⟨hin, htaken⟩
    · exact Or.inl (Or.inl hexited)
    · refine (settled_or_inner hw ha hend hg hin).imp_left fun hsettled => Or.inr ⟨hsettled, ?_⟩
      rw [← htaken, Pipeline.taken, hsettled.1]
      exact (List.append_nil _).symm

theorem StepCase.leaves (hs : StepCase exec s e s') (hin : s.main.inLoop = false)
    (hlive : s.main ≠ .exited) :
    s'.main.inLoop = false ∧ s'.main ≠ .exited ∧ s'.accepted = s.accepted := by
  cases hs with
  | main hs =>
      cases hs with
      | exit e hpc =>
          rw [hin] at hpc
          cases hpc
      | request name payload hpc | leave hpc | opened name payload hpc
      | store name fd rest payload hpc | stored name fd rest payload hpc
      | created name payload ok hpc =>
          rw [hpc] at hin
          cases hin
      | _ => exact ⟨rfl, nofun, rfl⟩
  | tasking i hs =>
      obtain ⟨heq, -, -⟩ := hs.frame
      rw [heq]
      exact ⟨hin, hlive, rfl⟩
  | sending hs =>
      obtain ⟨heq, -⟩ := hs.frame
      rw [heq]
      exact ⟨hin, hlive, rfl⟩
  | heartbeat hs =>
      rw [hs]
      exact ⟨hin, hlive, rfl⟩
  | queue hs =>
      cases hs with
      | accept t payload q hpc =>
          rw [hpc] at hin
          cases hin
      | endTask i q hpc =>
          show MainPc.inLoop (if i + 1 < numThread then .ending (i + 1) else .endingSender) = false ∧
            (if i + 1 < numThread then MainPc.ending (i + 1) else .endingSender) ≠ .exited ∧ _
          split <;> exact ⟨rfl, nofun, rfl⟩
      | endSender q hpc => exact ⟨rfl, nofun, rfl⟩
      | _ => exact ⟨hin, hlive, rfl⟩

/-- When each tasking thread has pulled an end marker, `task_queue` is empty:
the last thing in it would be a marker. -/
theorem Ending.drained (hend : s.Ending) (hw : s.Wired) (ha : s.Accounts)
    (hm : s.main.endsPushed = numThread) (hall : ∀ i, s.tasking i = .exited) :
    s.tasks.contents = [] := by
  have hmarkers := ha.markers
  rw [← hw.task_history, List.countP_append, hend.markers, card_exits_of_all hall, hm] at hmarkers
  obtain ⟨ts, hpushed, -⟩ := ha.pushed
  rw [hm, ← hw.task_history] at hpushed
  rcases List.eq_nil_or_concat s.tasks.contents with hnil | ⟨us, t, hcons⟩
  · exact hnil
  · rw [List.concat_eq_append] at hcons
    have hlast : t = endTask := by
      have := congrArg List.getLast? hpushed
      rw [hcons, ← List.append_assoc, List.getLast?_concat, List.getLast?_append,
        show numThread = 4 + 1 from rfl, List.replicate_succ', List.getLast?_concat] at this
      exact Option.some.inj this
    rw [hcons, hlast, List.countP_append] at hmarkers
    have hone : [endTask].countP WorkerTask.isEnd = 1 := rfl
    omega

/-- Where `worker_main` returns. Each tasking thread has pulled one end marker and
been joined, so has the sending thread, and `task_queue` is empty. -/
structure Finished (s : Pipeline) : Prop where
  main : s.main = .done
  tasking : ∀ i, s.tasking i = .exited ∧ s.ends i = 1
  sending : s.sending = .exited
  heartbeat : s.heartbeatExited = true
  tasks : s.tasks.contents = []
  executed : s.Executed

theorem Ending.finished (hend : s.Ending) (hw : s.Wired) (ha : s.Accounts)
    (hdone : s.main = .done) : s.Finished := by
  have hall : ∀ i, s.tasking i = .exited := fun i => hend.joined i (by rw [hdone]; rfl) i.isLt
  have hsending := hend.joinedSending (by rw [hdone]; rfl)
  have htasks := hend.drained hw ha (by rw [hdone]; rfl) hall
  exact ⟨hdone, fun i => ⟨hall i, by rw [hend.ends i, if_pos (hall i)]⟩, hsending,
    hend.done hdone, htasks, ha.executed htasks (fun i => Or.inl (hall i)) (Or.inl hsending)⟩

theorem finished_or_inner (hw : s.Wired) (ha : s.Accounts) (hend : s.Ending)
    (hin : s.main.inLoop = false) (hlive : s.main ≠ .exited) :
    s.Finished ∨ ∃ e s', Inner exec s e s' := by
  by_cases hdone : s.main = .done
  · exact Or.inl (hend.finished hw ha hdone)
  · right
    have hexit : s.exit = none := by
      cases hm : s.main with
      | receiving | opening _ _ | storing _ _ _ _ | creating _ _ | pushing _ _ =>
          rw [hm] at hin
          cases hin
      | _ => simp [Pipeline.exit, hm]
    have inner (h : Progress exec s) : ∃ e s', Inner exec s e s' := by
      obtain ⟨e, s', hown, hs⟩ := h
      exact ⟨e, s', hs, hs.inner hown hexit⟩
    by_contra hstuck
    have htasking (i) := (hw.tasking_progress ha ⟨hlive, hdone⟩ i).resolve_left fun hm =>
      hstuck (inner hm.progress)
    have hsending := (hw.sending_progress ha ⟨hlive, hdone⟩).resolve_left fun hm =>
      hstuck (inner hm.progress)
    exact hstuck (inner (hw.main_progress ha hend ⟨hlive, hdone⟩ hin htasking hsending))

theorem finishes_alive (h : Reachable exec s) (hleft : s.main.inLoop = false)
    (hlive : s.main ≠ .exited) :
    Inevitable (Inner exec) (fun s' => s'.Finished ∧ s'.accepted = s.accepted) s := by
  obtain ⟨hw, ha, hend⟩ := h.ending
  refine inevitable_of_rank (I := fun s' => s'.Wired ∧ s'.Accounts ∧ s'.Ending ∧
    s'.main.inLoop = false ∧ s'.main ≠ .exited ∧ s'.accepted = s.accepted)
    (Prod.instWellFoundedRelation.wf) rank ?_ ?_ ⟨hw, ha, hend, hleft, hlive, rfl⟩
  · rintro s₁ e s₂ ⟨hw, ha, hend, hin, hlive, hacc⟩ ⟨hs, he⟩
    obtain ⟨hcase, hw', -, -⟩ := hw.step hs
    obtain ⟨hin', hlive', hacc'⟩ := hcase.leaves hin hlive
    exact ⟨⟨hw', ha.step hcase, hend.step hcase, hin', hlive', hacc'.trans hacc⟩,
      hs.lower hw ha he⟩
  · rintro s₁ ⟨hw, ha, hend, hin, hlive, hacc⟩
    exact (finished_or_inner hw ha hend hin hlive).imp_left fun hf => ⟨hf, hacc⟩

/-- The socket is shut but not closed, and a result is about to be sent. -/
example : ∃ s, Reachable id s ∧ s.main = .closing ∧
    ∃ mem, s.raisesSigpipe (.sending mem (some 0)) := by
  have hexec : execRun id
      (requested [97] [1] 0 ++ through (.tasking 0) 0 ++ List.replicate 4 (.tasking 0 0)
        ++ through (.tasking 0) 0 ++ through .sending 0 ++ [.leave, .main])
      (fun s => (s.main, decide (s.kernel.desc socketFd ≠ none), s.sending.writes))
        = some (.closing, true, true) := by decide +kernel
  obtain ⟨s, hr, hv⟩ := execRun_spec hexec
  simp only [Prod.mk.injEq, decide_eq_true_eq] at hv
  obtain ⟨hmain, hopen, hwrites⟩ := hv
  exact ⟨s, hr, hmain, fun _ => 0, hopen, hwrites⟩

end Pipeline

end KeyLime
