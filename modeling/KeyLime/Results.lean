import KeyLime.Conservation

/-!
# At most one result for a task

The master forwards a result whether or not `scheduler_remove_task` has
found a task for it. A run in which it always does find one forwards at
most one result for each task; a task sent out twice is enough for one in
which it does not.

The invariant is that of each name no more results have been forwarded than
tasks of it removed (`Answered`). With the conservation of tasks the removed ones
are among those made, each once, and if the names of these are distinct so are
the names of the results.

The condition (`answersListed`) is on the event and the state before it: a result
that ends in the event is for a task on the list of its connection. A worker that
falls silent and answers late breaks it: its task is on the list of another one
by then (`result_forwarded_twice`).
-/

namespace KeyLime

namespace Master

variable {m m' m₁ : Master} {fd : Int} {p : Nat} {io : DataIo} {e : Event}

def resultNames (l : List Obs) : List Bytes :=
  l.filterMap fun
    | .forward _ false _ _ name _ _ => some name
    | _ => none

/-- A result that ends in the event is one for a task on the list of its
connection. -/
def answersListed (m : Master) : Event → Bool
  | .data fd arrived _ =>
      match m.completes fd arrived with
      | some (p, v, name, _) =>
          decide (m.Submits fd p v) || decide (name ∈ (m.heap p).tasks.map Task.fileName)
      | none => true
  | _ => true

/-- Of each name, no more results have been forwarded than tasks removed. -/
def Answered (m : Master) : Prop :=
  ∀ name, (resultNames m.log).count name
    ≤ (removedTasks m.log).countP fun t => t.fileName = name

theorem resultNames_append (l l' : List Obs) :
    resultNames (l ++ l') = resultNames l ++ resultNames l' :=
  List.filterMap_append

theorem Answered.quiet (h : Answered m) {l : List Obs} (hlog : m'.log = m.log ++ l)
    (hl : resultNames l = []) : Answered m' := fun name => by
  rw [hlog, resultNames_append, removedTasks_append, hl, List.append_nil, List.countP_append]
  exact (h name).trans (Nat.le_add_right _ _)

theorem ParserOnly.answered (hp : ParserOnly p m m₁) (h : Answered m) : Answered m₁ := by
  obtain ⟨l, hl, ho⟩ := hp.log
  refine h.quiet hl (List.filterMap_eq_nil_iff.mpr fun o hmem => ?_)
  rcases ho o hmem with ⟨_, _, _, rfl⟩ | ⟨_, rfl⟩ <;> rfl

theorem answered_answered {name : Bytes} {ret : Ret} {k : Kernel} {t : Task}
    (h : Answered m) (hfd : fd ≠ m.interfaceFd) (hn : (m.heap p).tempFileName = some name)
    (ht : m.answeredTask (m.heap p).workerFd name = some t) (htn : t.fileName = name) :
    Answered ((m.answered p name).forwarded fd p ret k) := by
  obtain ⟨ts, hself⟩ := answered_self (m := m) (p := p) name
  have hlog := forwarded_log (m := m.answered p name) (p := p) fd ret k
  have hflag : decide (fd = (m.answered p name).interfaceFd) = false := by
    rw [answered_interfaceFd]
    simpa using hfd
  rw [answered_log, List.append_assoc, ht, hself, hflag, hn] at hlog
  intro name'
  have h0 := h name'
  have h1 : resultNames ((m.answered p name).forwarded fd p ret k).log
      = resultNames m.log ++ [name] := by
    rw [hlog, resultNames_append]
    rfl
  have h2 : removedTasks ((m.answered p name).forwarded fd p ret k).log
      = removedTasks m.log ++ [t] := by
    rw [hlog, removedTasks_append]
    rfl
  rw [h1, h2, List.count_append, List.countP_append, List.count_singleton, List.countP_singleton,
    htn]
  simp only [beq_iff_eq, decide_eq_true_eq]
  omega

theorem Step.answered (hr : Reachable m) (h : Answered m) (hs : Step m e m')
    (hc : m.answersListed e = true) : Answered m' := by
  cases e with
  | data fd arrived io =>
      obtain ⟨p, hat, hready0, hr0, hat0, -, hcase⟩ := hs.call hr
      rcases hcase with ⟨-, rfl⟩ | ⟨halive, hcase⟩
      · exact h
      · cases hcase with
        | unfinished f hpar hst heq =>
            exact heq ▸ (parsePhase_parserOnly hpar).answered (m := m.arriving fd arrived) h
        | dropped m₁ hpar hst hfd hal heq =>
            exact heq ▸ (parsePhase_parserOnly hpar).answered (m := m.arriving fd arrived) h
        | submitted m₁ name ret k hpar hst hname hfd hput heq =>
            have h1 := (parsePhase_parserOnly hpar).answered (m := m.arriving fd arrived) h
            have hlog := forwarded_log (m := m₁.submitted p name) (p := p) fd ret k
            have hifd : (m₁.submitted p name).interfaceFd = m₁.interfaceFd :=
              (submitted_same (hr0.change hat0 (parsePhase_change hr0 hat0 hpar)).ranged
                name).interfaceFd
            rw [submitted_log, List.append_assoc, ← heq, hifd, decide_eq_true hfd] at hlog
            exact h1.quiet hlog rfl
        | answered m₁ name ret k hpar hst hname hfd hal hput heq =>
            have h1 := (parsePhase_parserOnly hpar).answered (m := m.arriving fd arrived) h
            have hchange := parsePhase_change hr0 hat0 hpar
            have hr1 : Registry m₁ := hr0.change hat0 hchange
            have hat1 := hat0.change hr0 hchange
            obtain ⟨v, name', got, hcomp⟩ := parsePhase_complete hready0 hat0 halive hpar hst
            obtain rfl := Option.some.inj (hname.symm.trans hcomp.name)
            have hlisted : name ∈ (m₁.heap p).tasks.map Task.fileName := by
              rw [answersListed, hcomp.completes hat.current] at hc
              rw [show (m₁.heap p).tasks = (m.heap p).tasks from (parsePhase_parserOnly hpar).tasks p]
              rcases (Bool.or_eq_true _ _).mp hc with h | h
              · exact (hfd ((hcomp.interface_iff hr0 hat0 hpar hst).mpr (of_decide_eq_true h))).elim
              · exact of_decide_eq_true h
            obtain ⟨t, ht, htn⟩ := (hat1.answeredTask_iff hr1 hfd).mpr hlisted
            rw [heq]
            exact answered_answered h1 hfd hname (hat1.workerFd.symm ▸ ht) htn
  | _ =>
      obtain ⟨l, hl, ho⟩ := hs.passes hr.registry nofun
      refine h.quiet hl (List.filterMap_eq_nil_iff.mpr fun o hmem => ?_)
      rcases ho o hmem with ⟨_, _, -, rfl⟩ | ⟨_, _, _, rfl⟩ <;> rfl

theorem ReachableWithin.answered (h : ReachableWithin (fun m e _ => m.answersListed e = true) m) :
    Answered m :=
  h.invariant (fun _ _ => Nat.le_refl 0)
    fun _ _ _ hr hi hs hc => Step.answered hr.reachable hi hs hc

/-- **At most one result.** In a run in which every result is one for a task
on the list of its connection, and the submitted names are pairwise
distinct, no result is forwarded twice. Each result takes a task off its list
then, and of each name one task has been made; without the condition the second
copy of a result is forwarded like the first. -/
theorem results_nodup (h : ReachableWithin (fun m e _ => m.answersListed e = true) m)
    (hnames : ((madeTasks m.log).map Task.fileName).Nodup) : (resultNames m.log).Nodup := by
  refine List.nodup_iff_count_le_one.mpr fun name => ?_
  have h1 := h.answered name
  have h2 := h.reachable.conserved.tally fun t => t.fileName = name
  have h3 := List.nodup_iff_count_le_one.mp hnames name
  rw [List.count, List.countP_map] at h3
  have h4 : (madeTasks m.log).countP ((fun x => x == name) ∘ Task.fileName)
      = (madeTasks m.log).countP fun t => t.fileName = name :=
    List.countP_congr fun t _ => by simp
  omega

/-- A task is sent to a worker, which answers it. -/
theorem results_nodup_one :
    ∃ m, ReachableWithin (fun m e _ => m.answersListed e = true) m
      ∧ resultNames m.log = [[97]] ∧ (resultNames m.log).Nodup := by
  obtain ⟨m, hr, hv⟩ := execWithin_spec (c := answersListed) id (v := true)
    ([.accept [⟨5, [], default⟩, ⟨6, [], default⟩], .data 5 (submitFrame.map .byte) {},
      .data 6 (resultFrame.map .byte) {}])
    (f := fun m => decide (resultNames m.log = [[97]]
      ∧ ((madeTasks m.log).map Task.fileName).Nodup)) (by decide +kernel)
  obtain ⟨hres, hnames⟩ := of_decide_eq_true hv
  exact ⟨m, hr, hres, results_nodup hr hnames⟩

/-- The interface on 5 submits 1 and 2, which go to the workers on 6 and
on 7. The one on 6 falls silent, and 1 goes to 7 as well, as an empty file.
Then both workers are heard of again, and both answer what they were sent;
the empty answer is forwarded when the next one comes. -/
def bothAnswer : List Event :=
  [.accept [⟨5, [5], default⟩, ⟨6, [6], default⟩, ⟨7, [7], default⟩],
    .data 5 ((frame interfacePutVerb [1] [10, 11]).map .byte) {},
    .data 5 ((frame interfacePutVerb [2] [12]).map .byte) {},
    .heartbeat [6] (1 / 2) 10,
    .detect 14 default fun _ => [],
    .heartbeat [6] (1 / 2) 15,
    .data 6 ((frame putVerb [1] [20, 21]).map .byte) {},
    .data 7 ((frame putVerb [1] []).map .byte) {},
    .heartbeat [7] (1 / 2) 16,
    .data 7 ((frame putVerb [2] [22]).map .byte) {}]

theorem result_forwarded_twice :
    ∃ m, Reachable m ∧ (init id).execWithin (fun _ _ => true) bothAnswer = some m
      ∧ (madeTasks m.log).map Task.fileName = [[1], [2]]
      ∧ m.kernel.sent 6 = frame putVerb [1] [10, 11]
      ∧ m.kernel.sent 7 = frame putVerb [2] [12] ++ frame putVerb [1] []
      ∧ m.kernel.sent 5 = frame putVerb [1] [20, 21] ++ frame putVerb [1] []
      ∧ resultNames m.log = [[1], [1]] ∧ ¬ (resultNames m.log).Nodup := by
  have hv : ((init id).execWithin (fun _ _ => true) bothAnswer).map (fun m =>
      decide ((madeTasks m.log).map Task.fileName = [[1], [2]]
        ∧ m.kernel.sent 6 = frame putVerb [1] [10, 11]
        ∧ m.kernel.sent 7 = frame putVerb [2] [12] ++ frame putVerb [1] []
        ∧ m.kernel.sent 5 = frame putVerb [1] [20, 21] ++ frame putVerb [1] []
        ∧ resultNames m.log = [[1], [1]] ∧ ¬ (resultNames m.log).Nodup)) = some true := by
    decide +kernel
  obtain ⟨m, hm, hv⟩ := Option.map_eq_some_iff.mp hv
  exact ⟨m, ReachableWithin.reachable ⟨id, execWithin_reach .refl hm⟩, hm, of_decide_eq_true hv⟩

end Master

end KeyLime
