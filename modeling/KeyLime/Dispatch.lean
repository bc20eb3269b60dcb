import KeyLime.Journal
import KeyLime.Resending

/-!
# Where a task is

`schedule` reports a descriptor for every task it is given, and the history
shows it. In every run the last report tells where the task is: on the list
of a record with that descriptor, or, when it was -1, on `task_list`, until
an answer on that descriptor takes it off. Recovery does not disturb that,
though it has a task on two lists for a while.

`Traced` is the invariant: the ledger of the lists is filed under the reports in
the history. Each call is looked at with the lemmas of `Journal`:

* a submission places a task that is new, which nothing has been reported of;
* an answer takes one off, and reports nothing;
* `reschedule` places the task of the dead record again, and then takes it off
  there. In between the task is on two lists, and `Filed.move` is about the two
  together.

A pass in which `vector_erase` gets outside of its vector leads to no state, and
nothing is said of what would come behind it.
-/

namespace KeyLime

open Bookkeeping

namespace Master

variable {m m' m₁ : Master} {fd : Int} {p q : Nat} {io : DataIo} {e : Event} {t : Task}
  {l l' : List Obs} {name : Bytes}

/-- What `schedule` reported, with the tasks. -/
def placements (l : List Obs) : List (Task × Int) :=
  l.filterMap fun
    | .scheduled t r => some (t, r)
    | _ => none

theorem placements_append : placements (l ++ l') = placements l ++ placements l' :=
  List.filterMap_append

theorem map_placements (l : List Obs) : (placements l).map Prod.fst = scheduledTasks l := by
  rw [placements, List.map_filterMap, scheduledTasks]
  congr 1
  funext o
  cases o <;> rfl

/-- What `schedule` reports for a place. -/
def placeFd (m : Master) : Option Nat → Int
  | none => -1
  | some q => (m.heap q).workerFd

theorem target_eq : m.target = m.placeFd m.bestWorker := by
  unfold target placeFd
  cases m.bestWorker <;> rfl

def Traced (m : Master) : Prop := m.ledger.Filed m.placeFd (placements m.log)

theorem Traced.of_ledger (h : Traced m) (hled : m'.ledger = m.ledger)
    (hlog : placements m'.log = placements m.log)
    (hfd : ∀ q < m.nextWorker, (m'.heap q).workerFd = (m.heap q).workerFd) : Traced m' := by
  rw [Traced, hled, hlog]
  exact h.congr hfd rfl

theorem Conserved.once (hc : Conserved m) (t : Task) : m.ledger.tally (· = t) ≤ 1 := by
  have hle := List.nodup_iff_count_le_one.mp hc.nodup t
  have htally := hc.tally (· = t)
  have hcount : (madeTasks m.log).count t = (madeTasks m.log).countP (· = t) :=
    List.countP_congr fun x _ => by simp
  omega

theorem Conserved.new (hc : Conserved m) (name : Bytes) :
    ¬ m.ledger.Holds (m.newTask p name) := fun hholds => by
  have hpos := Ledger.holds_iff_tally.mp hholds
  have htally := hc.tally (· = m.newTask p name)
  have hmade : 0 < (madeTasks m.log).countP (· = m.newTask p name) := by omega
  obtain ⟨t, ht, heq⟩ := List.countP_pos_iff.mp hmade
  have hlt := hc.lt t ht
  rw [of_decide_eq_true heq] at hlt
  exact Nat.lt_irrefl _ hlt

/-! ## A call -/

theorem ParserOnly.placements (h : ParserOnly p m m') :
    placements m'.log = placements m.log := by
  obtain ⟨l, hl, ho⟩ := h.log
  have hnil : Master.placements l = [] := List.filterMap_eq_nil_iff.mpr fun o hmem => by
    rcases ho o hmem with ⟨_, _, _, rfl⟩ | ⟨_, rfl⟩ <;> rfl
  rw [hl, placements_append, hnil, List.append_nil]

theorem ParserOnly.traced (hp : ParserOnly p m m') (h : Traced m) : Traced m' :=
  h.of_ledger hp.ledger hp.placements fun q _ => hp.workerFd q

theorem Traced.submitted (h : Traced m) (hr : Registry m) (hc : Conserved m) (name : Bytes) :
    Traced (m.submitted p name) := by
  have hs : Same m (m.submitted p name) := submitted_same hr.ranged name
  have hlog : placements (m.submitted p name).log
      = placements m.log ++ [(m.newTask p name, m.placeFd m.bestWorker)] := by
    rw [submitted_log, placements_append, target_eq]
    rfl
  rw [Traced, submitted_ledger, hlog]
  refine (h.place (hc.new name)).congr (fun q _ => hs.workerFd q) rfl

theorem Traced.answered (h : Traced m) (hr : Registry m) (name : Bytes) :
    Traced (m.answered p name) := by
  have hs : Same m (m.answered p name) := answered_same hr.ranged name
  have hlog : placements (m.answered p name).log = placements m.log := by
    rw [answered_log, placements_append]
    exact List.append_nil _
  rw [Traced, answered_ledger, schedulerRemoveTask_ledger, hlog]
  cases m.finds (m.heap p).workerFd name with
  | none => exact h.congr (fun q _ => hs.workerFd q) rfl
  | some qi => exact h.take.congr (fun q _ => hs.workerFd q) rfl

theorem Traced.forwarded (h : Traced m) (ret : Ret) (k : Kernel) :
    Traced (m.forwarded fd p ret k) := by
  refine h.of_ledger (forwarded_ledger ret k) ?_ fun q _ => ?_
  · rw [forwarded_log, placements_append]
    exact List.append_nil _
  · by_cases hq : q = p
    · rw [hq, forwarded_self]
      rfl
    · rw [forwarded_others ret k hq]

theorem CallCase.traced (hr : Registry m) (hat : At m fd p) (hc : Conserved m)
    (hcase : CallCase fd p io m m') (h : Traced m) : Traced m' := by
  have hmid : ∀ {f : Flow}, m.parsePhase fd p io.recv = some f →
      Registry f.master ∧ Conserved f.master ∧ Traced f.master := fun hpar =>
    ⟨hr.change hat (parsePhase_change hr hat hpar), (parsePhase_parserOnly hpar).conserved hc,
      (parsePhase_parserOnly hpar).traced h⟩
  cases hcase with
  | unfinished f hpar hst heq => exact heq ▸ (hmid hpar).2.2
  | dropped m₁ hpar hst hfd hal heq => exact heq ▸ (hmid hpar).2.2
  | submitted m₁ name ret k hpar hst hname hfd hput heq =>
      obtain ⟨hr1, hc1, h1⟩ := hmid hpar
      exact heq ▸ (h1.submitted hr1 hc1 name).forwarded ret k
  | answered m₁ name ret k hpar hst hname hfd hal hput heq =>
      obtain ⟨hr1, -, h1⟩ := hmid hpar
      exact heq ▸ (h1.answered hr1 name).forwarded ret k

/-! ## A pass -/

theorem Traced.reschedule {mem : Worker} {ios : List ResendIo} (h : Traced m) (hr : Registry m)
    (hp : p < m.nextWorker) (hone : ∀ t, m.ledger.tally (· = t) ≤ 1)
    (hal : (m.heap p).alive = false) (hs : m.reschedule p mem ios = some m') : Traced m' := by
  have hsame : Same m m' := reschedule_same hr.ranged hal hs
  rcases reschedule_moves hal hs with rfl | ⟨t, ret, htasks, hled, hlog⟩
  · exact h
  · have h0 : (m.ledger.lists p)[0]? = some t := by
      show (m.heap p).tasks[0]? = some t
      rw [htasks]
      rfl
    have hplace : placements m'.log = placements m.log ++ [(t, m.placeFd m.bestWorker)] := by
      rw [hlog, placements_append, target_eq]
      rfl
    rw [Traced, hled, hplace]
    exact (h.move hp h0 (hone t) (bestWorker_ne hal)).congr (fun q _ => hsame.workerFd q) rfl

theorem Traced.detectPass {now : ℚ} {mem : Worker} {ios : Nat → List ResendIo} :
    ∀ {ps : List Nat} {m : Master}, Traced m → Registry m → (∀ p ∈ ps, p < m.nextWorker) →
      (∀ t, m.ledger.tally (· = t) ≤ 1) → m.detectPass now mem ios ps = some m' → Traced m'
  | [], m, h, _, _, _, hs => by
      obtain rfl := Option.some.inj hs
      exact h
  | p :: ps, m, h, hr, hlt, hone, hs => by
      have hr0 := hr.same (same_of_kernel (lock_unlock_extends hr.ranged))
      have h0 : Traced { m with kernel := m.kernel.lock.unlock } := h
      rw [Master.detectPass] at hs
      split at hs
      · obtain ⟨m₁, h1, h2⟩ := Option.bind_eq_some_iff.mp hs
        have hflip := set_same (p := p) (w := { m.heap p with alive := false }) hr0.ranged
          ⟨rfl, rfl, rfl, rfl, rfl, by simp⟩
        have hled : (Master.set { m with kernel := m.kernel.lock.unlock } p
            { m.heap p with alive := false }).ledger = m.ledger :=
          ledger_congr rfl (fun q => by
            by_cases hq : q = p
            · rw [hq]
              simp
            · simp [set, hq]) rfl
        have hp := hlt p (List.mem_cons_self ..)
        have hr1 := hr0.same hflip
        have hs1 := reschedule_same hr1.ranged (by simp) h1
        have htraced := (h0.of_ledger hled rfl fun q _ => hflip.workerFd q).reschedule hr1 hp
          (hled ▸ hone) (by simp) h1
        refine htraced.detectPass (hr1.same hs1) (fun q hq => ?_) (fun t => ?_) h2
        · rw [hs1.nextWorker]
          exact hlt q (List.mem_cons_of_mem _ hq)
        · rw [reschedule_tally _ hr1 hp (by simp) h1, hled]
          exact hone t
      · exact h0.detectPass hr0 (fun q hq => hlt q (List.mem_cons_of_mem _ hq)) hone hs

/-! ## Every run -/

theorem Step.traced (hr : Reachable m) (h : Traced m) (hs : Step m e m') : Traced m' := by
  cases e with
  | accept cs =>
      obtain rfl := Option.some.inj hs.2
      refine acceptConnections_invariant (fun m c hm => ?_) h
      have hfd : ∀ q < m.nextWorker, (m.acceptOne c).placeFd (some q) = m.placeFd (some q) :=
        fun q hq => congrArg Worker.workerFd (acceptOne_of_ne c hq.ne)
      rw [Traced, acceptOne_ledger]
      exact (Ledger.Filed.congr hm hfd rfl).extend
  | data fd arrived io =>
      obtain ⟨p, -, -, hr0, hat0, -, hcase⟩ := hs.call hr
      have h0 : Traced (m.arriving fd arrived) := h
      have hc0 : Conserved (m.arriving fd arrived) :=
        ⟨hr.conserved.tally, hr.conserved.nodup, hr.conserved.lt⟩
      rcases hcase with ⟨-, rfl⟩ | ⟨-, hcase⟩
      · exact h0
      · exact hcase.traced hr0 hat0 hc0 h0
  | heartbeat addr usage now =>
      obtain rfl := Option.some.inj hs.2
      have hsame := reportHeartbeat_same hr.registry.ranged addr usage now
      exact h.of_ledger (reportHeartbeat_ledger addr usage now)
        (by rw [reportHeartbeat_log]) fun q _ => hsame.workerFd q
  | detect now mem ios =>
      exact h.detectPass hr.registry hr.registry.lt hr.conserved.once hs.2

theorem init_traced (resolve : Bytes → Bytes) : Traced (init resolve) :=
  ⟨fun _ hi => (Nat.not_lt_zero _ hi).elim, fun _ ht => (List.not_mem_nil ht).elim⟩

theorem Reachable.traced (h : Reachable m) : Traced m :=
  h.invariant init_traced fun _ _ _ hr hp hs => hs.traced hr hp

theorem Step.removed (hr : Reachable m) (hs : Step m e m')
    (ho : .removed fd name (some t) ∈ newLog m m') :
    ∃ q < m.nextWorker, t ∈ (m.heap q).tasks ∧ (m.heap q).workerFd = fd := by
  have hno : ∀ p, ¬ OfParser p (.removed fd name (some t)) := by
    rintro p (⟨_, _, _, h⟩ | ⟨_, h⟩) <;> cases h
  cases e with
  | data fd' arrived io =>
      obtain ⟨p, hat, -, hr0, hat0, -, hcase⟩ := hs.call hr
      have hnone : ∀ {m₁ : Master}, ParserOnly p (m.arriving fd' arrived) m₁ → m' = m₁ → False :=
        fun hp heq => nomatch hp.mem_rest (l := []) (heq ▸ (List.append_nil _).symm) ho (hno p)
      rcases hcase with ⟨-, rfl⟩ | ⟨-, hcase⟩
      · exact (hnone (.refl _ p) rfl).elim
      · cases hcase with
        | unfinished f hpar hst heq => exact (hnone (parsePhase_parserOnly hpar) heq).elim
        | dropped m₁ hpar hst hfd hal heq => exact (hnone (parsePhase_parserOnly hpar) heq).elim
        | submitted m₁ name' ret k hpar hst hname hfd hput heq =>
            have hp : ParserOnly p (m.arriving fd' arrived) m₁ := parsePhase_parserOnly hpar
            have hlog := forwarded_log (m := m₁.submitted p name') (p := p) fd' ret k
            rw [submitted_log, List.append_assoc, ← heq] at hlog
            have hmem := hp.mem_rest hlog ho (hno p)
            simp at hmem
        | answered m₁ name' ret k hpar hst hname hfd hal hput heq =>
            have hp : ParserOnly p (m.arriving fd' arrived) m₁ := parsePhase_parserOnly hpar
            have hr1 : Registry m₁ := hr0.change hat0 (parsePhase_change hr0 hat0 hpar)
            have hlog := forwarded_log (m := m₁.answered p name') (p := p) fd' ret k
            rw [answered_log, List.append_assoc, ← heq] at hlog
            have hmem := hp.mem_rest hlog ho (hno p)
            simp only [List.cons_append, List.nil_append, List.mem_cons, List.not_mem_nil,
              reduceCtorEq, or_false, Obs.removed.injEq] at hmem
            obtain ⟨rfl, rfl, htask⟩ := hmem
            obtain ⟨⟨q, i⟩, hfinds, hi⟩ := Option.bind_eq_some_iff.mp htask.symm
            obtain ⟨t', ht', -, hq, hqfd⟩ := finds_spec hfinds
            obtain rfl : t = t' := Option.some.inj (hi.symm.trans ht')
            have hlt := hr1.lt q hq
            rw [hp.nextWorker] at hlt
            have htasks := congrFun (congrArg Ledger.lists hp.ledger) q
            change (m₁.heap q).tasks = (m.heap q).tasks at htasks
            refine ⟨q, hlt, htasks ▸ List.mem_of_getElem? ht', ?_⟩
            exact (hp.workerFd q).symm.trans hqfd
  | _ =>
      obtain ⟨l, hl, hpass⟩ := hs.passes hr.registry nofun
      rw [newLog_of_append hl] at ho
      rcases hpass _ ho with ⟨_, _, -, h⟩ | ⟨_, _, _, h⟩ <;> cases h

/-- **The history tells where a task is.** A task on a record's list was last
reported with the record's descriptor, and one on `task_list` with -1; and a task
is only taken off for an answer on the descriptor it was last reported with. -/
theorem placed_where_dispatched (h : Reachable m) :
    (∀ q < m.nextWorker, ∀ t ∈ (m.heap q).tasks,
        lastPlace (placements m.log) t = some (m.heap q).workerFd)
      ∧ (∀ t ∈ m.taskList, lastPlace (placements m.log) t = some (-1))
      ∧ ∀ e m' fd name t, Step m e m' → .removed fd name (some t) ∈ newLog m m' →
        lastPlace (placements m.log) t = some fd := by
  refine ⟨h.traced.lists, h.traced.pool, ?_⟩
  intro e m' fd name t hs ho
  obtain ⟨q, hq, ht, rfl⟩ := hs.removed h ho
  exact h.traced.lists q hq t ht

/-- A task has moved from a worker that fell silent to another. -/
theorem placed_where_dispatched_moved :
    ∃ m t, Reachable m ∧ .scheduled t 6 ∈ m.log ∧ (m.heap 2).tasks = [t]
      ∧ (m.heap 2).workerFd = 7 ∧ lastPlace (placements m.log) t = some 7 := by
  obtain ⟨m, hr, hv⟩ := execWithin_spec (c := fun _ _ => true) id (v := true)
    (silentWorker submitFrame ++ [.detect 5 default fun _ => []])
    (f := fun m => decide (2 < m.nextWorker ∧ .scheduled ⟨0, [97], 0, 0⟩ 6 ∈ m.log
      ∧ (m.heap 2).tasks = [⟨0, [97], 0, 0⟩] ∧ (m.heap 2).workerFd = 7)) (by decide +kernel)
  obtain ⟨hlt, hfirst, htasks, hfd⟩ := of_decide_eq_true hv
  obtain ⟨hlists, -, -⟩ := placed_where_dispatched hr.reachable
  refine ⟨m, _, hr.reachable, hfirst, htasks, hfd, ?_⟩
  rw [hlists 2 hlt ⟨0, [97], 0, 0⟩ (by simp [htasks]), hfd]

end Master

end KeyLime
