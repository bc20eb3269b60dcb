import KeyLime.Idle

/-!
# Task recovery

A detection pass moves the tasks of the records it takes for dead itself.
A record that has died in `handle_data` is passed over, and keeps its tasks;
as long as none that dies there has any, no dead record has a task.

The result has two halves, and only one of them needs a condition. That no task
disappears in a pass is conservation. That none stays with a dead record is an
invariant of the run (`DeadIdle`), which a pass establishes for the records it
kills and every other step keeps, if the worker whose record dies in it is idle
(`diesIdle`). Where the parser clears `alive` is a matter of the reader of
frames (`Dec.kills`): at the end of the stream in a header, at a bad header, and
at the end of an empty frame.

A pass that does not complete has no state behind it. `owed` counts the tasks of
the records it will find silent: with one at most it completes, whatever happens
to the files and the connections (`detectPass_completes`).
-/

namespace KeyLime

open Bookkeeping Resume

/-- The reader of frames has come to where `handle_data` clears `alive`: the
end of the stream in a header, a bad header, or the end of an empty frame. -/
def Dec.kills (d : Dec) (e : ReadResult) : Bool :=
  match d with
  | .header _ => e != .again
  | .bad => true
  | .done _ _ got => got.isEmpty
  | _ => false

namespace Master

variable {m m' m₁ : Master} {fd : Int} {p q : Nat} {io : DataIo} {e : Event} {t : Task}

/-- A worker whose record dies in the event has no tasks. -/
def diesIdle (m : Master) : Event → Bool
  | .data fd arrived _ =>
      match m.current fd with
      | some p =>
          fd == m.interfaceFd || !(m.heap p).alive || (m.heap p).status == .forwardData
            || !(m.reading p (m.stream fd arrived)).1.kills (ending (m.stream fd arrived))
            || (m.heap p).tasks.isEmpty
      | none => true
  | _ => true

/-- The dead records of the list have no tasks. A detection pass looks at live records
only, so what a dead one has stays there for as long as it is dead. -/
def DeadIdle (m : Master) : Prop :=
  ∀ p ∈ m.workerList, (m.heap p).alive = false → (m.heap p).tasks = []

theorem DeadIdle.idle (h : DeadIdle m) (hlisted : q ∈ m.workerList)
    (hdead : (m.heap q).alive = false) : Idle m q :=
  ⟨h q hlisted hdead, fun _ => hdead⟩

/-! ## A pass -/

theorem reschedule_self {mem : Worker} {ios : List ResendIo} (hal : (m.heap p).alive = false)
    (h : m.reschedule p mem ios = some m') : (m'.heap p).tasks = [] := by
  rcases reschedule_spec h hal with ⟨hnil, rfl⟩ | ⟨t, m₁, -, -, rfl⟩
  · exact hnil
  · rw [set_heap_self]

/-- A record that is dead after a pass has no tasks, if it had none when it
was dead before. -/
theorem detectPass_dead {now : ℚ} {mem : Worker} {ios : Nat → List ResendIo} :
    ∀ {ps : List Nat} {m : Master}, ((m.heap q).alive = false → (m.heap q).tasks = []) →
      m.detectPass now mem ios ps = some m' → (m'.heap q).alive = false → (m'.heap q).tasks = []
  | [], m, h0, h => by
      obtain rfl := Option.some.inj h
      exact h0
  | p :: ps, m, h0, h => by
      rw [detectPass] at h
      split at h
      · obtain ⟨m₁, h1, h2⟩ := Option.bind_eq_some_iff.mp h
        refine detectPass_dead (fun hdead => ?_) h2
        by_cases hqp : q = p
        · exact hqp ▸ reschedule_self (by simp) h1
        · rw [reschedule_alive (by simp) h1 q, set_heap_of_ne _ hqp] at hdead
          have hidle : Idle m q := ⟨h0 hdead, fun _ => hdead⟩
          have hidle' : Idle (Master.set { m with kernel := m.kernel.lock.unlock } p
              { m.heap p with alive := false }) q := hidle.of_heap (set_heap_of_ne _ hqp) id
          exact (hidle'.reschedule (by simp) h1).tasks
      · exact detectPass_dead (m := { m with kernel := m.kernel.lock.unlock }) h0 h

/-! ## A call -/

/-- A call that clears `alive` of a listed record has come to where it is
cleared. -/
theorem CallCase.kills (hready : Ready m) (hr : Registry m) (hat : At m fd p)
    (halive : (m.heap p).alive = true) (hc : CallCase fd p io m m')
    (hlisted : p ∈ m'.workerList) (hdead : (m'.heap p).alive = false) :
    (m.heap p).status ≠ .forwardData
      ∧ (frameReader.feed ((m.heap p).dec []) (readable (m.kernel.inbox fd))).1.kills
        (ending (m.kernel.inbox fd)) = true
      ∧ (m'.heap p).tasks = (m.heap p).tasks := by
  have htasks : ∀ {f : Flow}, m.parsePhase fd p io.recv = some f →
      (f.master.heap p).tasks = (m.heap p).tasks := fun hpar =>
    (parsePhase_parserOnly hpar).tasks p
  cases hc with
  | unfinished f hpar hst heq =>
      subst heq
      refine ⟨?_, ?_, htasks hpar⟩
      · intro hst0
        rw [parsePhase_ended hst0 hpar] at hst
        exact hst hst0
      · cases parsePhase_unfinished hready hat halive hpar hst with
        | starved m₁ st got hres hrun hend hinbox hlog hsound hal =>
            cases hal.symm.trans hdead
        | complete _ _ _ _ _ _ _ _ hst' => exact (hst hst').elim
        | rejected f last hres hlog hst' =>
            rcases hres with ⟨hheader, hne, -⟩ | ⟨hbad, -⟩
            · generalize (frameReader.feed _ _).1 = d at hheader ⊢
              cases d with
              | header line => simpa [Dec.kills] using hne
              | _ => cases hheader
            · rw [hbad]
              rfl
        | failed m₁ st last hres hlog hstage hst' hlast hbenign hsound hal =>
            cases hal.symm.trans hdead
  | dropped m₁ hpar hst hfd hal heq =>
      subst heq
      obtain ⟨v, name, got, hcomp⟩ := parsePhase_complete hready hat halive hpar hst
      rcases hcomp.now with ⟨-, rfl⟩ | ⟨hst0, hal', -⟩
      · cases halive.symm.trans hal
      · refine ⟨hst0, ?_, htasks hpar⟩
        rw [hal, eq_comm, decide_eq_false_iff_not, not_not] at hal'
        rw [hcomp.reading, hal']
        rfl
  | submitted m₁ name ret k hpar hst hname hfd hput heq =>
      have hchange := parsePhase_change hr hat hpar
      have hr1 : Registry m₁ := hr.change hat hchange
      have hat1 := hat.change hr hchange
      rcases hat1.place with ⟨-, h⟩ | ⟨-, -, h⟩
      · exact (h hfd).elim
      · rw [heq] at hlisted
        exact (h ((submitted_same hr1.ranged name).workerList ▸ hlisted)).elim
  | answered m₁ name ret k hpar hst hname hfd hal hput heq =>
      obtain ⟨ts, hself⟩ := answered_self (m := m₁) (p := p) name
      rw [heq, forwarded_self, hself] at hdead
      cases hal.symm.trans hdead

/-! ## Every run -/

theorem acceptConnections_deadIdle :
    ∀ (cs : List Conn) {m : Master}, DeadIdle m → DeadIdle (m.acceptConnections cs) := by
  intro cs m h
  refine acceptConnections_invariant (fun m c h => ?_) h
  intro q hq hdead
  by_cases hqn : q = m.nextWorker
  · rw [hqn, acceptOne_new]
    rfl
  · rw [acceptOne_of_ne c hqn] at hdead ⊢
    refine h q ((List.mem_append.mp hq).resolve_right fun hmem => ?_) hdead
    exact hqn (List.mem_singleton.mp hmem)

theorem reportHeartbeat_deadIdle (addr : Bytes) (usage now : ℚ) (h : DeadIdle m) :
    DeadIdle (m.reportHeartbeat addr usage now) := by
  unfold reportHeartbeat
  split
  · exact h
  · rename_i p hp
    intro q hq hdead
    change ((Master.set m p _).heap q).alive = false at hdead
    show ((Master.set m p _).heap q).tasks = []
    by_cases hqp : q = p
    · rw [hqp, set_heap_self] at hdead
      cases hdead
    · rw [set_heap_of_ne _ hqp] at hdead ⊢
      exact h q hq hdead

theorem Step.deadIdle (hr : Reachable m) (h : DeadIdle m) (hs : Step m e m')
    (hc : m.diesIdle e = true) : DeadIdle m' := by
  cases e with
  | accept cs =>
      obtain rfl := Option.some.inj hs.2
      exact acceptConnections_deadIdle cs h
  | heartbeat addr usage now =>
      obtain rfl := Option.some.inj hs.2
      exact reportHeartbeat_deadIdle addr usage now h
  | detect now mem ios =>
      intro q hq
      have hlist := (detectPass_same hr.registry.ranged hs.2).workerList
      exact detectPass_dead (h q (hlist ▸ hq)) hs.2
  | data fd arrived io =>
      obtain ⟨p, hat, hready0, hr0, hat0, -, hcase⟩ := hs.call hr
      rcases hcase with ⟨-, rfl⟩ | ⟨halive, hcase⟩
      · exact h
      · have hatt : Attended p (m.arriving fd arrived) m' := hcase.attended hr0 hat0
        intro q hq hdead
        have hq0 : q ∈ m.workerList := by
          rcases hatt.workerList with heq | heq <;> rw [heq] at hq
          · exact hq
          · exact List.mem_of_mem_erase hq
        by_cases hqp : q = p
        · subst hqp
          obtain ⟨hst, hkills, htasks⟩ := hcase.kills hready0 hr0 hat0 halive hq hdead
          have hfd : fd ≠ m.interfaceFd :=
            hat.place.elim And.right fun h => (h.2.2 hq0).elim
          rw [arriving_inbox] at hkills
          change (m.heap q).status ≠ .forwardData at hst
          change (m.reading q (m.stream fd arrived)).1.kills _ = true at hkills
          simp only [diesIdle, hat.current, halive, hkills] at hc
          have hempty : (m.heap q).tasks = [] := by simpa [hfd, hst] using hc
          exact htasks.trans hempty
        · obtain ⟨ts, hrec⟩ := hatt.others q hqp
          have hdead0 : (m.heap q).alive = false := by
            rw [hrec] at hdead
            exact hdead
          have hidle := h.idle hq0 hdead0
          exact (hcase.idle hr0 hat0 hqp ⟨hidle.tasks, hidle.dead⟩).tasks

theorem ReachableWithin.deadIdle
    (h : ReachableWithin (fun m e _ => m.diesIdle e = true) m) : DeadIdle m :=
  h.invariant (I := DeadIdle) (fun _ _ hq => nomatch hq)
    fun _ _ _ hr hi hs hc => Step.deadIdle hr.reachable hi hs hc

/-! ## Passes that complete -/

/-- How many tasks the silent records among `ps` have. -/
def owed (m : Master) (now : ℚ) (ps : List Nat) : Nat :=
  (ps.map fun p => if silent (m.heap p) now then (m.heap p).tasks.length else 0).sum

theorem owed_congr {now : ℚ} {ps : List Nat} (h : ∀ q ∈ ps, m'.heap q = m.heap q) :
    m'.owed now ps = m.owed now ps := by
  unfold owed
  rw [List.map_congr_left fun q hq => by rw [h q hq]]

theorem owed_cons {now : ℚ} {ps : List Nat} : m.owed now (p :: ps) =
    (if silent (m.heap p) now then (m.heap p).tasks.length else 0) + m.owed now ps := by
  simp [owed]

theorem owed_schedule (now : ℚ) (t : Task) :
    ∀ {ps : List Nat}, ps.Nodup → (m.schedule t).1.owed now ps ≤ m.owed now ps + 1
  | [], _ => Nat.zero_le _
  | p :: ps, hnodup => by
      obtain ⟨hp, hnodup⟩ := List.nodup_cons.mp hnodup
      have ih : (m.schedule t).1.owed now ps ≤ m.owed now ps + 1 := owed_schedule now t hnodup
      rw [owed_cons, owed_cons]
      by_cases hb : m.bestWorker = some p
      · have hrest : (m.schedule t).1.owed now ps = m.owed now ps := owed_congr fun q hq => by
          rw [schedule_of_some hb]
          exact Function.update_of_ne (fun h : q = p => hp (h ▸ hq)) _ _
        obtain ⟨ts, hrec⟩ := schedule_record (m := m) t p
        have hlen : ((m.schedule t).1.heap p).tasks.length = (m.heap p).tasks.length + 1 := by
          rw [schedule_of_some hb]
          simp
        have hsil : silent ((m.schedule t).1.heap p) now = silent (m.heap p) now := by
          rw [hrec]
          rfl
        rw [hrest, hlen, hsil]
        split <;> omega
      · have hrec : (m.schedule t).1.heap p = m.heap p := by
          cases hb' : m.bestWorker with
          | none => rw [schedule_of_none hb']
          | some b =>
              rw [schedule_of_some hb']
              exact Function.update_of_ne (fun h : p = b => hb (h ▸ hb')) _ _
        rw [hrec]
        omega

theorem resend_isSome (m : Master) (mem : Worker) (t : Task) (io : ResendIo) :
    ∃ m', m.resend mem t io = some m' := by
  simp [resend, doPut]

/-- Rescheduling a dead record completes when that record and those after it
in the pass have one task between them; no more than that is then owed. -/
theorem reschedule_completes {now : ℚ} {ps : List Nat} {mem : Worker} {ios : List ResendIo}
    (hp : p ∉ ps) (hnodup : ps.Nodup) (hal : (m.heap p).alive = false)
    (howed : (m.heap p).tasks.length + m.owed now ps ≤ 1) :
    ∃ m', m.reschedule p mem ios = some m' ∧ m'.owed now ps ≤ 1 := by
  have hset : ∀ (m : Master) (w : Worker), (m.set p w).owed now ps = m.owed now ps :=
    fun m w => owed_congr fun q hq => set_heap_of_ne _ fun h => hp (h ▸ hq)
  cases ht : (m.heap p).tasks with
  | nil =>
      refine ⟨m.set p { m.heap p with tasks := [] }, by simp [reschedule, ht, resendAll, eraseAll],
        ?_⟩
      rw [hset]
      omega
  | cons t ts =>
      rw [ht, List.length_cons] at howed
      obtain rfl := List.length_eq_zero_iff.mp (show ts.length = 0 by omega)
      obtain ⟨m₁, h1⟩ := resend_isSome m mem t (ios.headD {})
      have hrec := resend_dead h1 hal
      refine ⟨m₁.set p { m₁.heap p with tasks := [] }, ?_, ?_⟩
      · simp only [reschedule, ht, resendAll, h1, Option.bind_some, hrec]
        rfl
      · rw [hset]
        obtain ⟨k, ret, rfl, -⟩ := resend_eq h1
        have hle := owed_schedule (m := m) now t hnodup
        change (m.schedule t).1.owed now ps ≤ 1
        omega

theorem detectPass_completes {now : ℚ} {mem : Worker} {ios : Nat → List ResendIo} :
    ∀ {ps : List Nat} {m : Master}, ps.Nodup → m.owed now ps ≤ 1 →
      ∃ m', m.detectPass now mem ios ps = some m'
  | [], m, _, _ => ⟨m, rfl⟩
  | p :: ps, m, hnodup, howed => by
      obtain ⟨hp, hnodup⟩ := List.nodup_cons.mp hnodup
      rw [owed_cons] at howed
      rw [detectPass]
      split
      · rename_i hsilent
        rw [if_pos hsilent] at howed
        obtain ⟨m₁, h1, hle⟩ : ∃ m₁,
            (Master.set { m with kernel := m.kernel.lock.unlock } p
              { m.heap p with alive := false }).reschedule p mem (ios p) = some m₁
              ∧ m₁.owed now ps ≤ 1 := by
          refine reschedule_completes hp hnodup (by simp) ?_
          have hrest : ∀ q ∈ ps, (Master.set { m with kernel := m.kernel.lock.unlock } p
              { m.heap p with alive := false }).heap q = m.heap q :=
            fun q hq => set_heap_of_ne _ fun h => hp (h ▸ hq)
          rw [set_heap_self, owed_congr hrest]
          exact howed
        obtain ⟨m', h2⟩ := detectPass_completes hnodup hle
        exact ⟨m', by rw [h1]; exact h2⟩
      · exact detectPass_completes (m := { m with kernel := m.kernel.lock.unlock }) hnodup
          (le_trans (Nat.le_add_left ..) howed)

/-! ## Recovery -/

/-- **Tasks are recovered.** In a run in which no worker's record dies in
`handle_data` with tasks, a dead record of the list has none after a detection
pass, and every task there was is still with a record or in `task_list`. The
condition is on the data events only, and on the state before each: what is read
of the frame kills the record, and it has tasks (`diesIdle`). -/
theorem tasks_recovered {now : ℚ} {mem : Worker} {ios : Nat → List ResendIo}
    (h : ReachableWithin (fun m e _ => m.diesIdle e = true) m)
    (hs : Step m (.detect now mem ios) m') :
    (∀ p ∈ m'.workerList, (m'.heap p).alive = false → (m'.heap p).tasks = [])
      ∧ ∀ t, m.ledger.Holds t → m'.ledger.Holds t := by
  refine ⟨hs.deadIdle h.reachable h.deadIdle rfl, ?_⟩
  intro t ht
  have hr := h.reachable.registry
  have htally := detectPass_tally (· = t) hr hr.lt hs.2
  rw [Ledger.holds_iff_tally] at ht ⊢
  rwa [htally]

/-- A worker with a task falls silent; the task goes to the other. -/
theorem tasks_recovered_one :
    ∃ m m', Step m (.detect 5 default fun _ => []) m'
      ∧ (m.heap 1).tasks = [⟨0, [97], 0, 0⟩] ∧ (m'.heap 1).alive = false
      ∧ (m'.heap 1).tasks = [] ∧ m'.ledger.Holds ⟨0, [97], 0, 0⟩ := by
  obtain ⟨m, m', hr, hs, -, hv⟩ := execStepWithin_spec (c := diesIdle) id (v := true)
    ([.accept [⟨5, [], default⟩, ⟨6, [1], default⟩, ⟨7, [2], default⟩], .heartbeat [1] 1 1,
      .heartbeat [2] 2 4, .data 5 (submitFrame.map .byte) {}])
    (e := .detect 5 default fun _ => [])
    (f := fun m m' => decide (1 < m.nextWorker ∧ 1 ∈ m'.workerList
      ∧ (m.heap 1).tasks = [⟨0, [97], 0, 0⟩] ∧ (m'.heap 1).alive = false)) (by decide +kernel)
  obtain ⟨hlt, hlisted, htasks, hdead⟩ := of_decide_eq_true hv
  obtain ⟨hnil, hkept⟩ := tasks_recovered hr hs
  have hmem : ⟨0, [97], 0, 0⟩ ∈ (m.heap 1).tasks := by simp [htasks]
  exact ⟨m, m', hs, htasks, hdead, hnil 1 hlisted hdead, hkept _ (Or.inl ⟨1, hlt, hmem⟩)⟩

/-- A worker that has a task closes its connection; the pass leaves the task
with its record. -/
theorem closed_keeps_task :
    ∃ m m', Reachable m ∧ Step m (.detect 5 default fun _ => []) m'
      ∧ 1 ∈ m'.workerList ∧ (m'.heap 1).alive = false
      ∧ (m'.heap 1).tasks = [⟨0, [97], 0, 0⟩] ∧ 2 ∈ m'.workerList ∧ (m'.heap 2).alive = true := by
  obtain ⟨m, m', hr, hs, hv⟩ := execStep_spec id (v := true)
    ([.accept [⟨5, [], default⟩, ⟨6, [1], default⟩, ⟨7, [2], default⟩], .heartbeat [1] 1 1,
      .heartbeat [2] 2 4, .data 5 (submitFrame.map .byte) {}, .data 6 [.eof] {}])
    (e := .detect 5 default fun _ => [])
    (f := fun m m' => decide (1 ∈ m'.workerList ∧ (m'.heap 1).alive = false
      ∧ (m'.heap 1).tasks = [⟨0, [97], 0, 0⟩] ∧ 2 ∈ m'.workerList ∧ (m'.heap 2).alive = true))
    (by decide +kernel)
  exact ⟨m, m', hr, hs, of_decide_eq_true hv⟩

end Master

end KeyLime
