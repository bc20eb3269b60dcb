import KeyLime.Beats

/-!
# Parked tasks

`schedule` puts a task for which there is no usable worker on `task_list`,
and nothing takes it off again: the call of `checkOnNodes`, which would, is
commented out. So the list is empty whenever there is a usable worker only as
long as none comes while tasks are parked.

There are three ways for a record to become usable: it connects, a heartbeat
reports a load below the bound, or a result takes a load below it (`frees`). The
condition (`parkedStays`) excludes them while something is parked, by what is in
the event and in the state before it, and the invariant (`ParkedIdle`) says that
then nobody is usable. A pass can only take usable records away, or park more, so
it keeps the invariant unconditionally; that is the last step of the theorem,
which is about the state a pass leaves.
-/

namespace KeyLime

namespace Master

variable {m m' m₁ : Master} {fd : Int} {p q : Nat} {f : Flow} {io : DataIo} {e : Event} {t : Task}

/-- Tasks are parked only when no record could be given one: a record that is not
listed, is dead, or has too high a load. -/
def ParkedIdle (m : Master) : Prop := m.taskList ≠ [] → ∀ p, ¬ m.Eligible p

theorem ParkedIdle.of_eligible (h : ParkedIdle m) (hl : m'.taskList = m.taskList)
    (helig : ∀ q, m'.Eligible q → m.Eligible q) : ParkedIdle m' := by
  intro hne q hq
  rw [hl] at hne
  exact h hne q (helig q hq)

theorem Eligible.of_record (h : m'.Eligible q) (hlist : q ∈ m'.workerList → q ∈ m.workerList)
    (hal : (m'.heap q).alive = true → (m.heap q).alive = true)
    (hload : loadFactor (m'.heap q) = loadFactor (m.heap q)) : m.Eligible q :=
  ⟨hlist h.1, hal h.2.1, hload ▸ h.2.2⟩

theorem ParkedIdle.set {w : Worker} (h : ParkedIdle m)
    (hw : w.alive = true → (m.heap p).alive = true ∧ loadFactor w = loadFactor (m.heap p)) :
    ParkedIdle (m.set p w) := by
  refine h.of_eligible rfl fun q hq => ?_
  by_cases hqp : q = p
  · subst hqp
    obtain ⟨hlist, hal, hload⟩ := hq
    rw [set_heap_self] at hal hload
    obtain ⟨hal', hload'⟩ := hw hal
    exact ⟨hlist, hal', hload' ▸ hload⟩
  · have hrec : (m.set p w).heap q = m.heap q := set_heap_of_ne _ hqp
    exact hq.of_record id (fun h => hrec ▸ h) (by rw [hrec])

theorem ParkedIdle.schedule (h : ParkedIdle m) (t : Task) : ParkedIdle (m.schedule t).1 := by
  cases hb : m.bestWorker with
  | none =>
      intro _
      rw [schedule_of_none hb]
      exact bestWorker_eq_none.mp hb
  | some b =>
      intro hne
      rw [schedule_of_some hb] at hne
      exact (h hne b (bestWorker_eligible hb)).elim

/-! ## A detection pass -/

theorem ParkedIdle.reschedule {mem : Worker} {ios : List ResendIo} (h : ParkedIdle m)
    (hal : (m.heap p).alive = false) (hs : m.reschedule p mem ios = some m') : ParkedIdle m' := by
  rcases reschedule_spec hs hal with ⟨-, rfl⟩ | ⟨t, m₁, -, h1, rfl⟩
  · exact h
  · have hdead := resend_dead h1 hal
    obtain ⟨k, ret, rfl, -⟩ := resend_eq h1
    have h2 : ParkedIdle ({ (m.schedule t).1 with kernel := k }.record
        (.resent t (m.schedule t).2 ret)) := h.schedule t
    refine h2.set fun hlive => ?_
    rw [hal] at hlive
    cases hlive

theorem ParkedIdle.detectPass {now : ℚ} {mem : Worker} {ios : Nat → List ResendIo} :
    ∀ {ps : List Nat} {m : Master}, ParkedIdle m → m.detectPass now mem ios ps = some m' →
      ParkedIdle m'
  | [], m, h, hs => by
      obtain rfl := Option.some.inj hs
      exact h
  | p :: ps, m, h, hs => by
      have h0 : ParkedIdle { m with kernel := m.kernel.lock.unlock } := h
      rw [Master.detectPass] at hs
      split at hs
      · obtain ⟨m₁, h1, h2⟩ := Option.bind_eq_some_iff.mp hs
        have h3 := h0.set (p := p) (w := { m.heap p with alive := false }) (by simp)
        exact (h3.reschedule (by simp) h1).detectPass h2
      · exact h0.detectPass hs

/-! ## The other events -/

/-- The event may make a record usable: a connection, a heartbeat that
reports a load below the bound, or a result that takes a load below it. -/
def frees (m : Master) : Event → Bool
  | .accept cs => !cs.isEmpty
  | .heartbeat addr usage _ =>
      match m.workerList.find? fun p => (m.heap p).ip = addr with
      | some p => decide (usage * 10 + (m.heap p).tasks.length < 100000000)
      | none => false
  | .data fd arrived _ =>
      match m.current fd with
      | some p =>
          m.resets fd p (m.stream fd arrived) && decide (100000000 ≤ loadFactor (m.heap p))
            && decide (loadFactor (m.heap p) - 1 < 100000000)
      | none => false
  | .detect _ _ _ => false

/-- Nothing makes a record usable while tasks are parked. -/
def parkedStays (m : Master) (e : Event) : Bool := m.taskList.isEmpty || !m.frees e

theorem parsePhase_parkedIdle {rio : RecvIo} (hr : Registry m) (hat : At m fd p)
    (hpar : m.parsePhase fd p rio = some f) (h : ParkedIdle m) : ParkedIdle f.master := by
  have hp := parsePhase_parserOnly hpar
  refine h.of_eligible hp.taskList fun q hq => hq.of_record (fun hmem => ?_) (hp.alive q) ?_
  · rcases (parsePhase_attended hr hat hpar).workerList with heq | heq <;> rw [heq] at hmem
    · exact hmem
    · exact List.mem_of_mem_erase hmem
  · by_cases hqp : q = p
    · rw [loadFactor, loadFactor, hqp, hp.record.cpuUsage, hp.record.tasks]
    · rw [hp.others q hqp]

theorem forwarded_parkedIdle {ret : Ret} {k : Kernel} (h : ParkedIdle m) :
    ParkedIdle (m.forwarded fd p ret k) := by
  have h1 : ParkedIdle (m.set p (m.heap p).fresh) := h.set fun hal => ⟨hal, rfl⟩
  exact h1

theorem submitted_parkedIdle (name : Bytes) (h : ParkedIdle m) :
    ParkedIdle (m.submitted p name) := by
  have h1 : ParkedIdle (m.makeTask (m.heap p) name).2 := h
  exact (h1.schedule (m.makeTask (m.heap p) name).1).set fun hal => ⟨hal, rfl⟩

theorem loadFactor_erase {w : Worker} {i : Nat} (hi : i < w.tasks.length) :
    loadFactor { w with tasks := w.tasks.eraseIdx i } = loadFactor w - 1 := by
  have hlen : ((w.tasks.eraseIdx i).length : ℚ) + 1 = w.tasks.length := by
    have := List.length_eraseIdx_add_one hi
    exact_mod_cast this
  unfold loadFactor
  simp only
  rw [← hlen, ← add_assoc, add_sub_cancel_right]

/-- A result takes one task off the list of its own record, if any. -/
theorem answered_eligible (hr : Registry m) (hat : At m fd p) (hfd : fd ≠ m.interfaceFd)
    (name : Bytes) (hq : (m.answered p name).Eligible q) :
    m.Eligible q ∨ (q = p ∧ p ∈ m.workerList ∧ (m.heap p).alive = true
      ∧ loadFactor (m.heap p) - 1 < 100000000) := by
  have hset : (m.schedulerRemoveTask (m.heap p).workerFd name).Eligible q := by
    refine hq.of_record id (fun h => ?_) ?_ <;> by_cases hqp : q = p
    · rw [hqp] at h ⊢
      simpa [answered] using h
    · simpa [answered, set, hqp] using h
    · rw [hqp]
      simp [answered, loadFactor]
    · simp [answered, set, hqp]
  rw [hat.workerFd] at hset
  cases hf : m.finds fd name with
  | none =>
      rw [schedulerRemoveTask_of_none hf] at hset
      exact Or.inl hset
  | some bi =>
      obtain ⟨t, ht, -, ho, heq⟩ := schedulerRemoveTask_of_some hf
      obtain hbp : bi.1 = p := Option.some.inj (ho.symm.trans (hat.ownerOf hr hfd))
      rw [heq] at hset
      rw [hbp] at ht hset
      obtain ⟨hlist, hal, hload⟩ := hset
      have hlt : bi.2 < (m.heap p).tasks.length := (List.getElem?_eq_some_iff.mp ht).1
      by_cases hqp : q = p
      · subst hqp
        simp only [record, set_heap_self] at hal hload
        rw [loadFactor_erase hlt] at hload
        exact Or.inr ⟨rfl, hlist, hal, hload⟩
      · simp only [record, set_heap_of_ne _ hqp] at hal hload
        exact Or.inl ⟨hlist, hal, hload⟩

theorem Step.parkedIdle (hr : Reachable m) (h : ParkedIdle m) (hs : Step m e m')
    (hc : m.parkedStays e = true) : ParkedIdle m' := by
  cases e with
  | accept cs =>
      obtain rfl := Option.some.inj hs.2
      cases cs with
      | nil => exact h
      | cons c cs =>
          intro hne
          have htasks : ∀ (cs : List Conn) (m : Master), (m.acceptConnections cs).taskList = m.taskList := by
            intro cs m
            exact acceptConnections_invariant (I := fun m' => m'.taskList = m.taskList)
              (fun _ _ h => h) rfl
          rw [htasks] at hne
          simp [parkedStays, frees, hne] at hc
  | heartbeat addr usage now =>
      obtain rfl := Option.some.inj hs.2
      have hsame := reportHeartbeat_same hr.registry.ranged addr usage now
      cases hfind : m.workerList.find? fun p => (m.heap p).ip = addr with
      | none =>
          have heq : m.reportHeartbeat addr usage now = m := by rw [reportHeartbeat, hfind]
          rwa [heq]
      | some p =>
          have htasks : (m.reportHeartbeat addr usage now).taskList = m.taskList := by
            rw [reportHeartbeat, hfind]
            rfl
          intro hne q hq
          rw [htasks] at hne
          have hrec := reportHeartbeat_credited usage now hfind q
          have hlist := hq.1
          rw [hsame.workerList] at hlist
          by_cases hqp : q = p
          · rw [if_pos hqp] at hrec
            have hload := hq.2.2
            rw [hrec, hqp] at hload
            simp only [loadFactor] at hload
            have hload' : ¬ usage * 10 + ((m.heap p).tasks.length : ℚ) < 100000000 := by
              simpa [parkedStays, frees, hfind, hne] using hc
            exact hload' hload
          · rw [if_neg hqp] at hrec
            exact h hne q ⟨hlist, hrec ▸ hq.2.1, hrec ▸ hq.2.2⟩
  | detect now mem ios => exact h.detectPass hs.2
  | data fd arrived io =>
      obtain ⟨p, hat, hready0, hr0, hat0, -, hcase⟩ := hs.call hr
      have h0 : ParkedIdle (m.arriving fd arrived) := h
      rcases hcase with ⟨-, rfl⟩ | ⟨halive, hcase⟩
      · exact h0
      · cases hcase with
        | unfinished f hpar hst heq => exact heq ▸ parsePhase_parkedIdle hr0 hat0 hpar h0
        | dropped m₁ hpar hst hfd hal heq => exact heq ▸ parsePhase_parkedIdle hr0 hat0 hpar h0
        | submitted m₁ name ret k hpar hst hname hfd hput heq =>
            have h1 : ParkedIdle m₁ := parsePhase_parkedIdle hr0 hat0 hpar h0
            exact heq ▸ forwarded_parkedIdle (submitted_parkedIdle name h1)
        | answered m₁ name ret k hpar hst hname hfd hal hput heq =>
            have h1 : ParkedIdle m₁ := parsePhase_parkedIdle hr0 hat0 hpar h0
            have hchange := parsePhase_change hr0 hat0 hpar
            have hr1 : Registry m₁ := hr0.change hat0 hchange
            have hat1 := hat0.change hr0 hchange
            have hp : ParserOnly p (m.arriving fd arrived) m₁ := parsePhase_parserOnly hpar
            have hload : loadFactor (m₁.heap p) = loadFactor (m.heap p) := by
              rw [loadFactor, loadFactor, hp.record.cpuUsage, hp.record.tasks]
              rfl
            have hresets := parsePhase_resets hready0 hr0 hat0 halive hpar hst (Or.inr hal)
            refine heq ▸ forwarded_parkedIdle fun hne q hq => ?_
            have htasks : (m₁.answered p name).taskList = m.taskList := by
              obtain ⟨heap, log, hframe⟩ :=
                schedulerRemoveTask_frame (m := m₁) (m₁.heap p).workerFd name
              rw [Master.answered, hframe]
              exact hp.taskList
            rw [htasks] at hne
            have hne1 : m₁.taskList ≠ [] := by
              rw [hp.taskList]
              exact hne
            rcases answered_eligible hr1 hat1 hfd name hq with helig | ⟨rfl, hlist, hal', hlt⟩
            · exact h1 hne1 q helig
            · have hge : 100000000 ≤ loadFactor (m₁.heap q) := by
                by_contra hlow
                exact h1 hne1 q ⟨hlist, hal', not_le.mp hlow⟩
              rw [hload] at hlt hge
              simp [parkedStays, frees, hat.current, hne, hresets, hge, hlt] at hc

theorem ReachableWithin.parkedIdle
    (h : ReachableWithin (fun m e _ => m.parkedStays e = true) m) : ParkedIdle m :=
  h.invariant (I := ParkedIdle) (fun _ hne => (hne rfl).elim)
    fun _ _ _ hr hi hs hc => Step.parkedIdle hr.reachable hi hs hc

/-- **Parked tasks.** In a run in which nothing makes a record usable while
tasks are parked, there is no usable record after a detection pass that
leaves tasks on `task_list`. The pass itself only adds to that list. What comes
too late, a new worker or a result that lowers a load, leaves the task parked,
as `checkOnNodes`, which would give it away, is never called. -/
theorem parked_idle {now : ℚ} {mem : Worker} {ios : Nat → List ResendIo}
    (h : ReachableWithin (fun m e _ => m.parkedStays e = true) m)
    (hs : Step m (.detect now mem ios) m') (hne : m'.taskList ≠ []) :
    ∀ p ∈ m'.workerList, (m'.heap p).alive = true → 100000000 ≤ loadFactor (m'.heap p) := by
  intro p hp hal
  by_contra hlow
  exact h.parkedIdle.detectPass hs.2 hne p ⟨hp, hal, not_le.mp hlow⟩

/-- The only worker falls silent; its task is parked. -/
theorem parked_idle_one :
    ∃ m m', Step m (.detect 5 default fun _ => []) m' ∧ m'.taskList = [⟨0, [97], 0, 0⟩]
      ∧ 1 ∈ m'.workerList ∧ (m'.heap 1).alive = false
      ∧ ∀ p ∈ m'.workerList, (m'.heap p).alive = true → 100000000 ≤ loadFactor (m'.heap p) := by
  obtain ⟨m, m', hr, hs, -, hv⟩ := execStepWithin_spec (c := parkedStays) id
    (v := true)
    ([.accept [⟨5, [], default⟩, ⟨6, [1], default⟩], .heartbeat [1] 1 1,
      .data 5 (submitFrame.map .byte) {}])
    (e := .detect 5 default fun _ => [])
    (f := fun _ m' => decide (m'.taskList = [⟨0, [97], 0, 0⟩] ∧ 1 ∈ m'.workerList
      ∧ (m'.heap 1).alive = false)) (by decide +kernel)
  obtain ⟨hl, hmem, hdead⟩ := of_decide_eq_true hv
  exact ⟨m, m', hs, hl, hmem, hdead, parked_idle hr hs (by simp [hl])⟩

/-- A submission is parked; then a worker connects, and the pass leaves the
task where it is. -/
theorem parked_beside_worker :
    ∃ m m', Reachable m ∧ Step m (.detect 5 default fun _ => []) m'
      ∧ m'.taskList = [⟨0, [97], 0, 0⟩] ∧ m'.Eligible 1 := by
  obtain ⟨m, m', hr, hs, hv⟩ := execStep_spec id (v := true)
    ([.accept [⟨5, [], default⟩], .data 5 (submitFrame.map .byte) {},
      .accept [⟨7, [1], default⟩]])
    (e := .detect 5 default fun _ => [])
    (f := fun _ m' => decide (m'.taskList = [⟨0, [97], 0, 0⟩] ∧ m'.bestWorker = some 1))
    (by decide +kernel)
  obtain ⟨hl, hbest⟩ := of_decide_eq_true hv
  exact ⟨m, m', hr, hs, hl, bestWorker_eligible hbest⟩

end Master

end KeyLime
