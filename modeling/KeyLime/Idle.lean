import KeyLime.Targets

/-!
# Records without tasks

A record that has no task, and is not both live and listed, gets none: the
scheduler passes over it. So a detection pass leaves no task behind on a
record it takes for dead, and one that finds no task to move moves none.

`Idle` is kept by every operation of the scheduler, one lemma for each. It serves
two ends: the record of an interface, which is in no list, has no tasks
(`Peers`), and a pass in which no silent record has a task is quiet
(`detectPass_quiet`), that is, asks for the mutex and changes nothing but the
flags.
-/

namespace KeyLime

namespace Master

variable {m m' m₁ : Master} {fd : Int} {p q : Nat} {io : DataIo} {e : Event} {t : Task}

/-- Record `q` has no task and can be given none. -/
structure Idle (m : Master) (q : Nat) : Prop where
  tasks : (m.heap q).tasks = []
  dead : q ∈ m.workerList → (m.heap q).alive = false

theorem Idle.schedule (h : Idle m q) (t : Task) : Idle (m.schedule t).1 q := by
  cases hb : m.bestWorker with
  | none =>
      rw [schedule_of_none hb]
      exact ⟨h.tasks, h.dead⟩
  | some b =>
      have hne : q ≠ b := fun heq => by
        have helig := bestWorker_eligible hb
        rw [← heq] at helig
        have := h.dead helig.1
        rw [helig.2.1] at this
        cases this
      rw [schedule_of_some hb]
      constructor <;> simp only [Function.update_of_ne hne]
      · exact h.tasks
      · exact h.dead

theorem Idle.set {w : Worker} (h : Idle m q) (hw : w.tasks = [] ∨ w.tasks = (m.heap p).tasks)
    (hal : w.alive = true → (m.heap p).alive = true) : Idle (m.set p w) q := by
  by_cases hq : q = p
  · subst hq
    constructor
    · rw [set_heap_self]
      exact hw.elim id fun heq => heq.trans h.tasks
    · intro hmem
      rw [set_heap_self]
      cases halive : w.alive with
      | false => rfl
      | true =>
          have := h.dead hmem
          rw [hal halive] at this
          cases this
  · exact ⟨by rw [set_heap_of_ne _ hq]; exact h.tasks,
      fun hmem => by rw [set_heap_of_ne _ hq]; exact h.dead hmem⟩

theorem Idle.reschedule {mem : Worker} {ios : List ResendIo} (hq : Idle m q)
    (hal : (m.heap p).alive = false) (h : m.reschedule p mem ios = some m') : Idle m' q := by
  rcases reschedule_spec h hal with ⟨-, rfl⟩ | ⟨t, m₁, -, h1, rfl⟩
  · exact hq
  · have hdead := resend_dead h1 hal
    obtain ⟨k, ret, rfl, -⟩ := resend_eq h1
    have hq1 := hq.schedule t
    refine Idle.set ⟨hq1.tasks, hq1.dead⟩ (Or.inl rfl) fun halive => ?_
    rw [hdead]
    exact halive

theorem Idle.detectPass {now : ℚ} {mem : Worker} {ios : Nat → List ResendIo} :
    ∀ {ps : List Nat} {m : Master}, Idle m q → m.detectPass now mem ios ps = some m' → Idle m' q
  | [], m, hq, h => by
      obtain rfl := Option.some.inj h
      exact hq
  | p :: ps, m, hq, h => by
      have hq0 : Idle { m with kernel := m.kernel.lock.unlock } q := ⟨hq.tasks, hq.dead⟩
      rw [Master.detectPass] at h
      split at h
      · obtain ⟨m₁, h1, h2⟩ := Option.bind_eq_some_iff.mp h
        have hq1 := hq0.set (p := p) (w := { m.heap p with alive := false }) (Or.inr rfl) (by simp)
        exact (hq1.reschedule (by simp) h1).detectPass h2
      · exact hq0.detectPass h

theorem Idle.of_heap (h : Idle m q) (hheap : m'.heap q = m.heap q)
    (hlist : q ∈ m'.workerList → q ∈ m.workerList) : Idle m' q :=
  ⟨hheap ▸ h.tasks, fun hmem => hheap ▸ h.dead (hlist hmem)⟩

theorem Idle.remove {name : Bytes} (h : Idle m q) : Idle (m.schedulerRemoveTask fd name) q := by
  cases hf : m.finds fd name with
  | none =>
      rw [schedulerRemoveTask_of_none hf]
      exact ⟨h.tasks, h.dead⟩
  | some bi =>
      obtain ⟨t, ht, -, -, heq⟩ := schedulerRemoveTask_of_some hf
      have hne : q ≠ bi.1 := fun hq => by
        rw [← hq, h.tasks] at ht
        cases ht
      rw [heq]
      exact h.of_heap (set_heap_of_ne _ hne) id

theorem CallCase.idle (hr : Registry m) (hat : At m fd p) (hc : CallCase fd p io m m')
    (hq : q ≠ p) (h : Idle m q) : Idle m' q := by
  have hparse : ∀ {f : Flow}, m.parsePhase fd p io.recv = some f → Idle f.master q := fun hpar => by
    refine h.of_heap ((parsePhase_parserOnly hpar).others q hq) fun hmem => ?_
    rcases (parsePhase_attended hr hat hpar).workerList with heq | heq <;> rw [heq] at hmem
    · exact hmem
    · exact List.mem_of_mem_erase hmem
  cases hc with
  | unfinished f hpar hst heq => exact heq ▸ hparse hpar
  | dropped m₁ hpar hst hfd hal heq => exact heq ▸ hparse hpar
  | submitted m₁ name ret k hpar hst hname hfd hput heq =>
      have h1 : Idle m₁ q := hparse hpar
      have h2 : Idle (m₁.makeTask (m₁.heap p) name).2 q := ⟨h1.tasks, h1.dead⟩
      have h3 : Idle (m₁.submitted p name) q :=
        (h2.schedule (m₁.makeTask (m₁.heap p) name).1).of_heap (set_heap_of_ne _ hq) id
      exact heq ▸ h3.of_heap (forwarded_others ret k hq) id
  | answered m₁ name ret k hpar hst hname hfd hal hput heq =>
      have h1 : Idle m₁ q := hparse hpar
      have h2 : Idle (m₁.answered p name) q := h1.remove.of_heap (set_heap_of_ne _ hq) id
      exact heq ▸ h2.of_heap (forwarded_others ret k hq) id

/-! ## A detection pass -/

/-- A pass that finds no task on a silent record gives none to any, and asks
nothing of the kernel but the mutex. -/
theorem detectPass_quiet {now : ℚ} {mem : Worker} {ios : Nat → List ResendIo} :
    ∀ {ps : List Nat} {m : Master},
      (∀ p ∈ ps, silent (m.heap p) now = true → (m.heap p).tasks = []) →
      m.detectPass now mem ios ps = some m' →
      m'.log = m.log ∧ (∀ q, (m'.heap q).tasks = (m.heap q).tasks)
        ∧ ∃ held relocked, m'.kernel = { m.kernel with held := held, relocked := relocked }
  | [], m, _, h => by
      obtain rfl := Option.some.inj h
      exact ⟨rfl, fun _ => rfl, _, _, rfl⟩
  | p :: ps, m, hquiet, h => by
      rw [Master.detectPass] at h
      split at h
      · rename_i hsil
        obtain ⟨m₁, h1, h2⟩ := Option.bind_eq_some_iff.mp h
        have htasks := hquiet p (List.mem_cons_self ..) hsil
        rcases reschedule_spec h1 (by simp) with ⟨-, rfl⟩ | ⟨t, m₂, ht, -, -⟩
        · have hrec : ∀ q, silent ((Master.set { m with kernel := m.kernel.lock.unlock } p
                { m.heap p with alive := false }).heap q) now = true →
              silent (m.heap q) now = true := fun q hq => by
            by_cases hqp : q = p
            · rw [hqp, set_heap_self] at hq
              simp [silent] at hq
            · rwa [set_heap_of_ne _ hqp] at hq
          have hsame : ∀ q, ((Master.set { m with kernel := m.kernel.lock.unlock } p
                { m.heap p with alive := false }).heap q).tasks = (m.heap q).tasks := fun q => by
            by_cases hqp : q = p
            · rw [hqp, set_heap_self]
            · rw [set_heap_of_ne _ hqp]
          obtain ⟨hlog, hall, held, relocked, hk⟩ := detectPass_quiet (fun q hq hs =>
            (hsame q).trans (hquiet q (List.mem_cons_of_mem _ hq) (hrec q hs))) h2
          exact ⟨hlog, fun q => (hall q).trans (hsame q), held, relocked, hk⟩
        · rw [set_heap_self] at ht
          rw [ht] at htasks
          cases htasks
      · exact detectPass_quiet (m := { m with kernel := m.kernel.lock.unlock })
          (fun q hq => hquiet q (List.mem_cons_of_mem _ hq)) h

theorem acceptConnections_tasks :
    ∀ (cs : List Conn) {m : Master}, (m.heap q).tasks = [] →
      ((m.acceptConnections cs).heap q).tasks = [] := by
  intro cs m h
  refine acceptConnections_invariant (I := fun m => (m.heap q).tasks = []) (fun m c h => ?_) h
  by_cases hq : q = m.nextWorker
  · rw [hq, acceptOne_new]
    rfl
  · rw [acceptOne_of_ne c hq]
    exact h

theorem not_mem_newLog {o : Obs} (h : m'.log = m.log) : o ∉ newLog m m' := by
  rw [newLog_of_append (l := []) (by rw [h, List.append_nil])]
  exact List.not_mem_nil

end Master

end KeyLime
