import KeyLime.Conservation

/-!
# Who is given a task

What a step does to a record that is there before it (`Step.aged`). And who
`schedule` can choose in it: in any step it returns -1 or the descriptor of
a record that was live and listed before (`Step.schedulable`), and when it
is called for a submission, of one other than the record of the submission
(`parsePhase_eligible`).

A record never comes back. It keeps its descriptor for good, joins no list it
was not made for, and leaves `worker_list` only as the interface, that is, when
live; and of the things that happen to it only a heartbeat can turn it from dead
to live. These facts (`Aged`) are what arguments over a whole run are made of: a
property of a record that is dead and stays unheard of can only be kept.
-/

namespace KeyLime

namespace Master

variable {m m' m₁ : Master} {fd : Int} {p : Nat} {io : DataIo} {e : Event} {t : Task}

/-- A submission is given to a record other than its own, as from before the
call, but for the task lists. -/
theorem parsePhase_eligible {rio : RecvIo} (hr : Registry m) (hat : At m fd p)
    (hpar : m.parsePhase fd p rio = some (.next m₁)) (hfd : fd = m₁.interfaceFd) (q : Nat) :
    m₁.Eligible q ↔ q ≠ p ∧ m.Eligible q := by
  have hothers : q ≠ p → m₁.heap q = m.heap q := (parsePhase_parserOnly hpar).others q
  have hlist : q ∈ m₁.workerList ↔ q ≠ p ∧ q ∈ m.workerList := by
    cases parsePhase_change hr hat hpar with
    | same hs =>
        have hwl : m₁.workerList = m.workerList := hs.workerList
        have hp : p ∉ m.workerList := by
          rcases hat.place with ⟨-, h⟩ | ⟨-, -, h⟩
          · exact (h (hfd.trans hs.interfaceFd)).elim
          · exact h
        rw [hwl]
        exact ⟨fun h => ⟨fun heq => hp (heq ▸ h), h⟩, And.right⟩
    | joins hj =>
        have hwl : m₁.workerList = m.workerList.erase p := hj.workerList
        rw [hwl, hr.nodup.mem_erase_iff]
    | quits hq hf => cases hf
  unfold Eligible
  rw [hlist]
  constructor
  · rintro ⟨⟨hne, hmem⟩, hrest⟩
    exact ⟨hne, hmem, hothers hne ▸ hrest⟩
  · rintro ⟨hne, hmem, hrest⟩
    exact ⟨⟨hne, hmem⟩, (hothers hne).symm ▸ hrest⟩

/-! ## What a step does to a record that is there -/

/-- The record a heartbeat is taken for. -/
def beating (m : Master) : Event → Option Nat
  | .heartbeat addr _ _ => m.workerList.find? fun p => (m.heap p).ip = addr
  | _ => none

/-- Record `q` across a step: it keeps its descriptor; it joins no list, and
leaves the list only when live; and it is revived by its heartbeats only. -/
structure Aged (q : Nat) (m : Master) (e : Event) (m' : Master) : Prop where
  workerFd : (m'.heap q).workerFd = (m.heap q).workerFd
  lt : q < m'.nextWorker
  listed : q ∈ m'.workerList → q ∈ m.workerList
  stays : q ∈ m.workerList → (m.heap q).alive = false → q ∈ m'.workerList
  alive : (m'.heap q).alive = true → (m.heap q).alive = true ∨ m.beating e = some q

theorem acceptConnections_old :
    ∀ (cs : List Conn) {m : Master} {q : Nat}, q < m.nextWorker →
      (m.acceptConnections cs).heap q = m.heap q ∧ q < (m.acceptConnections cs).nextWorker
        ∧ (q ∈ (m.acceptConnections cs).workerList ↔ q ∈ m.workerList)
  | [], _, _, hq => ⟨rfl, hq, Iff.rfl⟩
  | c :: cs, m, q, hq => by
      obtain ⟨h1, h2, h3⟩ := acceptConnections_old cs (m := m.acceptOne c)
        (hq.trans (Nat.lt_succ_self _))
      refine ⟨h1.trans ?_, h2, h3.trans ?_⟩
      · exact set_heap_of_ne _ hq.ne
      · show q ∈ m.workerList ++ [m.nextWorker] ↔ _
        simp [hq.ne]

theorem Step.aged {q : Nat} (hr : Reachable m) (hs : Step m e m') (hq : q < m.nextWorker) :
    Aged q m e m' := by
  cases e with
  | accept cs =>
      obtain rfl := Option.some.inj hs.2
      obtain ⟨h1, h2, h3⟩ := acceptConnections_old cs hq
      exact ⟨by rw [h1], h2, h3.mp, fun h _ => h3.mpr h, fun h => Or.inl (h1 ▸ h)⟩
  | data fd arrived io =>
      obtain ⟨p, hat, -, hr0, hat0, -, hcase⟩ := hs.call hr
      rcases hcase with ⟨-, rfl⟩ | ⟨halive, hcase⟩
      · exact ⟨rfl, hq, id, fun h _ => h, Or.inl⟩
      · have h : Attended p (m.arriving fd arrived) m' := hcase.attended hr0 hat0
        have hlist : m'.workerList = m.workerList ∨ m'.workerList = m.workerList.erase p :=
          h.workerList
        refine ⟨?_, h.nextWorker ▸ hq, ?_, ?_, fun hal => Or.inl ?_⟩
        · by_cases hqp : q = p
          · exact hqp ▸ h.workerFd
          · obtain ⟨ts, heq⟩ := h.others q hqp
            rw [heq]
            rfl
        · intro hmem
          rcases hlist with heq | heq <;> rw [heq] at hmem
          · exact hmem
          · exact List.mem_of_mem_erase hmem
        · intro hmem hdead
          rcases hlist with heq | heq <;> rw [heq]
          · exact hmem
          · refine (List.mem_erase_of_ne fun hqp => ?_).mpr hmem
            rw [hqp, halive] at hdead
            cases hdead
        · by_cases hqp : q = p
          · exact hqp ▸ halive
          · obtain ⟨ts, heq⟩ := h.others q hqp
            rw [heq] at hal
            exact hal
  | heartbeat addr usage now =>
      obtain rfl := Option.some.inj hs.2
      have hsame := reportHeartbeat_same hr.registry.ranged addr usage now
      refine ⟨hsame.workerFd q, hsame.nextWorker ▸ hq, fun h => hsame.workerList ▸ h,
        fun h _ => hsame.workerList ▸ h, fun hal => ?_⟩
      unfold beating
      unfold reportHeartbeat at hal
      split at hal
      · exact Or.inl hal
      · rename_i p hp
        by_cases hqp : q = p
        · exact Or.inr (hqp ▸ hp)
        · refine Or.inl ?_
          rw [← set_heap_of_ne _ hqp]
          exact hal
  | detect now mem ios =>
      have hsame := detectPass_same hr.registry.ranged hs.2
      exact ⟨hsame.workerFd q, hsame.nextWorker ▸ hq, fun h => hsame.workerList ▸ h,
        fun h _ => hsame.workerList ▸ h, fun hal => Or.inl (detectPass_alive q hs.2 hal)⟩

theorem Step.log (hr : Reachable m) (hs : Step m e m') : ∃ l, m'.log = m.log ++ l := by
  cases e with
  | data fd arrived io =>
      obtain ⟨p, hat, hready0, -, hat0, -, hcase⟩ := hs.call hr
      rcases hcase with ⟨-, rfl⟩ | ⟨halive, hcase⟩
      · exact ⟨[], (List.append_nil _).symm⟩
      · exact CallCase.log (m := m.arriving fd arrived) hready0 hat0 halive hcase
  | _ =>
      obtain ⟨l, hl, -⟩ := hs.passes hr.registry nofun
      exact ⟨l, hl⟩

/-! ## Targets -/

theorem Schedulable.ne_dead {r : Int} (hr : Registry m) (h : m.Schedulable r)
    (hp : p ∈ m.workerList) (hal : (m.heap p).alive = false) : r ≠ (m.heap p).workerFd := by
  rintro rfl
  rcases h with h | ⟨q, hq, hqal, hfd⟩
  · exact hr.ranged.ne (hr.isOpen p hp) h
  · obtain rfl := hr.fdInj q hq p hp hfd
    rw [hal] at hqal
    cases hqal

theorem submitted_target {rio : RecvIo} {r : Int} (hr : Registry m) (hat : At m fd p)
    (hpar : m.parsePhase fd p rio = some (.next m₁)) (hfd : fd = m₁.interfaceFd)
    (h : m₁.target = r) :
    r = -1 ∨ ∃ q, m₁.bestWorker = some q ∧ q ≠ p ∧ m.Eligible q ∧ (m.heap q).workerFd = r := by
  subst h
  unfold target
  cases hb : m₁.bestWorker with
  | none => exact Or.inl rfl
  | some q =>
      obtain ⟨hne, helig⟩ :=
        (parsePhase_eligible hr hat hpar hfd q).mp (bestWorker_eligible hb)
      refine Or.inr ⟨q, rfl, hne, helig, ?_⟩
      exact congrArg Worker.workerFd ((parsePhase_parserOnly hpar).others q hne).symm

/-- **Targets.** A step that calls `schedule` chooses a record that could be given a
task in the state before, or reports -1. -/
theorem Step.schedulable {r : Int} (hr : Reachable m) (hs : Step m e m')
    (ho : .scheduled t r ∈ newLog m m') : m.Schedulable r := by
  have hno : ∀ p, ¬ OfParser p (.scheduled t r) := by
    rintro p (⟨_, _, _, h⟩ | ⟨_, h⟩) <;> cases h
  cases e with
  | data fd arrived io =>
      obtain ⟨p, hat, hready0, hr0, hat0, -, hcase⟩ := hs.call hr
      have hnone : ∀ {m₁ : Master}, ParserOnly p (m.arriving fd arrived) m₁ → m' = m₁ → False :=
        fun hp heq => nomatch hp.mem_rest (l := []) (heq ▸ (List.append_nil _).symm) ho (hno p)
      rcases hcase with ⟨-, rfl⟩ | ⟨-, hcase⟩
      · exact (hnone (.refl _ p) rfl).elim
      · cases hcase with
        | unfinished f hpar hst heq => exact (hnone (parsePhase_parserOnly hpar) heq).elim
        | dropped m₁ hpar hst hfd hal heq => exact (hnone (parsePhase_parserOnly hpar) heq).elim
        | submitted m₁ name ret k hpar hst hname hfd hput heq =>
            have hp : ParserOnly p (m.arriving fd arrived) m₁ := parsePhase_parserOnly hpar
            have hlog := forwarded_log (m := m₁.submitted p name) (p := p) fd ret k
            rw [submitted_log, List.append_assoc, ← heq] at hlog
            have hmem := hp.mem_rest hlog ho (hno p)
            have htgt : m₁.target = r := by
              simp only [List.cons_append, List.nil_append, List.mem_cons, List.not_mem_nil,
                reduceCtorEq, or_false, false_or, Obs.scheduled.injEq] at hmem
              exact hmem.2.symm
            rcases submitted_target hr0 hat0 hpar hfd htgt with h | ⟨q, -, -, helig, hq⟩
            · exact Or.inl h
            · exact Or.inr ⟨q, helig.1, helig.2.1, hq⟩
        | answered m₁ name ret k hpar hst hname hfd hal hput heq =>
            have hp : ParserOnly p (m.arriving fd arrived) m₁ := parsePhase_parserOnly hpar
            have hlog := forwarded_log (m := m₁.answered p name) (p := p) fd ret k
            rw [answered_log, List.append_assoc, ← heq] at hlog
            have hmem := hp.mem_rest hlog ho (hno p)
            simp at hmem
  | _ =>
      obtain ⟨l, hl, hpass⟩ := hs.passes hr.registry nofun
      rw [newLog_of_append hl] at ho
      rcases hpass _ ho with ⟨t', r', hr', h⟩ | ⟨_, _, _, h⟩
      · obtain ⟨rfl, rfl⟩ := Obs.scheduled.inj h
        exact hr'
      · cases h

end Master

end KeyLime
