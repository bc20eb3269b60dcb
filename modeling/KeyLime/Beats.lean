import KeyLime.Recovery

/-!
# Heartbeats

A heartbeat is credited to the first record of the list with the address it
came from. What it leaves in the record, a detection pass reads later; in
between, the parser resets the record behind every frame it forwards, and
the time of the heartbeat with it.

Two results, one for each of these. `heartbeat_credited_iff` is about one
datagram: it reaches its sender unless an earlier record has the same address,
since the port is not looked at and two workers on one host have one address.

`beats_kept` is about runs. What was the last heartbeat of a record is not part
of the state, since the record may have lost it, so runs are taken with a map of
the last heartbeats beside them (`TimedStep`), which nobody but the specification
looks at. The invariant is that the records agree with the map, as long as none
that has a heartbeat is reset (`keepsBeats`); with the map, "silent for more than
three seconds" is a statement about the worker and not about what its record says.
-/

namespace KeyLime

open Resume Transition

namespace Master

variable {m m' m₁ : Master} {fd : Int} {p q : Nat} {f : Flow} {io : DataIo} {e : Event}

/-! ## Who is credited -/

/-- A heartbeat has been credited to record `p` and to no other. -/
def Credited (m : Master) (p : Nat) (usage now : ℚ) (m' : Master) : Prop :=
  ∀ q, m'.heap q =
    if q = p then { m.heap q with cpuUsage := usage, lastBeatReceived := now, alive := true }
    else m.heap q

/-- The records of the list before record `p`. -/
def listedBefore (m : Master) (p : Nat) : List Nat := m.workerList.takeWhile (· ≠ p)

theorem reportHeartbeat_credited {addr : Bytes} (usage now : ℚ)
    (h : (m.workerList.find? fun p => (m.heap p).ip = addr) = some q) :
    m.Credited q usage now (m.reportHeartbeat addr usage now) := by
  intro r
  rw [reportHeartbeat, h]
  show (m.set q _).heap r = _
  by_cases hrq : r = q
  · rw [hrq, set_heap_self, if_pos rfl]
  · rw [set_heap_of_ne _ hrq, if_neg hrq]

theorem find_address (hp : p ∈ m.workerList) :
    (m.workerList.find? fun q => (m.heap q).ip = (m.heap p).ip) = some p
      ↔ ∀ q ∈ m.listedBefore p, (m.heap q).ip ≠ (m.heap p).ip := by
  unfold listedBefore
  revert hp
  generalize m.workerList = l
  intro hp
  induction l with
  | nil => cases hp
  | cons r l ih =>
      by_cases hrp : r = p
      · subst hrp
        simp
      · have hmem : p ∈ l := (List.mem_cons.mp hp).resolve_left fun h => hrp h.symm
        rw [List.takeWhile_cons_of_pos (by simpa using hrp), List.forall_mem_cons]
        by_cases hip : (m.heap r).ip = (m.heap p).ip
        · rw [List.find?_cons_of_pos (by simpa using hip)]
          exact iff_of_false (fun h => hrp (Option.some.inj h)) fun h => h.1 hip
        · rw [List.find?_cons_of_neg (by simpa using hip), ih hmem]
          exact ⟨fun h => ⟨hip, h⟩, And.right⟩

/-- **Heartbeats are credited to their sender** exactly when no record before
that of the sender has its address. The scan compares addresses without ports
and takes the first record that matches, so of several workers behind one
address only the first is ever credited. Usage and time are any. -/
theorem heartbeat_credited_iff (hp : p ∈ m.workerList) :
    (∀ usage now, m.Credited p usage now (m.reportHeartbeat (m.heap p).ip usage now))
      ↔ ∀ q ∈ m.listedBefore p, (m.heap q).ip ≠ (m.heap p).ip := by
  rw [← find_address hp]
  constructor
  · intro h
    obtain ⟨q, hq⟩ : ∃ q, (m.workerList.find? fun q => (m.heap q).ip = (m.heap p).ip) = some q :=
      Option.isSome_iff_exists.mp (List.find?_isSome.mpr ⟨p, hp, by simp⟩)
    by_contra hne
    have hqp : q ≠ p := fun heq => hne (heq ▸ hq)
    -- a usage that the record of that address does not have yet
    have h1 := h ((m.heap q).cpuUsage + 1) 0 q
    have h2 := reportHeartbeat_credited ((m.heap q).cpuUsage + 1) 0 hq q
    rw [if_pos rfl] at h2
    rw [if_neg hqp, h2] at h1
    have := congrArg Worker.cpuUsage h1
    simp at this
  · exact fun h usage now => reportHeartbeat_credited _ _ h

/-- Two workers on different hosts. -/
theorem heartbeat_credited_two :
    ∃ m, Reachable m ∧ 1 ∈ m.workerList ∧ (m.heap 1).workerFd = 7
      ∧ m.Credited 1 50 1 (m.reportHeartbeat (m.heap 1).ip 50 1) := by
  obtain ⟨m, hr, hv⟩ := execWithin_spec (c := fun _ _ => true) id (v := true)
    ([.accept [⟨6, [1], default⟩, ⟨7, [2], default⟩]])
    (f := fun m => decide (1 ∈ m.workerList ∧ (m.heap 1).workerFd = 7
      ∧ ∀ q ∈ m.listedBefore 1, (m.heap q).ip ≠ (m.heap 1).ip)) (by decide)
  obtain ⟨hp, hfd, hfirst⟩ := of_decide_eq_true hv
  exact ⟨m, hr.reachable, hp, hfd, (heartbeat_credited_iff hp).mpr hfirst 50 1⟩

/-- Two workers on one host: the heartbeat of the second is credited to the
first. -/
theorem heartbeat_credited_other :
    ∃ m m', Reachable m ∧ 1 ∈ m.workerList ∧ (m.heap 1).workerFd = 7 ∧ (m.heap 1).ip = [1]
      ∧ Step m (.heartbeat [1] 50 1) m' ∧ (m.heap 0).workerFd = 6
      ∧ (m.heap 0).lastBeatReceived = 0 ∧ (m'.heap 0).lastBeatReceived = 1
      ∧ (m'.heap 1).lastBeatReceived = 0 := by
  obtain ⟨m, m', hr, hs, hv⟩ := execStep_spec id (v := true)
    ([.accept [⟨6, [1], default⟩, ⟨7, [1], default⟩]]) (e := .heartbeat [1] 50 1)
    (f := fun m m' => decide (1 ∈ m.workerList ∧ (m.heap 1).workerFd = 7 ∧ (m.heap 1).ip = [1]
      ∧ (m.heap 0).workerFd = 6 ∧ (m.heap 0).lastBeatReceived = 0
      ∧ (m'.heap 0).lastBeatReceived = 1 ∧ (m'.heap 1).lastBeatReceived = 0)) (by decide)
  obtain ⟨h1, h2, h3, h4⟩ := of_decide_eq_true hv
  exact ⟨m, m', hr, h1, h2, h3, hs, h4⟩

/-! ## What the parser does to it -/

/-- The call finds the end of a frame that it forwards, and so resets the
record. -/
def resets (m : Master) (fd : Int) (p : Nat) (s : List Item) : Bool :=
  match (m.reading p s).1 with
  | .done v _ got =>
      decide (m.Submits fd p v) || !got.isEmpty || (m.heap p).status == .forwardData
  | _ => false

/-- The call takes record `p` beyond a header that makes it the interface. -/
def registers (m : Master) (p : Nat) (s : List Item) : Bool :=
  m.interfaceFd == -1 && (m.heap p).status == .start
    && match (headerReader.feed (.header (m.heap p).command) (readable s)).1 with
      | .size .interfacePut _ _ _ => true
      | _ => false

theorem parsePhase_registers {rio : RecvIo} (hpar : m.parsePhase fd p rio = some f)
    (h : Registers m p f.master) :
    m.registers p (m.kernel.inbox (m.heap p).workerFd) = true := by
  obtain ⟨hst, hst', hverb, hifd⟩ := h
  -- the later branches leave the verb alone
  obtain ⟨f₁, h1, hst₁, hverb₁⟩ : ∃ f₁, m.headerStage fd p = some f₁
      ∧ (f₁.master.heap p).status ≠ .start ∧ (f₁.master.heap p).toDo = .interfacePut := by
    rw [parsePhase, Flow.andThen_assoc] at hpar
    rcases Flow.andThen_eq_some.mp hpar with ⟨m₁, h1, rfl⟩ | ⟨m₁, h1, h2⟩
    · exact ⟨_, h1, hst', hverb⟩
    · refine ⟨_, h1, ?_, ?_⟩ <;>
        rcases Flow.andThen_eq_some.mp h2 with ⟨m₂, h3, rfl⟩ | ⟨m₂, h3, h4⟩
      · exact fun h => hst' ((sizeStage_keeps h3).2.mpr h)
      · exact fun h => hst' ((dataStage_keeps h4).2.mpr ((sizeStage_keeps h3).2.mpr h))
      · exact (sizeStage_keeps h3).1.symm.trans hverb
      · exact (sizeStage_keeps h3).1.symm.trans ((dataStage_keeps h4).1.symm.trans hverb)
  have key : ∀ {r : Parsed}, getCommand (m.kernel.inbox (m.heap p).workerFd) (m.heap p) = some r →
      r.ret = .doneSending → r.w.toDo = .interfacePut →
        m.registers p (m.kernel.inbox (m.heap p).workerFd) = true := fun hr hret hv => by
    rcases getCommand_spec hr with ⟨_, -, hret', -⟩ | ⟨line, v, name, hfeed, -, -, -, hw⟩
      | ⟨_, _, _, -, hret', -⟩
    · exact (stopped_ne_done _ (hret'.symm.trans hret)).elim
    · have : v = .interfacePut := by rw [← hv, hw]
      simp [registers, hfeed, hifd, hst, this]
    · rw [hret] at hret'
      cases hret'
  have hstart : ∀ {r : Parsed}, getCommand (m.kernel.inbox (m.heap p).workerFd) (m.heap p) = some r →
      r.w.status = .start := fun hr => (getCommand_status hr).trans hst
  cases headerStage_case h1 with
  | skip hst' => exact (hst' hst).elim
  | more r _ hr hret => exact (hst₁ (by simp [Flow.master, hstart hr])).elim
  | header r _ hr hret hno => exact key hr hret (by simpa [Flow.master] using hverb₁)
  | register r m₁ _ hr hret hv => exact key hr hret hv
  | reject r _ hr hret => exact (hst₁ (by simp [Flow.master, hstart hr])).elim
  | quit r _ hr hret => exact (hst₁ (by simp [Flow.master, hstart hr])).elim

theorem parsePhase_resets {arrived : List Item} {rio : RecvIo}
    (hready : Ready (m.arriving fd arrived)) (hr : Registry (m.arriving fd arrived))
    (hat : At (m.arriving fd arrived) fd p) (halive : (m.heap p).alive = true)
    (hpar : (m.arriving fd arrived).parsePhase fd p rio = some (.next m₁))
    (hst : (m₁.heap p).status = .forwardData)
    (hlive : fd = m₁.interfaceFd ∨ (m₁.heap p).alive = true) :
    m.resets fd p (m.stream fd arrived) = true := by
  obtain ⟨v, name, got, hcomp⟩ := parsePhase_complete hready hat halive hpar hst
  have hends : m.Submits fd p v ∨ got ≠ [] ∨ (m.heap p).status = .forwardData := by
    rcases hlive with hfd | hal
    · exact Or.inl ((hcomp.interface_iff hr hat hpar hst).mp hfd)
    · rcases hcomp.now with ⟨h, -⟩ | ⟨-, hal', -⟩
      · exact Or.inr (Or.inr h)
      · rw [hal, eq_comm, decide_eq_true_eq] at hal'
        exact Or.inr (Or.inl hal')
  simpa [resets, hcomp.reading_eq, or_assoc] using hends

example : ((init id).acceptConnections [⟨6, [1], default⟩]).resets 6 0 (resultFrame.map .byte)
    = true := by
  decide +kernel

theorem CallCase.parsed {arrived : List Item} (hready : Ready (m.arriving fd arrived))
    (hr : Registry (m.arriving fd arrived)) (hat : At (m.arriving fd arrived) fd p)
    (halive : (m.heap p).alive = true) (hc : CallCase fd p io (m.arriving fd arrived) m')
    (hno : m.resets fd p (m.stream fd arrived) = false) :
    ∃ f, (m.arriving fd arrived).parsePhase fd p io.recv = some f ∧ m' = f.master := by
  cases hc with
  | unfinished f hpar hst heq => exact ⟨f, hpar, heq⟩
  | dropped m₁ hpar hst hfd hal heq => exact ⟨_, hpar, heq⟩
  | submitted m₁ name ret k hpar hst hname hfd hput heq =>
      rw [parsePhase_resets hready hr hat halive hpar hst (Or.inl hfd)] at hno
      cases hno
  | answered m₁ name ret k hpar hst hname hfd hal hput heq =>
      rw [parsePhase_resets hready hr hat halive hpar hst (Or.inr hal)] at hno
      cases hno

/-! ## Passes -/

theorem reschedule_lastBeat {mem : Worker} {ios : List ResendIo}
    (hal : (m.heap p).alive = false) (h : m.reschedule p mem ios = some m') (q : Nat) :
    (m'.heap q).lastBeatReceived = (m.heap q).lastBeatReceived := by
  rcases reschedule_spec h hal with ⟨-, rfl⟩ | ⟨t, m₁, -, h1, rfl⟩
  · rfl
  · by_cases hq : q = p
    · rw [hq, set_heap_self]
    · obtain ⟨k, ret, rfl, -⟩ := resend_eq h1
      obtain ⟨ts, hrec⟩ := schedule_record (m := m) t q
      rw [set_heap_of_ne _ hq]
      change ((m.schedule t).1.heap q).lastBeatReceived = _
      rw [hrec]

theorem detectPass_lastBeat {now : ℚ} {mem : Worker} {ios : Nat → List ResendIo} (q : Nat) :
    ∀ {ps : List Nat} {m : Master}, m.detectPass now mem ios ps = some m' →
      (m'.heap q).lastBeatReceived = (m.heap q).lastBeatReceived
  | [], m, h => by
      obtain rfl := Option.some.inj h
      rfl
  | p :: ps, m, h => by
      rw [detectPass] at h
      split at h
      · obtain ⟨m₁, h1, h2⟩ := Option.bind_eq_some_iff.mp h
        rw [detectPass_lastBeat q h2, reschedule_lastBeat (by simp) h1]
        by_cases hq : q = p
        · rw [hq, set_heap_self]
        · rw [set_heap_of_ne _ hq]
      · exact detectPass_lastBeat (m := { m with kernel := m.kernel.lock.unlock }) q h

theorem detectPass_marks {now : ℚ} {mem : Worker} {ios : Nat → List ResendIo} :
    ∀ {ps : List Nat} {m : Master}, q ∈ ps → 0 < (m.heap q).lastBeatReceived →
      3 < now - (m.heap q).lastBeatReceived → m.detectPass now mem ios ps = some m' →
        (m'.heap q).alive = false
  | p :: ps, m, hq, hbeat, hlong, h => by
      cases hlive : (m'.heap q).alive with
      | false => rfl
      | true =>
          have hal := detectPass_alive q h hlive
          rw [detectPass] at h
          split at h
          · obtain ⟨m₁, h1, h2⟩ := Option.bind_eq_some_iff.mp h
            have hal1 := detectPass_alive q h2 hlive
            rw [reschedule_alive (by simp) h1] at hal1
            have hqp : q ≠ p := fun heq => by
              rw [heq, set_heap_self] at hal1
              cases hal1
            have hrec := reschedule_lastBeat (by simp) h1 q
            rw [set_heap_of_ne _ hqp] at hrec
            change (m₁.heap q).lastBeatReceived = (m.heap q).lastBeatReceived at hrec
            have hdead := detectPass_marks ((List.mem_cons.mp hq).resolve_left hqp)
              (hrec ▸ hbeat) (hrec ▸ hlong) h2
            exact hlive.symm.trans hdead
          · rename_i hloud
            have hqp : q ≠ p := fun heq => hloud (by
              rw [← heq]
              simp [silent, hbeat, hal, hlong])
            have hdead := detectPass_marks (m := { m with kernel := m.kernel.lock.unlock })
              ((List.mem_cons.mp hq).resolve_left hqp) hbeat hlong h
            exact hlive.symm.trans hdead

/-! ## Every run -/

/-- The last heartbeat each record was credited with, after one more event. -/
def beatsAfter (m : Master) (beats : Nat → Option ℚ) : Event → Nat → Option ℚ
  | .heartbeat addr _ now =>
      match m.workerList.find? fun p => (m.heap p).ip = addr with
      | some p => Function.update beats p (some now)
      | none => beats
  | _ => beats

def TimedStep (s : Master × (Nat → Option ℚ)) (e : Event) (s' : Master × (Nat → Option ℚ)) :
    Prop :=
  Step s.1 e s'.1 ∧ s'.2 = s.1.beatsAfter s.2 e

/-- `m` is reached in some run whose steps all meet `c`, with these last
heartbeats. -/
def TimedWithin (c : Master → Event → Bool) (m : Master) (beats : Nat → Option ℚ) : Prop :=
  ∃ resolve, Reach (Within TimedStep fun s e _ => c s.1 e = true) (init resolve, fun _ => none)
    (m, beats)

/-- No record that has a heartbeat is reset or becomes the interface, and
times are positive. -/
def keepsBeats (m : Master) : Event → Bool
  | .data fd arrived _ =>
      match m.current fd with
      | some p =>
          !(m.heap p).alive || (m.heap p).lastBeatReceived == 0
            || !(m.resets fd p (m.stream fd arrived) || m.registers p (m.stream fd arrived))
      | none => true
  | .heartbeat _ _ now => decide (0 < now)
  | _ => true

/-- The records keep the times of their last heartbeats, which are not 0, and stay
listed: all that a detection pass needs to find them silent. -/
def Kept (m : Master) (beats : Nat → Option ℚ) : Prop :=
  ∀ q t, beats q = some t → (m.heap q).lastBeatReceived = t ∧ 0 < t ∧ q ∈ m.workerList

theorem Step.kept {beats : Nat → Option ℚ} (hr : Reachable m) (hk : Kept m beats)
    (hs : Step m e m') (hc : m.keepsBeats e = true) : Kept m' (m.beatsAfter beats e) := by
  cases e with
  | heartbeat addr usage now =>
      obtain rfl := Option.some.inj hs.2
      have hlist := (reportHeartbeat_same hr.registry.ranged addr usage now).workerList
      intro q t hq
      rw [hlist]
      rw [beatsAfter] at hq
      cases hfind : m.workerList.find? fun p => (m.heap p).ip = addr with
      | none =>
          have hsame : m.reportHeartbeat addr usage now = m := by rw [reportHeartbeat, hfind]
          rw [hfind] at hq
          rw [hsame]
          exact hk q t hq
      | some p =>
          rw [hfind] at hq
          rw [reportHeartbeat_credited _ _ hfind q]
          by_cases hqp : q = p
          · subst hqp
            obtain rfl : now = t := by simpa using hq
            exact ⟨by simp, of_decide_eq_true hc, List.mem_of_find?_eq_some hfind⟩
          · rw [if_neg hqp]
            exact hk q t (by simpa [hqp] using hq)
  | accept cs =>
      obtain rfl := Option.some.inj hs.2
      show Kept _ beats
      intro q t hq
      obtain ⟨hbeat, hpos, hmem⟩ := hk q t hq
      obtain ⟨hrec, -, hlist⟩ := acceptConnections_old cs (hr.registry.lt q hmem)
      exact ⟨by rw [hrec, hbeat], hpos, hlist.mpr hmem⟩
  | detect now mem ios =>
      show Kept _ beats
      intro q t hq
      obtain ⟨hbeat, hpos, hmem⟩ := hk q t hq
      refine ⟨(detectPass_lastBeat q hs.2).trans hbeat, hpos, ?_⟩
      rw [(detectPass_same hr.registry.ranged hs.2).workerList]
      exact hmem
  | data fd arrived io =>
      show Kept _ beats
      obtain ⟨p, hat, hready0, hr0, hat0, -, hcase⟩ := hs.call hr
      rcases hcase with ⟨-, rfl⟩ | ⟨halive, hcase⟩
      · exact hk
      · have hatt : Attended p (m.arriving fd arrived) m' := hcase.attended hr0 hat0
        intro q t hq
        obtain ⟨hbeat, hpos, hmem⟩ := hk q t hq
        by_cases hqp : q = p
        · subst hqp
          have hne : ((m.heap q).lastBeatReceived == 0) = false := by
            rw [hbeat, beq_eq_false_iff_ne]
            exact hpos.ne'
          have hno : m.resets fd q (m.stream fd arrived) = false
              ∧ m.registers q (m.stream fd arrived) = false := by
            simpa [keepsBeats, hat.current, halive, hne] using hc
          obtain ⟨f, hpar, rfl⟩ := hcase.parsed hready0 hr0 hat0 halive hno.1
          refine ⟨(parsePhase_parserOnly hpar).record.lastBeat.trans hbeat, hpos, ?_⟩
          cases parsePhase_change hr0 hat0 hpar with
          | same hs => exact hs.workerList ▸ hmem
          | quits hq => exact hq.workerList ▸ hmem
          | joins hj hyes =>
              have hreg := parsePhase_registers hpar hyes
              rw [hat0.workerFd, arriving_inbox] at hreg
              change m.registers q (m.stream fd arrived) = true at hreg
              rw [hno.2] at hreg
              cases hreg
        · obtain ⟨ts, hrec⟩ := hatt.others q hqp
          refine ⟨by rw [hrec]; exact hbeat, hpos, ?_⟩
          rcases hatt.workerList with heq | heq <;> rw [heq]
          · exact hmem
          · exact (List.mem_erase_of_ne hqp).mpr hmem

theorem TimedWithin.kept {beats : Nat → Option ℚ} (h : TimedWithin keepsBeats m beats) :
    Kept m beats := by
  obtain ⟨resolve, h⟩ := h
  refine (h.invariant (I := fun s => Reachable s.1 ∧ Kept s.1 s.2)
    ⟨⟨resolve, .refl⟩, fun _ _ h => by cases h⟩
    fun s e s' _ hi hs => ⟨hi.1.step hs.1.1, ?_⟩).2
  rw [hs.1.2]
  exact Step.kept hi.1 hi.2 hs.1.1 hs.2

/-- **Heartbeats are not lost.** In a run in which no record that has a
heartbeat forwards a frame or becomes the interface, every record keeps the
time of its last heartbeat, and a detection pass marks every live record
whose last heartbeat is more than three seconds old. A record that forwards is
reset, time and all, and is then not looked at until it beats again. -/
theorem beats_kept {beats : Nat → Option ℚ} (h : TimedWithin keepsBeats m beats) :
    (∀ p t, beats p = some t → (m.heap p).lastBeatReceived = t)
      ∧ ∀ now mem ios m', Step m (.detect now mem ios) m' →
        ∀ p t, beats p = some t → 3 < now - t → (m'.heap p).alive = false := by
  have hk := h.kept
  refine ⟨fun p t hp => (hk p t hp).1, ?_⟩
  intro now mem ios m' hs p t hp hlong
  obtain ⟨hbeat, hpos, hmem⟩ := hk p t hp
  rw [← hbeat] at hlong hpos
  exact detectPass_marks hmem hpos hlong hs.2

def execTimed (c : Master → Event → Bool) (m : Master) (beats : Nat → Option ℚ) :
    List Event → Option (Master × (Nat → Option ℚ))
  | [] => some (m, beats)
  | e :: es =>
      if m.enabled e && c m e then
        (m.handle e).bind fun m' => m'.execTimed c (m.beatsAfter beats e) es
      else none

theorem execTimed_reach {c : Master → Event → Bool} {s₀ : Master × (Nat → Option ℚ)} :
    ∀ {es : List Event} {m m' : Master} {beats beats' : Nat → Option ℚ},
      Reach (Within TimedStep fun s e _ => c s.1 e = true) s₀ (m, beats) →
        m.execTimed c beats es = some (m', beats') →
          Reach (Within TimedStep fun s e _ => c s.1 e = true) s₀ (m', beats')
  | [], _, _, _, _, hr, h => by
      obtain ⟨rfl, rfl⟩ := Prod.mk.inj (Option.some.inj h)
      exact hr
  | e :: es, m, m', beats, beats', hr, h => by
      rw [execTimed] at h
      split at h
      · rename_i hen
        rw [Bool.and_eq_true] at hen
        obtain ⟨m₁, h1, h2⟩ := Option.bind_eq_some_iff.mp h
        exact execTimed_reach (hr.step_within ⟨⟨hen.1, h1⟩, rfl⟩ hen.2) h2
      · cases h

theorem execTimed_spec {c : Master → Event → Bool} (resolve : Bytes → Bytes) (es : List Event)
    {f : Master → (Nat → Option ℚ) → Bool}
    (h : (((init resolve).execTimed c (fun _ => none) es).map fun s => f s.1 s.2) = some true) :
    ∃ m beats, TimedWithin c m beats ∧ f m beats = true := by
  obtain ⟨⟨m, beats⟩, hm, hv⟩ := Option.map_eq_some_iff.mp h
  exact ⟨m, beats, ⟨resolve, execTimed_reach .refl hm⟩, hv⟩

/-- A worker that has sent no frame falls silent. -/
theorem beats_kept_one :
    ∃ m m', Step m (.detect 5 default fun _ => []) m' ∧ (m.heap 0).lastBeatReceived = 1
      ∧ (m'.heap 0).alive = false := by
  obtain ⟨m, beats, h, hv⟩ := execTimed_spec (c := keepsBeats) id
    ([.accept [⟨6, [1], default⟩], .heartbeat [1] 50 1])
    (f := fun m beats => decide (beats 0 = some 1
      ∧ (m.handle (.detect 5 default fun _ => [])).isSome = true)) (by decide +kernel)
  obtain ⟨hbeat, hstep⟩ := of_decide_eq_true hv
  obtain ⟨m', hm'⟩ := Option.isSome_iff_exists.mp hstep
  obtain ⟨hkept, hmarked⟩ := beats_kept h
  exact ⟨m, m', ⟨rfl, hm'⟩, hkept 0 1 hbeat,
    hmarked 5 default (fun _ => []) m' ⟨rfl, hm'⟩ 0 1 hbeat (by grind)⟩

/-- A worker falls silent after it has sent a result; its record has no
heartbeat any more, and the pass leaves it alive. -/
theorem beat_reset :
    ∃ m beats m', TimedWithin (fun _ _ => true) m beats
      ∧ Step m (.detect 5 default fun _ => []) m' ∧ beats 0 = some 1
      ∧ (m.heap 0).lastBeatReceived = 0 ∧ 0 ∈ m.workerList ∧ (m'.heap 0).alive = true := by
  obtain ⟨m, beats, h, hv⟩ := execTimed_spec (c := fun _ _ => true) id
    ([.accept [⟨6, [1], default⟩], .heartbeat [1] 50 1,
      .data 6 (resultFrame.map .byte) {}])
    (f := fun m beats => decide (beats 0 = some 1 ∧ (m.heap 0).lastBeatReceived = 0
      ∧ 0 ∈ m.workerList
      ∧ (m.handle (.detect 5 default fun _ => [])).map (fun m' => (m'.heap 0).alive) = some true))
    (by decide +kernel)
  obtain ⟨hbeat, hzero, hmem, hlive⟩ := of_decide_eq_true hv
  obtain ⟨m', hm', hal⟩ := Option.map_eq_some_iff.mp hlive
  exact ⟨m, beats, m', h, ⟨rfl, hm'⟩, hbeat, hzero, hmem, hal⟩

end Master

end KeyLime
