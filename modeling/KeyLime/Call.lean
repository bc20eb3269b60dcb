import KeyLime.Ready

/-!
# One event on a connection

`Step.call`: a data event on an open connection is handled on the record
of the connection, and unless that is dead the call comes to one of four
ends (`CallCase`). The frame is not complete; or it is dropped; or a task
is made of it and given to `schedule`; or a task is taken off the list of
the record. In the last two cases the frame is forwarded, and the history
says so.

This is the lemma the properties of runs are proved with: an invariant has one
case for each end, and for each end there is a named state (`submitted`,
`answered`, `forwarded`) with its own small lemmas.

What a step has done can be read off the history: `newLog` are the entries it
has added, and `madeTasks`, `scheduledTasks`, `removedTasks`, `removals`,
`forwards` and `targets` are views of it, each a filter. The module computes
these views for every end of a call, and says of which frame an event brings the
end (`completes`), in terms of the bytes that have arrived, before the call.

`Attended` and `Ended` are the frame conditions: what a call leaves of the other
records, and what the second half of a call adds to the parsing of its own.
-/

namespace KeyLime

open Resume

namespace Master

variable {m m' m₁ m₂ : Master} {fd : Int} {p q : Nat} {f : Flow} {io : DataIo}

/-- The entries a step adds to the history. -/
def newLog (m m' : Master) : List Obs := m'.log.drop m.log.length

theorem newLog_of_append {l : List Obs} (h : m'.log = m.log ++ l) : newLog m m' = l := by
  simp [newLog, h]

/-! ## Views of the history -/

def madeTasks (l : List Obs) : List Task :=
  l.filterMap fun
    | .made t => some t
    | _ => none

def scheduledTasks (l : List Obs) : List Task :=
  l.filterMap fun
    | .scheduled t _ => some t
    | _ => none

def removedTasks (l : List Obs) : List Task :=
  l.filterMap fun
    | .removed _ _ t => t
    | _ => none

/-- The connections and names `scheduler_remove_task` was called with. -/
def removals (l : List Obs) : List (Int × Bytes) :=
  l.filterMap fun
    | .removed fd name _ => some (fd, name)
    | _ => none

def targets (l : List Obs) : List Int :=
  l.filterMap fun
    | .forward _ _ dst _ _ _ _ => some dst
    | _ => none

def forwards (l : List Obs) : List Obs :=
  l.filterMap fun o =>
    match o with
    | .forward _ _ _ _ _ _ _ => some o
    | _ => none

/-! ## The start of a call -/

def arriving (m : Master) (fd : Int) (arrived : List Item) : Master :=
  { m with kernel := m.kernel.deliver fd arrived }

/-- The items the reads of the event meet. -/
def stream (m : Master) (fd : Int) (arrived : List Item) : List Item :=
  m.kernel.inbox fd ++ arrived

theorem arriving_inbox (arrived : List Item) :
    (m.arriving fd arrived).kernel.inbox fd = m.stream fd arrived := by
  simp [arriving, Kernel.deliver, stream]

/-- What the reader of frames makes of a stream, from where record `p` stands. -/
def reading (m : Master) (p : Nat) (s : List Item) : Dec × Bytes :=
  frameReader.feed ((m.heap p).dec []) (readable s)

/-! ## The ends of a call -/

inductive CallCase (fd : Int) (p : Nat) (io : DataIo) (m m' : Master) : Prop where
  | unfinished (f : Flow) (hpar : m.parsePhase fd p io.recv = some f)
      (hst : (f.master.heap p).status ≠ .forwardData) (heq : m' = f.master)
  | dropped (m₁ : Master) (hpar : m.parsePhase fd p io.recv = some (.next m₁))
      (hst : (m₁.heap p).status = .forwardData) (hfd : fd ≠ m₁.interfaceFd)
      (hal : (m₁.heap p).alive = false) (heq : m' = m₁)
  | submitted (m₁ : Master) (name : Bytes) (ret : Ret) (k : Kernel)
      (hpar : m.parsePhase fd p io.recv = some (.next m₁))
      (hst : (m₁.heap p).status = .forwardData) (hname : (m₁.heap p).tempFileName = some name)
      (hfd : fd = m₁.interfaceFd)
      (hput : doPut (m₁.submitted p name).kernel ((m₁.submitted p name).heap p).fdToSendTo
        ((m₁.submitted p name).heap p) io.put = some (ret, k))
      (heq : m' = (m₁.submitted p name).forwarded fd p ret k)
  | answered (m₁ : Master) (name : Bytes) (ret : Ret) (k : Kernel)
      (hpar : m.parsePhase fd p io.recv = some (.next m₁))
      (hst : (m₁.heap p).status = .forwardData) (hname : (m₁.heap p).tempFileName = some name)
      (hfd : fd ≠ m₁.interfaceFd) (hal : (m₁.heap p).alive = true)
      (hput : doPut (m₁.answered p name).kernel ((m₁.answered p name).heap p).fdToSendTo
        ((m₁.answered p name).heap p) io.put = some (ret, k))
      (heq : m' = (m₁.answered p name).forwarded fd p ret k)

theorem handleData_call (hready : Ready m) (hr : Registry m) (hat : At m fd p)
    (hd : m.kernel.desc fd = some .sock) (halive : (m.heap p).alive = true)
    (hcur : m.current fd = some p) (h : m.handleData fd io = some m') :
    CallCase fd p io m m' := by
  rcases handleData_cases h with ⟨-, hdead⟩ | ⟨q, hq, -, hcase⟩
  · rw [hdead p hcur] at halive
    cases halive
  · obtain rfl := hat.unique hq
    rcases hcase with hpar | ⟨m₁, hpar, hfwd | ⟨m₂, f, hfwd, hput, rfl⟩⟩ <;>
      have hready1 := parsePhase_ready hready hr hat hd halive hpar
    · refine .unfinished _ hpar (fun hst => ?_) rfl
      by_cases hst0 : (m.heap q).status = .forwardData
      · cases parsePhase_ended hst0 hpar
      · cases parsePhase_frame [] hat.workerFd (hready.sound q) (hready.opened q) halive hst0
          hpar with
        | starved _ st got hres hrun =>
            rw [hres, Worker.dec, show (m'.heap q).status = .forwardData from hst] at hrun
            cases hrun
        | rejected _ _ hres hlog hst' =>
            rw [hst'] at hst
            cases hst
    · cases forwardStage_case hfwd with
      | dead hst hfd hal => exact .dropped _ hpar hst hfd hal rfl
    · have hidle := (hready1.sound q).idle
      cases forwardStage_case hfwd with
      | skip hst =>
          cases putStage_case hput with
          | skip => exact .unfinished _ hpar hst rfl
          | put ret k hst' => exact (hidle hst').elim
      | submit name hst hname hfd =>
          cases putStage_case hput with
          | skip hst' => exact (hst' (by simp [Master.submitted])).elim
          | put ret k hst' hdo => exact .submitted m₁ name ret k hpar hst hname hfd hdo rfl
      | answer name hst hname hfd hal =>
          cases putStage_case hput with
          | skip hst' => exact (hst' (by simp [Master.answered])).elim
          | put ret k hst' hdo => exact .answered m₁ name ret k hpar hst hname hfd hal hdo rfl

/-- **One event** on an open connection: there is a record for it, and the call
comes to one of the four cases, or the record is dead and nothing is done. -/
theorem Step.call {arrived : List Item} (hr : Reachable m)
    (hs : Step m (.data fd arrived io) m') :
    ∃ p, At m fd p ∧ Ready (m.arriving fd arrived) ∧ Registry (m.arriving fd arrived)
      ∧ At (m.arriving fd arrived) fd p ∧ (m.arriving fd arrived).kernel.desc fd = some .sock
      ∧ (((m.heap p).alive = false ∧ m' = m.arriving fd arrived)
        ∨ ((m.heap p).alive = true ∧ CallCase fd p io (m.arriving fd arrived) m')) := by
  obtain ⟨hen, h⟩ := hs
  simp only [enabled, Bool.and_eq_true, beq_iff_eq] at hen
  obtain ⟨p, hat⟩ := hr.registry.at hen.1
  have hs0 := deliver_same fd hr.registry.ranged arrived
  have hready0 : Ready (m.arriving fd arrived) := hr.ready.untouched hs0.kernel fun q => .refl _
  have hr0 := hr.registry.same hs0
  have hat0 := hat.same hs0
  refine ⟨p, hat, hready0, hr0, hat0, hen.1, ?_⟩
  cases halive : (m.heap p).alive with
  | true => exact Or.inr ⟨rfl, handleData_call hready0 hr0 hat0 hen.1 halive hat0.current h⟩
  | false =>
      have hcur : (m.arriving fd arrived).current fd = some p := hat0.current
      have hdead : ((m.arriving fd arrived).heap p).alive = false := halive
      change (m.arriving fd arrived).handleData fd io = some m' at h
      simp only [handleData, hcur, hdead, if_true] at h
      exact Or.inl ⟨rfl, (Option.some.inj h).symm⟩

/-- The parser branches of the call from `m` to `m₁` have found the end of
the frame of record `p`, or it had been found before. -/
structure Complete (fd : Int) (p : Nat) (m m₁ : Master) (v : Command) (name got : Bytes) :
    Prop where
  reading : frameReader.feed ((m.heap p).dec []) (readable (m.kernel.inbox fd)) =
    (.done v name got, readable (m₁.kernel.inbox fd))
  verb : (m₁.heap p).toDo = v
  name : (m₁.heap p).tempFileName = some name
  now : ((m.heap p).status = .forwardData ∧ m₁ = m)
    ∨ ((m.heap p).status ≠ .forwardData ∧ (m₁.heap p).alive = decide (got ≠ [])
      ∧ ∃ last, (last = none ∨ last = some .data)
        ∧ Entered p m m₁ (.parsed .data p .doneSending last))

theorem parsePhase_complete {rio : RecvIo} (hready : Ready m) (hat : At m fd p)
    (halive : (m.heap p).alive = true) (hpar : m.parsePhase fd p rio = some (.next m₁))
    (hst : (m₁.heap p).status = .forwardData) :
    ∃ v name got, Complete fd p m m₁ v name got := by
  by_cases hst0 : (m.heap p).status = .forwardData
  · obtain rfl := Flow.next.inj (parsePhase_ended hst0 hpar)
    obtain ⟨name, hname⟩ := Option.isSome_iff_exists.mp
      ((hready.sound p).named (by simp [hst0]))
    refine ⟨(m₁.heap p).toDo, name, [], ?_, rfl, hname, Or.inl ⟨hst0, rfl⟩⟩
    simp only [Worker.dec, hst0, hname, Option.getD_some]
    exact Consumer.feed_of_final rfl
  · cases parsePhase_frame [] hat.workerFd (hready.sound p) (hready.opened p) halive hst0 hpar with
    | complete _ v name got last hres hlog hlast _ hverb hname _ hal =>
        exact ⟨v, name, got, hres, hverb, hname, Or.inr ⟨hst0, hal, last, hlast, hlog⟩⟩
    | rejected _ _ hres hlog hst' =>
        rw [show (m₁.heap p).status = .start from hst'] at hst
        cases hst
    | failed _ _ _ hres hlog hstage hst' =>
        rw [hst] at hst'
        rcases hst' with h | h <;> cases h

/-- A call that leaves its frame incomplete has read the stream to its end,
or has failed. -/
theorem parsePhase_unfinished {rio : RecvIo} (hready : Ready m) (hat : At m fd p)
    (halive : (m.heap p).alive = true) (hpar : m.parsePhase fd p rio = some f)
    (hst : (f.master.heap p).status ≠ .forwardData) :
    FrameCase fd p rio m
      (frameReader.feed ((m.heap p).dec []) (readable (m.kernel.inbox fd)))
      (ending (m.kernel.inbox fd)) f := by
  refine parsePhase_frame [] hat.workerFd (hready.sound p) (hready.opened p) halive (fun hst0 => ?_)
    hpar
  obtain rfl := parsePhase_ended hst0 hpar
  exact hst hst0

theorem parsePhase_reading {rio : RecvIo} {arrived : List Item}
    (hready : Ready (m.arriving fd arrived)) (hat : At (m.arriving fd arrived) fd p)
    (halive : (m.heap p).alive = true)
    (hpar : (m.arriving fd arrived).parsePhase fd p rio = some f)
    (hst : (f.master.heap p).status ≠ .forwardData) :
    FrameCase fd p rio (m.arriving fd arrived) (m.reading p (m.stream fd arrived))
      (ending (m.stream fd arrived)) f := by
  have hframe := parsePhase_unfinished hready hat halive hpar hst
  rw [arriving_inbox] at hframe
  exact hframe

/-! ## What a forwarded frame leaves in the history -/

/-- The task `handle_data` makes of the frame of record `p`. -/
def newTask (m : Master) (p : Nat) (name : Bytes) : Task :=
  { ptr := m.nextTask, fileName := name, orphan := 0, fdOwner := (m.heap p).fdToSendTo }

theorem forwarded_log (fd : Int) (ret : Ret) (k : Kernel) :
    (m.forwarded fd p ret k).log = m.log ++
      [.forward p (fd = m.interfaceFd) (m.heap p).fdToSendTo (m.heap p).toDo
        ((m.heap p).tempFileName.getD [])
        (m.kernel.store (m.kernel.resolve ((m.heap p).tempFileName.getD []))) ret] := rfl

/-- The descriptor `schedule` returns. -/
def target (m : Master) : Int :=
  match m.bestWorker with
  | none => -1
  | some q => (m.heap q).workerFd

theorem schedule_log (t : Task) : (m.schedule t).1.log = m.log ++ [.scheduled t m.target] := by
  unfold target
  cases hb : m.bestWorker with
  | none => rw [schedule_of_none hb]
  | some q => rw [schedule_of_some hb]

theorem schedule_ret (t : Task) : (m.schedule t).2 = m.target := by
  unfold target
  cases hb : m.bestWorker with
  | none => rw [schedule_of_none hb]
  | some q => rw [schedule_of_some hb]

theorem submitted_log (name : Bytes) :
    (m.submitted p name).log =
      m.log ++ [.made (m.newTask p name), .scheduled (m.newTask p name) m.target] := by
  have h : (m.submitted p name).log =
      ((m.makeTask (m.heap p) name).2.schedule (m.newTask p name)).1.log := rfl
  rw [h, schedule_log]
  simp [makeTask, record, newTask, target, bestWorker]

/-- The task taken off a list for a response. -/
def answeredTask (m : Master) (fd : Int) (name : Bytes) : Option Task :=
  (m.finds fd name).bind fun (p, i) => (m.heap p).tasks[i]?

theorem answered_log (name : Bytes) :
    (m.answered p name).log = m.log ++
      [.removed (m.heap p).workerFd name (m.answeredTask (m.heap p).workerFd name)] := by
  have h : (m.answered p name).log = (m.schedulerRemoveTask (m.heap p).workerFd name).log := rfl
  rw [h, answeredTask]
  cases hf : m.finds (m.heap p).workerFd name with
  | none => rw [schedulerRemoveTask_of_none hf]; rfl
  | some pi =>
      obtain ⟨t, ht, -, -, heq⟩ := schedulerRemoveTask_of_some hf
      rw [heq]
      simp [record, set, ht]

/-! ## What a forwarded frame leaves of its record -/

theorem submitted_self (name : Bytes) :
    ∃ ts, (m.submitted p name).heap p =
      { m.heap p with tasks := ts, fdToSendTo := m.target, status := .forwardingData } := by
  obtain ⟨ts, h⟩ := schedule_record (m := (m.makeTask (m.heap p) name).2)
    (m.makeTask (m.heap p) name).1 p
  have hret := schedule_ret (m := (m.makeTask (m.heap p) name).2) (m.makeTask (m.heap p) name).1
  refine ⟨ts, ?_⟩
  rw [submitted, set_heap_self, h, hret]
  rfl

theorem answered_self (name : Bytes) :
    ∃ ts, (m.answered p name).heap p =
      { m.heap p with
        tasks := ts, fdToSendTo := m.interfaceFd, status := .forwardingData } := by
  obtain ⟨ts, h⟩ := schedulerRemoveTask_record (m := m) (m.heap p).workerFd name p
  obtain ⟨heap, log, heq⟩ := schedulerRemoveTask_frame (m := m) (m.heap p).workerFd name
  have hifd : (m.schedulerRemoveTask (m.heap p).workerFd name).interfaceFd = m.interfaceFd := by
    rw [heq]
  exact ⟨ts, by rw [answered, set_heap_self, h, hifd]⟩

theorem forwarded_self (ret : Ret) (k : Kernel) :
    (m.forwarded fd p ret k).heap p = (m.heap p).fresh := by
  simp [forwarded, record]

theorem submitted_kernel (name : Bytes) : (m.submitted p name).kernel = m.kernel.lock.unlock := by
  have h : (m.submitted p name).kernel =
      ((m.makeTask (m.heap p) name).2.schedule (m.newTask p name)).1.kernel := rfl
  rw [h]
  cases hb : (m.makeTask (m.heap p) name).2.bestWorker with
  | none => rw [schedule_of_none hb]; rfl
  | some q => rw [schedule_of_some hb]; rfl

theorem answered_kernel (name : Bytes) : (m.answered p name).kernel = m.kernel := by
  obtain ⟨heap, log, heq⟩ := schedulerRemoveTask_frame (m := m) (m.heap p).workerFd name
  rw [answered, heq]
  rfl

theorem answered_interfaceFd (name : Bytes) :
    (m.answered p name).interfaceFd = m.interfaceFd := by
  obtain ⟨heap, log, heq⟩ := schedulerRemoveTask_frame (m := m) (m.heap p).workerFd name
  rw [answered, heq]
  rfl

/-- What a call that has found the end of its frame adds to the parsing of it: no
read of the connection, and so no entry for one, and `alive` as it was. -/
structure Ended (p : Nat) (m₁ m' : Master) : Prop where
  log : ∃ l, m'.log = m₁.log ++ l ∧ ∀ st q ret last, .parsed st q ret last ∉ l
  alive : (m'.heap p).alive = (m₁.heap p).alive
  inbox : m'.kernel.inbox = m₁.kernel.inbox

theorem submitted_ended {name : Bytes} {ret : Ret} {k : Kernel}
    (hput : doPut (m₁.submitted p name).kernel ((m₁.submitted p name).heap p).fdToSendTo
      ((m₁.submitted p name).heap p) io.put = some (ret, k))
    (heq : m' = (m₁.submitted p name).forwarded fd p ret k) : Ended p m₁ m' := by
  obtain ⟨ts, hself⟩ := submitted_self (m := m₁) (p := p) name
  have hin := (doPut_ops hput).reads.1
  have hlog := forwarded_log (m := m₁.submitted p name) (p := p) fd ret k
  rw [submitted_kernel] at hin
  rw [submitted_log, List.append_assoc, ← heq] at hlog
  refine ⟨⟨_, hlog, by simp⟩, ?_, ?_⟩ <;> rw [heq]
  · rw [forwarded_self, hself]
    rfl
  · exact hin

theorem answered_ended {name : Bytes} {ret : Ret} {k : Kernel}
    (hput : doPut (m₁.answered p name).kernel ((m₁.answered p name).heap p).fdToSendTo
      ((m₁.answered p name).heap p) io.put = some (ret, k))
    (heq : m' = (m₁.answered p name).forwarded fd p ret k) : Ended p m₁ m' := by
  obtain ⟨ts, hself⟩ := answered_self (m := m₁) (p := p) name
  have hin := (doPut_ops hput).reads.1
  have hlog := forwarded_log (m := m₁.answered p name) (p := p) fd ret k
  rw [answered_kernel] at hin
  rw [answered_log, List.append_assoc, ← heq] at hlog
  refine ⟨⟨_, hlog, by simp⟩, ?_, ?_⟩ <;> rw [heq]
  · rw [forwarded_self, hself]
    rfl
  · exact hin

/-- What a call on record `p` leaves alone: of another record all but the
tasks, of its own the descriptor and the address; and it revives nobody. -/
structure Attended (p : Nat) (m m' : Master) : Prop where
  others : ∀ q, q ≠ p → ∃ ts, m'.heap q = { m.heap q with tasks := ts }
  workerFd : (m'.heap p).workerFd = (m.heap p).workerFd
  ip : (m'.heap p).ip = (m.heap p).ip
  alive : (m'.heap p).alive = true → (m.heap p).alive = true
  workerList : m'.workerList = m.workerList ∨ m'.workerList = m.workerList.erase p
  nextWorker : m'.nextWorker = m.nextWorker

theorem submitted_others (name : Bytes) (hq : q ≠ p) :
    ∃ ts, (m.submitted p name).heap q = { m.heap q with tasks := ts } := by
  obtain ⟨ts, h⟩ := schedule_record (m := (m.makeTask (m.heap p) name).2)
    (m.makeTask (m.heap p) name).1 q
  refine ⟨ts, ?_⟩
  rw [submitted, set_heap_of_ne _ hq, h]
  rfl

theorem answered_others (name : Bytes) (hq : q ≠ p) :
    ∃ ts, (m.answered p name).heap q = { m.heap q with tasks := ts } := by
  obtain ⟨ts, h⟩ := schedulerRemoveTask_record (m := m) (m.heap p).workerFd name q
  exact ⟨ts, by rw [answered, set_heap_of_ne _ hq, h]⟩

theorem forwarded_others (ret : Ret) (k : Kernel) (hq : q ≠ p) :
    (m.forwarded fd p ret k).heap q = m.heap q := by
  simp [forwarded, record, hq]

theorem parsePhase_attended {rio : RecvIo} (hr : Registry m) (hat : At m fd p)
    (hpar : m.parsePhase fd p rio = some f) : Attended p m f.master := by
  have hp := parsePhase_parserOnly hpar
  refine ⟨fun q hq => ⟨_, hp.others q hq⟩, hp.workerFd p, hp.record.ip, hp.alive p, ?_,
    hp.nextWorker⟩
  cases parsePhase_change hr hat hpar with
  | same hs => exact Or.inl hs.workerList
  | joins hj => exact Or.inr hj.workerList
  | quits hq => exact Or.inl hq.workerList

theorem Attended.forwarded (h : Attended p m m₁) (hs : Same m₁ m₂)
    (hothers : ∀ q, q ≠ p → ∃ ts, m₂.heap q = { m₁.heap q with tasks := ts })
    (hself : ∃ ts dst st, m₂.heap p =
      { m₁.heap p with tasks := ts, fdToSendTo := dst, status := st }) (ret : Ret) (k : Kernel) :
    Attended p m (m₂.forwarded fd p ret k) := by
  obtain ⟨ts, dst, st, hself⟩ := hself
  refine ⟨?_, ?_, ?_, ?_, ?_, hs.nextWorker.trans h.nextWorker⟩
  · intro q hq
    obtain ⟨ts₁, h1⟩ := h.others q hq
    obtain ⟨ts₂, h2⟩ := hothers q hq
    exact ⟨ts₂, by rw [forwarded_others ret k hq, h2, h1]⟩
  · rw [forwarded_self, hself]
    exact h.workerFd
  · rw [forwarded_self, hself]
    exact h.ip
  · rw [forwarded_self, hself]
    exact h.alive
  · show m₂.workerList = _ ∨ m₂.workerList = _
    rw [hs.workerList]
    exact h.workerList

theorem CallCase.attended (hr : Registry m) (hat : At m fd p) (hc : CallCase fd p io m m') :
    Attended p m m' := by
  cases hc with
  | unfinished f hpar hst heq => exact heq ▸ parsePhase_attended hr hat hpar
  | dropped m₁ hpar hst hfd hal heq => exact heq ▸ parsePhase_attended hr hat hpar
  | submitted m₁ name ret k hpar hst hname hfd hput heq =>
      have hr1 : Registry m₁ := hr.change hat (parsePhase_change hr hat hpar)
      obtain ⟨ts, hself⟩ := submitted_self (m := m₁) (p := p) name
      exact heq ▸ (parsePhase_attended hr hat hpar).forwarded (submitted_same hr1.ranged name)
        (fun q hq => submitted_others name hq) ⟨ts, _, _, hself⟩ ret k
  | answered m₁ name ret k hpar hst hname hfd hal hput heq =>
      have hr1 : Registry m₁ := hr.change hat (parsePhase_change hr hat hpar)
      obtain ⟨ts, hself⟩ := answered_self (m := m₁) (p := p) name
      exact heq ▸ (parsePhase_attended hr hat hpar).forwarded (answered_same hr1.ranged name)
        (fun q hq => answered_others name hq) ⟨ts, _, _, hself⟩ ret k

theorem Ended.refl (p : Nat) (m : Master) : Ended p m m := ⟨⟨[], by simp, by simp⟩, rfl, rfl⟩

theorem CallCase.ended (hready : Ready m) (hat : At m fd p) (halive : (m.heap p).alive = true)
    (hc : CallCase fd p io m m') :
    (∃ f, m.parsePhase fd p io.recv = some f ∧ (f.master.heap p).status ≠ .forwardData
        ∧ m' = f.master)
      ∨ ∃ m₁ v name got, Complete fd p m m₁ v name got ∧ Ended p m₁ m' := by
  cases hc with
  | unfinished f hpar hst heq => exact Or.inl ⟨f, hpar, hst, heq⟩
  | dropped m₁ hpar hst hfd hal heq =>
      obtain ⟨v, name, got, hcomp⟩ := parsePhase_complete hready hat halive hpar hst
      exact Or.inr ⟨m₁, v, name, got, hcomp, heq ▸ .refl p m₁⟩
  | submitted m₁ name ret k hpar hst hname hfd hput heq =>
      obtain ⟨v, name', got, hcomp⟩ := parsePhase_complete hready hat halive hpar hst
      exact Or.inr ⟨m₁, v, name', got, hcomp, submitted_ended hput heq⟩
  | answered m₁ name ret k hpar hst hname hfd hal hput heq =>
      obtain ⟨v, name', got, hcomp⟩ := parsePhase_complete hready hat halive hpar hst
      exact Or.inr ⟨m₁, v, name', got, hcomp, answered_ended hput heq⟩

theorem CallCase.log (hready : Ready m) (hat : At m fd p) (halive : (m.heap p).alive = true)
    (hc : CallCase fd p io m m') : ∃ l, m'.log = m.log ++ l := by
  rcases hc.ended hready hat halive with ⟨f, hpar, -, rfl⟩ | ⟨m₁, v, name, got, hcomp, hend⟩
  · obtain ⟨l, hl, -⟩ := (parsePhase_parserOnly hpar).log
    exact ⟨l, hl⟩
  · obtain ⟨l', hl', -⟩ := hend.log
    rcases hcomp.now with ⟨-, rfl⟩ | ⟨-, -, last, -, l, hl, -⟩
    · exact ⟨l', hl'⟩
    · refine ⟨l ++ [.parsed .data p .doneSending last] ++ l', ?_⟩
      rw [hl', hl]
      simp only [List.append_assoc]

theorem Complete.entries {v : Command} {name got : Bytes} {o : Obs}
    (hc : Complete fd p m m₁ v name got) (he : Ended p m₁ m') (ho : o ∈ newLog m m') :
    Passed p o ∨ (∃ last, (last = none ∨ last = some .data)
        ∧ o = .parsed .data p .doneSending last)
      ∨ ∀ st q ret last, o ≠ .parsed st q ret last := by
  obtain ⟨l, hl, hnot⟩ := he.log
  have hl' : o ∈ l → ∀ st q ret last, o ≠ .parsed st q ret last := by
    rintro h st q ret last rfl
    exact hnot st q ret last h
  rcases hc.now with ⟨-, rfl⟩ | ⟨-, -, last, hlast, l', hlog, hp⟩
  · rw [newLog_of_append hl] at ho
    exact Or.inr (Or.inr (hl' ho))
  · rw [newLog_of_append (l := l' ++ [.parsed .data p .doneSending last] ++ l)
      (by rw [hl, hlog]; simp)] at ho
    simp only [List.mem_append, List.mem_singleton] at ho
    rcases ho with (h | rfl) | h
    · exact Or.inl (hp o h)
    · exact Or.inr (Or.inl ⟨last, hlast, rfl⟩)
    · exact Or.inr (Or.inr (hl' h))

theorem Complete.reading_eq {v : Command} {name got : Bytes}
    {arrived : List Item}
    (hc : Complete fd p (m.arriving fd arrived) m₁ v name got) :
    m.reading p (m.stream fd arrived) = (.done v name got, readable (m₁.kernel.inbox fd)) := by
  have h := hc.reading
  rw [arriving_inbox] at h
  exact h

/-- A frame with verb `v` counts as a submission: it is on the connection of
the interface, or on one that becomes it in this call. -/
def Submits (m : Master) (fd : Int) (p : Nat) (v : Command) : Prop :=
  fd = m.interfaceFd
    ∨ (m.interfaceFd = -1 ∧ (m.heap p).status = .start ∧ v = .interfacePut)

instance (m : Master) (fd : Int) (p : Nat) (v : Command) : Decidable (m.Submits fd p v) :=
  inferInstanceAs (Decidable (_ ∨ _))

theorem Complete.interface_iff {v : Command} {name got : Bytes} {rio : RecvIo} (hr : Registry m)
    (hat : At m fd p) (hpar : m.parsePhase fd p rio = some (.next m₁))
    (hst : (m₁.heap p).status = .forwardData) (hc : Complete fd p m m₁ v name got) :
    fd = m₁.interfaceFd ↔ m.Submits fd p v := by
  have hreg : Registers m p m₁ ↔
      m.interfaceFd = -1 ∧ (m.heap p).status = .start ∧ v = .interfacePut := by
    unfold Registers
    rw [hst, hc.verb]
    constructor
    · rintro ⟨h1, -, h3, h4⟩
      exact ⟨h4, h1, h3⟩
    · rintro ⟨h4, h1, h3⟩
      exact ⟨h1, nofun, h3, h4⟩
  rw [Submits, ← hreg]
  cases parsePhase_change hr hat hpar with
  | same hs hno =>
      rw [show m₁.interfaceFd = m.interfaceFd from hs.interfaceFd]
      exact ⟨Or.inl, fun h => h.elim id fun h => (hno h).elim⟩
  | joins hj hyes => exact iff_of_true hj.interfaceFd.symm (Or.inr hyes)
  | quits hq hf => cases hf

/-- The record, the verb, the name and the payload of the frame that ends in
the event, or has ended before it. -/
def completes (m : Master) (fd : Int) (arrived : List Item) :
    Option (Nat × Command × Bytes × Bytes) :=
  (m.current fd).bind fun p =>
    match (m.reading p (m.stream fd arrived)).1 with
    | .done v name got => some (p, v, name, got)
    | _ => none

theorem Complete.completes {v : Command} {name got : Bytes} {arrived : List Item}
    (hc : Complete fd p (m.arriving fd arrived) m₁ v name got) (hcur : m.current fd = some p) :
    m.completes fd arrived = some (p, v, name, got) := by
  simp [Master.completes, hcur, hc.reading_eq]

theorem ParserOnly.filterMap {α : Type*} {g : Obs → Option α} {l : List Obs}
    (hp : ParserOnly p m m₁) (hl : m'.log = m₁.log ++ l)
    (hg : ∀ o, OfParser p o → g o = none) : (newLog m m').filterMap g = l.filterMap g := by
  obtain ⟨l', hl', ho⟩ := hp.log
  rw [newLog_of_append (by rw [hl, hl', List.append_assoc]), List.filterMap_append,
    List.filterMap_eq_nil_iff.mpr fun o h => hg o (ho o h), List.nil_append]

theorem ParserOnly.mem_rest {l : List Obs} {o : Obs} (hp : ParserOnly p m m₁)
    (hl : m'.log = m₁.log ++ l) (ho : o ∈ newLog m m') (hno : ¬ OfParser p o) : o ∈ l := by
  obtain ⟨l', hl', hparser⟩ := hp.log
  rw [newLog_of_append (l := l' ++ l) (by rw [hl, hl', List.append_assoc])] at ho
  exact (List.mem_append.mp ho).resolve_left fun h => hno (hparser o h)

theorem submitted_views {name : Bytes} {ret : Ret} {k : Kernel} (hpar : ParserOnly p m m₁)
    (heq : m' = (m₁.submitted p name).forwarded fd p ret k) :
    madeTasks (newLog m m') = [m₁.newTask p name]
      ∧ scheduledTasks (newLog m m') = [m₁.newTask p name] := by
  have hlog := forwarded_log (m := m₁.submitted p name) (p := p) fd ret k
  rw [submitted_log, List.append_assoc, ← heq] at hlog
  constructor
  · rw [madeTasks, hpar.filterMap hlog (by rintro o (⟨_, _, _, rfl⟩ | ⟨_, rfl⟩) <;> rfl)]
    rfl
  · rw [scheduledTasks, hpar.filterMap hlog (by rintro o (⟨_, _, _, rfl⟩ | ⟨_, rfl⟩) <;> rfl)]
    rfl

theorem answered_views {name : Bytes} {ret : Ret} {k : Kernel} (hpar : ParserOnly p m m₁)
    (heq : m' = (m₁.answered p name).forwarded fd p ret k) :
    madeTasks (newLog m m') = []
      ∧ removals (newLog m m') = [((m₁.heap p).workerFd, name)]
      ∧ targets (newLog m m') = [m₁.interfaceFd] := by
  obtain ⟨ts, hself⟩ := answered_self (m := m₁) (p := p) name
  have hlog := forwarded_log (m := m₁.answered p name) (p := p) fd ret k
  rw [answered_log, List.append_assoc, ← heq, hself] at hlog
  refine ⟨?_, ?_, ?_⟩
  · rw [madeTasks, hpar.filterMap hlog (by rintro o (⟨_, _, _, rfl⟩ | ⟨_, rfl⟩) <;> rfl)]
    rfl
  · rw [removals, hpar.filterMap hlog (by rintro o (⟨_, _, _, rfl⟩ | ⟨_, rfl⟩) <;> rfl)]
    rfl
  · rw [targets, hpar.filterMap hlog (by rintro o (⟨_, _, _, rfl⟩ | ⟨_, rfl⟩) <;> rfl)]
    rfl

theorem dropped_views (hpar : ParserOnly p m m') :
    madeTasks (newLog m m') = [] ∧ removals (newLog m m') = [] := by
  have hlog : m'.log = m'.log ++ [] := by simp
  constructor
  · rw [madeTasks, hpar.filterMap hlog (by rintro o (⟨_, _, _, rfl⟩ | ⟨_, rfl⟩) <;> rfl)]
    rfl
  · rw [removals, hpar.filterMap hlog (by rintro o (⟨_, _, _, rfl⟩ | ⟨_, rfl⟩) <;> rfl)]
    rfl

end Master

end KeyLime
