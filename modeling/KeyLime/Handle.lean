import KeyLime.Run
import KeyLime.Stages

/-!
# What `handle_data` can do

One inversion lemma for each branch, and `handleData_cases` for the whole
call: after the three parser branches (`parsePhase`) it has returned, or
gone on to forward a frame. Everything proved about the handler goes
through these; no later proof unfolds a branch.

`ParserOnly p m m'` is what the parser branches leave alone: every other
record, and of record `p` everything the scheduler looks at but `alive`,
which they only clear.

The inductive types of the branches (`HeaderCase`, `SizeCase`, `DataCase`,
`ForwardCase`, `PutCase`) say everything a branch can do, with the tests of the
source as hypotheses of their constructors. Their states are named
(`submitted`, `answered`, `forwarded`), and lemmas about these states are what
an invariant needs: a change of the source in one branch is a change of one of
the types and of the lemma that inverts it.
-/

namespace KeyLime

namespace Master

variable {m m' m₁ m₂ : Master} {fd : Int} {p q : Nat} {f : Flow} {io : DataIo}

/-! ## The branches -/

inductive HeaderCase (fd : Int) (p : Nat) (m : Master) : Flow → Prop where
  | skip (hst : (m.heap p).status ≠ .start) : HeaderCase fd p m (.next m)
  | more (r : Parsed) (hst : (m.heap p).status = .start)
      (hr : getCommand (m.kernel.inbox (m.heap p).workerFd) (m.heap p) = some r)
      (hret : r.ret = .notDoneSending) : HeaderCase fd p m (.ret (m.commit p .header r))
  | header (r : Parsed) (hst : (m.heap p).status = .start)
      (hr : getCommand (m.kernel.inbox (m.heap p).workerFd) (m.heap p) = some r)
      (hret : r.ret = .doneSending)
      (hno : ¬ (r.w.toDo = .interfacePut ∧ m.interfaceFd = -1)) :
      HeaderCase fd p m (.next ((m.commit p .header r).set p { r.w with status := .needSize }))
  | register (r : Parsed) (m₁ : Master) (hst : (m.heap p).status = .start)
      (hr : getCommand (m.kernel.inbox (m.heap p).workerFd) (m.heap p) = some r)
      (hret : r.ret = .doneSending) (hverb : r.w.toDo = .interfacePut)
      (hifd : m.interfaceFd = -1)
      (hreg : ((m.commit p .header r).set p { r.w with status := .needSize }).register fd p
        = some m₁) : HeaderCase fd p m (.next m₁)
  | reject (r : Parsed) (hst : (m.heap p).status = .start)
      (hr : getCommand (m.kernel.inbox (m.heap p).workerFd) (m.heap p) = some r)
      (hret : r.ret = .bigFailure) (hfd : fd ≠ m.interfaceFd) :
      HeaderCase fd p m (.next ((m.commit p .header r).set p { r.w with alive := false }))
  | quit (r : Parsed) (hst : (m.heap p).status = .start)
      (hr : getCommand (m.kernel.inbox (m.heap p).workerFd) (m.heap p) = some r)
      (hret : r.ret = .bigFailure) (hfd : fd = m.interfaceFd) :
      HeaderCase fd p m (.ret
        { (m.commit p .header r).set p { r.w with alive := false } with
          kernel := (m.commit p .header r).kernel.close m.interfaceFd
          interfaceFd := -1 })

@[simp] theorem set_heap_self (w : Worker) : (m.set p w).heap p = w := by
  simp [set]

theorem set_heap_of_ne (w : Worker) (h : q ≠ p) : (m.set p w).heap q = m.heap q :=
  Function.update_of_ne h _ _

@[simp] theorem set_set (w w' : Worker) : (m.set p w).set p w' = m.set p w' := by
  simp [set]

@[simp] theorem commit_heap_self (st : Stage) (r : Parsed) : (m.commit p st r).heap p = r.w := by
  simp [commit, record, set]

theorem headerStage_case (h : m.headerStage fd p = some f) : HeaderCase fd p m f := by
  unfold headerStage at h
  split at h
  · rename_i hst
    obtain rfl := Option.some.inj h
    exact .skip hst
  · rename_i hst
    rw [not_not] at hst
    obtain ⟨r, hr, h⟩ := Option.bind_eq_some_iff.mp h
    simp only [commit_heap_self] at h
    split at h
    · rename_i hret
      obtain rfl := Option.some.inj h
      exact .more r hst hr hret
    · rename_i hret
      simp only [set_heap_self] at h
      split at h
      · rename_i hcond
        obtain ⟨m₁, hreg, rfl⟩ := Option.map_eq_some_iff.mp h
        exact .register r m₁ hst hr hret hcond.1 hcond.2 hreg
      · rename_i hno
        obtain rfl := Option.some.inj h
        exact .header r hst hr hret hno
    · rename_i hret
      split at h
      · rename_i hfd
        obtain rfl := Option.some.inj h
        exact .quit r hst hr hret hfd
      · rename_i hfd
        obtain rfl := Option.some.inj h
        exact .reject r hst hr hret hfd

/-- The record after `get_size` has returned `r` and the size is complete. -/
def sized (w : Worker) : Worker :=
  { w with alive := w.alive && decide (w.fileSize ≠ 0), status := .recievingData }

inductive SizeCase (p : Nat) (m : Master) : Flow → Prop where
  | skip (hst : (m.heap p).status ≠ .needSize) : SizeCase p m (.next m)
  | more (r : Parsed) (hst : (m.heap p).status = .needSize)
      (hr : getSize (m.kernel.inbox (m.heap p).workerFd) (m.heap p) = some r)
      (hret : r.ret = .notDoneSending) : SizeCase p m (.ret (m.commit p .size r))
  | size (r : Parsed) (hst : (m.heap p).status = .needSize)
      (hr : getSize (m.kernel.inbox (m.heap p).workerFd) (m.heap p) = some r)
      (hret : r.ret = .doneSending) :
      SizeCase p m (.next ((m.commit p .size r).set p (sized r.w)))
  | fail (r : Parsed) (hst : (m.heap p).status = .needSize)
      (hr : getSize (m.kernel.inbox (m.heap p).workerFd) (m.heap p) = some r)
      (hret : r.ret = .bigFailure) : SizeCase p m (.next (m.commit p .size r))

theorem sizeStage_case (h : m.sizeStage p = some f) : SizeCase p m f := by
  unfold sizeStage at h
  split at h
  · rename_i hst
    obtain rfl := Option.some.inj h
    exact .skip hst
  · rename_i hst
    rw [not_not] at hst
    obtain ⟨r, hr, h⟩ := Option.map_eq_some_iff.mp h
    simp only [commit_heap_self] at h
    split at h
    · rename_i hret
      subst h
      exact .more r hst hr hret
    · rename_i hret
      subst h
      have heq : (if r.w.fileSize = 0 then
            (m.commit p .size r).set p { r.w with alive := false } else m.commit p .size r).set p
          { (if r.w.fileSize = 0 then
            (m.commit p .size r).set p { r.w with alive := false }
            else m.commit p .size r).heap p with status := .recievingData }
          = (m.commit p .size r).set p (sized r.w) := by
        by_cases h0 : r.w.fileSize = 0 <;> simp [h0, sized]
      rw [heq]
      exact .size r hst hr hret
    · rename_i hret
      subst h
      exact .fail r hst hr hret

/-- The master once `get_binary_data` has opened a file, if it does. -/
def opening (m : Master) (p : Nat) : Master :=
  if (m.heap p).tempFd = -1 then m.record (.opened p (m.heap p).tempFileName) else m

/-- The master after `get_binary_data` on record `p`. -/
def received (m : Master) (p : Nat) (io : RecvIo) : Master :=
  { m.opening p with kernel := (getBinaryData m.kernel (m.heap p) io).2 }.commit p .data
    (getBinaryData m.kernel (m.heap p) io).1

inductive DataCase (p : Nat) (io : RecvIo) (m : Master) : Flow → Prop where
  | skip (hst : (m.heap p).status ≠ .recievingData) : DataCase p io m (.next m)
  | more (hst : (m.heap p).status = .recievingData)
      (hret : (getBinaryData m.kernel (m.heap p) io).1.ret = .notDoneSending) :
      DataCase p io m (.ret (m.received p io))
  | data (hst : (m.heap p).status = .recievingData)
      (hret : (getBinaryData m.kernel (m.heap p) io).1.ret = .doneSending) :
      DataCase p io m (.next ((m.received p io).set p
        { (getBinaryData m.kernel (m.heap p) io).1.w with status := .forwardData }))
  | fail (hst : (m.heap p).status = .recievingData)
      (hret : (getBinaryData m.kernel (m.heap p) io).1.ret = .bigFailure) :
      DataCase p io m (.next (m.received p io))

theorem opening_kernel : (m.opening p).kernel = m.kernel := by
  unfold opening
  split <;> rfl

theorem dataStage_case {io : RecvIo} (h : m.dataStage p io = some f) : DataCase p io m f := by
  unfold dataStage at h
  split at h
  · rename_i hst
    obtain rfl := Option.some.inj h
    exact .skip hst
  · rename_i hst
    rw [not_not] at hst
    have hk : (if (m.heap p).tempFd = -1 then
        m.record (.opened p (m.heap p).tempFileName) else m).kernel = m.kernel :=
      opening_kernel (m := m) (p := p)
    simp only [hk, commit_heap_self] at h
    split at h
    · rename_i hret
      obtain rfl := Option.some.inj h
      exact .more hst hret
    · rename_i hret
      obtain rfl := Option.some.inj h
      exact .data hst hret
    · rename_i hret
      obtain rfl := Option.some.inj h
      exact .fail hst hret

/-- The master after a request has been given to `schedule`. -/
def submitted (m : Master) (p : Nat) (name : Bytes) : Master :=
  let t := (m.makeTask (m.heap p) name).1
  let s := (m.makeTask (m.heap p) name).2.schedule t
  s.1.set p { s.1.heap p with fdToSendTo := s.2, status := .forwardingData }

/-- The master after a response has been taken off its task list. -/
def answered (m : Master) (p : Nat) (name : Bytes) : Master :=
  let m := m.schedulerRemoveTask (m.heap p).workerFd name
  m.set p { m.heap p with fdToSendTo := m.interfaceFd, status := .forwardingData }

inductive ForwardCase (fd : Int) (p : Nat) (m : Master) : Flow → Prop where
  | skip (hst : (m.heap p).status ≠ .forwardData) : ForwardCase fd p m (.next m)
  | submit (name : Bytes) (hst : (m.heap p).status = .forwardData)
      (hname : (m.heap p).tempFileName = some name) (hfd : fd = m.interfaceFd) :
      ForwardCase fd p m (.next (m.submitted p name))
  | dead (hst : (m.heap p).status = .forwardData) (hfd : fd ≠ m.interfaceFd)
      (hal : (m.heap p).alive = false) : ForwardCase fd p m (.ret m)
  | answer (name : Bytes) (hst : (m.heap p).status = .forwardData)
      (hname : (m.heap p).tempFileName = some name) (hfd : fd ≠ m.interfaceFd)
      (hal : (m.heap p).alive = true) : ForwardCase fd p m (.next (m.answered p name))

theorem forwardStage_case (h : m.forwardStage fd p = some f) : ForwardCase fd p m f := by
  unfold forwardStage at h
  split at h
  · rename_i hst
    obtain rfl := Option.some.inj h
    exact .skip hst
  · rename_i hst
    rw [not_not] at hst
    split at h
    · cases h
    · rename_i name hname
      split at h
      · rename_i hfd
        obtain rfl := Option.some.inj h
        exact .submit name hst hname hfd
      · rename_i hfd
        split at h
        · rename_i hal
          obtain rfl := Option.some.inj h
          exact .dead hst hfd hal
        · rename_i hal
          obtain rfl := Option.some.inj h
          exact .answer name hst hname hfd (by simpa using hal)

/-- The master after `do_put` has returned `ret` with kernel `k`. -/
def forwarded (m : Master) (fd : Int) (p : Nat) (ret : Ret) (k : Kernel) : Master :=
  { m with kernel := k, heap := Function.update m.heap p (m.heap p).fresh }.record
    (.forward p (fd = m.interfaceFd) (m.heap p).fdToSendTo (m.heap p).toDo
      ((m.heap p).tempFileName.getD [])
      (m.kernel.store (m.kernel.resolve ((m.heap p).tempFileName.getD []))) ret)

inductive PutCase (fd : Int) (p : Nat) (io : PutIo) (m : Master) : Flow → Prop where
  | skip (hst : (m.heap p).status ≠ .forwardingData) : PutCase fd p io m (.next m)
  | put (ret : Ret) (k : Kernel) (hst : (m.heap p).status = .forwardingData)
      (hput : doPut m.kernel (m.heap p).fdToSendTo (m.heap p) io = some (ret, k)) :
      PutCase fd p io m (.next (m.forwarded fd p ret k))

theorem putStage_case {io : PutIo} (h : m.putStage fd p io = some f) : PutCase fd p io m f := by
  unfold putStage at h
  simp only at h
  split at h
  · rename_i hst
    obtain rfl := Option.some.inj h
    exact .skip hst
  · rename_i hst
    rw [not_not] at hst
    obtain ⟨⟨ret, k⟩, hput, rfl⟩ := Option.map_eq_some_iff.mp h
    exact .put ret k hst hput

/-! ## The whole call -/

theorem Flow.andThen_eq_some {x : Option Flow} {g : Master → Option Flow} :
    Flow.andThen x g = some f ↔
      (∃ m, x = some (.ret m) ∧ f = .ret m) ∨ (∃ m, x = some (.next m) ∧ g m = some f) := by
  rcases x with _ | (m | m)
  · simp [Flow.andThen]
  · simp [Flow.andThen, eq_comm]
  · simp [Flow.andThen]

def parsePhase (m : Master) (fd : Int) (p : Nat) (io : RecvIo) : Option Flow :=
  Flow.andThen (Flow.andThen (m.headerStage fd p) (sizeStage p)) (dataStage p io)

/-- What a call of `handle_data` does: nothing, when there is no live
record for the event; a `return` inside the parser; nothing but parsing;
or the end of a frame, which is dropped when its record is dead and not
the interface's, and forwarded otherwise. -/
theorem handleData_cases (h : m.handleData fd io = some m') :
    (m' = m ∧ ∀ p, m.current fd = some p → (m.heap p).alive = false)
      ∨ ∃ p, m.current fd = some p ∧ (m.heap p).alive = true ∧
        (m.parsePhase fd p io.recv = some (.ret m')
          ∨ ∃ m₁, m.parsePhase fd p io.recv = some (.next m₁) ∧
            (m₁.forwardStage fd p = some (.ret m')
              ∨ ∃ m₂ f, m₁.forwardStage fd p = some (.next m₂)
                ∧ m₂.putStage fd p io.put = some f ∧ f.master = m')) := by
  unfold handleData at h
  split at h
  · rename_i hcur
    obtain rfl := Option.some.inj h
    exact Or.inl ⟨rfl, fun p hp => by rw [hcur] at hp; cases hp⟩
  · rename_i p hcur
    split at h
    · rename_i hal
      obtain rfl := Option.some.inj h
      exact Or.inl ⟨rfl, fun q hq => by
        obtain rfl := Option.some.inj (hcur.symm.trans hq)
        exact hal⟩
    · rename_i hal
      obtain ⟨f, hf, rfl⟩ := Option.map_eq_some_iff.mp h
      refine Or.inr ⟨p, hcur, by simpa using hal, ?_⟩
      rcases Flow.andThen_eq_some.mp hf with ⟨m₁, h1, rfl⟩ | ⟨m₂, h2, hput⟩
      · rcases Flow.andThen_eq_some.mp h1 with ⟨m₀, h0, heq⟩ | ⟨m₀, h0, hfwd⟩
        · obtain rfl := Flow.ret.inj heq
          exact Or.inl h0
        · exact Or.inr ⟨m₀, h0, Or.inl hfwd⟩
      · rcases Flow.andThen_eq_some.mp h2 with ⟨m₀, h0, heq⟩ | ⟨m₀, h0, hfwd⟩
        · cases heq
        · exact Or.inr ⟨m₀, h0, Or.inr ⟨m₂, f, hfwd, hput, rfl⟩⟩

/-! ## What the parser leaves alone -/

/-- The parts of a record the parser does not write. It may clear `alive`, but
never sets it. -/
structure Parses (w w' : Worker) : Prop where
  workerFd : w'.workerFd = w.workerFd
  ip : w'.ip = w.ip
  tasks : w'.tasks = w.tasks
  cpuUsage : w'.cpuUsage = w.cpuUsage
  lastBeat : w'.lastBeatReceived = w.lastBeatReceived
  alive : w'.alive = true → w.alive = true

theorem Parses.refl (w : Worker) : Parses w w := ⟨rfl, rfl, rfl, rfl, rfl, id⟩

theorem Parses.trans {w w' w'' : Worker} (h : Parses w w') (h' : Parses w' w'') : Parses w w'' :=
  ⟨h'.workerFd.trans h.workerFd, h'.ip.trans h.ip, h'.tasks.trans h.tasks,
    h'.cpuUsage.trans h.cpuUsage, h'.lastBeat.trans h.lastBeat, fun ha => h.alive (h'.alive ha)⟩

/-- The entries the parser of record `p` makes in the history. -/
def OfParser (p : Nat) (o : Obs) : Prop :=
  (∃ st ret last, o = .parsed st p ret last) ∨ ∃ name, o = .opened p name

structure ParserOnly (p : Nat) (m m' : Master) : Prop where
  others : ∀ q, q ≠ p → m'.heap q = m.heap q
  record : Parses (m.heap p) (m'.heap p)
  nextWorker : m'.nextWorker = m.nextWorker
  nextTask : m'.nextTask = m.nextTask
  taskList : m'.taskList = m.taskList
  log : ∃ l, m'.log = m.log ++ l ∧ ∀ o ∈ l, OfParser p o

theorem ParserOnly.refl (m : Master) (p : Nat) : ParserOnly p m m :=
  ⟨fun _ _ => rfl, .refl _, rfl, rfl, rfl, [], by simp, by simp⟩

theorem ParserOnly.trans (h : ParserOnly p m m') (h' : ParserOnly p m' m₁) :
    ParserOnly p m m₁ := by
  obtain ⟨l, hl, hp⟩ := h.log
  obtain ⟨l', hl', hp'⟩ := h'.log
  refine ⟨fun q hq => (h'.others q hq).trans (h.others q hq), h.record.trans h'.record,
    h'.nextWorker.trans h.nextWorker, h'.nextTask.trans h.nextTask,
    h'.taskList.trans h.taskList, l ++ l', by rw [hl', hl, List.append_assoc], ?_⟩
  intro o ho
  exact (List.mem_append.mp ho).elim (hp o) (hp' o)

theorem ParserOnly.tasks (h : ParserOnly p m m') (q : Nat) :
    (m'.heap q).tasks = (m.heap q).tasks := by
  by_cases hq : q = p
  · subst hq
    exact h.record.tasks
  · rw [h.others q hq]

theorem ParserOnly.workerFd (h : ParserOnly p m m') (q : Nat) :
    (m'.heap q).workerFd = (m.heap q).workerFd := by
  by_cases hq : q = p
  · subst hq
    exact h.record.workerFd
  · rw [h.others q hq]

theorem ParserOnly.alive (h : ParserOnly p m m') (q : Nat)
    (ha : (m'.heap q).alive = true) : (m.heap q).alive = true := by
  by_cases hq : q = p
  · subst hq
    exact h.record.alive ha
  · rwa [h.others q hq] at ha

theorem commit_parserOnly (st : Stage) {r : Parsed} (h : Parses (m.heap p) r.w) :
    ParserOnly p m (m.commit p st r) where
  others q hq := by simp [commit, Master.record, set, hq]
  record := by simpa using h
  nextWorker := rfl
  nextTask := rfl
  taskList := rfl
  log := ⟨[.parsed st p r.ret r.last], rfl, by simp [OfParser]⟩

theorem set_parserOnly {w : Worker} (h : Parses (m.heap p) w) : ParserOnly p m (m.set p w) where
  others q hq := by simp [set, hq]
  record := by simpa using h
  nextWorker := rfl
  nextTask := rfl
  taskList := rfl
  log := ⟨[], by simp [set], by simp⟩

theorem getCommand_parses {s : List Item} {w : Worker} {r : Parsed}
    (h : getCommand s w = some r) : Parses w r.w := by
  rcases getCommand_spec h with ⟨_, _, _, _, _, hw⟩ | ⟨_, _, _, _, _, _, _, hw⟩
      | ⟨_, _, _, _, _, _, hw⟩ <;>
    rw [hw] <;> exact ⟨rfl, rfl, rfl, rfl, rfl, id⟩

theorem getSize_parses {s : List Item} {w : Worker} {r : Parsed}
    (h : getSize s w = some r) : Parses w r.w := by
  rcases getSize_spec .put [] h with
      ⟨_, _, _, _, _, _, _, hw⟩ | ⟨_, _, _, _, _, hw⟩ <;>
    rw [hw] <;> exact ⟨rfl, rfl, rfl, rfl, rfl, id⟩

theorem getBinaryData_record (k : Kernel) (w : Worker) (io : RecvIo) :
    ∃ fd x, (getBinaryData k w io).1.w = { w with tempFd := fd, fileSize := x } := by
  unfold getBinaryData
  split
  · rename_i k₁ w₁ heq
    obtain ⟨x, hx⟩ := dataLoop_record (k₁.inbox w₁.workerFd).length (k₁.inbox w₁.workerFd)
      io.disk none w₁ k₁
    split at heq
    · obtain ⟨-, rfl⟩ := Prod.mk.inj heq
      exact ⟨_, x, hx⟩
    · obtain ⟨-, rfl⟩ := Prod.mk.inj heq
      exact ⟨w.tempFd, x, hx⟩

theorem getBinaryData_parses (k : Kernel) (w : Worker) (io : RecvIo) :
    Parses w (getBinaryData k w io).1.w := by
  obtain ⟨fd, x, hw⟩ := getBinaryData_record k w io
  rw [hw]
  exact ⟨rfl, rfl, rfl, rfl, rfl, id⟩

theorem register_eq (h : m.register fd p = some m') :
    ∃ l, vectorErase m.workerList (m.findWorkerPos fd) = some l
      ∧ m' = { m with
          interfaceFd := (m.heap p).workerFd
          interface := some p
          workerList := l
          kernel := m.kernel.lock.unlock } := by
  obtain ⟨l, hl, rfl⟩ := Option.map_eq_some_iff.mp h
  exact ⟨l, hl, rfl⟩

theorem headerStage_parserOnly (h : m.headerStage fd p = some f) :
    ParserOnly p m f.master := by
  cases headerStage_case h with
  | skip => exact .refl m p
  | more r hst hr hret => exact commit_parserOnly _ (getCommand_parses hr)
  | header r hst hr hret hno =>
      have hp := getCommand_parses hr
      exact (commit_parserOnly .header hp).trans
        (set_parserOnly ⟨by simp, by simp, by simp, by simp, by simp, by simp⟩)
  | register r m₁ hst hr hret hverb hifd hreg =>
      have hp := getCommand_parses hr
      obtain ⟨l, -, rfl⟩ := register_eq hreg
      have h2 := (commit_parserOnly .header hp).trans
        (set_parserOnly (w := { r.w with status := .needSize })
          ⟨by simp, by simp, by simp, by simp, by simp, by simp⟩)
      exact ⟨h2.others, h2.record, h2.nextWorker, h2.nextTask, h2.taskList, h2.log⟩
  | reject r hst hr hret hfd =>
      have hp := getCommand_parses hr
      exact (commit_parserOnly .header hp).trans
        (set_parserOnly ⟨by simp, by simp, by simp, by simp, by simp, by simp⟩)
  | quit r hst hr hret hfd =>
      have hp := getCommand_parses hr
      have h2 := (commit_parserOnly .header hp).trans
        (set_parserOnly (w := { r.w with alive := false })
          ⟨by simp, by simp, by simp, by simp, by simp, by simp⟩)
      exact ⟨h2.others, h2.record, h2.nextWorker, h2.nextTask, h2.taskList, h2.log⟩

theorem sizeStage_parserOnly (h : m.sizeStage p = some f) : ParserOnly p m f.master := by
  cases sizeStage_case h with
  | skip => exact .refl m p
  | more r hst hr hret => exact commit_parserOnly _ (getSize_parses hr)
  | size r hst hr hret =>
      refine (commit_parserOnly .size (getSize_parses hr)).trans (set_parserOnly ?_)
      exact ⟨by simp [sized], by simp [sized], by simp [sized], by simp [sized],
        by simp [sized], by simp only [sized, commit_heap_self, Bool.and_eq_true]; exact And.left⟩
  | fail r hst hr hret => exact commit_parserOnly _ (getSize_parses hr)

theorem opening_parserOnly : ParserOnly p m (m.opening p) := by
  unfold opening
  split
  · exact ⟨fun _ _ => rfl, .refl _, rfl, rfl, rfl,
      [.opened p (m.heap p).tempFileName], rfl, by simp [OfParser]⟩
  · exact .refl m p

@[simp] theorem opening_heap : (m.opening p).heap = m.heap := by
  unfold opening
  split <;> rfl

theorem received_parserOnly (io : RecvIo) : ParserOnly p m (m.received p io) := by
  have h1 := opening_parserOnly (m := m) (p := p)
  have h2 : ParserOnly p m
      { m.opening p with kernel := (getBinaryData m.kernel (m.heap p) io).2 } :=
    ⟨h1.others, h1.record, h1.nextWorker, h1.nextTask, h1.taskList, h1.log⟩
  refine h2.trans (commit_parserOnly .data ?_)
  simpa using getBinaryData_parses m.kernel (m.heap p) io

theorem dataStage_parserOnly {io : RecvIo} (h : m.dataStage p io = some f) :
    ParserOnly p m f.master := by
  cases dataStage_case h with
  | skip => exact .refl m p
  | more => exact received_parserOnly io
  | data hst hret =>
      refine (received_parserOnly io).trans (set_parserOnly ?_)
      simp only [received, commit_heap_self]
      exact ⟨rfl, rfl, rfl, rfl, rfl, id⟩
  | fail => exact received_parserOnly io

theorem andThen_parserOnly {x : Option Flow} {g : Master → Option Flow}
    (hx : ∀ f, x = some f → ParserOnly p m f.master)
    (hg : ∀ m₁ f, g m₁ = some f → ParserOnly p m₁ f.master)
    (h : Flow.andThen x g = some f) : ParserOnly p m f.master := by
  rcases Flow.andThen_eq_some.mp h with ⟨m₁, h1, rfl⟩ | ⟨m₁, h1, h2⟩
  · exact hx _ h1
  · exact (hx _ h1).trans (hg _ _ h2)

theorem parsePhase_parserOnly {io : RecvIo} (h : m.parsePhase fd p io = some f) :
    ParserOnly p m f.master :=
  andThen_parserOnly
    (fun _ => andThen_parserOnly (fun _ => headerStage_parserOnly) fun _ _ => sizeStage_parserOnly)
    (fun _ _ => dataStage_parserOnly) h

end Master

end KeyLime
