import KeyLime.Receive
import KeyLime.Shutdown

/-!
# The worker on its socket

The threads of the worker with the two things they wait for on the socket:
the main thread for bytes of its requests, the sending thread for room. Every
`read` and `write` there is a step. `inbox` is what has arrived and not been
read, `room` how much more the other direction takes; both belong to the
connection.

In `Pipeline` a request comes whole, as one step of the main thread, and an
answer block goes out as one. Here `Reading` says where the main thread is in a
request, and `unsent` what the sending thread still has to write of its block.
`Sound` says that the threads keep the invariants of `Pipeline` all the same, in
particular those that tell who waits for whom, and that the main thread is in its
loop or in `exit`.

A step that has nothing to do with the socket is one of `Pipeline`
(`PipelineEvent.inside`). `Sound.enabled` is what is wanted of all this: when
there is something to receive, the main thread or one of the tasking threads can
take a step, whatever the sending thread waits for.

Nobody interrupts the worker and the connection stays open, so a `read` that
finds nothing waits, and the loop is left in `exit` alone.
-/

namespace KeyLime

/-- Where the main thread is with a request: in `read_line_from_socket`, in
`read_size_from_socket`, at the `open` of `read_file`, or in a block of
`read_file_from_socket`; with the bytes it has got so far. `payload` is history. -/
inductive Reading where
  | line (request : Bytes)
  | size (filename got : Bytes)
  | opening (filename : Bytes) (size : Nat)
  | file (filename : Bytes) (fd : Int) (remain : Nat) (block payload : Bytes)

/-- `reading` counts while the main thread is at the head of its loop;
`unsent` is what the `write_to_socket` of the sending thread has still to
write. -/
structure WorkerProcess where
  threads : Pipeline
  reading : Reading
  unsent : Bytes

/-- `read` returns at most `n + 1` bytes, `mem` is what the buffer held; the
sending thread writes at most `n + 1` bytes. -/
inductive WorkerEvent where
  | recv (mem : Nat → UInt8) (n : Nat)
  | openFile (ok : Bool)
  | own (e : PipelineEvent)
  | send (mem : Nat → UInt8)
  | flush (n : Nat)

/-- The steps of the threads that have nothing to do with the socket. -/
def PipelineEvent.inside : PipelineEvent → Bool
  | .createOutput _ | .tasking .. | .garble .. | .noShell _ | .heartbeat _ | .call _ | .enter ..
  | .wake _ => true
  | _ => false

def Thread.receives : Thread → Bool
  | .main | .tasking _ => true
  | .sending => false

/-- The steps of the main loop and of the tasking threads, but for wakeups for
no reason. -/
def WorkerEvent.receives : WorkerEvent → Bool
  | .recv .. | .openFile _ => true
  | .own e => e.own && e.thread.any Thread.receives
  | _ => false

namespace WorkerProcess

/-- After `setup_client`, in a directory that may hold files. -/
def start (resolve : Bytes → Bytes) (store : Bytes → Option Bytes) : WorkerProcess :=
  { threads := .start resolve store, reading := .line [], unsent := [] }

variable (exec : Bytes → Bytes) (p : WorkerProcess)

/-! ## The main thread -/

def afterLine (mem : Nat → UInt8) (request : Bytes) : Reading :=
  if fetch (overwrite mem request) 3 ≠ putVerb then .line []
  else
    match getFilenameFromHeader request with
    | none => .line []
    | some filename => .size filename []

/-- `read_file` has got it all: `read_file_from_socket` returns the number of
bytes, and less than 0 ends the process. -/
def stored (filename : Bytes) (fd : Int) (payload : Bytes) : WorkerProcess :=
  if asSigned payload.length < 0 then { p with threads := { p.threads with main := .exited } }
  else { p with
    reading := .line []
    threads := { p.threads with
      kernel := p.threads.kernel.close fd, main := .creating filename payload } }

def received (filename : Bytes) (fd : Int) (remain : Nat) (block payload : Bytes) : WorkerProcess :=
  if block.length < Pipeline.blockSize remain then
    { p with reading := .file filename fd remain block payload }
  else
    let p := { p with threads := { p.threads with kernel := p.threads.kernel.put fd block } }
    if remain - block.length = 0 then p.stored filename fd (payload ++ block)
    else { p with reading := .file filename fd (remain - block.length) [] (payload ++ block) }

def recv (mem : Nat → UInt8) (n : Nat) (inbox : Bytes) : Option (WorkerProcess × Bytes) :=
  match p.threads.main, p.reading with
  | .receiving, .line request =>
      match inbox with
      | [] => none
      | b :: inbox =>
          let request := request ++ [b]
          some ({ p with reading := if b = newline then afterLine mem request else .line request },
            inbox)
  | .receiving, .size filename got =>
      if inbox = [] then none
      else
        let k := min (n + 1) (8 - got.length)
        let got := got ++ inbox.take k
        some ({ p with
          reading := if got.length < 8 then .size filename got
            else .opening filename (sizeAt (overwrite mem got)) }, inbox.drop k)
  | .receiving, .file filename fd remain block payload =>
      if remain = 0 then some (p.stored filename fd payload, inbox)
      else if inbox = [] then none
      else
        let k := min (n + 1) (Pipeline.blockSize remain - block.length)
        some (p.received filename fd remain (block ++ inbox.take k) payload, inbox.drop k)
  | _, _ => none

/-- The `open` of `read_file`. There is no file of the empty name. -/
def openFile (ok : Bool) : Option WorkerProcess :=
  match p.threads.main, p.reading with
  | .receiving, .opening filename size =>
      let (fd, k) := p.threads.kernel.openWithAllPermission filename (ok && filename ≠ [])
      if fd = -1 then some { p with threads := { p.threads with main := .exited } }
      else some { p with
        threads := { p.threads with kernel := k }
        reading := .file filename fd size [] [] }
  | _, _ => none

/-! ## The other threads -/

def own (e : PipelineEvent) : Option WorkerProcess :=
  if e.inside then (p.threads.handle exec e).map fun s => { p with threads := s } else none

/-- The sending thread comes to its next `write_to_socket`, with the bytes it
is to write. -/
def send (mem : Nat → UInt8) : Option WorkerProcess :=
  if p.unsent = [] then
    (p.threads.handle exec (.sending mem none)).map fun s =>
      { p with
        threads := s
        unsent := (s.kernel.sent socketFd).drop (p.threads.kernel.sent socketFd).length }
  else none

def flush (n room : Nat) : Option (WorkerProcess × Bytes) :=
  if p.unsent = [] ∨ room = 0 then none
  else
    some ({ p with unsent := p.unsent.drop (min (n + 1) room) }, p.unsent.take (min (n + 1) room))

/-- A step, with what is left of `inbox` and what was written. -/
def handle (inbox : Bytes) (room : Nat) : WorkerEvent → Option (WorkerProcess × Bytes × Bytes)
  | .recv mem n => (p.recv mem n inbox).map fun (p, inbox) => (p, inbox, [])
  | .openFile ok => (p.openFile ok).map fun p => (p, inbox, [])
  | .own e => (p.own exec e).map fun p => (p, inbox, [])
  | .send mem => (p.send exec mem).map fun p => (p, inbox, [])
  | .flush n => (p.flush n room).map fun (p, out) => (p, inbox, out)

end WorkerProcess

/-! ## The invariant -/

/-- Where `read_file` leads. -/
def MainPc.between : MainPc → Bool
  | .receiving | .creating .. | .exited => true
  | _ => false

/-- In the loop, where `Reading` says how it receives, or after `exit`. -/
def MainPc.serves : MainPc → Bool
  | .receiving | .creating .. | .pushing .. | .exited => true
  | _ => false

namespace Pipeline

variable {exec : Bytes → Bytes} {s s' : Pipeline} {e : PipelineEvent} {k : Kernel} {pc : MainPc}

/-- What the main thread does with its socket and its file is nothing to the
others. -/
theorem Wired.received (h : s.Wired) (hm : s.main = .receiving) :
    Wired { s with kernel := k, main := pc } := by
  refine h.own rfl rfl (fun th => ?_) fun th => ?_ <;> by_cases hth : th = .main
  · subst hth
    exact Or.inl (by simp [taskOp, hm])
  · exact Or.inr (taskOp_congr (fun h => (hth h).elim) fun _ _ => rfl)
  · subst hth
    exact Or.inl (by simp [finishedOp, hm])
  · exact Or.inr (finishedOp_congr (fun h => (hth h).elim) (fun _ _ => rfl) fun _ => rfl)

theorem Accounts.received (h : s.Accounts) (hm : s.main = .receiving) (hpc : pc.between = true) :
    Accounts { s with kernel := k, main := pc } := by
  obtain ⟨ts, hpushed, hseq, hnames⟩ := h.pushed
  rw [hm] at hpushed
  refine ⟨h.places, h.turns, ⟨ts, ?_, hseq, hnames⟩, ?_, ?_, h.named⟩
  · show s.tasks.pushed = _
    rw [hpushed]
    cases pc <;> first | rfl | cases hpc
  · intro i hi
    have hi' : pc = .ending i := hi
    rw [hi'] at hpc
    cases hpc
  · intro t payload ht
    have ht' : pc = .pushing t payload := ht
    rw [ht'] at hpc
    cases hpc

theorem Ending.received (h : s.Ending) (hpc : pc.between = true) :
    Ending { s with kernel := k, main := pc } := by
  have hno : pc.killed = false ∧ pc.endedSender = false ∧ (∀ j, pc.joined j = false)
      ∧ pc.joinedSending = false ∧ pc ≠ .done := by
    cases pc <;> first | exact ⟨rfl, rfl, fun _ => rfl, rfl, by simp⟩ | cases hpc
  obtain ⟨hkilled, hended, hjoined, hsending, hdone⟩ := hno
  refine ⟨h.ends, h.markers, fun hk => ?_, fun hk => ?_, h.running, fun j hj => ?_, fun hk => ?_,
    fun hd => (hdone hd).elim⟩
  · exact absurd (hkilled.symm.trans hk) Bool.false_ne_true
  · exact absurd (hended.symm.trans hk) Bool.false_ne_true
  · exact absurd ((hjoined j).symm.trans hj) Bool.false_ne_true
  · exact absurd (hsending.symm.trans hk) Bool.false_ne_true

theorem StepCase.serves (h : StepCase exec s e s')
    (he : e.inside = true ∨ ∃ mem, e = .sending mem none)
    (hm : s.main.serves = true) : s'.main.serves = true := by
  cases h with
  | main h =>
      cases h with
      | created => rfl
      | exit => rfl
      | request | leave | opened | store | stored | kill | close | join | joined | joinSending
      | joinHeartbeat => rcases he with he | ⟨mem, he⟩ <;> cases he
  | tasking i h =>
      rw [h.frame.1]
      exact hm
  | sending h =>
      rw [h.frame.1]
      exact hm
  | heartbeat h =>
      rw [h]
      exact hm
  | queue h =>
      cases h with
      | accept => rfl
      | endTask i q hpc =>
          rw [hpc] at hm
          cases hm
      | endSender q hpc =>
          rw [hpc] at hm
          cases hm
      | task | finish | take | retire | hand | collect | stop => exact hm

end Pipeline

namespace WorkerProcess

variable {exec : Bytes → Bytes} {p p' : WorkerProcess} {e : WorkerEvent} {inbox inbox' out : Bytes}
  {room : Nat}

structure Sound (p : WorkerProcess) : Prop where
  wired : p.threads.Wired
  accounts : p.threads.Accounts
  ending : p.threads.Ending
  serves : p.threads.main.serves = true

theorem start_sound (resolve : Bytes → Bytes) (store : Bytes → Option Bytes) :
    (start resolve store).Sound :=
  ⟨Pipeline.start_wired resolve store, Pipeline.start_accounts resolve store,
    Pipeline.start_ending resolve store, rfl⟩

theorem Sound.received (h : p.Sound) (hm : p.threads.main = .receiving) {k : Kernel} {pc : MainPc}
    (hpc : pc.between = true) (hs : p'.threads = { p.threads with kernel := k, main := pc }) :
    p'.Sound := by
  refine ⟨?_, ?_, ?_, ?_⟩ <;> rw [hs]
  · exact h.wired.received hm
  · exact h.accounts.received hm hpc
  · exact h.ending.received hpc
  · cases pc <;> first | rfl | cases hpc

theorem Sound.threads (h : p.Sound) {pe : PipelineEvent} {s : Pipeline}
    (hs : Pipeline.Step exec p.threads pe s) (he : pe.inside = true ∨ ∃ mem, pe = .sending mem none)
    (hp : p'.threads = s) : p'.Sound := by
  subst hp
  obtain ⟨hcase, hwired, -⟩ := h.wired.step hs
  exact ⟨hwired, h.accounts.step hcase, h.ending.step hcase, hcase.serves he h.serves⟩

/-- All that receiving changes of the threads. -/
def Between (s s' : Pipeline) : Prop :=
  s.main = .receiving ∧ ∃ k pc, pc.between = true ∧ s' = { s with kernel := k, main := pc }

theorem Between.of_reading {s : Pipeline} (hm : s.main = .receiving) : Between s s :=
  ⟨hm, s.kernel, .receiving, rfl, by rw [← hm]⟩

theorem stored_between (hm : p.threads.main = .receiving) (filename payload : Bytes) (fd : Int) :
    Between p.threads (p.stored filename fd payload).threads := by
  unfold stored
  split
  · exact ⟨hm, p.threads.kernel, .exited, rfl, rfl⟩
  · exact ⟨hm, p.threads.kernel.close fd, .creating filename payload, rfl, rfl⟩

theorem received_between (hm : p.threads.main = .receiving) (filename block payload : Bytes)
    (fd : Int) (remain : Nat) :
    Between p.threads (p.received filename fd remain block payload).threads := by
  unfold received
  split
  · exact .of_reading hm
  · dsimp only
    split
    · obtain ⟨-, k, pc, hpc, heq⟩ := stored_between (p := { p with
        threads := { p.threads with kernel := p.threads.kernel.put fd block } }) hm filename
          (payload ++ block) fd
      exact ⟨hm, k, pc, hpc, heq⟩
    · exact ⟨hm, p.threads.kernel.put fd block, .receiving, rfl, by rw [← hm]⟩

theorem recv_between {mem : Nat → UInt8} {n : Nat} (hs : p.recv mem n inbox = some (p', inbox')) :
    Between p.threads p'.threads := by
  unfold recv at hs
  split at hs
  · rename_i request hm hreading
    cases inbox with
    | nil => cases hs
    | cons b inbox =>
        obtain ⟨rfl, -⟩ := Prod.mk.inj (Option.some.inj hs)
        exact .of_reading hm
  · rename_i filename got hm hreading
    split at hs
    · cases hs
    · obtain ⟨rfl, -⟩ := Prod.mk.inj (Option.some.inj hs)
      exact .of_reading hm
  · rename_i filename fd remain block payload hm hreading
    split at hs
    · obtain ⟨rfl, -⟩ := Prod.mk.inj (Option.some.inj hs)
      exact stored_between hm filename payload fd
    · split at hs
      · cases hs
      · obtain ⟨rfl, -⟩ := Prod.mk.inj (Option.some.inj hs)
        exact received_between hm filename _ payload fd remain
  · cases hs

theorem openFile_between {ok : Bool} (hs : p.openFile ok = some p') :
    Between p.threads p'.threads := by
  unfold openFile at hs
  split at hs
  · rename_i filename size hm hreading
    dsimp only at hs
    split at hs
    · obtain rfl := Option.some.inj hs
      exact ⟨hm, p.threads.kernel, .exited, rfl, rfl⟩
    · obtain rfl := Option.some.inj hs
      exact ⟨hm, _, .receiving, rfl, by rw [← hm]⟩
  · cases hs

/-- **One step** keeps the threads sound. -/
theorem Sound.step (h : p.Sound) (hs : p.handle exec inbox room e = some (p', inbox', out)) :
    p'.Sound := by
  have between (hb : Between p.threads p'.threads) : p'.Sound := by
    obtain ⟨hm, k, pc, hpc, heq⟩ := hb
    exact h.received hm hpc heq
  cases e with
  | recv mem n =>
      obtain ⟨⟨p₁, inbox₁⟩, h1, heq⟩ := Option.map_eq_some_iff.mp hs
      obtain ⟨rfl, -⟩ := Prod.mk.inj heq
      exact between (recv_between h1)
  | openFile ok =>
      obtain ⟨p₁, h1, heq⟩ := Option.map_eq_some_iff.mp hs
      obtain ⟨rfl, -⟩ := Prod.mk.inj heq
      exact between (openFile_between h1)
  | own pe =>
      obtain ⟨p₁, h1, heq⟩ := Option.map_eq_some_iff.mp hs
      obtain ⟨rfl, -⟩ := Prod.mk.inj heq
      unfold own at h1
      split at h1
      · rename_i hinside
        obtain ⟨s, hstep, rfl⟩ := Option.map_eq_some_iff.mp h1
        exact h.threads hstep (Or.inl hinside) rfl
      · cases h1
  | send mem =>
      obtain ⟨p₁, h1, heq⟩ := Option.map_eq_some_iff.mp hs
      obtain ⟨rfl, -⟩ := Prod.mk.inj heq
      unfold send at h1
      split at h1
      · obtain ⟨s, hstep, rfl⟩ := Option.map_eq_some_iff.mp h1
        exact h.threads hstep (Or.inr ⟨mem, rfl⟩) rfl
      · cases h1
  | flush n =>
      obtain ⟨⟨p₁, out₁⟩, h1, heq⟩ := Option.map_eq_some_iff.mp hs
      obtain ⟨rfl, -⟩ := Prod.mk.inj heq
      unfold flush at h1
      split at h1
      · cases h1
      · obtain ⟨rfl, -⟩ := Prod.mk.inj (Option.some.inj h1)
        exact ⟨h.wired, h.accounts, h.ending, h.serves⟩

/-! ## Who can go on -/

/-- No tasking thread has exited, since no end marker has been pushed. -/
theorem Sound.tasking (h : p.Sound) (i : Fin numThread) : p.threads.tasking i ≠ .exited := by
  have hnone : p.threads.main.endsPushed = 0 := by
    have hserves := h.serves
    cases hm : p.threads.main <;> rw [hm] at hserves <;> first | rfl | cases hserves
  intro hi
  have hle := h.ending.exits_le h.wired h.accounts
  rw [hnone, Nat.le_zero, Finset.card_eq_zero] at hle
  have := Pipeline.mem_exits.mpr hi
  rw [hle] at this
  exact absurd this (Finset.notMem_empty i)

/-- A main thread that waits for `task_queue` waits for a tasking thread that
can go on. -/
theorem Sound.pushing (h : p.Sound) (exec : Bytes → Bytes) {t : WorkerTask} {payload : Bytes}
    (hm : p.threads.main = .pushing t payload) :
    ∃ th, th.receives = true ∧ Pipeline.Moves exec p.threads th := by
  have hlive : p.threads.main ≠ .exited ∧ p.threads.main ≠ .done := by simp [hm]
  have hop : p.threads.taskOp .main = some (.push t) := by simp [Pipeline.taskOp, hm]
  have hprogress : Pipeline.Moves exec p.threads .main ∨ _ := h.wired.task_progress hlive hop
  rcases hprogress with hmoves | hwaiting
  · exact ⟨.main, rfl, hmoves⟩
  · have hfull := (h.wired.tasks.pushers _ _ hwaiting).2
    rw [h.wired.taskMax] at hfull
    have hprogress : Pipeline.Moves exec p.threads (.tasking 0) ∨ _ :=
      h.wired.tasking_progress h.accounts hlive 0
    rcases hprogress with hmoves | hexited | hnil
    · exact ⟨.tasking 0, rfl, hmoves⟩
    · exact (h.tasking 0 hexited).elim
    · rw [hnil] at hfull
      exact absurd hfull (by decide)

theorem inside_of_pushing {s s' : Pipeline} {pe : PipelineEvent} {t : WorkerTask} {payload : Bytes}
    {th : Thread} (hm : s.main = .pushing t payload) (hs : Pipeline.Step exec s pe s')
    (hth : pe.thread = some th) (hr : th.receives = true) : pe.inside = true := by
  rw [Pipeline.Step, Pipeline.handle_of_live (by simp [hm])] at hs
  cases pe with
  | request | leave | exit | openFile | main =>
      simp only [Pipeline.request, Pipeline.leave, Pipeline.exit, Pipeline.openFile,
        Pipeline.mainStep, hm] at hs
      cases hs
  | sending =>
      obtain rfl := Option.some.inj hth
      cases hr
  | createOutput | tasking | garble | noShell | heartbeat | call | enter | wake => rfl

/-- **A worker with something to read can go on**: its main loop, or one of
its tasking threads. -/
theorem Sound.enabled (h : p.Sound) (hrun : p.threads.main ≠ .exited) (hin : inbox ≠ [])
    (exec : Bytes → Bytes) (room : Nat) :
    ∃ e r, e.receives = true ∧ p.handle exec inbox room e = some r := by
  have hserves := h.serves
  cases hm : p.threads.main with
  | receiving =>
      cases hreading : p.reading with
      | line request =>
          obtain ⟨b, bs, rfl⟩ := List.exists_cons_of_ne_nil hin
          refine ⟨.recv (fun _ => 0) 0, ?_⟩
          simp only [handle, recv, hm, hreading, Option.map_some]
          exact ⟨_, rfl, rfl⟩
      | size filename got =>
          refine ⟨.recv (fun _ => 0) 0, ?_⟩
          simp only [handle, recv, hm, hreading, if_neg hin, Option.map_some]
          exact ⟨_, rfl, rfl⟩
      | opening filename size =>
          refine ⟨.openFile true, ?_⟩
          simp only [handle, openFile, hm, hreading]
          split <;> exact ⟨_, rfl, rfl⟩
      | file filename fd remain block payload =>
          refine ⟨.recv (fun _ => 0) 0, ?_⟩
          simp only [handle, recv, hm, hreading, if_neg hin]
          split <;> exact ⟨_, rfl, rfl⟩
  | creating filename payload =>
      refine ⟨.own (.createOutput true), ?_⟩
      have hlive : p.threads.main ≠ .exited ∧ p.threads.main ≠ .done := by simp [hm]
      simp only [handle, own, PipelineEvent.inside, if_true, Pipeline.handle_of_live hlive,
        Pipeline.createOutput, hm, Option.map_some]
      exact ⟨_, rfl, rfl⟩
  | pushing t payload =>
      obtain ⟨th, hr, pe, s', hown, hth, hs⟩ := h.pushing exec hm
      refine ⟨.own pe, ({ p with threads := s' }, inbox, []), ?_, ?_⟩
      · simp only [WorkerEvent.receives, hown, hth, Option.any_some, hr, Bool.and_self]
      · have hs' : p.threads.handle exec pe = some s' := hs
        simp only [handle, own, inside_of_pushing hm hs hth hr, if_true, hs', Option.map_some]
  | exited => exact (hrun hm).elim
  | opening | storing | killing | closing | ending | endingSender | joining | joiningSending
  | joiningHeartbeat | done =>
      rw [hm] at hserves
      cases hserves

end WorkerProcess

end KeyLime
