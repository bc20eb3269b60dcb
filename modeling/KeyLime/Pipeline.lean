import KeyLime.Job
import KeyLime.Monitor

/-!
# The threads of the worker

`worker_main` with its `NUM_THREAD` tasking threads, the sending thread and
the heartbeat, over the two queues. A thread's program counter says what it
does next; every access to a queue, to a file or to the socket is a step of
its own.

The main loop takes its requests from the outside here (`request`): what
`read_line_from_socket` and `read_size_from_socket` make of the bytes on the
socket is the subject of the receive loop. `leave` is its end, on end of
file or after `kill_worker`, and `exit` the end of the process.

The sending thread's `write` may fail after any number of bytes, and the thread
gives its task up and exits then (`giveUp`). These are the errors a program is
told of. One is fatal: where the other end of the connection is closed, or
`kill_worker` has shut the socket down, `write` fails with `EPIPE` and the
signal that comes with it, which `worker_main` does not handle, ends the process
in the middle of this very step. The runs here are those of a process that is
still there, which is what the results about reachable states are about; the
results about what becomes of the worker put the deaths back (`Mortal`,
`raisesSigpipe`).

What else is fixed:

- a program is a function from the bytes of its executable to its output, and
  a program that was started ends;
- disk writes succeed;
- what the command line of a task does to the files when the shell does not run
  the program with it is an input (`garble`).
-/

namespace KeyLime

open Transition

inductive Thread where
  | main
  | tasking (i : Fin numThread)
  | sending
deriving DecidableEq, Repr

/-- `payload` is history: the bytes of the executable. -/
inductive MainPc where
  /-- At the head of the receive loop. -/
  | receiving
  /-- In `read_file`, at its `open`. -/
  | opening (name payload : Bytes)
  /-- In `read_file_from_socket`, with `rest` still to come. -/
  | storing (name : Bytes) (fd : Int) (rest payload : Bytes)
  | creating (name payload : Bytes)
  | pushing (t : WorkerTask) (payload : Bytes)
  | killing
  | closing
  /-- Pushing the end marker number `i`. -/
  | ending (i : Nat)
  | endingSender
  | joining (i : Nat)
  | joiningSending
  | joiningHeartbeat
  | done
  | exited
deriving DecidableEq, Repr

inductive TaskingPc where
  | pulling
  /-- At the call of `system`. -/
  | executing (t : WorkerTask)
  /-- The shell has opened the output file. -/
  | opened (t : WorkerTask)
  /-- The program runs: it has written `off` bytes and `rest` is to come. -/
  | running (t : WorkerTask) (off : Nat) (rest : Bytes)
  | returning (t : WorkerTask)
  | exited
deriving DecidableEq, Repr

inductive SendingPc where
  | pulling
  | header (t : WorkerTask)
  | measuring (t : WorkerTask)
  /-- In `write_file_to_socket`; `body` is history: what it has written. -/
  | body (t : WorkerTask) (remain : Nat) (buffer : Nat → UInt8) (body : Bytes)
  | exited

structure Pipeline where
  kernel : Kernel
  tasks : Monitor Thread WorkerTask
  finished : Monitor Thread WorkerTask
  main : MainPc
  tasking : Fin numThread → TaskingPc
  sending : SendingPc
  stayAlive : Bool
  heartbeatExited : Bool
  /-- History: name and payload of the accepted tasks, the tasks a thread
  has begun to execute, the tasks sent with their payloads, those the sender
  gave up, and how many end markers each tasking thread has pulled. -/
  accepted : List (Bytes × Bytes)
  started : List Nat
  sent : List (Nat × Bytes)
  abandoned : List Nat
  ends : Fin numThread → Nat

/-- What happens next. `main`, `tasking` and `sending` are the next step of
that thread outside of the queues; `call`, `enter` and `wake` are its steps
in them. -/
inductive PipelineEvent where
  | request (name payload : Bytes)
  | leave
  | exit
  | openFile (ok : Bool)
  | createOutput (ok : Bool)
  | main
  /-- At most `n + 1` bytes of output are written. -/
  | tasking (i : Fin numThread) (n : Nat)
  /-- The command of a task that the shell does not take for its program. -/
  | garble (i : Fin numThread) (store : Bytes → Option Bytes)
  /-- `system` returns -1. -/
  | noShell (i : Fin numThread)
  /-- `mem` is the memory `malloc` returns; the write fails after that many
  bytes if `short` says so. -/
  | sending (mem : Nat → UInt8) (short : Option Nat)
  | heartbeat (fails : Bool)
  | call (th : Thread)
  | enter (th : Thread) (p : Nat)
  | wake (th : Thread)

def socketFd : Int := 3

/-- The contents of a buffer after `read` has stored `blk` in it. -/
def overwrite (mem : Nat → UInt8) (blk : Bytes) : Nat → UInt8 := fun i => blk.getD i (mem i)

def fetch (mem : Nat → UInt8) (n : Nat) : Bytes := (List.range n).map mem

theorem length_fetch (mem : Nat → UInt8) (n : Nat) : (fetch mem n).length = n := by simp [fetch]

theorem getElem_fetch {mem : Nat → UInt8} {n i : Nat} (h : i < (fetch mem n).length) :
    (fetch mem n)[i] = mem i := by
  simp [fetch]

theorem overwrite_lt {mem : Nat → UInt8} {blk : Bytes} {i : Nat} (h : i < blk.length) :
    overwrite mem blk i = blk[i] := by
  simp [overwrite, h]

theorem overwrite_ge {mem : Nat → UInt8} {blk : Bytes} {i : Nat} (h : blk.length ≤ i) :
    overwrite mem blk i = mem i := by
  simp [overwrite, h]

theorem fetch_overwrite (mem : Nat → UInt8) (blk : Bytes) :
    fetch (overwrite mem blk) blk.length = blk := by
  refine List.ext_getElem (by simp [fetch]) fun j h1 h2 => ?_
  simp [fetch, overwrite, h2]

namespace Pipeline

/-- The worker after `setup_client`, in a directory that may hold files. -/
def start (resolve : Bytes → Bytes) (store : Bytes → Option Bytes) : Pipeline where
  kernel :=
    { desc := Function.update (fun _ => none) socketFd (some .sock), inbox := fun _ => []
      taken := fun _ => [], sent := fun _ => [], store := store, resolve := resolve, nextFd := 4
      held := false, relocked := false }
  tasks := .create Thread maxConcurrentTask taskCopyConstructor
  finished := .create Thread (-1) taskCopyConstructor
  main := .receiving
  tasking := fun _ => .pulling
  sending := .pulling
  stayAlive := true
  heartbeatExited := false
  accepted := []
  started := []
  sent := []
  abandoned := []
  ends := fun _ => 0

variable (exec : Bytes → Bytes) (s : Pipeline)

def setTasking (i : Fin numThread) (pc : TaskingPc) : Pipeline :=
  { s with tasking := Function.update s.tasking i pc }

/-! ## The main thread -/

def request (name payload : Bytes) : Option Pipeline :=
  match s.main with
  | .receiving => some { s with main := .opening name payload }
  | _ => none

def leave : Option Pipeline :=
  match s.main with
  | .receiving => some { s with main := .killing }
  | _ => none

/-- `exit(-1)`, which the main thread calls on an error of the socket. -/
def exit : Option Pipeline :=
  match s.main with
  | .receiving | .opening .. | .storing .. => some { s with main := .exited }
  | _ => none

def openFile (ok : Bool) : Option Pipeline :=
  match s.main with
  | .opening name payload =>
      let (fd, k) := s.kernel.openWithAllPermission name ok
      if fd = -1 then some { s with main := .exited }
      else some { s with kernel := k, main := .storing name fd payload payload }
  | _ => none

def createOutput (ok : Bool) : Option Pipeline :=
  match s.main with
  | .creating name payload =>
      let (fd, output, k) := createOutputFile s.kernel name ok
      some { s with
        kernel := k
        main := .pushing
          { seq := s.accepted.length, inputFilename := some name, outputFilename := some output
            outputFd := fd } payload }
  | _ => none

/-- One round of `read_file_from_socket`, the first two calls of the clean
up, or a `pthread_join` that returns. -/
def mainStep : Option Pipeline :=
  match s.main with
  | .storing name fd rest payload =>
      let k := s.kernel.put fd (rest.take fileBufferSize)
      if rest.drop fileBufferSize = [] then
        some { s with kernel := k.close fd, main := .creating name payload }
      else some { s with kernel := k, main := .storing name fd (rest.drop fileBufferSize) payload }
  | .killing => some { s with stayAlive := false, main := .closing }
  | .closing => some { s with kernel := s.kernel.close socketFd, main := .ending 0 }
  | .joining i =>
      if h : i < numThread then
        if s.tasking ⟨i, h⟩ = .exited then some { s with main := .joining (i + 1) } else none
      else some { s with main := .joiningSending }
  | .joiningSending =>
      match s.sending with
      | .exited => some { s with main := .joiningHeartbeat }
      | _ => none
  | .joiningHeartbeat => if s.heartbeatExited then some { s with main := .done } else none
  | _ => none

/-! ## A tasking thread -/

/-- The shell opens the output file, the program is loaded, or it writes. -/
def taskingStep (i : Fin numThread) (n : Nat) : Option Pipeline :=
  match s.tasking i with
  | .executing t =>
      match t.inputFilename, t.outputFilename with
      | some name, some output =>
          if runsProgram name then
            some { s.setTasking i (.opened t) with
              kernel := { s.kernel with
                store := Function.update s.kernel.store (s.kernel.resolve output) (some []) }
              started := s.started ++ [t.seq] }
          else none
      | _, _ => none
  | .opened t =>
      t.inputFilename.map fun name => s.setTasking i
        (.running t 0 (exec ((s.kernel.store (s.kernel.resolve name)).getD [])))
  | .running t off rest =>
      if rest = [] then some (s.setTasking i (.returning t))
      else
        t.outputFilename.map fun output =>
          let path := s.kernel.resolve output
          { s.setTasking i (.running t (off + (rest.take (n + 1)).length) (rest.drop (n + 1))) with
            kernel := { s.kernel with
              store := Function.update s.kernel.store path (some
                (Kernel.splice ((s.kernel.store path).getD []) off (rest.take (n + 1)))) } }
  | _ => none

def garble (i : Fin numThread) (store : Bytes → Option Bytes) : Option Pipeline :=
  match s.tasking i with
  | .executing t =>
      if (t.inputFilename.map runsProgram).getD false then none
      else some { s.setTasking i (.returning t) with
        kernel := { s.kernel with store := store }, started := s.started ++ [t.seq] }
  | _ => none

def noShell (i : Fin numThread) : Option Pipeline :=
  match s.tasking i with
  | .executing t =>
      t.inputFilename.map fun name =>
        { s.setTasking i (.returning t) with
          kernel := (s.kernel.put t.outputFd badExecMessage).put t.outputFd (name ++ [0])
          started := s.started ++ [t.seq] }
  | _ => none

/-! ## The sending thread -/

/-- `write_to_socket`: whether everything was written. -/
def write (k : Kernel) (bs : Bytes) (short : Option Nat) : Bool × Kernel :=
  if k.desc socketFd = none then (false, k)
  else
    match short with
    | none => (true, k.put socketFd bs)
    | some n => (false, k.put socketFd (bs.take n))

/-- The write failed and the process is still there, so the error was not
`EPIPE`: the thread leaves its loop with `t` in its hands and `output_fd` open. -/
def giveUp (t : WorkerTask) (k : Kernel) : Pipeline :=
  { s with kernel := k, sending := .exited, abandoned := s.abandoned ++ [t.seq] }

def sendingStep (mem : Nat → UInt8) (short : Option Nat) : Option Pipeline :=
  match s.sending with
  | .header t =>
      t.inputFilename.map fun name =>
        let (ok, k) := write s.kernel (createHeader name) short
        if ok then { s with kernel := k, sending := .measuring t } else s.giveUp t k
  | .measuring t =>
      let size := endOffset s.kernel t.outputFd
      let (ok, k) := write (s.kernel.rewind t.outputFd) (sizeBytes size) short
      if ok then some { s with kernel := k, sending := .body t size mem [] }
      else some (s.giveUp t k)
  | .body t remain buffer body =>
      if remain = 0 then
        some { s with
          kernel := s.kernel.close t.outputFd, sending := .pulling
          sent := s.sent ++ [(t.seq, body)] }
      else
        let count := if fileBufferSize ≤ remain then fileBufferSize else remain
        let (blk, k) := s.kernel.readFile t.outputFd count
        let buffer := overwrite buffer blk
        let (ok, k) := write k (fetch buffer count) short
        if ok then
          some { s with
            kernel := k
            sending := .body t (remain - count) buffer (body ++ fetch buffer count) }
        else some (s.giveUp t k)
  | _ => none

/-! ## The queues -/

def taskOp : Thread → Option (QueueOp WorkerTask)
  | .main =>
      match s.main with
      | .pushing t _ => some (.push t)
      | .ending _ => some (.push endTask)
      | _ => none
  | .tasking i =>
      match s.tasking i with
      | .pulling => some .pull
      | _ => none
  | .sending => none

def finishedOp : Thread → Option (QueueOp WorkerTask)
  | .main =>
      match s.main with
      | .endingSender => some (.push endTask)
      | _ => none
  | .tasking i =>
      match s.tasking i with
      | .returning t => some (.push t)
      | _ => none
  | .sending =>
      match s.sending with
      | .pulling => some .pull
      | _ => none

def afterPush : Thread → Pipeline
  | .main =>
      match s.main with
      | .pushing t payload =>
          { s with
            main := .receiving
            accepted := s.accepted ++ [((t.inputFilename).getD [], payload)] }
      | .ending i =>
          { s with main := if i + 1 < numThread then .ending (i + 1) else .endingSender }
      | _ => { s with main := .joining 0 }
  | .tasking i => s.setTasking i .pulling
  | .sending => s

def afterPull : Thread → WorkerTask → Pipeline
  | .main, _ => s
  | .tasking i, t =>
      if t.inputFilename = none then
        { s.setTasking i .exited with ends := Function.update s.ends i (s.ends i + 1) }
      else s.setTasking i (.executing t)
  | .sending, t => { s with sending := if t.inputFilename = none then .exited else .header t }

def afterOp (th : Thread) : QueueRet WorkerTask → Pipeline
  | .waits => s
  | .pushed => s.afterPush th
  | .pulled t => s.afterPull th t

def call (th : Thread) : Option Pipeline :=
  match s.taskOp th, s.finishedOp th with
  | some op, _ => (s.tasks.call th op).map fun q => { s with tasks := q }
  | none, some op => (s.finished.call th op).map fun q => { s with finished := q }
  | none, none => none

def enter (th : Thread) (p : Nat) : Option Pipeline :=
  match s.taskOp th, s.finishedOp th with
  | some _, _ => (s.tasks.enter th p).map fun (q, r) => afterOp { s with tasks := q } th r
  | none, some _ => (s.finished.enter th p).map fun (q, r) => afterOp { s with finished := q } th r
  | none, none => none

def wake (th : Thread) : Option Pipeline :=
  match s.taskOp th, s.finishedOp th with
  | some _, _ => (s.tasks.wake th).map fun q => { s with tasks := q }
  | none, some _ => (s.finished.wake th).map fun q => { s with finished := q }
  | none, none => none

def heartbeat (fails : Bool) : Option Pipeline :=
  if s.heartbeatExited || (s.stayAlive && !fails) then none
  else some { s with heartbeatExited := true }

/-- The end of the process ends its threads. -/
def handle (e : PipelineEvent) : Option Pipeline :=
  if s.main = .exited ∨ s.main = .done then none
  else
    match e with
    | .request name payload => s.request name payload
    | .leave => s.leave
    | .exit => s.exit
    | .openFile ok => s.openFile ok
    | .createOutput ok => s.createOutput ok
    | .main => s.mainStep
    | .tasking i n => s.taskingStep exec i n
    | .garble i store => s.garble i store
    | .noShell i => s.noShell i
    | .sending mem short => s.sendingStep mem short
    | .heartbeat fails => s.heartbeat fails
    | .call th => s.call th
    | .enter th p => s.enter th p
    | .wake th => s.wake th

def Step (s : Pipeline) (e : PipelineEvent) (s' : Pipeline) : Prop := s.handle exec e = some s'

def Reachable (s : Pipeline) : Prop :=
  ∃ resolve store, Reach (Step exec) (start resolve store) s

end Pipeline

end KeyLime
