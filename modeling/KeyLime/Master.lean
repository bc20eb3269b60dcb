import KeyLime.Forward

/-!
# The master

The globals of `master.c` and the functions on them: the scheduler, the
heartbeat bookkeeping and the event handlers. Worker records live in a
heap, so that `curr` keeps naming one record while `handle_data` moves it
from `worker_list` to `interface`; the vectors hold addresses. `CPU_usage`
and the times are exact rationals.

`log` is history: what the functions did, in order. No modelled function
looks at it. What the master has done in a run (which tasks it made, where it
placed them, what it forwarded) is read off this list.

`handle_data` is a sequence of `if`s on the state of the parser, each of which
may return or go on to the next one. It is kept as that: one definition for each
branch, `Flow` for how a branch ends, and `handleData` as their composition. So
a branch can be laid beside its lines of the source, and the case analysis of a
call is one of five small ones (`Handle`).

`none` is where the source leaves defined behaviour: a store behind the command
buffer, a null pointer, `vector_erase` at a position that is none.
-/

namespace KeyLime

/-- The three functions that read from a connection. -/
inductive Stage where
  | header
  | size
  | data
deriving DecidableEq, Repr

inductive Obs where
  /-- `get_command`, `get_size` or `get_binary_data` returned on record `p`. -/
  | parsed (st : Stage) (p : Nat) (ret : Ret) (last : Option ReadResult)
  /-- `get_binary_data` on record `p` opened a file under this name. -/
  | opened (p : Nat) (name : Option Bytes)
  /-- `make_task`. -/
  | made (t : Task)
  /-- `schedule` returned `r` for `t`. -/
  | scheduled (t : Task) (r : Int)
  /-- `scheduler_remove_task` was called, and removed `t`. -/
  | removed (fd : Int) (name : Bytes) (t : Option Task)
  /-- `handle_data` called `do_put` for record `p`: whether the event came
  from the interface, the target, the verb and name of the record, the
  stored file at the time of the call, and what `do_put` returned. -/
  | forward (p : Nat) (fromInterface : Bool) (dst : Int) (toDo : Command) (name : Bytes)
      (stored : Option Bytes) (ret : Ret)
  /-- `reschedule` called `do_put` for `t`. -/
  | resent (t : Task) (dst : Int) (ret : Ret)
deriving DecidableEq

structure Master where
  kernel : Kernel
  heap : Nat → Worker
  /-- The addresses the next `malloc` of a worker and of a task return. -/
  nextWorker : Nat
  nextTask : Nat
  interfaceFd : Int
  interface : Option Nat
  workerList : List Nat
  taskList : List Task
  log : List Obs

namespace Master

def record (m : Master) (o : Obs) : Master := { m with log := m.log ++ [o] }

/-- Write record `p` through its pointer. -/
def set (m : Master) (p : Nat) (w : Worker) : Master :=
  { m with heap := Function.update m.heap p w }

/-! ## Bookkeeping -/

/-- `find_worker_pos`, over the records of `worker_list`; `none` is -1. -/
def findWorkerPos (m : Master) (fd : Int) : Option Nat :=
  m.workerList.findIdx? fun p => (m.heap p).workerFd = fd

/-- The load factor `schedule` compares. -/
def loadFactor (w : Worker) : ℚ := w.cpuUsage * 10 + w.tasks.length

/-- The scan of `schedule`: the records still to see, the least load so
far and the record it was seen on. -/
def scheduleScan (heap : Nat → Worker) : List Nat → ℚ → Option Nat → Option Nat
  | [], _, best => best
  | p :: ps, least, best =>
      if (heap p).alive = true ∧ loadFactor (heap p) < least then
        scheduleScan heap ps (loadFactor (heap p)) (some p)
      else scheduleScan heap ps least best

/-- The record `schedule` gives the next task to. -/
def bestWorker (m : Master) : Option Nat :=
  scheduleScan m.heap m.workerList 100000000 none

/-- `vector_push_back(p->tasks, t)`. -/
def pushTask (m : Master) (p : Nat) (t : Task) : Master :=
  m.set p { m.heap p with tasks := (m.heap p).tasks ++ [t] }

def schedule (m : Master) (t : Task) : Master × Int :=
  let m := { m with kernel := m.kernel.lock }
  match m.bestWorker with
  | none =>
      ({ m with taskList := m.taskList ++ [t], kernel := m.kernel.unlock }.record
        (.scheduled t (-1)), -1)
  | some p =>
      let m := m.pushTask p t
      ({ m with kernel := m.kernel.unlock }.record (.scheduled t (m.heap p).workerFd),
        (m.heap p).workerFd)

def makeTask (m : Master) (w : Worker) (name : Bytes) : Task × Master :=
  let t : Task :=
    { ptr := m.nextTask, fileName := name, orphan := 0, fdOwner := w.fdToSendTo }
  (t, { m with nextTask := m.nextTask + 1 }.record (.made t))

/-- The record `scheduler_remove_task` works on. -/
def ownerOf (m : Master) (fd : Int) : Option Nat :=
  m.workerList.find? fun p => (m.heap p).workerFd = fd

/-- `scheduler_remove_task`: the first task of that name, on the first
record with that descriptor. -/
def schedulerRemoveTask (m : Master) (fd : Int) (name : Bytes) : Master :=
  match m.ownerOf fd with
  | none => m.record (.removed fd name none)
  | some p =>
      let tasks := (m.heap p).tasks
      match tasks.findIdx? fun t => t.fileName = name with
      | none => m.record (.removed fd name none)
      | some i =>
          (m.set p { m.heap p with tasks := tasks.eraseIdx i }).record
            (.removed fd name tasks[i]?)

/-! ## Heartbeats and recovery -/

/-- What the kernel does for one task `reschedule` sends again. -/
structure ResendIo where
  openOk : Bool := true
  put : PutIo := {}
deriving DecidableEq, Repr

/-- One round of the first loop of `reschedule`: a new worker for `t`, its
file opened anew, and the file sent. `mem` is the memory of the temporary
record. -/
def resend (m : Master) (mem : Worker) (t : Task) (io : ResendIo) : Option Master :=
  let (m, dst) := m.schedule t
  let (fd, k) := m.kernel.openWithAllPermission t.fileName io.openOk
  let temp := { mem with tempFileName := some t.fileName, tempFd := fd }
  (doPut k dst temp io.put).map fun (ret, k) =>
    { m with kernel := k }.record (.resent t dst ret)

def resendAll (m : Master) (mem : Worker) : List Task → List ResendIo → Option Master
  | [], _ => some m
  | t :: ts, ios => (m.resend mem t (ios.headD {})).bind fun m => m.resendAll mem ts ios.tail

/-- The erase loop of `reschedule`: `vector_erase` at `i`, `i + 1`, … on
the vector as the erases before have left it. -/
def eraseAll : Nat → Nat → List Task → Option (List Task)
  | 0, _, ts => some ts
  | n + 1, i, ts => (vectorErase ts (some i)).bind (eraseAll n (i + 1))

/-- `reschedule` of record `p`. The vector it walks is that of a record
`schedule` passes over, since it is dead. -/
def reschedule (m : Master) (p : Nat) (mem : Worker) (ios : List ResendIo) : Option Master :=
  let tasks := (m.heap p).tasks
  (m.resendAll mem tasks ios).bind fun m =>
    (eraseAll tasks.length 0 (m.heap p).tasks).map fun ts =>
      m.set p { m.heap p with tasks := ts }

/-- What a detection pass takes for dead: a record that has sent a
heartbeat, is alive, and has been silent for more than three seconds. -/
def silent (w : Worker) (now : ℚ) : Bool :=
  0 < w.lastBeatReceived && w.alive && 3 < now - w.lastBeatReceived

/-- One pass of `detect_heart_failure` at time `now`; `ios p` is what the
kernel does while record `p` is rescheduled. -/
def detectPass (m : Master) (now : ℚ) (mem : Worker) (ios : Nat → List ResendIo) :
    List Nat → Option Master
  | [] => some m
  | p :: ps =>
      let m := { m with kernel := m.kernel.lock.unlock }
      if silent (m.heap p) now then
        ((m.set p { m.heap p with alive := false }).reschedule p mem (ios p)).bind
          fun m => m.detectPass now mem ios ps
      else m.detectPass now mem ios ps

/-- `report_heartbeat` at time `now`. -/
def reportHeartbeat (m : Master) (addr : Bytes) (usage now : ℚ) : Master :=
  match m.workerList.find? fun p => (m.heap p).ip = addr with
  | none => m
  | some p =>
      { m.set p { m.heap p with cpuUsage := usage, lastBeatReceived := now, alive := true } with
        kernel := m.kernel.lock.unlock }

/-! ## Connections -/

/-- A pending connection: the descriptor `accept` returns for it, the
address of its peer, and what the memory of its record holds before. -/
structure Conn where
  fd : Int
  ip : Bytes
  mem : Worker

def acceptOne (m : Master) (c : Conn) : Master :=
  let (k, w) := createWorker (m.kernel.connect c.fd) c.mem c.fd c.ip
  { m.set m.nextWorker w with
    kernel := k
    nextWorker := m.nextWorker + 1
    workerList := m.workerList ++ [m.nextWorker] }

def acceptConnections (m : Master) : List Conn → Master
  | [] => m
  | c :: cs => (m.acceptOne c).acceptConnections cs

/-! ## `handle_data` -/

/-- What the kernel does for one call of `handle_data`. -/
structure DataIo where
  recv : RecvIo := {}
  put : PutIo := {}
deriving DecidableEq, Repr

/-- How a branch of `handle_data` ends: with a `return`, or by going on to
the next `if`. -/
inductive Flow where
  | ret (m : Master)
  | next (m : Master)

def Flow.master : Flow → Master
  | .ret m => m
  | .next m => m

def Flow.andThen (x : Option Flow) (f : Master → Option Flow) : Option Flow :=
  x.bind fun
    | .ret m => some (.ret m)
    | .next m => f m

/-- `curr`: the record found in `worker_list`, else the interface's. -/
def current (m : Master) (fd : Int) : Option Nat :=
  match m.findWorkerPos fd with
  | some i => m.workerList[i]?
  | none => m.interface

/-- Record `p` and its socket after a parser function has returned `r`. -/
def commit (m : Master) (p : Nat) (st : Stage) (r : Parsed) : Master :=
  { m.set p r.w with kernel := m.kernel.advance (m.heap p).workerFd r.rest }.record
    (.parsed st p r.ret r.last)

/-- `interface = curr`, and `curr` out of `worker_list`. -/
def register (m : Master) (fd : Int) (p : Nat) : Option Master :=
  (vectorErase m.workerList (m.findWorkerPos fd)).map fun l =>
    { m with
      interfaceFd := (m.heap p).workerFd
      interface := some p
      workerList := l
      kernel := m.kernel.lock.unlock }

/-- The first branch, `START`. -/
def headerStage (fd : Int) (p : Nat) (m : Master) : Option Flow :=
  if (m.heap p).status ≠ .start then some (.next m)
  else
    (getCommand (m.kernel.inbox (m.heap p).workerFd) (m.heap p)).bind fun r =>
      let m := m.commit p .header r
      match r.ret with
      | .notDoneSending => some (.ret m)
      | .doneSending =>
          let m := m.set p { m.heap p with status := .needSize }
          if (m.heap p).toDo = .interfacePut ∧ m.interfaceFd = -1 then
            (m.register fd p).map .next
          else some (.next m)
      | .bigFailure =>
          let m := m.set p { m.heap p with alive := false }
          if fd = m.interfaceFd then
            some (.ret { m with kernel := m.kernel.close m.interfaceFd, interfaceFd := -1 })
          else some (.next m)

/-- The second branch, `NEED_SIZE`. -/
def sizeStage (p : Nat) (m : Master) : Option Flow :=
  if (m.heap p).status ≠ .needSize then some (.next m)
  else
    (getSize (m.kernel.inbox (m.heap p).workerFd) (m.heap p)).map fun r =>
      let m := m.commit p .size r
      match r.ret with
      | .notDoneSending => .ret m
      | .doneSending =>
          let m := if (m.heap p).fileSize = 0 then m.set p { m.heap p with alive := false } else m
          .next (m.set p { m.heap p with status := .recievingData })
      | .bigFailure => .next m

/-- The third branch, `RECIEVING_DATA`. -/
def dataStage (p : Nat) (io : RecvIo) (m : Master) : Option Flow :=
  if (m.heap p).status ≠ .recievingData then some (.next m)
  else
    let w := m.heap p
    let m := if w.tempFd = -1 then m.record (.opened p w.tempFileName) else m
    let (r, k) := getBinaryData m.kernel w io
    let m := { m with kernel := k }.commit p .data r
    match r.ret with
    | .notDoneSending => some (.ret m)
    | .doneSending => some (.next (m.set p { m.heap p with status := .forwardData }))
    | .bigFailure => some (.next m)

/-- The fourth branch, `FORWARD_DATA`: a request of the interface goes to
`schedule`, a response of a worker to the interface. -/
def forwardStage (fd : Int) (p : Nat) (m : Master) : Option Flow :=
  if (m.heap p).status ≠ .forwardData then some (.next m)
  else
    match (m.heap p).tempFileName with
    | none => none
    | some name =>
        if fd = m.interfaceFd then
          let (t, m) := m.makeTask (m.heap p) name
          let (m, dst) := m.schedule t
          some (.next (m.set p { m.heap p with fdToSendTo := dst, status := .forwardingData }))
        else if (m.heap p).alive = false then some (.ret m)
        else
          let m := m.schedulerRemoveTask (m.heap p).workerFd name
          some (.next (m.set p
            { m.heap p with fdToSendTo := m.interfaceFd, status := .forwardingData }))

/-- The last branch, `FORWARDING_DATA`. -/
def putStage (fd : Int) (p : Nat) (io : PutIo) (m : Master) : Option Flow :=
  let w := m.heap p
  if w.status ≠ .forwardingData then some (.next m)
  else
    (doPut m.kernel w.fdToSendTo w io).map fun (ret, k) =>
      let name := w.tempFileName.getD []
      let m := { m with kernel := k }.record
        (.forward p (fd = m.interfaceFd) w.fdToSendTo w.toDo name
          (m.kernel.store (m.kernel.resolve name)) ret)
      let (k, w) := resetWorkerForParsing m.kernel w
      .next ({ m with kernel := k }.set p { w with status := .start })

/-- `handle_data` for an event on `fd`; `none` where the source leaves
defined behaviour. -/
def handleData (m : Master) (fd : Int) (io : DataIo) : Option Master :=
  match m.current fd with
  | none => some m
  | some p =>
      if (m.heap p).alive = false then some m
      else
        (Flow.andThen (Flow.andThen (Flow.andThen (Flow.andThen
          (m.headerStage fd p) (sizeStage p)) (dataStage p io.recv))
          (forwardStage fd p)) (putStage fd p io.put)).map Flow.master

end Master

end KeyLime
