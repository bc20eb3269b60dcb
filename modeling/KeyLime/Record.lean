import Mathlib.Data.Rat.Defs
import KeyLime.Kernel

/-!
# The master's records

`struct task`, `struct worker` and the two functions that initialise the
latter. C strings are byte lists without their NUL; `NULL` is `none`.
`command_size` is the length of `command`: bytes are only appended to the
buffer, and what is beyond them is zero.

The records are C objects: memory from `malloc` holds arbitrary contents,
so `createWorker` is given the contents it overwrites. That it overwrites all
that matters is not assumed but read off it (`createWorker_eq`), and so is what
the reset for the next frame leaves as it is (`resetWorkerForParsing_eq`).

A task is told apart from another one of the same name by the address of its
record (`ptr`), since the vectors hold addresses and `vector_erase` takes a
position. The vectors of the records are lists here; that the positions the
program computes are the right ones in the array is the subject of `Listing`.
-/

namespace KeyLime

def commandBufSize : Nat := 1024

/-- `START` … `FORWARDING_DATA`: where the parser of a connection stands. -/
inductive Status where
  | start
  | needSize
  | recievingData
  | forwardData
  | forwardingData
deriving DecidableEq, Repr

/-- The return codes of the master's resumable functions. -/
inductive Ret where
  | doneSending
  | notDoneSending
  | bigFailure
deriving DecidableEq, Repr

inductive Command where
  | interfacePut
  | put
deriving DecidableEq, Repr

/-- `ptr` is the address of the record, which is what the vectors hold. -/
structure Task where
  ptr : Nat
  fileName : Bytes
  orphan : Int
  fdOwner : Int
deriving DecidableEq, Repr

structure Worker where
  workerFd : Int
  alive : Bool
  ip : Bytes
  tasks : List Task
  cpuUsage : ℚ
  lastBeatReceived : ℚ
  status : Status
  command : Bytes
  toDo : Command
  tempFileName : Option Bytes
  fileSize : Nat
  sizeBufferPos : Nat
  tempFd : Int
  fdToSendTo : Int
deriving DecidableEq

instance : Inhabited Worker where
  default :=
    { workerFd := 0, alive := false, ip := [], tasks := [], cpuUsage := 0
      lastBeatReceived := 0, status := .start, command := [], toDo := .put
      tempFileName := none, fileSize := 0, sizeBufferPos := 0, tempFd := -1
      fdToSendTo := 0 }

/-- The source sets `temp_fd` to -1 before it looks whether there is a
descriptor to close. -/
def resetWorkerForParsing (k : Kernel) (w : Worker) : Kernel × Worker :=
  let w := { w with tempFd := -1, command := [], sizeBufferPos := 0, status := .start }
  let k := if w.tempFd ≠ -1 then k.close w.tempFd else k
  (k, { w with tempFd := -1, fileSize := 0, tempFileName := none, lastBeatReceived := 0 })

/-- `createWorker`: `mem` is what `malloc` returned memory holding. -/
def createWorker (k : Kernel) (mem : Worker) (fd : Int) (ip : Bytes) : Kernel × Worker :=
  resetWorkerForParsing k
    { mem with
      alive := true, tasks := [], workerFd := fd, ip := ip, tempFileName := none
      tempFd := -1, cpuUsage := -1, lastBeatReceived := 0 }

/-- A record in the fresh START state. -/
def Worker.fresh (w : Worker) : Worker :=
  { w with
    tempFd := -1, command := [], sizeBufferPos := 0, status := .start, fileSize := 0
    tempFileName := none, lastBeatReceived := 0 }

theorem resetWorkerForParsing_eq (k : Kernel) (w : Worker) :
    resetWorkerForParsing k w = (k, w.fresh) := rfl

theorem createWorker_eq (k : Kernel) (mem : Worker) (fd : Int) (ip : Bytes) :
    createWorker k mem fd ip =
      (k, { mem.fresh with
            alive := true, tasks := [], workerFd := fd, ip := ip, cpuUsage := -1 }) := rfl

/-! ## Vectors -/

/-- `vector_erase` with the shallow destructor. The position is a `size_t`;
`none` stands for -1 converted, which an empty vector takes for its last
position. Any other position outside the vector makes the source move
`(size - position - 1)` elements, a count that has wrapped around. -/
def vectorErase {α : Type*} (l : List α) : Option Nat → Option (List α)
  | none => if l = [] then some [] else none
  | some i => if i < l.length then some (l.eraseIdx i) else none

theorem vectorErase_some {α : Type*} {l l' : List α} {i : Nat}
    (h : vectorErase l (some i) = some l') : i < l.length ∧ l' = l.eraseIdx i := by
  simp only [vectorErase] at h
  split at h
  · rename_i hi
    exact ⟨hi, (Option.some.inj h).symm⟩
  · cases h

end KeyLime
