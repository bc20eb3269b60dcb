import Mathlib.Algebra.Ring.Nat
import Mathlib.Logic.Function.Basic
import Mathlib.Data.List.Basic

/-!
# The kernel as the three programs see it

Descriptors, sockets and the stored files. Everything the kernel is free
to decide is an input: what the reads on a socket meet is a list of
`Item`s waiting on it, and what the writes and the reads of a stored
file do is a list of `Outcome`s, one per call, after which calls do
everything they were asked. A list of outcomes is consumed from the
front, so the retry loops of the source are recursions on it.

Three choices decide how much the model can tell:

* a descriptor is a stored file with its own offset, or a connection, and a new
  one has a number that nothing has open. What is read or written through a
  descriptor that is not open is nothing, and the call fails;
* a name denotes a file through `resolve`, so that two names may be the same
  file, and `O_TRUNC` is felt by everyone who has it open;
* `taken` and `sent` are history: the bytes reads have returned on a socket and
  the bytes it has accepted. No modelled function looks at them. What a program
  does for the outside is stated with them.

The mutex of the master is here too (`held`), with a mark for a second `lock` by
the thread that holds it.
-/

namespace KeyLime

abbrev Bytes := List UInt8

/-- What the next `read` on a socket can meet; no item at all is `EAGAIN`. -/
inductive Item where
  | byte (b : UInt8)
  | intr
  | eof
  | err
deriving DecidableEq, Repr

/-- How a `read` on a socket ended. -/
inductive ReadResult where
  | data
  | again
  | eof
  | err
deriving DecidableEq, Repr

/-- What one `write`, or one `read` of a stored file, does: transfer at
most `n + 1` bytes, return zero, or fail with the given errno. -/
inductive Outcome where
  | take (n : Nat)
  | zero
  | intr
  | again
  | fail
deriving DecidableEq, Repr

/-- An open descriptor: a stored file with its offset, or a connection. -/
inductive Desc where
  | file (path : Bytes) (off : Nat)
  | sock
deriving DecidableEq, Repr

structure Kernel where
  desc : Int → Option Desc
  inbox : Int → List Item
  taken : Int → Bytes
  sent : Int → Bytes
  /-- Contents of the files, by resolved path. -/
  store : Bytes → Option Bytes
  /-- Path resolution: which file a name denotes in the temporary directory. -/
  resolve : Bytes → Bytes
  /-- No descriptor from here on is in use. -/
  nextFd : Nat
  /-- `data_structure_mutex`: held, and whether it was ever locked while held. -/
  held : Bool
  relocked : Bool

namespace Kernel

def lock (k : Kernel) : Kernel :=
  { k with held := true, relocked := k.relocked || k.held }

def unlock (k : Kernel) : Kernel := { k with held := false }

def close (k : Kernel) (fd : Int) : Kernel :=
  { k with desc := Function.update k.desc fd none }

/-- Bytes `bs` written at offset `off`; a gap before `off` reads as zeros. -/
def splice (old : Bytes) (off : Nat) (bs : Bytes) : Bytes :=
  (old ++ List.replicate (off - old.length) 0).take off ++ bs ++ old.drop (off + bs.length)

/-- The effect of `write`s that accepted exactly `bs`. -/
def put (k : Kernel) (fd : Int) (bs : Bytes) : Kernel :=
  if bs = [] then k
  else
    match k.desc fd with
    | some (.file path off) =>
        { k with
          store := Function.update k.store path
            (some (splice ((k.store path).getD []) off bs))
          desc := Function.update k.desc fd (some (.file path (off + bs.length))) }
    | some .sock => { k with sent := Function.update k.sent fd (k.sent fd ++ bs) }
    | none => k

/-- `read` of at most `n` bytes of a stored file; empty on anything else. -/
def readFile (k : Kernel) (fd : Int) (n : Nat) : Bytes × Kernel :=
  match k.desc fd with
  | some (.file path off) =>
      let blk := (((k.store path).getD []).drop off).take n
      (blk, { k with desc := Function.update k.desc fd (some (.file path (off + blk.length))) })
  | _ => ([], k)

/-- `lseek(fd, 0, SEEK_SET)`. -/
def rewind (k : Kernel) (fd : Int) : Kernel :=
  match k.desc fd with
  | some (.file path _) =>
      { k with desc := Function.update k.desc fd (some (.file path 0)) }
  | _ => k

/-- `open(name, O_CREAT | O_RDWR | O_TRUNC, …)`: the file is created or
emptied, and the descriptor is one nothing uses yet. -/
def openWithAllPermission (k : Kernel) (name : Bytes) (ok : Bool) : Int × Kernel :=
  if ok then
    (k.nextFd,
      { k with
        store := Function.update k.store (k.resolve name) (some [])
        desc := Function.update k.desc k.nextFd (some (.file (k.resolve name) 0))
        nextFd := k.nextFd + 1 })
  else (-1, k)

def bytesOf : List Item → Bytes
  | [] => []
  | .byte b :: s => b :: bytesOf s
  | _ :: s => bytesOf s

/-- The reads on socket `fd` have left `rest` of what was waiting. -/
def advance (k : Kernel) (fd : Int) (rest : List Item) : Kernel :=
  { k with
    inbox := Function.update k.inbox fd rest
    taken := Function.update k.taken fd
      (k.taken fd ++ bytesOf ((k.inbox fd).take ((k.inbox fd).length - rest.length))) }

/-- New items become readable on `fd`. -/
def deliver (k : Kernel) (fd : Int) (arrived : List Item) : Kernel :=
  { k with inbox := Function.update k.inbox fd (k.inbox fd ++ arrived) }

def connect (k : Kernel) (fd : Int) : Kernel :=
  { k with
    desc := Function.update k.desc fd (some .sock)
    inbox := Function.update k.inbox fd []
    taken := Function.update k.taken fd []
    sent := Function.update k.sent fd []
    nextFd := max k.nextFd (fd.toNat + 1) }

end Kernel

/-! ## The write loop of the master -/

/-- The loop of `write_all_to_socket` on an open descriptor: `total` bytes
are out, `buf` is still to go. -/
def writeAllLoop (fd : Int) :
    List Outcome → Bytes → Int → Kernel → Int × List Outcome × Kernel
  | os, [], total, k => (total, os, k)
  | [], buf, total, k => (total + buf.length, [], k.put fd buf)
  | .intr :: os, buf, total, k => writeAllLoop fd os buf total k
  | .again :: os, buf, total, k => writeAllLoop fd os buf total k
  | .fail :: os, _, _, k => (-1, os, k)
  | .zero :: os, _, total, k => (total, os, k)
  | .take n :: os, buf, total, k =>
      writeAllLoop fd os (buf.drop (n + 1)) (total + (buf.take (n + 1)).length)
        (k.put fd (buf.take (n + 1)))

/-- `write_all_to_socket`: the return value, the outcomes left over and the
kernel. A descriptor that is not open fails the first `write`. -/
def writeAllToSocket (k : Kernel) (fd : Int) (buf : Bytes) (os : List Outcome) :
    Int × List Outcome × Kernel :=
  if buf ≠ [] ∧ k.desc fd = none then (-1, os, k) else writeAllLoop fd os buf 0 k

end KeyLime
