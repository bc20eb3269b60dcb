import KeyLime.Record

/-!
# The resumable parser of a connection

`get_command`, `get_size` and `get_binary_data`. Each is a loop of reads
that gives up on `EAGAIN` and keeps its progress in the record, so the
loops here are recursions on the items waiting on the socket; `Parsed`
carries what they return, how their last read ended (`none` when no read
was made), the items they left and the record. `none` in place of a
`Parsed` is an access outside an object.

The three are written as the source has them, with its off-by-ones: the test of
`command_size` behind the store, the buffer scanned as a C string, so that a
NUL in a header cuts it short, and everything behind the first space taken for
the name, further spaces and slashes included. A file that could not be opened
is the descriptor -1, on which each later write fails.

What they do together, over any number of calls and in any pieces, is said by
the automaton of `Decode`; that each is a phase of it is shown in `Stages`.
-/

namespace KeyLime

structure Parsed where
  ret : Ret
  last : Option ReadResult
  rest : List Item
  w : Worker

def newline : UInt8 := 10
def space : UInt8 := 32

/-- `"INTERFACE_PUT"` and `"PUT"`. -/
def interfacePutVerb : Bytes := [73, 78, 84, 69, 82, 70, 65, 67, 69, 95, 80, 85, 84]
def putVerb : Bytes := [80, 85, 84]

/-! ## The header -/

/-- The C string at the start of the command buffer. -/
def cstr (b : Bytes) : Bytes := b.takeWhile (· ≠ 0)

/-- Everything after the first space; nothing when there is none. -/
def afterSpace (line : Bytes) : Bytes := (line.dropWhile (· ≠ space)).drop 1

/-- What `get_command` does once it has met the newline. The buffer is
scanned as a C string, so it must hold a NUL. -/
def parseHeader (w : Worker) : Option (Ret × Worker) :=
  if commandBufSize ≤ w.command.length ∧ 0 ∉ w.command then none
  else
    let line := cstr w.command
    let named (w : Worker) : Ret × Worker :=
      let w := { w with tempFileName := some (afterSpace line) }
      if afterSpace line = [] then (.bigFailure, w) else (.doneSending, w)
    if interfacePutVerb <+: line then some (named { w with toDo := .interfacePut })
    else if putVerb <+: line then some (named { w with toDo := .put })
    else some (.bigFailure, w)

/-- `get_command`. The source compares `command_size` with 1025 after it
has stored the byte, two places beyond the buffer. -/
def getCommand : List Item → Worker → Option Parsed
  | [], w => some ⟨.notDoneSending, some .again, [], w⟩
  | .intr :: s, w => getCommand s w
  | .err :: s, w => some ⟨.bigFailure, some .err, s, w⟩
  | .eof :: s, w => some ⟨.bigFailure, some .eof, .eof :: s, w⟩
  | .byte b :: s, w =>
      if b = newline then
        (parseHeader w).map fun (r, w) => ⟨r, some .data, s, w⟩
      else if commandBufSize ≤ w.command.length then none
      else
        let w := { w with command := w.command ++ [b] }
        if w.command.length > 1025 then some ⟨.bigFailure, some .data, s, w⟩
        else getCommand s w

/-! ## The size -/

/-- `((char*) &x)[i] = b` on a little-endian machine. -/
def setByte (x i : Nat) (b : UInt8) : Nat :=
  x % 256 ^ i + b.toNat * 256 ^ i + x / 256 ^ (i + 1) * 256 ^ (i + 1)

/-- The eight bytes of a `size_t` in memory. -/
def sizeBytes (n : Nat) : Bytes :=
  (List.range 8).map fun i => UInt8.ofNat (n / 256 ^ i)

theorem setByte_mod (n i : Nat) :
    setByte (n % 256 ^ i) i (UInt8.ofNat (n / 256 ^ i)) = n % 256 ^ (i + 1) := by
  have hlt : n % 256 ^ i < 256 ^ i := Nat.mod_lt _ (Nat.pow_pos (by decide))
  have hle : 256 ^ i ≤ 256 ^ (i + 1) := Nat.pow_le_pow_right (by decide) (Nat.le_succ i)
  rw [setByte, Nat.mod_eq_of_lt hlt, Nat.div_eq_of_lt (Nat.lt_of_lt_of_le hlt hle),
    Nat.mod_pow_succ, UInt8.toNat_ofNat']
  simp [Nat.mul_comm]

def getSize : List Item → Worker → Option Parsed
  | [], w => some ⟨.notDoneSending, some .again, [], w⟩
  | .intr :: s, w => getSize s w
  | .err :: s, w => some ⟨.bigFailure, some .err, s, w⟩
  | .eof :: s, w => some ⟨.bigFailure, some .eof, .eof :: s, w⟩
  | .byte b :: s, w =>
      if 8 ≤ w.sizeBufferPos then none
      else
        let w := { w with
          fileSize := setByte w.fileSize w.sizeBufferPos b
          sizeBufferPos := w.sizeBufferPos + 1 }
        if w.sizeBufferPos = 8 then some ⟨.doneSending, some .data, s, w⟩
        else getSize s w

/-! ## The data -/

/-- A `read` of at most `n` bytes off the socket. -/
def takeBytes : Nat → List Item → Bytes × List Item
  | n + 1, .byte b :: s => (b :: (takeBytes n s).1, (takeBytes n s).2)
  | _, s => ([], s)

/-- The loop of `get_binary_data`. The fuel is the number of items waiting,
and every round but the last uses one up, so none is left exactly when
the socket is drained. -/
def dataLoop : Nat → List Item → List Outcome → Option ReadResult → Worker → Kernel →
    Parsed × Kernel
  | fuel, s, os, last, w, k =>
    if w.fileSize = 0 then (⟨.doneSending, last, s, w⟩, k)
    else
      match fuel, s with
      | 0, _ | _, [] => (⟨.notDoneSending, some .again, s, w⟩, k)
      | fuel + 1, .intr :: s => dataLoop fuel s os last w k
      | _ + 1, .err :: s => (⟨.bigFailure, some .err, s, w⟩, k)
      | _ + 1, .eof :: s => (⟨.bigFailure, some .eof, .eof :: s, w⟩, k)
      | fuel + 1, .byte b :: s =>
          let (blk, rest) := takeBytes (if w.fileSize < 4096 then w.fileSize else 4096)
            (.byte b :: s)
          let (r, os, k) := writeAllToSocket k w.tempFd blk os
          if r = -1 ∨ r = 0 then (⟨.bigFailure, some .data, rest, w⟩, k)
          else
            dataLoop fuel rest os (some .data) { w with fileSize := w.fileSize - blk.length } k

/-- What the kernel does for one call of `get_binary_data`. -/
structure RecvIo where
  openOk : Bool := true
  disk : List Outcome := []
deriving DecidableEq, Repr

def getBinaryData (k : Kernel) (w : Worker) (io : RecvIo) : Parsed × Kernel :=
  let (k, w) :=
    if w.tempFd = -1 then
      let (fd, k) := k.openWithAllPermission (w.tempFileName.getD [])
        (io.openOk && w.tempFileName.isSome)
      (k, { w with tempFd := fd })
    else (k, w)
  let s := k.inbox w.workerFd
  dataLoop s.length s io.disk none w k

end KeyLime
