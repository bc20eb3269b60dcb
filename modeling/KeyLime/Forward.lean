import KeyLime.Parse

/-!
# Sending a stored file on

`do_put` and the functions under it. The frame is assembled from two
accesses to the file: its size by name, its bytes through the descriptor
of the record. Where the name denotes another file by now, or the descriptor
belongs to nobody, the frame says one thing and contains another; nothing here
excludes that, and whether it comes about is a question about runs.

The data loop asks for blocks of 4096 bytes, or what is left, and sends what it
has got. Its recursion is on a number of rounds of which `doPut` gives it
enough (`size + reads.length`): a round sends a byte or uses up an interrupted
read. `nextRead` says once how a round begins, and the five equations behind
it, one for each way it ends, are all that later proofs know of the loop.
-/

namespace KeyLime

/-- What the kernel does for one call of `do_put`: whether `fopen`
succeeds, and the outcomes of the reads of the file and of the writes. -/
structure PutIo where
  fopenOk : Bool := true
  reads : List Outcome := []
  writes : List Outcome := []
deriving DecidableEq, Repr

def getFileSize (k : Kernel) (name : Bytes) (ok : Bool) : Nat :=
  if ok then ((k.store (k.resolve name)).getD []).length else 0

/-- `sprintf(buff, "PUT %s\n", name)`. -/
def putHeader (name : Bytes) : Bytes := putVerb ++ [space] ++ name ++ [newline]

/-- How many bytes the next `read` of the file asks for, and what it gets. -/
def readBlock (k : Kernel) (src : Int) (size : Nat) : List Outcome → Bytes × Kernel
  | .take n :: _ => k.readFile src (min (n + 1) (if size < 4096 then size else 4096))
  | _ => k.readFile src (if size < 4096 then size else 4096)

/-- The data loop of `do_put`. Every round sends a byte or uses up an
interrupted read, so `size + reads.length` rounds are enough. -/
def putLoop (dst src : Int) : Nat → List Outcome → List Outcome → Nat → Kernel → Ret × Kernel
  | fuel, reads, writes, size, k =>
    if size = 0 then (.doneSending, k)
    else
      match fuel, reads.head? with
      | 0, _ => (.bigFailure, k)
      | fuel + 1, some .intr => putLoop dst src fuel reads.tail writes size k
      | _ + 1, some .again => (.bigFailure, k)
      | _ + 1, some .fail => (.bigFailure, k)
      | _ + 1, some .zero => (.bigFailure, k)
      | fuel + 1, _ =>
          let (blk, k) := readBlock k src size reads
          if blk = [] then (.bigFailure, k)
          else
            let (r, writes, k) := writeAllToSocket k dst blk writes
            if r = -1 ∨ r = 0 ∨ r ≠ blk.length then (.bigFailure, k)
            else putLoop dst src fuel reads.tail writes (size - blk.length) k

/-- `do_put`; `none` when the record has no file name. -/
def doPut (k : Kernel) (fdToSendTo : Int) (w : Worker) (io : PutIo) : Option (Ret × Kernel) :=
  w.tempFileName.map fun name =>
    let k := k.lock
    let srcFd := w.tempFd
    let fileSize := getFileSize k name io.fopenOk
    let (r, writes, k) := writeAllToSocket k fdToSendTo (putHeader name) io.writes
    if r ≠ (putHeader name).length then (.bigFailure, k.unlock)
    else
      let (r, writes, k) := writeAllToSocket k fdToSendTo (sizeBytes fileSize) writes
      if r ≠ 8 then (.bigFailure, k.unlock)
      else
        let k := k.rewind srcFd
        let (ret, k) := putLoop fdToSendTo srcFd (fileSize + io.reads.length) io.reads writes
          fileSize k
        (ret, k.unlock)

/-! ## One round of the data loop -/

/-- The next read gets through, is interrupted, or stops the loop. -/
inductive NextRead : List Outcome → Prop where
  | data {reads : List Outcome} (h : reads = [] ∨ ∃ n os, reads = .take n :: os) : NextRead reads
  | intr (os : List Outcome) : NextRead (.intr :: os)
  | stop (o : Outcome) (os : List Outcome) (ho : o = .again ∨ o = .fail ∨ o = .zero) :
      NextRead (o :: os)

theorem nextRead : ∀ reads : List Outcome, NextRead reads
  | [] => .data (Or.inl rfl)
  | .take n :: os => .data (Or.inr ⟨n, os, rfl⟩)
  | .intr :: os => .intr os
  | .again :: os => .stop .again os (by simp)
  | .fail :: os => .stop .fail os (by simp)
  | .zero :: os => .stop .zero os (by simp)

section
variable {dst src : Int} {fuel size : Nat} {reads os : List Outcome} {o : Outcome}
  (writes : List Outcome) (k : Kernel)

theorem putLoop_done : putLoop dst src fuel reads writes 0 k = (.doneSending, k) := by
  unfold putLoop
  rfl

theorem putLoop_zero (hsize : size ≠ 0) :
    putLoop dst src 0 reads writes size k = (.bigFailure, k) := by
  unfold putLoop
  rw [if_neg hsize]

theorem putLoop_intr (hsize : size ≠ 0) :
    putLoop dst src (fuel + 1) (.intr :: os) writes size k =
      putLoop dst src fuel os writes size k := by
  conv_lhs => unfold putLoop
  rw [if_neg hsize]
  rfl

theorem putLoop_stop (hsize : size ≠ 0) (ho : o = .again ∨ o = .fail ∨ o = .zero) :
    putLoop dst src (fuel + 1) (o :: os) writes size k = (.bigFailure, k) := by
  unfold putLoop
  rw [if_neg hsize]
  rcases ho with rfl | rfl | rfl <;> rfl

theorem putLoop_data (hsize : size ≠ 0) (hreads : reads = [] ∨ ∃ n os, reads = .take n :: os) :
    putLoop dst src (fuel + 1) reads writes size k =
      let b := readBlock k src size reads
      let u := writeAllToSocket b.2 dst b.1 writes
      if b.1 = [] then (.bigFailure, b.2)
      else if u.1 = -1 ∨ u.1 = 0 ∨ u.1 ≠ b.1.length then (.bigFailure, u.2.2)
      else putLoop dst src fuel reads.tail u.2.1 (size - b.1.length) u.2.2 := by
  conv_lhs => unfold putLoop
  rw [if_neg hsize]
  rcases hreads with rfl | ⟨n, os, rfl⟩ <;> rfl

end

end KeyLime
