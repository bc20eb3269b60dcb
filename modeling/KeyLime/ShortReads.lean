import KeyLime.Senders
import KeyLime.Wiring

/-!
# Short reads of the output file

`write_file_to_socket` counts a block as sent when it has written as many
bytes as it wanted to read. What was read goes to the front of a buffer that
keeps what the block before has left in it (`blocksSent`), so every file gets
across exactly when each `read` returns all that it was asked for
(`sends_exact_iff`).

The model of the threads (`Intake`, `Pipeline`) has reads of a regular file that
return what is there, and `writeFileReading_nil` says that it is this function
with no further outcomes given. Here a `read` may come back short, with nothing,
or with an error. The size is counted down by the block in each of these cases,
so the call always says that it has sent all of the file, and always writes that
many bytes.

For one direction of the equivalence, a read that is short leaves a byte of the
buffer in its block, and among all files and all contents of the buffer there are
two in which that byte is not the file's (`blocksSent_short`).
-/

namespace KeyLime

variable {socket localFd : Int} {k : Kernel} {size remain fuel : Nat} {reads writes : List Outcome}
  {buffer mem : Nat → UInt8}

/-- How many of `count` bytes a `read` stores that meets `o`: all, when the
outcomes are used up, and none when it returns 0 or -1. -/
def got (count : Nat) : Option Outcome → Nat
  | none => count
  | some (.take n) => min count (n + 1)
  | some _ => 0

/-- The loop of `write_file_to_socket`, with what each `read` meets. -/
def writeFileRounds (socket localFd : Int) :
    Nat → Nat → (Nat → UInt8) → List Outcome → List Outcome → Int → Kernel →
      Int × List Outcome × Kernel
  | fuel, remain, buffer, reads, writes, total, k =>
    if remain = 0 then (total, writes, k)
    else
      match fuel with
      | 0 => (total, writes, k)
      | fuel + 1 =>
          let count := if fileBufferSize ≤ remain then fileBufferSize else remain
          let (blk, k) := k.readFile localFd (got count reads.head?)
          let buffer := overwrite buffer blk
          let (byteWrote, writes, k) := writeToSocket k socket (fetch buffer count) writes
          if byteWrote = -1 then (-1, writes, k)
          else
            writeFileRounds socket localFd fuel (remain - byteWrote.toNat) buffer reads.tail
              writes (total + byteWrote) k

/-- `write_file_to_socket` with what each `read` meets. -/
def writeFileReading (k : Kernel) (socket localFd : Int) (size : Nat) (mem : Nat → UInt8)
    (reads writes : List Outcome) : Int × List Outcome × Kernel :=
  writeFileRounds socket localFd (size + writes.length) size mem reads writes 0 k

theorem writeFileReading_nil (k : Kernel) (size : Nat) (mem : Nat → UInt8)
    (writes : List Outcome) :
    writeFileReading k socket localFd size mem [] writes =
      writeFileToSocket k socket localFd size mem writes := by
  have hloop : ∀ (fuel remain : Nat) (buffer : Nat → UInt8) (writes : List Outcome) (total : Int)
      (k : Kernel), writeFileRounds socket localFd fuel remain buffer [] writes total k =
        writeFileLoop socket localFd fuel remain buffer writes total k := by
    intro fuel
    induction fuel with
    | zero =>
        intro remain buffer writes total k
        rw [writeFileRounds, writeFileLoop]
    | succ fuel ih =>
        intro remain buffer writes total k
        rw [writeFileRounds, writeFileLoop]
        simp only [List.head?_nil, List.tail_nil, got, ih]
  exact hloop _ _ _ _ _ _

/-! ## What is sent -/

/-- The bytes of the blocks: `rest` is what the file has left, and a block is
what the buffer holds behind the `read`. -/
def blocksSent : Nat → Nat → Bytes → (Nat → UInt8) → List Outcome → Bytes
  | 0, _, _, _, _ => []
  | fuel + 1, remain, rest, buffer, reads =>
      if remain = 0 then []
      else
        let count := Pipeline.blockSize remain
        let read := got count reads.head?
        let buffer := overwrite buffer (rest.take read)
        fetch buffer count ++
          blocksSent fuel (remain - count) (rest.drop read) buffer reads.tail

theorem blockSize_pos (h : remain ≠ 0) :
    0 < Pipeline.blockSize remain ∧ Pipeline.blockSize remain ≤ remain := by
  unfold Pipeline.blockSize fileBufferSize
  split <;> omega

theorem blocksSent_round (h : remain ≠ 0) (rest : Bytes) :
    blocksSent (fuel + 1) remain rest buffer reads =
      fetch (overwrite buffer (rest.take (got (Pipeline.blockSize remain) reads.head?)))
          (Pipeline.blockSize remain) ++
        blocksSent fuel (remain - Pipeline.blockSize remain)
          (rest.drop (got (Pipeline.blockSize remain) reads.head?))
          (overwrite buffer (rest.take (got (Pipeline.blockSize remain) reads.head?)))
          reads.tail := by
  rw [blocksSent, if_neg h]

theorem writeFileRounds_round {blk : Bytes} {k₁ k₂ : Kernel} {writes₁ : List Outcome} {total r : Int}
    (h : remain ≠ 0)
    (hread : k.readFile localFd (got (Pipeline.blockSize remain) reads.head?) = (blk, k₁))
    (hwrite : writeToSocket k₁ socket (fetch (overwrite buffer blk) (Pipeline.blockSize remain))
      writes = (r, writes₁, k₂)) (hr : r ≠ -1) :
    writeFileRounds socket localFd (fuel + 1) remain buffer reads writes total k =
      writeFileRounds socket localFd fuel (remain - r.toNat) (overwrite buffer blk) reads.tail
        writes₁ (total + r) k₂ := by
  have hcount : (if fileBufferSize ≤ remain then fileBufferSize else remain) =
      Pipeline.blockSize remain := rfl
  rw [writeFileRounds, if_neg h]
  simp only [hcount, hread, hwrite, if_neg hr]

/-- On a connection that accepts bytes the loop returns `remain` and sends the
blocks. -/
theorem writeFileRounds_sent (buffer : Nat → UInt8) (reads : List Outcome) (total : Int)
    (hne : localFd ≠ socket) (hd : k.desc socket = some .sock) (hw : Accepting writes)
    (hfuel : remain ≤ fuel) :
    ∃ writes' k', writeFileRounds socket localFd fuel remain buffer reads writes total k =
        (total + remain, writes', k')
      ∧ Delivered socket localFd k k'
        (blocksSent fuel remain (k.remaining localFd) buffer reads) := by
  induction fuel generalizing remain buffer reads writes total k with
  | zero =>
      obtain rfl : remain = 0 := by omega
      exact ⟨writes, k, by simp [writeFileRounds], .of_same rfl rfl rfl fun _ _ => rfl⟩
  | succ fuel ih =>
      by_cases h0 : remain = 0
      · subst h0
        exact ⟨writes, k, by simp [writeFileRounds], .of_same rfl rfl rfl fun _ _ => rfl⟩
      · obtain ⟨hpos, hle⟩ := blockSize_pos h0
        obtain ⟨hblk, hrem, hread, hdesc⟩ :=
          readFile_spec (k := k) hne (got (Pipeline.blockSize remain) reads.head?)
        obtain ⟨blk, k₁, hk₁⟩ : ∃ blk k₁,
            k.readFile localFd (got (Pipeline.blockSize remain) reads.head?) = (blk, k₁) := ⟨_, _, rfl⟩
        rw [hk₁] at hblk hrem hread hdesc
        have hd₁ := hdesc.trans hd
        obtain ⟨writes₁, hw₁, hwrite⟩ := writeToSocket_accepting
          (fetch (overwrite buffer blk) (Pipeline.blockSize remain)) hd₁ hw
        have hput : Delivered socket localFd k₁
            (k₁.put socket (fetch (overwrite buffer blk) (Pipeline.blockSize remain)))
            (fetch (overwrite buffer blk) (Pipeline.blockSize remain)) := .put hd₁ _
        have hdesc₁ :=
          Kernel.put_sock_desc hd₁ (fetch (overwrite buffer blk) (Pipeline.blockSize remain))
        have hrem₁ := Kernel.remaining_congr (congrFun hdesc₁ localFd) hput.store
        rw [length_fetch] at hwrite
        have hfuel₁ : remain - Pipeline.blockSize remain ≤ fuel := by omega
        obtain ⟨writes', k', hrest, hdel⟩ := ih (overwrite buffer blk) reads.tail
          (total + Pipeline.blockSize remain) ((congrFun hdesc₁ socket).trans hd₁) hw₁ hfuel₁
        rw [hrem₁, hrem] at hdel
        refine ⟨writes', k', ?_, ?_⟩
        · rw [writeFileRounds_round h0 hk₁ hwrite (by omega), Int.toNat_natCast, hrest]
          congr 1
          omega
        · rw [blocksSent_round h0, ← hblk]
          exact (hread.trans hput).trans hdel

/-! ## Reads that return a whole block -/

/-- Each `read` that is made for `size` bytes returns the whole block. -/
def wholeReads : Nat → List Outcome → Bool
  | _, [] => true
  | size, o :: os =>
      size = 0 || (got (Pipeline.blockSize size) (some o) = Pipeline.blockSize size
        && wholeReads (size - Pipeline.blockSize size) os)

theorem got_le (count : Nat) (o : Option Outcome) : got count o ≤ count := by
  unfold got
  split
  · exact Nat.le_refl _
  · exact Nat.min_le_left ..
  · exact Nat.zero_le _

theorem wholeReads_round (h0 : size ≠ 0) (h : wholeReads size reads = true) :
    got (Pipeline.blockSize size) reads.head? = Pipeline.blockSize size
      ∧ wholeReads (size - Pipeline.blockSize size) reads.tail = true := by
  cases reads with
  | nil => exact ⟨rfl, rfl⟩
  | cons o os => simpa [wholeReads, h0] using h

theorem blocksSent_whole {rest : Bytes} (h : wholeReads size reads = true)
    (hsize : size ≤ rest.length) (hfuel : size ≤ fuel) :
    blocksSent fuel size rest buffer reads = rest.take size := by
  induction fuel generalizing size rest buffer reads with
  | zero =>
      obtain rfl : size = 0 := by omega
      rw [List.take_zero]
      rfl
  | succ fuel ih =>
      by_cases h0 : size = 0
      · subst h0
        simp [blocksSent]
      · obtain ⟨hpos, hle⟩ := blockSize_pos h0
        obtain ⟨hgot, hwhole⟩ := wholeReads_round h0 h
        have hfetch := fetch_overwrite buffer (rest.take (Pipeline.blockSize size))
        rw [List.length_take, Nat.min_eq_left (hle.trans hsize)] at hfetch
        rw [blocksSent_round h0, hgot, hfetch,
          ih hwhole (by rw [List.length_drop]; omega) (by omega), ← List.take_add]
        congr 1
        omega

theorem overwrite_zero (hz : ∀ i, buffer i = 0) (n : Nat) :
    ∀ i, overwrite buffer (List.replicate n 0) i = 0 := by
  intro i
  unfold overwrite
  rw [hz, List.getD_eq_getElem?_getD, List.getElem?_replicate]
  split <;> rfl

/-- Over a buffer of zeros a read that falls short leaves a zero at the end of
its block, which is wrong for a file with ones there. -/
theorem blocksSent_short (h : wholeReads size reads ≠ true) (hz : ∀ i, buffer i = 0)
    (hfuel : size ≤ fuel) :
    ∃ rest : Bytes, rest.length = size ∧ blocksSent fuel size rest buffer reads ≠ rest := by
  induction reads generalizing size buffer fuel with
  | nil => exact absurd rfl h
  | cons o os ih =>
      have h0 : size ≠ 0 := by
        rintro rfl
        exact h rfl
      obtain ⟨hpos, hle⟩ := blockSize_pos h0
      obtain ⟨fuel, rfl⟩ : ∃ f, fuel = f + 1 := ⟨fuel - 1, by omega⟩
      by_cases hgot : got (Pipeline.blockSize size) (some o) = Pipeline.blockSize size
      · -- a block of zeros, and then the file for the reads behind it
        have hrest : wholeReads (size - Pipeline.blockSize size) os ≠ true := by
          intro hw
          exact h (by simp [wholeReads, hgot, hw])
        obtain ⟨rest, hlen, hdiff⟩ := ih hrest
          (overwrite_zero hz (Pipeline.blockSize size)) (by omega : _ ≤ fuel)
        refine ⟨List.replicate (Pipeline.blockSize size) 0 ++ rest, ?_, fun heq => hdiff ?_⟩
        · rw [List.length_append, List.length_replicate]
          omega
        · have hfetch := fetch_overwrite buffer (List.replicate (Pipeline.blockSize size) 0)
          rw [List.length_replicate] at hfetch
          rw [blocksSent_round h0, List.head?_cons, hgot,
            List.take_left' List.length_replicate, List.drop_left' List.length_replicate,
            hfetch] at heq
          exact List.append_cancel_left heq
      · have hlt := lt_of_le_of_ne (got_le _ _) hgot
        refine ⟨List.replicate size 1, List.length_replicate, ?_⟩
        intro heq
        rw [blocksSent_round h0, List.head?_cons] at heq
        have hlast := congrArg (fun l => l[Pipeline.blockSize size - 1]?) heq
        have hin : Pipeline.blockSize size - 1 < Pipeline.blockSize size := by omega
        simp only [List.take_replicate] at hlast
        rw [List.getElem?_append_left (by rw [length_fetch]; exact hin),
          List.getElem?_replicate, if_pos (by omega)] at hlast
        simp only [fetch, List.getElem?_map, List.getElem?_range hin, Option.map_some, overwrite,
          List.getD_eq_getElem?_getD, List.getElem?_replicate, hz] at hlast
        rw [if_neg (by omega)] at hlast
        cases hlast

/-! ## The whole call -/

/-- A connection on descriptor 3, and behind 4 a file with these contents. -/
def outputKernel (contents : Bytes) : Kernel :=
  { (Pipeline.start id fun _ => some contents).kernel with
    desc := fun g => if g = 3 then some .sock else some (.file [] 0) }

/-- **The payload sender.** Every file gets across as it is, whatever memory
the buffer is made of, exactly when each read that is made returns its block. A
file is at least as long as `size`, which is what it had when it was measured,
and all writes are accepted, in pieces or interrupted. -/
theorem sends_exact_iff (size : Nat) (reads writes : List Outcome) (hw : Accepting writes) :
    (∀ (k : Kernel) (socket localFd : Int) (path contents : Bytes) (mem : Nat → UInt8),
      k.desc socket = some .sock → k.desc localFd = some (.file path 0) →
        k.store path = some contents → size ≤ contents.length →
          (writeFileReading k socket localFd size mem reads writes).1 = size
            ∧ (writeFileReading k socket localFd size mem reads writes).2.2.sent socket =
              k.sent socket ++ contents.take size)
      ↔ wholeReads size reads = true := by
  have hcall : ∀ (k : Kernel) (socket localFd : Int) (path contents : Bytes) (mem : Nat → UInt8),
      k.desc socket = some .sock → k.desc localFd = some (.file path 0) →
        k.store path = some contents →
          (writeFileReading k socket localFd size mem reads writes).1 = size
            ∧ (writeFileReading k socket localFd size mem reads writes).2.2.sent socket =
              k.sent socket ++ blocksSent (size + writes.length) size contents mem reads := by
    intro k socket localFd path contents mem hd hfile hstore
    have hne : localFd ≠ socket := by
      rintro rfl
      cases hd.symm.trans hfile
    have hrem : k.remaining localFd = contents := by
      simp [Kernel.remaining, hfile, hstore]
    obtain ⟨writes', k', heq, hdel⟩ :=
      writeFileRounds_sent mem reads 0 hne hd hw (Nat.le_add_right size writes.length)
    rw [writeFileReading, heq, hdel.sent, hrem, Function.update_self]
    exact ⟨Int.zero_add _, rfl⟩
  constructor
  · intro hall
    by_contra hshort
    have hzero : ∀ i, (fun _ => 0 : Nat → UInt8) i = 0 := fun _ => rfl
    obtain ⟨contents, hlen, hdiff⟩ :=
      blocksSent_short hshort hzero (Nat.le_add_right size writes.length)
    obtain ⟨-, hsent⟩ := hall (outputKernel contents) 3 4 [] contents (fun _ => 0) rfl rfl rfl
      (Nat.le_of_eq hlen.symm)
    obtain ⟨-, hblocks⟩ := hcall (outputKernel contents) 3 4 [] contents (fun _ => 0) rfl rfl rfl
    have heq := List.append_cancel_left (hblocks.symm.trans hsent)
    rw [← hlen, List.take_length, hlen] at heq
    exact hdiff heq
  · intro hwhole k socket localFd path contents mem hd hfile hstore hsize
    obtain ⟨hret, hsent⟩ := hcall k socket localFd path contents mem hd hfile hstore
    rw [blocksSent_whole hwhole hsize (Nat.le_add_right ..)] at hsent
    exact ⟨hret, hsent⟩

/-- Two bytes, read at once and written one by one. -/
theorem sends_exact_iff_two :
    (writeFileReading (outputKernel [97, 98]) 3 4 2 (fun _ => 0) [.take 1]
        [.take 0, .intr, .take 0]).2.2.sent 3 = [97, 98] :=
  ((sends_exact_iff 2 [.take 1] [.take 0, .intr, .take 0] (by decide)).mpr (by decide)
    (outputKernel [97, 98]) 3 4 [] [97, 98] (fun _ => 0) rfl rfl rfl (Nat.le_refl 2)).2

/-- A read that returns one byte of two: the second one sent is what the
buffer held there. -/
theorem sends_stale_byte :
    (writeFileReading (outputKernel [97, 98]) 3 4 2 (fun _ => 0) [.take 0] []).1 = 2
      ∧ (writeFileReading (outputKernel [97, 98]) 3 4 2 (fun _ => 0) [.take 0] []).2.2.sent 3 =
        [97, 0]
      ∧ [97, 0] ≠ ([97, 98] : Bytes).take 2 := by
  refine ⟨?_, ?_, ?_⟩ <;> decide +kernel

end KeyLime
