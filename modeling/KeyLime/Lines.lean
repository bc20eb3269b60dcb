import KeyLime.Receive

/-!
# The line buffer

`read_line_from_socket` with its buffer: 32 bytes, and 32 more whenever it is
full and the line goes on. What the memory held before stays where nothing is
read into it (`memory`), and `realloc` keeps what there was. The caller takes
the result for a string, but no NUL is ever stored behind a line: there is
one only if the line or the memory brings it along (`readsLine_iff`).

The rest is as it should be, for every stream and every memory:

* all reads are into the buffer, of one byte each, in front of its end;
* the buffer is full only if another block is put on before the next read;
* what comes back for a line is the line with its newline, in a buffer of
  `lineRoom` bytes, and for the end of the stream there is no line.

`Holds` is the invariant between two reads, and `Leaves` what it comes to at a
return. Both speak of the state of the loop alone, so the induction in
`lineRounds_spec` is on the stream, one byte at a time, with the block added in a
step of its own.
-/

namespace KeyLime

open Intake Resume

variable {memory : Nat → UInt8} {s s' : List (Arrival UInt8)} {got line : Bytes} {size fuel : Nat}

def lineBufferSize : Nat := 32

structure LineState where
  buffer : Bytes
  size : Nat
  totalByteRead : Nat
  /-- History: the index each read was told to store at, and how much was
  allocated then. -/
  reads : List (Nat × Nat)

def allocateBuffer (memory : Nat → UInt8) (buffer : Bytes) (size : Nat) : Bytes :=
  fetch (overwrite memory buffer) size

namespace LineState

def start (memory : Nat → UInt8) : LineState :=
  ⟨allocateBuffer memory [] lineBufferSize, lineBufferSize, 0, []⟩

def noted (l : LineState) : LineState :=
  { l with reads := l.reads ++ [(l.totalByteRead, l.buffer.length)] }

def stored (l : LineState) (blk : Bytes) : LineState :=
  { l with
    buffer := l.buffer.take l.totalByteRead ++ blk ++ l.buffer.drop (l.totalByteRead + blk.length)
    totalByteRead := l.totalByteRead + blk.length }

def grown (memory : Nat → UInt8) (l : LineState) : LineState :=
  { l with
    buffer := allocateBuffer memory l.buffer (l.size + lineBufferSize)
    size := l.size + lineBufferSize }

end LineState

/-- The loop of `read_line_from_socket`, which is `none` when it has not come
to a return. -/
def lineRounds (memory : Nat → UInt8) :
    Nat → List (Arrival UInt8) → LineState → Option (Int × LineState × List (Arrival UInt8))
  | 0, _, _ => none
  | fuel + 1, s, l =>
      match read 1 s with
      | (.data [], s) => some (l.totalByteRead, l.noted, s)
      | (.err, s) => some (-1, l.noted, s)
      | (.intr, s) => lineRounds memory fuel s l.noted
      | (.data (b :: bs), s) =>
          let l := l.noted.stored (b :: bs)
          if l.buffer[l.totalByteRead - 1]? = some newline then some (l.totalByteRead, l, s)
          else if l.totalByteRead = l.size then lineRounds memory fuel s (l.grown memory)
          else lineRounds memory fuel s l

/-- `read_line_from_socket`, with the buffer it leaves. -/
def readLineInto (memory : Nat → UInt8) (s : List (Arrival UInt8)) :
    Option (Int × LineState × List (Arrival UInt8)) :=
  lineRounds memory (weight s + 1) s (.start memory)

def firstLine : Bytes → Bytes
  | [] => []
  | b :: bs => if b = newline then [b] else b :: firstLine bs

/-- How much is allocated for a line: whole blocks, the last of which is not
full before the newline. -/
def lineRoom (line : Bytes) : Nat :=
  if line.getLast? = some newline then lineBufferSize * ((line.length + 31) / lineBufferSize)
  else lineBufferSize * (line.length / lineBufferSize + 1)

/-! ## The buffer -/

theorem overwrite_fetch (hle : got.length ≤ size) :
    overwrite memory (fetch (overwrite memory got) size) = overwrite memory got := by
  funext i
  by_cases hi : i < size
  · rw [overwrite_lt (by rw [length_fetch]; exact hi), getElem_fetch]
  · rw [overwrite_ge (by rw [length_fetch]; omega), overwrite_ge (by omega)]

theorem store_fetch (hlt : got.length < size) (b : UInt8) :
    (fetch (overwrite memory got) size).take got.length ++ [b]
      ++ (fetch (overwrite memory got) size).drop (got.length + 1) =
      fetch (overwrite memory (got ++ [b])) size := by
  have hset := List.set_eq_take_append_cons_drop (l := fetch (overwrite memory got) size)
    (i := got.length) (a := b)
  rw [length_fetch, if_pos hlt] at hset
  rw [List.append_assoc, List.singleton_append, ← hset]
  refine List.ext_getElem (by rw [List.length_set, length_fetch, length_fetch]) fun i _ _ => ?_
  have hlen : (got ++ [b]).length = got.length + 1 := List.length_append
  rw [List.getElem_set, getElem_fetch]
  rcases Nat.lt_trichotomy i got.length with hi | rfl | hi
  · rw [if_neg (by omega), getElem_fetch, overwrite_lt hi, overwrite_lt (by omega),
      List.getElem_append_left hi]
  · rw [if_pos rfl, getElem_fetch, overwrite_lt (by omega), List.getElem_concat_length rfl]
  · rw [if_neg (by omega), getElem_fetch, overwrite_ge (by omega), overwrite_ge (by omega)]

theorem take_fetch (hle : line.length ≤ size) :
    (fetch (overwrite memory line) size).take line.length = line := by
  have hfetch : (fetch (overwrite memory line) size).take line.length =
      fetch (overwrite memory line) line.length := by
    rw [fetch, ← List.map_take, List.take_range, Nat.min_eq_left hle]
    rfl
  rw [hfetch, fetch_overwrite]

theorem zero_mem_fetch (hle : line.length ≤ size) :
    0 ∈ fetch (overwrite memory line) size ↔
      0 ∈ line ∨ ∃ i, line.length ≤ i ∧ i < size ∧ memory i = 0 := by
  simp only [fetch, List.mem_map, List.mem_range]
  constructor
  · rintro ⟨i, hi, hzero⟩
    rcases Nat.lt_or_ge i line.length with hlt | hge
    · rw [overwrite_lt hlt] at hzero
      exact Or.inl (hzero ▸ List.getElem_mem hlt)
    · rw [overwrite_ge hge] at hzero
      exact Or.inr ⟨i, hge, hi, hzero⟩
  · rintro (hmem | ⟨i, hge, hi, hzero⟩)
    · obtain ⟨i, hlt, hzero⟩ := List.mem_iff_getElem.mp hmem
      exact ⟨i, by omega, by rw [overwrite_lt hlt, hzero]⟩
    · exact ⟨i, hi, by rw [overwrite_ge hge, hzero]⟩

/-! ## The loop -/

namespace LineState

/-- Between two reads the buffer holds what has been read, and has room for
one byte more. -/
structure Holds (memory : Nat → UInt8) (l : LineState) (got : Bytes) : Prop where
  buffer : l.buffer = fetch (overwrite memory got) l.size
  size : l.size = lineBufferSize * (got.length / lineBufferSize + 1)
  total : l.totalByteRead = got.length
  inside : ∀ p ∈ l.reads, p.1 < p.2

/-- What is left behind at a return. -/
structure Leaves (memory : Nat → UInt8) (l : LineState) (line : Bytes) : Prop where
  buffer : l.buffer = fetch (overwrite memory line) (lineRoom line)
  inside : ∀ p ∈ l.reads, p.1 < p.2

variable {l : LineState}

theorem Holds.room (h : l.Holds memory got) : got.length < l.size := by
  rw [h.size, lineBufferSize]
  omega

theorem start_holds (memory : Nat → UInt8) : (start memory).Holds memory [] where
  buffer := rfl
  size := rfl
  total := rfl
  inside := by simp [start]

theorem Holds.noted (h : l.Holds memory got) : l.noted.Holds memory got where
  buffer := h.buffer
  size := h.size
  total := h.total
  inside := by
    intro p hp
    rcases List.mem_append.mp hp with hp | hp
    · exact h.inside p hp
    · obtain rfl := List.mem_singleton.mp hp
      show l.totalByteRead < l.buffer.length
      rw [h.total, h.buffer, length_fetch]
      exact h.room

theorem Holds.stored (h : l.Holds memory got) (b : UInt8) :
    (l.stored [b]).buffer = fetch (overwrite memory (got ++ [b])) l.size := by
  show l.buffer.take l.totalByteRead ++ [b] ++ l.buffer.drop (l.totalByteRead + 1) = _
  rw [h.total, h.buffer]
  exact store_fetch h.room b

theorem Holds.stored_total (h : l.Holds memory got) (b : UInt8) :
    (l.stored [b]).totalByteRead = (got ++ [b]).length := by
  show l.totalByteRead + 1 = _
  rw [h.total, List.length_append, List.length_singleton]

theorem Holds.last (h : l.Holds memory got) (b : UInt8) :
    (l.stored [b]).buffer[(l.stored [b]).totalByteRead - 1]? = some b := by
  have hroom := h.room
  rw [h.stored, h.stored_total, List.length_append, List.length_singleton, Nat.add_sub_cancel]
  simp [fetch, hroom, overwrite]

theorem Holds.full (h : l.Holds memory got) (b : UInt8)
    (hfull : (l.stored [b]).totalByteRead = l.size) :
    ((l.stored [b]).grown memory).Holds memory (got ++ [b]) where
  buffer := by
    show allocateBuffer memory (l.stored [b]).buffer (l.size + lineBufferSize) = _
    rw [h.stored, allocateBuffer, overwrite_fetch (by rw [← h.stored_total, hfull])]
    rfl
  size := by
    have hsize := h.size
    rw [h.stored_total, List.length_append, List.length_singleton] at hfull
    show l.size + lineBufferSize = _
    rw [List.length_append, List.length_singleton]
    unfold lineBufferSize at hsize ⊢
    omega
  total := h.stored_total b
  inside := h.inside

theorem Holds.more (h : l.Holds memory got) (b : UInt8)
    (hmore : (l.stored [b]).totalByteRead ≠ l.size) :
    (l.stored [b]).Holds memory (got ++ [b]) where
  buffer := h.stored b
  size := by
    have hsize := h.size
    have hroom := h.room
    rw [h.stored_total, List.length_append, List.length_singleton] at hmore
    show l.size = _
    rw [List.length_append, List.length_singleton]
    unfold lineBufferSize at hsize ⊢
    omega
  total := h.stored_total b
  inside := h.inside

theorem Holds.leaves (h : l.Holds memory got) (hgot : got.getLast? ≠ some newline) :
    l.Leaves memory got where
  buffer := by
    rw [h.buffer, h.size, lineRoom, if_neg hgot]
  inside := h.inside

theorem Holds.stored_leaves (h : l.Holds memory got) :
    (l.stored [newline]).Leaves memory (got ++ [newline]) where
  buffer := by
    rw [h.stored, h.size, lineRoom, if_pos List.getLast?_concat, List.length_append,
      List.length_singleton]
    unfold lineBufferSize
    rw [show (got.length + 1 + 31) / 32 = got.length / 32 + 1 by omega]
  inside := h.inside

end LineState

/-- What is returned for a line, and for an error. -/
def Returns (memory : Nat → UInt8) (l : LineState) : Option Bytes → Int → Prop
  | some line, ret => ret = line.length ∧ l.Leaves memory line
  | none, ret => ret = -1

theorem lineRounds_byte {l : LineState} {a : UInt8} {as : Bytes} (h : l.Holds memory got) :
    lineRounds memory (fuel + 1) (.chunk a as :: s) l =
      if a = newline then
        some (((l.noted.stored [a]).totalByteRead : Int), l.noted.stored [a], unread as s)
      else if (l.noted.stored [a]).totalByteRead = l.size then
        lineRounds memory fuel (unread as s) ((l.noted.stored [a]).grown memory)
      else lineRounds memory fuel (unread as s) (l.noted.stored [a]) := by
  show (if (l.noted.stored [a]).buffer[(l.noted.stored [a]).totalByteRead - 1]? = some newline then
    _ else _) = _
  simp only [h.noted.last a, Option.some.injEq]
  rfl

theorem readUntil_byte {a : UInt8} {as : Bytes} :
    readUntil (fun _ => 1) (fun got => got.getLast? = some newline) (fuel + 1)
      (.chunk a as :: s) got =
      if a = newline then (some (got ++ [a]), unread as s)
      else readUntil (fun _ => 1) (fun got => got.getLast? = some newline) fuel (unread as s)
        (got ++ [a]) := by
  show (if decide ((got ++ [a]).getLast? = some newline) = true then _ else _) = _
  simp only [List.getLast?_concat, Option.some.injEq, decide_eq_true_eq]
  rfl

/-- The loop reads what `readLine` reads, whatever the stream brings. -/
theorem lineRounds_spec {l : LineState} {r : Option Bytes} (h : l.Holds memory got)
    (hgot : got.getLast? ≠ some newline) (hfuel : weight s ≤ fuel)
    (hread : readUntil (fun _ => 1) (fun got => got.getLast? = some newline) fuel s got =
      (r, s')) :
    ∃ ret l', lineRounds memory (fuel + 1) s l = some (ret, l', s') ∧ Returns memory l' r ret := by
  induction fuel generalizing s l got with
  | zero =>
      obtain rfl : s = [] := by
        cases s with
        | nil => rfl
        | cons x s => cases x <;> simp [weight] at hfuel
      cases hread
      refine ⟨l.totalByteRead, l.noted, rfl, ?_, h.noted.leaves hgot⟩
      rw [h.total]
  | succ fuel ih =>
      cases s with
      | nil =>
          cases hread
          refine ⟨l.totalByteRead, l.noted, rfl, ?_, h.noted.leaves hgot⟩
          rw [h.total]
      | cons x s =>
          cases x with
          | err =>
              cases hread
              exact ⟨-1, l.noted, rfl, rfl⟩
          | intr =>
              simp only [weight] at hfuel
              exact ih h.noted hgot (by omega) hread
          | chunk a as =>
              have hweight : weight (unread as s) ≤ fuel := by
                simp only [weight, weight_unread] at hfuel ⊢
                omega
              rw [lineRounds_byte h]
              rw [readUntil_byte] at hread
              by_cases ha : a = newline
              · obtain rfl := ha
                rw [if_pos rfl] at hread
                cases hread
                refine ⟨_, _, if_pos rfl, ?_, h.noted.stored_leaves⟩
                rw [h.noted.stored_total]
              · have hgot' : (got ++ [a]).getLast? ≠ some newline := by
                  rw [List.getLast?_concat]
                  exact fun heq => ha (Option.some.inj heq)
                rw [if_neg ha] at hread ⊢
                split
                · rename_i hfull
                  exact ih (h.noted.full a hfull) hgot' hweight hread
                · rename_i hmore
                  exact ih (h.noted.more a hmore) hgot' hweight hread

/-! ## One line -/

theorem feed_firstLine {bs : Bytes} (hgot : got.getLast? ≠ some newline) :
    (lineCollector newline).feed got bs =
      (got ++ firstLine bs, bs.drop (firstLine bs).length) := by
  induction bs generalizing got with
  | nil => simp [firstLine]
  | cons b bs ih =>
      rw [Consumer.feed_cons (decide_eq_false hgot)]
      show (lineCollector newline).feed (got ++ [b]) bs = _
      rw [firstLine]
      split
      · rename_i hb
        obtain rfl := hb
        exact Consumer.feed_of_final (decide_eq_true List.getLast?_concat)
      · rename_i hb
        have hgot' : (got ++ [b]).getLast? ≠ some newline := by
          rw [List.getLast?_concat]
          exact fun heq => hb (Option.some.inj heq)
        rw [ih hgot']
        simp

theorem firstLine_append (bs : Bytes) : firstLine bs ++ bs.drop (firstLine bs).length = bs := by
  induction bs with
  | nil => rfl
  | cons b bs ih =>
      rw [firstLine]
      split
      · rfl
      · exact congrArg (b :: ·) ih

theorem length_le_lineRoom (line : Bytes) : line.length ≤ lineRoom line := by
  unfold lineRoom lineBufferSize
  split <;> omega

structure LineState.ReturnsLine (l : LineState) (bs rest : Bytes) (ret : Int) : Prop where
  consumed : bs = firstLine bs ++ rest
  count : ret = (firstLine bs).length
  holds : l.buffer.take (firstLine bs).length = firstLine bs
  inside : ∀ p ∈ l.reads, p.1 < p.2
  terminated : ret ≠ 0 → 0 ∈ l.buffer

/-- `read_line_from_socket` reads a line, and leaves a string. -/
def ReadsLine (memory : Nat → UInt8) (s : List (Arrival UInt8)) : Prop :=
  ∃ ret l s', readLineInto memory s = some (ret, l, s') ∧
    l.ReturnsLine (incoming s) (incoming s') ret

/-- The call returns, with the line in the buffer and the rest of the stream
left, and what the loop without a buffer reads. -/
theorem readLineInto_spec (memory : Nat → UInt8) (hs : Arrival.err ∉ s) :
    ∃ l s', readLineInto memory s = some (((firstLine (incoming s)).length : Int), l, s')
      ∧ readLineFromSocket s = (some (firstLine (incoming s)), s')
      ∧ incoming s = firstLine (incoming s) ++ incoming s'
      ∧ l.Leaves memory (firstLine (incoming s)) := by
  obtain ⟨s', hread, hrest, -⟩ := readLine_spec newline hs
  rw [feed_firstLine (by simp)] at hread hrest
  obtain ⟨ret, l, hret, hcount, hleaves⟩ :=
    lineRounds_spec (LineState.start_holds memory) (by simp) (Nat.le_refl _) hread
  refine ⟨l, s', ?_, hread, ?_, hleaves⟩
  · rw [readLineInto, hret, hcount]
    rfl
  · rw [hrest, firstLine_append]

/-- There is a zero byte that ends the line: in the line, or in the memory
that its last block is made of. -/
def Terminated (memory : Nat → UInt8) (line : Bytes) : Prop :=
  0 ∈ line ∨ ∃ i, line.length ≤ i ∧ i < lineRoom line ∧ memory i = 0

theorem ReadsLine.terminated (h : ReadsLine memory s) (hs : Arrival.err ∉ s) :
    firstLine (incoming s) = [] ∨ Terminated memory (firstLine (incoming s)) := by
  obtain ⟨ret, l, s', hcall, hline⟩ := h
  obtain ⟨l', s'', hcall', -, -, hleaves⟩ := readLineInto_spec memory hs
  rw [hcall] at hcall'
  cases hcall'
  by_cases hnil : firstLine (incoming s) = []
  · exact Or.inl hnil
  · right
    have hzero := hline.terminated (by simpa using hnil)
    rw [hleaves.buffer] at hzero
    exact (zero_mem_fetch (length_le_lineRoom _)).mp hzero

theorem ReadsLine.of_terminated (hs : Arrival.err ∉ s)
    (h : firstLine (incoming s) = [] ∨ Terminated memory (firstLine (incoming s))) :
    ReadsLine memory s := by
  obtain ⟨l, s', hcall, -, hconsumed, hleaves⟩ := readLineInto_spec memory hs
  refine ⟨_, l, s', hcall, hconsumed, rfl, ?_, hleaves.inside, ?_⟩
  · rw [hleaves.buffer]
    exact take_fetch (length_le_lineRoom _)
  · intro hne
    rcases h with hnil | hterminated
    · rw [hnil] at hne
      exact absurd rfl hne
    · rw [hleaves.buffer]
      exact (zero_mem_fetch (length_le_lineRoom _)).mpr hterminated

/-- **One line.** Everything about a line is as it should be but for the NUL: it
is there exactly if the line itself has one, or the memory of its last block has
one behind the line. At the end of a stream there is no line, and no NUL is
needed. -/
theorem readsLine_iff (memory : Nat → UInt8) (hs : Arrival.err ∉ s) :
    ReadsLine memory s ↔
      firstLine (incoming s) = [] ∨ Terminated memory (firstLine (incoming s)) :=
  ⟨fun h => h.terminated hs, ReadsLine.of_terminated hs⟩

/-- A request of seven bytes that comes in two pieces, in memory that is
clear. -/
theorem readsLine_clear :
    ReadsLine (fun _ => 0) [.chunk 80 [85, 84], .intr, .chunk 32 [97, 46, 10]] := by
  refine (readsLine_iff (fun _ => 0) (by decide)).mpr (Or.inr (Or.inr ⟨7, ?_, ?_, rfl⟩)) <;> decide

/-- A request that fills its block to the last byte: `PUT`, a blank, a name
of 27 bytes and the newline. -/
def fullRequest : List (Arrival UInt8) :=
  [.chunk 80 ([85, 84, 32] ++ List.replicate 27 97 ++ [newline])]

/-- No memory has a NUL for it. -/
theorem fullRequest_open : ¬ ∃ memory, ReadsLine memory fullRequest := by
  rintro ⟨memory, h⟩
  rcases h.terminated (by decide) with hnil | hzero | ⟨i, hge, hlt, -⟩
  · exact absurd hnil (by decide)
  · exact absurd hzero (by decide)
  · have hlength : (firstLine (incoming fullRequest)).length = 32 := by decide
    have hroom : lineRoom (firstLine (incoming fullRequest)) = 32 := by decide
    omega

end KeyLime
