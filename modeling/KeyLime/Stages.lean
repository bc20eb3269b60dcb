import KeyLime.Decode

/-!
# The parser functions are the phases of the reader

One theorem for each of `get_command`, `get_size` and `get_binary_data`,
by induction on the items the loop recurses on. Each says everything the
function can return: the record moves along the reader of frames, and
either the readable bytes ran out inside the phase, or the phase ended
and the rest of the bytes is left.

Beside the bytes, the functions are described by what they leave alone
(`getCommand_status`, `getSize_keeps`, `DataRun.record`), since the record of a
connection is shared with the scheduler, and by when they are defined at all
(`getCommand_total`, `getSize_total`).

`get_binary_data` needs the most: it opens the file of the record if none is
open (`openTemp`), and then stores block after block. What it returns does not
depend on the disk (`getBinaryData_stream`); what it stores does. With a disk
that refuses nothing the file gets the payload bytes that were read
(`getBinaryData_smooth`).
-/

namespace KeyLime

open Resume

theorem feed_header_byte {line : Bytes} {b : UInt8} (bs : Bytes) (hb : b ≠ newline) :
    headerReader.feed (.header line) (b :: bs) = headerReader.feed (.header (line ++ [b])) bs := by
  rw [Consumer.feed_cons rfl]
  simp [headerReader, Dec.step, hb]

theorem feed_header_newline {line : Bytes} (bs : Bytes) :
    headerReader.feed (.header line) (newline :: bs) = (.ofLine line, bs) := by
  rw [Consumer.feed_cons rfl]
  simp only [headerReader, Dec.step, if_pos]
  refine Consumer.feed_of_final ?_
  unfold Dec.ofLine
  split <;> rfl

theorem parseHeader_spec {w w' : Worker} {ret : Ret} (h : parseHeader w = some (ret, w')) :
    (∃ v name, headerOf w.command = some (v, name) ∧ ret = .doneSending
        ∧ w' = { w with toDo := v, tempFileName := some name })
      ∨ (headerOf w.command = none ∧ ret = .bigFailure
        ∧ ∃ v name, w' = { w with toDo := v, tempFileName := name }) := by
  simp only [parseHeader] at h
  split at h
  · cases h
  · simp only [headerOf]
    by_cases hi : interfacePutVerb <+: cstr w.command
    · by_cases hn : afterSpace (cstr w.command) = [] <;>
        simp only [hi, hn, if_true, if_false, Option.some.injEq, Prod.mk.injEq] at h ⊢ <;>
        obtain ⟨rfl, rfl⟩ := h
      · exact Or.inr ⟨trivial, rfl, _, _, rfl⟩
      · exact Or.inl ⟨_, _, ⟨rfl, rfl⟩, rfl, rfl⟩
    · by_cases hp : putVerb <+: cstr w.command
      · by_cases hn : afterSpace (cstr w.command) = [] <;>
          simp only [hi, hp, hn, if_true, if_false, Option.some.injEq, Prod.mk.injEq] at h ⊢ <;>
          obtain ⟨rfl, rfl⟩ := h
        · exact Or.inr ⟨trivial, rfl, _, _, rfl⟩
        · exact Or.inl ⟨_, _, ⟨rfl, rfl⟩, rfl, rfl⟩
      · simp only [hi, hp, if_false, Option.some.injEq, Prod.mk.injEq] at h
        obtain ⟨rfl, rfl⟩ := h
        refine Or.inr ⟨?_, rfl, w.toDo, w.tempFileName, rfl⟩
        split <;> rfl

/-! ## The header -/

theorem getCommand_store {s : List Item} {w : Worker} {b : UInt8} (hb : b ≠ newline)
    (hroom : w.command.length < commandBufSize) :
    getCommand (.byte b :: s) w = getCommand s { w with command := w.command ++ [b] } := by
  have hshort : ¬ (w.command ++ [b]).length > 1025 := by
    rw [List.length_append, List.length_singleton]
    unfold commandBufSize at hroom
    omega
  rw [getCommand, if_neg hb, if_neg (Nat.not_le.mpr hroom)]
  exact if_neg hshort

theorem getCommand_full {s : List Item} {w : Worker} {b : UInt8} (hb : b ≠ newline)
    (hfull : commandBufSize ≤ w.command.length) : getCommand (.byte b :: s) w = none := by
  rw [getCommand, if_neg hb, if_pos hfull]

/-- `get_command` returns with the readable bytes used up inside the line,
behind an accepted line, or behind one it rejects. -/
theorem getCommand_spec {s : List Item} {w : Worker} {r : Parsed}
    (h : getCommand s w = some r) :
    (∃ line, headerReader.feed (.header w.command) (readable s) = (.header line, [])
        ∧ r.ret = stopped (ending s) ∧ r.last = some (ending s)
        ∧ (ending s = .again → r.rest = []) ∧ r.w = { w with command := line })
      ∨ (∃ line v name,
        headerReader.feed (.header w.command) (readable s) = (.size v name 0 0, readable r.rest)
        ∧ r.ret = .doneSending ∧ r.last = some .data ∧ ending r.rest = ending s
        ∧ r.w = { w with command := line, toDo := v, tempFileName := some name })
      ∨ (∃ line v name,
        headerReader.feed (.header w.command) (readable s) = (.bad, readable r.rest)
        ∧ r.ret = .bigFailure ∧ r.last = some .data
        ∧ r.w = { w with command := line, toDo := v, tempFileName := name }) := by
  induction s generalizing w with
  | nil =>
      obtain rfl := Option.some.inj h
      exact Or.inl ⟨w.command, rfl, rfl, rfl, fun _ => rfl, rfl⟩
  | cons i s ih =>
      cases i with
      | intr => exact ih (by simpa only [getCommand] using h)
      | err =>
          obtain rfl := Option.some.inj h
          exact Or.inl ⟨w.command, rfl, rfl, rfl, nofun, rfl⟩
      | eof =>
          obtain rfl := Option.some.inj h
          exact Or.inl ⟨w.command, rfl, rfl, rfl, nofun, rfl⟩
      | byte b =>
          by_cases hb : b = newline
          · subst hb
            rw [getCommand, if_pos rfl] at h
            obtain ⟨⟨ret, w'⟩, hp, rfl⟩ := Option.map_eq_some_iff.mp h
            rw [readable, feed_header_newline]
            rcases parseHeader_spec hp with ⟨v, name, hh, rfl, rfl⟩ | ⟨hh, rfl, v, name, rfl⟩
            · exact Or.inr (Or.inl ⟨w.command, v, name, by simp [Dec.ofLine, hh], rfl, rfl, rfl, rfl⟩)
            · exact Or.inr (Or.inr ⟨w.command, v, name, by simp [Dec.ofLine, hh], rfl, rfl, rfl⟩)
          · rcases Nat.lt_or_ge w.command.length commandBufSize with hroom | hfull
            · rw [getCommand_store hb hroom] at h
              have := ih h
              simpa only [readable, ending, feed_header_byte _ hb] using this
            · rw [getCommand_full hb hfull] at h
              cases h

theorem getCommand_status {s : List Item} {w : Worker} {r : Parsed}
    (h : getCommand s w = some r) : r.w.status = w.status := by
  rcases getCommand_spec h with ⟨_, _, _, _, _, hw⟩ | ⟨_, _, _, _, _, _, _, hw⟩
      | ⟨_, _, _, _, _, _, hw⟩ <;>
    rw [hw]

theorem getCommand_total {s : List Item} {w : Worker}
    (h : w.command.length + ((readable s).takeWhile (· != newline)).length < commandBufSize) :
    ∃ r, getCommand s w = some r := by
  induction s generalizing w with
  | nil => exact ⟨_, rfl⟩
  | cons i s ih =>
      cases i with
      | intr => exact ih h
      | err => exact ⟨_, rfl⟩
      | eof => exact ⟨_, rfl⟩
      | byte b =>
          by_cases hb : b = newline
          · rw [getCommand, if_pos hb]
            have hlen : ¬ (commandBufSize ≤ w.command.length ∧ 0 ∉ w.command) := by omega
            simp only [parseHeader, if_neg hlen]
            split_ifs <;> exact ⟨_, rfl⟩
          · have hline : (b :: readable s).takeWhile (· != newline) =
                b :: (readable s).takeWhile (· != newline) :=
              List.takeWhile_cons_of_pos (bne_iff_ne.mpr hb)
            rw [readable, hline, List.length_cons] at h
            have hlen : (w.command ++ [b]).length = w.command.length + 1 := by simp
            rw [getCommand_store hb (by omega)]
            exact ih (by rw [hlen]; omega)

/-! ## The size -/

theorem feed_size_byte {v : Command} {name : Bytes} {pos x : Nat} (b : UInt8) (bs : Bytes) :
    sizeReader.feed (.size v name pos x) (b :: bs) =
      if pos + 1 = 8 then (.payload v name (setByte x pos b) [], bs)
      else sizeReader.feed (.size v name (pos + 1) (setByte x pos b)) bs := by
  rw [Consumer.feed_cons rfl]
  simp only [sizeReader, Dec.step]
  split
  · refine Consumer.feed_of_final ?_
    unfold Dec.payload
    split <;> rfl
  · rfl

/-- `get_size` returns with the readable bytes used up inside the size, or
behind it with `file_size` set. -/
theorem getSize_spec (v : Command) (name : Bytes) {s : List Item} {w : Worker} {r : Parsed}
    (h : getSize s w = some r) :
    (∃ pos x, sizeReader.feed (.size v name w.sizeBufferPos w.fileSize) (readable s)
          = (.size v name pos x, [])
        ∧ r.ret = stopped (ending s) ∧ r.last = some (ending s)
        ∧ (ending s = .again → r.rest = []) ∧ (w.sizeBufferPos < 8 → pos < 8)
        ∧ r.w = { w with sizeBufferPos := pos, fileSize := x })
      ∨ (∃ x, sizeReader.feed (.size v name w.sizeBufferPos w.fileSize) (readable s)
          = (.payload v name x [], readable r.rest)
        ∧ r.ret = .doneSending ∧ r.last = some .data ∧ ending r.rest = ending s
        ∧ r.w = { w with sizeBufferPos := 8, fileSize := x }) := by
  induction s generalizing w with
  | nil =>
      obtain rfl := Option.some.inj h
      exact Or.inl ⟨_, _, rfl, rfl, rfl, fun _ => rfl, id, rfl⟩
  | cons i s ih =>
      cases i with
      | intr => exact ih (by simpa only [getSize] using h)
      | err =>
          obtain rfl := Option.some.inj h
          exact Or.inl ⟨_, _, rfl, rfl, rfl, nofun, id, rfl⟩
      | eof =>
          obtain rfl := Option.some.inj h
          exact Or.inl ⟨_, _, rfl, rfl, rfl, nofun, id, rfl⟩
      | byte b =>
          rw [getSize] at h
          split at h
          · cases h
          · rw [readable, feed_size_byte]
            by_cases h8 : w.sizeBufferPos + 1 = 8
            · simp only [h8, if_true] at h ⊢
              obtain rfl := Option.some.inj h
              exact Or.inr ⟨_, rfl, rfl, rfl, rfl, rfl⟩
            · simp only [h8, if_false] at h ⊢
              rcases ih h with ⟨pos, x, hfeed, hret, hlast, hrest, hpos, hw⟩ | hdone
              · exact Or.inl ⟨pos, x, hfeed, hret, hlast, hrest,
                  fun hlt => hpos (show w.sizeBufferPos + 1 < 8 by omega), hw⟩
              · exact Or.inr hdone

theorem getSize_keeps {s : List Item} {w : Worker} {r : Parsed} (h : getSize s w = some r) :
    r.w.toDo = w.toDo ∧ r.w.status = w.status := by
  rcases getSize_spec .put [] h with
      ⟨_, _, _, _, _, _, _, hw⟩ | ⟨_, _, _, _, _, hw⟩ <;>
    rw [hw] <;> exact ⟨rfl, rfl⟩

theorem getSize_total {s : List Item} {w : Worker} (h : w.sizeBufferPos < 8) :
    ∃ r, getSize s w = some r := by
  induction s generalizing w with
  | nil => exact ⟨_, rfl⟩
  | cons i s ih =>
      cases i with
      | intr => exact ih h
      | err => exact ⟨_, rfl⟩
      | eof => exact ⟨_, rfl⟩
      | byte b =>
          rw [getSize, if_neg (by omega)]
          dsimp only
          split
          · exact ⟨_, rfl⟩
          · exact ih (by simp only; omega)

/-! ## The data -/

theorem Worker.with_fileSize {w : Worker} {x : Nat} (h : w.fileSize = x) :
    { w with fileSize := x } = w := by
  subst h
  rfl

theorem takeBlock_spec {size : Nat} (hpos : 0 < size) (b : UInt8) (s : List Item) :
    .byte b :: s =
        (takeBytes (if size < 4096 then size else 4096) (.byte b :: s)).1.map .byte
          ++ (takeBytes (if size < 4096 then size else 4096) (.byte b :: s)).2
      ∧ 0 < (takeBytes (if size < 4096 then size else 4096) (.byte b :: s)).1.length
      ∧ (takeBytes (if size < 4096 then size else 4096) (.byte b :: s)).1.length ≤ size := by
  obtain ⟨n, hn⟩ : ∃ n, (if size < 4096 then size else 4096) = n + 1 :=
    Nat.exists_eq_succ_of_ne_zero (by split <;> omega)
  obtain ⟨hsplit, hle⟩ := takeBytes_spec (if size < 4096 then size else 4096) (.byte b :: s)
  refine ⟨hsplit, ?_, hle.trans (by split <;> omega)⟩
  simp [hn, takeBytes]

/-- The rounds of the data loop, one constructor for each way a round ends.
A block is at least one byte of the payload and at most what is left of it. -/
inductive DataRun : Nat → List Item → List Outcome → Option ReadResult → Worker → Kernel →
    Parsed → Kernel → Prop where
  | done {fuel : Nat} {s : List Item} {os : List Outcome} {last : Option ReadResult} {w : Worker}
      {k : Kernel} (h0 : w.fileSize = 0) :
      DataRun fuel s os last w k ⟨.doneSending, last, s, w⟩ k
  | drained {fuel : Nat} {s : List Item} {os : List Outcome} {last : Option ReadResult}
      {w : Worker} {k : Kernel} (h0 : w.fileSize ≠ 0) (hend : fuel = 0 ∨ s = []) :
      DataRun fuel s os last w k ⟨.notDoneSending, some .again, s, w⟩ k
  | intr {fuel : Nat} {s : List Item} {os : List Outcome} {last : Option ReadResult}
      {w : Worker} {k : Kernel} {r : Parsed} {k' : Kernel}
      (h : DataRun fuel s os last w k r k') : DataRun (fuel + 1) (.intr :: s) os last w k r k'
  | err {fuel : Nat} {s : List Item} {os : List Outcome} {last : Option ReadResult}
      {w : Worker} {k : Kernel} (h0 : w.fileSize ≠ 0) :
      DataRun (fuel + 1) (.err :: s) os last w k ⟨.bigFailure, some .err, s, w⟩ k
  | eof {fuel : Nat} {s : List Item} {os : List Outcome} {last : Option ReadResult}
      {w : Worker} {k : Kernel} (h0 : w.fileSize ≠ 0) :
      DataRun (fuel + 1) (.eof :: s) os last w k ⟨.bigFailure, some .eof, .eof :: s, w⟩ k
  | refused {fuel : Nat} {s rest : List Item} {os : List Outcome} {last : Option ReadResult}
      {w : Worker} {k : Kernel} {blk : Bytes} (h0 : w.fileSize ≠ 0)
      (hsplit : s = blk.map .byte ++ rest) (hpos : 0 < blk.length) (hle : blk.length ≤ w.fileSize)
      (hr : (writeAllToSocket k w.tempFd blk os).1 = -1
        ∨ (writeAllToSocket k w.tempFd blk os).1 = 0) :
      DataRun (fuel + 1) s os last w k ⟨.bigFailure, some .data, rest, w⟩
        (writeAllToSocket k w.tempFd blk os).2.2
  | block {fuel : Nat} {s rest : List Item} {os : List Outcome} {last : Option ReadResult}
      {w : Worker} {k : Kernel} {r : Parsed} {k' : Kernel} {blk : Bytes} (h0 : w.fileSize ≠ 0)
      (hsplit : s = blk.map .byte ++ rest) (hpos : 0 < blk.length) (hle : blk.length ≤ w.fileSize)
      (h : DataRun fuel rest (writeAllToSocket k w.tempFd blk os).2.1 (some .data)
        { w with fileSize := w.fileSize - blk.length }
        (writeAllToSocket k w.tempFd blk os).2.2 r k') :
      DataRun (fuel + 1) s os last w k r k'

theorem dataLoop_run {fuel : Nat} {s : List Item} {os : List Outcome} {last : Option ReadResult}
    {w : Worker} {k : Kernel} {r : Parsed} {k' : Kernel}
    (h : dataLoop fuel s os last w k = (r, k')) : DataRun fuel s os last w k r k' := by
  induction fuel generalizing s os last w k with
  | zero =>
      unfold dataLoop at h
      split at h
      · rename_i h0
        obtain ⟨rfl, rfl⟩ := Prod.mk.inj h
        exact .done h0
      · rename_i h0
        obtain ⟨rfl, rfl⟩ := Prod.mk.inj h
        exact .drained h0 (Or.inl rfl)
  | succ fuel ih =>
      unfold dataLoop at h
      split at h
      · rename_i h0
        obtain ⟨rfl, rfl⟩ := Prod.mk.inj h
        exact .done h0
      · rename_i h0
        cases s with
        | nil =>
            obtain ⟨rfl, rfl⟩ := Prod.mk.inj h
            exact .drained h0 (Or.inr rfl)
        | cons i s =>
            cases i with
            | intr => exact .intr (ih h)
            | err =>
                obtain ⟨rfl, rfl⟩ := Prod.mk.inj h
                exact .err h0
            | eof =>
                obtain ⟨rfl, rfl⟩ := Prod.mk.inj h
                exact .eof h0
            | byte b =>
                obtain ⟨hsplit, hpos, hle⟩ := takeBlock_spec (Nat.pos_of_ne_zero h0) b s
                dsimp only at h
                generalize takeBytes _ _ = t at h hsplit hpos hle
                split at h
                · rename_i hr
                  obtain ⟨rfl, rfl⟩ := Prod.mk.inj h
                  exact .refused h0 hsplit hpos hle hr
                · exact .block h0 hsplit hpos hle (ih h)

theorem DataRun.record {fuel : Nat} {s : List Item} {os : List Outcome} {last : Option ReadResult}
    {w : Worker} {k : Kernel} {r : Parsed} {k' : Kernel} (h : DataRun fuel s os last w k r k') :
    ∃ x, r.w = { w with fileSize := x } := by
  induction h with
  | done | drained | err | eof | refused => exact ⟨_, rfl⟩
  | intr _ ih => exact ih
  | block _ _ _ _ _ ih => exact ih

theorem dataLoop_record (fuel : Nat) (s : List Item) (os : List Outcome)
    (last : Option ReadResult) (w : Worker) (k : Kernel) :
    ∃ x, (dataLoop fuel s os last w k).1.w = { w with fileSize := x } :=
  (dataLoop_run rfl).record

/-- What the data loop returns, whatever the disk does: the payload bytes
are all read, the readable bytes have run out, or a write or read failed. -/
theorem dataLoop_stream {fuel : Nat} {s : List Item} {os : List Outcome}
    {last : Option ReadResult} {w : Worker} {k : Kernel} {r : Parsed} {k' : Kernel}
    (hfuel : s.length ≤ fuel) (h : dataLoop fuel s os last w k = (r, k')) :
    (r.ret = .doneSending ∧ w.fileSize ≤ (readable s).length ∧ r.w = { w with fileSize := 0 }
        ∧ readable r.rest = (readable s).drop w.fileSize ∧ ending r.rest = ending s
        ∧ (r.last = last ∨ r.last = some .data))
      ∨ (r.ret = .notDoneSending ∧ (readable s).length < w.fileSize ∧ ending s = .again
        ∧ r.w = { w with fileSize := w.fileSize - (readable s).length }
        ∧ r.last = some .again ∧ r.rest = [])
      ∨ (r.ret = .bigFailure ∧ (∃ x, 0 < x ∧ x ≤ w.fileSize ∧ r.w = { w with fileSize := x })
        ∧ (r.last = some .data ∨ (r.last = some (ending s) ∧ ending s ≠ .again
          ∧ (readable s).length < w.fileSize))) := by
  have hrun := dataLoop_run h
  clear h
  induction hrun with
  | done h0 =>
      exact Or.inl ⟨rfl, by simp [h0], (Worker.with_fileSize h0).symm, by simp [h0], rfl, Or.inl rfl⟩
  | @drained fuel s os last w k h0 hend =>
      obtain rfl := hend.elim (fun h => List.length_eq_zero_iff.mp (by omega)) id
      exact Or.inr (Or.inl ⟨rfl, Nat.pos_of_ne_zero h0, rfl, rfl, rfl, rfl⟩)
  | intr _ ih => exact ih (Nat.le_of_succ_le_succ hfuel)
  | err h0 | eof h0 =>
      have hpos := Nat.pos_of_ne_zero h0
      exact Or.inr (Or.inr ⟨rfl, ⟨_, hpos, le_rfl, rfl⟩, Or.inr ⟨rfl, by simp [ending], hpos⟩⟩)
  | refused h0 =>
      exact Or.inr (Or.inr ⟨rfl, ⟨_, Nat.pos_of_ne_zero h0, le_rfl, rfl⟩, Or.inl rfl⟩)
  | @block fuel s rest os last w k r k' blk h0 hsplit hpos hle _ ih =>
      have hlen := congrArg List.length hsplit
      rw [List.length_append, List.length_map] at hlen
      rw [hsplit, readable_append, ending_append, List.length_append, List.drop_append,
        List.drop_eq_nil_of_le hle, List.nil_append]
      rcases ih (by omega) with ⟨hret, hfs, hw, hrest, hend, hlast⟩
        | ⟨hret, hfs, hend, hw, hlast, hrest⟩ | ⟨hret, ⟨x, hx, hxle, hw⟩, hlast⟩
      · exact Or.inl ⟨hret, by simp only at hfs; omega, hw, hrest, hend,
          Or.inr (hlast.elim id id)⟩
      · exact Or.inr (Or.inl ⟨hret, by simp only at hfs; omega, hend,
          by rw [hw]; simp [Nat.sub_sub], hlast, hrest⟩)
      · exact Or.inr (Or.inr ⟨hret, ⟨x, hx, hxle.trans (Nat.sub_le ..), hw⟩,
          hlast.imp_right fun h => ⟨h.1, h.2.1, by have := h.2.2; simp only at this; omega⟩⟩)

/-- On a disk that refuses nothing the loop stores the payload bytes it
reads, and fails only when the readable bytes end in a failing read. -/
theorem dataLoop_smooth {fuel : Nat} {s : List Item} {os : List Outcome}
    {last : Option ReadResult} {w : Worker} {k : Kernel} {r : Parsed} {k' : Kernel}
    (hfuel : s.length ≤ fuel) (hos : Smooth os) (hd : k.desc w.tempFd ≠ none)
    (h : dataLoop fuel s os last w k = (r, k')) :
    k' = k.put w.tempFd ((readable s).take w.fileSize)
      ∧ r.w = { w with fileSize := w.fileSize - (readable s).length }
      ∧ (r.ret = .bigFailure → (readable s).length < w.fileSize ∧ ending s ≠ .again) := by
  have hrun := dataLoop_run h
  clear h
  induction hrun with
  | done h0 => exact ⟨by simp [h0], (Worker.with_fileSize (by simp [h0])).symm, by simp⟩
  | @drained fuel s os last w k h0 hend =>
      obtain rfl := hend.elim (fun h => List.length_eq_zero_iff.mp (by omega)) id
      exact ⟨by simp [readable], rfl, by simp⟩
  | intr _ ih => exact ih (Nat.le_of_succ_le_succ hfuel) hos hd
  | err h0 | eof h0 =>
      exact ⟨by simp [readable], rfl, fun _ => ⟨Nat.pos_of_ne_zero h0, by simp [ending]⟩⟩
  | @refused fuel s rest os last w k blk h0 hsplit hpos hle hr =>
      obtain ⟨os', -, hwr⟩ := writeAllToSocket_smooth (k := k) blk hd hos
      rw [hwr] at hr
      simp only at hr
      omega
  | @block fuel s rest os last w k r k' blk h0 hsplit hpos hle _ ih =>
      obtain ⟨os', hos', hwr⟩ := writeAllToSocket_smooth (k := k) blk hd hos
      rw [hwr] at ih
      have hlen := congrArg List.length hsplit
      rw [List.length_append, List.length_map] at hlen
      have hdesc : (k.put w.tempFd blk).desc w.tempFd ≠ none := fun hc =>
        hd ((Kernel.put_desc_eq_none ..).mp hc)
      obtain ⟨hk, hw, hend⟩ := ih (by omega) hos' hdesc
      rw [hsplit, readable_append, ending_append, List.take_append,
        List.take_of_length_le hle, List.length_append]
      refine ⟨by rw [hk, Kernel.put_append], by rw [hw]; simp [Nat.sub_sub], ?_⟩
      intro hret
      obtain ⟨hlt, hne'⟩ := hend hret
      simp only at hlt
      exact ⟨by omega, hne'⟩

/-! ## Opening the file -/

/-- What `get_binary_data` does before its loop. -/
def openTemp (k : Kernel) (w : Worker) (io : RecvIo) : Kernel × Worker :=
  if w.tempFd = -1 then
    let (fd, k) := k.openWithAllPermission (w.tempFileName.getD [])
      (io.openOk && w.tempFileName.isSome)
    (k, { w with tempFd := fd })
  else (k, w)

/-- The kernel after `name` has been opened. -/
def Kernel.opened (k : Kernel) (name : Bytes) : Kernel :=
  { k with
    store := Function.update k.store (k.resolve name) (some [])
    desc := Function.update k.desc k.nextFd (some (.file (k.resolve name) 0))
    nextFd := k.nextFd + 1 }

theorem openTemp_of_ne {k : Kernel} {w : Worker} (h : w.tempFd ≠ -1) (io : RecvIo) :
    openTemp k w io = (k, w) := by
  simp [openTemp, h]

theorem openTemp_of_ok {k : Kernel} {w : Worker} {io : RecvIo} {name : Bytes}
    (h : w.tempFd = -1) (hok : io.openOk = true) (hname : w.tempFileName = some name) :
    openTemp k w io = (k.opened name, { w with tempFd := k.nextFd }) := by
  simp [openTemp, h, hok, hname, Kernel.openWithAllPermission, Kernel.opened]

theorem openTemp_of_fail {k : Kernel} {w : Worker} {io : RecvIo} (h : w.tempFd = -1)
    (hfail : io.openOk = false ∨ w.tempFileName = none) : openTemp k w io = (k, w) := by
  have hrec : { w with tempFd := -1 } = w := by rw [← h]
  have hcond : (io.openOk && w.tempFileName.isSome) = false := by
    rcases hfail with h | h <;> simp [h]
  simp [openTemp, h, hcond, Kernel.openWithAllPermission, hrec]

theorem openTemp_cases (k : Kernel) (w : Worker) (io : RecvIo) :
    (openTemp k w io = (k, w) ∧ (w.tempFd ≠ -1 ∨ io.openOk = false ∨ w.tempFileName = none))
      ∨ ∃ name, w.tempFd = -1 ∧ io.openOk = true ∧ w.tempFileName = some name
        ∧ openTemp k w io = (k.opened name, { w with tempFd := k.nextFd }) := by
  by_cases h : w.tempFd = -1
  · cases hok : io.openOk with
    | false => exact Or.inl ⟨openTemp_of_fail h (Or.inl hok), by simp⟩
    | true =>
        rcases Option.eq_none_or_eq_some w.tempFileName with hname | ⟨name, hname⟩
        · exact Or.inl ⟨openTemp_of_fail h (Or.inr hname), by simp [hname]⟩
        · exact Or.inr ⟨name, h, rfl, hname, openTemp_of_ok h hok hname⟩
  · exact Or.inl ⟨openTemp_of_ne h io, Or.inl h⟩

theorem openTemp_inbox (k : Kernel) (w : Worker) (io : RecvIo) :
    (openTemp k w io).1.inbox = k.inbox := by
  rcases openTemp_cases k w io with ⟨heq, -⟩ | ⟨name, -, -, -, heq⟩ <;> rw [heq]
  rfl

theorem openTemp_record (k : Kernel) (w : Worker) (io : RecvIo) :
    ∃ g, (openTemp k w io).2 = { w with tempFd := g } := by
  rcases openTemp_cases k w io with ⟨heq, -⟩ | ⟨name, -, -, -, heq⟩ <;> rw [heq]
  · exact ⟨w.tempFd, rfl⟩
  · exact ⟨_, rfl⟩

theorem getBinaryData_eq (k : Kernel) (w : Worker) (io : RecvIo) :
    getBinaryData k w io = dataLoop (k.inbox w.workerFd).length (k.inbox w.workerFd) io.disk
      none (openTemp k w io).2 (openTemp k w io).1 := by
  have hbox := openTemp_inbox k w io
  obtain ⟨g, hw⟩ := openTemp_record k w io
  have hfd : (openTemp k w io).2.workerFd = w.workerFd := by rw [hw]
  rw [← hbox, ← hfd]
  rfl

/-- Files can be opened and written. -/
structure RecvIo.Benign (io : RecvIo) : Prop where
  openOk : io.openOk = true
  disk : Smooth io.disk

instance (io : RecvIo) : Decidable io.Benign :=
  decidable_of_iff (io.openOk = true ∧ Smooth io.disk) ⟨fun h => ⟨h.1, h.2⟩, fun h => ⟨h.1, h.2⟩⟩

/-- The temporary file of a record is open under its name. Nothing else opens a file
on that descriptor as long as the record has it. -/
def Worker.Opened (k : Kernel) (w : Worker) : Prop :=
  w.tempFd ≠ -1 →
    ∃ off, k.desc w.tempFd = some (.file (k.resolve (w.tempFileName.getD [])) off)

theorem openTemp_opened {k : Kernel} {w : Worker} (h : w.Opened k) (io : RecvIo) :
    (openTemp k w io).2.Opened (openTemp k w io).1 := by
  rcases openTemp_cases k w io with ⟨heq, -⟩ | ⟨name, -, -, hname, heq⟩ <;> rw [heq]
  · exact h
  · exact fun _ => ⟨0, by simp [Kernel.opened, hname]⟩

theorem openTemp_ne {w : Worker} {io : RecvIo} (k : Kernel) (hio : io.Benign)
    (hname : w.tempFileName.isSome = true) : (openTemp k w io).2.tempFd ≠ -1 := by
  rcases openTemp_cases k w io with ⟨heq, hfd | hok | hn⟩ | ⟨name, -, -, -, heq⟩
  · rwa [heq]
  · simp [hio.openOk] at hok
  · simp [hn] at hname
  · rw [heq]
    simp only
    omega

theorem openTemp_desc {k : Kernel} {w : Worker} {io : RecvIo} (h : w.Opened k)
    (hio : io.Benign) (hname : w.tempFileName.isSome = true) :
    (openTemp k w io).1.desc (openTemp k w io).2.tempFd ≠ none := by
  obtain ⟨off, hd⟩ := openTemp_opened h io (openTemp_ne k hio hname)
  simp [hd]

/-- What `get_binary_data` returns, whatever the disk does. -/
theorem getBinaryData_stream (k : Kernel) (w : Worker) (io : RecvIo) :
    ∃ g, ((getBinaryData k w io).1.ret = .doneSending
        ∧ w.fileSize ≤ (readable (k.inbox w.workerFd)).length
        ∧ (getBinaryData k w io).1.w = { w with tempFd := g, fileSize := 0 }
        ∧ readable (getBinaryData k w io).1.rest
          = (readable (k.inbox w.workerFd)).drop w.fileSize
        ∧ ((getBinaryData k w io).1.last = none ∨ (getBinaryData k w io).1.last = some .data))
      ∨ ((getBinaryData k w io).1.ret = .notDoneSending
        ∧ (readable (k.inbox w.workerFd)).length < w.fileSize
        ∧ ending (k.inbox w.workerFd) = .again
        ∧ (getBinaryData k w io).1.w =
          { w with
            tempFd := g, fileSize := w.fileSize - (readable (k.inbox w.workerFd)).length }
        ∧ (getBinaryData k w io).1.last = some .again ∧ (getBinaryData k w io).1.rest = [])
      ∨ ((getBinaryData k w io).1.ret = .bigFailure
        ∧ (∃ x, 0 < x ∧ x ≤ w.fileSize
          ∧ (getBinaryData k w io).1.w = { w with tempFd := g, fileSize := x })
        ∧ ((getBinaryData k w io).1.last = some .data
          ∨ ((getBinaryData k w io).1.last = some (ending (k.inbox w.workerFd))
            ∧ ending (k.inbox w.workerFd) ≠ .again
            ∧ (readable (k.inbox w.workerFd)).length < w.fileSize))) := by
  obtain ⟨g, hw⟩ := openTemp_record k w io
  obtain ⟨r, k', hrk⟩ : ∃ r k', getBinaryData k w io = (r, k') := ⟨_, _, rfl⟩
  have h := dataLoop_stream le_rfl ((getBinaryData_eq k w io).symm.trans hrk)
  rw [hw] at h
  rw [hrk]
  refine ⟨g, ?_⟩
  rcases h with ⟨hret, hle, hrw, hrest, -, hlast⟩ | h | h
  · exact Or.inl ⟨hret, hle, hrw, hrest, hlast⟩
  · exact Or.inr (Or.inl h)
  · exact Or.inr (Or.inr h)

theorem getBinaryData_smooth {k : Kernel} {w : Worker} {io : RecvIo} (hio : io.Benign)
    (hd : (openTemp k w io).1.desc (openTemp k w io).2.tempFd ≠ none) :
    (getBinaryData k w io).2 = (openTemp k w io).1.put (openTemp k w io).2.tempFd
        ((readable (k.inbox w.workerFd)).take w.fileSize)
      ∧ (getBinaryData k w io).1.w =
        { w with
          tempFd := (openTemp k w io).2.tempFd
          fileSize := w.fileSize - (readable (k.inbox w.workerFd)).length }
      ∧ ((getBinaryData k w io).1.ret = .bigFailure →
        (readable (k.inbox w.workerFd)).length < w.fileSize
          ∧ ending (k.inbox w.workerFd) ≠ .again) := by
  obtain ⟨g, hw⟩ := openTemp_record k w io
  obtain ⟨r, k', hrk⟩ : ∃ r k', getBinaryData k w io = (r, k') := ⟨_, _, rfl⟩
  have h := dataLoop_smooth le_rfl hio.disk hd ((getBinaryData_eq k w io).symm.trans hrk)
  rw [hw] at h
  rw [hrk, hw]
  exact h

end KeyLime
