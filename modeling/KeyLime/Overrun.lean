import KeyLime.Headers
import KeyLime.Naming

/-!
# The command buffer

`get_command` stores the bytes of a header line in a buffer of 1024 bytes and
compares their number with 1025 after each store. `commandAccesses` lists what
it does to the buffer; where an access is out of bounds `getCommand` is `none`
(`getCommand_isSome_iff`). In every run the accesses are in bounds if and only
if the lines fit into the buffer (`buffer_kept_iff`).

There are two kinds of accesses. A byte of the line is stored at the position of
its number, and when the newline has come, `strcmp` and `strdup` scan the buffer
for the NUL behind the line. A line of 1024 bytes is stored within the buffer and
leaves no place for that NUL, and so does not fit unless it has a NUL of its own.

What a call outside of the buffer does is not known, so the run ends with it; the
calls of a run are listed up to and including the first such call.
-/

namespace KeyLime

/-- `get_command` stores a byte of the line, or scans the buffer for the NUL
behind the line that is in it. -/
inductive Access where
  | store (index : Nat)
  | scan (line : Bytes)
deriving DecidableEq

/-- The buffer with the line in it; the rest was cleared before. -/
def commandBuffer (line : Bytes) : Bytes :=
  (line ++ List.replicate (commandBufSize - line.length) 0).take commandBufSize

def Access.InBounds : Access → Prop
  | .store index => index < commandBufSize
  | .scan line => 0 ∈ commandBuffer line

/-- The accesses of a call of `get_command` that finds `line` in the buffer.
What happens behind the end of the buffer is not known. -/
def commandAccesses : List Item → Bytes → List Access
  | [], _ => []
  | .intr :: s, line => commandAccesses s line
  | .err :: _, _ => []
  | .eof :: _, _ => []
  | .byte b :: s, line =>
      if b = newline then [.scan line]
      else
        .store line.length ::
          if commandBufSize ≤ line.length then []
          else if (line ++ [b]).length > 1025 then []
          else commandAccesses s (line ++ [b])

/-- What arrives of a line has room behind what is there. When it ends, there
is a place left for the NUL, or it has one in it. -/
def LineFits (line : Bytes) (s : List Item) : Prop :=
  (line ++ (readable s).takeWhile (· ≠ newline)).length ≤ commandBufSize
    ∧ (newline ∈ readable s →
      (line ++ (readable s).takeWhile (· ≠ newline)).length < commandBufSize
        ∨ 0 ∈ line ++ (readable s).takeWhile (· ≠ newline))

variable {line : Bytes} {s : List Item} {w : Worker} {b : UInt8}

/-! ## One call -/

theorem mem_commandBuffer (h : line.length ≤ commandBufSize) :
    0 ∈ commandBuffer line ↔ line.length < commandBufSize ∨ 0 ∈ line := by
  have hlen : (line ++ List.replicate (commandBufSize - line.length) 0).length = commandBufSize := by
    rw [List.length_append, List.length_replicate]
    omega
  rw [commandBuffer, List.take_of_length_le hlen.le, List.mem_append, List.mem_replicate]
  constructor
  · rintro (hmem | ⟨hne, -⟩)
    · exact Or.inr hmem
    · exact Or.inl (by omega)
  · rintro (hlt | hmem)
    · exact Or.inr ⟨by omega, rfl⟩
    · exact Or.inl hmem

theorem lineFits_intr : LineFits line (.intr :: s) ↔ LineFits line s := Iff.rfl

theorem lineFits_newline :
    LineFits line (.byte newline :: s) ↔ line.length ≤ commandBufSize ∧ 0 ∈ commandBuffer line := by
  have hnone : (newline :: readable s).takeWhile (· ≠ newline) = [] :=
    List.takeWhile_cons_of_neg (by simp)
  rw [LineFits, readable, hnone, List.append_nil]
  constructor
  · rintro ⟨hle, hend⟩
    exact ⟨hle, (mem_commandBuffer hle).mpr (hend (List.mem_cons_self ..))⟩
  · rintro ⟨hle, hmem⟩
    exact ⟨hle, fun _ => (mem_commandBuffer hle).mp hmem⟩

theorem lineFits_byte (hb : b ≠ newline) :
    LineFits line (.byte b :: s) ↔ LineFits (line ++ [b]) s := by
  have hcons : (b :: readable s).takeWhile (· ≠ newline) =
      b :: (readable s).takeWhile (· ≠ newline) :=
    List.takeWhile_cons_of_pos (by simpa using hb)
  have hmem : newline ∈ b :: readable s ↔ newline ∈ readable s := by
    rw [List.mem_cons, or_iff_right (Ne.symm hb)]
  rw [LineFits, LineFits, readable, hcons, hmem, List.append_assoc, List.singleton_append]

/-- **The accesses of one call**, on a line that is still inside the buffer. -/
theorem accesses_inBounds_iff (hline : line.length ≤ commandBufSize) :
    (∀ a ∈ commandAccesses s line, a.InBounds) ↔ LineFits line s := by
  induction s generalizing line with
  | nil => simp [commandAccesses, LineFits, readable, hline]
  | cons i s ih =>
      cases i with
      | intr =>
          rw [lineFits_intr]
          exact ih hline
      | err => simp [commandAccesses, LineFits, readable, hline]
      | eof => simp [commandAccesses, LineFits, readable, hline]
      | byte b =>
          rw [commandAccesses]
          by_cases hb : b = newline
          · subst hb
            rw [if_pos rfl, List.forall_mem_singleton, lineFits_newline]
            exact ⟨fun hmem => ⟨hline, hmem⟩, fun h => h.2⟩
          · rw [if_neg hb, List.forall_mem_cons, lineFits_byte hb]
            have hlen : (line ++ [b]).length = line.length + 1 := by simp
            by_cases hfull : commandBufSize ≤ line.length
            · -- the byte is stored behind the end
              refine ⟨fun h => (Nat.not_lt.mpr hfull h.1).elim, ?_⟩
              intro h
              have hle := h.1
              rw [List.length_append, hlen] at hle
              omega
            · rw [if_neg hfull, if_neg (by unfold commandBufSize at hline; omega),
                ih (by omega)]
              exact ⟨fun h => h.2, fun h => ⟨Nat.not_le.mp hfull, h⟩⟩

theorem commandAccesses_bytes {bs : Bytes} (hno : newline ∉ bs)
    (hroom : line.length + bs.length ≤ commandBufSize) (s : List Item) :
    ∃ l, commandAccesses (bs.map .byte ++ s) line = l ++ commandAccesses s (line ++ bs) := by
  induction bs generalizing line with
  | nil => exact ⟨[], by simp⟩
  | cons b bs ih =>
      rw [List.mem_cons, not_or] at hno
      rw [List.length_cons] at hroom
      have hlen : (line ++ [b]).length = line.length + 1 := by simp
      have hroom' : (line ++ [b]).length + bs.length ≤ commandBufSize := by omega
      obtain ⟨l, hl⟩ := ih hno.2 hroom'
      refine ⟨.store line.length :: l, ?_⟩
      rw [List.map_cons, List.cons_append, commandAccesses, if_neg (Ne.symm hno.1),
        if_neg (by omega), if_neg (by unfold commandBufSize at hroom; omega), hl]
      simp

theorem parseHeader_isSome (hline : w.command.length ≤ commandBufSize) :
    (parseHeader w).isSome = true ↔ 0 ∈ commandBuffer w.command := by
  rw [mem_commandBuffer hline, parseHeader]
  split
  · rename_i hfull
    simp only [Option.isSome_none, Bool.false_eq_true, false_iff, not_or]
    exact ⟨by omega, hfull.2⟩
  · rename_i hroom
    have hnul : w.command.length < commandBufSize ∨ 0 ∈ w.command := by
      by_cases hmem : 0 ∈ w.command
      · exact Or.inr hmem
      · exact Or.inl (Nat.not_le.mp fun hle => hroom ⟨hle, hmem⟩)
    refine iff_of_true ?_ hnul
    dsimp only
    split_ifs <;> rfl

/-- The model of `get_command` is undefined exactly where an access is out of
bounds. -/
theorem getCommand_isSome_iff (hline : w.command.length ≤ commandBufSize) :
    (getCommand s w).isSome = true ↔ ∀ a ∈ commandAccesses s w.command, a.InBounds := by
  induction s generalizing w with
  | nil => simp [getCommand, commandAccesses]
  | cons i s ih =>
      cases i with
      | intr => exact ih hline
      | err => simp [getCommand, commandAccesses]
      | eof => simp [getCommand, commandAccesses]
      | byte b =>
          rw [commandAccesses]
          by_cases hb : b = newline
          · rw [getCommand, if_pos hb, if_pos hb, Option.isSome_map, List.forall_mem_singleton]
            exact parseHeader_isSome hline
          · rw [if_neg hb, List.forall_mem_cons]
            by_cases hfull : commandBufSize ≤ w.command.length
            · rw [getCommand_full hb hfull]
              refine ⟨fun h => (Bool.false_ne_true h).elim, ?_⟩
              intro h
              exact (Nat.not_lt.mpr hfull h.1).elim
            · have hlen : (w.command ++ [b]).length = w.command.length + 1 := by simp
              have hshort : ¬ (w.command ++ [b]).length > 1025 := by
                unfold commandBufSize at hline
                omega
              rw [getCommand_store hb (Nat.not_le.mp hfull), if_neg hfull, if_neg hshort]
              rw [ih (w := { w with command := w.command ++ [b] })
                (by rw [hlen]; omega)]
              exact ⟨fun h => ⟨Nat.not_le.mp hfull, h⟩, fun h => h.2⟩

namespace Master

variable {m m' : Master} {e : Event} {es : List Event}

/-! ## Every run -/

/-- A call of `get_command`: what is in the buffer, and what is to be read. -/
structure HeaderCall where
  line : Bytes
  stream : List Item

def HeaderCall.accesses (c : HeaderCall) : List Access := commandAccesses c.stream c.line

def HeaderCall.Fits (c : HeaderCall) : Prop := LineFits c.line c.stream

/-- The call of `get_command` that `handle_data` makes for the event. -/
def headerCall (m : Master) : Event → Option HeaderCall
  | .data fd arrived _ =>
      (m.current fd).bind fun p =>
        if (m.heap p).alive = true ∧ (m.heap p).status = .start then
          some ⟨(m.heap p).command, (m.arriving fd arrived).kernel.inbox (m.heap p).workerFd⟩
        else none
  | _ => none

def headerCalls (m : Master) : List Event → List HeaderCall
  | [] => []
  | e :: es =>
      if m.enabled e = true then
        (m.headerCall e).toList ++ (m.handle e).elim [] fun m' => m'.headerCalls es
      else []

/-- A call that does not fit is the last thing the model says of a run. -/
theorem handle_of_call {c : HeaderCall} (hroom : ∀ q, (m.heap q).command.length ≤ commandBufSize)
    (hc : m.headerCall e = some c) (hs : m.handle e = some m') : ∀ a ∈ c.accesses, a.InBounds := by
  cases e with
  | data fd arrived io =>
      obtain ⟨p, hcur, hif⟩ := Option.bind_eq_some_iff.mp hc
      split at hif
      · rename_i hparse
        obtain rfl := Option.some.inj hif
        have hcur' : (m.arriving fd arrived).current fd = some p := hcur
        have hal : ((m.arriving fd arrived).heap p).alive ≠ false := by
          rw [show ((m.arriving fd arrived).heap p).alive = true from hparse.1]
          simp
        change (m.arriving fd arrived).handleData fd io = some m' at hs
        rw [handleData, hcur'] at hs
        simp only [if_neg hal] at hs
        obtain ⟨f, hf, -⟩ := Option.map_eq_some_iff.mp hs
        refine (getCommand_isSome_iff (w := m.heap p) (hroom p)).mp ?_
        by_contra hno
        rw [Bool.not_eq_true, Option.isSome_eq_false_iff, Option.isNone_iff_eq_none] at hno
        have hstage : (m.arriving fd arrived).headerStage fd p = none := by
          have hst : ((m.arriving fd arrived).heap p).status = .start := hparse.2
          rw [headerStage, if_neg (not_not_intro hst)]
          exact Option.bind_eq_none_iff.mpr fun r hr => by cases hno.symm.trans hr
        rw [hstage] at hf
        cases hf
      · cases hif
  | _ => cases hc

theorem headerCalls_room {c : HeaderCall} (hr : Reachable m) (hc : c ∈ m.headerCalls es) :
    c.line.length ≤ commandBufSize := by
  induction es generalizing m with
  | nil => cases hc
  | cons e es ih =>
      rw [headerCalls] at hc
      split at hc
      · rename_i hen
        rcases List.mem_append.mp hc with hcall | hrest
        · rw [Option.mem_toList] at hcall
          cases e with
          | data fd arrived io =>
              obtain ⟨p, -, hif⟩ := Option.bind_eq_some_iff.mp hcall
              split at hif
              · obtain rfl := Option.some.inj hif
                exact (hr.named.legible p).room
              · cases hif
          | _ => cases hcall
        · cases hm : m.handle e with
          | none =>
              rw [hm] at hrest
              cases hrest
          | some m' =>
              rw [hm] at hrest
              exact ih (hr.step ⟨hen, hm⟩) hrest
      · cases hc

/-- **The command buffer**, in every run: the accesses of `get_command` are in
bounds if and only if every line it reads fits. Both sides speak of all calls of
the run, the last of which may be one that the run does not get beyond. -/
theorem buffer_kept_iff (resolve : Bytes → Bytes) (es : List Event) :
    (∀ c ∈ (init resolve).headerCalls es, ∀ a ∈ c.accesses, a.InBounds)
      ↔ ∀ c ∈ (init resolve).headerCalls es, c.Fits :=
  forall₂_congr fun _ hc =>
    accesses_inBounds_iff (headerCalls_room ⟨resolve, .refl⟩ hc)

theorem first_call (s : List Item) (hne : s ≠ []) :
    ⟨[], s⟩ ∈ (init id).headerCalls [.accept [⟨5, [], default⟩], .data 5 s {}] := by
  obtain ⟨i, s, rfl⟩ := List.exists_cons_of_ne_nil hne
  exact List.mem_cons_self ..

/-- A line of 1024 bytes; a further byte is stored behind the buffer, and the
newline has the buffer scanned, in which there is no NUL. -/
theorem buffer_overrun :
    (∃ c ∈ (init id).headerCalls [.accept [⟨5, [], default⟩],
        .data 5 ((List.replicate 1024 97).map .byte ++ [.byte 97]) {}],
      .store 1024 ∈ c.accesses ∧ ¬ (Access.store 1024).InBounds)
    ∧ ∃ c ∈ (init id).headerCalls [.accept [⟨5, [], default⟩],
        .data 5 ((List.replicate 1024 97).map .byte ++ [.byte newline]) {}],
      .scan (List.replicate 1024 97) ∈ c.accesses
        ∧ ¬ (Access.scan (List.replicate 1024 97)).InBounds := by
  have hno : newline ∉ List.replicate 1024 (97 : UInt8) := by
    intro h
    cases List.eq_of_mem_replicate h
  have hnul : 0 ∉ List.replicate 1024 (97 : UInt8) := by
    intro h
    cases List.eq_of_mem_replicate h
  have hlen : (List.replicate 1024 (97 : UInt8)).length = commandBufSize := List.length_replicate
  generalize List.replicate 1024 (97 : UInt8) = bs at hno hnul hlen ⊢
  have hroom : ([] : Bytes).length + bs.length ≤ commandBufSize := by
    rw [hlen, List.length_nil, Nat.zero_add]
  have hlast : ∀ i : Item, bs.map .byte ++ [i] ≠ [] := fun _ h => by
    cases (List.append_eq_nil_iff.mp h).2
  refine ⟨⟨_, first_call _ (hlast _), ?_, Nat.lt_irrefl _⟩, ⟨_, first_call _ (hlast _), ?_, ?_⟩⟩
  · obtain ⟨l, hl⟩ := commandAccesses_bytes hno hroom [.byte 97]
    rw [HeaderCall.accesses, hl, List.nil_append]
    refine List.mem_append_right _ ?_
    rw [commandAccesses, if_neg (by decide), hlen]
    exact List.mem_cons_self ..
  · obtain ⟨l, hl⟩ := commandAccesses_bytes hno hroom [.byte newline]
    rw [HeaderCall.accesses, hl, List.nil_append]
    exact List.mem_append_right _ (List.mem_cons_self ..)
  · rw [Access.InBounds, mem_commandBuffer hlen.le]
    rintro (hlt | hmem)
    · exact hlt.ne hlen
    · exact hnul hmem

end Master

end KeyLime
