import Mathlib.Data.List.TakeWhile
import KeyLime.Frames

/-!
# The reader of frames on a sender's frame

`feed_frame`: on the bytes of one frame, and whatever is behind them, the
reader ends with the verb, the name and the payload, and eats exactly the
frame. Until it has eaten the header line it stands in that line
(`feed_inLine`).

The reader is that of `Frames`, one byte a step, and the three parts of a frame
are three phases of it: the line up to its newline (`feed_line`), the eight bytes
of the size, low byte first (`feed_sizeFrom`), and as many bytes as that says. A
name can be sent when it is not empty, has neither a NUL nor a newline in it, and
leaves room for the verb (`Sendable`); the size must be below 2 ^ 64.

Both ends that send frames, `do_put` and the threads of a worker, use these
lemmas, and so do all ends that read them.
-/

namespace KeyLime

open Resume

def Command.verb : Command → Bytes
  | .interfacePut => interfacePutVerb
  | .put => putVerb

structure Sendable (name : Bytes) : Prop where
  nonempty : name ≠ []
  line : newline ∉ name
  string : 0 ∉ name

instance (name : Bytes) : Decidable (Sendable name) :=
  decidable_of_iff (name ≠ [] ∧ newline ∉ name ∧ 0 ∉ name)
    ⟨fun h => ⟨h.1, h.2.1, h.2.2⟩, fun h => ⟨h.nonempty, h.line, h.string⟩⟩

def headerLine (v : Command) (name : Bytes) : Bytes := v.verb ++ [space] ++ name

variable {v : Command} {name line payload bs : Bytes} {d : Dec}

theorem cstr_of_not_mem {b : Bytes} (h : 0 ∉ b) : cstr b = b :=
  List.takeWhile_eq_self_iff.mpr fun _ hc => decide_eq_true fun heq => h (heq ▸ hc)

theorem cstr_noNul (b : Bytes) : 0 ∉ cstr b := by
  intro hmem
  have := List.mem_takeWhile_imp hmem
  simp at this

theorem headerLine_string (h : Sendable name) : cstr (headerLine v name) = headerLine v name := by
  refine cstr_of_not_mem fun hb => ?_
  simp only [headerLine, List.mem_append] at hb
  rcases hb with (hb | hb) | hb
  · cases v <;> exact absurd hb (by decide)
  · exact absurd hb (by decide)
  · exact h.string hb

theorem headerLine_noNewline (h : Sendable name) : newline ∉ headerLine v name := by
  intro hb
  simp only [headerLine, List.mem_append] at hb
  rcases hb with (hb | hb) | hb
  · cases v <;> exact absurd hb (by decide)
  · exact absurd hb (by decide)
  · exact h.line hb

theorem afterSpace_headerLine : afterSpace (headerLine v name) = name := by
  cases v <;> rfl

theorem headerOf_headerLine (h : Sendable name) : headerOf (headerLine v name) = some (v, name) := by
  rw [headerOf, headerLine_string h, afterSpace_headerLine, if_neg h.nonempty]
  cases v with
  | interfacePut =>
      have hpre : interfacePutVerb <+: headerLine .interfacePut name :=
        ⟨[space] ++ name, by simp [headerLine, Command.verb]⟩
      rw [if_pos hpre]
  | put =>
      have hno : ¬ interfacePutVerb <+: headerLine .put name := by
        rintro ⟨t, ht⟩
        have := congrArg List.head? ht
        simp [headerLine, Command.verb, interfacePutVerb, putVerb] at this
      have hpre : putVerb <+: headerLine .put name :=
        ⟨[space] ++ name, by simp [headerLine, Command.verb]⟩
      rw [if_neg hno, if_pos hpre]

/-! ## The three phases -/

theorem feed_line (hline : newline ∉ bs) (rest : Bytes) :
    headerReader.feed (.header line) (bs ++ newline :: rest) = (.ofLine (line ++ bs), rest) := by
  induction bs generalizing line with
  | nil =>
      rw [List.append_nil]
      exact feed_header_newline rest
  | cons b bs ih =>
      rw [List.mem_cons, not_or] at hline
      rw [List.cons_append, feed_header_byte _ (Ne.symm hline.1), ih hline.2]
      simp

theorem feed_sizeFrom (v : Command) (name : Bytes) (n : Nat) (rest : Bytes) :
    ∀ (k i : Nat), i + (k + 1) = 8 →
      sizeReader.feed (.size v name i (n % 256 ^ i))
          ((List.range' i (k + 1)).map (fun j => UInt8.ofNat (n / 256 ^ j)) ++ rest) =
        (.payload v name (n % 256 ^ 8) [], rest)
  | 0, i, hi => by
      obtain rfl : i = 7 := by omega
      rw [List.range'_succ, List.map_cons, List.cons_append, feed_size_byte, setByte_mod]
      rfl
  | k + 1, i, hi => by
      rw [List.range'_succ, List.map_cons, List.cons_append, feed_size_byte, setByte_mod,
        if_neg (by omega)]
      exact feed_sizeFrom v name n rest k (i + 1) (by omega)

theorem feed_sizeBytes (v : Command) (name : Bytes) {n : Nat} (h : n < 2 ^ 64) (rest : Bytes) :
    sizeReader.feed (.size v name 0 0) (sizeBytes n ++ rest) = (.payload v name n [], rest) := by
  have hfeed := feed_sizeFrom v name n rest 7 0 rfl
  rw [Nat.mod_eq_of_lt (a := n) (b := 256 ^ 8) (by simpa using h), Nat.pow_zero, Nat.mod_one] at hfeed
  rwa [sizeBytes, List.range_eq_range']

/-- **Round trip.** On the bytes of a frame, with anything behind them, the reader
comes to its end with the verb, the name and the payload, and leaves the rest. -/
theorem feed_frame (hname : Sendable name) (hlen : payload.length < 2 ^ 64) (more : Bytes) :
    frameReader.feed (.header []) (Master.frame v.verb name payload ++ more) =
      (.done v name payload, more) := by
  have hsplit : Master.frame v.verb name payload ++ more =
      headerLine v name ++ newline :: (sizeBytes payload.length ++ (payload ++ more)) := by
    simp [Master.frame, headerLine]
  rw [hsplit, frame_feed_header, feed_line (headerLine_noNewline hname), List.nil_append,
    Dec.ofLine, headerOf_headerLine hname]
  simp only
  rw [frame_feed_size, feed_sizeBytes v name hlen, feed_payload]
  simp [Dec.payload]

/-! ## In the header line -/

theorem Dec.inHeader_of_step {b : UInt8} (h : (d.step b).inHeader = true) : d.inHeader = true := by
  cases d with
  | header line => rfl
  | size v name pos x =>
      rw [Dec.step] at h
      split at h
      · unfold Dec.payload at h
        split at h <;> cases h
      · cases h
  | data v name left got =>
      rw [Dec.step, Dec.payload] at h
      split at h <;> cases h
  | done v name got => cases h
  | bad => cases h

theorem inHeader_of_feed (h : (frameReader.feed d bs).1.inHeader = true) : d.inHeader = true := by
  induction bs generalizing d with
  | nil => exact h
  | cons b bs ih =>
      cases hfin : frameReader.final d with
      | true =>
          rw [Consumer.feed_of_final hfin] at h
          exact h
      | false =>
          rw [Consumer.feed_cons hfin] at h
          exact Dec.inHeader_of_step (ih h)

theorem feed_inLine {l : Bytes} (h : frameReader.feed (.header line) bs = (.header l, [])) :
    l = line ++ bs ∧ newline ∉ bs := by
  induction bs generalizing line with
  | nil =>
      obtain rfl := Dec.header.inj (Prod.mk.inj h).1
      simp
  | cons b bs ih =>
      rw [Consumer.feed_cons rfl] at h
      have hstep : ((Dec.header line).step b).inHeader = true := by
        have hfeed : frameReader.feed ((Dec.header line).step b) bs = (.header l, []) := h
        refine inHeader_of_feed (congrArg (fun r => r.1.inHeader) hfeed)
      by_cases hb : b = newline
      · subst hb
        rw [Dec.step, if_pos rfl, Dec.ofLine] at hstep
        split at hstep <;> cases hstep
      · have hnext : frameReader.step (.header line) b = .header (line ++ [b]) := if_neg hb
        rw [hnext] at h
        obtain ⟨rfl, hbs⟩ := ih h
        refine ⟨by simp, ?_⟩
        rw [List.mem_cons, not_or]
        exact ⟨Ne.symm hb, hbs⟩

end KeyLime
