import KeyLime.Parse
import KeyLime.Resume
import KeyLime.Writes

/-!
# Frames, and the automaton that reads them

What the master's parser is for, stated on bytes alone: a `Dec` is where
a reader of one frame stands, and `Dec.step` eats a byte. There are no
sockets, records or files here.

The stages of the parser are phases of this one consumer
(`getCommand_spec`, `getSize_spec`, `dataLoop_stream`): each eats what its
phase eats of the readable bytes and stops where its phase stops. Where
the bytes run out first, the item behind them decides between
`NOT_DONE_SENDING` and `BIG_FAILURE`.

Two things of the real format show in it. A header line that is no request is
not skipped but ends the reader in a state of its own. And a frame ends with the
last byte of its payload, or, if the payload is empty, with the last byte of the
size; what is behind it belongs to the next frame and is not touched.
-/

namespace KeyLime

open Resume

/-- The verb and the name of an acceptable header line. -/
def headerOf (line : Bytes) : Option (Command × Bytes) :=
  let name := afterSpace (cstr line)
  if name = [] then none
  else if interfacePutVerb <+: cstr line then some (.interfacePut, name)
  else if putVerb <+: cstr line then some (.put, name)
  else none

/-- Where a reader of one frame stands: in the header line, after `pos`
bytes of the size, with `left` bytes of payload to come, at the end of
the frame, or behind a line that is no header. -/
inductive Dec where
  | header (line : Bytes)
  | size (v : Command) (name : Bytes) (pos x : Nat)
  | data (v : Command) (name : Bytes) (left : Nat) (got : Bytes)
  | done (v : Command) (name : Bytes) (got : Bytes)
  | bad
deriving DecidableEq

namespace Dec

/-- `left` more bytes of payload to come, `got` being there. -/
def payload (v : Command) (name : Bytes) (left : Nat) (got : Bytes) : Dec :=
  if left = 0 then .done v name got else .data v name left got

def ofLine (line : Bytes) : Dec :=
  match headerOf line with
  | some (v, name) => .size v name 0 0
  | none => .bad

def step : Dec → UInt8 → Dec
  | .header line, b => if b = newline then ofLine line else .header (line ++ [b])
  | .size v name pos x, b =>
      if pos + 1 = 8 then payload v name (setByte x pos b) []
      else .size v name (pos + 1) (setByte x pos b)
  | .data v name left got, b => payload v name (left - 1) (got ++ [b])
  | .done v name got, _ => .done v name got
  | .bad, _ => .bad

def inHeader : Dec → Bool
  | .header _ => true
  | _ => false

def inSize : Dec → Bool
  | .size _ _ _ _ => true
  | _ => false

def inData : Dec → Bool
  | .data _ _ _ _ => true
  | _ => false

end Dec

/-- The reader of one frame, and its first two phases. -/
def frameReader : Consumer Dec UInt8 :=
  ⟨Dec.step, fun d => !(d.inHeader || d.inSize || d.inData)⟩

def headerReader : Consumer Dec UInt8 := ⟨Dec.step, fun d => !d.inHeader⟩

def sizeReader : Consumer Dec UInt8 := ⟨Dec.step, fun d => !(d.inHeader || d.inSize)⟩

theorem frame_feed_header (d : Dec) (bs : Bytes) :
    frameReader.feed d bs =
      frameReader.feed (headerReader.feed d bs).1 (headerReader.feed d bs).2 :=
  Consumer.feed_coarser rfl fun d h => by
    cases d <;> simp_all [frameReader, headerReader, Dec.inHeader, Dec.inSize, Dec.inData]

theorem frame_feed_size (d : Dec) (bs : Bytes) :
    frameReader.feed d bs =
      frameReader.feed (sizeReader.feed d bs).1 (sizeReader.feed d bs).2 :=
  Consumer.feed_coarser rfl fun d h => by
    cases d <;> simp_all [frameReader, sizeReader, Dec.inHeader, Dec.inSize, Dec.inData]

theorem feed_payload (v : Command) (name : Bytes) (bs : Bytes) :
    ∀ (left : Nat) (got : Bytes),
      frameReader.feed (.payload v name left got) bs =
        (.payload v name (left - bs.length) (got ++ bs.take left), bs.drop left) := by
  induction bs with
  | nil => intro left got; simp
  | cons b bs ih =>
      intro left got
      cases left with
      | zero =>
          rw [show Dec.payload v name 0 got = .done v name got from rfl,
            Consumer.feed_of_final rfl]
          simp [Dec.payload]
      | succ left =>
          rw [show Dec.payload v name (left + 1) got = .data v name (left + 1) got from rfl,
            Consumer.feed_cons rfl]
          show frameReader.feed (.payload v name (left + 1 - 1) (got ++ [b])) bs = _
          rw [ih, Nat.add_sub_cancel]
          simp [Nat.add_sub_add_right]

/-! ## What is readable on a socket -/

/-- The bytes reads return before they meet an end-of-file or an error. -/
def readable : List Item → Bytes
  | .byte b :: s => b :: readable s
  | .intr :: s => readable s
  | _ => []

/-- What reads meet behind the readable bytes. -/
def ending : List Item → ReadResult
  | .byte _ :: s => ending s
  | .intr :: s => ending s
  | .eof :: _ => .eof
  | .err :: _ => .err
  | [] => .again

/-- What a stage returns when the bytes run out. -/
def stopped : ReadResult → Ret
  | .again => .notDoneSending
  | _ => .bigFailure

theorem stopped_notDone {e : ReadResult} : stopped e = .notDoneSending ↔ e = .again := by
  cases e <;> simp [stopped]

theorem stopped_bigFailure {e : ReadResult} : stopped e = .bigFailure ↔ e ≠ .again := by
  cases e <;> simp [stopped]

theorem stopped_ne_done (e : ReadResult) : stopped e ≠ .doneSending := by
  cases e <;> simp [stopped]

theorem takeBytes_spec (n : Nat) (s : List Item) :
    s = (takeBytes n s).1.map .byte ++ (takeBytes n s).2 ∧ (takeBytes n s).1.length ≤ n := by
  induction n generalizing s with
  | zero => simp [takeBytes]
  | succ n ih =>
      cases s with
      | nil => simp [takeBytes]
      | cons i s =>
          cases i with
          | byte b =>
              simp only [takeBytes, List.map_cons, List.cons_append, List.length_cons]
              exact ⟨congrArg _ (ih s).1, Nat.succ_le_succ (ih s).2⟩
          | intr => simp [takeBytes]
          | eof => simp [takeBytes]
          | err => simp [takeBytes]

theorem readable_append (bs : Bytes) (s : List Item) :
    readable (bs.map .byte ++ s) = bs ++ readable s := by
  induction bs with
  | nil => rfl
  | cons b bs ih => simp [readable, ih]

theorem ending_append (bs : Bytes) (s : List Item) :
    ending (bs.map .byte ++ s) = ending s := by
  induction bs with
  | nil => rfl
  | cons b bs ih => simp [ending, ih]

end KeyLime
