import KeyLime.Names
import KeyLime.Tracking

/-!
# Streams of frames

`framesOf` cuts a stream into the frames that are complete in it. It inverts
the senders: from whole frames it gets them back, one after the other, however
much of a further one is behind them (`framesOf_cut`). What it finds in any
stream is well formed (`framesOf_proper`), and more bytes only add to it
(`framesOf_prefix`).

Both ends of every connection are described by it, so that what two programs say
to each other can be stated without either of them: what the master has read of a
connection, what a worker has written on one, and what the interface has sent are
streams, and the same function is applied to them.

There are no further conditions on a stream that is read. A header line that
`get_command` does not know leads the reader to a state without continuation, and
no frame is found behind it (`Dec.Sane` lists where a reader can stand).
-/

namespace KeyLime

open Resume

abbrev Frame := Command × Bytes × Bytes

namespace Frame

def encode (x : Frame) : Bytes := Master.frame x.1.verb x.2.1 x.2.2

/-- The name is one for a header line, and the size one for eight bytes. -/
structure Proper (x : Frame) : Prop where
  name : Sendable x.2.1
  short : x.2.2.length < 2 ^ 64

end Frame

namespace Dec

/-- The frame the reader has come to the end of. -/
def frame? : Dec → Option Frame
  | .done v name payload => some (v, name, payload)
  | _ => none

theorem frame?_of_running {d : Dec} (h : frameReader.final d = false) : d.frame? = none := by
  cases d with
  | done => cases h
  | header | size | data | bad => rfl

end Dec

/-- The frames that are complete in a stream. -/
def framesOf (bs : Bytes) : List Frame :=
  (frameReader.ends Dec.restart (.header []) bs).filterMap Dec.frame?

variable {t bs : Bytes} {d : Dec} {x : Frame} {xs : List Frame} {v : Command}
  {name payload : Bytes}

theorem framesOf_append (h : frameReader.feed (decode t).restart bs = (d, []))
    (hrun : bs = [] → d.frame? = none) : framesOf (t ++ bs) = framesOf t ++ d.frame?.toList := by
  by_cases hbs : bs = []
  · rw [hrun hbs, hbs, List.append_nil, Option.toList_none, List.append_nil]
  · have hends := Consumer.ends_of_feed (fun _ => Dec.restart_of_running) hbs h
    rw [framesOf, Consumer.ends_append, List.filterMap_append]
    change _ ++ (frameReader.ends Dec.restart (decode t) bs).filterMap Dec.frame? = _
    rw [hends]
    cases d <;> rfl

theorem framesOf_prefix (h : t <+: bs) : framesOf t <+: framesOf bs := by
  obtain ⟨more, rfl⟩ := h
  rw [framesOf, framesOf, Consumer.ends_append, List.filterMap_append]
  exact List.prefix_append _ _

/-! ## Whole frames -/

theorem encode_ne_nil (x : Frame) : x.encode ≠ [] := by
  simp [Frame.encode, Master.frame]

theorem framesOf_encode (hx : x.Proper) (ht : (decode t).restart = .header []) :
    framesOf (t ++ x.encode) = framesOf t ++ [x]
      ∧ (decode (t ++ x.encode)).restart = .header [] := by
  have hfeed : frameReader.feed (decode t).restart x.encode = (.done x.1 x.2.1 x.2.2, []) := by
    have h := feed_frame (v := x.1) hx.name hx.short []
    rwa [List.append_nil, ← ht] at h
  refine ⟨framesOf_append hfeed fun h => (encode_ne_nil x h).elim, ?_⟩
  rw [decode_append (encode_ne_nil x) hfeed]
  rfl

theorem framesOf_encodes (hxs : ∀ x ∈ xs, x.Proper) (ht : (decode t).restart = .header []) :
    framesOf (t ++ (xs.map Frame.encode).flatten) = framesOf t ++ xs
      ∧ (decode (t ++ (xs.map Frame.encode).flatten)).restart = .header [] := by
  induction xs generalizing t with
  | nil => simp [ht]
  | cons x xs ih =>
      obtain ⟨hframes, hdec⟩ := framesOf_encode (hxs x List.mem_cons_self) ht
      have hrest := ih (fun y hy => hxs y (List.mem_cons_of_mem x hy)) hdec
      rw [hframes, List.append_assoc, List.append_assoc, List.singleton_append] at hrest
      exact hrest

/-- **Streams of frames.** Cut off inside of a frame, a stream has the frames
before that one in it. -/
theorem framesOf_cut (hxs : ∀ x ∈ xs, x.Proper) (hx : x.Proper) (hcut : bs <+: x.encode)
    (hne : bs ≠ x.encode) : framesOf ((xs.map Frame.encode).flatten ++ bs) = xs := by
  obtain ⟨hframes, hdec⟩ := framesOf_encodes (t := []) hxs rfl
  rw [List.nil_append] at hframes hdec
  obtain ⟨rest, hrest⟩ := hcut
  have hwhole : frameReader.feed (.header []) (bs ++ rest) = (.done x.1 x.2.1 x.2.2, []) := by
    have h := feed_frame (v := x.1) hx.name hx.short []
    rwa [List.append_nil, ← Frame.encode, ← hrest] at h
  have hne' : rest ≠ [] := fun h => hne (by rw [← hrest, h, List.append_nil])
  have hrun := Consumer.running_of_append (congrArg Prod.snd hwhole) hne'
  have hfeed : frameReader.feed (decode (xs.map Frame.encode).flatten).restart bs =
      ((frameReader.feed (.header []) bs).1, []) := by
    rw [hdec]
    exact Prod.ext rfl (Consumer.rest_of_running hrun)
  rw [framesOf_append hfeed fun _ => Dec.frame?_of_running hrun, hframes,
    Dec.frame?_of_running hrun]
  exact List.append_nil xs

/-! ## Any stream -/

/-- Where a reader can stand. -/
def Dec.Sane : Dec → Prop
  | .header line => newline ∉ line
  | .size _ name pos x => Sendable name ∧ pos < 8 ∧ x < 256 ^ pos
  | .data _ name left got => Sendable name ∧ 0 < left ∧ got.length + left < 2 ^ 64
  | .done v name got => Frame.Proper (v, name, got)
  | .bad => True

theorem setByte_lt {x pos : Nat} (h : x < 256 ^ pos) (b : UInt8) :
    setByte x pos b < 256 ^ (pos + 1) := by
  have hb := b.toNat_lt
  have hx : x < 256 ^ (pos + 1) := h.trans (Nat.pow_lt_pow_right (by decide) (Nat.lt_succ_self pos))
  have hmul : b.toNat * 256 ^ pos ≤ 255 * 256 ^ pos :=
    Nat.mul_le_mul_right _ (Nat.le_of_lt_succ hb)
  rw [setByte, Nat.mod_eq_of_lt h, Nat.div_eq_of_lt hx, pow_succ]
  omega

namespace Dec

theorem payload_sane {left : Nat} {got : Bytes} (hname : Sendable name)
    (hlen : got.length + left < 2 ^ 64) : (Dec.payload v name left got).Sane := by
  unfold Dec.payload
  split
  · exact ⟨hname, (Nat.le_add_right _ _).trans_lt hlen⟩
  · rename_i hleft
    exact ⟨hname, Nat.pos_of_ne_zero hleft, hlen⟩

theorem header_sane {line : Bytes} (h : newline ∉ line) (b : UInt8) :
    ((header line).step b).Sane := by
  rw [step]
  split
  · rw [ofLine]
    split
    · rename_i v name hline
      exact ⟨(headerOf_sendable hline h).1, by decide, by decide⟩
    · trivial
  · rename_i hb
    intro hmem
    rcases List.mem_append.mp hmem with hmem | hmem
    · exact h hmem
    · exact hb (List.mem_singleton.mp hmem).symm

theorem Sane.step (h : d.Sane) (b : UInt8) : (d.restart.step b).Sane := by
  cases d with
  | header line => exact header_sane h b
  | size v name pos x =>
      obtain ⟨hname, hpos, hx⟩ := h
      have hset := setByte_lt hx b
      change (if pos + 1 = 8 then Dec.payload v name (setByte x pos b) []
        else Dec.size v name (pos + 1) (setByte x pos b)).Sane
      split
      · rename_i hlast
        rw [hlast] at hset
        exact payload_sane hname (by rw [List.length_nil, Nat.zero_add]; exact hset)
      · exact ⟨hname, by omega, hset⟩
  | data v name left got =>
      obtain ⟨hname, hleft, hlen⟩ := h
      refine payload_sane hname ?_
      rw [List.length_append, List.length_singleton]
      omega
  | done v name got => exact header_sane List.not_mem_nil b
  | bad => trivial

end Dec

theorem ends_sane (hd : d.Sane) : ∀ e ∈ frameReader.ends Dec.restart d bs, e.Sane := by
  induction bs generalizing d with
  | nil => simp [Consumer.ends]
  | cons b bs ih =>
      intro e he
      rw [Consumer.ends] at he
      rcases List.mem_append.mp he with he | he
      · split at he
        · obtain rfl := List.mem_singleton.mp he
          exact hd.step b
        · cases he
      · exact ih (hd.step b) e he

/-- **What is accepted is well formed**: a frame that is found in any stream has a
name for a header line and a payload as long as its size says. -/
theorem framesOf_proper (hx : x ∈ framesOf bs) : x.Proper := by
  obtain ⟨e, he, hframe⟩ := List.mem_filterMap.mp hx
  have hsane := ends_sane (d := .header []) List.not_mem_nil e he
  cases e with
  | done v name got =>
      obtain rfl := Option.some.inj hframe
      exact hsane
  | header | size | data | bad => cases hframe

end KeyLime
