import KeyLime.Cluster

/-!
# What the interface finds on its connection

`no_cyclic_wait` says that a master that retries a `write` waits for a process
that can go on, if that process has not ended. A worker may end, on an error of
its own. The thread of an interface that reads has one way to end, and the bytes
decide: it stores a header line that is too long behind the 1024 bytes of `buff`,
also one that is none, because a frame before it was cut short and its size does
not say what follows. Here it is shown that this does not come about while the
master sends whole frames.

`FramePlace` says where in a frame a stream of bytes is. The invariant (`Framed`)
has three parts, one for each piece of the way of a byte:

* where the master is in `do_put`: the bytes of its buffer lead from one place
  to the next (`MasterPlace.GoesOn`);
* what is on the way: the bytes lead from the place of the receiver to the place
  of the master;
* where `output_reciever` is in its own loop (`Printer.framePlace`), which has
  met nothing but frames of files so far (`Printer.Fine`).

A step of the master appends to the bytes and moves its place along them, a step
of the receiver takes bytes off the other end. Frames are whole (`Whole`) when no
`read` of the file fails inside of a `do_put` to an interface, its name fits into
a header, and its size is one a file can have.
-/

namespace KeyLime

/-- In a header line after `k` bytes, in a size after `i` bytes that are the
low ones of `acc`, or before the last `n` bytes of a payload, `n` not 0. -/
inductive FramePlace where
  | line (k : Nat)
  | size (i acc : Nat)
  | data (n : Nat)

namespace FramePlace

/-- Before the last `n` bytes of a payload. -/
def left (n : Nat) : FramePlace := if n = 0 then .line 0 else .data n

/-- One more byte, if the line still fits and the size is one of a file. -/
def next : FramePlace → UInt8 → Option FramePlace
  | .line k, b =>
      if b = newline then some (.size 0 0) else if k < bufSize then some (.line (k + 1)) else none
  | .size i acc, b =>
      if i + 1 < 8 then some (.size (i + 1) (acc + b.toNat * 256 ^ i))
      else if acc + b.toNat * 256 ^ i < 2 ^ 63 then some (left (acc + b.toNat * 256 ^ i))
      else none
  | .data n, _ => some (left (n - 1))

def run : FramePlace → Bytes → Option FramePlace
  | ph, [] => some ph
  | ph, b :: bs => (ph.next b).bind fun ph => ph.run bs

variable {ph ph' : FramePlace} {xs ys bs name : Bytes} {k n i : Nat}

theorem run_append : ph.run (xs ++ ys) = (ph.run xs).bind fun ph => ph.run ys := by
  induction xs generalizing ph with
  | nil => rfl
  | cons x xs ih =>
      simp only [List.cons_append, run, Option.bind_assoc, ih]

/-- Behind the first part of a buffer the second part leads where the whole
buffer leads. -/
theorem run_split (h : ph.run (xs ++ ys) = some ph') :
    ∃ ph₁, ph.run xs = some ph₁ ∧ ph₁.run ys = some ph' := by
  rw [run_append] at h
  exact Option.bind_eq_some_iff.mp h

theorem run_line (hnl : newline ∉ bs) (hlen : k + bs.length ≤ bufSize) :
    (FramePlace.line k).run (bs ++ [newline]) = some (.size 0 0) := by
  induction bs generalizing k with
  | nil =>
      rw [List.nil_append, run, next, if_pos rfl]
      rfl
  | cons b bs ih =>
      obtain ⟨hb, hnl⟩ := not_or.mp (mt List.mem_cons.mpr hnl)
      rw [List.length_cons] at hlen
      rw [List.cons_append, run, next, if_neg (Ne.symm hb), if_pos (by omega), Option.bind_some]
      exact ih hnl (by omega)

theorem run_putHeader (hnl : newline ∉ name) (hlen : name.length + 4 ≤ bufSize) :
    (FramePlace.line 0).run (putHeader name) = some (.size 0 0) := by
  have hlong : (putVerb ++ [space] ++ name).length = name.length + 4 := by
    simp only [putVerb, List.length_append, List.length_cons, List.length_nil]
    omega
  refine run_line (fun hmem => ?_) (by omega)
  rcases List.mem_append.mp hmem with hmem | hmem
  · exact absurd hmem (by decide)
  · exact hnl hmem

theorem next_byte (n i : Nat) :
    n % 256 ^ i + (UInt8.ofNat (n / 256 ^ i)).toNat * 256 ^ i = n % 256 ^ (i + 1) := by
  rw [Nat.mod_pow_succ, UInt8.toNat_ofNat', Nat.mul_comm]

theorem run_size (hn : n < 2 ^ 63) (hi : i < 8) :
    (FramePlace.size i (n % 256 ^ i)).run ((sizeBytes n).drop i) = some (left n) := by
  obtain ⟨k, hk⟩ : ∃ k, 7 - i = k := ⟨_, rfl⟩
  induction k generalizing i with
  | zero =>
      obtain rfl : i = 7 := by omega
      have hlt : 7 < (sizeBytes n).length := by
        rw [sizeBytes_length]
        decide
      have hbyte : (sizeBytes n)[7] = UInt8.ofNat (n / 256 ^ 7) := by simp [sizeBytes]
      have hdrop : (sizeBytes n).drop 8 = [] :=
        List.drop_eq_nil_of_le (Nat.le_of_eq (sizeBytes_length n))
      have hall : n % 256 ^ (7 + 1) = n := Nat.mod_eq_of_lt (by omega)
      rw [List.drop_eq_getElem_cons hlt, hbyte, run, next, if_neg (by omega), next_byte, hall,
        if_pos hn, Option.bind_some, hdrop]
      rfl
  | succ k ih =>
      have hlt : i < (sizeBytes n).length := by
        rw [sizeBytes_length]
        exact hi
      have hbyte : (sizeBytes n)[i] = UInt8.ofNat (n / 256 ^ i) := by simp [sizeBytes]
      rw [List.drop_eq_getElem_cons hlt, hbyte, run, next, if_pos (by omega), next_byte,
        Option.bind_some]
      exact ih (by omega) (by omega)

theorem run_sizeBytes (hn : n < 2 ^ 63) : (FramePlace.size 0 0).run (sizeBytes n) = some (left n) := by
  have := run_size (i := 0) hn (by decide)
  rwa [List.drop_zero, Nat.pow_zero, Nat.mod_one] at this

theorem run_left (h : xs.length ≤ n) : (left n).run xs = some (left (n - xs.length)) := by
  induction xs generalizing n with
  | nil => rfl
  | cons x xs ih =>
      rw [List.length_cons] at h
      have hdata : left n = .data n := if_neg (by omega)
      rw [hdata, run, next, Option.bind_some, ih (by omega), List.length_cons, Nat.sub_sub,
        Nat.add_comm 1]

end FramePlace

/-! ## The receiver -/

namespace Printer

variable {p p' : Printer} {bs bs' : Bytes} {ph : FramePlace} {n : Nat} {r : Reached Bytes}

def framePlace (p : Printer) : FramePlace :=
  match p.place with
  | .loop | .line => .line p.idx
  | .size i => if i < 8 then .size i (p.fileSize % 256 ^ i) else .left (p.fileSize % 256 ^ 8)
  | .data size => .left size.toNat

/-- The thread has met nothing but whole frames of files: it is running, and the
size it reads, or has read, is not negative as an `ssize_t`. -/
structure Fine (p : Printer) : Prop where
  running : p.running = true
  size : ∀ i, p.place = .size i → i ≤ 8 ∧ (i = 8 → p.fileSize % 256 ^ 8 < 2 ^ 63)
  data : ∀ size, p.place = .data size → 0 ≤ size

theorem setByte_mod_succ (x i : Nat) (b : UInt8) :
    setByte x i b % 256 ^ (i + 1) = x % 256 ^ i + b.toNat * 256 ^ i := by
  have hlow : x % 256 ^ i < 256 ^ i := Nat.mod_lt _ (Nat.pow_pos (by decide))
  have hb : (b.toNat + 1) * 256 ^ i ≤ 256 * 256 ^ i := Nat.mul_le_mul_right _ b.toNat_lt
  rw [Nat.add_mul, Nat.one_mul] at hb
  rw [setByte, Nat.add_mul_mod_self_right, Nat.mod_eq_of_lt]
  rw [Nat.pow_succ]
  omega

/-- The thread goes on in `p` with what is left of `bs`, which leads to `ph`. -/
def GoesOn (p : Printer) (n : Nat) (bs : Bytes) (ph : FramePlace) : Prop :=
  ∃ p' bs', p.step (recvFrom n) bs = .on p' bs' ∧ p'.Fine ∧ p'.framePlace.run bs' = some ph

theorem recvFrom_one (n : Nat) (b : UInt8) (bs : Bytes) :
    recvFrom n 1 (b :: bs) = (.data [b], bs) := by
  simp [recvFrom]

theorem Fine.line (h : p.Fine) (hplace : p.place = .line) (hne : bs ≠ [])
    (hrun : (FramePlace.line p.idx).run bs = some ph) : p.GoesOn n bs ph := by
  obtain ⟨b, bs, rfl⟩ := List.exists_cons_of_ne_nil hne
  obtain ⟨ph₁, hnext, hrun₁⟩ := Option.bind_eq_some_iff.mp hrun
  by_cases hb : b = newline
  · rw [FramePlace.next, if_pos hb] at hnext
    obtain rfl := Option.some.inj hnext
    refine ⟨{ p with b := b, place := .size 0 }, bs, ?_, ⟨h.running, ?_, by simp⟩, ?_⟩
    · simp [step, hplace, readByte, recvFrom_one, hb]
    · intro i hi
      obtain rfl := Place.size.inj hi
      omega
    · simpa [framePlace, Nat.mod_one] using hrun₁
  · rw [FramePlace.next, if_neg hb] at hnext
    by_cases hroom : p.idx < bufSize
    · rw [if_pos hroom] at hnext
      obtain rfl := Option.some.inj hnext
      refine ⟨{ p with b := b, buff := Function.update p.buff p.idx b, idx := p.idx + 1 }, bs, ?_,
        ⟨h.running, ?_, ?_⟩, ?_⟩
      · simp [step, hplace, readByte, recvFrom_one, hb, hroom]
      · simp [hplace]
      · simp [hplace]
      · simpa [framePlace, hplace] using hrun₁
    · rw [if_neg hroom] at hnext
      cases hnext

theorem Fine.byte {i : Nat} (h : p.Fine) (hplace : p.place = .size i) (hi : i < 8) (hne : bs ≠ [])
    (hrun : (FramePlace.size i (p.fileSize % 256 ^ i)).run bs = some ph) : p.GoesOn n bs ph := by
  obtain ⟨b, bs, rfl⟩ := List.exists_cons_of_ne_nil hne
  obtain ⟨ph₁, hnext, hrun₁⟩ := Option.bind_eq_some_iff.mp hrun
  have hstep : p.step (recvFrom n) (b :: bs) = .on
      { p with b := b, fileSize := setByte p.fileSize i b, place := .size (i + 1) } bs := by
    simp [step, hplace, hi, readByte, recvFrom_one]
  rw [FramePlace.next, ← setByte_mod_succ] at hnext
  refine ⟨_, bs, hstep, ⟨h.running, ?_, by simp⟩, ?_⟩
  · intro k hk
    obtain rfl := Place.size.inj hk
    refine ⟨hi, ?_⟩
    intro h8
    obtain rfl : i = 7 := by omega
    rw [if_neg (Nat.lt_irrefl 8)] at hnext
    by_contra hlt
    rw [if_neg hlt] at hnext
    cases hnext
  · by_cases hlast : i + 1 < 8
    · rw [if_pos hlast] at hnext
      obtain rfl := Option.some.inj hnext
      simpa [framePlace, hlast] using hrun₁
    · obtain rfl : i = 7 := by omega
      rw [if_neg hlast] at hnext
      split at hnext
      · obtain rfl := Option.some.inj hnext
        simpa [framePlace] using hrun₁
      · cases hnext

theorem Fine.payload {size : Int} (h : p.Fine) (hplace : p.place = .data size) (hsize : size ≠ 0)
    (hne : bs ≠ []) (hrun : (FramePlace.left size.toNat).run bs = some ph) : p.GoesOn n bs ph := by
  have hpos := h.data size hplace
  obtain ⟨k, hk, hkpos, hle⟩ : ∃ k, (if 4096 < size ∨ size < 0 then 4096 else size.toNat) = k
      ∧ 0 < k ∧ k ≤ size.toNat := by
    refine ⟨_, rfl, ?_, ?_⟩ <;> split <;> omega
  obtain ⟨xs, hxs⟩ : ∃ xs, bs.take (min k (n + 1)) = xs := ⟨_, rfl⟩
  have hrest : xs ++ bs.drop (min k (n + 1)) = bs := by
    rw [← hxs, List.take_append_drop]
  have hlen : xs.length ≤ size.toNat := by
    rw [← hxs, List.length_take]
    omega
  have hxne : xs ≠ [] := by
    have := List.length_pos_of_ne_nil hne
    rw [← hxs]
    refine List.ne_nil_of_length_pos ?_
    rw [List.length_take]
    omega
  obtain ⟨b, cs, rfl⟩ := List.exists_cons_of_ne_nil hxne
  have hgot : recvFrom n k bs = (.data (b :: cs), bs.drop (min k (n + 1))) := by
    rw [recvFrom, hxs]
  rw [← hrest, FramePlace.run_append, FramePlace.run_left hlen, Option.bind_some] at hrun
  refine ⟨{ p with output := p.output ++ b :: cs, place := .data (size - (cs.length + 1)) },
    bs.drop (min k (n + 1)), ?_, ⟨h.running, by simp, ?_⟩, ?_⟩
  · simp only [step, hplace, if_neg hsize, hk, hgot]
  · intro size' hsize'
    obtain rfl := Place.data.inj hsize'
    rw [List.length_cons] at hlen
    omega
  · have hleft : (size - ((cs.length : Int) + 1)).toNat = size.toNat - (b :: cs).length := by
      rw [List.length_cons]
      omega
    simp only [framePlace, hleft]
    exact hrun

/-- **One step.** The thread goes on, and what is left leads where it led. -/
theorem Fine.step (h : p.Fine) (hrun : p.framePlace.run bs = some ph)
    (hread : p.reads = true → bs ≠ []) : p.GoesOn n bs ph := by
  unfold framePlace at hrun
  unfold reads at hread
  cases hplace : p.place with
  | loop =>
      rw [hplace] at hrun
      refine ⟨{ p with place := .line }, bs, ?_, ⟨h.running, by simp, by simp⟩, hrun⟩
      simp only [Printer.step, hplace, h.running, if_true]
  | line =>
      rw [hplace] at hrun hread
      exact h.line hplace (hread rfl) hrun
  | size i =>
      simp only [hplace] at hrun hread
      obtain ⟨hi, hlt⟩ := h.size i hplace
      by_cases hi8 : i < 8
      · rw [if_pos hi8] at hrun
        exact h.byte hplace hi8 (hread (by simp [hi8])) hrun
      · obtain rfl : i = 8 := by omega
        have hsize : asSigned p.fileSize = (p.fileSize % 256 ^ 8 : Nat) := by
          have hlt := hlt rfl
          rw [show (256 : Nat) ^ 8 = 2 ^ 64 by decide] at hlt ⊢
          rw [asSigned, if_pos hlt]
        refine ⟨{ p with place := .data (asSigned p.fileSize) }, bs, ?_, ⟨h.running, by simp, ?_⟩, ?_⟩
        · simp only [Printer.step, hplace, Nat.lt_irrefl, if_false]
        · intro size hd
          obtain rfl := Place.data.inj hd
          rw [hsize]
          exact Int.natCast_nonneg _
        · rw [if_neg hi8] at hrun
          simp only [framePlace, hsize, Int.toNat_natCast]
          exact hrun
  | data size =>
      rw [hplace] at hrun hread
      by_cases h0 : size = 0
      · subst h0
        refine ⟨{ p with idx := 0, place := .loop }, bs, ?_, ⟨h.running, by simp, by simp⟩, hrun⟩
        simp only [Printer.step, hplace, if_true]
      · exact h.payload hplace h0 (hread (by simp [h0])) hrun

end Printer

/-! ## The connection -/

/-- What the buffer leads to. -/
def PutPart.behind : PutPart → FramePlace
  | .header _ => .size 0 0
  | .size fileSize | .block fileSize => .left fileSize

/-- A size that is still to be written is the size of a file. -/
def PutPart.sized : PutPart → Prop
  | .header fileSize => fileSize < 2 ^ 63
  | _ => True

/-- The master goes on with a frame to `j` at `ph`. -/
def MasterPlace.GoesOn {ι : Type*} [DecidableEq ι] (j : ι) (ph : FramePlace) : MasterPlace ι → Prop
  | .serving => ph = .line 0
  | .writing dst buffer part =>
      if dst = j then ph.run buffer = some part.behind ∧ part.sized else ph = .line 0
  | .looping dst fileSize => if dst = j then ph = .left fileSize else ph = .line 0

theorem PutPart.next_goesOn {ι : Type*} [DecidableEq ι] {part : PutPart} (j : ι)
    (h : part.sized) : (part.next j).GoesOn j part.behind := by
  cases part with
  | header fileSize =>
      simp only [PutPart.next, MasterPlace.GoesOn, if_true]
      exact ⟨FramePlace.run_sizeBytes h, trivial⟩
  | size fileSize | block fileSize =>
      simp only [PutPart.next, MasterPlace.GoesOn, if_true, PutPart.behind]

theorem PutPart.next_other {ι : Type*} [DecidableEq ι] {part : PutPart} {i j : ι} (h : i ≠ j) :
    (part.next i).GoesOn j (.line 0) := by
  cases part <;> simp only [PutPart.next, MasterPlace.GoesOn, if_neg h]

namespace Cluster

open Transition

variable {ι : Type*} [DecidableEq ι] {links : Links ι} {exec : ι → Bytes → Bytes}
  {s s' s₀ : Cluster ι} {e : ClusterEvent ι} {i j : ι} {ph : FramePlace}

/-- A `do_put` to an interface is one of a file whose name fits into a header,
and is not cut short. -/
def Whole (s : Cluster ι) : ClusterEvent ι → Cluster ι → Prop
  | .doPut dst name fileSize, _ => (∃ p, s.peers dst = .interface p) →
      newline ∉ name ∧ name.length + 4 ≤ bufSize ∧ fileSize < 2 ^ 63
  | .readFails, _ => ∀ dst fileSize p, s.master = .looping dst fileSize → s.peers dst ≠ .interface p
  | _, _ => True

/-- What is on the way to `j` leads from where its reader is to where the
master is. -/
def FramedAt (s : Cluster ι) (j : ι) : Prop :=
  ∀ p, s.peers j = .interface p →
    p.Fine ∧ ∃ ph, p.framePlace.run (s.down j) = some ph ∧ s.master.GoesOn j ph

/-- No interface has ended, and all that is on the way to one is framed. -/
def Framed (s : Cluster ι) : Prop := ∀ j, s.peers j ≠ .gone ∧ s.FramedAt j

theorem Initial.framed (h : Initial s) : s.Framed := by
  intro j
  rcases h.peers j with ⟨resolve, store, hw⟩ | ⟨mem, b, hi⟩
  · refine ⟨by simp [hw], ?_⟩
    intro p hp
    cases hw.symm.trans hp
  · refine ⟨by simp [hi], ?_⟩
    intro p hp
    obtain rfl := Peer.interface.inj (hi.symm.trans hp)
    refine ⟨⟨rfl, by simp [Printer.start], by simp [Printer.start]⟩, .line 0, ?_, ?_⟩
    · rw [h.down j]
      rfl
    · rw [h.master]
      rfl

theorem FramedAt.doPut {name : Bytes} {fileSize : Nat} (h : s.FramedAt j) (hm : s.master = .serving)
    (hc : s.Whole (.doPut i name fileSize) s') :
    FramedAt { s with master := .writing i (putHeader name) (.header fileSize) } j := by
  intro p hp
  obtain ⟨hfine, ph, hrun, hgo⟩ := h p hp
  rw [hm] at hgo
  refine ⟨hfine, ph, hrun, ?_⟩
  simp only [MasterPlace.GoesOn]
  split
  · rename_i hij
    obtain ⟨hnl, hlen, hsize⟩ := hc ⟨p, hij ▸ hp⟩
    refine ⟨?_, hsize⟩
    rw [hgo]
    exact FramePlace.run_putHeader hnl hlen
  · exact hgo

theorem FramedAt.write {k : Nat} {buffer : Bytes} {part : PutPart} (h : s.FramedAt j)
    (hm : s.master = .writing i buffer part) :
    FramedAt { s with
      down := Function.update s.down i (s.down i ++ buffer.take k)
      master := if buffer.drop k = [] then part.next i else .writing i (buffer.drop k) part } j := by
  intro p hp
  obtain ⟨hfine, ph, hrun, hgo⟩ := h p hp
  rw [hm] at hgo
  simp only [MasterPlace.GoesOn] at hgo
  by_cases hij : i = j
  · subst hij
    rw [if_pos rfl, ← List.take_append_drop k buffer] at hgo
    obtain ⟨⟨ph₁, htake, hdrop⟩, hsized⟩ := And.imp_left FramePlace.run_split hgo
    refine ⟨hfine, ph₁, ?_, ?_⟩
    · simp only [Function.update_self, FramePlace.run_append, hrun]
      exact htake
    · split
      · rename_i hnil
        rw [hnil] at hdrop
        obtain rfl := Option.some.inj hdrop
        exact part.next_goesOn i hsized
      · simp only [MasterPlace.GoesOn, if_true]
        exact ⟨hdrop, hsized⟩
  · rw [if_neg hij] at hgo
    subst hgo
    refine ⟨hfine, .line 0, ?_, ?_⟩
    · simp only [Function.update_of_ne (Ne.symm hij)]
      exact hrun
    · split
      · exact part.next_other hij
      · simp only [MasterPlace.GoesOn, if_neg hij]

theorem FramedAt.block {fileSize : Nat} {block : Bytes} (h : s.FramedAt j)
    (hm : s.master = .looping i fileSize) (hle : block.length ≤ fileSize) :
    FramedAt { s with master := .writing i block (.block (fileSize - block.length)) } j := by
  intro p hp
  obtain ⟨hfine, ph, hrun, hgo⟩ := h p hp
  rw [hm] at hgo
  refine ⟨hfine, ph, hrun, ?_⟩
  simp only [MasterPlace.GoesOn] at hgo ⊢
  split
  · rename_i hij
    rw [if_pos hij] at hgo
    rw [hgo]
    exact ⟨FramePlace.run_left hle, trivial⟩
  · rename_i hij
    rwa [if_neg hij] at hgo

theorem FramedAt.serving (h : s.FramedAt j)
    (hm : ∀ p ph, s.peers j = .interface p → s.master.GoesOn j ph → ph = .line 0) :
    FramedAt { s with master := .serving } j := by
  intro p hp
  obtain ⟨hfine, ph, hrun, hgo⟩ := h p hp
  exact ⟨hfine, ph, hrun, hm p ph hp hgo⟩

/-- **One step** of the master, of a worker or of an interface keeps what is on the
way to the interfaces framed, as long as the master sends whole frames. -/
theorem Framed.step (h : s.Framed) (hs : Step links exec s e s') (hc : s.Whole e s') : s'.Framed := by
  intro i
  obtain ⟨hgone, hi⟩ := h i
  cases hs.case with
  | receive j n hm => exact ⟨hgone, hi⟩
  | submit j bs p hp hroom => exact ⟨hgone, hi⟩
  | doPut dst name fileSize hm => exact ⟨hgone, hi.doPut hm hc⟩
  | write n k dst buffer part hm hk => exact ⟨hgone, hi.write hm⟩
  | done dst block hm =>
      refine ⟨hgone, hi.serving fun p ph hp hgo => ?_⟩
      rw [hm] at hgo
      simp only [MasterPlace.GoesOn] at hgo
      split at hgo <;> exact hgo
  | block dst fileSize block hm hne hle => exact ⟨hgone, hi.block hm hle⟩
  | readFails dst fileSize hm =>
      refine ⟨hgone, hi.serving fun p ph hp hgo => ?_⟩
      have hdst : dst ≠ i := fun heq => hc dst fileSize p hm (heq ▸ hp)
      rw [hm] at hgo
      simpa only [MasterPlace.GoesOn, if_neg hdst] using hgo
  | writeFails dst buffer part hm hend =>
      refine ⟨hgone, hi.serving fun p ph hp hgo => ?_⟩
      have hdst : dst ≠ i := by
        rintro rfl
        rw [hp] at hend
        exact hend trivial
      rw [hm] at hgo
      simpa only [MasterPlace.GoesOn, if_neg hdst] using hgo
  | worker j we p p' inbox out hp hstep =>
      by_cases hij : i = j
      · subst hij
        refine ⟨by simp [setPeer], ?_⟩
        intro q hq
        simp [setPeer] at hq
      · refine ⟨by simpa [setPeer, Function.update_of_ne hij] using hgone, ?_⟩
        intro q hq
        simp only [setPeer, Function.update_of_ne hij] at hq ⊢
        exact hi q hq
  | output j n p p' bs hp hread hstep =>
      by_cases hij : i = j
      · subst hij
        obtain ⟨hfine, ph, hrun, hgo⟩ := hi p hp
        obtain ⟨p₁, bs₁, hon, hfine₁, hrun₁⟩ := hfine.step hrun hread
        obtain ⟨rfl, rfl⟩ := Reached.on.inj (hstep.symm.trans hon)
        refine ⟨by simp [setPeer], ?_⟩
        intro q hq
        simp only [setPeer, Function.update_self] at hq ⊢
        obtain rfl := Peer.interface.inj hq
        exact ⟨hfine₁, ph, hrun₁, hgo⟩
      · refine ⟨by simpa [setPeer, Function.update_of_ne hij] using hgone, ?_⟩
        intro q hq
        simp only [setPeer, Function.update_of_ne hij] at hq ⊢
        exact hi q hq
  | ended j n p hp hread hstep =>
      obtain ⟨hfine, ph, hrun, -⟩ := (h j).2 p hp
      obtain ⟨p₁, bs₁, hon, -⟩ := hfine.step hrun hread
      exact (hstep p₁ bs₁ hon).elim

theorem interface_stays (h0 : s₀.Initial) (h : Reach (Within (Step links exec) Whole) s₀ s) (j : ι) :
    s.peers j ≠ .gone :=
  (h.invariant h0.framed (fun _ _ _ _ hi hs => hi.step hs.1 hs.2) j).1

/-- One interface, with what is on the way to it. -/
def listening (m : MasterPlace Unit) (p : Printer) (d : Bytes) : Cluster Unit :=
  ⟨m, fun _ => .interface p, fun _ => d, fun _ => []⟩

end Cluster

end KeyLime
