import KeyLime.Senders
import KeyLime.Streams

/-!
# The interface's receiver

`output_reciever` and the loop of `write_all_from_socket_to_fd` it hands each
size to, one system call a step. How the bytes are cut into reads is the
choice of the other side, and so is what memory `buff` and `b` are made of.

From the frames of the master it prints the payloads (`prints_all`): a line
(`gets_line`), eight bytes of size (`gets_size`), and reads of the payload until
the size has come down to 0 (`gets_data`) make a frame, and the thread is then
where it began (`gets_frame`).

At the end of a stream it does not do so well. None of its single-byte reads
looks at what `read` returned, so behind the end it goes on with the byte it has
had last. If that is no newline, it fills `buff` with it and beyond; if it is
one, there is a header and a size after the other, made of newlines, and no end
(`never_survives`). The size is read into a signed variable, and sizes from
2 ^ 63 on are outside of what is shown of whole frames.

Writes to standard output are complete.
-/

namespace KeyLime

open Intake

/-- The point a thread in `output_reciever` has come to: the condition of the
outer loop, a read of the header, byte `i` of the size, or the loop of
`write_all_from_socket_to_fd`. -/
inductive Place where
  | loop
  | line
  | size (i : Nat)
  | data (size : Int)
deriving DecidableEq, Repr

/-- How far the next header is, when there is nothing more to read. -/
def Place.rank : Place → Nat
  | .line => 0
  | .loop => 1
  | .data _ => 2
  | .size i => 3 + (8 - i)

structure Printer where
  running : Bool
  place : Place
  buff : Nat → UInt8
  idx : Nat
  b : UInt8
  fileSize : Nat
  /-- What has been written to standard output. -/
  output : Bytes

/-- What a step comes to: `pthread_exit`, or a write outside of `buff`, or a
state of the thread and of what it reads from. -/
inductive Reached (σ : Type*) where
  | on (p : Printer) (s : σ)
  | exited
  | outside

namespace Printer

section
variable {σ : Type*} (read : Nat → σ → Got UInt8 × σ)

/-- `read(sockFd, &b, 1)`, whose result is not looked at. -/
def readByte (p : Printer) (s : σ) : Printer × σ :=
  match read 1 s with
  | (.data (b :: _), s) => ({ p with b := b }, s)
  | (_, s) => (p, s)

def step (p : Printer) (s : σ) : Reached σ :=
  match p.place with
  | .loop => if p.running = true then .on { p with place := .line } s else .exited
  | .line =>
      let (p, s) := p.readByte read s
      if p.b ≠ newline then
        if p.idx < bufSize then
          .on { p with buff := Function.update p.buff p.idx p.b, idx := p.idx + 1 } s
        else .outside
      else .on { p with place := .size 0 } s
  | .size i =>
      if i < 8 then
        let (p, s) := p.readByte read s
        .on { p with fileSize := setByte p.fileSize i p.b, place := .size (i + 1) } s
      else .on { p with place := .data (asSigned p.fileSize) } s
  | .data size =>
      if size = 0 then .on { p with idx := 0, place := .loop } s
      else
        match read (if 4096 < size ∨ size < 0 then 4096 else size.toNat) s with
        | (.data [], s) | (.err, s) => .on { p with idx := 0, place := .loop } s
        | (.intr, s) => .on p s
        | (.data (b :: bs), s) =>
            .on { p with output := p.output ++ b :: bs, place := .data (size - (bs.length + 1)) } s

def run : Nat → Printer → σ → Reached σ
  | 0, p, s => .on p s
  | n + 1, p, s =>
      match p.step read s with
      | .on p s => run n p s
      | r => r

end

/-- What every read returns behind the end of the stream. -/
inductive Stop where
  | eof
  | err

def Stop.got : Stop → Got UInt8
  | .eof => .data []
  | .err => .err

/-- A `read` off the socket. -/
def recv (e : Stop) (n : Nat) : List (Arrival UInt8) → Got UInt8 × List (Arrival UInt8)
  | [] => (e.got, [])
  | s => Intake.read n s

/-- The thread when it starts: `buff` and `b` are not initialised. -/
def start (mem : Nat → UInt8) (b : UInt8) : Printer :=
  { running := true, place := .loop, buff := mem, idx := 0, b := b, fileSize := 0, output := [] }

section
variable {σ : Type*} {read : Nat → σ → Got UInt8 × σ} {p p' p'' : Printer} {s s' s'' : σ} {n k : Nat}

theorem run_add (h : run read n p s = .on p' s') : run read (n + k) p s = run read k p' s' := by
  induction n generalizing p s with
  | zero =>
      cases h
      rw [Nat.zero_add]
  | succ n ih =>
      rw [run] at h
      rw [Nat.succ_add, run]
      cases hstep : p.step read s with
      | on p₁ s₁ =>
          rw [hstep] at h
          exact ih h
      | exited =>
          rw [hstep] at h
          cases h
      | outside =>
          rw [hstep] at h
          cases h

theorem run_spec {f : Printer → σ → Bool}
    (h : (match run read n p s with | .on p s => f p s | _ => false) = true) :
    ∃ p' s', run read n p s = .on p' s' ∧ f p' s' = true := by
  cases hr : run read n p s with
  | on p' s' =>
      rw [hr] at h
      exact ⟨p', s', rfl, h⟩
  | exited =>
      rw [hr] at h
      cases h
  | outside =>
      rw [hr] at h
      cases h

def Gets (read : Nat → σ → Got UInt8 × σ) (p : Printer) (s : σ) (p' : Printer) (s' : σ) : Prop :=
  ∃ n, run read n p s = .on p' s'

theorem Gets.refl : Gets read p s p s := ⟨0, rfl⟩

theorem Gets.trans (h : Gets read p s p' s') (h' : Gets read p' s' p'' s'') :
    Gets read p s p'' s'' := by
  obtain ⟨n, hn⟩ := h
  obtain ⟨k, hk⟩ := h'
  exact ⟨n + k, (run_add hn).trans hk⟩

theorem Gets.of_step (h : p.step read s = .on p' s') : Gets read p s p' s' := ⟨1, by rw [run, h]; rfl⟩

theorem Gets.step (h : p.step read s = .on p' s') (h' : Gets read p' s' p'' s'') :
    Gets read p s p'' s'' := (Gets.of_step h).trans h'

end

variable {e : Stop} {p p' : Printer} {s s' : List (Arrival UInt8)} {rest bs payload : Bytes}
  {n : Nat} {frames : List (Bytes × Bytes)} {bss : List Bytes} {f : Bytes × Bytes}

/-! ## Whole streams -/

/-- Bytes, in whatever pieces, and nothing that interrupts. -/
def Plain (s : List (Arrival UInt8)) : Prop := Arrival.intr ∉ s ∧ Arrival.err ∉ s

theorem recv_some (e : Stop) (hs : Plain s) (hin : incoming s ≠ []) (hn : 0 < n) :
    ∃ b bs s', recv e n s = (.data (b :: bs), s') ∧ incoming s = b :: bs ++ incoming s'
      ∧ bs.length + 1 ≤ n ∧ Plain s' := by
  obtain ⟨n, rfl⟩ : ∃ k, n = k + 1 := ⟨n - 1, by omega⟩
  cases s with
  | nil => exact (hin rfl).elim
  | cons x s =>
      obtain ⟨hintr, herr⟩ := hs
      simp only [List.mem_cons, not_or] at hintr herr
      cases x with
      | intr => exact (hintr.1 rfl).elim
      | err => exact (herr.1 rfl).elim
      | chunk a as =>
          refine ⟨a, as.take n, unread (as.drop n) s, rfl, ?_, ?_, ?_, ?_⟩
          · rw [incoming_unread, ← List.append_assoc, List.cons_append, List.take_append_drop]
            rfl
          · rw [List.length_take]
            omega
          · intro h
            cases hd : as.drop n with
            | nil => exact hintr.2 (by rwa [hd] at h)
            | cons c cs => exact hintr.2 (by simpa [hd, unread] using h)
          · exact fun h => herr.2 (err_mem_unread.mp h)

theorem recv_one (e : Stop) {b : UInt8} (hs : Plain s) (hin : incoming s = b :: rest) :
    ∃ s', recv e 1 s = (.data [b], s') ∧ incoming s' = rest ∧ Plain s' := by
  obtain ⟨c, cs, s', hread, hall, hlen, hs'⟩ :=
    recv_some e hs (by rw [hin]; exact List.cons_ne_nil _ _) Nat.one_pos
  obtain rfl : cs = [] := List.eq_nil_of_length_eq_zero (by omega)
  rw [hin] at hall
  obtain ⟨rfl, rfl⟩ := List.cons.inj hall
  exact ⟨s', hread, rfl, hs'⟩

theorem gets_line (hs : Plain s) (hplace : p.place = .line) (hnl : newline ∉ bs)
    (hin : incoming s = bs ++ newline :: rest) (hroom : p.idx + bs.length ≤ bufSize) :
    ∃ p' s', Gets (recv e) p s p' s' ∧ p'.place = .size 0 ∧ p'.running = p.running
      ∧ p'.output = p.output ∧ incoming s' = rest ∧ Plain s' := by
  induction bs generalizing p s with
  | nil =>
      obtain ⟨s', hread, hin', hs'⟩ := recv_one e hs hin
      refine ⟨{ p with b := newline, place := .size 0 }, s', .of_step ?_, rfl, rfl, rfl, hin', hs'⟩
      simp only [step, hplace, readByte, hread]
      rfl
  | cons b bs ih =>
      obtain ⟨hb, hnl⟩ := not_or.mp (mt List.mem_cons.mpr hnl)
      obtain ⟨s₁, hread, hin₁, hs₁⟩ := recv_one e hs hin
      rw [List.length_cons] at hroom
      have hstep : p.step (recv e) s = .on
          { p with b := b, buff := Function.update p.buff p.idx b, idx := p.idx + 1 } s₁ := by
        simp only [step, hplace, readByte, hread]
        rw [if_pos (Ne.symm hb), if_pos (by omega)]
      obtain ⟨p', s', hgets, hplace', hrun, hout, hin', hs'⟩ :=
        ih (p := { p with b := b, buff := Function.update p.buff p.idx b, idx := p.idx + 1 })
          hs₁ hplace hnl hin₁ (by show p.idx + 1 + bs.length ≤ bufSize; omega)
      exact ⟨p', s', .step hstep hgets, hplace', hrun, hout, hin', hs'⟩

theorem setByte_mod_pow {x m i : Nat} (h : x % 256 ^ i = m % 256 ^ i) :
    setByte x i (UInt8.ofNat (m / 256 ^ i)) % 256 ^ (i + 1) = m % 256 ^ (i + 1) := by
  have hpow : 0 < 256 ^ i := Nat.pow_pos (by decide)
  have hmod := setByte_mod m i
  have hzero : m % 256 ^ i / 256 ^ (i + 1) = 0 := by
    refine Nat.div_eq_of_lt (Nat.lt_of_lt_of_le (Nat.mod_lt _ hpow) ?_)
    exact Nat.pow_le_pow_right (by decide) (Nat.le_succ i)
  rw [setByte, hzero, Nat.zero_mul, Nat.add_zero, Nat.mod_mod] at hmod
  rw [setByte, h, hmod, Nat.add_mul_mod_self_right, Nat.mod_mod]

theorem gets_size {m i : Nat} (hs : Plain s) (hi : i ≤ 8) (hplace : p.place = .size i)
    (hsize : p.fileSize % 256 ^ i = m % 256 ^ i) (hin : incoming s = (sizeBytes m).drop i ++ rest) :
    ∃ p' s', Gets (recv e) p s p' s' ∧ p'.place = .data (asSigned m) ∧ p'.running = p.running
      ∧ p'.output = p.output ∧ incoming s' = rest ∧ Plain s' := by
  obtain ⟨k, hk⟩ : ∃ k, 8 - i = k := ⟨_, rfl⟩
  induction k generalizing p s i with
  | zero =>
      obtain rfl : i = 8 := by omega
      have hdrop : (sizeBytes m).drop 8 = [] :=
        List.drop_eq_nil_of_le (Nat.le_of_eq (sizeBytes_length m))
      have hval : asSigned p.fileSize = asSigned m := by
        rw [asSigned, asSigned]
        rw [show (256 : Nat) ^ 8 = 2 ^ 64 by decide] at hsize
        rw [hsize]
      refine ⟨{ p with place := .data (asSigned p.fileSize) }, s, .of_step ?_, ?_, rfl, rfl, ?_, hs⟩
      · simp only [step, hplace, Nat.lt_irrefl, if_false]
      · rw [hval]
      · rw [hin, hdrop, List.nil_append]
  | succ k ih =>
      have hlt : i < (sizeBytes m).length := by
        rw [sizeBytes_length]
        omega
      have hbyte : (sizeBytes m)[i] = UInt8.ofNat (m / 256 ^ i) := by simp [sizeBytes]
      rw [List.drop_eq_getElem_cons hlt, hbyte, List.cons_append] at hin
      obtain ⟨s₁, hread, hin₁, hs₁⟩ := recv_one e hs hin
      have hstep : p.step (recv e) s = .on
          { p with b := UInt8.ofNat (m / 256 ^ i), place := .size (i + 1)
                   fileSize := setByte p.fileSize i (UInt8.ofNat (m / 256 ^ i)) } s₁ := by
        simp only [step, hplace, readByte, hread]
        rw [if_pos (by omega)]
      obtain ⟨p', s', hgets, hrest⟩ :=
        ih (p := { p with b := UInt8.ofNat (m / 256 ^ i), place := .size (i + 1)
                          fileSize := setByte p.fileSize i (UInt8.ofNat (m / 256 ^ i)) })
          hs₁ (by omega) rfl (setByte_mod_pow hsize) hin₁ (by omega)
      exact ⟨p', s', .step hstep hgets, hrest⟩

theorem gets_data (hs : Plain s) (hplace : p.place = .data payload.length)
    (hin : incoming s = payload ++ rest) :
    ∃ p' s', Gets (recv e) p s p' s' ∧ p'.place = .loop ∧ p'.idx = 0 ∧ p'.running = p.running
      ∧ p'.output = p.output ++ payload ∧ incoming s' = rest ∧ Plain s' := by
  obtain ⟨k, hk⟩ : ∃ k, payload.length ≤ k := ⟨_, Nat.le_refl _⟩
  induction k generalizing p s payload with
  | zero =>
      obtain rfl : payload = [] := List.eq_nil_of_length_eq_zero (by omega)
      refine ⟨{ p with idx := 0, place := .loop }, s, .of_step ?_, rfl, rfl, rfl, ?_, hin, hs⟩
      · simp only [step, hplace]
        rfl
      · rw [List.append_nil]
  | succ k ih =>
      cases payload with
      | nil =>
          refine ⟨{ p with idx := 0, place := .loop }, s, .of_step ?_, rfl, rfl, rfl, ?_, hin, hs⟩
          · simp only [step, hplace]
            rfl
          · rw [List.append_nil]
      | cons a as =>
          have hne : incoming s ≠ [] := by
            rw [hin]
            exact List.cons_ne_nil _ _
          have hlen : ((a :: as).length : Int) ≠ 0 := by
            rw [List.length_cons]
            omega
          have hpos : 0 < if (4096 : Int) < (a :: as).length ∨ ((a :: as).length : Int) < 0 then 4096
              else ((a :: as).length : Int).toNat := by
            split <;> simp
          have hmax : (if (4096 : Int) < (a :: as).length ∨ ((a :: as).length : Int) < 0 then 4096
              else ((a :: as).length : Int).toNat) ≤ (a :: as).length := by
            split <;> omega
          obtain ⟨b, bs, s₁, hread, hall, hle, hs₁⟩ := recv_some e hs hne hpos
          -- The block that was read is the front of the payload.
          have hfront : b :: bs <+: incoming s := ⟨_, hall.symm⟩
          have hpayload : a :: as <+: incoming s := ⟨_, hin.symm⟩
          obtain ⟨left, hleft⟩ : b :: bs <+: a :: as :=
            List.prefix_of_prefix_length_le hfront hpayload (by rw [List.length_cons]; omega)
          have hrest : incoming s₁ = left ++ rest := by
            rw [hall, ← hleft, List.append_assoc] at hin
            exact List.append_cancel_left hin
          have hcount := congrArg List.length hleft
          simp only [List.length_append, List.length_cons] at hcount
          have hstep : p.step (recv e) s = .on
              { p with output := p.output ++ b :: bs, place := .data left.length } s₁ := by
            simp only [step, hplace, if_neg hlen, hread]
            congr 3
            rw [List.length_cons]
            omega
          obtain ⟨p', s', hgets, hloop, hidx, hrun, hout, hin', hs'⟩ :=
            ih (p := { p with output := p.output ++ b :: bs, place := .data left.length })
              hs₁ rfl hrest (by simp only [List.length_cons] at hk; omega)
          refine ⟨p', s', .step hstep hgets, hloop, hidx, hrun, ?_, hin', hs'⟩
          rw [hout, List.append_assoc, hleft]

/-- The state in which a header is about to be read. -/
structure AtHeader (p : Printer) : Prop where
  place : p.place = .line
  idx : p.idx = 0
  running : p.running = true

theorem gets_frame (hs : Plain s) (hp : p.AtHeader) (hnl : newline ∉ f.1)
    (hhead : (putHeader f.1).length ≤ 1024) (hlt : f.2.length < 2 ^ 63)
    (hin : incoming s = putFrame f ++ rest) :
    ∃ p' s', Gets (recv e) p s p' s' ∧ p'.AtHeader ∧ p'.output = p.output ++ f.2
      ∧ incoming s' = rest ∧ Plain s' := by
  have hnl' : newline ∉ putVerb ++ [space] ++ f.1 := by
    simp only [List.mem_append, not_or]
    exact ⟨⟨by decide, by decide⟩, hnl⟩
  have hin₀ : incoming s =
      (putVerb ++ [space] ++ f.1) ++ newline :: (sizeBytes f.2.length ++ f.2 ++ rest) := by
    rw [hin]
    simp [putFrame, putHeader]
  have hroom : p.idx + (putVerb ++ [space] ++ f.1).length ≤ bufSize := by
    rw [putHeader, List.length_append] at hhead
    rw [hp.idx, bufSize]
    omega
  obtain ⟨p₁, s₁, h₁, hplace₁, hrun₁, hout₁, hin₁, hs₁⟩ :=
    gets_line (e := e) hs hp.place hnl' hin₀ hroom
  obtain ⟨p₂, s₂, h₂, hplace₂, hrun₂, hout₂, hin₂, hs₂⟩ :=
    gets_size (e := e) (m := f.2.length) hs₁ (Nat.zero_le 8) hplace₁
      (by rw [Nat.pow_zero, Nat.mod_one, Nat.mod_one]) (by rw [hin₁, List.append_assoc]; rfl)
  rw [asSigned_of_lt hlt] at hplace₂
  obtain ⟨p₃, s₃, h₃, hplace₃, hidx₃, hrun₃, hout₃, hin₃, hs₃⟩ :=
    gets_data (e := e) hs₂ hplace₂ hin₂
  have hrun : p₃.running = true := by rw [hrun₃, hrun₂, hrun₁, hp.running]
  have hloop : p₃.step (recv e) s₃ = .on { p₃ with place := .line } s₃ := by
    simp only [step, hplace₃, hrun, if_true]
  refine ⟨{ p₃ with place := .line }, s₃, (h₁.trans (h₂.trans h₃)).trans (.of_step hloop),
    ⟨rfl, hidx₃, hrun⟩, ?_, hin₃, hs₃⟩
  show p₃.output = _
  rw [hout₃, hout₂, hout₁]

theorem gets_frames (hframes : ∀ f ∈ frames, newline ∉ f.1 ∧ (putHeader f.1).length ≤ 1024
      ∧ f.2.length < 2 ^ 63) (hs : Plain s) (hp : p.AtHeader)
    (hin : incoming s = (frames.map putFrame).flatten ++ rest) :
    ∃ p' s', Gets (recv e) p s p' s' ∧ p'.AtHeader
      ∧ p'.output = p.output ++ (frames.map Prod.snd).flatten ∧ incoming s' = rest ∧ Plain s' := by
  induction frames generalizing p s with
  | nil => exact ⟨p, s, .refl, hp, (List.append_nil _).symm, hin, hs⟩
  | cons f frames ih =>
      obtain ⟨hnl, hhead, hlt⟩ := hframes f List.mem_cons_self
      rw [List.map_cons, List.flatten_cons, List.append_assoc] at hin
      obtain ⟨p₁, s₁, h₁, hp₁, hout₁, hin₁, hs₁⟩ := gets_frame (e := e) hs hp hnl hhead hlt hin
      obtain ⟨p', s', h', hp', hout', hin', hs'⟩ :=
        ih (fun f hf => hframes f (List.mem_cons_of_mem _ hf)) hs₁ hp₁ hin₁
      refine ⟨p', s', h₁.trans h', hp', ?_, hin', hs'⟩
      rw [hout', hout₁, List.map_cons, List.flatten_cons, List.append_assoc]

/-- **The interface's receiver stays in frame.** From the frames of any list,
however they are cut into reads, it prints the payloads in order, and behind
each frame it is about to read a header. -/
theorem prints_all (mem : Nat → UInt8) (b : UInt8) (hputs : List.Forall₂ PutWrites frames bss)
    (hframes : ∀ f ∈ frames, newline ∉ f.1 ∧ (putHeader f.1).length ≤ 1024 ∧ f.2.length < 2 ^ 63)
    (hs : Plain s) (hin : incoming s = bss.flatten) (pre post : List (Bytes × Bytes))
    (hpre : frames = pre ++ post) :
    ∃ n p s', run (recv e) n (start mem b) s = .on p s' ∧ p.place = .line ∧ p.idx = 0
      ∧ p.output = (pre.map Prod.snd).flatten ∧ incoming s' = (post.map putFrame).flatten := by
  rw [flatten_eq hputs, hpre, List.map_append, List.flatten_append] at hin
  have hloop : (start mem b).step (recv e) s = .on { start mem b with place := .line } s := rfl
  obtain ⟨p, s', hgets, hp, hout, hin', -⟩ :=
    gets_frames (e := e) (p := { start mem b with place := .line })
      (fun f hf => hframes f (hpre ▸ List.mem_append_left _ hf)) hs ⟨rfl, rfl, rfl⟩ hin
  obtain ⟨n, hn⟩ := Gets.step hloop hgets
  exact ⟨n, p, s', hn, hp.place, hp.idx, hout, hin'⟩

/-- An empty result and one of two bytes, read in three pieces. -/
theorem prints_two :
    ∃ n p s', run (recv .eof) n (start (fun _ => 0) 0)
        [.chunk 80 [85, 84], .chunk 32 ([97, 10] ++ sizeBytes 0 ++ [80, 85, 84, 32, 98, 10, 2]),
          .chunk 0 [0, 0, 0, 0, 0, 0, 7, 8]] = .on p s' ∧ p.place = .line ∧ p.idx = 0
      ∧ p.output = [7, 8] ∧ incoming s' = [] := by
  have hputs : List.Forall₂ PutWrites [([97], []), ([98], [7, 8])]
      [putFrame ([97], []), putFrame ([98], [7, 8])] := by
    refine .cons ?_ (.cons ?_ .nil)
    · exact .of_computed (storedKernel [97] []) 3 (storedRecord [97]) {} rfl rfl rfl rfl rfl
        (by decide +kernel)
    · exact .of_computed (storedKernel [98] [7, 8]) 3 (storedRecord [98]) {} rfl rfl rfl rfl rfl
        (by decide +kernel)
  exact prints_all (fun _ => 0) 0 hputs (by decide) ⟨by decide, by decide⟩ (by decide) _ []
    (List.append_nil _).symm

/-! ## The end of the stream -/

/-- What `output_reciever` should do with a stream that is cut off: stop some
time, stay inside of `buff`, and print what has come of the payloads. -/
def Survives (e : Stop) (p : Printer) (s : List (Arrival UInt8)) (arrived : Bytes) : Prop :=
  (∃ n, run (recv e) n p s = .exited) ∧ (∀ n, run (recv e) n p s ≠ .outside)
    ∧ ∀ n p' s', run (recv e) n p s = .on p' s' → p'.output <+: p.output ++ arrived

theorem readByte_end (e : Stop) (p : Printer) : p.readByte (recv e) [] = (p, []) := by
  cases e <;> rfl

theorem step_running (h : p.running = true) :
    p.step (recv e) s = .outside
      ∨ ∃ p' s', p.step (recv e) s = .on p' s' ∧ p'.running = true := by
  have hbyte : (p.readByte (recv e) s).1.running = true := by
    unfold readByte
    split <;> exact h
  unfold step
  split
  · rw [if_pos h]
    exact Or.inr ⟨_, _, rfl, h⟩
  · dsimp only
    split
    · split
      · exact Or.inr ⟨_, _, rfl, hbyte⟩
      · exact Or.inl rfl
    · exact Or.inr ⟨_, _, rfl, hbyte⟩
  · split
    · exact Or.inr ⟨_, _, rfl, hbyte⟩
    · exact Or.inr ⟨_, _, rfl, h⟩
  · split
    · exact Or.inr ⟨_, _, rfl, h⟩
    · split <;> exact Or.inr ⟨_, _, rfl, h⟩

theorem run_ne_exited (h : p.running = true) : run (recv e) n p s ≠ .exited := by
  induction n generalizing p s with
  | zero => simp [run]
  | succ n ih =>
      rw [run]
      rcases step_running (e := e) (s := s) h with hout | ⟨p', s', hon, hrun⟩
      · rw [hout]
        simp
      · rw [hon]
        exact ih hrun

/-- Behind the end of the stream the thread gets from everywhere to a header,
and only a newline gets it further. -/
theorem step_end (hrun : p.running = true) (hb : p.b = newline ∨ p.place ≠ .line) :
    ∃ p', p.step (recv e) [] = .on p' [] ∧ p'.running = true ∧ p'.b = p.b
      ∧ p'.output = p.output ∧ (p.place ≠ .line → p'.place.rank < p.place.rank) := by
  unfold step
  cases hplace : p.place with
  | loop => exact ⟨_, if_pos hrun, hrun, rfl, rfl, fun _ => Nat.zero_lt_one⟩
  | line =>
      have hnl : p.b = newline := hb.resolve_right (fun hne => hne hplace)
      refine ⟨{ p with place := .size 0 }, ?_, hrun, rfl, rfl, fun hne => (hne rfl).elim⟩
      simp only [readByte_end, hnl, ne_eq, not_true_eq_false, if_false]
  | size i =>
      by_cases hi : i < 8
      · refine ⟨{ p with fileSize := setByte p.fileSize i p.b, place := .size (i + 1) }, ?_, hrun,
          rfl, rfl, fun _ => ?_⟩
        · simp only [readByte_end, hi, if_true]
        · simp only [Place.rank]
          omega
      · refine ⟨_, if_neg hi, hrun, rfl, rfl, ?_⟩
        intro _
        simp only [Place.rank]
        omega
  | data size =>
      refine ⟨{ p with idx := 0, place := .loop }, ?_, hrun, rfl, rfl, fun _ => Nat.one_lt_two⟩
      cases e <;> simp [recv, Stop.got]

/-- The header has no end when `b` is not a newline: the byte is stored again
and again, up to the end of `buff` and behind it. -/
theorem outside_of_line (hplace : p.place = .line) (hb : p.b ≠ newline) :
    ∃ n, run (recv e) n p [] = .outside := by
  obtain ⟨k, hk⟩ : ∃ k, bufSize - p.idx = k := ⟨_, rfl⟩
  induction k generalizing p with
  | zero =>
      refine ⟨1, ?_⟩
      simp only [run, step, hplace, readByte_end]
      rw [if_pos hb, if_neg (by omega)]
  | succ k ih =>
      obtain ⟨n, hn⟩ := ih
        (p := { p with buff := Function.update p.buff p.idx p.b, idx := p.idx + 1 }) hplace hb
        (by show bufSize - (p.idx + 1) = k; omega)
      refine ⟨n + 1, ?_⟩
      simp only [run, step, hplace, readByte_end]
      rw [if_pos hb, if_pos (by omega)]
      rw [hplace] at hn
      exact hn

theorem outside_of_end (hrun : p.running = true) (hb : p.b ≠ newline) :
    ∃ n, run (recv e) n p [] = .outside := by
  obtain ⟨k, hk⟩ : ∃ k, p.place.rank = k := ⟨_, rfl⟩
  induction k using Nat.strong_induction_on generalizing p with
  | h k ih =>
      by_cases hplace : p.place = .line
      · exact outside_of_line hplace hb
      · obtain ⟨p', hstep, hrun', hb', -, hrank⟩ := step_end (e := e) hrun (Or.inr hplace)
        obtain ⟨n, hn⟩ := ih _ (hk ▸ hrank hplace) hrun' (hb' ▸ hb) rfl
        exact ⟨n + 1, by rw [run, hstep]; exact hn⟩

/-- With a newline in `b` there is a header and a frame after the other. -/
theorem run_end (hrun : p.running = true) (hb : p.b = newline) (n : Nat) :
    ∃ p', run (recv e) n p [] = .on p' [] ∧ p'.output = p.output := by
  induction n generalizing p with
  | zero => exact ⟨p, rfl, rfl⟩
  | succ n ih =>
      obtain ⟨p₁, hstep, hrun₁, hb₁, hout₁, -⟩ := step_end (e := e) hrun (Or.inl hb)
      obtain ⟨p', hp', hout'⟩ := ih hrun₁ (hb₁.trans hb)
      exact ⟨p', by rw [run, hstep]; exact hp', hout'.trans hout₁⟩

theorem run_running (hrun : p.running = true) (h : run (recv e) n p s = .on p' s') :
    p'.running = true := by
  induction n generalizing p s with
  | zero =>
      cases h
      exact hrun
  | succ n ih =>
      rw [run] at h
      rcases step_running (e := e) (s := s) hrun with hout | ⟨p₁, s₁, hon, hrun₁⟩
      · rw [hout] at h
        cases h
      · rw [hon] at h
        exact ih hrun₁ h

theorem recv_drains (e : Stop) (hs : s ≠ []) (hn : 0 < n) :
    weight (recv e n s).2 < weight s := by
  obtain ⟨n, rfl⟩ : ∃ k, n = k + 1 := ⟨n - 1, by omega⟩
  cases s with
  | nil => exact (hs rfl).elim
  | cons x s =>
      cases x with
      | intr => exact Nat.lt_succ_self _
      | err => exact Nat.lt_succ_self _
      | chunk a as =>
          show weight (unread (as.drop n) s) < as.length + 1 + weight s
          rw [weight_unread, List.length_drop]
          omega

theorem readByte_stream (p : Printer) (s : List (Arrival UInt8)) :
    (p.readByte (recv e) s).2 = (recv e 1 s).2 := by
  unfold readByte
  split <;> (rename_i h; rw [h])

theorem step_drains (hrun : p.running = true) (hs : s ≠ []) :
    p.step (recv e) s = .outside ∨ ∃ p' s', p.step (recv e) s = .on p' s'
      ∧ (weight s' < weight s ∨ weight s' = weight s ∧ p'.place.rank < p.place.rank) := by
  have hbyte : weight (p.readByte (recv e) s).2 < weight s := by
    rw [readByte_stream]
    exact recv_drains e hs Nat.one_pos
  unfold step
  cases hplace : p.place with
  | loop =>
      dsimp only
      rw [if_pos hrun]
      exact Or.inr ⟨_, _, rfl, Or.inr ⟨rfl, Nat.zero_lt_one⟩⟩
  | line =>
      dsimp only
      split
      · split
        · exact Or.inr ⟨_, _, rfl, Or.inl hbyte⟩
        · exact Or.inl rfl
      · exact Or.inr ⟨_, _, rfl, Or.inl hbyte⟩
  | size i =>
      dsimp only
      split
      · exact Or.inr ⟨_, _, rfl, Or.inl hbyte⟩
      · refine Or.inr ⟨_, _, rfl, Or.inr ⟨rfl, ?_⟩⟩
        simp only [Place.rank]
        omega
  | data size =>
      dsimp only
      split
      · exact Or.inr ⟨_, _, rfl, Or.inr ⟨rfl, Nat.one_lt_two⟩⟩
      · rename_i hsize
        have hpos : 0 < if 4096 < size ∨ size < 0 then 4096 else size.toNat := by
          split <;> omega
        have hread := recv_drains e hs hpos
        split <;> (rename_i heq; rw [heq] at hread; exact Or.inr ⟨_, _, rfl, Or.inl hread⟩)

/-- The whole stream is read, unless `buff` is left before. -/
theorem run_drains (hrun : p.running = true) :
    (∃ n, run (recv e) n p s = .outside) ∨ ∃ n p', run (recv e) n p s = .on p' [] := by
  obtain ⟨k, hk⟩ : ∃ k, weight s = k := ⟨_, rfl⟩
  obtain ⟨j, hj⟩ : ∃ j, p.place.rank = j := ⟨_, rfl⟩
  induction k using Nat.strong_induction_on generalizing p s j with
  | h k ihk =>
      induction j using Nat.strong_induction_on generalizing p s with
      | h j ihj =>
          by_cases hs : s = []
          · subst hs
            exact Or.inr ⟨0, p, rfl⟩
          · rcases step_drains (e := e) hrun hs with hout | ⟨p₁, s₁, hstep, hless⟩
            · exact Or.inl ⟨1, by rw [run, hout]⟩
            · have hrun₁ : p₁.running = true :=
                run_running (n := 1) hrun (by rw [run, hstep]; rfl)
              have hnext : (∃ n, run (recv e) n p₁ s₁ = .outside) ∨
                  ∃ n p', run (recv e) n p₁ s₁ = .on p' [] := by
                rcases hless with hlt | ⟨heq, hlt⟩
                · exact ihk _ (hk ▸ hlt) hrun₁ rfl _ rfl
                · exact ihj _ (hj ▸ hlt) hrun₁ (heq.trans hk) rfl
              rcases hnext with ⟨n, hn⟩ | ⟨n, p', hn⟩
              · exact Or.inl ⟨n + 1, by rw [run, hstep]; exact hn⟩
              · exact Or.inr ⟨n + 1, p', by rw [run, hstep]; exact hn⟩

/-- **The interface's receiver survives the end of no stream.** It writes
outside of `buff`, or else it has read everything, a newline the last byte
that was read by itself, and goes round for ever. -/
theorem never_survives (e : Stop) (mem : Nat → UInt8) (b : UInt8)
    (s : List (Arrival UInt8)) (arrived : Bytes) :
    ¬ Survives e (start mem b) s arrived
      ∧ ((∃ n, run (recv e) n (start mem b) s = .outside)
        ∨ ∃ n p, run (recv e) n (start mem b) s = .on p [] ∧ p.b = newline
          ∧ ∀ k, ∃ p', run (recv e) k p [] = .on p' [] ∧ p'.output = p.output) := by
  constructor
  · intro h
    obtain ⟨n, hn⟩ := h.1
    exact run_ne_exited rfl hn
  · rcases run_drains (e := e) (p := start mem b) (s := s) rfl with hout | ⟨n, p, hn⟩
    · exact Or.inl hout
    · have hrun := run_running rfl hn
      by_cases hb : p.b = newline
      · exact Or.inr ⟨n, p, hn, hb, run_end hrun hb⟩
      · obtain ⟨k, hk⟩ := outside_of_end (e := e) hrun hb
        exact Or.inl ⟨n + k, (run_add hn).trans hk⟩

/-- The stream of one whole frame: the last byte of the size is 0, and the
thread fills `buff` with it. -/
theorem overflows_behind_frame :
    ¬ Survives .eof (start (fun _ => 0) 0) (unread (putFrame ([97], [7])) []) [7]
      ∧ ∃ n, run (recv .eof) n (start (fun _ => 0) 0) (unread (putFrame ([97], [7])) []) =
        .outside := by
  have hover : ∃ n, run (recv .eof) n (start (fun _ => 0) 0) (unread (putFrame ([97], [7])) []) =
      .outside := by
    have hrun : ∃ p s, run (recv .eof) 17 (start (fun _ => 0) 0) (unread (putFrame ([97], [7])) [])
        = .on p s ∧ (p.b == 0 && s == []) = true :=
      run_spec (f := fun p s => p.b == 0 && s == []) (by decide +kernel)
    obtain ⟨p, s, hp, hv⟩ := hrun
    simp only [Bool.and_eq_true, beq_iff_eq] at hv
    obtain ⟨hb, rfl⟩ := hv
    obtain ⟨k, hk⟩ := outside_of_end (e := .eof) (run_running rfl hp) (by rw [hb]; decide)
    exact ⟨17 + k, (run_add hp).trans hk⟩
  refine ⟨?_, hover⟩
  intro h
  obtain ⟨n, hn⟩ := hover
  exact h.2.1 n hn

end Printer

end KeyLime
