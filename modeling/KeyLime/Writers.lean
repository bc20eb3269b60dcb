import Mathlib.Algebra.Ring.Int.Defs
import KeyLime.Senders

/-!
# The three write loops

`write_all_to_socket`, `write_to_socket` and `my_write` as they stand, with
their cursors, conditions and exits, on outcomes of `write` that may run out
(`none`: the loop is still at it). All three send what is left of the buffer
again and again (`sendRest`), so they agree wherever there is something to
send (`writers_agree`). For nothing the master makes no call, the others make
one. `my_write` keeps the result in an `int`, which is enough for what one
`write` transfers on Linux.

Each loop is first brought into the form of `sendRest`, under the condition it
needs: `writeAllRounds_eq` for a loop that tests before it writes,
`writeRounds_eq` for one that tests behind, and `myWriteRounds_eq` for the one
that looks at `errno` whenever its `int` is -1. Behind a call that has not failed
it could be that as well, with an old `errno`, if a `write` transferred more than
it does on Linux (`Fits`).

`Exact` is what is promised to the caller: the result tells whether all bytes are
out, and those that are out are the first of the buffer. `Ends` gives outcomes
behind which every one of the loops has returned.

At last the loops are connected with those on descriptors that the rest of the
development uses (`writeAllToSocket_kernel`, `writeToSocket_kernel`).
-/

namespace KeyLime.Writers

/-- The values of `errno` that the loops tell apart. -/
inductive Errno where
  | eintr
  | eagain
  | other
deriving DecidableEq, Repr

def write (count : Nat) : Outcome → Int
  | .take n => (min (n + 1) count : Nat)
  | .zero => 0
  | .intr | .again | .fail => -1

/-- `errno` behind it; a call that does not fail leaves it as it was. -/
def errnoOf (errno : Errno) : Outcome → Errno
  | .take _ | .zero => errno
  | .intr => .eintr
  | .again => .eagain
  | .fail => .other

/-- The bytes that a `write` from the index `pos` has put on the socket when
it returned `r`. -/
def sent (buf : Bytes) (pos r : Int) : Bytes := (buf.drop pos.toNat).take r.toNat

/-- A loop that has returned: its result, the outcomes that it has not come
to, and what is out. -/
structure Written where
  ret : Int
  rest : List Outcome
  out : Bytes
deriving DecidableEq, Repr

/-! ## The loops -/

/-- The loop of `write_all_to_socket`; `pos` is where `buffer` points to. It
looks at `errno` only behind a call that has failed. -/
def writeAllRounds (buf : Bytes) :
    List Outcome → (pos : Int) → (count total : Nat) → Bytes → Option Written
  | os, pos, count, total, out =>
    if count = 0 then some ⟨total, os, out⟩
    else
      match os with
      | [] => none
      | o :: os =>
          let currWrite := write count o
          if currWrite = -1 then
            if errnoOf .other o = .eintr ∨ errnoOf .other o = .eagain then
              writeAllRounds buf os pos count total out
            else some ⟨-1, os, out⟩
          else if currWrite = 0 then some ⟨total, os, out⟩
          else
            writeAllRounds buf os (pos + currWrite) (count - currWrite.toNat)
              (total + currWrite.toNat) (out ++ sent buf pos currWrite)

def writeAllToSocket (buf : Bytes) (os : List Outcome) : Option Written :=
  writeAllRounds buf os 0 buf.length 0 []

def writeRounds (buf : Bytes) :
    List Outcome → (totalByteWrote : Nat) → Bytes → Option Written
  | [], _, _ => none
  | o :: os, totalByteWrote, out =>
      let byteWrote := write (buf.length - totalByteWrote) o
      if byteWrote = 0 then some ⟨totalByteWrote, os, out⟩
      else if byteWrote = -1 then
        if errnoOf .other o ≠ .eintr then some ⟨-1, os, out⟩
        else writeRounds buf os totalByteWrote out
      else
        let out := out ++ sent buf totalByteWrote byteWrote
        let totalByteWrote := totalByteWrote + byteWrote.toNat
        if totalByteWrote ≥ buf.length then some ⟨totalByteWrote, os, out⟩
        else writeRounds buf os totalByteWrote out

def writeToSocket (buf : Bytes) (os : List Outcome) : Option Written := writeRounds buf os 0 []

/-- An `ssize_t` in an `int`. -/
def asInt (r : Int) : Int := r.bmod (2 ^ 32)

/-- The loop of `my_write`. `errno` keeps its value over a `write` that
transfers something, and is looked at even then. -/
def myWriteRounds (buf : Bytes) :
    List Outcome → (pos count : Int) → Errno → Bytes → Option Written
  | [], _, _, _, _ => none
  | o :: os, pos, count, errno, out =>
      let r := write count.toNat o
      let errno := errnoOf errno o
      let out := out ++ sent buf pos r
      let y := asInt r
      let pos' := if y ≠ -1 then pos + y else pos
      let count' := if y ≠ -1 then count - y else count
      if (0 < count' ∧ 0 < y) ∨ (y = -1 ∧ errno = .eintr) then
        myWriteRounds buf os pos' count' errno out
      else if y = -1 ∧ errno ≠ .eintr then some ⟨-1, os, out⟩
      else some ⟨buf.length - count', os, out⟩

def myWrite (errno : Errno) (buf : Bytes) (os : List Outcome) : Option Written :=
  myWriteRounds buf os 0 buf.length errno []

/-! ## What they have in common -/

/-- Send `left`, with `out` behind it already. -/
def sendRest : List Outcome → (left out : Bytes) → Option Written
  | [], _, _ => none
  | .intr :: os, left, out => sendRest os left out
  | .zero :: os, _, out => some ⟨out.length, os, out⟩
  | .again :: os, _, out | .fail :: os, _, out => some ⟨-1, os, out⟩
  | .take n :: os, left, out =>
      if left.length ≤ n + 1 then some ⟨(out ++ left).length, os, out ++ left⟩
      else sendRest os (left.drop (n + 1)) (out ++ left.take (n + 1))

variable {buf left out : Bytes} {os : List Outcome} {w : Written} {n : Nat} {errno : Errno}

theorem write_take (left : Bytes) (n : Nat) :
    write left.length (.take n) = ((left.take (n + 1)).length : Int) := by
  rw [write, List.length_take]

theorem sent_take (h : buf = out ++ left) (n : Nat) :
    sent buf out.length ((left.take n).length : Int) = left.take n := by
  rw [sent, Int.toNat_natCast, Int.toNat_natCast, h, List.drop_left, List.length_take,
    ← List.take_eq_take_min]

theorem out_take (h : buf = out ++ left) (n : Nat) :
    buf = (out ++ left.take n) ++ left.drop n := by
  rw [List.append_assoc, List.take_append_drop, h]

/-- The offset of `write_to_socket`. -/
theorem writeRounds_eq (h : buf = out ++ left) :
    writeRounds buf os out.length out = sendRest os left out := by
  have hleft : buf.length - out.length = left.length := by
    rw [h, List.length_append, Nat.add_sub_cancel_left]
  induction os generalizing left out with
  | nil => rfl
  | cons o os ih =>
      rw [writeRounds, hleft]
      cases o with
      | intr => exact ih h hleft
      | zero => rfl
      | again => rfl
      | fail => rfl
      | take n =>
          rw [write_take, sendRest]
          simp only [sent_take h, Int.toNat_natCast]
          cases left with
          | nil => simp
          | cons b bs =>
              have hpos : 0 < ((b :: bs).take (n + 1)).length := by simp
              have hlen : ((b :: bs).take (n + 1)).length = min (n + 1) (b :: bs).length :=
                List.length_take
              rw [if_neg (by omega), if_neg (by omega)]
              split
              · rename_i hall
                rw [if_pos (by omega), List.take_of_length_le (by omega), List.length_append]
              · rename_i hmore
                rw [if_neg (by omega), ← List.length_append]
                refine ih (out_take h _) ?_
                rw [List.length_append, List.length_drop]
                omega

theorem writeAllRounds_done (pos : Int) (total : Nat) :
    writeAllRounds buf os pos 0 total out = some ⟨total, os, out⟩ := by
  unfold writeAllRounds
  rfl

/-- The pointer and the count of `write_all_to_socket`. There is no call for
nothing, so there has to be something. -/
theorem writeAllRounds_eq (h : buf = out ++ left) (hne : left ≠ []) (hagain : .again ∉ os) :
    writeAllRounds buf os out.length left.length out.length out = sendRest os left out := by
  have hpos : 0 < left.length := List.length_pos_iff.mpr hne
  induction os generalizing left out with
  | nil =>
      unfold writeAllRounds
      rw [if_neg (by omega)]
      rfl
  | cons o os ih =>
      rw [List.mem_cons, not_or] at hagain
      unfold writeAllRounds
      rw [if_neg (by omega)]
      cases o with
      | intr => exact ih h hne hagain.2 hpos
      | zero => rfl
      | again => exact absurd rfl hagain.1
      | fail => rfl
      | take n =>
          have hlen : (left.take (n + 1)).length = min (n + 1) left.length := List.length_take
          rw [sendRest]
          simp only [write_take, sent_take h, Int.toNat_natCast]
          rw [if_neg (by omega), if_neg (by omega), ← List.length_append, ← Int.natCast_add,
            ← List.length_append]
          split
          · rename_i hall
            rw [show left.length - (left.take (n + 1)).length = 0 by omega, writeAllRounds_done,
              List.take_of_length_le hall]
          · rename_i hmore
            have hdrop : left.length - (left.take (n + 1)).length = (left.drop (n + 1)).length := by
              rw [List.length_drop]
              omega
            have hpos' : 0 < (left.drop (n + 1)).length := by
              rw [List.length_drop]
              omega
            rw [hdrop]
            exact ih (out_take h _) (List.length_pos_iff.mp hpos') hagain.2 hpos'

/-- What one call on Linux transfers fits into the `int` of `my_write`. -/
def Fits (buf : Bytes) (os : List Outcome) : Prop :=
  ∀ n, .take n ∈ os → min (n + 1) buf.length < 2 ^ 31

theorem asInt_of_lt {m : Nat} (h : m < 2 ^ 31) : asInt m = m := by
  unfold asInt
  rw [Int.bmod_eq_of_le] <;> omega

theorem myWriteRounds_neg {o : Outcome} {pos count : Int} (h : write count.toNat o = -1) :
    myWriteRounds buf (o :: os) pos count errno out =
      if errnoOf errno o = .eintr then myWriteRounds buf os pos count (errnoOf errno o) out
      else some ⟨-1, os, out⟩ := by
  have hint : asInt (-1) = -1 := by decide
  have hsent : sent buf pos (-1) = [] := List.take_zero
  by_cases hintr : errnoOf errno o = .eintr <;> simp [myWriteRounds, h, hint, hsent, hintr]

theorem myWriteRounds_ok {o : Outcome} {pos count : Int} {m : Nat} (h : write count.toNat o = m)
    (hm : m < 2 ^ 31) :
    myWriteRounds buf (o :: os) pos count errno out =
      if 0 < count - m ∧ 0 < m then
        myWriteRounds buf os (pos + m) (count - m) (errnoOf errno o) (out ++ sent buf pos m)
      else some ⟨buf.length - (count - m), os, out ++ sent buf pos m⟩ := by
  have hne : (m : Int) ≠ -1 := by omega
  simp [myWriteRounds, h, asInt_of_lt hm, hne]

/-- The pointer, the count and the exits of `my_write`. -/
theorem myWriteRounds_eq (h : buf = out ++ left) (hfits : Fits buf os) :
    myWriteRounds buf os out.length left.length errno out = sendRest os left out := by
  have hleft : left.length ≤ buf.length := by
    rw [h, List.length_append]
    exact Nat.le_add_left ..
  induction os generalizing left out errno with
  | nil => rfl
  | cons o os ih =>
      have hfits' : Fits buf os := fun n hn => hfits n (List.mem_cons_of_mem _ hn)
      have hlength : (buf.length : Int) = out.length + left.length := by
        rw [h, List.length_append, Int.natCast_add]
      cases o with
      | intr =>
          rw [myWriteRounds_neg rfl]
          exact ih h hfits' hleft
      | zero =>
          rw [myWriteRounds_ok (m := 0) rfl (by decide), if_neg (by omega), hlength]
          simp [sendRest, sent]
      | again =>
          rw [myWriteRounds_neg rfl]
          rfl
      | fail =>
          rw [myWriteRounds_neg rfl]
          rfl
      | take n =>
          have hlen : (left.take (n + 1)).length = min (n + 1) left.length := List.length_take
          have hbound := hfits n (List.mem_cons_self ..)
          have hwrite : write (left.length : Int).toNat (.take n) = (left.take (n + 1)).length :=
            write_take left n
          rw [myWriteRounds_ok hwrite (by omega), sent_take h, sendRest]
          split
          · rename_i hmore
            have hdrop : (left.length : Int) - (left.take (n + 1)).length =
                (left.drop (n + 1)).length := by
              rw [List.length_drop]
              omega
            rw [if_neg (by omega), hdrop, ← Int.natCast_add, ← List.length_append]
            refine ih (out_take h _) hfits' ?_
            rw [List.length_drop]
            omega
          · rename_i hend
            have hall : left.length ≤ n + 1 := by omega
            rw [if_pos hall, List.take_of_length_le hall, hlength, List.length_append]
            simp

theorem writeToSocket_eq : writeToSocket buf os = sendRest os buf [] :=
  writeRounds_eq (List.nil_append buf).symm

theorem writeAllToSocket_eq (hne : buf ≠ []) (hagain : .again ∉ os) :
    writeAllToSocket buf os = sendRest os buf [] :=
  writeAllRounds_eq (List.nil_append buf).symm hne hagain

theorem myWrite_eq (hfits : Fits buf os) : myWrite errno buf os = sendRest os buf [] :=
  myWriteRounds_eq (List.nil_append buf).symm hfits

/-! ## What is out -/

/-- What a loop has done that has returned behind the outcomes `used`: the
first bytes of the buffer are out, and all of them unless it was stopped. -/
structure Exact (buf : Bytes) (used : List Outcome) (w : Written) : Prop where
  front : w.out <+: buf
  whole : .zero ∉ used → .fail ∉ used → w.out = buf ∧ w.ret = buf.length
  zero : .zero ∈ used → w.ret = w.out.length
  fail : .fail ∈ used → w.ret = -1

theorem Exact.cons {used : List Outcome} {o : Outcome} (hzero : o ≠ .zero) (hfail : o ≠ .fail)
    (h : Exact buf used w) : Exact buf (o :: used) w where
  front := h.front
  whole hz hf := h.whole (fun hmem => hz (List.mem_cons_of_mem _ hmem))
    (fun hmem => hf (List.mem_cons_of_mem _ hmem))
  zero hz := h.zero ((List.mem_cons.mp hz).resolve_left hzero.symm)
  fail hf := h.fail ((List.mem_cons.mp hf).resolve_left hfail.symm)

theorem sendRest_exact (h : buf = out ++ left) (hagain : .again ∉ os)
    (hw : sendRest os left out = some w) : ∃ used, os = used ++ w.rest ∧ Exact buf used w := by
  induction os generalizing left out with
  | nil => cases hw
  | cons o os ih =>
      rw [List.mem_cons, not_or] at hagain
      cases o with
      | intr =>
          obtain ⟨used, hused, hexact⟩ := ih h hagain.2 hw
          exact ⟨.intr :: used, congrArg _ hused, hexact.cons (by decide) (by decide)⟩
      | zero =>
          cases hw
          refine ⟨[.zero], rfl, ⟨left, h.symm⟩, by simp, fun _ => rfl, by simp⟩
      | again => exact absurd rfl hagain.1
      | fail =>
          cases hw
          refine ⟨[.fail], rfl, ⟨left, h.symm⟩, by simp, by simp, fun _ => rfl⟩
      | take n =>
          rw [sendRest] at hw
          split at hw
          · cases hw
            refine ⟨[.take n], rfl, ⟨[], by rw [List.append_nil, h]⟩, ?_, by simp, by simp⟩
            exact fun _ _ => ⟨h.symm, by rw [h]⟩
          · obtain ⟨used, hused, hexact⟩ := ih (out_take h (n + 1)) hagain.2 hw
            exact ⟨.take n :: used, congrArg _ hused, hexact.cons (by simp) (by simp)⟩

/-- The outcomes after which a loop has returned for sure: one that stops it,
or as many calls as there are bytes, and at least one, that get through. -/
def Ends (buf : Bytes) (os : List Outcome) : Prop :=
  .zero ∈ os ∨ .fail ∈ os ∨ max 1 buf.length ≤ (os.filter (· ≠ .intr)).length

theorem sendRest_ends (h : Ends left os) : ∃ w, sendRest os left out = some w := by
  induction os generalizing left out with
  | nil =>
      exfalso
      rcases h with hmem | hmem | hle
      · exact List.not_mem_nil hmem
      · exact List.not_mem_nil hmem
      · exact Nat.not_succ_le_zero 0 ((Nat.le_max_left ..).trans hle)
  | cons o os ih =>
      cases o with
      | intr => exact ih (by simpa [Ends] using h)
      | zero => exact ⟨_, rfl⟩
      | again => exact ⟨_, rfl⟩
      | fail => exact ⟨_, rfl⟩
      | take n =>
          rw [sendRest]
          split
          · exact ⟨_, rfl⟩
          · rename_i hmore
            refine ih ?_
            simp only [Ends, List.mem_cons, reduceCtorEq, false_or] at h
            refine h.imp_right (Or.imp_right fun hle => ?_)
            rw [List.filter_cons_of_pos (by simp), List.length_cons] at hle
            rw [List.length_drop]
            omega

/-! ## On a descriptor -/

section Kernel

variable {k : Kernel} {fd : Int}

/-- The loops of the workers and the interface on an open descriptor: when
they return, the kernel has been given what is out. -/
theorem writeLoop_eq (hw : sendRest os left out = some w) :
    writeLoop fd os left out.length (k.put fd out) = (w.ret, w.rest, k.put fd w.out) := by
  induction os generalizing left out with
  | nil => cases hw
  | cons o os ih =>
      cases o with
      | intr => exact ih hw
      | zero =>
          cases hw
          rfl
      | again =>
          cases hw
          rfl
      | fail =>
          cases hw
          rfl
      | take n =>
          rw [sendRest] at hw
          rw [writeLoop, Kernel.put_append, ← Int.natCast_add, ← List.length_append]
          split at hw
          · rename_i hall
            cases hw
            rw [if_pos (List.drop_eq_nil_of_le hall), List.take_of_length_le hall]
          · rename_i hmore
            rw [if_neg fun hdrop => hmore (List.drop_eq_nil_iff.mp hdrop)]
            exact ih hw

theorem writeAllLoop_eq (h : buf = out ++ left)
    (hw : writeAllRounds buf os out.length left.length out.length out = some w) :
    writeAllLoop fd os left out.length (k.put fd out) = (w.ret, w.rest, k.put fd w.out) := by
  induction os generalizing left out with
  | nil =>
      cases left with
      | nil =>
          cases hw
          rfl
      | cons b bs => cases hw
  | cons o os ih =>
      cases left with
      | nil =>
          rw [List.length_nil, writeAllRounds_done] at hw
          cases hw
          rfl
      | cons b bs =>
          unfold writeAllRounds at hw
          rw [if_neg (by simp)] at hw
          cases o with
          | intr => exact ih h hw
          | again => exact ih h hw
          | zero =>
              cases hw
              rfl
          | fail =>
              cases hw
              rfl
          | take n =>
              have hlen : ((b :: bs).take (n + 1)).length = min (n + 1) (b :: bs).length :=
                List.length_take
              have hpos : 0 < (b :: bs).length := by simp
              have hdrop : (b :: bs).length - ((b :: bs).take (n + 1)).length =
                  ((b :: bs).drop (n + 1)).length := by
                rw [List.length_drop]
                omega
              simp only [write_take, sent_take h, Int.toNat_natCast] at hw
              rw [if_neg (by omega), if_neg (by omega), ← List.length_append, ← Int.natCast_add,
                ← List.length_append, hdrop] at hw
              rw [writeAllLoop, Kernel.put_append, ← Int.natCast_add, ← List.length_append]
              · exact ih (out_take h _) hw
              · simp

variable (hopen : k.desc fd ≠ none)
include hopen

theorem writeAllToSocket_kernel (hw : writeAllToSocket buf os = some w) :
    KeyLime.writeAllToSocket k fd buf os = (w.ret, w.rest, k.put fd w.out) := by
  have hloop : writeAllLoop fd os buf 0 (k.put fd []) = _ :=
    writeAllLoop_eq (List.nil_append buf).symm hw
  rw [KeyLime.writeAllToSocket, if_neg fun h => hopen h.2]
  rwa [Kernel.put_nil] at hloop

theorem writeToSocket_kernel (hw : writeToSocket buf os = some w) :
    KeyLime.writeToSocket k fd buf os = (w.ret, w.rest, k.put fd w.out) := by
  rw [writeToSocket_eq] at hw
  have hloop : writeLoop fd os buf 0 (k.put fd []) = _ := writeLoop_eq hw
  rw [KeyLime.writeToSocket, if_neg hopen]
  rwa [Kernel.put_nil] at hloop

theorem myWrite_kernel (hfits : Fits buf os) (hw : myWrite errno buf os = some w) :
    KeyLime.myWrite k fd buf os = (w.ret, w.rest, k.put fd w.out) := by
  rw [myWrite_eq hfits, ← writeToSocket_eq] at hw
  exact writeToSocket_kernel hopen hw

end Kernel

/-! ## The three loops -/

/-- One call for nothing, again when it is interrupted. -/
def oneCall (os : List Outcome) : Option Written :=
  match os.dropWhile (· = .intr) with
  | [] => none
  | .again :: os | .fail :: os => some ⟨-1, os, []⟩
  | _ :: os => some ⟨0, os, []⟩

theorem sendRest_nil : sendRest os [] [] = oneCall os := by
  induction os with
  | nil => rfl
  | cons o os ih =>
      cases o with
      | intr => exact ih
      | zero => rfl
      | again => rfl
      | fail => rfl
      | take n => simp [sendRest, oneCall]

/-- What the three loops are to each other, and what each of them does: `master` and
`interface` compare, `nothing` is the buffer without bytes, and `exact` and `ends`
say of `write_to_socket` what then holds of all of them. -/
structure Agree (errno : Errno) (buf : Bytes) (os : List Outcome) : Prop where
  master : buf ≠ [] → writeAllToSocket buf os = writeToSocket buf os
  interface : Fits buf os → myWrite errno buf os = writeToSocket buf os
  nothing : writeAllToSocket [] os = some ⟨0, os, []⟩ ∧ writeToSocket [] os = oneCall os
  exact : ∀ w, writeToSocket buf os = some w → ∃ used, os = used ++ w.rest ∧ Exact buf used w
  ends : Ends buf os → ∃ w, writeToSocket buf os = some w

/-- **The write loops agree.** On outcomes without `EAGAIN`, `write_all_to_socket`
does what `write_to_socket` does when there is something to send, and so does
`my_write` when what one `write` transfers fits into an `int`. What
`write_to_socket` has returned tells what is out (`Exact`), and it returns
behind outcomes that let all of the buffer through, or stop it (`Ends`). -/
theorem writers_agree (errno : Errno) (buf : Bytes) (hagain : .again ∉ os) :
    Agree errno buf os where
  master hne := (writeAllToSocket_eq hne hagain).trans writeToSocket_eq.symm
  interface hfits := (myWrite_eq hfits).trans writeToSocket_eq.symm
  nothing := ⟨writeAllRounds_done 0 0, writeToSocket_eq.trans sendRest_nil⟩
  exact w hw :=
    sendRest_exact (List.nil_append buf).symm hagain (writeToSocket_eq.symm.trans hw)
  ends h := by
    rw [writeToSocket_eq]
    exact sendRest_ends h

/-- Three bytes in two pieces, with a signal in between. -/
theorem writers_agree_pieces :
    writeAllToSocket [80, 85, 84] [.take 0, .intr, .take 5] =
        writeToSocket [80, 85, 84] [.take 0, .intr, .take 5] ∧
      myWrite .eintr [80, 85, 84] [.take 0, .intr, .take 5] =
        writeToSocket [80, 85, 84] [.take 0, .intr, .take 5] := by
  have hagain : Outcome.again ∉ [.take 0, .intr, .take 5] := by decide
  have h := writers_agree .eintr [80, 85, 84] hagain
  refine ⟨h.master (by decide), h.interface fun n _ => ?_⟩
  exact Nat.lt_of_le_of_lt (Nat.min_le_right ..) (by decide)

theorem myWrite_negative (hlen : buf.length = 2 ^ 31) :
    (myWrite errno buf [.take (2 ^ 31 - 1)]).map (·.ret) = some (-2 ^ 31) := by
  have hwrite : write (2 ^ 31) (.take (2 ^ 31 - 1)) = 2 ^ 31 := by decide
  have hint : asInt (2 ^ 31) = -2 ^ 31 := by decide
  have hcount : ((2 ^ 31 : Nat) : Int).toNat = 2 ^ 31 := Int.toNat_natCast _
  rw [myWrite, myWriteRounds, hlen, hcount, hwrite, hint]
  rfl

theorem writeToSocket_all (hn : buf.length ≤ n + 1) :
    (writeToSocket buf [.take n]).map (·.ret) = some (buf.length : Int) := by
  rw [writeToSocket_eq, sendRest, if_pos hn]
  rfl

/-- With nothing to send, only the master does not meet the error; and of
2^31 bytes that go out at once, only the interface makes a negative number. -/
theorem writers_differ :
    (writeAllToSocket [] [.fail]).map (·.ret) = some 0 ∧
      (writeToSocket [] [.fail]).map (·.ret) = some (-1) ∧
      (myWrite .other [] [.fail]).map (·.ret) = some (-1) ∧
      (writeToSocket (List.replicate (2 ^ 31) 0) [.take (2 ^ 31 - 1)]).map (·.ret) =
        some (2 ^ 31) ∧
      (myWrite .other (List.replicate (2 ^ 31) 0) [.take (2 ^ 31 - 1)]).map (·.ret) =
        some (-2 ^ 31) := by
  have hlen : (List.replicate (2 ^ 31) (0 : UInt8)).length = 2 ^ 31 := List.length_replicate
  refine ⟨rfl, rfl, rfl, ?_, myWrite_negative hlen⟩
  have hall := writeToSocket_all (n := 2 ^ 31 - 1) (Nat.le_of_eq hlen)
  rw [hlen] at hall
  exact hall

end KeyLime.Writers
