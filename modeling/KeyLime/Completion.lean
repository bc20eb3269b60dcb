import KeyLime.Spares
import KeyLime.Streams

/-!
# What a successful `do_put` has written

`do_put` takes the size of the file from a stream of its own. When that cannot
be opened the size is 0 like that of an empty file, and a frame with no payload
is a success. Otherwise it is one only when the whole frame has been written
(`complete_iff`).

A `write` may take a part of what it is given, be interrupted, find a full
connection, or fail. `through` follows the outcomes that are left behind `n`
bytes, so that a call of `write_all_to_socket` either gets all its bytes through
(`writeAllToSocket_through`) or is refused and fails (`writeAllToSocket_refused`),
and the header, the size and the blocks of the contents can be followed one after
the other. The condition (`SizeKnown`) leaves out the one input class on which
success is reported of a frame that is not the file's: `fopen` fails, the file
has something in it, and no write of the header or the size is refused.
-/

namespace KeyLime

variable {k k' : Kernel} {fd dst : Int} {buf name contents : Bytes} {os os' : List Outcome}
  {off : Nat} {w : Worker} {io : PutIo} {ret : Ret}

/-! ## Writes that go through -/

/-- The outcomes that are left when `n` bytes are written; `none` when a write
refuses one of the bytes. -/
def through : Nat → List Outcome → Option (List Outcome)
  | 0, os => some os
  | _ + 1, [] => some []
  | n + 1, .intr :: os => through (n + 1) os
  | n + 1, .again :: os => through (n + 1) os
  | _ + 1, .zero :: _ => none
  | _ + 1, .fail :: _ => none
  | n + 1, .take m :: os => through (n - m) os

theorem writeAllLoop_through (fd : Int) (total : Int) (k : Kernel)
    (h : through buf.length os = some os') :
    writeAllLoop fd os buf total k = (total + buf.length, os', k.put fd buf) := by
  induction os generalizing buf total k with
  | nil =>
      cases buf with
      | nil =>
          obtain rfl := Option.some.inj h
          simp [writeAllLoop]
      | cons b buf =>
          obtain rfl := Option.some.inj h
          rfl
  | cons o os ih =>
      cases buf with
      | nil =>
          obtain rfl := Option.some.inj h
          simp [writeAllLoop]
      | cons b buf =>
          cases o with
          | intr => simpa only [writeAllLoop] using ih total k h
          | again => simpa only [writeAllLoop] using ih total k h
          | zero => cases h
          | fail => cases h
          | take n =>
              have hlen : ((b :: buf).drop (n + 1)).length = buf.length - n := by simp
              have hrest : through ((b :: buf).drop (n + 1)).length os = some os' := by
                rw [hlen]
                exact h
              have hsum := congrArg List.length (List.take_append_drop (n + 1) (b :: buf))
              rw [List.length_append] at hsum
              rw [writeAllLoop, ih _ _ hrest, Kernel.put_append, List.take_append_drop]
              · congr 1
                omega
              · simp

theorem writeAllLoop_refused (fd total : Int) (k : Kernel) (htotal : 0 ≤ total)
    (h : through buf.length os = none) :
    (writeAllLoop fd os buf total k).1 ≠ total + buf.length := by
  induction os generalizing buf total k with
  | nil => cases buf <;> cases h
  | cons o os ih =>
      cases buf with
      | nil => cases h
      | cons b buf =>
          cases o with
          | intr => simpa only [writeAllLoop] using ih total k htotal h
          | again => simpa only [writeAllLoop] using ih total k htotal h
          | zero =>
              rw [writeAllLoop, List.length_cons]
              · omega
              · simp
          | fail =>
              rw [writeAllLoop, List.length_cons]
              · omega
              · simp
          | take n =>
              have hlen : ((b :: buf).drop (n + 1)).length = buf.length - n := by simp
              have hrest : through ((b :: buf).drop (n + 1)).length os = none := by
                rw [hlen]
                exact h
              have hsum := congrArg List.length (List.take_append_drop (n + 1) (b :: buf))
              rw [List.length_append] at hsum
              rw [writeAllLoop]
              · have := ih (total + ((b :: buf).take (n + 1)).length)
                  (k.put fd ((b :: buf).take (n + 1))) (by omega) hrest
                omega
              · simp

theorem writeAllToSocket_through (hd : k.desc fd ≠ none) (h : through buf.length os = some os') :
    writeAllToSocket k fd buf os = ((buf.length : Int), os', k.put fd buf) := by
  rw [writeAllToSocket, if_neg (fun hno => hd hno.2), writeAllLoop_through fd 0 k h, Int.zero_add]

theorem writeAllToSocket_refused (hd : k.desc fd ≠ none) (h : through buf.length os = none) :
    (writeAllToSocket k fd buf os).1 ≠ buf.length := by
  rw [writeAllToSocket, if_neg (fun hno => hd hno.2)]
  have := writeAllLoop_refused fd 0 k (Int.le_refl 0) h
  rwa [Int.zero_add] at this

/-! ## The frame -/

/-- The header line and the size of a file of that name get through. -/
def announces (name : Bytes) (writes : List Outcome) : Bool :=
  ((through (putHeader name).length writes).bind (through 8)).isSome

theorem doPut_empty (hname : w.tempFileName = some name) (hdst : k.desc dst = some .sock)
    (hsize : getFileSize k name io.fopenOk = 0) (h : announces name io.writes = true) :
    ∃ k', doPut k dst w io = some (.doneSending, k') := by
  obtain ⟨os₂, h2⟩ := Option.isSome_iff_exists.mp h
  obtain ⟨os₁, h1, h2⟩ := Option.bind_eq_some_iff.mp h2
  have hd : k.lock.desc dst ≠ none := by simp [Kernel.lock, hdst]
  have hheader := writeAllToSocket_through hd h1
  have hd₁ : (k.lock.put dst (putHeader name)).desc dst ≠ none := by
    rwa [Kernel.put_sock_desc (k := k.lock) hdst]
  rw [← sizeBytes_length 0] at h2
  have hcount := writeAllToSocket_through hd₁ h2
  have hloop : ∀ (fuel : Nat) (k : Kernel),
      (putLoop dst w.tempFd fuel io.reads os₂ 0 k).1 = .doneSending := by
    intro fuel k
    rw [putLoop_done]
  have hsize' : getFileSize k.lock name io.fopenOk = 0 := hsize
  rw [doPut, hname, Option.map_some]
  simp only [hsize', hheader, hcount, sizeBytes_length, hloop]
  rw [if_neg (fun hne => hne rfl), if_neg (by omega)]
  exact ⟨_, rfl⟩

theorem doPut_refused (hname : w.tempFileName = some name) (hdst : k.desc dst = some .sock)
    (h : announces name io.writes = false) (hput : doPut k dst w io = some (ret, k')) :
    ret = .bigFailure := by
  rw [doPut, hname, Option.map_some, Option.some.injEq] at hput
  simp only at hput
  rw [announces, Option.isSome_eq_false_iff, Option.isNone_iff_eq_none] at h
  have hd : k.lock.desc dst ≠ none := by simp [Kernel.lock, hdst]
  cases h1 : through (putHeader name).length io.writes with
  | none =>
      have := writeAllToSocket_refused hd h1
      rw [if_pos this] at hput
      exact (Prod.mk.inj hput).1.symm
  | some os₁ =>
      rw [h1, Option.bind_some] at h
      have hheader := writeAllToSocket_through hd h1
      have hd₁ : (k.lock.put dst (putHeader name)).desc dst ≠ none := by
        rwa [Kernel.put_sock_desc (k := k.lock) hdst]
      rw [← sizeBytes_length (getFileSize k.lock name io.fopenOk)] at h
      have hcount := writeAllToSocket_refused hd₁ h
      rw [sizeBytes_length] at hcount
      simp only [hheader] at hput
      rw [if_neg (fun hne => hne rfl), if_pos (by omega)] at hput
      exact (Prod.mk.inj hput).1.symm

/-- The size lookup does not fail, or it does not matter: there is nothing in
the file, or the call fails before it comes to the contents. -/
def SizeKnown (k : Kernel) (dst : Int) (name contents : Bytes) (io : PutIo) : Prop :=
  io.fopenOk = true ∨ contents = [] ∨ k.desc dst = none ∨ announces name io.writes = false

/-- **Complete frames.** For a record whose file is behind its descriptor,
`DONE_SENDING` means that the whole frame has been written, unless `fopen`
fails on a file with something in it and the header and the size get through. -/
theorem complete_iff (hname : w.tempFileName = some name)
    (hsrc : k.desc w.tempFd = some (.file (k.resolve name) off))
    (hstore : k.store (k.resolve name) = some contents)
    (hdst : k.desc dst = some .sock ∨ k.desc dst = none) :
    (∀ ret k', doPut k dst w io = some (ret, k') → ret = .doneSending →
        k'.sent dst = k.sent dst ++ Master.frame putVerb name contents)
      ↔ SizeKnown k dst name contents io := by
  have hfile : ((k.store (k.resolve name)).getD []) = contents := by rw [hstore, Option.getD_some]
  rcases hdst with hdst | hdst
  · have hne : w.tempFd ≠ dst := by
      intro heq
      rw [heq, hdst] at hsrc
      cases hsrc
    have hrem : (k.rewind w.tempFd).remaining w.tempFd = contents := by
      simp [Kernel.rewind, Kernel.remaining, hsrc, hstore]
    have hdone : ∀ k', doPut k dst w io = some (.doneSending, k') →
        ∃ body, body <+: contents ∧ body.length = getFileSize k name io.fopenOk
          ∧ k'.sent dst = k.sent dst ++
            (putHeader name ++ sizeBytes (getFileSize k name io.fopenOk) ++ body) := by
      intro k' hput
      obtain ⟨bs, hends⟩ := doPut_spec hname hdst hne hput
      obtain ⟨body, hbody, hlen, rfl⟩ := hends.done rfl
      refine ⟨body, hrem ▸ hbody, hlen, ?_⟩
      rw [hends.delivered.sent, Function.update_self]
    constructor
    · intro hall
      by_contra hno
      simp only [SizeKnown, not_or, Bool.not_eq_true, Bool.not_eq_false] at hno
      obtain ⟨hopen, hne', -, hann⟩ := hno
      have hsize : getFileSize k name io.fopenOk = 0 := by simp [getFileSize, hopen]
      obtain ⟨k', hput⟩ := doPut_empty hname hdst hsize hann
      obtain ⟨body, -, hlen, hsent⟩ := hdone k' hput
      have hlong := congrArg List.length
        (List.append_cancel_left (hsent.symm.trans (hall _ k' hput rfl)))
      have hpos := List.length_pos_of_ne_nil hne'
      simp only [Master.frame, putHeader, List.length_append, sizeBytes_length] at hlong
      omega
    · intro hcond ret k' hput hret
      subst hret
      have hsize : getFileSize k name io.fopenOk = contents.length := by
        rw [getFileSize, hfile]
        rcases hcond with hopen | rfl | hno | hann
        · rw [if_pos hopen]
        · split <;> rfl
        · rw [hdst] at hno
          cases hno
        · cases doPut_refused hname hdst hann hput
      obtain ⟨body, hbody, hlen, hsent⟩ := hdone k' hput
      rw [hsize] at hlen hsent
      rw [hsent, hbody.eq_of_length hlen]
      rfl
  · constructor
    · intro _
      exact Or.inr (Or.inr (Or.inl hdst))
    · intro _ ret k' hput hret
      rw [(doPut_closed hdst hput).1] at hret
      cases hret

/-- A file of one byte, with short and interrupted writes. -/
theorem complete_iff_byte :
    ∃ k', doPut (storedKernel [97] [7]) 3 (storedRecord [97])
        { writes := [.take 2, .intr, .take 9, .again] } = some (.doneSending, k')
      ∧ k'.sent 3 = Master.frame putVerb [97] [7] := by
  have hsrc : (storedKernel [97] [7]).desc (storedRecord [97]).tempFd = some (.file [97] 0) := rfl
  have hdone : (doPut (storedKernel [97] [7]) 3 (storedRecord [97])
      { writes := [.take 2, .intr, .take 9, .again] }).map Prod.fst = some .doneSending := by
    decide +kernel
  obtain ⟨⟨ret, k'⟩, hput, rfl⟩ := Option.map_eq_some_iff.mp hdone
  exact ⟨k', hput, (complete_iff (w := storedRecord [97]) rfl hsrc rfl (Or.inl rfl)).mpr
    (Or.inl rfl) _ k' hput rfl⟩

/-- `fopen` fails: the byte of the file is not announced and not sent. -/
theorem reports_empty_frame :
    (doPut (storedKernel [97] [7]) 3 (storedRecord [97]) { fopenOk := false }).map
        (fun r => (r.1, r.2.sent 3)) = some (.doneSending, Master.frame putVerb [97] [])
      ∧ Master.frame putVerb [97] [] ≠ Master.frame putVerb [97] [7] := by
  decide +kernel

end KeyLime
