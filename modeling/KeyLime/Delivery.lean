import KeyLime.Forward
import KeyLime.Descriptors

/-!
# What `do_put` delivers

A call of `do_put` on a connection writes a frame: the header line, the
size of the file and the bytes its descriptor has. It succeeds when it has
written all of it (`doPut_spec`), and what it has written when it fails is
shorter.

The theorem does not assume that the announced size is the length of what is
sent. It says what the source guarantees: `size` bytes were written behind the
header and the size, and they are the first `size` bytes of what the descriptor
has from its beginning. Where the two accesses to the file agree, this is the
content; `Completion` says when they do, and what happens when they do not.

The data loop is described by `LoopEnds`, which composes: a round that has sent
a block is put in front of the rounds behind it (`LoopEnds.after`).
-/

namespace KeyLime

variable {k k₁ k₂ k' : Kernel} {dst src : Int}

/-- The bytes a descriptor still has to read: those of its file, from the
offset on. -/
def Kernel.remaining (k : Kernel) (fd : Int) : Bytes :=
  match k.desc fd with
  | some (.file path off) => ((k.store path).getD []).drop off
  | _ => []

/-- The calls from `k` to `k'` have written `bs` on the connection `dst`, and
of the files they have at most moved the offset of `src`. -/
structure Delivered (dst src : Int) (k k' : Kernel) (bs : Bytes) : Prop where
  sent : k'.sent = Function.update k.sent dst (k.sent dst ++ bs)
  store : k'.store = k.store
  resolve : k'.resolve = k.resolve
  desc : ∀ g, g ≠ src → k'.desc g = k.desc g

theorem Delivered.of_same (hs : k'.sent = k.sent) (hst : k'.store = k.store)
    (hr : k'.resolve = k.resolve) (hd : ∀ g, g ≠ src → k'.desc g = k.desc g) :
    Delivered dst src k k' [] :=
  ⟨by simp [hs], hst, hr, hd⟩

theorem Delivered.trans {a b : Bytes} (h : Delivered dst src k k₁ a)
    (h' : Delivered dst src k₁ k₂ b) : Delivered dst src k k₂ (a ++ b) where
  sent := by simp [h'.sent, h.sent]
  store := h'.store.trans h.store
  resolve := h'.resolve.trans h.resolve
  desc g hg := (h'.desc g hg).trans (h.desc g hg)

theorem Delivered.put (hdst : k.desc dst = some .sock) (bs : Bytes) :
    Delivered dst src k (k.put dst bs) bs := by
  rw [Kernel.put_sock hdst]
  exact ⟨rfl, rfl, rfl, fun _ _ => rfl⟩

theorem Kernel.remaining_congr (hd : k'.desc src = k.desc src) (hs : k'.store = k.store) :
    k'.remaining src = k.remaining src := by
  simp only [Kernel.remaining, hd, hs]

theorem readFile_spec (hsrc : src ≠ dst) (n : Nat) :
    (k.readFile src n).1 = (k.remaining src).take n
      ∧ (k.readFile src n).2.remaining src = (k.remaining src).drop n
      ∧ Delivered dst src k (k.readFile src n).2 []
      ∧ (k.readFile src n).2.desc dst = k.desc dst := by
  unfold Kernel.readFile Kernel.remaining
  cases hd : k.desc src with
  | none => exact ⟨by simp, by simp [hd], .of_same rfl rfl rfl fun _ _ => rfl, rfl⟩
  | some d =>
      cases d with
      | sock => exact ⟨by simp, by simp [hd], .of_same rfl rfl rfl fun _ _ => rfl, rfl⟩
      | file path off =>
          refine ⟨rfl, ?_, .of_same rfl rfl rfl fun g hg => Function.update_of_ne hg _ _,
            Function.update_of_ne hsrc.symm _ _⟩
          simp only [Function.update_self]
          generalize (k.store path).getD [] = content
          rw [List.drop_drop, List.length_take, List.length_drop]
          by_cases hle : n ≤ content.length - off
          · rw [Nat.min_eq_left hle]
          · rw [List.drop_eq_nil_of_le (by omega), List.drop_eq_nil_of_le (by omega)]

theorem readBlock_eq (src : Int) (size : Nat) (reads : List Outcome) :
    ∃ n, n ≤ size ∧ readBlock k src size reads = k.readFile src n := by
  unfold readBlock
  split
  · exact ⟨_, (Nat.min_le_right ..).trans (by split <;> omega), rfl⟩
  · exact ⟨_, by split <;> omega, rfl⟩

/-- The data loop over `size` bytes of `src` has sent all of them, or has
failed before it had. -/
def LoopEnds (dst src : Int) (size : Nat) (k : Kernel) (ret : Ret) (k' : Kernel) : Prop :=
  ∃ bs, bs <+: k.remaining src ∧ Delivered dst src k k' bs
    ∧ ((ret = .doneSending ∧ bs.length = size) ∨ (ret = .bigFailure ∧ bs.length < size))

theorem LoopEnds.done (k : Kernel) : LoopEnds dst src 0 k .doneSending k :=
  ⟨[], List.nil_prefix, .of_same rfl rfl rfl fun _ _ => rfl, Or.inl ⟨rfl, rfl⟩⟩

theorem LoopEnds.stopped {size : Nat} (h : size ≠ 0) (k : Kernel) :
    LoopEnds dst src size k .bigFailure k :=
  ⟨[], List.nil_prefix, .of_same rfl rfl rfl fun _ _ => rfl,
    Or.inr ⟨rfl, Nat.pos_of_ne_zero h⟩⟩

/-- A round that has sent a block of `n` bytes, or what there was. -/
theorem LoopEnds.after {size n : Nat} {ret : Ret} (hn : n ≤ size)
    (h1 : Delivered dst src k k₁ ((k.remaining src).take n))
    (hrem : k₁.remaining src = (k.remaining src).drop n)
    (h : LoopEnds dst src (size - ((k.remaining src).take n).length) k₁ ret k') :
    LoopEnds dst src size k ret k' := by
  obtain ⟨bs, hpre, h2, hret⟩ := h
  have hle : ((k.remaining src).take n).length ≤ n := List.length_take_le ..
  refine ⟨(k.remaining src).take n ++ bs, ?_, h1.trans h2, ?_⟩
  · obtain ⟨t, ht⟩ := hpre
    exact ⟨t, by rw [List.append_assoc, ht, hrem, List.take_append_drop]⟩
  · rw [List.length_append]
    exact hret.imp (fun h => ⟨h.1, by omega⟩) fun h => ⟨h.1, by omega⟩

theorem writeBlock_spec (src : Int) (hdst : k.desc dst = some .sock) (blk : Bytes) (os : List Outcome) :
    ∃ pre, pre <+: blk ∧ Delivered dst src k (writeAllToSocket k dst blk os).2.2 pre
      ∧ ((writeAllToSocket k dst blk os).2.2).desc = k.desc
      ∧ ((writeAllToSocket k dst blk os).1 ≠ blk.length → pre.length < blk.length)
      ∧ ((writeAllToSocket k dst blk os).1 = blk.length → pre = blk) := by
  obtain ⟨pre, hpre, hk, hr⟩ := writeAllToSocket_spec k dst blk os
  have hle := hpre.length_le
  refine ⟨pre, hpre, by rw [hk]; exact .put hdst pre, by rw [hk, Kernel.put_sock hdst],
    fun hne => ?_, fun heq => hpre.eq_of_length ?_⟩
  · refine lt_of_le_of_ne hle fun hlen => ?_
    rcases hr with ⟨-, hr⟩ | hr
    · exact hr (hpre.eq_of_length hlen)
    · exact hne (by omega)
  · rcases hr with ⟨hr, -⟩ | hr <;> omega

theorem putLoop_spec {fuel size : Nat} {reads writes : List Outcome} {ret : Ret}
    (hdst : k.desc dst = some .sock) (hsrc : src ≠ dst)
    (h : putLoop dst src fuel reads writes size k = (ret, k')) :
    LoopEnds dst src size k ret k' := by
  induction fuel generalizing reads writes size k with
  | zero =>
      by_cases h0 : size = 0
      · rw [h0, putLoop_done] at h
        obtain ⟨rfl, rfl⟩ := Prod.mk.inj h
        exact h0 ▸ .done k
      · rw [putLoop_zero writes k h0] at h
        obtain ⟨rfl, rfl⟩ := Prod.mk.inj h
        exact .stopped h0 k
  | succ fuel ih =>
      by_cases h0 : size = 0
      · rw [h0, putLoop_done] at h
        obtain ⟨rfl, rfl⟩ := Prod.mk.inj h
        exact h0 ▸ .done k
      · cases nextRead reads with
        | intr os =>
            rw [putLoop_intr writes k h0] at h
            exact ih hdst h
        | stop o os ho =>
            rw [putLoop_stop writes k h0 ho] at h
            obtain ⟨rfl, rfl⟩ := Prod.mk.inj h
            exact .stopped h0 k
        | data hreads =>
            obtain ⟨n, hn, hblock⟩ := readBlock_eq (k := k) src size reads
            obtain ⟨hblk, hrem, hread, hdesc⟩ := readFile_spec (k := k) hsrc n
            rw [putLoop_data writes k h0 hreads] at h
            simp only [hblock] at h
            rw [hblk] at h
            have hdst₁ : (k.readFile src n).2.desc dst = some .sock := hdesc.trans hdst
            obtain ⟨pre, hpre, hwrite, hdesc₂, hshort, hwhole⟩ :=
              writeBlock_spec src hdst₁ ((k.remaining src).take n) writes
            generalize writeAllToSocket _ _ _ _ = u at h hwrite hdesc₂ hshort hwhole
            obtain ⟨r, writes', k₂⟩ := u
            simp only at h hwrite hdesc₂ hshort hwhole
            have hle : ((k.remaining src).take n).length ≤ n := List.length_take_le ..
            split at h
            · obtain ⟨rfl, rfl⟩ := Prod.mk.inj h
              exact ⟨[], List.nil_prefix, hread, Or.inr ⟨rfl, Nat.pos_of_ne_zero h0⟩⟩
            · rename_i hne
              have hpos := List.length_pos_of_ne_nil hne
              have hsent := hread.trans hwrite
              split at h
              · rename_i hfail
                obtain ⟨rfl, rfl⟩ := Prod.mk.inj h
                have hlt := hshort (by omega)
                exact ⟨pre, hpre.trans (List.take_prefix ..), hsent, Or.inr ⟨rfl, by omega⟩⟩
              · rename_i hok
                obtain rfl := hwhole (by omega)
                refine .after hn hsent ?_ (ih (hdesc₂ ▸ hdst₁) h)
                rw [Kernel.remaining_congr (k := (k.readFile src n).2) (by rw [hdesc₂])
                  (hwrite.store), hrem]

theorem sizeBytes_length (n : Nat) : (sizeBytes n).length = 8 := by simp [sizeBytes]

/-- What a call of `do_put` for a file named `name` has done: written a whole
frame, or less. -/
structure PutEnds (dst src : Int) (name : Bytes) (size : Nat) (k : Kernel) (ret : Ret)
    (k' : Kernel) (bs : Bytes) : Prop where
  delivered : Delivered dst src k k' bs
  done : ret = .doneSending → ∃ body, body <+: (k.rewind src).remaining src
    ∧ body.length = size ∧ bs = putHeader name ++ sizeBytes size ++ body
  failed : ret ≠ .doneSending → ret = .bigFailure ∧ bs.length < (putHeader name).length + 8 + size

theorem rewind_delivered (dst src : Int) : Delivered dst src k (k.rewind src) [] := by
  unfold Kernel.rewind
  split
  · exact .of_same rfl rfl rfl fun g hg => Function.update_of_ne hg _ _
  · exact .of_same rfl rfl rfl fun _ _ => rfl

theorem rewind_remaining_congr (hd : k'.desc src = k.desc src) (hs : k'.store = k.store) :
    (k'.rewind src).remaining src = (k.rewind src).remaining src := by
  unfold Kernel.rewind
  rw [hd]
  split <;> simp [Kernel.remaining, hd, hs]

theorem doPut_spec {w : Worker} {io : PutIo} {name : Bytes} {ret : Ret}
    (hname : w.tempFileName = some name) (hdst : k.desc dst = some .sock) (hsrc : w.tempFd ≠ dst)
    (h : doPut k dst w io = some (ret, k')) :
    ∃ bs, PutEnds dst w.tempFd name (getFileSize k name io.fopenOk) k ret k' bs := by
  rw [doPut, hname, Option.map_some, Option.some.injEq] at h
  simp only at h
  have hlock : Delivered dst w.tempFd k k.lock [] := .of_same rfl rfl rfl fun _ _ => rfl
  have hunlock : ∀ (k₁ : Kernel), Delivered dst w.tempFd k₁ k₁.unlock [] := fun _ =>
    .of_same rfl rfl rfl fun _ _ => rfl
  have hsize : getFileSize k.lock name io.fopenOk = getFileSize k name io.fopenOk := rfl
  rw [hsize] at h
  generalize getFileSize k name io.fopenOk = size at h ⊢
  obtain ⟨pre, -, hwrite, hdesc, hshort, hwhole⟩ :=
    writeBlock_spec (k := k.lock) w.tempFd hdst (putHeader name) io.writes
  generalize writeAllToSocket k.lock _ _ _ = u at h hwrite hdesc hshort hwhole
  obtain ⟨r, writes, k₁⟩ := u
  simp only at h hwrite hdesc hshort hwhole
  have h1 := hlock.trans hwrite
  split at h
  · rename_i hne
    obtain ⟨rfl, rfl⟩ := Prod.mk.inj h
    refine ⟨_, h1.trans (hunlock k₁), nofun, fun _ => ⟨rfl, ?_⟩⟩
    have := hshort hne
    simp only [List.nil_append, List.append_nil]
    omega
  · rename_i heq
    obtain rfl := hwhole (by omega)
    have hdst₁ : k₁.desc dst = some .sock := hdesc ▸ hdst
    obtain ⟨pre, -, hwrite, hdesc₁, hshort, hwhole⟩ :=
      writeBlock_spec w.tempFd hdst₁ (sizeBytes size) writes
    generalize writeAllToSocket k₁ _ _ _ = u at h hwrite hdesc₁ hshort hwhole
    obtain ⟨r, writes', k₂⟩ := u
    simp only [sizeBytes_length] at h hwrite hdesc₁ hshort hwhole
    have h2 := h1.trans hwrite
    split at h
    · rename_i hne
      obtain ⟨rfl, rfl⟩ := Prod.mk.inj h
      refine ⟨_, h2.trans (hunlock k₂), nofun, fun _ => ⟨rfl, ?_⟩⟩
      have := hshort (by omega)
      simp only [List.nil_append, List.append_nil, List.length_append]
      omega
    · rename_i heq
      obtain rfl := hwhole (by omega)
      have hdst₂ : (k₂.rewind w.tempFd).desc dst = some .sock := by
        rw [(rewind_delivered dst w.tempFd).desc dst hsrc.symm]
        exact hdesc₁ ▸ hdst₁
      obtain ⟨r₃, k₃, hl⟩ : ∃ r₃ k₃, putLoop dst w.tempFd (size + io.reads.length) io.reads
          writes' size (k₂.rewind w.tempFd) = (r₃, k₃) := ⟨_, _, rfl⟩
      rw [hl] at h
      obtain ⟨rfl, rfl⟩ := Prod.mk.inj h
      obtain ⟨bs, hpre, hbody, hret⟩ := putLoop_spec hdst₂ hsrc hl
      refine ⟨_, ((h2.trans (rewind_delivered dst w.tempFd)).trans hbody).trans (hunlock k₃), ?_, ?_⟩
      · intro hdone
        rcases hret with ⟨-, hlen⟩ | ⟨hfail, -⟩
        · refine ⟨bs, ?_, hlen, by simp⟩
          rwa [rewind_remaining_congr (k := k) (by rw [hdesc₁, hdesc]; rfl) h2.store] at hpre
        · cases hdone.symm.trans hfail
      · intro hne
        rcases hret with ⟨hdone, -⟩ | ⟨hfail, hlen⟩
        · exact (hne hdone).elim
        · refine ⟨hfail, ?_⟩
          simp only [List.nil_append, List.append_nil, List.length_append, sizeBytes_length]
          omega

end KeyLime
