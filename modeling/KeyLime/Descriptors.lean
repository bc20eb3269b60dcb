import KeyLime.Master
import KeyLime.Stages

/-!
# Descriptors across a call

The parser and the sender reach the kernel through a handful of calls;
`Ops k k'` says that `k'` is what some of these made of `k`. What holds of
each of them then holds of `get_binary_data` and `do_put`, by an induction that
is done once.

`Extends k k'`: the same connections are open, stored files stay the files
they are, and at most new files were opened. Every modelled function but
`accept` and the closing of the interface relates its kernels so. It is
reflexive and transitive, so a handler is dealt with call by call.

`Kernel.Kept` is the stronger relation of the calls that open and close nothing
at all, which is the sending half.
-/

namespace KeyLime

namespace Kernel

/-- Descriptors in use are small natural numbers. -/
def Ranged (k : Kernel) : Prop := ∀ g, k.desc g ≠ none → 0 ≤ g ∧ g < k.nextFd

theorem Ranged.ne {k : Kernel} {fd : Int} {d : Desc} (h : k.Ranged) (hd : k.desc fd = some d) :
    fd ≠ -1 := by
  have := (h fd (by simp [hd])).1
  omega

structure Extends (k k' : Kernel) : Prop where
  sock : ∀ g, k'.desc g = some .sock ↔ k.desc g = some .sock
  file : ∀ g path off, k.desc g = some (.file path off) →
    ∃ off', k'.desc g = some (.file path off')
  ranged : k'.Ranged
  resolve : k'.resolve = k.resolve

variable {k k' k'' : Kernel} {fd : Int}

theorem Extends.refl (h : k.Ranged) : k.Extends k :=
  ⟨fun _ => Iff.rfl, fun _ _ off h => ⟨off, h⟩, h, rfl⟩

theorem Extends.trans (h : k.Extends k') (h' : k'.Extends k'') : k.Extends k'' where
  sock g := (h'.sock g).trans (h.sock g)
  file g path off hd := by
    obtain ⟨off', hd'⟩ := h.file g path off hd
    exact h'.file g path off' hd'
  ranged := h'.ranged
  resolve := h'.resolve.trans h.resolve

theorem Extends.of_desc (h : k.Ranged) (hd : k'.desc = k.desc) (hn : k'.nextFd = k.nextFd)
    (hr : k'.resolve = k.resolve) : k.Extends k' where
  sock g := by rw [hd]
  file g path off hf := ⟨off, by rw [hd]; exact hf⟩
  ranged g hg := by
    rw [hn]
    exact h g (by rwa [hd] at hg)
  resolve := hr

theorem Extends.of_offset (h : k.Ranged) {path : Bytes} {off off' : Nat}
    (hf : k.desc fd = some (.file path off))
    (hd : k'.desc = Function.update k.desc fd (some (.file path off')))
    (hn : k'.nextFd = k.nextFd) (hr : k'.resolve = k.resolve) : k.Extends k' where
  sock g := by
    rw [hd]
    by_cases hg : g = fd
    · subst hg
      simp [hf]
    · simp [hg]
  file g path₁ off₁ hf₁ := by
    rw [hd]
    by_cases hg : g = fd
    · subst hg
      obtain ⟨rfl, -⟩ := Desc.file.inj (Option.some.inj (hf.symm.trans hf₁))
      exact ⟨off', by simp⟩
    · exact ⟨off₁, by simpa [hg] using hf₁⟩
  ranged g hg := by
    rw [hn]
    rw [hd] at hg
    by_cases heq : g = fd
    · subst heq
      exact h g (by simp [hf])
    · exact h g (by simpa [heq] using hg)
  resolve := hr

theorem put_extends (h : k.Ranged) (bs : Bytes) : k.Extends (k.put fd bs) := by
  by_cases hbs : bs = []
  · rw [hbs, put_nil]
    exact Extends.refl h
  cases hd : k.desc fd with
  | none => rw [put_none hd]; exact Extends.refl h
  | some d =>
      cases d with
      | sock => rw [put_sock hd]; exact Extends.of_desc h rfl rfl rfl
      | file path off => rw [put_file hd hbs]; exact Extends.of_offset h hd rfl rfl rfl

theorem readFile_extends (h : k.Ranged) (n : Nat) : k.Extends (k.readFile fd n).2 := by
  unfold readFile
  split
  · rename_i path off hd
    exact Extends.of_offset h hd rfl rfl rfl
  · exact Extends.refl h

theorem rewind_extends (h : k.Ranged) : k.Extends (k.rewind fd) := by
  unfold rewind
  split
  · rename_i path off hd
    exact Extends.of_offset h hd rfl rfl rfl
  · exact Extends.refl h

theorem open_extends (h : k.Ranged) (name : Bytes) (ok : Bool) :
    k.Extends (k.openWithAllPermission name ok).2 := by
  unfold openWithAllPermission
  split
  · have hfree : k.desc k.nextFd = none := by
      by_contra hne
      have := (h _ hne).2
      omega
    refine ⟨?_, ?_, ?_, rfl⟩
    · intro g
      by_cases hg : g = k.nextFd
      · subst hg
        simp [hfree]
      · simp [hg]
    · intro g path off hf
      refine ⟨off, ?_⟩
      by_cases hg : g = k.nextFd
      · subst hg
        rw [hfree] at hf
        cases hf
      · simpa [hg] using hf
    · intro g hg
      simp only at hg ⊢
      by_cases heq : g = k.nextFd
      · subst heq
        push_cast
        omega
      · have := h g (by simpa [heq] using hg)
        push_cast
        omega
  · exact Extends.refl h

theorem lock_extends (h : k.Ranged) : k.Extends k.lock := .of_desc h rfl rfl rfl

theorem unlock_extends (h : k.Ranged) : k.Extends k.unlock := .of_desc h rfl rfl rfl

/-! ## Calls in a row -/

inductive Ops (k : Kernel) : Kernel → Prop where
  | refl : Ops k k
  | put {k' : Kernel} (fd : Int) (bs : Bytes) (h : Ops k k') : Ops k (k'.put fd bs)
  | readFile {k' : Kernel} (fd : Int) (n : Nat) (h : Ops k k') : Ops k (k'.readFile fd n).2
  | rewind {k' : Kernel} (fd : Int) (h : Ops k k') : Ops k (k'.rewind fd)
  | open {k' : Kernel} (name : Bytes) (ok : Bool) (h : Ops k k') :
      Ops k (k'.openWithAllPermission name ok).2
  | lock {k' : Kernel} (h : Ops k k') : Ops k k'.lock
  | unlock {k' : Kernel} (h : Ops k k') : Ops k k'.unlock

theorem Ops.extends (h : k.Ops k') (hr : k.Ranged) : k.Extends k' := by
  induction h with
  | refl => exact .refl hr
  | put fd bs _ ih => exact ih.trans (put_extends ih.ranged bs)
  | readFile fd n _ ih => exact ih.trans (readFile_extends ih.ranged n)
  | rewind fd _ ih => exact ih.trans (rewind_extends ih.ranged)
  | «open» name ok _ ih => exact ih.trans (open_extends ih.ranged name ok)
  | lock _ ih => exact ih.trans (lock_extends ih.ranged)
  | unlock _ ih => exact ih.trans (unlock_extends ih.ranged)

theorem Ops.reads (h : k.Ops k') : k'.inbox = k.inbox ∧ k'.taken = k.taken := by
  have trans : ∀ {k₁ k₂ : Kernel}, (k₁.inbox = k.inbox ∧ k₁.taken = k.taken) →
      (k₂.inbox = k₁.inbox ∧ k₂.taken = k₁.taken) → k₂.inbox = k.inbox ∧ k₂.taken = k.taken :=
    fun h1 h2 => ⟨h2.1.trans h1.1, h2.2.trans h1.2⟩
  induction h with
  | refl => exact ⟨rfl, rfl⟩
  | put fd bs _ ih =>
      refine trans ih ?_
      unfold Kernel.put
      split
      · exact ⟨rfl, rfl⟩
      · split <;> exact ⟨rfl, rfl⟩
  | readFile fd n _ ih =>
      refine trans ih ?_
      unfold Kernel.readFile
      split <;> exact ⟨rfl, rfl⟩
  | rewind fd _ ih =>
      refine trans ih ?_
      unfold Kernel.rewind
      split <;> exact ⟨rfl, rfl⟩
  | «open» name ok _ ih =>
      refine trans ih ?_
      unfold Kernel.openWithAllPermission
      split <;> exact ⟨rfl, rfl⟩
  | lock _ ih => exact ih
  | unlock _ ih => exact ih

end Kernel

/-! ## The parser and the sender -/

open Kernel (Ops)

variable {k k₁ k' : Kernel}

theorem DataRun.put {fuel : Nat} {s : List Item} {os : List Outcome} {last : Option ReadResult}
    {w : Worker} {r : Parsed} (h : DataRun fuel s os last w k r k') :
    ∃ bs, k' = k.put w.tempFd bs := by
  induction h with
  | done | drained | err | eof => exact ⟨[], (Kernel.put_nil ..).symm⟩
  | intr _ ih => exact ih
  | @refused fuel s rest os last w k blk =>
      obtain ⟨pre, -, hk, -⟩ := writeAllToSocket_spec k w.tempFd blk os
      exact ⟨pre, hk⟩
  | @block fuel s rest os last w k r k' blk _ _ _ _ _ ih =>
      obtain ⟨pre, -, hk, -⟩ := writeAllToSocket_spec k w.tempFd blk os
      obtain ⟨bs, hbs⟩ := ih
      exact ⟨pre ++ bs, by rw [hbs, hk, Kernel.put_append]⟩

theorem dataLoop_put (fuel : Nat) (s : List Item) (os : List Outcome) (last : Option ReadResult)
    (w : Worker) (k : Kernel) : ∃ bs, (dataLoop fuel s os last w k).2 = k.put w.tempFd bs :=
  (dataLoop_run rfl).put

theorem getBinaryData_put (k : Kernel) (w : Worker) (io : RecvIo) :
    ∃ bs, (getBinaryData k w io).2 = (openTemp k w io).1.put (openTemp k w io).2.tempFd bs := by
  rw [getBinaryData_eq]
  exact dataLoop_put ..

theorem openTemp_ops (k : Kernel) (w : Worker) (io : RecvIo) : k.Ops (openTemp k w io).1 := by
  unfold openTemp
  split
  · exact .open _ _ .refl
  · exact .refl

theorem getBinaryData_ops (k : Kernel) (w : Worker) (io : RecvIo) :
    k.Ops (getBinaryData k w io).2 := by
  obtain ⟨bs, hbs⟩ := getBinaryData_put k w io
  rw [hbs]
  exact (openTemp_ops k w io).put _ bs

/-- What the calls that open nothing and close nothing keep. -/
structure Kernel.Kept (R : Kernel → Prop) : Prop where
  put : ∀ {k : Kernel} (fd : Int) (bs : Bytes), R k → R (k.put fd bs)
  readFile : ∀ {k : Kernel} (fd : Int) (n : Nat), R k → R (k.readFile fd n).2
  rewind : ∀ {k : Kernel} (fd : Int), R k → R (k.rewind fd)
  lock : ∀ {k : Kernel}, R k → R k.lock
  unlock : ∀ {k : Kernel}, R k → R k.unlock

section
variable {R : Kernel → Prop} (hR : Kernel.Kept R)
include hR

theorem Kernel.Kept.writeAll (h : R k) (fd : Int) (buf : Bytes) (os : List Outcome) :
    R (writeAllToSocket k fd buf os).2.2 := by
  obtain ⟨pre, -, hk, -⟩ := writeAllToSocket_spec k fd buf os
  rw [hk]
  exact hR.put fd pre h

theorem readBlock_keeps (src : Int) (size : Nat) (reads : List Outcome) (h : R k) :
    R (readBlock k src size reads).2 := by
  unfold readBlock
  split <;> exact hR.readFile _ _ h

theorem putLoop_keeps (dst src : Int) (fuel : Nat) (reads writes : List Outcome) (size : Nat)
    (h : R k) : R (putLoop dst src fuel reads writes size k).2 := by
  induction fuel generalizing reads writes size k with
  | zero =>
      unfold putLoop
      split <;> exact h
  | succ fuel ih =>
      by_cases hsize : size = 0
      · rw [hsize, putLoop_done]
        exact h
      · cases nextRead reads with
        | intr os =>
            rw [putLoop_intr writes k hsize]
            exact ih _ _ _ h
        | stop o os ho =>
            rw [putLoop_stop writes k hsize ho]
            exact h
        | data hreads =>
            rw [putLoop_data writes k hsize hreads]
            have hb := readBlock_keeps hR src size reads h
            have hw := hR.writeAll hb dst (readBlock k src size reads).1 writes
            dsimp only
            split
            · exact hb
            · split
              · exact hw
              · exact ih _ _ _ hw

/-- **`do_put`** keeps what its calls keep. -/
theorem doPut_keeps {dst : Int} {w : Worker} {io : PutIo} {ret : Ret} (h : R k)
    (hput : doPut k dst w io = some (ret, k')) : R k' := by
  obtain ⟨name, -, hput⟩ := Option.map_eq_some_iff.mp hput
  have h1 := hR.writeAll (hR.lock h) dst (putHeader name) io.writes
  simp only at hput
  split at hput
  · obtain ⟨-, rfl⟩ := Prod.mk.inj hput
    exact hR.unlock h1
  · have h2 := hR.writeAll h1 dst (sizeBytes (getFileSize k.lock name io.fopenOk))
      (writeAllToSocket k.lock dst (putHeader name) io.writes).2.1
    split at hput
    · obtain ⟨-, rfl⟩ := Prod.mk.inj hput
      exact hR.unlock h2
    · obtain ⟨-, rfl⟩ := Prod.mk.inj hput
      exact hR.unlock (putLoop_keeps hR dst w.tempFd _ io.reads _ _ (hR.rewind w.tempFd h2))

end

theorem doPut_ops {dst : Int} {w : Worker} {io : PutIo} {ret : Ret}
    (hput : doPut k dst w io = some (ret, k')) : k.Ops k' := by
  have hkept : Kernel.Kept k.Ops :=
    ⟨fun fd bs h => h.put fd bs, fun fd n h => h.readFile fd n, fun fd h => h.rewind fd,
      fun h => h.lock, fun h => h.unlock⟩
  exact doPut_keeps hkept .refl hput

theorem doPut_extends {dst : Int} {w : Worker} {io : PutIo} {ret : Ret} (h : k.Ranged)
    (hput : doPut k dst w io = some (ret, k')) : k.Extends k' :=
  (doPut_ops hput).extends h

end KeyLime
