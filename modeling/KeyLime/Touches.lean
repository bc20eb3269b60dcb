import KeyLime.Descriptors
import KeyLime.Pipeline

/-!
# What a call of the worker leaves alone

`Touches P k k'`: from `k` to `k'` no file outside of `P` was written, and
the descriptors of such files are open as before. Each call the worker makes
on a file touches that file only.

A descriptor of a file outside of `P` keeps its offset as well, so that a task
whose output is being read by the sending thread goes on where it was when
another thread has made a call. Sockets are left out, as what has been sent on
one is nothing that a later call reads. `Steady` says that the number of the
socket is never that of a file, and stays so when the socket has been closed.
-/

namespace KeyLime

/-- The descriptors of the worker: the socket is open or closed, and never
the descriptor of a file. -/
structure Steady (k : Kernel) : Prop where
  ranged : k.Ranged
  socket : k.desc socketFd = some .sock ∨ k.desc socketFd = none
  below : socketFd < k.nextFd

theorem Steady.socket_ne {k : Kernel} {fd : Int} {path : Bytes} {off : Nat} (h : Steady k)
    (hd : k.desc fd = some (.file path off)) :
    fd ≠ socketFd := by
  rintro rfl
  rcases h.socket with hs | hs <;> rw [hs] at hd <;> cases hd

structure Touches (P : Bytes → Prop) (k k' : Kernel) : Prop where
  store : ∀ q, ¬ P q → k'.store q = k.store q
  file : ∀ g q off, ¬ P q → k.desc g = some (.file q off) → k'.desc g = some (.file q off)
  resolve : k'.resolve = k.resolve
  steady : Steady k'

namespace Touches

variable {P : Bytes → Prop} {k k₁ k' : Kernel} {fd : Int} {path : Bytes} {off : Nat}

theorem refl (h : Steady k) : Touches P k k := ⟨fun _ _ => rfl, fun _ _ _ _ h => h, rfl, h⟩

theorem trans (h : Touches P k k₁) (h' : Touches P k₁ k') : Touches P k k' where
  store q hq := (h'.store q hq).trans (h.store q hq)
  file g q off hq hd := h'.file g q off hq (h.file g q off hq hd)
  resolve := h'.resolve.trans h.resolve
  steady := h'.steady

theorem of_desc {d : Option Desc} (h : Steady k) (hd : k.desc fd = some (.file path off))
    (hk : k' = { k with desc := Function.update k.desc fd d }) : Touches (· = path) k k' := by
  subst hk
  have hne := h.socket_ne hd
  refine ⟨fun _ _ => rfl, ?_, rfl, ?_, ?_, h.below⟩
  · intro g q off' hq hg
    have hgf : g ≠ fd := by
      rintro rfl
      obtain ⟨rfl, -⟩ := Desc.file.inj (Option.some.inj (hd.symm.trans hg))
      exact hq rfl
    simpa [hgf] using hg
  · intro g hg
    by_cases hgf : g = fd
    · exact hgf ▸ h.ranged fd (by simp [hd])
    · exact h.ranged g (by simpa [hgf] using hg)
  · simpa [hne.symm] using h.socket

theorem of_store {v : Option Bytes} (h : Steady k) (path : Bytes) :
    Touches (· = path) k { k with store := Function.update k.store path v } :=
  ⟨fun _ hq => Function.update_of_ne hq _ _, fun _ _ _ _ hd => hd, rfl, h.ranged, h.socket, h.below⟩

theorem put_socket (h : Steady k) (bs : Bytes) : Touches P k (k.put socketFd bs) := by
  rcases h.socket with hd | hd
  · rw [Kernel.put_sock hd]
    exact ⟨fun _ _ => rfl, fun _ _ _ _ h => h, rfl, h.ranged, h.socket, h.below⟩
  · rw [Kernel.put_none hd]
    exact refl h

theorem put (h : Steady k) (hd : k.desc fd = some (.file path off)) (bs : Bytes) :
    Touches (· = path) k (k.put fd bs) := by
  by_cases hbs : bs = []
  · rw [hbs, Kernel.put_nil]
    exact refl h
  · rw [Kernel.put_file hd hbs]
    have hstore := of_store (v := some (Kernel.splice ((k.store path).getD []) off bs)) h path
    exact hstore.trans (of_desc hstore.steady hd rfl)

theorem close (h : Steady k) (hd : k.desc fd = some (.file path off)) :
    Touches (· = path) k (k.close fd) := of_desc h hd rfl

theorem rewind (h : Steady k) (hd : k.desc fd = some (.file path off)) :
    Touches (· = path) k (k.rewind fd) := by
  simp only [Kernel.rewind, hd]
  exact of_desc h hd rfl

theorem readFile (h : Steady k) (hd : k.desc fd = some (.file path off)) (n : Nat) :
    Touches (· = path) k (k.readFile fd n).2 := by
  simp only [Kernel.readFile, hd]
  exact of_desc h hd rfl

theorem close_socket (h : Steady k) : Touches P k (k.close socketFd) := by
  refine ⟨fun _ _ => rfl, ?_, rfl, ?_, ?_, h.below⟩
  · intro g q off _ hg
    simpa [Kernel.close, h.socket_ne hg] using hg
  · intro g hg
    refine h.ranged g fun hnone => hg ?_
    by_cases hgs : g = socketFd
    · simp [Kernel.close, hgs]
    · simpa [Kernel.close, hgs] using hnone
  · simp [Kernel.close]

theorem openFile (h : Steady k) (name : Bytes) (ok : Bool) :
    Touches (· = k.resolve name) k (k.openWithAllPermission name ok).2 := by
  cases ok with
  | false => exact refl h
  | true =>
      have hext := Kernel.open_extends h.ranged name true
      have hne : socketFd ≠ (k.nextFd : Int) := h.below.ne
      refine ⟨fun q hq => Function.update_of_ne hq _ _, fun g q off _ hg => ?_, rfl, hext.ranged,
        ?_, ?_⟩
      · have hgn : g ≠ k.nextFd := by
          rintro rfl
          have := (h.ranged k.nextFd (by simp [hg])).2
          omega
        simpa [Kernel.openWithAllPermission, hgn] using hg
      · simpa [Kernel.openWithAllPermission, hne] using h.socket
      · have := h.below
        simp only [Kernel.openWithAllPermission, if_true]
        push_cast
        omega

theorem write (h : Steady k) (bs : Bytes) (short : Option Nat) :
    Touches P k (Pipeline.write k bs short).2 := by
  unfold Pipeline.write
  split
  · exact refl h
  · cases short with
    | none => exact put_socket h bs
    | some n => exact put_socket h _

end Touches

end KeyLime
