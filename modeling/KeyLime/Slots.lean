import Mathlib.Data.List.Basic

/-!
# Slots

An array as a list of slots: a part in use, and spare slots behind it. Blocks
are moved within it (`move`), by one slot up to make room, or down to close a
gap.

`memmove` is specified by what the slots hold before the call, since its two
blocks may overlap; so `move` reads the old list and writes the new one. What
the operations of a vector need of it are two equations about a list that is cut
in front of the position: `set_move_up` for an insertion and `set_move_down`
for a removal.
-/

namespace Slots

variable {α : Type*}

/-- The `n` slots from `src` on are copied to where `dest` is; the two blocks
may overlap. -/
def move (a : List α) (dest src n : Nat) : List α :=
  a.take dest ++ (a.drop src).take n ++ a.drop (dest + n)

variable {a xs ys zs : List α} {x z : α} {dest src n : Nat}

theorem length_move (hdest : dest + n ≤ a.length) (hsrc : src + n ≤ a.length) :
    (move a dest src n).length = a.length := by
  simp only [move, List.length_append, List.length_take, List.length_drop]
  omega

/-- The slots `ys` and all behind them are moved up into the first spare slot,
and the one that gets free is filled. -/
theorem set_move_up (x : α) :
    (move (xs ++ ys ++ z :: zs) (xs.length + 1) xs.length ys.length).set xs.length x =
      xs ++ x :: ys ++ zs := by
  have hblock : ((xs ++ ys ++ z :: zs).drop xs.length).take ys.length = ys := by
    rw [List.append_assoc, List.drop_left, List.take_left]
  have hrest : (xs ++ ys ++ z :: zs).drop (xs.length + 1 + ys.length) = zs := by
    have hlen : xs.length + 1 + ys.length = (xs ++ ys ++ [z]).length := by
      simp only [List.length_append, List.length_singleton]
      omega
    have hsplit : xs ++ ys ++ z :: zs = (xs ++ ys ++ [z]) ++ zs := by simp
    rw [hlen, hsplit, List.drop_left]
  obtain ⟨y, hfront⟩ : ∃ y, (xs ++ ys ++ z :: zs).take (xs.length + 1) = xs ++ [y] := by
    cases ys with
    | nil => exact ⟨z, by simp [List.take_append, List.take_of_length_le]⟩
    | cons y ys => exact ⟨y, by simp [List.take_append, List.take_of_length_le]⟩
  rw [move, hblock, hrest, hfront, List.append_assoc, List.append_assoc,
    List.set_append_right _ _ (Nat.le_refl _), Nat.sub_self]
  simp

theorem set_move_down (x : α) :
    (move (xs ++ z :: ys ++ zs) xs.length (xs.length + 1) ys.length).set (xs.length + ys.length) x =
      xs ++ ys ++ x :: zs := by
  have hblock : ((xs ++ z :: ys ++ zs).drop (xs.length + 1)).take ys.length = ys := by
    have hlen : xs.length + 1 = (xs ++ [z]).length := by simp
    have hsplit : xs ++ z :: ys ++ zs = (xs ++ [z]) ++ (ys ++ zs) := by simp
    rw [hlen, hsplit, List.drop_left, List.take_left]
  have hfront : (xs ++ z :: ys ++ zs).take xs.length = xs := by
    rw [List.append_assoc, List.take_left]
  obtain ⟨y, hrest⟩ : ∃ y, (xs ++ z :: ys ++ zs).drop (xs.length + ys.length) = y :: zs := by
    rw [List.append_assoc, List.drop_append]
    simp only [Nat.add_sub_cancel_left, List.drop_of_length_le (Nat.le_add_right _ _),
      List.nil_append]
    cases h : (z :: ys).drop ys.length with
    | nil =>
        have hlen := congrArg List.length h
        simp at hlen
    | cons y rest =>
        have hlen := congrArg List.length h
        have hnil : rest = [] := by
          simp only [List.length_drop, List.length_cons] at hlen
          exact List.eq_nil_of_length_eq_zero (by omega)
        refine ⟨y, ?_⟩
        rw [List.drop_append_of_le_length (by simp), h, hnil]
        rfl
  rw [move, hfront, hblock, hrest, List.set_append_right _ _ (by simp)]
  simp

theorem set_spare (x : α) : (xs ++ z :: zs).set xs.length x = xs ++ [x] ++ zs := by
  rw [List.set_append_right _ _ (Nat.le_refl _), Nat.sub_self]
  simp

end Slots
