import Mathlib.Algebra.Order.Ring.Rat
import Mathlib.Tactic.Linarith

/-!
# Greedy loads

Units of work are given out one by one, each to an owner whose load - a
fixed weight and one for each unit it has - is least at that moment. No
owner then ends up more than one unit above another (`Balanced.close`).

The invariant is `Balanced`: take the last unit of an owner away, and its load is
no greater than that of any other. It holds when nobody has a unit (`of_zero`),
and is kept by a unit for an owner of least load (`place`). Nothing here is about
records or tasks: owners are of any type, weights in any ordered ring, and which
of the owners of least load is taken is left open. `Scheduler` has its records
for owners and ten times their usage for a weight.
-/

namespace Bookkeeping

variable {ι α : Type*} [CommRing α] [LinearOrder α] [IsStrictOrderedRing α]

/-- Without its last unit no owner in `S` has a greater load than another. -/
def Balanced (S : ι → Prop) (w : ι → α) (n : ι → ℕ) : Prop :=
  ∀ i j, S i → S j → 0 < n i → w i + n i - 1 ≤ w j + n j

namespace Balanced

variable {S : ι → Prop} {w : ι → α} {n : ι → ℕ} {i j : ι}

omit [IsStrictOrderedRing α] in
theorem of_zero (h : ∀ i, S i → n i = 0) : Balanced S w n := by
  intro i j hi hj hpos
  rw [h i hi] at hpos
  exact absurd hpos (Nat.lt_irrefl 0)

theorem place [DecidableEq ι] (h : Balanced S w n) (hmin : ∀ j, S j → w i + n i ≤ w j + n j) :
    Balanced S w (Function.update n i (n i + 1)) := by
  have hgrow : ∀ j, (n j : α) ≤ Function.update n i (n i + 1) j := by
    intro j
    by_cases hj : j = i
    · subst hj
      rw [Function.update_self]
      push_cast
      linarith
    · rw [Function.update_of_ne hj]
  intro k j hk hj hpos
  have hle : w j + n j ≤ w j + Function.update n i (n i + 1) j :=
    add_le_add_right (hgrow j) (w j)
  refine le_trans ?_ hle
  by_cases hki : k = i
  · subst hki
    have := hmin j hj
    rw [Function.update_self]
    push_cast
    linarith
  · rw [Function.update_of_ne hki] at hpos ⊢
    exact h k j hk hj hpos

theorem close (h : Balanced S w n) (hi : S i) (hj : S j) (hw : w i = w j) : n i ≤ n j + 1 := by
  rcases Nat.eq_zero_or_pos (n i) with hzero | hpos
  · omega
  · have hle := h i j hi hj hpos
    rw [hw] at hle
    have hcast : (n i : α) ≤ ((n j + 1 : ℕ) : α) := by
      push_cast
      linarith
    exact Nat.cast_le.mp hcast

end Balanced

/-! ## Sums over a list of owners -/

theorem sum_map_update {l : List ι} [DecidableEq ι] {i : ι} (hl : l.Nodup) (hi : i ∈ l)
    (f : ι → ℕ) (x : ℕ) : (l.map (Function.update f i x)).sum + f i = (l.map f).sum + x := by
  induction l with
  | nil => cases hi
  | cons j l ih =>
      rw [List.nodup_cons] at hl
      rw [List.map_cons, List.map_cons, List.sum_cons, List.sum_cons]
      rcases List.mem_cons.mp hi with rfl | hmem
      · have hrest : l.map (Function.update f i x) = l.map f := by
          refine List.map_congr_left fun k hk => Function.update_of_ne ?_ _ _
          rintro rfl
          exact hl.1 hk
        rw [hrest, Function.update_self]
        omega
      · have hne : j ≠ i := by
          rintro rfl
          exact hl.1 hmem
        have := ih hl.2 hmem
        rw [Function.update_of_ne hne]
        omega

end Bookkeeping
