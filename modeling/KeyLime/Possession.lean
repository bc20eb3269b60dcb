import Mathlib.Data.Multiset.Count
import Mathlib.Data.Multiset.Filter

/-!
# Open things and those who hold them

Things are opened and closed, and of each open thing there is one holder.
Holders are the items of a multiset, and `null` is what a holder has that
failed to open anything. `Possessed`: what is open is what the holders have,
and no two of them have the same.

An opened thing is a new one (`Possessed.open`), one that could not be opened
changes nothing (`Possessed.fail`), and what a holder closes is open no more,
since nobody else has it (`Possessed.close`). Things are of any type, and what is
open is given by a predicate. In `Holders` they are the descriptors of a process,
and -1 is the null.
-/

namespace Bookkeeping

variable {α : Type*} [DecidableEq α] {isOpen isOpen' : α → Prop} {null g : α}
  {holders : Multiset α}

structure Possessed (isOpen : α → Prop) (null : α) (holders : Multiset α) : Prop where
  isOpen_iff : ∀ g, isOpen g ↔ g ∈ holders ∧ g ≠ null
  count_le : ∀ g, g ≠ null → holders.count g ≤ 1

theorem Possessed.congr (h : Possessed isOpen null holders) (hopen : ∀ x, isOpen' x ↔ isOpen x) :
    Possessed isOpen' null holders :=
  ⟨fun x => (hopen x).trans (h.isOpen_iff x), h.count_le⟩

theorem Possessed.open (h : Possessed isOpen null holders) (hclosed : ¬ isOpen g) (hg : g ≠ null)
    (hopen : ∀ x, isOpen' x ↔ isOpen x ∨ x = g) : Possessed isOpen' null (g ::ₘ holders) := by
  have hnot : g ∉ holders := fun hmem => hclosed ((h.isOpen_iff g).mpr ⟨hmem, hg⟩)
  constructor
  · intro x
    rw [hopen, h.isOpen_iff, Multiset.mem_cons]
    constructor
    · rintro (⟨hmem, hx⟩ | rfl)
      · exact ⟨Or.inr hmem, hx⟩
      · exact ⟨Or.inl rfl, hg⟩
    · rintro ⟨rfl | hmem, hx⟩
      · exact Or.inr rfl
      · exact Or.inl ⟨hmem, hx⟩
  · intro x hx
    by_cases hxg : x = g
    · rw [hxg, Multiset.count_cons_self, Multiset.count_eq_zero.mpr hnot]
    · rw [Multiset.count_cons_of_ne hxg]
      exact h.count_le x hx

theorem Possessed.fail (h : Possessed isOpen null holders) :
    Possessed isOpen null (null ::ₘ holders) := by
  constructor
  · intro x
    rw [h.isOpen_iff, Multiset.mem_cons]
    exact ⟨fun ⟨hmem, hx⟩ => ⟨Or.inr hmem, hx⟩, fun ⟨hmem, hx⟩ => ⟨hmem.resolve_left hx, hx⟩⟩
  · intro x hx
    rw [Multiset.count_cons_of_ne hx]
    exact h.count_le x hx

theorem Possessed.close (h : Possessed isOpen null (g ::ₘ holders))
    (hopen : ∀ x, isOpen' x ↔ isOpen x ∧ x ≠ g) : Possessed isOpen' null holders := by
  refine ⟨fun x => ?_, fun x hx => le_trans (Multiset.count_le_count_cons x g holders)
    (h.count_le x hx)⟩
  rw [hopen, h.isOpen_iff, Multiset.mem_cons]
  constructor
  · rintro ⟨⟨hmem, hx⟩, hne⟩
    exact ⟨hmem.resolve_left hne, hx⟩
  · rintro ⟨hmem, hx⟩
    refine ⟨⟨Or.inr hmem, hx⟩, ?_⟩
    rintro rfl
    have hcount := h.count_le x hx
    have hpos := Multiset.count_pos.mpr hmem
    rw [Multiset.count_cons_self] at hcount
    omega

end Bookkeeping
