import Mathlib.Algebra.Order.BigOperators.Group.Finset
import Mathlib.Data.List.Count

/-!
# Ledgers

Numbered lists and a pool, into which items are placed, and from which
they are taken. `tally P` counts the items with a property, wherever they
are: placing adds to it what taking takes off, and an item with tally zero
is nowhere.

Conservation of items is then an equation between numbers, for every property at
once: what has come in is what is there and what has gone. Taking the property
of being one given item, it says that the item is in exactly one place; taking
the property of having a certain name, it counts the items of that name. Moving
an item (`place_take`) is placing it and then taking it from where it was, and
changes no tally, even where the two places are the same list.

Items are of any type with decidable properties. The lists and the pool of the
master are the only instance here.
-/

namespace Bookkeeping

variable {α : Type*}

/-- `count` lists, numbered from 0, and a pool. Items may be on several lists, and
several times on one; what is said about that is said by `tally`. -/
structure Ledger (α : Type*) where
  count : Nat
  lists : Nat → List α
  pool : List α

namespace Ledger

/-- Put an item at the end of list `i`, or of the pool. -/
def place (l : Ledger α) (o : Option Nat) (a : α) : Ledger α :=
  match o with
  | some i => { l with lists := Function.update l.lists i (l.lists i ++ [a]) }
  | none => { l with pool := l.pool ++ [a] }

/-- Take item `j` off list `i`. -/
def take (l : Ledger α) (i j : Nat) : Ledger α :=
  { l with lists := Function.update l.lists i ((l.lists i).eraseIdx j) }

/-- One more list, with nothing on it. -/
def extend (l : Ledger α) : Ledger α :=
  { l with count := l.count + 1, lists := Function.update l.lists l.count [] }

def tally (P : α → Bool) (l : Ledger α) : Nat :=
  (∑ i ∈ Finset.range l.count, (l.lists i).countP P) + l.pool.countP P

/-- Item `a` is on some list or in the pool. -/
def Holds (l : Ledger α) (a : α) : Prop := (∃ i < l.count, a ∈ l.lists i) ∨ a ∈ l.pool

variable {P : α → Bool} {l : Ledger α} {a : α} {i j : Nat} {o : Option Nat}

theorem tally_update (hi : i < l.count) (xs : List α) :
    tally P { l with lists := Function.update l.lists i xs } + (l.lists i).countP P
      = tally P l + xs.countP P := by
  have hmem : i ∈ Finset.range l.count := Finset.mem_range.mpr hi
  have hrest : ∑ k ∈ (Finset.range l.count).erase i, (Function.update l.lists i xs k).countP P
      = ∑ k ∈ (Finset.range l.count).erase i, (l.lists k).countP P :=
    Finset.sum_congr rfl fun k hk => by
      rw [Function.update_of_ne (Finset.ne_of_mem_erase hk)]
  simp only [tally]
  rw [← Finset.add_sum_erase _ _ hmem, ← Finset.add_sum_erase _ _ hmem, hrest,
    Function.update_self]
  omega

theorem tally_place (h : ∀ i, o = some i → i < l.count) :
    tally P (l.place o a) = tally P l + if P a then 1 else 0 := by
  cases o with
  | none =>
      simp only [place, tally, List.countP_append, List.countP_singleton]
      omega
  | some i =>
      have := tally_update (P := P) (h i rfl) (l.lists i ++ [a])
      rw [List.countP_append, List.countP_singleton] at this
      simp only [place]
      omega

theorem tally_take (hi : i < l.count) (ha : (l.lists i)[j]? = some a) :
    tally P (l.take i j) + (if P a then 1 else 0) = tally P l := by
  have h1 := tally_update (P := P) hi ((l.lists i).eraseIdx j)
  obtain ⟨hj, rfl⟩ := List.getElem?_eq_some_iff.mp ha
  have h2 := (List.getElem_cons_eraseIdx_perm hj).countP_eq P
  rw [List.countP_cons] at h2
  simp only [take]
  omega

theorem place_take (ho : o ≠ some i) : (l.place o a).take i j = (l.take i j).place o a := by
  cases o with
  | none => rfl
  | some q =>
      have hqi : q ≠ i := fun heq => ho (congrArg some heq)
      simp only [place, take, Function.update_of_ne hqi, Function.update_of_ne hqi.symm,
        Function.update_comm hqi]

theorem tally_extend : tally P l.extend = tally P l := by
  have hrest : ∑ k ∈ Finset.range l.count, (Function.update l.lists l.count [] k).countP P
      = ∑ k ∈ Finset.range l.count, (l.lists k).countP P :=
    Finset.sum_congr rfl fun k hk => by
      rw [Function.update_of_ne (Finset.mem_range.mp hk).ne]
  simp [extend, tally, Finset.sum_range_succ, hrest]

theorem holds_iff_tally [DecidableEq α] : l.Holds a ↔ 0 < tally (· = a) l := by
  constructor
  · rintro (⟨i, hi, ha⟩ | ha)
    · have hpos : 0 < (l.lists i).countP (· = a) := List.countP_pos_iff.mpr ⟨a, ha, by simp⟩
      have hle := Finset.single_le_sum (f := fun k => (l.lists k).countP (· = a))
        (fun _ _ => Nat.zero_le _) (Finset.mem_range.mpr hi)
      unfold tally
      omega
    · have hpos : 0 < l.pool.countP (· = a) := List.countP_pos_iff.mpr ⟨a, ha, by simp⟩
      unfold tally
      omega
  · intro h
    by_contra hno
    rw [Holds, not_or] at hno
    have hzero : ∀ xs : List α, a ∉ xs → xs.countP (· = a) = 0 := fun xs hxs =>
      List.countP_eq_zero.mpr fun b hb => by
        simp only [decide_eq_true_eq]
        rintro rfl
        exact hxs hb
    have hsum : ∑ i ∈ Finset.range l.count, (l.lists i).countP (· = a) = 0 :=
      Finset.sum_eq_zero fun i hi => hzero _ fun ha => hno.1 ⟨i, Finset.mem_range.mp hi, ha⟩
    rw [tally, hsum, hzero _ hno.2] at h
    exact absurd h (by simp)

theorem Holds.place [DecidableEq α] {b : α} (h : l.Holds b) (ho : ∀ i, o = some i → i < l.count) :
    (l.place o a).Holds b := by
  rw [holds_iff_tally] at h ⊢
  rw [tally_place ho]
  omega

end Ledger

end Bookkeeping
