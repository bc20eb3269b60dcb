import Mathlib.Order.Bounds.Basic
import KeyLime.Vector

/-!
# The growth of a vector

The loop of `get_new_capacity` doubles a `size_t`. Up to 2^63 it comes to the
least power of two that is large enough; above, the capacity wraps around to
zero and stays there. The number of bytes that `vector_reserve` asks for
wraps around earlier: from 2^60 + 1 on it is zero (`grows_iff`).

The model of the loop in `Vector` takes a number of rounds. Here it is shown
that 64 are as good as any number: the result is one that the loop comes to
(`NewCapacity`), there is at most one, and where 64 rounds do not come to one,
no number of rounds does.

A request is met (`Grows`) when the loop ends, on the least power of two that
fits the elements, and `realloc` is asked for the bytes of exactly that many
slots. Where the bytes wrap around to zero `realloc` frees the array, and the
vector goes on with its new capacity and no memory.
-/

namespace KeyLime

variable {n c c' c₀ r r' : Nat}

/-- `get_new_capacity` returns `c`, after however many rounds. -/
def NewCapacity (n c : Nat) : Prop := ∃ rounds, newCapacityLoop n rounds 1 = some c

def reallocBytes (newcap : Nat) : Nat := newcap * 8 % 2 ^ 64

/-- The powers of two that `n` elements, and one, fit into. -/
def Enough (n : Nat) : Set Nat := {p | (∃ j, p = 2 ^ j) ∧ max n 1 ≤ p}

/-- A request for `n` elements is met. -/
def Grows (n : Nat) : Prop :=
  ∃ c, NewCapacity n c ∧ IsLeast (Enough n) c ∧ reallocBytes c = c * 8

/-! ## The loop -/

theorem newCapacityLoop_mono (hle : r ≤ r') (h : newCapacityLoop n r c₀ = some c) :
    newCapacityLoop n r' c₀ = some c := by
  induction r generalizing r' c₀ with
  | zero => cases h
  | succ r ih =>
      cases r' with
      | zero => omega
      | succ r' =>
          rw [newCapacityLoop] at h ⊢
          split at h
          · rename_i hlt
            rw [if_pos hlt]
            exact ih (by omega) h
          · rename_i hge
            rw [if_neg hge]
            exact h

theorem newCapacityLoop_lt (hc : c₀ < 2 ^ 64) (h : newCapacityLoop n r c₀ = some c) :
    c < 2 ^ 64 := by
  induction r generalizing c₀ with
  | zero => cases h
  | succ r ih =>
      rw [newCapacityLoop] at h
      split at h
      · exact ih (Nat.mod_lt _ (by decide)) h
      · rw [← Option.some.inj h]
        exact hc

theorem NewCapacity.unique (h : NewCapacity n c) (h' : NewCapacity n c') : c = c' := by
  obtain ⟨r, hr⟩ := h
  obtain ⟨r', hr'⟩ := h'
  have hc := newCapacityLoop_mono (Nat.le_max_left r r') hr
  have hc' := newCapacityLoop_mono (Nat.le_max_right r r') hr'
  exact Option.some.inj (hc.symm.trans hc')

theorem newCapacity_least (h : n ≤ 2 ^ 63) : ∃ c, NewCapacity n c ∧ IsLeast (Enough n) c := by
  obtain ⟨c, hc, hsmall⟩ := newCapacityLoop_some h (by decide) (r := 65) (k := 0) (Nat.zero_le 63)
    (by decide)
  obtain ⟨j, rfl, hle⟩ := newCapacityLoop_pow (k := 0) (by decide) hc
  refine ⟨2 ^ j, ⟨65, hc⟩, ⟨⟨j, rfl⟩, ?_⟩, ?_⟩
  · exact Nat.max_le.mpr ⟨hle, Nat.one_le_two_pow⟩
  · rintro _ ⟨⟨i, rfl⟩, hi⟩
    rcases hsmall with hlt | hone
    · have hbelow : 2 ^ j < 2 ^ (i + 1) := by
        rw [Nat.pow_succ]
        omega
      have := (Nat.pow_lt_pow_iff_right (by decide)).mp hbelow
      exact Nat.pow_le_pow_right (by decide) (by omega)
    · rw [hone]
      exact Nat.one_le_two_pow

/-- Above, there is no power of two that a `size_t` holds, so the loop goes
round for ever. -/
theorem newCapacityLoop_top (h : 2 ^ 63 < n) (rounds : Nat) : newCapacityLoop n rounds 1 = none := by
  cases hc : newCapacityLoop n rounds 1 with
  | none => rfl
  | some c =>
      have hlt := newCapacityLoop_lt (by decide) hc
      obtain ⟨j, rfl, hle⟩ := newCapacityLoop_pow (k := 0) (by decide) hc
      have hj := (Nat.pow_lt_pow_iff_right (by decide)).mp hlt
      have := Nat.pow_le_pow_right (n := 2) (by decide) (show j ≤ 63 by omega)
      omega

theorem newCapacity_iff : (∃ c, NewCapacity n c) ↔ n ≤ 2 ^ 63 := by
  constructor
  · rintro ⟨c, rounds, hc⟩
    by_contra hn
    rw [newCapacityLoop_top (by omega) rounds] at hc
    cases hc
  · intro hn
    obtain ⟨c, hc, -⟩ := newCapacity_least hn
    exact ⟨c, hc⟩

theorem getNewCapacity_iff : getNewCapacity n = some c ↔ NewCapacity n c := by
  constructor
  · exact fun h => ⟨65, h⟩
  · intro h
    obtain ⟨c', hc'⟩ : ∃ c', getNewCapacity n = some c' := by
      obtain ⟨c', hc', -⟩ := newCapacityLoop_some (newCapacity_iff.mp ⟨c, h⟩) (by decide) (r := 65)
        (k := 0) (Nat.zero_le 63) (by decide)
      exact ⟨c', hc'⟩
    rw [hc', h.unique ⟨65, hc'⟩]

/-! ## The bytes -/

theorem reallocBytes_eq : reallocBytes c = c * 8 ↔ c * 8 < 2 ^ 64 := by
  unfold reallocBytes
  omega

theorem Grows.of_le (hn : n ≤ 2 ^ 60) : Grows n := by
  obtain ⟨c, hc, hleast⟩ := newCapacity_least (n := n) (by omega)
  obtain ⟨j, hj, -, hsmall⟩ := getNewCapacity_some hn
  obtain rfl := hc.unique (getNewCapacity_iff.mp hj)
  exact ⟨2 ^ j, hc, hleast, reallocBytes_eq.mpr (pow_small.mpr hsmall)⟩

theorem Grows.le (h : Grows n) : n ≤ 2 ^ 60 := by
  obtain ⟨c, ⟨rounds, hc⟩, -, hbytes⟩ := h
  obtain ⟨j, rfl, hle⟩ := newCapacityLoop_pow (k := 0) (by decide) hc
  have hj : j ≤ 60 := pow_small.mp (reallocBytes_eq.mp hbytes)
  exact hle.trans (Nat.pow_le_pow_right (by decide) hj)

/-- What does not fit wraps around to nothing: `realloc` frees the array. -/
theorem newCapacity_freed (hn : 2 ^ 60 < n) (hc : NewCapacity n c) : reallocBytes c = 0 := by
  obtain ⟨rounds, hrounds⟩ := hc
  obtain ⟨j, rfl, hle⟩ := newCapacityLoop_pow (k := 0) (by decide) hrounds
  have hj : 60 < j := (Nat.pow_lt_pow_iff_right (by decide)).mp (Nat.lt_of_lt_of_le hn hle)
  obtain ⟨i, rfl⟩ := Nat.exists_eq_add_of_le (show 61 ≤ j from hj)
  rw [reallocBytes, show 2 ^ (61 + i) * 8 = 2 ^ 64 * 2 ^ i by rw [Nat.pow_add]; omega,
    Nat.mul_mod_right]

/-- `vector_reserve` is `reserve` above: it goes wrong exactly where the
request is not met. -/
theorem Vec.reserve_isSome_iff {V S : Type*} (E : Element V S) {v : Vec V} {l spare : List V}
    (h : v.Holds l spare) : (v.reserve E n).isSome ↔ Grows n := by
  constructor
  · intro hsome
    refine Grows.of_le ?_
    by_contra hn
    rw [Vec.reserve_none E h (by omega)] at hsome
    cases hsome
  · intro hgrows
    obtain ⟨v', k, hres, -⟩ := Vec.reserve_spec E h hgrows.le
    rw [hres]
    rfl

/-- A request is met exactly if there is memory for the number of its elements
rounded up: the loop finds the least power of two that is large enough, and eight
bytes for each slot are still a `size_t`. Beyond that the loop goes on to a power
that is 0 in a `size_t` and never ends, or the number of bytes wraps around. -/
theorem grows_iff (n : Nat) : Grows n ↔ n ≤ 2 ^ 60 := ⟨Grows.le, Grows.of_le⟩

/-- One element more than 2^60 gets a capacity of 2^61, and an array of no
bytes; one more than 2^63 keeps the loop going. -/
theorem grows_overflow :
    ¬ Grows (2 ^ 60 + 1) ∧ NewCapacity (2 ^ 60 + 1) (2 ^ 61) ∧ reallocBytes (2 ^ 61) = 0
      ∧ ¬ Grows (2 ^ 63 + 1) ∧ ∀ rounds, newCapacityLoop (2 ^ 63 + 1) rounds 1 = none := by
  have hcap : NewCapacity (2 ^ 60 + 1) (2 ^ 61) := ⟨65, by decide⟩
  refine ⟨?_, hcap, newCapacity_freed (by decide) hcap, ?_, ?_⟩
  · intro h
    exact absurd h.le (by decide)
  · intro h
    exact absurd h.le (by decide)
  · exact newCapacityLoop_top (by decide)

end KeyLime
