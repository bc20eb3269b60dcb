import Mathlib.Data.List.Induction
import KeyLime.Record
import KeyLime.Slots

/-!
# Vectors

`vector.c`. A `size_t` is a number below 2^64, and subtraction wraps around.
The constructors and the destructor of the elements are arbitrary functions
that may read and write memory (`Element`); `history` is what was called, with
the results. `none` is an access outside of the array, or a capacity whose
number of bytes wraps around; allocations do not fail.

The functions are those of the source with their loops as recursions: on the
fuel of 64 doublings for `get_new_capacity`, on the number of slots for the
rest. An array is a list of slots (`Slots`), and a vector of `size` elements is
one whose first slots hold them (`Vec.Holds`); behind them are slots nobody
vouches for.

What is proved here is what a loop does to such a vector, one lemma for each
(`shrink_spec`, `grow_spec`, `clearLoop_spec`, `destroyLoop_spec`), and what
`vector_reserve` comes to. The operations as operations on lists are the next
module, and who destroys the elements the one behind it.
-/

namespace KeyLime

/-- What a vector is told about its elements, and the null pointer. The three
functions are given the state of the memory, and are otherwise any: a constructor
may return what it likes, and need not be one of copies. -/
structure Element (V S : Type*) where
  null : V
  copyConstructor : V → S → V × S
  destructor : V → S → S
  defaultConstructor : S → V × S

/-- A call of one of the three functions, with what it returned. -/
inductive ElementCall (V : Type*) where
  | copied (element r : V)
  | made (r : V)
  | destroyed (v : V)
deriving DecidableEq

structure World (V S : Type*) where
  memory : S
  history : List (ElementCall V)
deriving DecidableEq

structure Vec (V : Type*) where
  array : List V
  size : Nat
  capacity : Nat
deriving DecidableEq

variable {V S : Type*}

namespace Element

variable (E : Element V S)

def copy (element : V) (w : World V S) : V × World V S :=
  let (r, s) := E.copyConstructor element w.memory
  (r, ⟨s, w.history ++ [.copied element r]⟩)

def make (w : World V S) : V × World V S :=
  let (r, s) := E.defaultConstructor w.memory
  (r, ⟨s, w.history ++ [.made r]⟩)

def destroy (v : V) (w : World V S) : World V S :=
  ⟨E.destructor v w.memory, w.history ++ [.destroyed v]⟩

end Element

/-! ## `size_t` -/

def sizeSub (a b : Nat) : Nat := (a + 2 ^ 64 - b) % 2 ^ 64

/-- The loop of `get_new_capacity`. After 64 rounds the capacity is 0, and
stays so. -/
def newCapacityLoop (target : Nat) : Nat → Nat → Option Nat
  | 0, _ => none
  | rounds + 1, c =>
      if c < target then newCapacityLoop target rounds (c * 2 % 2 ^ 64) else some c

def getNewCapacity (target : Nat) : Option Nat := newCapacityLoop target 65 1

namespace Vec

def initialCapacity : Nat := 10

/-! ## Slots -/

def read (v : Vec V) (i : Nat) : Option V := v.array[i]?

def write (v : Vec V) (i : Nat) (x : V) : Option (Vec V) :=
  if i < v.array.length then some { v with array := v.array.set i x } else none

/-- `memmove` on slots. -/
def memmove (v : Vec V) (dest src n : Nat) : Option (Vec V) :=
  if dest + n ≤ v.array.length ∧ src + n ≤ v.array.length then
    some { v with array := Slots.move v.array dest src n }
  else none

/-! ## The operations -/

variable (E : Element V S)

def create : Vec V :=
  { array := List.replicate initialCapacity E.null, size := 0, capacity := initialCapacity }

/-- `vector_reserve`. `realloc` is given `newcap * sizeof(void*)` bytes. -/
def reserve (v : Vec V) (n : Nat) : Option (Vec V) :=
  if v.capacity < n then
    (getNewCapacity n).bind fun newcap =>
      if newcap * 8 < 2 ^ 64 then
        some { v with
          array := v.array ++ List.replicate (newcap - v.capacity) E.null
          capacity := newcap }
      else none
  else some v

/-- The loop of `vector_resize` that goes down from index `i` while that is
above `bound`. -/
def shrink (bound : Nat) : Nat → Vec V → World V S → Option (Vec V × World V S)
  | 0, v, w => some (v, w)
  | i + 1, v, w =>
      if bound < i + 1 then
        (v.read (i + 1)).bind fun x =>
          (v.write (i + 1) E.null).bind fun v => shrink bound i v (E.destroy x w)
      else some (v, w)

/-- The loop that fills `n` slots from index `i` on. -/
def grow : Nat → Nat → Vec V → World V S → Option (Vec V × World V S)
  | 0, _, v, w => some (v, w)
  | n + 1, i, v, w =>
      let (r, w) := E.make w
      (v.write i r).bind fun v => grow n (i + 1) v w

def resize (v : Vec V) (n : Nat) (w : World V S) : Option (Vec V × World V S) :=
  if n = v.size then some (v, w)
  else if n < v.size then
    (shrink E (sizeSub n 1) (v.size - 1) v w).map fun (v, w) => ({ v with size := n }, w)
  else
    (v.reserve E n).bind fun v =>
      (grow E (n - v.size) v.size v w).map fun (v, w) => ({ v with size := n }, w)

def vectorSet (v : Vec V) (position : Nat) (element : V) (w : World V S) :
    Option (Vec V × World V S) :=
  (v.read position).bind fun x =>
    let (r, w) := E.copy element (E.destroy x w)
    (v.write position r).map fun v => (v, w)

def vectorGet (v : Vec V) (position : Nat) : Option V := v.read position

def pushBack (v : Vec V) (element : V) (w : World V S) : Option (Vec V × World V S) :=
  (v.reserve E (v.size + 1)).bind fun v =>
    let (r, w) := E.copy element w
    (v.write v.size r).map fun v => ({ v with size := v.size + 1 }, w)

def popBack (v : Vec V) (w : World V S) : Option (Vec V × World V S) :=
  if v.size = 0 then some (v, w)
  else
    (v.read (v.size - 1)).bind fun x =>
      (v.write (v.size - 1) E.null).map fun v => ({ v with size := v.size - 1 }, E.destroy x w)

def insert (v : Vec V) (position : Nat) (element : V) (w : World V S) :
    Option (Vec V × World V S) :=
  (v.reserve E (v.size + 1)).bind fun v =>
    (if position < v.size then v.memmove (position + 1) position (v.size - position)
      else some v).bind fun v =>
      let (r, w) := E.copy element w
      (v.write position r).map fun v => ({ v with size := v.size + 1 }, w)

def erase (v : Vec V) (position : Nat) (w : World V S) : Option (Vec V × World V S) :=
  if position = sizeSub v.size 1 then v.popBack E w
  else
    (v.read position).bind fun x =>
      (v.write position E.null).bind fun v =>
        (v.memmove position (position + 1) (sizeSub (sizeSub v.size position) 1)).bind fun v =>
          (v.write (v.size - 1) E.null).map fun v =>
            ({ v with size := v.size - 1 }, E.destroy x w)

def clearLoop : Nat → Nat → Vec V → World V S → Option (Vec V × World V S)
  | 0, _, v, w => some (v, w)
  | n + 1, i, v, w =>
      (v.read i).bind fun x =>
        (v.write i E.null).bind fun v => clearLoop n (i + 1) v (E.destroy x w)

def clear (v : Vec V) (w : World V S) : Option (Vec V × World V S) :=
  (clearLoop E v.size 0 v w).map fun (v, w) => ({ v with size := 0 }, w)

def destroyLoop : Nat → Nat → Vec V → World V S → Option (World V S)
  | 0, _, _, w => some w
  | n + 1, i, v, w => (v.read i).bind fun x => destroyLoop n (i + 1) v (E.destroy x w)

/-- `vector_destroy`, with what is left of the world. -/
def destroy (v : Vec V) (w : World V S) : Option (World V S) := destroyLoop E v.size 0 v w

end Vec

/-! ## Capacities -/

theorem newCapacityLoop_zero {target : Nat} (h : 0 < target) (rounds : Nat) :
    newCapacityLoop target rounds 0 = none := by
  induction rounds with
  | zero => rfl
  | succ rounds ih =>
      rw [newCapacityLoop, if_pos h]
      exact ih

theorem newCapacityLoop_pow {target c k rounds : Nat} (hk : k < 64)
    (h : newCapacityLoop target rounds (2 ^ k) = some c) : ∃ j, c = 2 ^ j ∧ target ≤ 2 ^ j := by
  induction rounds generalizing k with
  | zero => cases h
  | succ rounds ih =>
      rw [newCapacityLoop] at h
      split at h
      · rename_i hlt
        rw [← Nat.pow_succ] at h
        rcases Nat.lt_or_ge (k + 1) 64 with hk' | hk'
        · rw [Nat.mod_eq_of_lt (Nat.pow_lt_pow_right (by decide) hk')] at h
          exact ih hk' h
        · obtain rfl : k = 63 := by omega
          rw [Nat.mod_self, newCapacityLoop_zero (by omega)] at h
          cases h
      · rename_i hge
        exact ⟨k, (Option.some.inj h).symm, by omega⟩

theorem newCapacityLoop_some {target j : Nat} (htarget : target ≤ 2 ^ j) (hj : j < 64) :
    ∀ {r k : Nat}, k ≤ j → j < k + r →
      ∃ c, newCapacityLoop target r (2 ^ k) = some c ∧ (c < 2 * target ∨ c = 2 ^ k)
  | 0, k, hle, hlt => by omega
  | r + 1, k, hle, hlt => by
      rw [newCapacityLoop]
      split
      · rename_i hless
        have hk : k < j := (Nat.pow_lt_pow_iff_right (by decide)).mp (Nat.lt_of_lt_of_le hless htarget)
        rw [← Nat.pow_succ, Nat.mod_eq_of_lt (Nat.pow_lt_pow_right (by decide) (by omega))]
        obtain ⟨c, hc, hsmall⟩ := newCapacityLoop_some htarget hj (r := r) hk (by omega)
        refine ⟨c, hc, Or.inl ?_⟩
        rw [Nat.pow_succ] at hsmall
        omega
      · exact ⟨2 ^ k, rfl, Or.inr rfl⟩

theorem pow_small {j : Nat} : 2 ^ j * 8 < 2 ^ 64 ↔ j ≤ 60 := by
  rw [show 2 ^ j * 8 = 2 ^ (j + 3) by rw [Nat.pow_add], Nat.pow_lt_pow_iff_right (by decide)]
  omega

theorem getNewCapacity_pow {target c : Nat} (h : getNewCapacity target = some c) :
    ∃ j, c = 2 ^ j ∧ target ≤ 2 ^ j :=
  newCapacityLoop_pow (k := 0) (by decide) h

theorem getNewCapacity_some {target : Nat} (h : target ≤ 2 ^ 60) :
    ∃ j, getNewCapacity target = some (2 ^ j) ∧ target ≤ 2 ^ j ∧ j ≤ 60 := by
  obtain ⟨c, hc, hsmall⟩ := newCapacityLoop_some h (by decide) (r := 65) (k := 0) (Nat.zero_le 60)
    (by decide)
  obtain ⟨j, rfl, hle⟩ := getNewCapacity_pow hc
  refine ⟨j, hc, hle, ?_⟩
  have hlt : 2 ^ j < 2 ^ 61 := by
    rcases hsmall with hlt | heq
    · omega
    · rw [heq]
      decide
  have := (Nat.pow_lt_pow_iff_right (by decide)).mp hlt
  omega

namespace Vec

variable (E : Element V S) {v v' : Vec V} {l spare : List V} {n : Nat}

/-- A vector whose slots in use are `l`, with others behind them. `capacity` is the
number of slots there are, and is a number of slots that `malloc` can be asked for. -/
structure Holds (v : Vec V) (l spare : List V) : Prop where
  array : v.array = l ++ spare
  size : v.size = l.length
  capacity : v.capacity = l.length + spare.length
  bound : v.capacity ≤ 2 ^ 60

theorem create_holds : (create E).Holds [] (List.replicate initialCapacity E.null) := by
  refine ⟨rfl, rfl, ?_, ?_⟩
  · rw [List.length_replicate, List.length_nil, Nat.zero_add]
    rfl
  · show initialCapacity ≤ 2 ^ 60
    decide

theorem reserve_spec (h : v.Holds l spare) (hn : n ≤ 2 ^ 60) :
    ∃ v' k, v.reserve E n = some v' ∧ v'.Holds l (spare ++ List.replicate k E.null)
      ∧ n ≤ v'.capacity := by
  unfold reserve
  split
  · rename_i hlt
    obtain ⟨j, hcap, hle, hj⟩ := getNewCapacity_some hn
    have hbound : 2 ^ j ≤ 2 ^ 60 := Nat.pow_le_pow_right (by decide) hj
    have hcapacity := h.capacity
    refine ⟨{ v with
        array := v.array ++ List.replicate (2 ^ j - v.capacity) E.null
        capacity := 2 ^ j }, 2 ^ j - v.capacity, ?_, ⟨?_, h.size, ?_, hbound⟩, hle⟩
    · rw [hcap, Option.bind_some, if_pos (pow_small.mpr hj)]
    · show v.array ++ _ = _
      rw [h.array, List.append_assoc]
    · show 2 ^ j = _
      rw [List.length_append, List.length_replicate]
      omega
  · rename_i hge
    exact ⟨v, 0, rfl, by rw [List.replicate_zero, List.append_nil]; exact h, by omega⟩

theorem reserve_none (h : v.Holds l spare) (hn : 2 ^ 60 < n) : v.reserve E n = none := by
  have hbound := h.bound
  unfold reserve
  rw [if_pos (by omega)]
  cases hc : getNewCapacity n with
  | none => rfl
  | some c =>
      obtain ⟨j, rfl, hle⟩ := getNewCapacity_pow hc
      have hj : ¬ j ≤ 60 := by
        intro hj
        have := Nat.pow_le_pow_right (n := 2) (by decide) hj
        omega
      rw [Option.bind_some, if_neg (mt pow_small.mp hj)]

/-! ## The loops -/

variable {xs ys zs : List V} {w w' : World V S} {i : Nat} {x : V}

theorem read_at (ha : v.array = xs ++ x :: zs) : v.read xs.length = some x := by
  rw [read, ha, List.getElem?_append_right (Nat.le_refl _), Nat.sub_self]
  rfl

theorem write_at (y : V) (ha : v.array = xs ++ x :: zs) :
    v.write xs.length y = some { v with array := xs ++ y :: zs } := by
  have hlt : xs.length < v.array.length := by
    rw [ha, List.length_append, List.length_cons]
    omega
  rw [write, if_pos hlt, ha, Slots.set_spare, List.append_assoc]
  rfl

theorem shrink_spec (ha : v.array = xs ++ ys ++ zs) (hx : 0 < xs.length)
    (hi : xs.length + ys.length = i + 1) :
    ∃ w', shrink E (xs.length - 1) i v w =
        some ({ v with array := xs ++ (List.replicate ys.length E.null ++ zs) }, w')
      ∧ w'.history = w.history ++ ys.reverse.map .destroyed := by
  induction ys using List.reverseRecOn generalizing v w zs i with
  | nil =>
      have hstop : shrink E (xs.length - 1) i v w = some (v, w) := by
        cases i with
        | zero => rfl
        | succ i => rw [shrink, if_neg (by rw [List.length_nil] at hi; omega)]
      have hsame : { v with array := xs ++ (List.replicate 0 E.null ++ zs) } = v := by
        rw [List.replicate_zero, List.nil_append, ← List.append_nil xs, ← ha]
      refine ⟨w, ?_, (List.append_nil _).symm⟩
      rw [hstop, List.length_nil, hsame]
  | append_singleton ys y ih =>
      rw [List.length_append, List.length_singleton] at hi
      cases i with
      | zero => omega
      | succ i =>
          have hlast : i + 1 = (xs ++ ys).length := by
            rw [List.length_append]
            omega
          have ha' : v.array = (xs ++ ys) ++ y :: zs := by
            rw [ha]
            simp
          obtain ⟨w', hrest, hhist⟩ := ih (v := { v with array := xs ++ ys ++ E.null :: zs })
            (w := E.destroy y w) (i := i) rfl (by omega)
          refine ⟨w', ?_, ?_⟩
          · rw [shrink, if_pos (by omega), hlast, read_at ha', Option.bind_some,
              write_at E.null ha', Option.bind_some, hrest, List.length_append,
              List.length_singleton, List.replicate_succ']
            simp
          · rw [hhist, List.reverse_append]
            show (w.history ++ [.destroyed y]) ++ _ = _
            simp

theorem shrink_none {bound : Nat} (h : i ≤ bound) : shrink E bound i v w = some (v, w) := by
  cases i with
  | zero => rfl
  | succ i => rw [shrink, if_neg (by omega)]

theorem grow_spec (ha : v.array = xs ++ ys) (hn : n ≤ ys.length) :
    ∃ rs w', grow E n xs.length v w = some ({ v with array := xs ++ rs ++ ys.drop n }, w')
      ∧ rs.length = n ∧ w'.history = w.history ++ rs.map .made := by
  induction n generalizing v w xs ys with
  | zero =>
      refine ⟨[], w, ?_, rfl, (List.append_nil _).symm⟩
      have hsame : { v with array := xs ++ [] ++ ys.drop 0 } = v := by
        rw [List.append_nil, List.drop_zero, ← ha]
      rw [grow, hsame]
  | succ n ih =>
      cases ys with
      | nil => simp at hn
      | cons y ys =>
          have hn' : n ≤ ys.length := by
            rw [List.length_cons] at hn
            omega
          have hnext : ({ v with array := xs ++ (E.make w).1 :: ys } : Vec V).array =
              (xs ++ [(E.make w).1]) ++ ys := by simp
          obtain ⟨rs, w', hrest, hlen, hhist⟩ := ih (w := (E.make w).2) hnext hn'
          refine ⟨(E.make w).1 :: rs, w', ?_, by rw [List.length_cons, hlen], ?_⟩
          · rw [List.length_append, List.length_singleton] at hrest
            simp only [grow, write_at _ ha, Option.bind_some, hrest]
            simp
          · rw [hhist]
            show (w.history ++ [.made (E.make w).1]) ++ _ = _
            simp

theorem clearLoop_spec (ha : v.array = xs ++ ys ++ zs) :
    ∃ w', clearLoop E ys.length xs.length v w =
        some ({ v with array := xs ++ List.replicate ys.length E.null ++ zs }, w')
      ∧ w'.history = w.history ++ ys.map .destroyed := by
  induction ys generalizing v w xs with
  | nil =>
      refine ⟨w, ?_, (List.append_nil _).symm⟩
      have hsame : { v with array := xs ++ List.replicate 0 E.null ++ zs } = v := by
        rw [List.replicate_zero, ← ha]
      rw [List.length_nil, clearLoop, hsame]
  | cons y ys ih =>
      have ha' : v.array = xs ++ y :: (ys ++ zs) := by
        rw [ha]
        simp
      have hnext : ({ v with array := xs ++ E.null :: (ys ++ zs) } : Vec V).array =
          (xs ++ [E.null]) ++ ys ++ zs := by simp
      obtain ⟨w', hrest, hhist⟩ := ih (w := E.destroy y w) hnext
      refine ⟨w', ?_, ?_⟩
      · rw [List.length_append, List.length_singleton] at hrest
        simp only [clearLoop, List.length_cons, read_at ha', write_at _ ha', Option.bind_some, hrest,
          List.replicate_succ]
        simp
      · rw [hhist]
        show (w.history ++ [.destroyed y]) ++ _ = _
        simp

theorem destroyLoop_spec (ha : v.array = xs ++ ys ++ zs) :
    ∃ w', destroyLoop E ys.length xs.length v w = some w'
      ∧ w'.history = w.history ++ ys.map .destroyed := by
  induction ys generalizing w xs with
  | nil => exact ⟨w, rfl, (List.append_nil _).symm⟩
  | cons y ys ih =>
      have ha' : v.array = xs ++ y :: (ys ++ zs) := by
        rw [ha]
        simp
      have hnext : v.array = (xs ++ [y]) ++ ys ++ zs := by
        rw [ha]
        simp
      obtain ⟨w', hrest, hhist⟩ := ih (w := E.destroy y w) hnext
      refine ⟨w', ?_, ?_⟩
      · rw [List.length_append, List.length_singleton] at hrest
        simp only [destroyLoop, List.length_cons, read_at ha', Option.bind_some, hrest]
      · rw [hhist]
        show (w.history ++ [.destroyed y]) ++ _ = _
        simp

end Vec

end KeyLime
