import KeyLime.Vector

/-!
# What a vector holds

Each operation with a position in range does to the slots in use what the
operation on lists does to a list (`exec_effect`), with what the constructors
have returned. So does every sequence of operations on a new vector
(`refines_list`).

Elements are copied in, so the contents are not the arguments but results of
the copy constructor, which may have looked at memory. An operation on lists is
therefore given the results (`onList`), and the theorem says apart what the
constructors were asked for (`wants`) and what they have returned (`results`).

The plan:

* `Works`: an operation is carried out with this effect. One lemma for each
  operation, from the lemmas about the loops.
* `exec_effect`: whatever the operation is, if its position is in range and its
  slots fit into memory, it works.
* `execAll_spec`: the induction over a sequence, which carries the numbers of
  elements along, since they decide what is in range.

`vector_resize` to 0 is part of this like any other operation; that it leaks
what it takes out is a matter of `Ownership`.
-/

namespace KeyLime

variable {V S : Type*}

/-! ## The calls -/

/-- The calls of the constructors: the element that was to be copied, or none
for the default constructor, and the result. -/
def built (cs : List (ElementCall V)) : List (Option V × V) :=
  cs.filterMap fun
    | .copied element r => some (some element, r)
    | .made r => some (none, r)
    | .destroyed _ => none

def results (cs : List (ElementCall V)) : List V := (built cs).map Prod.snd

def gone (cs : List (ElementCall V)) : List V :=
  cs.filterMap fun
    | .destroyed v => some v
    | _ => none

variable {cs ds : List (ElementCall V)} {xs : List V}

@[simp] theorem built_append : built (cs ++ ds) = built cs ++ built ds := List.filterMap_append

@[simp] theorem results_append : results (cs ++ ds) = results cs ++ results ds := by
  rw [results, built_append, List.map_append]
  rfl

@[simp] theorem gone_append : gone (cs ++ ds) = gone cs ++ gone ds := List.filterMap_append

@[simp] theorem built_destroyed : built (xs.map .destroyed) = [] := by
  induction xs with
  | nil => rfl
  | cons x xs ih => exact ih

@[simp] theorem gone_destroyed : gone (xs.map .destroyed) = xs := by
  induction xs with
  | nil => rfl
  | cons x xs ih => exact congrArg (x :: ·) ih

@[simp] theorem results_destroyed : results (xs.map .destroyed) = [] := by
  rw [results, built_destroyed]
  rfl

@[simp] theorem built_made : built (xs.map .made) = xs.map fun x => (none, x) := by
  induction xs with
  | nil => rfl
  | cons x xs ih => exact congrArg ((none, x) :: ·) ih

@[simp] theorem gone_made : gone (xs.map .made) = [] := by
  induction xs with
  | nil => rfl
  | cons x xs ih => exact ih

@[simp] theorem results_made : results (xs.map .made) = xs := by
  rw [results, built_made, List.map_map]
  exact List.map_id _

/-! ## Operations -/

inductive VecOp (V : Type*) where
  | pushBack (element : V)
  | popBack
  | insert (position : Nat) (element : V)
  | erase (position : Nat)
  | set (position : Nat) (element : V)
  | get (position : Nat)
  | resize (n : Nat)
  | reserve (n : Nat)
  | clear
deriving DecidableEq

namespace VecOp

def exec (E : Element V S) (v : Vec V) (w : World V S) : VecOp V → Option (Vec V × World V S)
  | .pushBack element => v.pushBack E element w
  | .popBack => v.popBack E w
  | .insert position element => v.insert E position element w
  | .erase position => v.erase E position w
  | .set position element => v.vectorSet E position element w
  | .get position => (v.vectorGet position).map fun _ => (v, w)
  | .resize n => v.resize E n w
  | .reserve n => (v.reserve E n).map fun v => (v, w)
  | .clear => v.clear E w

/-- A position the operation is for, on a vector of that size. -/
def inRange (size : Nat) : VecOp V → Bool
  | .insert position _ => position ≤ size
  | .erase position | .set position _ | .get position => position < size
  | _ => true

/-- How many elements there must be room for. -/
def asks (size : Nat) : VecOp V → Nat
  | .pushBack _ | .insert _ _ => size + 1
  | .resize n | .reserve n => n
  | _ => 0

def newSize (size : Nat) : VecOp V → Nat
  | .pushBack _ | .insert _ _ => size + 1
  | .popBack | .erase _ => size - 1
  | .resize n => n
  | .clear => 0
  | _ => size

/-- The elements the vector is to get: copies, and values of the default
constructor. -/
def wants (size : Nat) : VecOp V → List (Option V)
  | .pushBack element | .insert _ element | .set _ element => [some element]
  | .resize n => List.replicate (n - size) none
  | _ => []

/-- The operation on a list, with the elements it gets. -/
def onList (new l : List V) : VecOp V → List V
  | .pushBack _ => l ++ new
  | .popBack => l.dropLast
  | .insert position _ => l.take position ++ new ++ l.drop position
  | .erase position => l.eraseIdx position
  | .set position _ => l.take position ++ new ++ l.drop (position + 1)
  | .get _ | .reserve _ => l
  | .resize n => l.take n ++ new
  | .clear => []

/-- `vector_resize` to 0, for which the loop has no element to begin with. -/
def leaks (size : Nat) : VecOp V → Bool
  | .resize n => n = 0 ∧ size ≠ 0
  | _ => false

/-- The calls of an operation on a vector that holds `l`, and the slots behind
what it holds, before and after. -/
structure Effect (E : Element V S) (op : VecOp V) (l spare : List V) (cs : List (ElementCall V))
    (spare' : List V) : Prop where
  wants : (built cs).map Prod.fst = op.wants l.length
  balance : op.leaks l.length = false → (gone cs ++ op.onList (results cs) l).Perm (l ++ results cs)
  spare : op.leaks l.length = false → ∀ x ∈ spare', x ∈ spare ∨ x = E.null
  leak : op.leaks l.length = true → gone cs = []

def Works (E : Element V S) (op : VecOp V) (v : Vec V) (l spare : List V) (w : World V S) : Prop :=
  ∃ v' w' cs spare', op.exec E v w = some (v', w') ∧ w'.history = w.history ++ cs
    ∧ v'.Holds (op.onList (results cs) l) spare' ∧ Effect E op l spare cs spare'

end VecOp

namespace Vec

variable {E : Element V S} {v v' : Vec V} {l spare : List V} {w : World V S} {n i : Nat} {x e : V}

theorem Holds.of_spare {x : V} {xs : List V} (h : v.Holds l (x :: xs)) (y : V) :
    ({ v with array := l ++ y :: xs, size := l.length + 1 } : Vec V).Holds (l ++ [y]) xs := by
  refine ⟨by simp, by simp, ?_, h.bound⟩
  have := h.capacity
  simp only [List.length_append, List.length_cons, List.length_nil] at this ⊢
  omega

theorem reserve_one (h : v.Holds l spare) (hn : l.length + 1 ≤ 2 ^ 60) :
    ∃ v' x xs, v.reserve E (v.size + 1) = some v' ∧ v'.Holds l (x :: xs)
      ∧ ∀ y ∈ xs, y ∈ spare ∨ y = E.null := by
  obtain ⟨v', k, hres, hholds, hroom⟩ := reserve_spec E h (n := v.size + 1) (by rw [h.size]; exact hn)
  have hsize := h.size
  have hcap := hholds.capacity
  cases hs : spare ++ List.replicate k E.null with
  | nil =>
      rw [hs, List.length_nil] at hcap
      omega
  | cons x xs =>
      refine ⟨v', x, xs, hres, hs ▸ hholds, ?_⟩
      intro y hy
      have hmem : y ∈ spare ++ List.replicate k E.null := hs ▸ List.mem_cons_of_mem x hy
      exact (List.mem_append.mp hmem).imp_right List.eq_of_mem_replicate

theorem pushBack_works (h : v.Holds l spare) (hn : l.length + 1 ≤ 2 ^ 60) :
    VecOp.Works E (.pushBack e) v l spare w := by
  obtain ⟨v', x, xs, hres, hholds, hspare⟩ := reserve_one (E := E) h hn
  have hwrite := write_at (E.copy e w).1 hholds.array
  refine ⟨_, (E.copy e w).2, [.copied e (E.copy e w).1], xs, ?_, rfl,
    hholds.of_spare (E.copy e w).1, rfl, fun _ => List.Perm.refl _, fun _ => hspare, by simp [VecOp.leaks]⟩
  simp only [VecOp.exec, pushBack, hres, Option.bind_some, hholds.size, hwrite, Option.map_some]

theorem popBack_works (h : v.Holds l spare) : VecOp.Works E .popBack v l spare w := by
  have hsize := h.size
  cases l using List.reverseRecOn with
  | nil =>
      refine ⟨v, w, [], spare, ?_, (List.append_nil _).symm, h, rfl, fun _ => List.Perm.refl _,
        fun _ x hx => Or.inl hx, by simp [VecOp.leaks]⟩
      simp only [VecOp.exec, popBack]
      rw [if_pos (by simpa using hsize)]
  | append_singleton ys y =>
      have ha : v.array = ys ++ y :: spare := by
        rw [h.array]
        simp
      have hlast : v.size - 1 = ys.length := by
        rw [hsize]
        simp
      refine ⟨{ v with array := ys ++ E.null :: spare, size := ys.length }, E.destroy y w,
        [.destroyed y], E.null :: spare, ?_, rfl, ⟨?_, ?_, ?_, h.bound⟩, rfl, fun _ => ?_,
        fun _ x hx => (List.mem_cons.mp hx).symm, by simp [VecOp.leaks]⟩
      · simp only [VecOp.exec, popBack]
        rw [if_neg (by rw [hsize]; simp), hlast, read_at ha, Option.bind_some, write_at _ ha,
          Option.map_some, hlast]
      · simp [VecOp.onList]
      · simp [VecOp.onList]
      · have := h.capacity
        simp only [VecOp.onList, List.dropLast_concat, List.length_append, List.length_cons,
          List.length_nil] at this ⊢
        omega
      · simp only [VecOp.onList, List.dropLast_concat]
        show ([y] ++ ys).Perm (ys ++ [y] ++ [])
        rw [List.append_nil]
        exact List.perm_append_comm

theorem exists_cut (hi : i < l.length) :
    ∃ ys y zs, l = ys ++ y :: zs ∧ ys.length = i ∧ l.take i = ys ∧ l.drop (i + 1) = zs
      ∧ l.eraseIdx i = ys ++ zs := by
  refine ⟨l.take i, l[i], l.drop (i + 1), ?_, ?_, rfl, rfl, List.eraseIdx_eq_take_drop_succ _ _⟩
  · rw [List.getElem_cons_drop, List.take_append_drop]
  · rw [List.length_take]
    omega

theorem insert_works (h : v.Holds l spare) (hi : i ≤ l.length) (hn : l.length + 1 ≤ 2 ^ 60) :
    VecOp.Works E (.insert i e) v l spare w := by
  obtain ⟨v', x, xs, hres, hholds, hspare⟩ := reserve_one (E := E) h hn
  have hfront : (l.take i).length = i := by
    rw [List.length_take]
    omega
  have hback : (l.drop i).length = l.length - i := List.length_drop
  have ha : v'.array = l.take i ++ l.drop i ++ x :: xs := by
    rw [List.take_append_drop]
    exact hholds.array
  have hlen : v'.array.length = l.length + (xs.length + 1) := by
    rw [hholds.array, List.length_append, List.length_cons]
  -- The slot at the position is free to be written, behind the last element or not.
  have hmoved : ∃ v₁, (if i < l.length then v'.memmove (i + 1) i (l.length - i) else some v') =
        some v₁ ∧ ∀ r, v₁.write i r =
          some { v' with array := l.take i ++ r :: l.drop i ++ xs, size := l.length } := by
    split
    · rename_i hlt
      refine ⟨{ v' with array := Slots.move v'.array (i + 1) i (l.length - i) }, ?_, ?_⟩
      · rw [memmove, if_pos (by omega)]
      · intro r
        have hroom : i < (Slots.move v'.array (i + 1) i (l.length - i)).length := by
          rw [Slots.length_move (by omega) (by omega)]
          omega
        have hset : (Slots.move v'.array (i + 1) i (l.length - i)).set i r =
            l.take i ++ r :: l.drop i ++ xs := by
          have hup : (Slots.move (l.take i ++ l.drop i ++ x :: xs) ((l.take i).length + 1)
              (l.take i).length (l.drop i).length).set (l.take i).length r =
                l.take i ++ r :: l.drop i ++ xs := Slots.set_move_up r
          rw [hfront, hback] at hup
          rw [ha]
          exact hup
        rw [write, if_pos hroom, hset, hholds.size]
    · rename_i hge
      have hall : l.drop i = [] := List.drop_of_length_le (by omega)
      refine ⟨v', rfl, ?_⟩
      intro r
      rw [hall, List.append_nil] at ha
      have hwrite := write_at r ha
      rw [hfront] at hwrite
      rw [hwrite, hall, hholds.size]
      simp
  obtain ⟨v₁, hmove, hwrite⟩ := hmoved
  have hlist : (VecOp.insert i e).onList (results [.copied e (E.copy e w).1]) l =
      l.take i ++ (E.copy e w).1 :: l.drop i := by
    show l.take i ++ [(E.copy e w).1] ++ l.drop i = _
    simp
  have hlength : (l.take i ++ (E.copy e w).1 :: l.drop i).length = l.length + 1 := by
    rw [List.length_append, List.length_cons, hfront, hback]
    omega
  refine ⟨{ v' with array := l.take i ++ (E.copy e w).1 :: l.drop i ++ xs, size := l.length + 1 },
    (E.copy e w).2, [.copied e (E.copy e w).1], xs, ?_, rfl, ?_, rfl, fun _ => ?_, fun _ => hspare,
    by simp [VecOp.leaks]⟩
  · simp only [VecOp.exec, insert, hres, Option.bind_some, hholds.size]
    rw [hmove, Option.bind_some, hwrite, Option.map_some]
  · rw [hlist]
    refine ⟨rfl, hlength.symm, ?_, hholds.bound⟩
    have := hholds.capacity
    rw [List.length_cons] at this
    rw [hlength]
    show v'.capacity = _
    omega
  · rw [hlist]
    show (l.take i ++ (E.copy e w).1 :: l.drop i).Perm (l ++ [(E.copy e w).1])
    refine List.perm_middle.trans ?_
    rw [List.take_append_drop]
    exact (List.perm_append_singleton _ _).symm

theorem erase_works (h : v.Holds l spare) (hi : i < l.length) :
    VecOp.Works E (.erase i) v l spare w := by
  have hbound := h.bound
  have hcap := h.capacity
  have hsize := h.size
  have hlast : sizeSub v.size 1 = l.length - 1 := by
    rw [hsize, sizeSub]
    omega
  by_cases hpos : i = l.length - 1
  · -- The last position is left to `vector_pop_back`.
    obtain ⟨v', w', cs, spare', hexec, hhist, hholds, heff⟩ := popBack_works (E := E) (w := w) h
    have hlist : (VecOp.erase i).onList (results cs) l = VecOp.popBack.onList (results cs) l := by
      rw [hpos]
      exact List.eraseIdx_length_sub_one
    refine ⟨v', w', cs, spare', ?_, hhist, hlist ▸ hholds, heff.wants, fun hl => ?_, heff.spare,
      heff.leak⟩
    · rw [← hexec]
      simp only [VecOp.exec, erase]
      rw [if_pos (hpos.trans hlast.symm)]
    · rw [hlist]
      exact heff.balance hl
  · obtain ⟨ys, y, zs, rfl, rfl, -, -, herase⟩ := exists_cut hi
    rw [List.length_append, List.length_cons] at hpos hi hcap hsize hlast
    have ha : v.array = ys ++ y :: (zs ++ spare) := by
      rw [h.array]
      simp
    have hcount : sizeSub (sizeSub v.size ys.length) 1 = zs.length := by
      rw [hsize, sizeSub, sizeSub]
      omega
    have hmove : ({ v with array := ys ++ E.null :: (zs ++ spare) } : Vec V).memmove ys.length
        (ys.length + 1) zs.length = some { v with
          array := Slots.move (ys ++ E.null :: zs ++ spare) ys.length (ys.length + 1) zs.length } := by
      rw [memmove, if_pos (by simp only [List.length_append, List.length_cons]; omega)]
      simp
    have hclear : ({ v with
          array := Slots.move (ys ++ E.null :: zs ++ spare) ys.length (ys.length + 1) zs.length }
            : Vec V).write (ys.length + zs.length) E.null =
        some { v with array := ys ++ zs ++ E.null :: spare } := by
      have hroom : ys.length + zs.length < (Slots.move (ys ++ E.null :: zs ++ spare) ys.length
          (ys.length + 1) zs.length).length := by
        rw [Slots.length_move] <;> simp only [List.length_append, List.length_cons] <;> omega
      rw [write, if_pos hroom, Slots.set_move_down]
    have hsub : v.size - 1 = ys.length + zs.length := by omega
    refine ⟨{ v with array := ys ++ zs ++ E.null :: spare, size := ys.length + zs.length },
      E.destroy y w, [.destroyed y], E.null :: spare, ?_, rfl, ?_, rfl, fun _ => ?_,
      fun _ x hx => (List.mem_cons.mp hx).symm, by simp [VecOp.leaks]⟩
    · simp only [VecOp.exec, erase]
      rw [if_neg (by rw [hlast]; exact hpos), read_at ha, Option.bind_some, write_at _ ha,
        Option.bind_some, hcount, hmove, Option.bind_some, hsub, hclear, Option.map_some, hsub]
    · show Vec.Holds _ ((ys ++ y :: zs).eraseIdx ys.length) _
      rw [herase]
      refine ⟨rfl, by simp, ?_, hbound⟩
      simp only [List.length_append, List.length_cons]
      omega
    · show ([y] ++ (ys ++ y :: zs).eraseIdx ys.length).Perm (ys ++ y :: zs ++ [])
      rw [herase, List.append_nil]
      show (y :: (ys ++ zs)).Perm _
      exact List.perm_middle.symm

theorem set_works (h : v.Holds l spare) (hi : i < l.length) :
    VecOp.Works E (.set i e) v l spare w := by
  obtain ⟨ys, y, zs, rfl, rfl, htake, hdrop, -⟩ := exists_cut hi
  have ha : v.array = ys ++ y :: (zs ++ spare) := by
    rw [h.array]
    simp
  have hcap := h.capacity
  have hsize := h.size
  have hlist : (VecOp.set ys.length e).onList
      (results [.destroyed y, .copied e (E.copy e (E.destroy y w)).1]) (ys ++ y :: zs) =
        ys ++ (E.copy e (E.destroy y w)).1 :: zs := by
    show (ys ++ y :: zs).take ys.length ++ [_] ++ (ys ++ y :: zs).drop (ys.length + 1) = _
    rw [htake, hdrop, List.append_assoc]
    rfl
  refine ⟨{ v with array := ys ++ (E.copy e (E.destroy y w)).1 :: (zs ++ spare) },
    (E.copy e (E.destroy y w)).2, [.destroyed y, .copied e (E.copy e (E.destroy y w)).1], spare,
    ?_, ?_, ?_, rfl, fun _ => ?_, fun _ x hx => Or.inl hx, by simp [VecOp.leaks]⟩
  · simp only [VecOp.exec, vectorSet, read_at ha, Option.bind_some, write_at _ ha, Option.map_some]
  · show (w.history ++ [.destroyed y]) ++ [.copied e (E.copy e (E.destroy y w)).1] = _
    simp
  · rw [hlist]
    refine ⟨by simp, ?_, ?_, h.bound⟩
    · simpa using hsize
    · simpa using hcap
  · rw [hlist]
    show ([y] ++ (ys ++ _ :: zs)).Perm (ys ++ y :: zs ++ [_])
    refine (List.perm_middle.cons y).trans ?_
    refine (List.Perm.swap _ _ _).trans ?_
    refine (List.Perm.cons _ List.perm_middle.symm).trans ?_
    exact (List.perm_append_singleton _ _).symm

theorem get_works (h : v.Holds l spare) (hi : i < l.length) :
    VecOp.Works E (.get i) v l spare w := by
  obtain ⟨ys, y, zs, rfl, rfl, -⟩ := exists_cut hi
  have ha : v.array = ys ++ y :: (zs ++ spare) := by
    rw [h.array]
    simp
  refine ⟨v, w, [], spare, ?_, (List.append_nil _).symm, h, rfl, fun _ => ?_,
    fun _ x hx => Or.inl hx, by simp [VecOp.leaks]⟩
  · simp only [VecOp.exec, vectorGet, read_at ha, Option.map_some]
  · show (ys ++ y :: zs).Perm (ys ++ y :: zs ++ [])
    rw [List.append_nil]

theorem reserve_works (h : v.Holds l spare) (hn : n ≤ 2 ^ 60) :
    VecOp.Works E (.reserve n) v l spare w := by
  obtain ⟨v', k, hres, hholds, -⟩ := reserve_spec E h hn
  refine ⟨v', w, [], _, ?_, (List.append_nil _).symm, hholds, rfl, fun _ => ?_, fun _ x hx => ?_,
    by simp [VecOp.leaks]⟩
  · simp only [VecOp.exec, hres, Option.map_some]
  · show l.Perm (l ++ [])
    rw [List.append_nil]
  · exact (List.mem_append.mp hx).imp_right List.eq_of_mem_replicate

theorem resize_same (h : v.Holds l spare) (hn : n = l.length) :
    VecOp.Works E (.resize n) v l spare w := by
  have hkeep : (VecOp.resize n).onList (results ([] : List (ElementCall V))) l = l := by
    show l.take n ++ [] = l
    rw [List.take_of_length_le (Nat.le_of_eq hn.symm), List.append_nil]
  refine ⟨v, w, [], spare, ?_, (List.append_nil _).symm, ?_, ?_, fun _ => ?_,
    fun _ x hx => Or.inl hx, fun _ => rfl⟩
  · simp only [VecOp.exec, resize]
    rw [if_pos (hn.trans h.size.symm)]
  · rw [hkeep]
    exact h
  · rw [VecOp.wants, hn, Nat.sub_self]
    rfl
  · rw [hkeep]
    show l.Perm (l ++ [])
    rw [List.append_nil]

theorem resize_wants (hn : n ≤ l.length) : (VecOp.resize n : VecOp V).wants l.length = [] := by
  rw [VecOp.wants, Nat.sub_eq_zero_of_le hn]
  rfl

theorem resize_zero (h : v.Holds l spare) (hne : l ≠ []) :
    VecOp.Works E (.resize 0) v l spare w := by
  have hsize := h.size
  have hpos := List.length_pos_of_ne_nil hne
  have hnone : shrink E (sizeSub 0 1) (v.size - 1) v w = some (v, w) := by
    have hcap := h.capacity
    have hbound := h.bound
    refine shrink_none E ?_
    rw [sizeSub]
    omega
  refine ⟨{ v with size := 0 }, w, [], l ++ spare, ?_, (List.append_nil _).symm,
    ⟨h.array, rfl, ?_, h.bound⟩, (resize_wants (Nat.zero_le _)).symm, fun hl => ?_, fun hl => ?_,
    fun _ => rfl⟩
  · simp only [VecOp.exec, resize]
    rw [if_neg (by omega), if_pos (by omega), hnone]
    rfl
  · show v.capacity = 0 + (l ++ spare).length
    rw [h.capacity, List.length_append, Nat.zero_add]
  all_goals
    simp only [VecOp.leaks, decide_eq_false_iff_not, true_and, not_not] at hl
    omega

theorem resize_less (h : v.Holds l spare) (hpos : n ≠ 0) (hn : n < l.length) :
    VecOp.Works E (.resize n) v l spare w := by
  have hsize := h.size
  have hcap := h.capacity
  have hbound := h.bound
  have hfront : (l.take n).length = n := by
    rw [List.length_take]
    omega
  have hback : (l.drop n).length = l.length - n := List.length_drop
  have ha : v.array = l.take n ++ l.drop n ++ spare := by
    rw [List.take_append_drop]
    exact h.array
  have hsub : sizeSub n 1 = (l.take n).length - 1 := by
    rw [hfront, sizeSub]
    omega
  obtain ⟨w', hloop, hhist⟩ := shrink_spec E (w := w) (i := v.size - 1) ha (by omega) (by omega)
  have hkeep : (VecOp.resize n).onList (results ((l.drop n).reverse.map .destroyed)) l =
      l.take n := by
    rw [results_destroyed]
    exact List.append_nil _
  refine ⟨{ v with
      array := l.take n ++ (List.replicate (l.drop n).length E.null ++ spare), size := n }, w',
    (l.drop n).reverse.map .destroyed, List.replicate (l.drop n).length E.null ++ spare,
    ?_, hhist, ?_, ?_, fun _ => ?_, fun _ x hx => ?_, fun hl => ?_⟩
  · simp only [VecOp.exec, resize]
    rw [if_neg (by omega), if_pos (by omega), hsub, hloop]
    rfl
  · rw [hkeep]
    refine ⟨rfl, hfront.symm, ?_, hbound⟩
    rw [List.length_append, List.length_replicate, hfront, hback]
    show v.capacity = _
    omega
  · rw [built_destroyed, resize_wants (Nat.le_of_lt hn)]
    rfl
  · rw [hkeep, gone_destroyed, results_destroyed, List.append_nil]
    refine ((List.reverse_perm _).append_right _).trans ?_
    refine List.perm_append_comm.trans ?_
    rw [List.take_append_drop]
  · exact (List.mem_append.mp hx).symm.imp_right List.eq_of_mem_replicate
  · simp [VecOp.leaks, hpos] at hl

theorem resize_more (h : v.Holds l spare) (hlt : l.length < n) (hn : n ≤ 2 ^ 60) :
    VecOp.Works E (.resize n) v l spare w := by
  have hsize := h.size
  obtain ⟨v', k, hres, hholds, hroom⟩ := reserve_spec E h hn
  have hcap := hholds.capacity
  obtain ⟨rs, w', hloop, hlen, hhist⟩ := grow_spec E (w := w) (n := n - l.length) hholds.array
    (by omega)
  have hlist : (VecOp.resize n).onList (results (rs.map .made)) l = l ++ rs := by
    rw [results_made]
    show l.take n ++ rs = _
    rw [List.take_of_length_le (by omega)]
  refine ⟨{ v' with
      array := l ++ rs ++ (spare ++ List.replicate k E.null).drop (n - l.length), size := n }, w',
    rs.map .made, (spare ++ List.replicate k E.null).drop (n - l.length), ?_, hhist, ?_, ?_,
    fun _ => ?_, fun _ x hx => ?_, fun hl => ?_⟩
  · simp only [VecOp.exec, resize]
    rw [if_neg (by omega), if_neg (by omega), hres, Option.bind_some, hholds.size, hloop]
    rfl
  · rw [hlist]
    refine ⟨rfl, ?_, ?_, hholds.bound⟩
    · show n = _
      rw [List.length_append, hlen]
      omega
    · show v'.capacity = _
      rw [List.length_append, List.length_drop, hlen]
      omega
  · rw [built_made, List.map_map, VecOp.wants, ← hlen]
    exact List.map_const' ..
  · rw [hlist, gone_made, results_made]
    rfl
  · exact (List.mem_append.mp (List.mem_of_mem_drop hx)).imp_right List.eq_of_mem_replicate
  · simp only [VecOp.leaks, decide_eq_true_eq] at hl
    omega

theorem resize_works (h : v.Holds l spare) (hn : n ≤ 2 ^ 60) :
    VecOp.Works E (.resize n) v l spare w := by
  rcases Nat.lt_trichotomy n l.length with hless | hsame | hmore
  · by_cases hzero : n = 0
    · subst hzero
      exact resize_zero h (List.ne_nil_of_length_pos hless)
    · exact resize_less h hzero hless
  · exact resize_same h hsame
  · exact resize_more h hmore hn

theorem clear_works (h : v.Holds l spare) : VecOp.Works E .clear v l spare w := by
  have ha : v.array = [] ++ l ++ spare := h.array
  obtain ⟨w', hloop, hhist⟩ := clearLoop_spec (E := E) (w := w) ha
  refine ⟨{ v with array := List.replicate l.length E.null ++ spare, size := 0 }, w',
    l.map .destroyed, List.replicate l.length E.null ++ spare, ?_, hhist, ⟨rfl, rfl, ?_, h.bound⟩,
    ?_, fun _ => ?_, fun _ x hx => ?_, by simp [VecOp.leaks]⟩
  · rw [List.length_nil] at hloop
    simp only [VecOp.exec, clear, h.size, hloop, Option.map_some, List.nil_append]
  · have := h.capacity
    simp only [VecOp.onList, List.length_append, List.length_replicate, List.length_nil]
    omega
  · rw [built_destroyed]
    rfl
  · rw [gone_destroyed, results_destroyed]
    rfl
  · exact (List.mem_append.mp hx).symm.imp_right List.eq_of_mem_replicate

end Vec

namespace VecOp

variable {E : Element V S} {v : Vec V} {l spare : List V} {w : World V S} {op : VecOp V}
  {ops : List (VecOp V)}

/-- **One operation**: with a position in range, and room for its elements,
it works. -/
theorem exec_effect (h : v.Holds l spare) (hr : op.inRange l.length = true)
    (ha : op.asks l.length ≤ 2 ^ 60) (w : World V S) : Works E op v l spare w := by
  cases op with
  | pushBack element => exact Vec.pushBack_works h ha
  | popBack => exact Vec.popBack_works h
  | insert position element => exact Vec.insert_works h (of_decide_eq_true hr) ha
  | erase position => exact Vec.erase_works h (of_decide_eq_true hr)
  | set position element => exact Vec.set_works h (of_decide_eq_true hr)
  | get position => exact Vec.get_works h (of_decide_eq_true hr)
  | resize n => exact Vec.resize_works h ha
  | reserve n => exact Vec.reserve_works h ha
  | clear => exact Vec.clear_works h

theorem Effect.length_results {cs : List (ElementCall V)} {spare' : List V}
    (h : Effect E op l spare cs spare') : (results cs).length = (op.wants l.length).length := by
  have := congrArg List.length h.wants
  rw [List.length_map] at this
  rw [results, List.length_map, this]

theorem length_onList {new : List V} (hr : op.inRange l.length = true)
    (hnew : new.length = (op.wants l.length).length) :
    (op.onList new l).length = op.newSize l.length := by
  cases op <;>
    simp only [inRange, decide_eq_true_eq, wants, List.length_cons, List.length_nil,
      List.length_replicate] at hr hnew <;>
    simp only [onList, newSize, List.length_append, List.length_take, List.length_drop,
      List.length_dropLast, List.length_eraseIdx, List.length_nil, hnew] <;>
    grind

/-! ## Sequences of operations -/

def execAll (E : Element V S) : List (VecOp V) → Vec V → World V S → Option (Vec V × World V S)
  | [], v, w => some (v, w)
  | op :: ops, v, w => (op.exec E v w).bind fun (v, w) => execAll E ops v w

/-- Every operation meets `c`, on a vector that has `size` elements before. -/
def always (c : Nat → VecOp V → Bool) : Nat → List (VecOp V) → Bool
  | _, [] => true
  | size, op :: ops => c size op && always c (op.newSize size) ops

def allInRange (size : Nat) (ops : List (VecOp V)) : Bool :=
  always (fun size op => op.inRange size) size ops

/-- No more than 2^60 slots are ever asked for. -/
def allFit (size : Nat) (ops : List (VecOp V)) : Bool :=
  always (fun size op => op.asks size ≤ 2 ^ 60) size ops

/-- The elements the vector is to get, in time order. -/
def wanted : Nat → List (VecOp V) → List (Option V)
  | _, [] => []
  | size, op :: ops => op.wants size ++ wanted (op.newSize size) ops

/-- The operations on a list, with the elements it gets. -/
def onLists : List (VecOp V) → List V → List V → List V
  | [], _, l => l
  | op :: ops, new, l =>
      onLists ops (new.drop (op.wants l.length).length)
        (op.onList (new.take (op.wants l.length).length) l)

theorem execAll_spec (h : v.Holds l spare) (hr : allInRange l.length ops = true)
    (ha : allFit l.length ops = true) :
    ∃ v' w' cs spare', execAll E ops v w = some (v', w') ∧ w'.history = w.history ++ cs
      ∧ v'.Holds (onLists ops (results cs) l) spare'
      ∧ (built cs).map Prod.fst = wanted l.length ops := by
  induction ops generalizing v w l spare with
  | nil => exact ⟨v, w, [], spare, rfl, (List.append_nil _).symm, h, rfl⟩
  | cons op ops ih =>
      rw [allInRange, always, Bool.and_eq_true] at hr
      rw [allFit, always, Bool.and_eq_true, decide_eq_true_eq] at ha
      obtain ⟨v₁, w₁, cs, spare₁, hexec, hhist, hholds, heff⟩ := exec_effect (E := E) h hr.1 ha.1 w
      have hlen := length_onList hr.1 heff.length_results
      obtain ⟨v', w', ds, spare', hall, hhist', hholds', hwanted⟩ :=
        ih (w := w₁) hholds (by rw [hlen]; exact hr.2) (by rw [hlen]; exact ha.2)
      refine ⟨v', w', cs ++ ds, spare', ?_, ?_, ?_, ?_⟩
      · rw [execAll, hexec]
        exact hall
      · rw [hhist', hhist, List.append_assoc]
      · rw [results_append, onLists, ← heff.length_results, List.take_left, List.drop_left]
        exact hholds'
      · rw [built_append, List.map_append, heff.wants, hwanted, hlen, wanted]

/-- **Vector operations refine list operations.** After any sequence of them
on a new vector the array has as many slots as the capacity says, and its
first slots hold what the operations on lists make of copies of the elements
and of default values. -/
theorem refines_list (E : Element V S) (memory : S) (ops : List (VecOp V))
    (hr : allInRange 0 ops = true) (ha : allFit 0 ops = true) :
    ∃ v w, execAll E ops (Vec.create E) ⟨memory, []⟩ = some (v, w)
      ∧ v.array.length = v.capacity ∧ v.size ≤ v.capacity
      ∧ v.array.take v.size = onLists ops (results w.history) []
      ∧ (built w.history).map Prod.fst = wanted 0 ops
      ∧ ∀ i < v.size, v.vectorGet i = (onLists ops (results w.history) [])[i]? := by
  obtain ⟨v, w, cs, spare, hexec, hhist, hholds, hwanted⟩ :=
    execAll_spec (w := ⟨memory, []⟩) (Vec.create_holds E) hr ha
  have hcs : w.history = cs := hhist
  have hcap := hholds.capacity
  have hsize := hholds.size
  subst hcs
  refine ⟨v, w, hexec, ?_, by omega, ?_, hwanted, ?_⟩
  · rw [hholds.array, List.length_append, hcap]
  · rw [hholds.array, hsize, List.take_left]
  · intro i hi
    rw [Vec.vectorGet, Vec.read, hholds.array, List.getElem?_append_left (hsize ▸ hi)]

/-- Elements that are numbers: the memory counts the copies, and a copy is the
element and the count. -/
def counted : Element (Nat × Nat) Nat where
  null := (0, 0)
  copyConstructor := fun element s => ((element.1, s + 1), s + 1)
  destructor := fun _ s => s
  defaultConstructor := fun s => ((9, s + 1), s + 1)

/-- Two elements, one more in front of them, three places more, and the second
element removed. -/
def somePushes : List (VecOp (Nat × Nat)) :=
  [.pushBack (5, 0), .pushBack (6, 0), .insert 0 (7, 0), .resize 5, .erase 1]

example : onLists somePushes [(5, 1), (6, 2), (7, 3), (9, 4), (9, 5)] [] =
    [(7, 3), (6, 2), (9, 4), (9, 5)] := by decide

theorem refines_list_pushes :
    ∃ v w, execAll counted somePushes (Vec.create counted) ⟨0, []⟩ = some (v, w)
      ∧ v.array.take v.size = onLists somePushes (results w.history) []
      ∧ (built w.history).map Prod.fst =
        [some (5, 0), some (6, 0), some (7, 0), none, none] := by
  obtain ⟨v, w, hexec, -, -, hlist, hwanted, -⟩ :=
    refines_list counted 0 somePushes (by decide) (by decide)
  exact ⟨v, w, hexec, hlist, hwanted⟩

end VecOp

end KeyLime
