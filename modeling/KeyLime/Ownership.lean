import KeyLime.Contents

/-!
# Who destroys the elements

A vector owns what its constructors have returned: it should call the
destructor on each of these values once, and have null pointers behind the
elements. It does, unless it is resized to 0 while it has elements
(`owned_iff`): the loop of `vector_resize` compares with `n - 1`, which is
then the greatest `size_t`.

The equivalence is proved by counting. Over a sequence of operations without a
leak, what has been returned is, as a multiset, what has been destroyed and
what is still held (`execAll_balance`), and `vector_destroy` takes care of the
rest. With leaks the numbers do not add up (`execAll_count`): a value is missing
for each element the resize has left to nobody (`leaked`), whatever comes
behind it, and none comes back. A sequence that asks for more than 2^60 slots
gets no memory at all, which is the other half of the condition.
-/

namespace KeyLime

namespace VecOp

variable {V S : Type*} {E : Element V S} {v v' : Vec V} {l spare : List V} {w w' : World V S}
  {op : VecOp V} {ops pre post : List (VecOp V)} {c : Nat → VecOp V → Bool} {size : Nat}
  {memory : S}

/-- A sequence of operations on a new vector, and `vector_destroy`: the
destructor has been called on what the constructors have returned, and every
state in between has null pointers behind the elements. -/
def Owned (E : Element V S) (memory : S) (ops : List (VecOp V)) : Prop :=
  (∃ v w w', execAll E ops (Vec.create E) ⟨memory, []⟩ = some (v, w) ∧ v.destroy E w = some w'
      ∧ (gone w'.history).Perm (results w'.history))
    ∧ ∀ pre post v w, ops = pre ++ post → execAll E pre (Vec.create E) ⟨memory, []⟩ = some (v, w) →
      ∀ x ∈ v.array.drop v.size, x = E.null

/-- The vector is never resized to 0 while it has elements. -/
def allKeep (size : Nat) (ops : List (VecOp V)) : Bool :=
  always (fun size op => !op.leaks size) size ops

theorem always_front (h : always c size (pre ++ post) = true) : always c size pre = true := by
  induction pre generalizing size with
  | nil => rfl
  | cons op pre ih =>
      rw [List.cons_append, always, Bool.and_eq_true] at h
      rw [always, Bool.and_eq_true]
      exact ⟨h.1, ih h.2⟩

/-! ## Without a leak -/

theorem execAll_balance (h : v.Holds l spare) (hnull : ∀ x ∈ spare, x = E.null)
    (hr : allInRange l.length ops = true) (ha : allFit l.length ops = true)
    (hk : allKeep l.length ops = true) (w : World V S) :
    ∃ v' w' cs l' spare', execAll E ops v w = some (v', w') ∧ w'.history = w.history ++ cs
      ∧ v'.Holds l' spare' ∧ (∀ x ∈ spare', x = E.null)
      ∧ (gone cs ++ l').Perm (l ++ results cs) := by
  induction ops generalizing v w l spare with
  | nil =>
      refine ⟨v, w, [], l, spare, rfl, (List.append_nil _).symm, h, hnull, ?_⟩
      show l.Perm (l ++ [])
      rw [List.append_nil]
  | cons op ops ih =>
      rw [allInRange, always, Bool.and_eq_true] at hr
      rw [allFit, always, Bool.and_eq_true, decide_eq_true_eq] at ha
      rw [allKeep, always, Bool.and_eq_true, Bool.not_eq_true'] at hk
      obtain ⟨v₁, w₁, cs, spare₁, hexec, hhist, hholds, heff⟩ := exec_effect (E := E) h hr.1 ha.1 w
      have hlen := length_onList hr.1 heff.length_results
      have hnull₁ : ∀ x ∈ spare₁, x = E.null :=
        fun x hx => (heff.spare hk.1 x hx).elim (hnull x) id
      obtain ⟨v', w', ds, l', spare', hall, hhist', hholds', hnull', hperm⟩ :=
        ih hholds hnull₁ (by rw [hlen]; exact hr.2) (by rw [hlen]; exact ha.2)
          (by rw [hlen]; exact hk.2) w₁
      refine ⟨v', w', cs ++ ds, l', spare', ?_, ?_, hholds', hnull', ?_⟩
      · rw [execAll, hexec]
        exact hall
      · rw [hhist', hhist, List.append_assoc]
      · rw [gone_append, results_append, List.append_assoc]
        refine (hperm.append_left (gone cs)).trans ?_
        rw [← List.append_assoc, ← List.append_assoc]
        exact (heff.balance hk.1).append_right _

/-! ## With leaks -/

/-- How many elements are left to nobody. -/
def leaked : Nat → List (VecOp V) → Nat
  | _, [] => 0
  | size, op :: ops => (if op.leaks size = true then size else 0) + leaked (op.newSize size) ops

theorem allKeep_of_leaked (h : leaked size ops = 0) : allKeep size ops = true := by
  induction ops generalizing size with
  | nil => rfl
  | cons op ops ih =>
      rw [leaked, Nat.add_eq_zero_iff] at h
      rw [allKeep, always, Bool.and_eq_true]
      refine ⟨?_, ih h.2⟩
      cases hl : op.leaks size with
      | false => rfl
      | true =>
          rw [if_pos hl] at h
          cases op <;> simp [leaks, h.1] at hl

theorem exec_none (h : v.Holds l spare) (ha : 2 ^ 60 < op.asks l.length) :
    op.exec E v w = none := by
  have hsize := h.size
  have hcap := h.capacity
  have hbound := h.bound
  cases op with
  | pushBack element =>
      simp only [exec, Vec.pushBack]
      rw [Vec.reserve_none E h (by rw [hsize]; exact ha)]
      rfl
  | insert position element =>
      simp only [exec, Vec.insert]
      rw [Vec.reserve_none E h (by rw [hsize]; exact ha)]
      rfl
  | resize n =>
      rw [asks] at ha
      simp only [exec, Vec.resize]
      rw [if_neg (by omega), if_neg (by omega), Vec.reserve_none E h ha]
      rfl
  | reserve n =>
      rw [asks] at ha
      simp only [exec]
      rw [Vec.reserve_none E h ha]
      rfl
  | popBack => simp [asks] at ha
  | erase position => simp [asks] at ha
  | set position element => simp [asks] at ha
  | get position => simp [asks] at ha
  | clear => simp [asks] at ha

theorem execAll_count (h : v.Holds l spare) (hr : allInRange l.length ops = true)
    (hexec : execAll E ops v w = some (v', w')) :
    allFit l.length ops = true ∧ ∃ cs l' spare', w'.history = w.history ++ cs
      ∧ v'.Holds l' spare'
      ∧ (gone cs).length + l'.length + leaked l.length ops = l.length + (results cs).length := by
  induction ops generalizing v w l spare with
  | nil =>
      obtain ⟨rfl, rfl⟩ := Prod.mk.inj (Option.some.inj hexec)
      refine ⟨rfl, [], l, spare, (List.append_nil _).symm, h, ?_⟩
      show 0 + l.length + 0 = l.length + 0
      omega
  | cons op ops ih =>
      rw [allInRange, always, Bool.and_eq_true] at hr
      rw [execAll] at hexec
      rcases Nat.lt_or_ge (2 ^ 60) (op.asks l.length) with hno | ha
      · rw [exec_none h hno] at hexec
        cases hexec
      · obtain ⟨v₁, w₁, cs, spare₁, hone, hhist, hholds, heff⟩ := exec_effect (E := E) h hr.1 ha w
        have hlen := length_onList hr.1 heff.length_results
        rw [hone] at hexec
        obtain ⟨hfit, ds, l', spare', hhist', hholds', hcount⟩ :=
          ih (w := w₁) hholds (by rw [hlen]; exact hr.2) hexec
        rw [hlen] at hfit hcount
        refine ⟨?_, cs ++ ds, l', spare', ?_, hholds', ?_⟩
        · rw [allFit, always, Bool.and_eq_true]
          exact ⟨decide_eq_true ha, hfit⟩
        · rw [hhist', hhist, List.append_assoc]
        · rw [gone_append, results_append, List.length_append, List.length_append, leaked]
          cases hl : op.leaks l.length with
          | false =>
              have hbal := (heff.balance hl).length_eq
              rw [List.length_append, List.length_append, hlen] at hbal
              rw [if_neg (by simp)]
              omega
          | true =>
              have hres := heff.length_results
              have hgone := congrArg List.length (heff.leak hl)
              have hnew : op.newSize l.length = 0 ∧ (op.wants l.length).length = 0 := by
                cases op <;> simp_all [leaks, newSize, wants]
              rw [List.length_nil] at hgone
              rw [if_pos rfl]
              omega

/-! ## The balance -/

theorem destroy_spec (h : v.Holds l spare) (w : World V S) :
    ∃ w', v.destroy E w = some w' ∧ w'.history = w.history ++ l.map .destroyed := by
  have ha : v.array = [] ++ l ++ spare := h.array
  obtain ⟨w', hloop, hhist⟩ := Vec.destroyLoop_spec E (w := w) ha
  refine ⟨w', ?_, hhist⟩
  rw [Vec.destroy, h.size]
  exact hloop

/-- **Vector ownership balance**: it is kept exactly by the sequences in which
no vector with elements is resized to 0, and no more than 2^60 slots are asked
for. `vector_resize` to 0 forgets the elements without calling the destructor.
Above 2^60 slots the number of bytes of the array wraps around. -/
theorem owned_iff (E : Element V S) (memory : S) (ops : List (VecOp V))
    (hr : allInRange 0 ops = true) :
    Owned E memory ops ↔ allKeep 0 ops = true ∧ allFit 0 ops = true := by
  have hcreate := Vec.create_holds E
  constructor
  · rintro ⟨⟨v, w, w', hexec, hdestroy, hperm⟩, -⟩
    obtain ⟨hfit, cs, l, spare, hhist, hholds, hcount⟩ := execAll_count hcreate hr hexec
    obtain ⟨w'', hdestroy', hhist'⟩ := destroy_spec (E := E) hholds w
    obtain rfl := Option.some.inj (hdestroy.symm.trans hdestroy')
    refine ⟨allKeep_of_leaked ?_, hfit⟩
    have hlen := hperm.length_eq
    rw [hhist', hhist, List.nil_append, gone_append, results_append, gone_destroyed,
      results_destroyed, List.append_nil, List.length_append] at hlen
    rw [List.length_nil] at hcount
    omega
  · rintro ⟨hkeep, hfit⟩
    have hnull : ∀ x ∈ List.replicate Vec.initialCapacity E.null, x = E.null :=
      fun x hx => List.eq_of_mem_replicate hx
    constructor
    · obtain ⟨v, w, cs, l, spare, hexec, hhist, hholds, -, hperm⟩ :=
        execAll_balance hcreate hnull hr hfit hkeep ⟨memory, []⟩
      obtain ⟨w', hdestroy, hhist'⟩ := destroy_spec (E := E) hholds w
      refine ⟨v, w, w', hexec, hdestroy, ?_⟩
      rw [hhist', hhist, List.nil_append, gone_append, results_append, gone_destroyed,
        results_destroyed, List.append_nil]
      exact hperm
    · intro pre post v w heq hexec
      subst heq
      obtain ⟨v₁, w₁, cs, l, spare, hexec₁, -, hholds, hnull₁, -⟩ :=
        execAll_balance hcreate hnull (always_front hr) (always_front hfit)
          (always_front hkeep) ⟨memory, []⟩
      obtain ⟨rfl, rfl⟩ := Prod.mk.inj (Option.some.inj (hexec.symm.trans hexec₁))
      rw [hholds.array, hholds.size, List.drop_left]
      exact hnull₁

theorem owned_iff_pushes : Owned counted 0 somePushes ↔
    allKeep 0 somePushes = true ∧ allFit 0 somePushes = true :=
  owned_iff counted 0 somePushes (by decide)

/-- An element, and then none: nothing is destroyed. -/
theorem resize_zero_leaks : ¬ Owned counted 0 [.pushBack (5, 0), .resize 0] := by
  rintro ⟨⟨v, w, w', hexec, hdestroy, hperm⟩, -⟩
  have hrun : execAll counted [.pushBack (5, 0), .resize 0] (Vec.create counted) ⟨0, []⟩ =
      some (⟨(5, 1) :: List.replicate 9 (0, 0), 0, 10⟩, ⟨1, [.copied (5, 0) (5, 1)]⟩) := by
    decide +kernel
  obtain ⟨rfl, rfl⟩ := Prod.mk.inj (Option.some.inj (hexec.symm.trans hrun))
  obtain rfl := Option.some.inj hdestroy
  have := hperm.length_eq
  cases this

end VecOp

end KeyLime
