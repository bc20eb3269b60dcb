import KeyLime.Ledger

/-!
# Ledgers with a journal

A journal records of each placement the item and a key of the place. A ledger
is `Filed` under it if every item is where the journal last placed it. Items
that are nowhere may be placed, and items that are taken off are of no
concern any more; an item that moves is placed before it is taken, and must
not be anywhere else.

What happens to a ledger has one lemma each: it gets a list more (`Filed.extend`),
or an item is taken (`Filed.take`), placed (`Filed.place`) or moved
(`Filed.move`). Items and keys are of any type. In `Dispatch` the items are tasks,
and the key of a list is the descriptor that `schedule` returns for it.
-/

namespace Bookkeeping

variable {α κ : Type*} [DecidableEq α] {js : List (α × κ)} {a b : α} {k k' : κ}

/-- The key of the last placement of `a`. -/
def lastPlace (js : List (α × κ)) (a : α) : Option κ := js.reverse.lookup a

theorem lastPlace_append_self : lastPlace (js ++ [(a, k)]) a = some k := by
  simp [lastPlace]

theorem lastPlace_append_of_ne (h : a ≠ b) : lastPlace (js ++ [(b, k)]) a = lastPlace js a := by
  have hb : (a == b) = false := beq_eq_false_iff_ne.mpr h
  simp [lastPlace, List.lookup_cons, hb]

theorem mem_of_lookup {l : List (α × κ)} (h : l.lookup a = some k) : (a, k) ∈ l := by
  obtain ⟨l₁, l₂, rfl, -⟩ := List.lookup_eq_some_iff.mp h
  simp

theorem lastPlace_unique (hn : (js.map Prod.fst).Nodup) (h : lastPlace js a = some k)
    (hmem : (a, k') ∈ js) : k' = k := by
  have hk : (a, k) ∈ js := List.mem_reverse.mp (mem_of_lookup h)
  exact congrArg Prod.snd (List.inj_on_of_nodup_map hn hmem hk rfl)

namespace Ledger

variable {l : Ledger α} {key key' : Option Nat → κ} {o : Option Nat} {i j : Nat}

/-- Every item is where the journal last placed it. -/
structure Filed (key : Option Nat → κ) (js : List (α × κ)) (l : Ledger α) : Prop where
  lists : ∀ i < l.count, ∀ a ∈ l.lists i, lastPlace js a = some (key (some i))
  pool : ∀ a ∈ l.pool, lastPlace js a = some (key none)

theorem Filed.congr (h : Filed key js l) (hlists : ∀ i < l.count, key' (some i) = key (some i))
    (hpool : key' none = key none) : Filed key' js l :=
  ⟨fun i hi a ha => by rw [hlists i hi]; exact h.lists i hi a ha,
    fun a ha => by rw [hpool]; exact h.pool a ha⟩

theorem Filed.extend (h : Filed key js l) : Filed key js l.extend := by
  refine ⟨?_, h.pool⟩
  intro i hi a ha
  by_cases hil : i = l.count
  · subst hil
    simp [Ledger.extend] at ha
  · have hlt : i < l.count := lt_of_le_of_ne (Nat.lt_succ_iff.mp hi) hil
    exact h.lists i hlt a (by simpa [Ledger.extend, hil] using ha)

theorem Filed.take (h : Filed key js l) : Filed key js (l.take i j) := by
  refine ⟨fun q hq a ha => h.lists q hq a ?_, h.pool⟩
  by_cases hqi : q = i
  · subst hqi
    exact List.mem_of_mem_eraseIdx (by simpa [Ledger.take] using ha)
  · simpa [Ledger.take, hqi] using ha

theorem Filed.place (h : Filed key js l) (ha : ¬ l.Holds a) :
    Filed key (js ++ [(a, key o)]) (l.place o a) := by
  -- what is there already is not `a`, and its last placement stays what it was
  have hlists : ∀ i < l.count, ∀ b ∈ l.lists i,
      lastPlace (js ++ [(a, key o)]) b = some (key (some i)) := fun i hi b hb => by
    have hne : b ≠ a := fun heq => ha (Or.inl ⟨i, hi, heq ▸ hb⟩)
    rw [lastPlace_append_of_ne hne]
    exact h.lists i hi b hb
  have hpool : ∀ b ∈ l.pool, lastPlace (js ++ [(a, key o)]) b = some (key none) := fun b hb => by
    have hne : b ≠ a := fun heq => ha (Or.inr (heq ▸ hb))
    rw [lastPlace_append_of_ne hne]
    exact h.pool b hb
  cases o with
  | none =>
      refine ⟨hlists, ?_⟩
      intro b hb
      rcases List.mem_append.mp hb with hb | hb
      · exact hpool b hb
      · obtain rfl := List.mem_singleton.mp hb
        exact lastPlace_append_self
  | some q =>
      refine ⟨?_, hpool⟩
      intro i hi b hb
      by_cases hiq : i = q
      · subst hiq
        simp only [Ledger.place, Function.update_self] at hb
        rcases List.mem_append.mp hb with hb | hb
        · exact hlists i hi b hb
        · obtain rfl := List.mem_singleton.mp hb
          exact lastPlace_append_self
      · exact hlists i hi b (by simpa [Ledger.place, hiq] using hb)

theorem Filed.move (h : Filed key js l) (hi : i < l.count) (ha : (l.lists i)[j]? = some a)
    (hone : tally (· = a) l ≤ 1) (ho : o ≠ some i) :
    Filed key (js ++ [(a, key o)]) ((l.place o a).take i j) := by
  have htake := tally_take (P := (· = a)) hi ha
  rw [place_take ho]
  refine h.take.place fun hholds => ?_
  have hpos := holds_iff_tally.mp hholds
  simp only [decide_true, if_true] at htake
  omega

end Ledger

end Bookkeeping
