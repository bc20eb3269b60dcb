import Mathlib.Logic.Function.Basic
import Mathlib.Data.List.Basic

/-!
# Linked chains

`Chain next h ps`: following `next` from `h` visits the cells `ps` in order
and comes to an end behind the last of them. A chain is determined by where
it starts (`Chain.unique`), so it visits no cell twice (`Chain.nodup`).

The three ways a queue writes its cells are appending behind the last one,
dropping the first one, and touching cells that are not in the chain:
`Chain.concat`, `Chain.rest` and `Chain.congr`. Cells are of any type, and
`next` is a partial function, as a heap makes it: an address that holds
nothing has no successor, so a chain that is left by a dangling pointer ends
there and is not the chain that was meant.

Nothing here knows of queues. `Queue` has the pointers of `queue.c`, which are
a chain with its last cell at hand.
-/

namespace Linked

variable {ι : Type*} {next next' : ι → Option ι} {h : Option ι} {p q : ι} {ps qs : List ι}

def Chain (next : ι → Option ι) : Option ι → List ι → Prop
  | h, [] => h = none
  | h, p :: ps => h = some p ∧ Chain next (next p) ps

theorem Chain.head (hc : Chain next h ps) : h = ps.head? := by
  cases ps with
  | nil => exact hc
  | cons p ps => exact hc.1

theorem Chain.rest (hc : Chain next h (p :: ps)) : Chain next (next p) ps := hc.2

theorem Chain.unique (hc : Chain next h ps) (hc' : Chain next h qs) : ps = qs := by
  induction ps generalizing h qs with
  | nil =>
      obtain rfl : h = none := hc
      cases qs with
      | nil => rfl
      | cons q qs => cases hc'.1
  | cons p ps ih =>
      obtain ⟨rfl, hc⟩ := hc
      cases qs with
      | nil => cases hc'
      | cons q qs =>
          obtain ⟨hq, hc'⟩ := hc'
          obtain rfl := Option.some.inj hq
          rw [ih hc hc']

theorem Chain.from (hc : Chain next h ps) (hp : p ∈ ps) :
    ∃ qs, Chain next (some p) (p :: qs) ∧ qs.length < ps.length := by
  induction ps generalizing h with
  | nil => cases hp
  | cons q ps ih =>
      rcases List.mem_cons.mp hp with rfl | hp
      · exact ⟨ps, ⟨rfl, hc.2⟩, Nat.lt_succ_self _⟩
      · obtain ⟨qs, hqs, hlt⟩ := ih hc.2 hp
        exact ⟨qs, hqs, Nat.lt_trans hlt (Nat.lt_succ_self _)⟩

/-- A chain that ends has no cycle. -/
theorem Chain.nodup (hc : Chain next h ps) : ps.Nodup := by
  induction ps generalizing h with
  | nil => exact List.nodup_nil
  | cons p ps ih =>
      refine List.nodup_cons.mpr ⟨fun hp => ?_, ih hc.2⟩
      obtain ⟨qs, hqs, hlt⟩ := hc.rest.from hp
      obtain ⟨-, hrest⟩ := hqs
      rw [hc.rest.unique hrest] at hlt
      exact Nat.lt_irrefl _ hlt

theorem Chain.congr (hc : Chain next h ps) (heq : ∀ p ∈ ps, next' p = next p) :
    Chain next' h ps := by
  induction ps generalizing h with
  | nil => exact hc
  | cons p ps ih =>
      refine ⟨hc.1, ?_⟩
      rw [heq p (List.mem_cons_self ..)]
      exact ih hc.2 fun q hq => heq q (List.mem_cons_of_mem _ hq)

theorem Chain.concat [DecidableEq ι] {t : ι} (hc : Chain next h ps) (ht : ps.getLast? = some t)
    (hq : q ∉ ps) (hlast : next' t = some q) (hend : next' q = none)
    (heq : ∀ p, p ≠ t → p ≠ q → next' p = next p) : Chain next' h (ps ++ [q]) := by
  induction ps generalizing h with
  | nil => cases ht
  | cons p ps ih =>
      have hnd := hc.nodup
      refine ⟨hc.1, ?_⟩
      cases ps with
      | nil =>
          obtain rfl : p = t := Option.some.inj ht
          exact ⟨hlast, hend⟩
      | cons r ps =>
          have ht' : (r :: ps).getLast? = some t := by
            rwa [List.getLast?_cons_cons] at ht
          have hpt : p ≠ t := fun heq => (List.nodup_cons.mp hnd).1
            (heq ▸ List.mem_of_getLast? ht')
          rw [heq p hpt fun h => hq (h ▸ List.mem_cons_self ..)]
          exact ih hc.2 ht' fun h => hq (List.mem_cons_of_mem _ h)

end Linked
