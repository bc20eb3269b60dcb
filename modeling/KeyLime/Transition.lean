import Mathlib.Logic.Relation
import Mathlib.Order.WellFounded

/-!
# Runs of a transition system

A system is a labelled step relation; a run is a chain of steps from the
initial state. `Reach` keeps no labels: what a property needs to know of
the past is part of the state. Where the labels matter themselves, because
two systems are to do the same things in the same order, `Run` keeps them.

Safety is proved by `Reach.invariant`, the one induction of the development:
what holds initially and is preserved by every step holds of every state a run
reaches. The statements about "every run whose steps all meet a condition" are
statements about `Reach` of the step relation cut down by the condition
(`Within`).

For what comes about there is `Inevitable T P s`: wherever the steps of `T` lead
from `s`, they come to a state in which `P` holds, and none of them ends before.
No fairness is assumed. The one way to prove it here is a rank that every step
lowers, with an invariant under which a state without steps is one of `P`
(`inevitable_of_rank`).

A step may also be the last one: a fault that comes with it can end the whole
system, and then there is no state any more. `Mortal T D` adds these ends, for
the steps that meet `D`, to a system that was described without them. They come
with steps that `T` has anyway, so they take no state its steps, and what is
inevitable stays so unless the system has ended (`Inevitable.mortal`).
-/

namespace Transition

variable {σ ε : Type*}

/-- `s` is reached from `s₀` by a chain of `T` steps, whatever their labels. A run
with its labels is a `Run`. -/
def Reach (T : σ → ε → σ → Prop) (s₀ s : σ) : Prop :=
  Relation.ReflTransGen (fun a b => ∃ e, T a e b) s₀ s

/-- The steps of `T` that meet `C`. A condition on a run is one on each of its steps,
so that a run within a condition is a run of another system. -/
def Within (T C : σ → ε → σ → Prop) : σ → ε → σ → Prop :=
  fun s e s' => T s e s' ∧ C s e s'

variable {T C : σ → ε → σ → Prop} {s₀ s s' : σ} {e : ε}

theorem Reach.refl : Reach T s₀ s₀ := Relation.ReflTransGen.refl

theorem Reach.step (h : Reach T s₀ s) (hs : T s e s') : Reach T s₀ s' :=
  Relation.ReflTransGen.tail h ⟨e, hs⟩

theorem Reach.step_within (h : Reach (Within T C) s₀ s) (hs : T s e s') (hc : C s e s') :
    Reach (Within T C) s₀ s' :=
  Reach.step (T := Within T C) h ⟨hs, hc⟩

/-- What holds initially and is preserved by every step holds of every
state a run reaches; the step may use that its source is reached. -/
theorem Reach.invariant {I : σ → Prop} (h0 : I s₀)
    (hstep : ∀ s e s', Reach T s₀ s → I s → T s e s' → I s')
    (h : Reach T s₀ s) : I s := by
  induction h with
  | refl => exact h0
  | tail hpath hs ih =>
      obtain ⟨e, he⟩ := hs
      exact hstep _ e _ hpath ih he

theorem Reach.mono {T' : σ → ε → σ → Prop} (hsub : ∀ s e s', T s e s' → T' s e s')
    (h : Reach T s₀ s) : Reach T' s₀ s :=
  Relation.ReflTransGen.mono (fun _ _ ⟨e, he⟩ => ⟨e, hsub _ _ _ he⟩) _ _ h

theorem Reach.of_within (h : Reach (Within T C) s₀ s) : Reach T s₀ s :=
  h.mono fun _ _ _ hs => hs.1

/-! ## Runs with their labels -/

/-- The steps with these labels, in this order, lead from `s₀` to `s`. -/
inductive Run (T : σ → ε → σ → Prop) (s₀ : σ) : List ε → σ → Prop where
  | start : Run T s₀ [] s₀
  | step {es : List ε} {s : σ} {e : ε} {s' : σ} (h : Run T s₀ es s) (hs : T s e s') :
      Run T s₀ (es ++ [e]) s'

/-! ## What every run comes to -/

variable {ρ : Type*} {P I : σ → Prop}

inductive Inevitable (T : σ → ε → σ → Prop) (P : σ → Prop) : σ → Prop where
  | here {s : σ} (h : P s) : Inevitable T P s
  | next {s : σ} (hgoes : ∃ e s', T s e s') (h : ∀ e s', T s e s' → Inevitable T P s') :
      Inevitable T P s

/-- Every step keeps `I` and lowers the rank, and a state with `I` that is not
one of `P` has a step. -/
theorem inevitable_of_rank {r : ρ → ρ → Prop} (hr : WellFounded r) (rank : σ → ρ)
    (hstep : ∀ s e s', I s → T s e s' → I s' ∧ r (rank s') (rank s))
    (hgoes : ∀ s, I s → P s ∨ ∃ e s', T s e s') (hs : I s) : Inevitable T P s := by
  suffices h : ∀ a s, rank s = a → I s → Inevitable T P s from h _ s rfl hs
  intro a
  induction a using hr.induction with
  | _ a ih =>
      rintro s rfl hs
      rcases hgoes s hs with hP | hgo
      · exact .here hP
      · refine .next hgo fun e s' hT => ?_
        obtain ⟨hs', hlt⟩ := hstep s e s' hs hT
        exact ih _ hlt s' rfl hs'

/-! ## Steps that may be the last -/

/-- The steps of `T`, each of which may end the system if it meets `D`; `none`
is the system after its end. -/
inductive Mortal (T : σ → ε → σ → Prop) (D : σ → ε → Prop) : Option σ → ε → Option σ → Prop where
  | lives {s : σ} {e : ε} {s' : σ} (hs : T s e s') : Mortal T D (some s) e (some s')
  | dies {s : σ} {e : ε} {s' : σ} (hs : T s e s') (hd : D s e) : Mortal T D (some s) e none

theorem Inevitable.mortal {D : σ → ε → Prop} (h : Inevitable T P s) :
    Inevitable (Mortal T D) (fun o => ∀ s' ∈ o, P s') (some s) := by
  induction h with
  | here hP => exact .here fun s' hs' => Option.some.inj hs' ▸ hP
  | next hgoes _ ih =>
      obtain ⟨e, s', hs⟩ := hgoes
      refine .next ⟨e, some s', .lives hs⟩ fun e o ho => ?_
      cases ho with
      | lives hs => exact ih e _ hs
      | dies => exact .here fun s' hs' => by cases hs'

end Transition
