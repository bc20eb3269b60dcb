import Mathlib.Logic.Function.Iterate
import KeyLime.Transition

/-!
# Sections that others may interrupt

A section is a deterministic program: a step takes the shared state `σ`
and the place `κ` it has come to. Between two of its steps others change
the shared state; each change has a label (`Mixed`).

If a change that comes behind a step could have come in front of it
(`Moves`), then all changes could: the others have made the same changes, in
the same order, and then the section has run in one piece (`Mixed.atomic`).
The labels are what makes this say something: the two runs have the same list of
them, so that nothing has been changed less, or more, or by somebody else.

In `Atomic` the section is `do_put`, and the labels are the acts of the other
threads.
-/

namespace Reduction

open Transition

variable {σ κ α : Type*} {f : σ × κ → σ × κ} {E : κ → σ → α → σ → Prop}

/-- Steps of the section `f`, and changes `E` of others in between. What
others may do depends on the place of the section. -/
inductive Mixed (f : σ × κ → σ × κ) (E : κ → σ → α → σ → Prop) (x : σ × κ) :
    List α → σ × κ → Prop
  | start : Mixed f E x [] x
  | own {as : List α} {y : σ × κ} (h : Mixed f E x as y) : Mixed f E x as (f y)
  | other {as : List α} {y : σ × κ} {a : α} {s : σ} (h : Mixed f E x as y) (hs : E y.2 y.1 a s) :
      Mixed f E x (as ++ [a]) (s, y.2)

/-- A change behind a step of the section can come in front of it. -/
def Moves (f : σ × κ → σ × κ) (E : κ → σ → α → σ → Prop) : Prop :=
  ∀ x a s, E (f x).2 (f x).1 a s → ∃ s₀, E x.2 x.1 a s₀ ∧ f (s₀, x.2) = (s, (f x).2)

theorem Moves.iterate (hm : Moves f E) (n : Nat) {x : σ × κ} {a : α} {s : σ}
    (hs : E (f^[n] x).2 (f^[n] x).1 a s) :
    ∃ s₀, E x.2 x.1 a s₀ ∧ f^[n] (s₀, x.2) = (s, (f^[n] x).2) := by
  induction n generalizing x with
  | zero => exact ⟨s, hs, rfl⟩
  | succ n ih =>
      rw [Function.iterate_succ_apply] at hs
      obtain ⟨s₁, hs₁, hrun⟩ := ih hs
      obtain ⟨s₀, hs₀, hstep⟩ := hm x a s₁ hs₁
      refine ⟨s₀, hs₀, ?_⟩
      rw [Function.iterate_succ_apply, hstep, hrun, ← Function.iterate_succ_apply]

/-- **Reduction.** The changes first, and then the section. -/
theorem Mixed.atomic (hm : Moves f E) {x y : σ × κ} {as : List α} (h : Mixed f E x as y) :
    ∃ s₀ n, Run (E x.2) x.1 as s₀ ∧ f^[n] (s₀, x.2) = y := by
  induction h with
  | start => exact ⟨x.1, 0, .start, rfl⟩
  | own h ih =>
      obtain ⟨s₀, n, hbefore, hrun⟩ := ih
      refine ⟨s₀, n + 1, hbefore, ?_⟩
      rw [Function.iterate_succ_apply', hrun]
  | @other as y a s h hs ih =>
      obtain ⟨s₀, n, hbefore, rfl⟩ := ih
      obtain ⟨s₁, hs₁, hrun⟩ := hm.iterate n hs
      exact ⟨s₁, n, hbefore.step hs₁, hrun⟩

end Reduction
