import Mathlib.Data.List.Basic

/-!
# Resumable consumers

A consumer eats a stream one symbol at a time and stops for good in a
final state, leaving the rest of the stream unread. It is the abstract
form of a parser that is called again whenever more input has arrived.

* `feed_append` is the law of resumption: feeding a stream in two pieces is
  feeding it in one. It is what makes "in any chunking" a theorem about one
  list.
* `feed_coarser` splits a consumer into phases: stopping earlier and then going
  on is not stopping. A parser that is a sequence of functions is so compared
  with one automaton.
* `rounds` eats a whole stream, beginning anew behind each final state, and
  `ends` lists the final states that are come to: a reader of one message
  becomes a reader of a stream of messages.

Symbols and states are of any type, and nothing is said about errors: an input
that is not one of the language is eaten into a state that stays as it is, or
that is final.
-/

namespace Resume

variable {σ α : Type*}

/-- A step function and the states in which nothing more is eaten. -/
structure Consumer (σ α : Type*) where
  step : σ → α → σ
  final : σ → Bool

namespace Consumer

variable (c : Consumer σ α)

/-- Eat until the state is final or the stream is over; the state reached
and what is left. -/
def feed : σ → List α → σ × List α
  | s, [] => (s, [])
  | s, a :: as => if c.final s then (s, a :: as) else feed (c.step s a) as

variable {c} {s : σ} {a : α} {as bs : List α}

@[simp] theorem feed_nil : c.feed s [] = (s, []) := rfl

theorem feed_of_final (h : c.final s = true) : c.feed s as = (s, as) := by
  cases as with
  | nil => rfl
  | cons a as => rw [feed, if_pos h]

theorem feed_cons (h : c.final s = false) : c.feed s (a :: as) = c.feed (c.step s a) as := by
  rw [feed, if_neg (by simp [h])]

theorem final_of_rest (h : (c.feed s as).2 ≠ []) : c.final (c.feed s as).1 = true := by
  induction as generalizing s with
  | nil => exact (h rfl).elim
  | cons a as ih =>
      cases hs : c.final s with
      | true => rw [feed_of_final hs]; exact hs
      | false => rw [feed_cons hs] at h ⊢; exact ih h

theorem rest_of_running (h : c.final (c.feed s as).1 = false) : (c.feed s as).2 = [] := by
  by_contra hne
  rw [final_of_rest hne] at h
  cases h

theorem rest_length_le (c : Consumer σ α) (s : σ) (as : List α) :
    (c.feed s as).2.length ≤ as.length := by
  induction as generalizing s with
  | nil => exact Nat.le_refl _
  | cons a as ih =>
      cases hs : c.final s with
      | true => exact Nat.le_of_eq (by rw [feed_of_final hs])
      | false =>
          rw [feed_cons hs]
          exact Nat.le_trans (ih _) (Nat.le_succ _)

/-- **Resumption.** A consumer that has been fed a part goes on with the rest as if
it had been fed both at once. -/
theorem feed_append :
    c.feed s (as ++ bs) = c.feed (c.feed s as).1 ((c.feed s as).2 ++ bs) := by
  induction as generalizing s with
  | nil => rfl
  | cons a as ih =>
      cases hs : c.final s with
      | true =>
          have hcons : c.feed s (a :: as) = (s, a :: as) := feed_of_final hs
          rw [hcons, List.cons_append]
      | false => rw [List.cons_append, feed_cons hs, feed_cons hs, ih]

theorem running_of_append (h : (c.feed s (as ++ bs)).2 = []) (hbs : bs ≠ []) :
    c.final (c.feed s as).1 = false := by
  by_contra hfin
  rw [Bool.not_eq_false] at hfin
  rw [feed_append, feed_of_final hfin, List.append_eq_nil_iff] at h
  exact hbs h.2

theorem feed_of_append {s' : σ} (h : c.feed s (as ++ bs) = (s', bs)) :
    c.feed s as = (s', []) := by
  rw [feed_append] at h
  cases hfin : c.final (c.feed s as).1 with
  | true =>
      rw [feed_of_final hfin, Prod.mk.injEq] at h
      have hrest : (c.feed s as).2 = [] := by simpa using h.2
      exact Prod.ext h.1 hrest
  | false =>
      have hrest := rest_of_running hfin
      rw [hrest, List.nil_append] at h
      cases bs with
      | nil => exact Prod.ext (Prod.mk.inj (feed_nil.symm.trans h)).1 hrest
      | cons b bs =>
          have hle := rest_length_le c (c.step (c.feed s as).1 b) bs
          rw [feed_cons hfin] at h
          rw [h, List.length_cons] at hle
          omega

/-! ## One round after the other -/

/-- Eat a whole stream; `restart` is where a new round begins from a final
state. -/
def rounds (c : Consumer σ α) (restart : σ → σ) (s : σ) (as : List α) : σ :=
  as.foldl (fun s a => c.step (restart s) a) s

theorem rounds_append (restart : σ → σ) :
    c.rounds restart s (as ++ bs) = c.rounds restart (c.rounds restart s as) bs :=
  List.foldl_append

theorem rounds_of_feed {restart : σ → σ} {s' : σ}
    (hrun : ∀ s, c.final s = false → restart s = s) (hne : as ≠ [])
    (h : c.feed (restart s) as = (s', [])) : c.rounds restart s as = s' := by
  induction as generalizing s with
  | nil => exact (hne rfl).elim
  | cons a as ih =>
      cases hfin : c.final (restart s) with
      | true =>
          rw [feed_of_final hfin] at h
          cases h
      | false =>
          rw [feed_cons hfin] at h
          change c.rounds restart (c.step (restart s) a) as = s'
          cases as with
          | nil => exact (Prod.mk.inj h).1
          | cons b bs =>
              have hall : (c.feed (c.step (restart s) a) ([] ++ b :: bs)).2 = [] :=
                congrArg Prod.snd h
              have hstep : c.final (c.step (restart s) a) = false :=
                running_of_append hall (List.cons_ne_nil b bs)
              refine ih (List.cons_ne_nil b bs) ?_
              rw [hrun _ hstep]
              exact h

/-- The final states that are come to in a stream. -/
def ends (c : Consumer σ α) (restart : σ → σ) : σ → List α → List σ
  | _, [] => []
  | s, a :: as =>
      (if c.final (c.step (restart s) a) then [c.step (restart s) a] else [])
        ++ ends c restart (c.step (restart s) a) as

theorem ends_append (restart : σ → σ) :
    c.ends restart s (as ++ bs) =
      c.ends restart s as ++ c.ends restart (c.rounds restart s as) bs := by
  induction as generalizing s with
  | nil => rfl
  | cons a as ih =>
      rw [List.cons_append, ends, ends, ih, List.append_assoc]
      rfl

theorem ends_of_feed {restart : σ → σ} {s' : σ}
    (hrun : ∀ s, c.final s = false → restart s = s) (hne : as ≠ [])
    (h : c.feed (restart s) as = (s', [])) :
    c.ends restart s as = if c.final s' then [s'] else [] := by
  induction as generalizing s with
  | nil => exact (hne rfl).elim
  | cons a as ih =>
      cases hfin : c.final (restart s) with
      | true =>
          rw [feed_of_final hfin] at h
          cases h
      | false =>
          rw [feed_cons hfin] at h
          rw [ends]
          cases as with
          | nil =>
              obtain rfl : c.step (restart s) a = s' := (Prod.mk.inj h).1
              rw [ends, List.append_nil]
          | cons b bs =>
              have hall : (c.feed (c.step (restart s) a) ([] ++ b :: bs)).2 = [] :=
                congrArg Prod.snd h
              have hstep : c.final (c.step (restart s) a) = false :=
                running_of_append hall (List.cons_ne_nil b bs)
              rw [ih (List.cons_ne_nil b bs) (by rw [hrun _ hstep]; exact h), hstep]
              rfl

/-- **Phases.** If `d` steps like `c` and stops no later, `c` resumes where
`d` has stopped. -/
theorem feed_coarser {d : Consumer σ α} (hstep : d.step = c.step)
    (hfin : ∀ s, c.final s = true → d.final s = true) :
    c.feed s as = c.feed (d.feed s as).1 (d.feed s as).2 := by
  induction as generalizing s with
  | nil => rfl
  | cons a as ih =>
      cases hd : d.final s with
      | true => rw [feed_of_final (c := d) hd]
      | false =>
          have hc : c.final s = false := by
            by_contra h
            rw [Bool.not_eq_false] at h
            rw [hfin s h] at hd
            cases hd
          rw [feed_cons hc, feed_cons hd, ih, hstep]

end Consumer

end Resume
