import KeyLime.Resume

/-!
# Reading a blocking stream

What the reads on a blocking stream meet: symbols that arrive together, a
signal that interrupts the read, an error, and the end of the stream behind
all of it. How the symbols are cut into arrivals is the choice of the other
side and of the network: a read takes no more than has arrived together, and
no more than it was asked for.

A loop that reads on until it has enough eats the symbols as the consumer
does that stops when there is enough (`readUntil_spec`), in whatever pieces
they arrive. What it asks for may depend on what it has got (`ask`), but must
never be more than what is still missing, or it would eat symbols behind the
place where it stops; the lemma has this as its hypothesis.

Two loops are instances: `readCount` reads until there are `n` symbols, asking
for all that is missing, and `readLine` reads symbol by symbol until the last one
is a given one. The symbols are of any type. Their results are described by what
they take off `incoming`, in which nothing is left of how the stream was cut.
-/

namespace Intake

open Resume

variable {α : Type*}

inductive Arrival (α : Type*) where
  | chunk (a : α) (as : List α)
  | intr
  | err
deriving DecidableEq, Repr

/-- What one `read` returns; no data at all is the end of the stream. -/
inductive Got (α : Type*) where
  | data (as : List α)
  | intr
  | err

/-- What is left of a chunk, in front of the later arrivals. -/
def unread : List α → List (Arrival α) → List (Arrival α)
  | [], s => s
  | a :: as, s => .chunk a as :: s

def read : Nat → List (Arrival α) → Got α × List (Arrival α)
  | 0, s => (.data [], s)
  | _ + 1, [] => (.data [], [])
  | _ + 1, .intr :: s => (.intr, s)
  | _ + 1, .err :: s => (.err, s)
  | n + 1, .chunk a as :: s => (.data (a :: as.take n), unread (as.drop n) s)

/-- The symbols that arrive before an error. -/
def incoming : List (Arrival α) → List α
  | [] => []
  | .chunk a as :: s => a :: as ++ incoming s
  | .intr :: s => incoming s
  | .err :: _ => []

/-- How many reads there can be before the end of the stream. -/
def weight : List (Arrival α) → Nat
  | [] => 0
  | .chunk _ as :: s => as.length + 1 + weight s
  | .intr :: s | .err :: s => weight s + 1

/-- Read on, `ask got` symbols at most, until `got` is enough, and make the
reads again that a signal has interrupted. The result is `none` on an error,
and what there is at the end of the stream. A read that is not the last one
lowers the weight of the stream, which is fuel enough. -/
def readUntil (ask : List α → Nat) (enough : List α → Bool) :
    Nat → List (Arrival α) → List α → Option (List α) × List (Arrival α)
  | fuel, s, got =>
    match fuel, read (ask got) s with
    | _, (.data [], s) | 0, (_, s) => (some got, s)
    | _ + 1, (.err, s) => (none, s)
    | fuel + 1, (.intr, s) => readUntil ask enough fuel s got
    | fuel + 1, (.data (a :: as), s) =>
        if enough (got ++ a :: as) then (some (got ++ a :: as), s)
        else readUntil ask enough fuel s (got ++ a :: as)

/-- The consumer that stops when it has enough. -/
def collector (enough : List α → Bool) : Consumer (List α) α := ⟨fun got a => got ++ [a], enough⟩

variable {ask : List α → Nat} {enough : List α → Bool} {s : List (Arrival α)} {got as bs : List α}

@[simp] theorem incoming_unread : incoming (unread as s) = as ++ incoming s := by
  cases as <;> rfl

@[simp] theorem weight_unread : weight (unread as s) = as.length + weight s := by
  cases as with
  | nil => exact (Nat.zero_add _).symm
  | cons a as => rfl

theorem err_mem_unread : Arrival.err ∈ unread as s ↔ Arrival.err ∈ s := by
  cases as <;> simp [unread]

theorem collect_block (hno : ∀ cs, cs <+: as → cs ≠ as → enough (got ++ cs) = false) :
    (collector enough).feed got (as ++ bs) = (collector enough).feed (got ++ as) bs := by
  induction as generalizing got with
  | nil => simp
  | cons a as ih =>
      have hgot : enough got = false := by simpa using hno [] List.nil_prefix nofun
      rw [List.cons_append, Consumer.feed_cons hgot]
      show (collector enough).feed (got ++ [a]) (as ++ bs) = _
      rw [ih fun cs hcs hne => by simpa using hno (a :: cs) (by simpa using hcs) (by simpa using hne)]
      simp

/-- The loop has collected what the consumer collects: nothing is skipped and
nothing read twice, however the stream arrives. -/
theorem readUntil_spec (ask : List α → Nat) (enough : List α → Bool) (got : List α)
    (hs : Arrival.err ∉ s)
    (hask : ∀ got, enough got = false → 0 < ask got)
    (hblock : ∀ got bs, enough got = false → bs.length < ask got → enough (got ++ bs) = false)
    {fuel : Nat} (hfuel : weight s ≤ fuel) (hgot : enough got = false) :
    ∃ s', readUntil ask enough fuel s got = (some ((collector enough).feed got (incoming s)).1, s') ∧
      incoming s' = ((collector enough).feed got (incoming s)).2 ∧ Arrival.err ∉ s' := by
  induction fuel generalizing s got with
  | zero =>
      obtain rfl : s = [] := by
        cases s with
        | nil => rfl
        | cons x s => cases x <;> simp [weight] at hfuel
      unfold readUntil
      cases h : ask got with
      | zero => exact ⟨[], rfl, rfl, by simp⟩
      | succ n => exact ⟨[], rfl, rfl, by simp⟩
  | succ fuel ih =>
      obtain ⟨n, hn⟩ : ∃ n, ask got = n + 1 := ⟨ask got - 1, by have := hask got hgot; omega⟩
      unfold readUntil
      rw [hn]
      cases s with
      | nil => exact ⟨[], rfl, rfl, by simp⟩
      | cons x s =>
          simp only [List.mem_cons, not_or] at hs
          cases x with
          | err => exact (hs.1 rfl).elim
          | intr =>
              simp only [weight] at hfuel
              exact ih _ hs.2 (by omega) hgot
          | chunk a as =>
              have hfeed : (collector enough).feed got (incoming (.chunk a as :: s)) =
                  (collector enough).feed (got ++ a :: as.take n)
                    (incoming (unread (as.drop n) s)) := by
                rw [incoming_unread]
                have hsplit : a :: as = (a :: as.take n) ++ as.drop n := by simp
                show (collector enough).feed got (a :: as ++ incoming s) = _
                rw [hsplit, List.append_assoc]
                refine (collect_block fun cs hcs hne => hblock got cs hgot ?_).trans (by simp)
                have hlt := Nat.lt_of_le_of_ne hcs.length_le fun h => hne (hcs.eq_of_length h)
                simp only [List.length_cons, List.length_take] at hlt
                omega
              rw [hfeed]
              have hs' : Arrival.err ∉ unread (as.drop n) s := fun h => hs.2 (err_mem_unread.mp h)
              simp only [read]
              cases he : enough (got ++ a :: as.take n) with
              | true =>
                  rw [if_pos rfl, Consumer.feed_of_final he]
                  exact ⟨_, rfl, rfl, hs'⟩
              | false =>
                  rw [if_neg (by simp)]
                  refine ih _ hs' ?_ he
                  simp only [weight, weight_unread, List.length_drop] at hfuel ⊢
                  omega

/-! ## Until there are `n` symbols, or a symbol that ends a line -/

/-- Read on until there are `n` symbols. -/
def readCount (n : Nat) (s : List (Arrival α)) : Option (List α) × List (Arrival α) :=
  readUntil (fun got => n - got.length) (fun got => n ≤ got.length) (weight s) s []

/-- Read symbol by symbol until the last one is `nl`. -/
def readLine [DecidableEq α] (nl : α) (s : List (Arrival α)) : Option (List α) × List (Arrival α) :=
  readUntil (fun _ => 1) (fun got => got.getLast? = some nl) (weight s) s []

theorem collect_count {n : Nat} :
    (collector fun got => n ≤ got.length).feed got as =
      (got ++ as.take (n - got.length), as.drop (n - got.length)) := by
  induction as generalizing got with
  | nil => simp
  | cons a as ih =>
      by_cases h : n ≤ got.length
      · rw [Consumer.feed_of_final (by simpa [collector] using h), Nat.sub_eq_zero_of_le h]
        simp
      · rw [Consumer.feed_cons (by simpa [collector] using h)]
        show (collector fun got => n ≤ got.length).feed (got ++ [a]) as = _
        obtain ⟨m, hm⟩ : ∃ m, n - got.length = m + 1 := ⟨n - got.length - 1, by omega⟩
        have hm' : n - (got ++ [a]).length = m := by
          rw [List.length_append, List.length_singleton]
          omega
        rw [ih, hm, hm']
        simp

theorem readCount_spec (n : Nat) (hs : Arrival.err ∉ s) :
    ∃ s', readCount n s = (some ((incoming s).take n), s') ∧
      incoming s' = (incoming s).drop n ∧ Arrival.err ∉ s' := by
  cases n with
  | zero =>
      refine ⟨s, ?_, rfl, hs⟩
      unfold readCount readUntil
      simp [read]
  | succ n =>
      have h := readUntil_spec (fun got => n + 1 - got.length) (fun got => n + 1 ≤ got.length) [] hs
        (fun got h => by
          simp only [decide_eq_false_iff_not] at h
          omega)
        (fun got bs h hbs => by
          simp only [decide_eq_false_iff_not, List.length_append] at h ⊢
          omega)
        (Nat.le_refl _) (by simp)
      rw [collect_count] at h
      exact h

variable [DecidableEq α] {nl : α}

/-- The consumer that stops behind a line. -/
abbrev lineCollector (nl : α) : Consumer (List α) α :=
  collector fun got => got.getLast? = some nl

theorem collect_rest (h : nl ∉ as) : (lineCollector nl).feed [] (as ++ bs) =
    (lineCollector nl).feed as bs := by
  refine collect_block fun cs hcs _ => ?_
  simp only [List.nil_append, decide_eq_false_iff_not]
  exact fun hlast => h (hcs.subset (List.mem_of_getLast? hlast))

theorem collect_line (h : nl ∉ as) :
    (lineCollector nl).feed [] (as ++ nl :: bs) = (as ++ [nl], bs) := by
  rw [collect_rest h, Consumer.feed_cons ?_]
  · exact Consumer.feed_of_final (by simp [collector])
  · simp only [collector, decide_eq_false_iff_not]
    exact fun hlast => h (List.mem_of_getLast? hlast)

theorem collect_short (h : nl ∉ as) : (lineCollector nl).feed [] as = (as, []) := by
  have hrest : (lineCollector nl).feed [] (as ++ []) = (lineCollector nl).feed as [] :=
    collect_rest h
  simpa using hrest

theorem readLine_spec (nl : α) (hs : Arrival.err ∉ s) :
    ∃ s', readLine nl s = (some ((lineCollector nl).feed [] (incoming s)).1, s') ∧
      incoming s' = ((lineCollector nl).feed [] (incoming s)).2 ∧ Arrival.err ∉ s' := by
  refine readUntil_spec (fun _ => 1) (fun got => got.getLast? = some nl) [] hs
    (fun _ _ => Nat.one_pos) (fun got bs h hbs => ?_) (Nat.le_refl _) (by simp)
  obtain rfl := List.length_eq_zero_iff.mp (Nat.lt_one_iff.mp hbs)
  simpa using h

end Intake
