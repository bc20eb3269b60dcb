import KeyLime.Queue
import KeyLime.Transition

/-!
# Threads on a blocking queue

Any number of threads that call `queue_push` and `queue_pull`. What a thread
does while it holds the mutex is one step (`Monitor.enter`): its test fails
and it waits on the condition variable, or its operation is done, and the
threads that wait are woken if it broadcasts. A woken thread tests again
when it gets the mutex; one may also be woken for no reason. Which thread gets
the mutex next is not said, so every schedule is a run.

`pushed` and `pulled` are history: the data of the completed operations, in
order.

The invariant (`Inv`) ties the list of nodes to the history and the waiting
threads to the state of the queue: who waits and has not been woken waits for
something that is not there. Both results are read off it:

* `no_lost_wakeup`: the broadcast is only made when the queue was empty or full
  before, which looks as if it could miss somebody; it cannot, since then nobody
  waits;
* `bounded_fifo`: the pointers are a chain, the values come out as they went in,
  and there are never more than `max_size` of them.

`EnterCase` says once what a critical section can come to. Nothing else unfolds
it.
-/

namespace KeyLime

open Transition

inductive QueueOp (α : Type*) where
  | push (data : α)
  | pull
deriving DecidableEq, Repr

/-- Where a thread stands: outside of the queue's functions, in one of them
and about to get the mutex, or waiting on the condition variable and not
woken. -/
inductive QueueStatus (α : Type*) where
  | out
  | ready (op : QueueOp α)
  | waiting (op : QueueOp α)
deriving DecidableEq, Repr

/-- What comes of a critical section. -/
inductive QueueRet (α : Type*) where
  | waits
  | pushed
  | pulled (x : α)
deriving DecidableEq, Repr

structure Monitor (τ α : Type*) where
  queue : Queue α
  threads : τ → QueueStatus α
  pushed : List α
  pulled : List α

/-- A step of one thread. `enter` has the address `malloc` would return. -/
inductive QueueEvent (τ α : Type*) where
  | call (t : τ) (op : QueueOp α)
  | enter (t : τ) (p : Nat)
  | wake (t : τ)
deriving DecidableEq, Repr

def QueueStatus.woken {α : Type*} : QueueStatus α → QueueStatus α
  | .waiting op => .ready op
  | s => s

namespace Monitor

variable {τ α : Type*} [DecidableEq τ]

def create (τ : Type*) (maxSize : Int) (copyConstructor : α → α) : Monitor τ α where
  queue := .create maxSize copyConstructor
  threads := fun _ => .out
  pushed := []
  pulled := []

def broadcast (threads : τ → QueueStatus α) (b : Bool) : τ → QueueStatus α :=
  if b then fun t => (threads t).woken else threads

def call (s : Monitor τ α) (t : τ) (op : QueueOp α) : Option (Monitor τ α) :=
  match s.threads t with
  | .out => some { s with threads := Function.update s.threads t (.ready op) }
  | _ => none

/-- A thread gets the mutex, tests, and waits or completes its operation. -/
def enter (s : Monitor τ α) (t : τ) (p : Nat) : Option (Monitor τ α × QueueRet α) :=
  match s.threads t with
  | .ready (.push data) =>
      if s.queue.full then
        some ({ s with threads := Function.update s.threads t (.waiting (.push data)) }, .waits)
      else if (s.queue.nodes p).isSome then none
      else (s.queue.push p data).map fun (q, b) =>
        ({ s with
            queue := q
            threads := Function.update (broadcast s.threads b) t .out
            pushed := s.pushed ++ [data] }, .pushed)
  | .ready .pull =>
      if s.queue.size = 0 then
        some ({ s with threads := Function.update s.threads t (.waiting .pull) }, .waits)
      else s.queue.pull.map fun (x, q, b) =>
        ({ s with
            queue := q
            threads := Function.update (broadcast s.threads b) t .out
            pulled := s.pulled ++ [x] }, .pulled x)
  | _ => none

/-- A thread that waits wakes up though nobody has woken it. -/
def wake (s : Monitor τ α) (t : τ) : Option (Monitor τ α) :=
  match s.threads t with
  | .waiting op => some { s with threads := Function.update s.threads t (.ready op) }
  | _ => none

def handle (s : Monitor τ α) : QueueEvent τ α → Option (Monitor τ α)
  | .call t op => s.call t op
  | .enter t p => (s.enter t p).map Prod.fst
  | .wake t => s.wake t

def Step (s : Monitor τ α) (e : QueueEvent τ α) (s' : Monitor τ α) : Prop :=
  s.handle e = some s'

/-- `s` is reached in some run on a queue with this bound and this copy
constructor. -/
def Reachable (maxSize : Int) (copy : α → α) (s : Monitor τ α) : Prop :=
  Reach Step (create τ maxSize copy) s

variable {s s' : Monitor τ α} {t t' : τ} {op : QueueOp α} {e : QueueEvent τ α} {p : Nat}
  {r : QueueRet α} {maxSize : Int} {copy : α → α}

/-! ## The invariant -/

/-- The values in the queue: what has been pushed and not been pulled. -/
def contents (s : Monitor τ α) : List α :=
  (s.pushed.map s.queue.copyConstructor).drop s.pulled.length

structure Inv (s : Monitor τ α) : Prop where
  holds : ∃ ps, s.queue.Holds ps s.contents
  history : s.pulled ++ s.contents = s.pushed.map s.queue.copyConstructor
  bounded : 0 < s.queue.maxSize → (s.contents.length : Int) ≤ s.queue.maxSize
  pullers : ∀ t, s.threads t = .waiting .pull → s.contents = []
  pushers : ∀ t data, s.threads t = .waiting (.push data) →
    0 < s.queue.maxSize ∧ (s.contents.length : Int) = s.queue.maxSize

omit [DecidableEq τ] in
theorem create_inv (maxSize : Int) (copy : α → α) : (create τ maxSize copy).Inv where
  holds := ⟨[], Queue.create_holds maxSize copy⟩
  history := rfl
  bounded h := h.le
  pullers _ h := by cases h
  pushers _ _ h := by cases h

omit [DecidableEq τ] in
theorem Inv.of_threads (h : s.Inv) (hq : s'.queue = s.queue) (hpu : s'.pushed = s.pushed)
    (hpl : s'.pulled = s.pulled)
    (hw : ∀ t op, s'.threads t = .waiting op → s.threads t = .waiting op
      ∨ (op = .pull ∧ s.contents = [])
      ∨ (op ≠ .pull ∧ 0 < s.queue.maxSize ∧ (s.contents.length : Int) = s.queue.maxSize)) :
    s'.Inv := by
  have hc : s'.contents = s.contents := by simp only [contents, hq, hpu, hpl]
  refine ⟨by rw [hc, hq]; exact h.holds, by rw [hc, hq, hpu, hpl]; exact h.history,
    by rw [hc, hq]; exact h.bounded, fun t ht => ?_, fun t data ht => ?_⟩ <;> rw [hc]
  · rcases hw t _ ht with ht | ⟨-, h⟩ | ⟨h, -⟩
    · exact h.pullers t ht
    · exact h
    · exact (h rfl).elim
  · rw [hq]
    rcases hw t _ ht with ht | ⟨h, -⟩ | ⟨-, h⟩
    · exact h.pushers t data ht
    · cases h
    · exact h

theorem Inv.call (h : s.Inv) (hs : s.call t op = some s') : s'.Inv := by
  unfold Monitor.call at hs
  split at hs
  · obtain rfl := Option.some.inj hs
    refine h.of_threads rfl rfl rfl fun t' op' ht' => Or.inl ?_
    by_cases heq : t' = t
    · rw [heq] at ht'
      simp at ht'
    · simpa [heq] using ht'
  · cases hs

theorem Inv.wake (h : s.Inv) (hs : s.wake t = some s') : s'.Inv := by
  unfold Monitor.wake at hs
  split at hs
  · obtain rfl := Option.some.inj hs
    refine h.of_threads rfl rfl rfl fun t' op' ht' => Or.inl ?_
    by_cases heq : t' = t
    · rw [heq] at ht'
      simp at ht'
    · simpa [heq] using ht'
  · cases hs

/-! ## One critical section -/

/-- What a critical section of thread `t` can come to. -/
inductive EnterCase (t : τ) (s : Monitor τ α) : Monitor τ α → QueueRet α → Prop where
  | waits (op : QueueOp α) (s' : Monitor τ α) (hop : s.threads t = .ready op)
      (hblocked : (op = .pull ∧ s.contents = []) ∨ (op ≠ .pull ∧ 0 < s.queue.maxSize
        ∧ (s.contents.length : Int) = s.queue.maxSize))
      (heq : s' = { s with threads := Function.update s.threads t (.waiting op) }) :
      EnterCase t s s' .waits
  | pushed (data : α) (s' : Monitor τ α) (hop : s.threads t = .ready (.push data))
      (hroom : 0 < s.queue.maxSize → (s.contents.length : Int) < s.queue.maxSize)
      (hcontents : s'.contents = s.contents ++ [s.queue.copyConstructor data])
      (hpushed : s'.pushed = s.pushed ++ [data]) (hpulled : s'.pulled = s.pulled)
      (hthreads : s'.threads = Function.update (broadcast s.threads s.contents.isEmpty) t .out)
      (hmax : s'.queue.maxSize = s.queue.maxSize)
      (hcopy : s'.queue.copyConstructor = s.queue.copyConstructor) : EnterCase t s s' .pushed
  | pulled (x : α) (s' : Monitor τ α) (hop : s.threads t = .ready .pull)
      (hcontents : s.contents = x :: s'.contents)
      (hpushed : s'.pushed = s.pushed) (hpulled : s'.pulled = s.pulled ++ [x])
      (hthreads : s'.threads = Function.update (broadcast s.threads
        (decide (0 < s.queue.maxSize ∧ (s'.contents.length : Int) = s.queue.maxSize - 1))) t .out)
      (hmax : s'.queue.maxSize = s.queue.maxSize)
      (hcopy : s'.queue.copyConstructor = s.queue.copyConstructor) : EnterCase t s s' (.pulled x)

theorem EnterCase.consts (h : EnterCase t s s' r) : s'.queue.maxSize = s.queue.maxSize
    ∧ s'.queue.copyConstructor = s.queue.copyConstructor := by
  cases h with
  | waits op _ hop hblocked heq => exact heq ▸ ⟨rfl, rfl⟩
  | pushed data _ hop hroom hcontents hpushed hpulled hthreads hmax hcopy => exact ⟨hmax, hcopy⟩
  | pulled x _ hop hcontents hpushed hpulled hthreads hmax hcopy => exact ⟨hmax, hcopy⟩

omit [DecidableEq τ] in
theorem broadcast_waiting {threads : τ → QueueStatus α} {b : Bool}
    (h : broadcast threads b t = .waiting op) : b = false ∧ threads t = .waiting op := by
  unfold broadcast at h
  cases b with
  | false => exact ⟨rfl, h⟩
  | true =>
      simp only [if_true] at h
      unfold QueueStatus.woken at h
      split at h
      · cases h
      · rename_i hne
        exact (hne op h).elim

omit [DecidableEq τ] in
theorem Inv.length_le (h : s.Inv) : s.pulled.length ≤ s.pushed.length := by
  have := congrArg List.length h.history
  simp only [List.length_append, List.length_map] at this
  omega

omit [DecidableEq τ] in
theorem Inv.size (h : s.Inv) : s.queue.size = s.contents.length := by
  obtain ⟨ps, hps⟩ := h.holds
  exact hps.size

theorem Inv.enter_push {data : α} {q : Queue α} {b : Bool} (h : s.Inv)
    (hop : s.threads t = .ready (.push data)) (hfull : s.queue.full = false)
    (hp : s.queue.nodes p = none) (hpush : s.queue.push p data = some (q, b)) :
    EnterCase t s
        { s with
          queue := q, threads := Function.update (broadcast s.threads b) t .out
          pushed := s.pushed ++ [data] } .pushed
      ∧ Inv { s with
          queue := q, threads := Function.update (broadcast s.threads b) t .out
          pushed := s.pushed ++ [data] } := by
  obtain ⟨ps, hps⟩ := h.holds
  obtain ⟨q', hq', hholds, hmax, hcopy⟩ := hps.push hp data
  obtain ⟨rfl, rfl⟩ := Prod.mk.inj (Option.some.inj (hq'.symm.trans hpush))
  have hroom : 0 < s.queue.maxSize → (s.contents.length : Int) < s.queue.maxSize := fun hpos =>
    lt_of_le_of_ne (h.bounded hpos) fun heq => by
      rw [hps.full_iff.mpr ⟨hpos, heq⟩] at hfull
      cases hfull
  have hcontents : ∀ threads : τ → QueueStatus α, contents { s with
      queue := q', threads := threads, pushed := s.pushed ++ [data] }
        = s.contents ++ [s.queue.copyConstructor data] := fun threads => by
    have hle : s.pulled.length ≤ (s.pushed.map s.queue.copyConstructor).length := by
      rw [List.length_map]
      exact h.length_le
    simp only [contents, hcopy, List.map_append, List.map_singleton]
    exact List.drop_append_of_le_length hle
  refine ⟨.pushed data _ hop hroom (hcontents _) rfl rfl ?_ hmax hcopy,
    ⟨ps ++ [p], (hcontents _).symm ▸ hholds⟩, ?_, fun hpos => ?_, fun t' ht' => ?_,
    fun t' data' ht' => ?_⟩
  · show Function.update (broadcast s.threads (decide (s.contents = []))) t .out = _
    cases s.contents <;> rfl
  · rw [hcontents, ← List.append_assoc, h.history, hcopy, List.map_append, List.map_singleton]
  · rw [hcontents, List.length_append, List.length_singleton]
    have := hroom (hmax ▸ hpos)
    simp only [hmax] at hpos ⊢
    omega
  · by_cases heq : t' = t
    · simp [heq] at ht'
    · simp only [Function.update_of_ne heq] at ht'
      obtain ⟨hb, hwait⟩ := broadcast_waiting ht'
      exact absurd (h.pullers t' hwait) (of_decide_eq_false hb)
  · by_cases heq : t' = t
    · simp [heq] at ht'
    · simp only [Function.update_of_ne heq] at ht'
      obtain ⟨hpos, hlen⟩ := h.pushers t' data' (broadcast_waiting ht').2
      exact absurd hlen (hroom hpos).ne

theorem Inv.enter_pull {x : α} {q : Queue α} {b : Bool} (h : s.Inv)
    (hop : s.threads t = .ready .pull) (hsize : s.queue.size ≠ 0)
    (hpull : s.queue.pull = some (x, q, b)) :
    EnterCase t s
        { s with
          queue := q, threads := Function.update (broadcast s.threads b) t .out
          pulled := s.pulled ++ [x] } (.pulled x)
      ∧ Inv { s with
          queue := q, threads := Function.update (broadcast s.threads b) t .out
          pulled := s.pulled ++ [x] } := by
  obtain ⟨ps, hps⟩ := h.holds
  obtain ⟨y, ys, hys⟩ : ∃ y ys, s.contents = y :: ys := List.exists_cons_of_ne_nil fun hnil =>
    hsize (by rw [hps.size, hnil]; rfl)
  have hholds0 := hps
  rw [hys] at hps
  obtain ⟨p', ps', rfl⟩ : ∃ p' ps', ps = p' :: ps' := List.exists_cons_of_ne_nil fun hnil => by
    have := hps.length
    rw [hnil] at this
    cases this
  obtain ⟨q', hq', hholds, hmax, hcopy⟩ := hps.pull
  have hinj := Option.some.inj (hq'.symm.trans hpull)
  obtain ⟨hyx, hinj⟩ := Prod.mk.inj hinj
  obtain ⟨rfl, rfl⟩ := Prod.mk.inj hinj
  subst hyx
  have hcontents : ∀ threads : τ → QueueStatus α, contents { s with
      queue := q', threads := threads, pulled := s.pulled ++ [y] } = ys := fun threads => by
    have := congrArg List.tail hys
    rw [contents, List.tail_drop] at this
    simpa [contents, hcopy] using this
  refine ⟨.pulled y _ hop (hys.trans (by rw [hcontents])) rfl rfl ?_ hmax hcopy,
    ⟨ps', (hcontents _).symm ▸ hholds⟩, ?_, fun hpos => ?_, fun t' ht' => ?_, fun t' data' ht' => ?_⟩
  · rw [hcontents]
  · rw [hcontents, hcopy, ← h.history, hys]
    simp
  · have := h.bounded (hmax ▸ hpos)
    rw [hys, List.length_cons] at this
    rw [hcontents]
    simp only [hmax]
    omega
  · by_cases heq : t' = t
    · simp [heq] at ht'
    · simp only [Function.update_of_ne heq] at ht'
      have := h.pullers t' (broadcast_waiting ht').2
      rw [hys] at this
      cases this
  · by_cases heq : t' = t
    · simp [heq] at ht'
    · simp only [Function.update_of_ne heq] at ht'
      obtain ⟨hb, hwait⟩ := broadcast_waiting ht'
      obtain ⟨hpos, hlen⟩ := h.pushers t' data' hwait
      rw [hys, List.length_cons] at hlen
      exact absurd ⟨hpos, by omega⟩ (of_decide_eq_false hb)

/-- **One critical section.** Between the lock and the unlock a thread tests once, and
either waits or pushes or pulls; what it signals is who could go on then. -/
theorem Inv.enter (h : s.Inv) (hs : s.enter t p = some (s', r)) : EnterCase t s s' r ∧ s'.Inv := by
  obtain ⟨ps, hps⟩ := h.holds
  have hwait : ∀ {op : QueueOp α}, ((op = .pull ∧ s.contents = []) ∨ (op ≠ .pull
      ∧ 0 < s.queue.maxSize ∧ (s.contents.length : Int) = s.queue.maxSize)) →
        Inv { s with threads := Function.update s.threads t (.waiting op) } := fun {op} hop => by
    refine h.of_threads rfl rfl rfl fun t' op' ht' => ?_
    by_cases heq : t' = t
    · rw [heq] at ht'
      obtain rfl : op = op' := by simpa using ht'
      exact Or.inr hop
    · exact Or.inl (by simpa [heq] using ht')
  unfold Monitor.enter at hs
  split at hs
  · rename_i data hop
    split at hs
    · rename_i hfull
      obtain ⟨rfl, rfl⟩ := Prod.mk.inj (Option.some.inj hs)
      have hblocked := Or.inr (a := QueueOp.push data = .pull ∧ s.contents = [])
        (⟨nofun, hps.full_iff.mp hfull⟩ : QueueOp.push data ≠ .pull ∧ _)
      exact ⟨.waits _ _ hop hblocked rfl, hwait hblocked⟩
    · rename_i hfull
      split at hs
      · cases hs
      · rename_i hp
        obtain ⟨⟨q, b⟩, hpush, heq⟩ := Option.map_eq_some_iff.mp hs
        obtain ⟨rfl, rfl⟩ := Prod.mk.inj heq
        exact h.enter_push hop (by simpa using hfull) (by simpa using hp) hpush
  · rename_i hop
    split at hs
    · rename_i hsize
      obtain ⟨rfl, rfl⟩ := Prod.mk.inj (Option.some.inj hs)
      have hnil : s.contents = [] := by
        rw [h.size] at hsize
        exact List.length_eq_zero_iff.mp (by exact_mod_cast hsize)
      exact ⟨.waits _ _ hop (Or.inl ⟨rfl, hnil⟩) rfl, hwait (Or.inl ⟨rfl, hnil⟩)⟩
    · rename_i hsize
      obtain ⟨⟨x, q, b⟩, hpull, heq⟩ := Option.map_eq_some_iff.mp hs
      obtain ⟨rfl, rfl⟩ := Prod.mk.inj heq
      exact h.enter_pull hop hsize hpull
  · cases hs

/-- A thread that is about to get the mutex can go on when it has it. -/
theorem Inv.enter_total (h : s.Inv) (hop : s.threads t = .ready op) :
    ∃ p s' r, s.enter t p = some (s', r) := by
  obtain ⟨ps, hps⟩ := h.holds
  cases op with
  | push data =>
      obtain ⟨p, hp⟩ := hps.free
      obtain ⟨q', hpush, -⟩ := hps.push hp data
      refine ⟨p, ?_⟩
      simp only [Monitor.enter, hop, hp, hpush, Option.isSome_none, Bool.false_eq_true, if_false,
        Option.map_some]
      split
      · exact ⟨_, _, rfl⟩
      · exact ⟨_, _, rfl⟩
  | pull =>
      refine ⟨0, ?_⟩
      simp only [Monitor.enter, hop]
      split
      · exact ⟨_, _, rfl⟩
      · rename_i hsize
        obtain ⟨x, xs, hxs⟩ : ∃ x xs, s.contents = x :: xs :=
          List.exists_cons_of_ne_nil fun hnil => hsize (by rw [h.size, hnil]; rfl)
        rw [hxs] at hps
        obtain ⟨p', ps', rfl⟩ : ∃ p' ps', ps = p' :: ps' :=
          List.exists_cons_of_ne_nil fun hnil => by
            have := hps.length
            rw [hnil] at this
            cases this
        obtain ⟨q', hpull, -⟩ := hps.pull
        rw [hpull]
        exact ⟨_, _, rfl⟩

/-! ## Runs -/

theorem Inv.step (h : s.Inv) (hs : Step s e s') : s'.Inv := by
  cases e with
  | call t op => exact h.call hs
  | enter t p =>
      obtain ⟨⟨s₁, r⟩, h1, rfl⟩ := Option.map_eq_some_iff.mp hs
      exact (h.enter h1).2
  | wake t => exact h.wake hs

theorem Step.consts (h : s.Inv) (hs : Step s e s') :
    s'.queue.maxSize = s.queue.maxSize
      ∧ s'.queue.copyConstructor = s.queue.copyConstructor := by
  cases e with
  | call t op =>
      have hs' : s.call t op = some s' := hs
      unfold Monitor.call at hs'
      split at hs'
      · obtain rfl := Option.some.inj hs'
        exact ⟨rfl, rfl⟩
      · cases hs'
  | enter t p =>
      obtain ⟨⟨s₁, r⟩, h1, rfl⟩ := Option.map_eq_some_iff.mp hs
      exact (h.enter h1).1.consts
  | wake t =>
      have hs' : s.wake t = some s' := hs
      unfold Monitor.wake at hs'
      split at hs'
      · obtain rfl := Option.some.inj hs'
        exact ⟨rfl, rfl⟩
      · cases hs'

theorem Reachable.inv (h : Reachable maxSize copy s) :
    s.Inv ∧ s.queue.maxSize = maxSize ∧ s.queue.copyConstructor = copy :=
  h.invariant (I := fun s => s.Inv ∧ s.queue.maxSize = maxSize ∧ s.queue.copyConstructor = copy)
    ⟨create_inv maxSize copy, rfl, rfl⟩ fun _ _ _ _ ⟨hinv, hmax, hcopy⟩ hs =>
      ⟨hinv.step hs, (Step.consts hinv hs).1.trans hmax, (Step.consts hinv hs).2.trans hcopy⟩

def exec {β : Type*} (maxSize : Int) (copy : α → α) (es : List (QueueEvent τ α))
    (f : Monitor τ α → β) : Option β :=
  (es.foldlM handle (create τ maxSize copy)).map f

theorem foldlM_reach {s₀ : Monitor τ α} :
    ∀ {es : List (QueueEvent τ α)} {s s' : Monitor τ α}, Reach Step s₀ s →
      es.foldlM handle s = some s' → Reach Step s₀ s'
  | [], s, s', hr, h => by
      obtain rfl := Option.some.inj h
      exact hr
  | e :: es, s, s', hr, h => by
      rw [List.foldlM_cons] at h
      obtain ⟨s₁, h1, h2⟩ := Option.bind_eq_some_iff.mp h
      exact foldlM_reach (Reach.step (T := Step) hr h1) h2

theorem exec_spec {β : Type*} {es : List (QueueEvent τ α)} {f : Monitor τ α → β} {v : β}
    (h : exec maxSize copy es f = some v) : ∃ s, Reachable maxSize copy s ∧ f s = v := by
  obtain ⟨s, hs, hv⟩ := Option.map_eq_some_iff.mp h
  exact ⟨s, foldlM_reach Reach.refl hs, hv⟩

/-! ## Wakeups -/

/-- **No lost wakeup.** A thread that waits and has not been woken waits
because of the state the queue is in now, so that it would wait again if it
were woken. So while there is an element nobody waits for one, and while there
is room nobody waits for room. -/
theorem no_lost_wakeup (h : Reachable maxSize copy s) :
    (∀ t, s.threads t = .waiting .pull → s.queue.size = 0) ∧
    (∀ t data, s.threads t = .waiting (.push data) →
      0 < maxSize ∧ s.queue.size = maxSize) ∧
    ∀ t p s₁ s₂ r, s.wake t = some s₁ → s₁.enter t p = some (s₂, r) → r = .waits := by
  obtain ⟨hinv, rfl, -⟩ := h.inv
  have hpull : ∀ t, s.threads t = .waiting .pull → s.queue.size = 0 := fun t ht => by
    rw [hinv.size, hinv.pullers t ht]
    rfl
  have hpush : ∀ t data, s.threads t = .waiting (.push data) →
      0 < s.queue.maxSize ∧ s.queue.size = s.queue.maxSize := fun t data ht => by
    rw [hinv.size]
    exact hinv.pushers t data ht
  refine ⟨hpull, hpush, ?_⟩
  intro t p s₁ s₂ r hwake henter
  unfold Monitor.wake at hwake
  split at hwake
  · rename_i op hop
    obtain rfl := Option.some.inj hwake
    cases op with
    | push data =>
        have hfull : s.queue.full = true := by simp [Queue.full, hpush t data hop]
        simp only [Monitor.enter, Function.update_self, hfull, if_true, Option.some.injEq,
          Prod.mk.injEq] at henter
        exact henter.2.symm
    | pull =>
        simp only [Monitor.enter, Function.update_self, hpull t hop, if_true, Option.some.injEq,
          Prod.mk.injEq] at henter
        exact henter.2.symm
  · cases hwake

/-- On a queue of one element: a push that waits beside a stored value. -/
theorem push_sleeps :
    ∃ s : Monitor Nat Nat, Reachable 1 id s ∧ s.threads 1 = .waiting (.push 8) ∧
      (0 < (1 : Int) ∧ s.queue.size = 1) := by
  have hexec : exec (τ := Nat) (1 : Int) (id : Nat → Nat)
      [.call 0 (.push 7), .enter 0 0, .call 1 (.push 8), .enter 1 1]
        (fun s => s.threads 1) = some (.waiting (.push 8)) := by decide +kernel
  obtain ⟨s, hr, hv⟩ := exec_spec hexec
  exact ⟨s, hr, hv, (no_lost_wakeup hr).2.1 1 8 hv⟩

/-! ## The order -/

/-- **The queue is a bounded FIFO.** The list from `head` is a chain without
repetitions that ends at `tail`; its values are the copies of what has been
pushed and not been pulled, in the order of the pushes. It holds of every state
that any number of threads can bring about, in between the calls as well as
while some of them wait. -/
theorem bounded_fifo (h : Reachable maxSize copy s) :
    ∃ ps xs, Linked.Chain s.queue.next s.queue.head ps ∧ ps.Nodup ∧
      s.queue.tail = ps.getLast? ∧
      (s.queue.head = none ↔ ps = []) ∧ (s.queue.tail = none ↔ ps = []) ∧
      s.queue.size = ps.length ∧ (0 < maxSize → s.queue.size ≤ maxSize) ∧
      ps.map (fun p => (s.queue.nodes p).map (·.data)) = xs.map some ∧
      s.pulled ++ xs = s.pushed.map copy := by
  obtain ⟨hinv, rfl, rfl⟩ := h.inv
  obtain ⟨ps, hps⟩ := hinv.holds
  have hnil : s.contents = [] ↔ ps = [] := by
    rw [← List.length_eq_zero_iff, ← hps.length, List.length_eq_zero_iff]
  refine ⟨ps, s.contents, hps.chain, hps.chain.nodup, hps.tail, hps.null_iff.1.trans hnil,
    hps.null_iff.2.trans hnil, ?_, fun hpos => ?_, hps.values, hinv.history⟩
  · rw [hps.size, hps.length]
  · rw [hps.size]
    exact hinv.bounded hpos

/-- Three pushes and a pull, with a push that had to wait. -/
theorem fifo_of_two :
    ∃ s : Monitor Nat Nat, Reachable 2 (· + 1) s ∧ s.pulled = [8] ∧
      ∃ ps xs, Linked.Chain s.queue.next s.queue.head ps ∧ ps.length = 2 ∧
        s.pulled ++ xs = [8, 9, 10] := by
  have hexec : exec (τ := Nat) (2 : Int) (fun x : Nat => x + 1)
      [.call 0 (.push 7), .enter 0 0, .call 0 (.push 8), .enter 0 1, .call 1 (.push 9),
        .enter 1 2, .call 2 .pull, .enter 2 0, .enter 1 0]
        (fun s => (s.pulled, s.pushed, s.queue.size)) = some ([8], [7, 8, 9], 2) := by
    decide +kernel
  obtain ⟨s, hr, hv⟩ := exec_spec hexec
  simp only [Prod.mk.injEq] at hv
  obtain ⟨hpulled, hpushed, hsize⟩ := hv
  obtain ⟨ps, xs, hchain, -, -, -, -, hlen, -, -, hhist⟩ := bounded_fifo hr
  refine ⟨s, hr, hpulled, ps, xs, hchain, ?_, ?_⟩
  · omega
  · rw [hhist, hpushed]
    rfl

end Monitor

end KeyLime
