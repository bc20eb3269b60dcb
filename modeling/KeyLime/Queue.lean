import Mathlib.Data.Fintype.EquivFin
import KeyLime.Linked

/-!
# The blocking queue

`queue.c`: a linked list of nodes behind a mutex and one condition variable.
The functions here are what `queue_push` and `queue_pull` do once they hold
the mutex and their wait is over; a second result says whether they
broadcast. A heap of nodes stands for the memory: `malloc` returns any
address that is not in use, so the address is an input, and `free` takes it
out of the heap. `none` is an access outside an object.

`Holds q ps xs`: the list that starts at `head` has the nodes `ps` with the
values `xs`. It is the only thing the rest of the development needs to know of
the pointers: pushing appends to it and pulling takes its first node
(`Holds.push`, `Holds.pull`), `head` and `tail` are null together, and `size` is
the number of its nodes. A pushed value is a copy, so the values are results of
the copy constructor.

What a thread does before it gets that far, the waiting and the wakeups, is in
`Monitor`.
-/

namespace KeyLime

open Linked

structure QueueNode (α : Type*) where
  data : α
  next : Option Nat
deriving DecidableEq, Repr

structure Queue (α : Type*) where
  copyConstructor : α → α
  nodes : Nat → Option (QueueNode α)
  head : Option Nat
  tail : Option Nat
  size : Int
  maxSize : Int

namespace Queue

variable {α : Type*}

def create (maxSize : Int) (copyConstructor : α → α) : Queue α where
  copyConstructor := copyConstructor
  nodes := fun _ => none
  head := none
  tail := none
  size := 0
  maxSize := maxSize

/-- What `queue_push` waits for to pass. -/
def full (q : Queue α) : Bool := 0 < q.maxSize && q.size == q.maxSize

/-- `queue_push` after its wait, on a node at address `p`. -/
def push (q : Queue α) (p : Nat) (data : α) : Option (Queue α × Bool) :=
  let node : QueueNode α := { data := q.copyConstructor data, next := none }
  let nodes := Function.update q.nodes p (some node)
  let linked : Option (Queue α) :=
    match q.head with
    | none => some { q with nodes := nodes, head := some p, tail := some p }
    | some _ =>
        q.tail.bind fun t => (nodes t).map fun last =>
          { q with
            nodes := Function.update nodes t (some { last with next := some p })
            tail := some p }
  linked.map fun q =>
    let q := { q with size := q.size + 1 }
    (q, q.size == 1)

/-- `queue_pull` after its wait. -/
def pull (q : Queue α) : Option (α × Queue α × Bool) :=
  q.head.bind fun p => (q.nodes p).map fun node =>
    let q := { q with
      head := node.next
      tail := if node.next = none then none else q.tail
      size := q.size - 1
      nodes := Function.update q.nodes p none }
    (node.data, q, 0 < q.maxSize && q.size == q.maxSize - 1)

/-! ## The list of nodes -/

variable {q q' : Queue α} {ps : List Nat} {xs : List α} {p : Nat} {x : α}

/-- The `next` field of the node at an address. -/
def next (q : Queue α) (p : Nat) : Option Nat := (q.nodes p).bind (·.next)

structure Holds (q : Queue α) (ps : List Nat) (xs : List α) : Prop where
  chain : Chain q.next q.head ps
  tail : q.tail = ps.getLast?
  values : ps.map (fun p => (q.nodes p).map (·.data)) = xs.map some
  size : q.size = xs.length
  /-- No node is lost. -/
  only : ∀ p, q.nodes p ≠ none → p ∈ ps

theorem Holds.length (h : q.Holds ps xs) : ps.length = xs.length := by
  have := congrArg List.length h.values
  simpa using this

theorem create_holds (maxSize : Int) (copy : α → α) : (create maxSize copy).Holds [] [] :=
  ⟨rfl, rfl, rfl, rfl, fun _ h => (h rfl).elim⟩

theorem Holds.allocated (h : q.Holds ps xs) (hp : p ∈ ps) : ∃ node, q.nodes p = some node := by
  have hmem : (q.nodes p).map (·.data) ∈ xs.map some :=
    h.values ▸ List.mem_map_of_mem hp
  obtain ⟨x, -, hx⟩ := List.mem_map.mp hmem
  obtain ⟨node, hnode, -⟩ := Option.map_eq_some_iff.mp hx.symm
  exact ⟨node, hnode⟩

/-- The two pointers tell an empty queue, and are null together. -/
theorem Holds.null_iff (h : q.Holds ps xs) :
    (q.head = none ↔ xs = []) ∧ (q.tail = none ↔ xs = []) := by
  have hps : ps = [] ↔ xs = [] := by
    rw [← List.length_eq_zero_iff, h.length, List.length_eq_zero_iff]
  rw [h.chain.head, h.tail, List.head?_eq_none_iff, List.getLast?_eq_none_iff]
  exact ⟨hps, hps⟩

theorem Holds.full_iff (h : q.Holds ps xs) :
    q.full = true ↔ 0 < q.maxSize ∧ (xs.length : Int) = q.maxSize := by
  simp [full, h.size]

theorem Holds.push (h : q.Holds ps xs) (hp : q.nodes p = none) (data : α) :
    ∃ q', q.push p data = some (q', decide (xs = []))
      ∧ q'.Holds (ps ++ [p]) (xs ++ [q.copyConstructor data])
      ∧ q'.maxSize = q.maxSize ∧ q'.copyConstructor = q.copyConstructor := by
  have hfresh : p ∉ ps := fun hmem => by
    obtain ⟨node, hnode⟩ := h.allocated hmem
    rw [hp] at hnode
    cases hnode
  have hsize : ((q.size + 1 == 1) : Bool) = decide (xs = []) := by
    rw [h.size, Bool.eq_iff_iff, beq_iff_eq, decide_eq_true_eq, ← List.length_eq_zero_iff]
    omega
  have hlen : q.size + 1 = ((xs ++ [q.copyConstructor data]).length : Int) := by
    simp [h.size]
  cases hps : ps with
  | nil =>
      subst hps
      have hxs : xs = [] := List.length_eq_zero_iff.mp h.length.symm
      subst hxs
      have hhead : q.head = none := h.chain
      have hpush : q.push p data = some
          ({ q with
              nodes := Function.update q.nodes p
                (some { data := q.copyConstructor data, next := none })
              head := some p, tail := some p, size := q.size + 1 }, decide (([] : List α) = [])) := by
        simp only [Queue.push, hhead, Option.map_some, hsize]
      refine ⟨_, hpush, ⟨?_, rfl, ?_, hlen, ?_⟩, rfl, rfl⟩
      · exact ⟨rfl, by simp [Queue.next, Chain]⟩
      · simp
      · intro r hr
        by_contra hne
        have hrp : r ≠ p := fun heq => hne (heq ▸ List.mem_append_right _ (List.mem_singleton_self _))
        simp only [Function.update_of_ne hrp] at hr
        cases h.only r hr
  | cons r rs =>
      rw [← hps]
      obtain ⟨t, ht⟩ : ∃ t, ps.getLast? = some t :=
        Option.isSome_iff_exists.mp (by simp [hps])
      have hmem := List.mem_of_getLast? ht
      have htp : t ≠ p := fun heq => hfresh (heq ▸ hmem)
      obtain ⟨last, hlast⟩ := h.allocated hmem
      have hhead : q.head = some r := by rw [h.chain.head, hps, List.head?_cons]
      have htail : q.tail = some t := h.tail.trans ht
      have hlast' : Function.update q.nodes p
          (some { data := q.copyConstructor data, next := none }) t = some last := by
        rw [Function.update_of_ne htp, hlast]
      have hpush : q.push p data = some
          ({ q with
              nodes := Function.update (Function.update q.nodes p
                (some { data := q.copyConstructor data, next := none })) t
                (some { last with next := some p })
              tail := some p, size := q.size + 1 }, decide (xs = [])) := by
        simp only [Queue.push, hhead, htail, Option.bind_some, hlast', Option.map_some, hsize]
      refine ⟨_, hpush, ⟨?_, ?_, ?_, hlen, ?_⟩, rfl, rfl⟩
      · refine h.chain.concat ht hfresh (by simp [Queue.next]) ?_ fun r hrt hrp => ?_
        · simp [Queue.next, htp.symm]
        · simp [Queue.next, hrt, hrp]
      · simp
      · rw [List.map_append, List.map_append, ← h.values]
        congr 1
        · refine List.map_congr_left fun r hr => ?_
          have hrp : r ≠ p := fun heq => hfresh (heq ▸ hr)
          by_cases hrt : r = t
          · simp [hrt, hlast]
          · simp [hrt, hrp]
        · simp [htp.symm]
      · intro r hr
        by_contra hne
        rw [List.mem_append, List.mem_singleton, not_or] at hne
        have hrt : r ≠ t := fun heq => hne.1 (heq ▸ hmem)
        simp only [Function.update_of_ne hrt, Function.update_of_ne hne.2] at hr
        exact hne.1 (h.only r hr)

theorem Holds.pull (h : q.Holds (p :: ps) (x :: xs)) :
    ∃ q', q.pull = some (x, q', decide (0 < q.maxSize ∧ (xs.length : Int) = q.maxSize - 1))
      ∧ q'.Holds ps xs ∧ q'.maxSize = q.maxSize ∧ q'.copyConstructor = q.copyConstructor := by
  obtain ⟨node, hnode⟩ := h.allocated (List.mem_cons_self ..)
  have hhead : q.head = some p := h.chain.1
  have hvalues := h.values
  simp only [List.map_cons, hnode, Option.map_some, List.cons.injEq, Option.some.injEq] at hvalues
  have hp := (List.nodup_cons.mp h.chain.nodup).1
  have hnext : q.next p = node.next := by simp [Queue.next, hnode]
  have hsize : q.size - 1 = (xs.length : Int) := by simp [h.size]
  have hbroadcast : (decide (0 < q.maxSize) && q.size - 1 == q.maxSize - 1) =
      decide (0 < q.maxSize ∧ (xs.length : Int) = q.maxSize - 1) := by
    rw [hsize, Bool.decide_and]
    rfl
  have hpull : q.pull = some (x,
      { q with
          head := node.next, tail := if node.next = none then none else q.tail
          size := q.size - 1, nodes := Function.update q.nodes p none },
      decide (0 < q.maxSize ∧ (xs.length : Int) = q.maxSize - 1)) := by
    simp only [Queue.pull, hhead, Option.bind_some, hnode, Option.map_some, hvalues.1, hbroadcast]
  refine ⟨_, hpull, ⟨?_, ?_, ?_, hsize, ?_⟩, rfl, rfl⟩
  · have hrest := h.chain.rest
    rw [hnext] at hrest
    refine hrest.congr fun r hr => ?_
    have hrp : r ≠ p := fun heq => hp (heq ▸ hr)
    simp [Queue.next, hrp]
  · have hrest := h.chain.rest.head
    rw [hnext] at hrest
    simp only [hrest, h.tail]
    cases ps with
    | nil => rfl
    | cons r ps => simp
  · rw [← hvalues.2]
    refine List.map_congr_left fun r hr => ?_
    have hrp : r ≠ p := fun heq => hp (heq ▸ hr)
    simp [hrp]
  · intro r hr
    have hrp : r ≠ p := fun heq => hr (by simp [heq])
    simp only [Function.update_of_ne hrp] at hr
    exact (List.mem_cons.mp (h.only r hr)).resolve_left hrp

theorem Holds.free (h : q.Holds ps xs) : ∃ p, q.nodes p = none := by
  obtain ⟨p, hp⟩ := Infinite.exists_notMem_finset ps.toFinset
  refine ⟨p, ?_⟩
  by_contra hne
  exact hp (List.mem_toFinset.mpr (h.only p hne))

end Queue

end KeyLime
