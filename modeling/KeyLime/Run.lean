import KeyLime.Master
import KeyLime.Transition

/-!
# Runs of the master

The events of the master's three threads, each taken as one step: a
return of `epoll_wait` on the server socket or on a connection, a
heartbeat datagram, and a pass of the failure detector. Connections are
registered edge-triggered, so an event on one always brings something new
to read.

What the environment decides is part of the event: the pending connections, the
items that arrive, the outcome of each call on a file or a socket, the time, the
memory `malloc` returns. So a run is a list of events, every list that is
`enabled` on the way is a run, and a theorem about `Reachable` states is one
about all of them. `ReachableWithin C` are the states of the runs whose steps
all meet a condition.

The steps are whole handlers, which is how the program uses its one mutex; the
exceptions, the critical sections of `do_put`, are taken apart in `PutSteps`.

Witnesses are runs that the kernel of Lean computes (`execWithin`): a list of
events, and a decidable view of the state they come to.
-/

namespace KeyLime

open Transition

inductive Event where
  | accept (cs : List Master.Conn)
  | data (fd : Int) (arrived : List Item) (io : Master.DataIo)
  | heartbeat (addr : Bytes) (usage now : ℚ)
  | detect (now : ℚ) (mem : Worker) (ios : Nat → List Master.ResendIo)

namespace Master

/-- `setUpGlobals`: no record, no file, nothing connected. -/
def init (resolve : Bytes → Bytes) : Master where
  kernel :=
    { desc := fun _ => none, inbox := fun _ => [], taken := fun _ => [], sent := fun _ => []
      store := fun _ => none, resolve := resolve, nextFd := 0, held := false
      relocked := false }
  heap := fun _ => default
  nextWorker := 0
  nextTask := 0
  interfaceFd := -1
  interface := none
  workerList := []
  taskList := []
  log := []

/-- `accept` returns descriptors that are not open. -/
def acceptable (k : Kernel) : List Conn → Bool
  | [] => true
  | c :: cs => 0 ≤ c.fd && (k.desc c.fd).isNone && acceptable (k.connect c.fd) cs

/-- The events that can occur. Data arrive on open connections only, and there is no
event without any; `epoll` is edge-triggered. -/
def enabled (m : Master) : Event → Bool
  | .accept cs => acceptable m.kernel cs
  | .data fd arrived _ => m.kernel.desc fd == some .sock && !arrived.isEmpty
  | .heartbeat _ _ _ => true
  | .detect _ _ _ => true

def handle (m : Master) : Event → Option Master
  | .accept cs => some (m.acceptConnections cs)
  | .data fd arrived io =>
      { m with kernel := m.kernel.deliver fd arrived }.handleData fd io
  | .heartbeat addr usage now => some (m.reportHeartbeat addr usage now)
  | .detect now mem ios => m.detectPass now mem ios m.workerList

def Step (m : Master) (e : Event) (m' : Master) : Prop :=
  m.enabled e = true ∧ m.handle e = some m'

def Reachable (m : Master) : Prop := ∃ resolve, Reach Step (init resolve) m

/-- `m` is reached in some run whose steps all meet `C`. -/
def ReachableWithin (C : Master → Event → Master → Prop) (m : Master) : Prop :=
  ∃ resolve, Reach (Within Step C) (init resolve) m

variable {C : Master → Event → Master → Prop} {m m' : Master} {e : Event}

theorem Reachable.step (h : Reachable m) (hs : Step m e m') : Reachable m' := by
  obtain ⟨resolve, h⟩ := h
  exact ⟨resolve, h.step hs⟩

theorem ReachableWithin.step (h : ReachableWithin C m) (hs : Step m e m') (hc : C m e m') :
    ReachableWithin C m' := by
  obtain ⟨resolve, h⟩ := h
  exact ⟨resolve, h.step_within hs hc⟩

theorem ReachableWithin.reachable (h : ReachableWithin C m) : Reachable m := by
  obtain ⟨resolve, h⟩ := h
  exact ⟨resolve, h.of_within⟩

theorem Reachable.invariant {I : Master → Prop} (h0 : ∀ resolve, I (init resolve))
    (hstep : ∀ m e m', Reachable m → I m → Step m e m' → I m') (h : Reachable m) : I m := by
  obtain ⟨resolve, h⟩ := h
  exact h.invariant (h0 resolve) fun m e m' hr => hstep m e m' ⟨resolve, hr⟩

theorem ReachableWithin.invariant {I : Master → Prop} (h0 : ∀ resolve, I (init resolve))
    (hstep : ∀ m e m', ReachableWithin C m → I m → Step m e m' → C m e m' → I m')
    (h : ReachableWithin C m) : I m := by
  obtain ⟨resolve, h⟩ := h
  exact h.invariant (h0 resolve) fun m e m' hr hi hs =>
    hstep m e m' ⟨resolve, hr⟩ hi hs.1 hs.2

/-! ## Executable runs -/

/-- Handle the events in order; `none` when one cannot occur, or does not
pass the check `c`. -/
def execWithin (c : Master → Event → Bool) (m : Master) : List Event → Option Master
  | [] => some m
  | e :: es =>
      if m.enabled e && c m e then (m.handle e).bind fun m => m.execWithin c es else none

theorem execWithin_cons {c : Master → Event → Bool} {es : List Event}
    (h : m.execWithin c (e :: es) = some m') :
    ∃ m₁, Step m e m₁ ∧ c m e = true ∧ m₁.execWithin c es = some m' := by
  rw [execWithin] at h
  split at h
  · rename_i hen
    rw [Bool.and_eq_true] at hen
    obtain ⟨m₁, h1, h2⟩ := Option.bind_eq_some_iff.mp h
    exact ⟨m₁, ⟨hen.1, h1⟩, hen.2, h2⟩
  · cases h

theorem execWithin_reach {c : Master → Event → Bool} {m₀ : Master} :
    ∀ {es : List Event} {m m' : Master},
      Reach (Within Step fun m e _ => c m e = true) m₀ m → m.execWithin c es = some m' →
        Reach (Within Step fun m e _ => c m e = true) m₀ m'
  | [], m, m', hr, h => by
      obtain rfl := Option.some.inj h
      exact hr
  | e :: es, m, m', hr, h => by
      obtain ⟨m₁, hs, hc, hrest⟩ := execWithin_cons h
      exact execWithin_reach (hr.step_within hs hc) hrest

theorem execWithin_spec {α : Type*} {c : Master → Event → Bool} (resolve : Bytes → Bytes)
    (es : List Event) {v : α} {f : Master → α}
    (h : ((init resolve).execWithin c es).map f = some v) :
    ∃ m, ReachableWithin (fun m e _ => c m e = true) m ∧ f m = v := by
  obtain ⟨m, hm, hv⟩ := Option.map_eq_some_iff.mp h
  exact ⟨m, ⟨resolve, execWithin_reach Reach.refl hm⟩, hv⟩

/-- Handle the events in order, then one more; a view of the last step. -/
def execStepWithin {α : Type*} (c : Master → Event → Bool) (resolve : Bytes → Bytes)
    (es : List Event) (e : Event) (f : Master → Master → α) : Option α :=
  ((init resolve).execWithin c es).bind fun m =>
    if m.enabled e && c m e then (m.handle e).map (f m) else none

/-- A computed run gives a reachable state and a step from it, with the
computed view. -/
theorem execStepWithin_spec {α : Type*} {c : Master → Event → Bool} (resolve : Bytes → Bytes)
    (es : List Event) {v : α} {f : Master → Master → α} {e : Event}
    (h : execStepWithin c resolve es e f = some v) :
    ∃ m m', ReachableWithin (fun m e _ => c m e = true) m ∧ Step m e m' ∧ c m e = true
      ∧ f m m' = v := by
  obtain ⟨m, hm, h⟩ := Option.bind_eq_some_iff.mp h
  split at h
  · rename_i hen
    rw [Bool.and_eq_true] at hen
    obtain ⟨m', hm', hv⟩ := Option.map_eq_some_iff.mp h
    exact ⟨m, m', ⟨resolve, execWithin_reach Reach.refl hm⟩, ⟨hen.1, hm'⟩, hen.2, hv⟩
  · cases h

def execStep {α : Type*} (resolve : Bytes → Bytes) (es : List Event) (e : Event)
    (f : Master → Master → α) : Option α :=
  execStepWithin (fun _ _ => true) resolve es e f

theorem execStep_spec {α : Type*} (resolve : Bytes → Bytes) (es : List Event) {v : α}
    {f : Master → Master → α} {e : Event} (h : execStep resolve es e f = some v) :
    ∃ m m', Reachable m ∧ Step m e m' ∧ f m m' = v := by
  obtain ⟨m, m', hr, hs, -, hv⟩ := execStepWithin_spec resolve es h
  exact ⟨m, m', hr.reachable, hs, hv⟩

/-! ## Frames -/

/-- A frame: the header line, the size and the payload. -/
def frame (verb name payload : Bytes) : Bytes :=
  verb ++ [space] ++ name ++ [newline] ++ sizeBytes payload.length ++ payload

/-- The lines `INTERFACE_PUT a` and `PUT a`, with their newlines. -/
def submitLine : Bytes := interfacePutVerb ++ [space, 97, newline]
def resultLine : Bytes := putVerb ++ [space, 97, newline]

/-- A submission and a result of that name, with the payload `x`. -/
def submitFrame : Bytes := submitLine ++ sizeBytes 1 ++ [120]
def resultFrame : Bytes := resultLine ++ sizeBytes 1 ++ [120]

end Master

end KeyLime
