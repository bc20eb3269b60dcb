import Mathlib.Data.List.InsertIdx
import KeyLime.Call
import KeyLime.Contents

/-!
# The array of connections

`worker_list` is a vector of pointers, and `find_worker_pos` does not go on
behind a null pointer. `Listed` is the master with that array, changed by the
calls of `vector_push_back` and `vector_erase` that `accept_connections` and
`handle_data` make. In every reachable state the slots in use are the list of
records of the model (`Linked`), so that `find_worker_pos` ends, and finds the
record of the event (`Listed.routes`).

The model of the master looks its records up in a list. The array is looked up
next to it in each step, by the loop as it is written, and what is shown is that
the two agree, first of all on the record of an event. `Contents` has what the
calls of the vector do to the slots; here the elements are pointers, which the
constructor copies and the destructor does not touch.

In `Linked.follows` an event is taken apart into its calls: those of `accept` are
pushes of new records, and one on a connection erases a slot when, and only when,
the record has sent its first header as an interface (`handleData_removes`).
-/

namespace KeyLime

namespace Master

/-- The elements of `worker_list`: pointers to records, which the shallow
constructor copies as they are. -/
def pointers : Element (Option Nat) Unit where
  null := none
  copyConstructor := fun element s => (element, s)
  destructor := fun _ s => s
  defaultConstructor := fun s => (none, s)

/-- The loop of `find_worker_pos` from index `i` on; `some none` is -1. A null
pointer does not move `i`, and the rounds run out. -/
def findWorkerPosLoop (heap : Nat → Worker) (list : Vec (Option Nat)) (fd : Int) :
    Nat → Nat → Option (Option Nat)
  | 0, _ => none
  | rounds + 1, i =>
      if i < list.size then
        (list.vectorGet i).bind fun
          | none => findWorkerPosLoop heap list fd rounds i
          | some p =>
              if (heap p).workerFd = fd then some (some i)
              else findWorkerPosLoop heap list fd rounds (i + 1)
      else some none

/-- A `ssize_t` position as the `size_t` it is passed for. -/
def toSize : Option Nat → Nat
  | none => 2 ^ 64 - 1
  | some i => i

/-- The master at the call of `vector_erase` in `handle_data`, for an event on
record `p` that gets there. -/
def registering (p : Nat) (m : Master) : Option Master :=
  if (m.heap p).alive = true ∧ (m.heap p).status = .start then
    (getCommand (m.kernel.inbox (m.heap p).workerFd) (m.heap p)).bind fun r =>
      if r.ret = .doneSending ∧ r.w.toDo = .interfacePut ∧ m.interfaceFd = -1 then
        some ((m.commit p .header r).set p { r.w with status := .needSize })
      else none
  else none

/-- The master and the array of `worker_list`. -/
structure Listed where
  master : Master
  list : Vec (Option Nat)

namespace Listed

/-- `find_worker_pos`, which needs one round for each slot and one more. -/
def findWorkerPos (s : Listed) (fd : Int) : Option (Option Nat) :=
  findWorkerPosLoop s.master.heap s.list fd (s.list.size + 1) 0

/-- `curr`, at the beginning of `handle_data`. -/
def curr (s : Listed) (fd : Int) : Option (Option Nat) :=
  (s.findWorkerPos fd).bind fun
    | none => some s.master.interface
    | some i => s.list.vectorGet i

/-- The pushes of `accept_connections`, of the records from address `p` on. -/
def pushes : Nat → List Conn → List (VecOp (Option Nat))
  | _, [] => []
  | p, _ :: cs => .pushBack (some p) :: pushes (p + 1) cs

/-- The changes of `worker_list` on an event. -/
def calls (s : Listed) : Event → Option (List (VecOp (Option Nat)))
  | .accept cs => some (pushes s.master.nextWorker cs)
  | .data fd arrived _ =>
      (s.curr fd).bind fun
        | none => some []
        | some p =>
            match registering p (s.master.arriving fd arrived) with
            | none => some []
            | some m => (Listed.mk m s.list).findWorkerPos fd |>.map fun pos => [.erase (toSize pos)]
  | .heartbeat _ _ _ | .detect _ _ _ => some []

def handle (s : Listed) (e : Event) : Option Listed :=
  (s.master.handle e).bind fun m =>
    (s.calls e).bind fun ops =>
      (VecOp.execAll pointers ops s.list ⟨(), []⟩).map fun (list, _) => ⟨m, list⟩

def init (resolve : Bytes → Bytes) : Listed := ⟨Master.init resolve, Vec.create pointers⟩

def Step (s : Listed) (e : Event) (s' : Listed) : Prop :=
  s.master.enabled e = true ∧ s.handle e = some s'

def Reachable (s : Listed) : Prop := ∃ resolve, Transition.Reach Step (init resolve) s

/-- The slots in use are the records of the model. -/
def Linked (s : Listed) : Prop :=
  ∃ spare, s.list.Holds (s.master.workerList.map some) spare

end Listed

variable {m m' : Master} {s s' : Listed} {fd : Int} {p q i : Nat} {f : Flow} {io : DataIo}
  {heap : Nat → Worker} {v : Vec (Option Nat)} {spare : List (Option Nat)} {rounds : Nat}

/-! ## `find_worker_pos` -/

/-- On a null pointer the loop does not end. -/
theorem findWorkerPosLoop_null (hi : i < v.size) (hnull : v.vectorGet i = some none)
    (rounds : Nat) : findWorkerPosLoop heap v fd rounds i = none := by
  induction rounds with
  | zero => rfl
  | succ rounds ih =>
      rw [findWorkerPosLoop, if_pos hi, hnull]
      exact ih

theorem findWorkerPosLoop_eq {l : List Nat} :
    ∀ {r : Nat} {ps : List Nat}, v.Holds ((ps ++ l).map some) spare → l.length < r →
      findWorkerPosLoop heap v fd r ps.length =
        some ((l.findIdx? fun p => (heap p).workerFd = fd).map (· + ps.length)) := by
  induction l with
  | nil =>
      intro rounds ps h hlt
      have hsize : v.size = ps.length := by
        rw [h.size]
        simp
      cases rounds with
      | zero => omega
      | succ rounds =>
          rw [findWorkerPosLoop, if_neg (by omega)]
          rfl
  | cons p l ih =>
      intro rounds ps h hlt
      have hsize : v.size = ps.length + (l.length + 1) := by
        rw [h.size]
        simp
      have hget : v.vectorGet ps.length = some (some p) := by
        have ha : v.array = ps.map some ++ some p :: (l.map some ++ spare) := by
          rw [h.array]
          simp
        have hread := Vec.read_at ha
        rwa [List.length_map] at hread
      cases rounds with
      | zero => omega
      | succ rounds =>
          rw [findWorkerPosLoop, if_pos (by omega), hget, Option.bind_some, List.findIdx?_cons]
          by_cases hfd : (heap p).workerFd = fd
          · simp [hfd]
          · have hholds : v.Holds ((ps ++ [p] ++ l).map some) spare := by simpa using h
            have hrest := ih (r := rounds) hholds (by rw [List.length_cons] at hlt; omega)
            rw [List.length_append, List.length_singleton] at hrest
            simp only [hfd, if_false, hrest, decide_false, Bool.false_eq_true, Option.map_map]
            congr 2
            funext j
            show j + (ps.length + 1) = j + 1 + ps.length
            omega

namespace Listed

/-- A slot in use, with the record it points to. -/
def Slot (s : Listed) (i p : Nat) : Prop := i < s.list.size ∧ s.list.vectorGet i = some (some p)

theorem Linked.get (h : Linked s) (hi : i < s.list.size) :
    ∃ p, s.list.vectorGet i = some (some p) ∧ s.master.workerList[i]? = some p := by
  obtain ⟨spare, h⟩ := h
  have hsize := h.size
  rw [List.length_map] at hsize
  refine ⟨s.master.workerList[i], ?_, List.getElem?_eq_getElem (by omega)⟩
  rw [Vec.vectorGet, Vec.read, h.array, List.getElem?_append_left (by rw [List.length_map]; omega),
    List.getElem?_map, List.getElem?_eq_getElem (by omega)]
  rfl

theorem Linked.slot_iff (h : Linked s) : s.Slot i p ↔ s.master.workerList[i]? = some p := by
  constructor
  · rintro ⟨hi, hget⟩
    obtain ⟨q, hq, hlist⟩ := h.get hi
    obtain rfl := Option.some.inj (Option.some.inj (hget.symm.trans hq))
    exact hlist
  · intro hlist
    have hi : i < s.list.size := by
      obtain ⟨spare, h⟩ := h
      rw [h.size, List.length_map]
      exact (List.getElem?_eq_some_iff.mp hlist).1
    obtain ⟨q, hq, hlist'⟩ := h.get hi
    obtain rfl := Option.some.inj (hlist.symm.trans hlist')
    exact ⟨hi, hq⟩

theorem Linked.findWorkerPosLoop (h : Linked s) (hr : s.list.size < rounds) :
    findWorkerPosLoop s.master.heap s.list fd rounds 0 = some (s.master.findWorkerPos fd) := by
  obtain ⟨spare, h⟩ := h
  have hsize := h.size
  rw [List.length_map] at hsize
  have hlt : s.master.workerList.length < rounds := by omega
  have hfind : Master.findWorkerPosLoop s.master.heap s.list fd rounds ([] : List Nat).length = _ :=
    findWorkerPosLoop_eq h hlt
  rw [List.length_nil] at hfind
  rw [hfind, Master.findWorkerPos]
  simp

theorem Linked.findWorkerPos (h : Linked s) :
    s.findWorkerPos fd = some (s.master.findWorkerPos fd) :=
  h.findWorkerPosLoop (Nat.lt_succ_self _)

/-- The array gives the record the model takes. -/
theorem Linked.curr (h : Linked s) : s.curr fd = some (s.master.current fd) := by
  rw [Listed.curr, h.findWorkerPos, Option.bind_some, current]
  cases hpos : s.master.findWorkerPos fd with
  | none => rfl
  | some i =>
      obtain ⟨p, hlist, -⟩ := findWorkerPos_eq_some hpos
      show s.list.vectorGet i = some s.master.workerList[i]?
      rw [hlist]
      exact (h.slot_iff.mpr hlist).2

end Listed

/-! ## What an event does to the list -/

theorem registering_none (h : ¬ ((m.heap p).alive = true ∧ (m.heap p).status = .start)) :
    registering p m = none := if_neg h

theorem registering_of_command {r : Parsed} (hal : (m.heap p).alive = true)
    (hst : (m.heap p).status = .start)
    (hr : getCommand (m.kernel.inbox (m.heap p).workerFd) (m.heap p) = some r) :
    registering p m =
      if r.ret = .doneSending ∧ r.w.toDo = .interfacePut ∧ m.interfaceFd = -1 then
        some ((m.commit p .header r).set p { r.w with status := .needSize })
      else none := by
  rw [registering, if_pos ⟨hal, hst⟩, hr, Option.bind_some]

/-- The list after an event that gets to `vector_erase` or does not. -/
def Removes (fd : Int) (p : Nat) (m : Master) (l : List Nat) : Prop :=
  (registering p m = none ∧ l = m.workerList)
    ∨ ∃ m₁, registering p m = some m₁ ∧ m₁.workerList = m.workerList
      ∧ m₁.findWorkerPos fd = m.findWorkerPos fd
      ∧ vectorErase m.workerList (m.findWorkerPos fd) = some l

theorem headerStage_removes (hr : m.kernel.Ranged) (hal : (m.heap p).alive = true)
    (hf : m.headerStage fd p = some f) : Removes fd p m f.master.workerList := by
  cases headerStage_case hf with
  | skip hst => exact Or.inl ⟨registering_none fun h => hst h.2, rfl⟩
  | more r hst hgc hret =>
      exact Or.inl ⟨by rw [registering_of_command hal hst hgc]; simp [hret], rfl⟩
  | header r hst hgc hret hno =>
      exact Or.inl ⟨by rw [registering_of_command hal hst hgc, if_neg fun h => hno h.2], rfl⟩
  | register r m₁ hst hgc hret hverb hifd hreg =>
      obtain ⟨l, hl, rfl⟩ := register_eq hreg
      have hcommit := commit_same hr .header (getCommand_parses hgc)
      have hsame := hcommit.trans (set_same (p := p) (w := { r.w with status := .needSize })
        hcommit.kernel.ranged ⟨by simp, by simp, by simp, by simp, by simp, by simp⟩)
      have hpos : _ = m.findWorkerPos fd := findWorkerPos_congr hsame.workerList hsame.workerFd
      refine Or.inr ⟨_, ?_, hsame.workerList, hpos, ?_⟩
      · rw [registering_of_command hal hst hgc, if_pos ⟨hret, hverb, hifd⟩]
      · rw [← hpos]
        exact hl
  | reject r hst hgc hret hfd =>
      exact Or.inl ⟨by rw [registering_of_command hal hst hgc]; simp [hret], rfl⟩
  | quit r hst hgc hret hfd =>
      exact Or.inl ⟨by rw [registering_of_command hal hst hgc]; simp [hret], rfl⟩

theorem handleData_header (hr : Registry m) (hat : At m fd p) (hal : (m.heap p).alive = true)
    (h : m.handleData fd io = some m') :
    ∃ f, m.headerStage fd p = some f ∧ Same f.master m' := by
  have hranged : ∀ {f}, m.headerStage fd p = some f → f.master.kernel.Ranged := fun hf =>
    (hr.change hat (headerStage_change hr hat hf)).ranged
  have hparse : ∀ {f}, m.parsePhase fd p io.recv = some f →
      ∃ f₀, m.headerStage fd p = some f₀ ∧ Same f₀.master f.master := by
    intro f hf
    rcases Flow.andThen_eq_some.mp hf with ⟨m₂, h2, rfl⟩ | ⟨m₂, h2, hdata⟩ <;>
      rcases Flow.andThen_eq_some.mp h2 with ⟨m₁, h1, heq⟩ | ⟨m₁, h1, hsize⟩
    · obtain rfl := Flow.ret.inj heq
      exact ⟨_, h1, .refl (hranged h1)⟩
    · exact ⟨_, h1, sizeStage_same (hranged h1) hsize⟩
    · cases heq
    · have hs : Same m₁ m₂ := sizeStage_same (hranged h1) hsize
      exact ⟨_, h1, hs.trans (dataStage_same hs.kernel.ranged hdata)⟩
  rcases handleData_cases h with ⟨-, hdead⟩ | ⟨q, hcur, -, hcase⟩
  · rw [hdead p hat.current] at hal
    cases hal
  · obtain rfl := hat.unique hcur
    rcases hcase with hpar | ⟨m₁, hpar, hrest⟩ <;> obtain ⟨f₀, h0, hs0⟩ := hparse hpar
    · exact ⟨f₀, h0, hs0⟩
    · rcases hrest with hfwd | ⟨m₂, f, hfwd, hput, rfl⟩
      · exact ⟨f₀, h0, hs0.trans (forwardStage_same hs0.kernel.ranged hfwd)⟩
      · have hs2 : Same f₀.master m₂ := hs0.trans (forwardStage_same hs0.kernel.ranged hfwd)
        exact ⟨f₀, h0, hs2.trans (putStage_same hs2.kernel.ranged hput)⟩

theorem handleData_removes (hr : Registry m) (hat : At m fd p)
    (h : m.handleData fd io = some m') :
    Removes fd p m m'.workerList ∧ ∀ q, (m'.heap q).workerFd = (m.heap q).workerFd := by
  cases hal : (m.heap p).alive with
  | true =>
      obtain ⟨f, hf, hs⟩ := handleData_header hr hat hal h
      rw [hs.workerList]
      refine ⟨headerStage_removes hr.ranged hal hf, ?_⟩
      intro q
      exact (hs.workerFd q).trans ((headerStage_parserOnly hf).workerFd q)
  | false =>
      have hdead : m.handleData fd io = some m := by
        rw [handleData, hat.current]
        exact if_pos hal
      obtain rfl := Option.some.inj (hdead.symm.trans h)
      refine ⟨Or.inl ⟨registering_none fun h => ?_, rfl⟩, fun _ => rfl⟩
      rw [hal] at h
      cases h.1

/-! ## The array follows -/

variable {l : List (Option Nat)} {x : Option Nat} {w : World (Option Nat) Unit}

theorem push_some (h : v.Holds l spare) (hn : l.length + 1 ≤ 2 ^ 60) :
    ∃ v' w' spare', (VecOp.pushBack x).exec pointers v w = some (v', w')
      ∧ v'.Holds (l ++ [x]) spare' := by
  obtain ⟨v', y, ys, hres, hholds, -⟩ := Vec.reserve_one (E := pointers) h hn
  refine ⟨_, (pointers.copy x w).2, ys, ?_, hholds.of_spare x⟩
  simp only [VecOp.exec, Vec.pushBack, hres, Option.bind_some, hholds.size,
    Vec.write_at (pointers.copy x w).1 hholds.array, Option.map_some]
  rfl

theorem push_none (h : v.Holds l spare) (hn : 2 ^ 60 < l.length + 1) :
    (VecOp.pushBack x).exec pointers v w = none := by
  rw [VecOp.exec, Vec.pushBack, Vec.reserve_none pointers h (by rw [h.size]; exact hn)]
  rfl

namespace Listed

variable {list : Vec (Option Nat)} {cs : List Conn}

theorem Linked.accept {v' : Vec (Option Nat)} {w' : World (Option Nat) Unit}
    (h : Linked ⟨m, v⟩) (hx : VecOp.execAll pointers (pushes m.nextWorker cs) v w = some (v', w')) :
    Linked ⟨m.acceptConnections cs, v'⟩ := by
  induction cs generalizing m v w with
  | nil =>
      obtain ⟨rfl, -⟩ := Prod.mk.inj (Option.some.inj hx)
      exact h
  | cons c cs ih =>
      obtain ⟨⟨v₁, w₁⟩, h1, h2⟩ := Option.bind_eq_some_iff.mp hx
      obtain ⟨spare, h⟩ := h
      rcases Nat.lt_or_ge (2 ^ 60) ((m.workerList.map some).length + 1) with hlt | hle
      · rw [push_none h hlt] at h1
        cases h1
      · obtain ⟨v₂, w₂, spare', hpush, hholds⟩ := push_some (x := some m.nextWorker) (w := w) h hle
        obtain ⟨rfl, rfl⟩ := Prod.mk.inj (Option.some.inj (h1.symm.trans hpush))
        exact ih (m := m.acceptOne c) ⟨spare', by simpa [acceptOne] using hholds⟩ h2

theorem length_acceptConnections :
    m.workerList.length ≤ (m.acceptConnections cs).workerList.length := by
  induction cs generalizing m with
  | nil => exact Nat.le_refl _
  | cons c cs ih =>
      refine Nat.le_trans ?_ (ih (m := m.acceptOne c))
      show _ ≤ (m.workerList ++ [m.nextWorker]).length
      rw [List.length_append]
      omega

theorem Linked.accept_some (h : Linked ⟨m, v⟩)
    (hn : (m.acceptConnections cs).workerList.length ≤ 2 ^ 60) :
    ∃ v' w', VecOp.execAll pointers (pushes m.nextWorker cs) v w = some (v', w') := by
  induction cs generalizing m v w with
  | nil => exact ⟨v, w, rfl⟩
  | cons c cs ih =>
      obtain ⟨spare, h⟩ := h
      have hroom : (m.workerList.map some).length + 1 ≤ 2 ^ 60 := by
        have hlen : (m.acceptOne c).workerList.length ≤ 2 ^ 60 :=
          Nat.le_trans length_acceptConnections hn
        simpa [acceptOne] using hlen
      obtain ⟨v₁, w₁, spare', hpush, hholds⟩ := push_some (x := some m.nextWorker) (w := w) h hroom
      obtain ⟨v', w', hall⟩ := ih (m := m.acceptOne c) (v := v₁) (w := w₁)
        ⟨spare', by simpa [acceptOne] using hholds⟩ hn
      exact ⟨v', w', by rw [pushes, VecOp.execAll, hpush]; exact hall⟩

theorem registering_mem {m₁ : Master} (hat : At m fd p) (h : registering p m = some m₁) :
    p ∈ m.workerList := by
  have hvacant : m.interfaceFd = -1 := by
    unfold registering at h
    split at h
    · obtain ⟨r, -, h⟩ := Option.bind_eq_some_iff.mp h
      split at h
      · rename_i hcond
        exact hcond.2.2
      · cases h
    · cases h
  rcases hat.place with hmem | ⟨-, hfd, -⟩
  · exact hmem.1
  · exact (hat.nonneg (hfd.trans hvacant)).elim

/-- The changes on an event of record `p`: none, or its slot is removed. -/
theorem Linked.calls_data {arrived : List Item} {rs : List Nat} (io : DataIo) (h : Linked s)
    (hat : At (s.master.arriving fd arrived) fd p)
    (hl : Removes fd p (s.master.arriving fd arrived) rs) :
    (s.calls (.data fd arrived io) = some [] ∧ rs = s.master.workerList)
      ∨ ∃ i, s.calls (.data fd arrived io) = some [.erase i] ∧ s.Slot i p
        ∧ rs = s.master.workerList.eraseIdx i := by
  have hcurr : s.curr fd = some (some p) := by
    rw [h.curr]
    exact congrArg some hat.current
  rcases hl with ⟨hnone, rfl⟩ | ⟨m₁, hsome, hlist, hpos, herase⟩
  · refine Or.inl ⟨?_, rfl⟩
    simp only [calls, hcurr, Option.bind_some, hnone]
  · have hlinked : Linked ⟨m₁, s.list⟩ := by
      obtain ⟨spare, h⟩ := h
      refine ⟨spare, ?_⟩
      show s.list.Holds (m₁.workerList.map some) spare
      rw [hlist]
      exact h
    cases hi : (s.master.arriving fd arrived).findWorkerPos fd with
    | none =>
        exact (findWorkerPos_eq_none hi p (registering_mem hat hsome) hat.workerFd).elim
    | some i =>
        rw [hi] at herase hpos
        obtain ⟨hlt, rfl⟩ := vectorErase_some herase
        refine Or.inr ⟨i, ?_, h.slot_iff.mpr ?_, rfl⟩
        · have hfind : (Listed.mk m₁ s.list).findWorkerPos fd = some (some i) :=
            hlinked.findWorkerPos.trans (congrArg some hpos)
          simp only [calls, hcurr, Option.bind_some, hsome, hfind, Option.map_some, toSize]
        · have hcur := hat.current
          rw [current, hi] at hcur
          exact hcur

theorem Linked.data {arrived : List Item} {m' : Master} (io : DataIo) (h : Linked s)
    (hat : At (s.master.arriving fd arrived) fd p)
    (hl : Removes fd p (s.master.arriving fd arrived) m'.workerList) :
    ∃ ops v' w', s.calls (.data fd arrived io) = some ops
      ∧ VecOp.execAll pointers ops s.list ⟨(), []⟩ = some (v', w') ∧ Linked ⟨m', v'⟩ := by
  rcases h.calls_data io hat hl with ⟨hcalls, hlist⟩ | ⟨i, hcalls, hslot, hlist⟩ <;>
    obtain ⟨spare, h⟩ := h
  · refine ⟨[], s.list, ⟨(), []⟩, hcalls, rfl, spare, ?_⟩
    show s.list.Holds (m'.workerList.map some) spare
    rw [hlist]
    exact h
  · have hlt : i < (s.master.workerList.map some).length := by
      rw [← h.size]
      exact hslot.1
    obtain ⟨v', w', cs, spare', hexec, -, hholds, -⟩ :=
      Vec.erase_works (E := pointers) (w := ⟨(), []⟩) h hlt
    refine ⟨[.erase i], v', w', hcalls, ?_, spare', ?_⟩
    · rw [VecOp.execAll, hexec]
      rfl
    · show v'.Holds (m'.workerList.map some) spare'
      rw [hlist, ← List.eraseIdx_map]
      exact hholds

/-- The calls on an event are defined, and the array follows while it fits
into memory. -/
theorem Linked.calls {e : Event} {m' : Master} (h : Linked s) (hr : Registry s.master)
    (hs : s.master.Step e m') :
    ∃ ops, s.calls e = some ops
      ∧ (∀ v' w', VecOp.execAll pointers ops s.list ⟨(), []⟩ = some (v', w') → Linked ⟨m', v'⟩)
      ∧ (m'.workerList.length ≤ 2 ^ 60 →
        ∃ v' w', VecOp.execAll pointers ops s.list ⟨(), []⟩ = some (v', w')) := by
  have hsame : m'.workerList = s.master.workerList → ∀ v' w',
      VecOp.execAll pointers [] s.list ⟨(), []⟩ = some (v', w') → Linked ⟨m', v'⟩ := by
    intro hlist v' w' hx
    obtain ⟨rfl, -⟩ := Prod.mk.inj (Option.some.inj hx)
    obtain ⟨spare, h⟩ := h
    refine ⟨spare, ?_⟩
    show s.list.Holds (m'.workerList.map some) spare
    rw [hlist]
    exact h
  obtain ⟨hen, hs⟩ := hs
  cases e with
  | accept cs =>
      obtain rfl := Option.some.inj hs
      exact ⟨_, rfl, fun v' w' hx => Linked.accept h hx, fun hn => Linked.accept_some h hn⟩
  | data fd arrived io =>
      simp only [enabled, Bool.and_eq_true, beq_iff_eq] at hen
      have hr0 : Registry (s.master.arriving fd arrived) :=
        hr.same (deliver_same fd hr.ranged arrived)
      obtain ⟨p, hat⟩ : ∃ p, At (s.master.arriving fd arrived) fd p := hr0.at hen.1
      obtain ⟨ops, v₁, w₁, hcalls, hexec, hlinked⟩ :=
        h.data io hat (handleData_removes hr0 hat hs).1
      refine ⟨ops, hcalls, ?_, fun _ => ⟨v₁, w₁, hexec⟩⟩
      intro v' w' hx
      obtain ⟨rfl, -⟩ := Prod.mk.inj (Option.some.inj (hx.symm.trans hexec))
      exact hlinked
  | heartbeat addr usage now =>
      obtain rfl := Option.some.inj hs
      exact ⟨[], rfl, hsame (reportHeartbeat_same hr.ranged addr usage now).workerList,
        fun _ => ⟨_, _, rfl⟩⟩
  | detect now mem ios =>
      exact ⟨[], rfl, hsame (detectPass_same hr.ranged hs).workerList, fun _ => ⟨_, _, rfl⟩⟩

variable {e : Event}

theorem Step.master (hs : Step s e s') : s.master.Step e s'.master := by
  obtain ⟨hen, hs⟩ := hs
  obtain ⟨m', hm, hs⟩ := Option.bind_eq_some_iff.mp hs
  obtain ⟨ops, -, hs⟩ := Option.bind_eq_some_iff.mp hs
  obtain ⟨⟨v', w'⟩, -, rfl⟩ := Option.map_eq_some_iff.mp hs
  exact ⟨hen, hm⟩

theorem Step.linked (hr : Registry s.master) (h : Linked s) (hs : Step s e s') : Linked s' := by
  obtain ⟨ops, hcalls, hlinked, -⟩ := h.calls hr hs.master
  obtain ⟨m', hm, hs⟩ := Option.bind_eq_some_iff.mp hs.2
  obtain ⟨ops', hcalls', hs⟩ := Option.bind_eq_some_iff.mp hs
  obtain ⟨⟨v', w'⟩, hexec, rfl⟩ := Option.map_eq_some_iff.mp hs
  obtain rfl := Option.some.inj (hcalls.symm.trans hcalls')
  exact hlinked v' w' hexec

/-- **Refinement.** The master with the array does every step of the master
that leaves the array small enough for memory. -/
theorem Linked.follows {m' : Master} (h : Linked s) (hr : Registry s.master)
    (hs : s.master.Step e m') (hn : m'.workerList.length ≤ 2 ^ 60) :
    ∃ v', Step s e ⟨m', v'⟩ ∧ Linked ⟨m', v'⟩ := by
  obtain ⟨ops, hcalls, hlinked, hroom⟩ := h.calls hr hs
  obtain ⟨v', w', hexec⟩ := hroom hn
  refine ⟨v', ⟨hs.1, ?_⟩, hlinked v' w' hexec⟩
  rw [handle, hs.2, Option.bind_some, hcalls, Option.bind_some, hexec]
  rfl

/-! ## Every reachable state -/

theorem init_linked (resolve : Bytes → Bytes) : Linked (init resolve) :=
  ⟨_, Vec.create_holds pointers⟩

theorem Reachable.linked (h : Reachable s) : Registry s.master ∧ Linked s := by
  obtain ⟨resolve, h⟩ := h
  exact h.invariant (I := fun s => Registry s.master ∧ Linked s)
    ⟨init_registry resolve, init_linked resolve⟩
    fun s e s' _ hi hs => ⟨hs.master.registry hi.1, hs.linked hi.1 hi.2⟩

/-- **Registry and routing.** In every reachable state the array has no null
pointer, no two slots lead to the same descriptor, and none to that of the
interface. So `find_worker_pos` ends, with the slot of the descriptor or -1;
and an event is handled on a record of its own descriptor. -/
theorem routes (h : Reachable s) :
    (∀ i < s.list.size, ∃ p, s.Slot i p)
      ∧ (∀ i j p q, s.Slot i p → s.Slot j q →
        (s.master.heap p).workerFd = (s.master.heap q).workerFd → i = j)
      ∧ (∀ i p, s.Slot i p → (s.master.heap p).workerFd ≠ s.master.interfaceFd)
      ∧ (∀ fd, ∃ pos, (∀ rounds, s.list.size < rounds →
          findWorkerPosLoop s.master.heap s.list fd rounds 0 = some pos)
        ∧ ∀ i, pos = some i ↔ ∃ p, s.Slot i p ∧ (s.master.heap p).workerFd = fd)
      ∧ ∀ fd arrived io, s.master.enabled (.data fd arrived io) = true →
        ∃ p, s.curr fd = some (some p) ∧ s.master.current fd = some p
          ∧ (s.master.heap p).workerFd = fd
          ∧ ∀ s', Step s (.data fd arrived io) s' → (s'.master.heap p).workerFd = fd := by
  obtain ⟨hr, hl⟩ := h.linked
  have hinj : ∀ i j p q, s.Slot i p → s.Slot j q →
      (s.master.heap p).workerFd = (s.master.heap q).workerFd → i = j := by
    intro i j p q hi hj heq
    rw [hl.slot_iff] at hi hj
    obtain rfl := hr.fdInj p (List.mem_of_getElem? hi) q (List.mem_of_getElem? hj) heq
    have hlt := (List.getElem?_eq_some_iff.mp hi).1
    exact (List.getElem?_inj hlt hr.nodup).mp (hi.trans hj.symm)
  refine ⟨?_, hinj, ?_, ?_, ?_⟩
  · intro i hi
    obtain ⟨p, hp, -⟩ := hl.get hi
    exact ⟨p, hi, hp⟩
  · intro i p hi
    have hmem := List.mem_of_getElem? (hl.slot_iff.mp hi)
    intro heq
    have hne : s.master.interfaceFd ≠ -1 := fun h => hr.ranged.ne (hr.isOpen p hmem) (heq.trans h)
    obtain ⟨-, -, -, -, hall⟩ := hr.iface hne
    exact hall p hmem heq
  · intro fd
    refine ⟨s.master.findWorkerPos fd, fun rounds => hl.findWorkerPosLoop, fun i => ⟨?_, ?_⟩⟩
    · intro hpos
      obtain ⟨p, hp, hfd⟩ := findWorkerPos_eq_some hpos
      exact ⟨p, hl.slot_iff.mpr hp, hfd⟩
    · rintro ⟨p, hp, hfd⟩
      cases hpos : s.master.findWorkerPos fd with
      | none =>
          exact (findWorkerPos_eq_none hpos p (List.mem_of_getElem? (hl.slot_iff.mp hp)) hfd).elim
      | some j =>
          obtain ⟨q, hq, hqfd⟩ := findWorkerPos_eq_some hpos
          rw [hinj j i q p (hl.slot_iff.mpr hq) hp (hqfd.trans hfd.symm)]
  · intro fd arrived io hen
    simp only [enabled, Bool.and_eq_true, beq_iff_eq] at hen
    have hr0 : Registry (s.master.arriving fd arrived) :=
      hr.same (deliver_same fd hr.ranged arrived)
    obtain ⟨p, hat⟩ : ∃ p, At (s.master.arriving fd arrived) fd p := hr0.at hen.1
    refine ⟨p, ?_, hat.current, hat.workerFd, ?_⟩
    · rw [hl.curr]
      exact congrArg some hat.current
    · intro s' hs
      exact ((handleData_removes hr0 hat hs.master.2).2 p).trans hat.workerFd

def exec (s : Listed) : List Event → Option Listed
  | [] => some s
  | e :: es => if s.master.enabled e then (s.handle e).bind fun s => s.exec es else none

theorem exec_reach {s₀ : Listed} :
    ∀ {es : List Event} {s s' : Listed}, Transition.Reach Step s₀ s → s.exec es = some s' →
      Transition.Reach Step s₀ s'
  | [], s, s', hr, h => by
      obtain rfl := Option.some.inj h
      exact hr
  | e :: es, s, s', hr, h => by
      rw [exec] at h
      split at h
      · rename_i hen
        obtain ⟨s₁, h1, h2⟩ := Option.bind_eq_some_iff.mp h
        exact exec_reach (hr.step ⟨hen, h1⟩) h2
      · cases h

/-- The interface on descriptor 4 has quit, and a worker has got the number. -/
theorem routes_reused :
    ∃ s, Reachable s ∧ s.master.interface = some 0 ∧ (s.master.heap 0).workerFd = 4
      ∧ s.list.array.take s.list.size = [some 1, some 2]
      ∧ ∃ p, s.curr 4 = some (some p) ∧ (s.master.heap p).workerFd = 4 := by
  have hrun : ((init id).exec
      [.accept [⟨4, [1], default⟩], .data 4 (submitFrame.map .byte) {}, .data 4 [.eof] {},
        .accept [⟨6, [2], default⟩, ⟨4, [3], default⟩]]).map (fun s =>
      decide (s.master.interface = some 0 ∧ (s.master.heap 0).workerFd = 4
        ∧ s.list.array.take s.list.size = [some 1, some 2]
        ∧ s.master.enabled (.data 4 [.eof] {}) = true)) = some true := by decide +kernel
  obtain ⟨s, hs, hv⟩ := Option.map_eq_some_iff.mp hrun
  obtain ⟨hi, hfd, hlist, hen⟩ := of_decide_eq_true hv
  have hreach : Reachable s := ⟨id, exec_reach .refl hs⟩
  obtain ⟨p, hcurr, -, hp, -⟩ := (routes hreach).2.2.2.2 4 [.eof] {} hen
  exact ⟨s, hreach, hi, hfd, hlist, p, hcurr, hp⟩

end Listed

end Master

end KeyLime
