import KeyLime.Threads

/-!
# `do_put` is atomic

Outside of `do_put` the threads of the master read their sockets, open and
write temporary files, and open and close connections (`Act`). As long as
none of this concerns the file and the descriptors of a call under way
(`Act.Apart`), it could as well have come before the call: each of these acts
commutes with each system call of `do_put` (`Putting.step_apart`), so that by
reduction (`Mixed.atomic`) all that has happened during a call can be moved in
front of it.

So whatever the interleaving has led to is also reached by a serial run, in
which every call of `do_put` goes from its beginning to its end with nothing in
between (`put_atomic`). The serial run is made of the same things: the same
calls with the same results, in the order of their returns, and exactly the acts
of the interleaving, in their order. It is the mutex that makes this true; with
the acts given there is no other way for the bytes of two calls on one
connection to come out as two whole frames.
-/

namespace KeyLime

open Transition Reduction

/-- What the master does to the kernel outside of `do_put`. -/
inductive Act where
  | deliver (fd : Int) (arrived : List Item)
  | advance (fd : Int) (rest : List Item)
  | openTemp (name : Bytes) (ok : Bool)
  | writeTemp (fd : Int) (bs : Bytes)
  | close (fd : Int)
  | connect (fd : Int)

namespace PutCall

variable (c : PutCall) (k : Kernel)

/-- The files the call looks at, by name and by descriptor. -/
def Uses (path : Bytes) : Prop :=
  path = k.resolve c.tempFileName ∨ ∃ off, k.desc c.tempFd = some (.file path off)

/-- The record `do_put` is called with. -/
def record : Worker := { (default : Worker) with tempFileName := some c.tempFileName, tempFd := c.tempFd }

end PutCall

namespace Act

def run (k : Kernel) : Act → Kernel
  | .deliver fd arrived => k.deliver fd arrived
  | .advance fd rest => k.advance fd rest
  | .openTemp name ok => (k.openWithAllPermission name ok).2
  | .writeTemp fd bs => k.put fd bs
  | .close fd => k.close fd
  | .connect fd => k.connect fd

/-- It concerns neither the files nor the descriptors of the call. -/
def Apart (c : PutCall) (k : Kernel) : Act → Prop
  | .deliver _ _ => True
  | .advance _ _ => True
  | .openTemp name _ =>
      ¬ c.Uses k (k.resolve name) ∧ (k.nextFd : Int) ≠ c.fdToSendTo ∧ (k.nextFd : Int) ≠ c.tempFd
  | .writeTemp fd bs => bs ≠ [] ∧
      ∃ path off, k.desc fd = some (.file path off) ∧ ¬ c.Uses k path ∧ fd ≠ c.tempFd
  | .close fd => fd ≠ c.fdToSendTo ∧ fd ≠ c.tempFd
  | .connect fd => fd ≠ c.fdToSendTo ∧ fd ≠ c.tempFd

variable {a : Act} {c : PutCall} {k k' : Kernel} {bs : Bytes}

/-! ## An act and a system call of `do_put` -/

theorem run_resolve (a : Act) (k : Kernel) : (a.run k).resolve = k.resolve := by
  cases a with
  | openTemp name ok =>
      simp only [run, Kernel.openWithAllPermission]
      split <;> rfl
  | writeTemp fd bs => exact k.put_resolve fd bs
  | _ => rfl

theorem Apart.desc (h : a.Apart c k) (hdst : k.NoFile c.fdToSendTo) {g : Int}
    (hg : g = c.fdToSendTo ∨ g = c.tempFd) : (a.run k).desc g = k.desc g := by
  cases a with
  | deliver fd arrived => rfl
  | advance fd rest => rfl
  | openTemp name ok =>
      simp only [run, Kernel.openWithAllPermission]
      split
      · refine Function.update_of_ne ?_ _ _
        rcases hg with rfl | rfl
        · exact h.2.1.symm
        · exact h.2.2.symm
      · rfl
  | writeTemp fd bs =>
      obtain ⟨hbs, path, off, hfile, -, hne⟩ := h
      simp only [run, Kernel.put_file hfile hbs]
      refine Function.update_of_ne ?_ _ _
      rcases hg with rfl | rfl
      · exact hdst.ne hfile
      · exact hne.symm
  | close fd =>
      refine Function.update_of_ne ?_ _ _
      rcases hg with rfl | rfl
      · exact h.1.symm
      · exact h.2.symm
  | connect fd =>
      refine Function.update_of_ne ?_ _ _
      rcases hg with rfl | rfl
      · exact h.1.symm
      · exact h.2.symm

theorem Apart.store (h : a.Apart c k) {path : Bytes} (hpath : c.Uses k path) :
    (a.run k).store path = k.store path := by
  cases a with
  | openTemp name ok =>
      simp only [run, Kernel.openWithAllPermission]
      split
      · refine Function.update_of_ne ?_ _ _
        rintro rfl
        exact h.1 hpath
      · rfl
  | writeTemp fd bs =>
      obtain ⟨hbs, path', off, hfile, huses, -⟩ := h
      simp only [run, Kernel.put_file hfile hbs]
      refine Function.update_of_ne ?_ _ _
      rintro rfl
      exact huses hpath
  | _ => rfl

theorem Apart.seek (h : a.Apart c k) (d : Option Desc) :
    a.run { k with desc := Function.update k.desc c.tempFd d } =
      { a.run k with desc := Function.update (a.run k).desc c.tempFd d } := by
  cases a with
  | deliver fd arrived => rfl
  | advance fd rest => rfl
  | openTemp name ok =>
      simp only [run, Kernel.openWithAllPermission]
      split
      · simp only [Kernel.mk.injEq, and_true]
        exact Function.update_comm h.2.2.symm _ _ _
      · rfl
  | writeTemp fd bs =>
      obtain ⟨hbs, path, off, hfile, -, hne⟩ := h
      have hfile' : ({ k with desc := Function.update k.desc c.tempFd d } : Kernel).desc fd =
          some (.file path off) := (Function.update_of_ne hne _ _).trans hfile
      simp only [run, Kernel.put_file hfile hbs, Kernel.put_file hfile' hbs, Kernel.mk.injEq, and_true]
      exact Function.update_comm hne.symm _ _ _
  | close fd =>
      simp only [run, Kernel.close, Kernel.mk.injEq, and_true]
      exact Function.update_comm h.2.symm _ _ _
  | connect fd =>
      simp only [run, Kernel.connect, Kernel.mk.injEq, and_true]
      exact Function.update_comm h.2.symm _ _ _

theorem Apart.tell (h : a.Apart c k) (v : Bytes) :
    a.run { k with sent := Function.update k.sent c.fdToSendTo v } =
      { a.run k with sent := Function.update (a.run k).sent c.fdToSendTo v } := by
  cases a with
  | openTemp name ok =>
      simp only [run, Kernel.openWithAllPermission]
      split <;> rfl
  | writeTemp fd bs =>
      obtain ⟨hbs, path, off, hfile, -, -⟩ := h
      have hfile' : ({ k with sent := Function.update k.sent c.fdToSendTo v } : Kernel).desc fd =
          some (.file path off) := hfile
      simp only [run, Kernel.put_file hfile hbs, Kernel.put_file hfile' hbs]
  | connect fd =>
      simp only [run, Kernel.connect, Kernel.mk.injEq, true_and, and_true]
      exact Function.update_comm h.1.symm _ _ _
  | _ => rfl

theorem Apart.mutex (h : a.Apart c k) (held relocked : Bool) :
    a.run { k with held, relocked } = { a.run k with held, relocked } := by
  cases a with
  | openTemp name ok =>
      simp only [run, Kernel.openWithAllPermission]
      split <;> rfl
  | writeTemp fd bs =>
      obtain ⟨hbs, path, off, hfile, -, -⟩ := h
      have hfile' : ({ k with held, relocked } : Kernel).desc fd = some (.file path off) := hfile
      simp only [run, Kernel.put_file hfile hbs, Kernel.put_file hfile' hbs]
  | _ => rfl

theorem run_sameMutex (a : Act) (k : Kernel) : k.SameMutex (a.run k) := by
  cases a with
  | openTemp name ok => exact k.open_sameMutex name ok
  | writeTemp fd bs => exact k.put_sameMutex fd bs
  | _ => exact ⟨rfl, rfl⟩

theorem Apart.lock (h : a.Apart c k) : a.run k.lock = (a.run k).lock := by
  have hsame := a.run_sameMutex k
  rw [Kernel.lock, h.mutex, Kernel.lock, hsame.held, hsame.relocked]

theorem Apart.unlock (h : a.Apart c k) : a.run k.unlock = (a.run k).unlock := by
  have hsame := a.run_sameMutex k
  have hk : k.unlock = { k with held := false, relocked := k.relocked } := rfl
  rw [hk, h.mutex, Kernel.unlock, hsame.relocked]

theorem Apart.rewind (h : a.Apart c k) (hdst : k.NoFile c.fdToSendTo) :
    (a.run k).rewind c.tempFd = a.run (k.rewind c.tempFd) := by
  unfold Kernel.rewind
  rw [h.desc hdst (Or.inr rfl)]
  split
  · exact (h.seek _).symm
  · rfl

theorem Apart.readFile (h : a.Apart c k) (hdst : k.NoFile c.fdToSendTo) (n : Nat) :
    (a.run k).readFile c.tempFd n = ((k.readFile c.tempFd n).1, a.run (k.readFile c.tempFd n).2) := by
  unfold Kernel.readFile
  rw [h.desc hdst (Or.inr rfl)]
  split
  · rename_i path off hsrc
    rw [h.store (Or.inr ⟨off, hsrc⟩), h.seek]
  · rfl

theorem Apart.readBlock (h : a.Apart c k) (hdst : k.NoFile c.fdToSendTo) (size : Nat)
    (reads : List Outcome) :
    readBlock (a.run k) c.tempFd size reads =
      ((readBlock k c.tempFd size reads).1, a.run (readBlock k c.tempFd size reads).2) := by
  unfold KeyLime.readBlock
  split <;> exact h.readFile hdst _

theorem Apart.put (h : a.Apart c k) (hdst : k.NoFile c.fdToSendTo) (bs : Bytes) :
    (a.run k).put c.fdToSendTo bs = a.run (k.put c.fdToSendTo bs) := by
  have hdesc := h.desc hdst (Or.inl rfl)
  cases hd : k.desc c.fdToSendTo with
  | none => rw [Kernel.put_none hd, Kernel.put_none (hdesc.trans hd)]
  | some d =>
      cases d with
      | file path off => exact (hdst path off hd).elim
      | sock =>
          rw [Kernel.put_sock hd, Kernel.put_sock (hdesc.trans hd), h.tell]
          have hsent : (a.run k).sent c.fdToSendTo = k.sent c.fdToSendTo := by
            cases a with
            | openTemp name ok =>
                simp only [run, Kernel.openWithAllPermission]
                split <;> rfl
            | writeTemp fd bs =>
                obtain ⟨hbs, path, off, hfile, -, -⟩ := h
                simp only [run, Kernel.put_file hfile hbs]
            | connect fd => exact Function.update_of_ne h.1.symm _ _
            | _ => rfl
          rw [hsent]

theorem Apart.getFileSize (h : a.Apart c k) (ok : Bool) :
    getFileSize (a.run k) c.tempFileName ok = getFileSize k c.tempFileName ok := by
  unfold KeyLime.getFileSize
  rw [a.run_resolve, h.store (Or.inl rfl)]

end Act

/-! ## An act and a step -/

namespace Putting

variable {a : Act} {c : PutCall} {k k' : Kernel} {bs : Bytes} {p : Putting}

theorem write_apart (h : a.Apart p.call k) (hdst : k.NoFile p.call.fdToSendTo)
    (place : Bytes → PutPlace) (buf : Bytes) :
    p.write (a.run k) place buf = (a.run (p.write k place buf).1, (p.write k place buf).2) := by
  unfold Putting.write
  rw [h.desc hdst (Or.inl rfl)]
  split
  · rfl
  · split
    · rw [h.put hdst]
    · rfl
    · rfl
    · rfl
    · rfl
    · rw [h.put hdst]

theorem read_apart (h : a.Apart p.call k) (hdst : k.NoFile p.call.fdToSendTo) (left : Nat) :
    p.read (a.run k) left = (a.run (p.read k left).1, (p.read k left).2) := by
  unfold Putting.read
  split
  · rfl
  · rfl
  · rfl
  · rfl
  · rw [h.readBlock hdst]
    generalize readBlock k p.call.tempFd left p.reads = b
    dsimp only
    split <;> rfl

/-- The step does the same whether the act has come before it or not. -/
theorem step_apart (h : a.Apart p.call k) (hdst : k.NoFile p.call.fdToSendTo) :
    step (a.run k, p) = (a.run (step (k, p)).1, (step (k, p)).2) := by
  cases hp : p.place with
  | locking => simp only [step, hp, h.lock]
  | sizing => simp only [step, hp, h.getFileSize]
  | header buf =>
      simp only [step, hp, write_apart h hdst]
      split <;> rfl
  | size buf =>
      simp only [step, hp, write_apart h hdst]
      split <;> rfl
  | rewinding => simp only [step, hp, h.rewind hdst]
  | reading left =>
      simp only [step, hp, read_apart h hdst]
      split <;> rfl
  | block left buf =>
      simp only [step, hp, write_apart h hdst]
      split <;> rfl
  | leaving ret => simp only [step, hp, h.unlock]
  | back ret => simp only [step, hp]

theorem Calls.file (h : Calls c k bs k') (g : Int) (path : Bytes) :
    (∃ off, k'.desc g = some (.file path off)) ↔ ∃ off, k.desc g = some (.file path off) := by
  have hmoved : ∀ {fd : Int} {path' : Bytes} {off off' : Nat},
      k.desc fd = some (.file path' off) →
      ((∃ o, Function.update k.desc fd (some (.file path' off')) g = some (.file path o)) ↔
        ∃ o, k.desc g = some (.file path o)) := by
    intro fd path' off off' hfd
    by_cases hg : g = fd
    · subst hg
      rw [Function.update_self, hfd]
      simp
    · rw [Function.update_of_ne hg]
  cases h with
  | nothing => exact .rfl
  | rewind =>
      unfold Kernel.rewind
      split
      · rename_i hsrc
        exact hmoved hsrc
      · exact .rfl
  | read n =>
      unfold Kernel.readFile
      split
      · rename_i hsrc
        exact hmoved hsrc
      · exact .rfl
  | write bs hopen =>
      unfold Kernel.put
      split
      · exact .rfl
      · split
        · rename_i hdst
          exact hmoved hdst
        · exact .rfl
        · exact .rfl

theorem Calls.resolve (h : Calls c k bs k') : k'.resolve = k.resolve ∧ k'.nextFd = k.nextFd := by
  cases h with
  | nothing => exact ⟨rfl, rfl⟩
  | rewind =>
      unfold Kernel.rewind
      split <;> exact ⟨rfl, rfl⟩
  | read n =>
      unfold Kernel.readFile
      split <;> exact ⟨rfl, rfl⟩
  | write bs hopen =>
      unfold Kernel.put
      split
      · exact ⟨rfl, rfl⟩
      · split <;> exact ⟨rfl, rfl⟩

theorem apart_of_files (hfile : ∀ g path, (∃ off, k'.desc g = some (.file path off)) ↔
      ∃ off, k.desc g = some (.file path off))
    (hresolve : k'.resolve = k.resolve ∧ k'.nextFd = k.nextFd) (h : a.Apart c k') : a.Apart c k := by
  have huses : ∀ path, c.Uses k' path ↔ c.Uses k path := by
    intro path
    unfold PutCall.Uses
    rw [hresolve.1, hfile]
  cases a with
  | openTemp name ok =>
      obtain ⟨hname, hnext⟩ := h
      rw [huses, hresolve.1] at hname
      rw [hresolve.2] at hnext
      exact ⟨hname, hnext⟩
  | writeTemp fd bs =>
      obtain ⟨hbs, path, off, hfd, hpath, hne⟩ := h
      obtain ⟨off', hfd'⟩ := (hfile fd path).mp ⟨off, hfd⟩
      exact ⟨hbs, path, off', hfd', (huses path).not.mp hpath, hne⟩
  | _ => exact h

/-- The act `a` of another thread while a call is under way. -/
def Others (p : Putting) (k : Kernel) (a : Act) (k' : Kernel) : Prop :=
  a.Apart p.call k ∧ k.NoFile p.call.fdToSendTo ∧ k' = a.run k

theorem step_moves : Moves step Others := by
  rintro ⟨k, p⟩ a s ⟨ha, hdst, rfl⟩
  have hback : (step (k, p)).2.call = p.call ∧
      (∀ g path, (∃ off, (step (k, p)).1.desc g = some (.file path off)) ↔
        ∃ off, k.desc g = some (.file path off)) ∧
      (step (k, p)).1.resolve = k.resolve ∧ (step (k, p)).1.nextFd = k.nextFd := by
    have hcase := step_case k p
    generalize step (k, p) = x at hcase
    cases hcase with
    | lock hp => exact ⟨rfl, fun _ _ => .rfl, rfl, rfl⟩
    | inner hp hq hret hcall hout hk => exact ⟨hcall, hk.file, hk.resolve⟩
    | unlock hp => exact ⟨rfl, fun _ _ => .rfl, rfl, rfl⟩
    | back hp => exact ⟨rfl, fun _ _ => .rfl, rfl, rfl⟩
  obtain ⟨hcall, hfile, hresolve⟩ := hback
  rw [hcall] at ha hdst
  have ha' : a.Apart p.call k := apart_of_files hfile hresolve ha
  have hdst' : k.NoFile p.call.fdToSendTo := fun path off h => by
    obtain ⟨off', h'⟩ := (hfile p.call.fdToSendTo path).mpr ⟨off, h⟩
    exact hdst path off' h'
  exact ⟨a.run k, ⟨ha', hdst', rfl⟩, step_apart ha' hdst'⟩

end Putting

/-! ## Calls one after the other -/

/-- The kernel, and the calls that have returned with their results. -/
structure Serial (ι : Type*) where
  kernel : Kernel
  returned : List (ι × PutCall × Ret)

inductive SerialEvent (ι : Type*) where
  | put (t : ι) (c : PutCall)
  | act (a : Act)

def SerialEvent.acts {ι : Type*} (es : List (SerialEvent ι)) : List Act :=
  es.filterMap fun
    | .put _ _ => none
    | .act a => some a

namespace Serial

variable {ι : Type*}

def next (s : Serial ι) : SerialEvent ι → Option (Serial ι)
  | .put t c =>
      (doPut s.kernel c.fdToSendTo c.record c.io).map fun (ret, kernel) =>
        ⟨kernel, s.returned ++ [(t, c, ret)]⟩
  | .act a => some { s with kernel := a.run s.kernel }

def Step (s : Serial ι) (e : SerialEvent ι) (s' : Serial ι) : Prop := s.next e = some s'

theorem run_acts {s₀ : Serial ι} {c : PutCall} {k k' : Kernel} {l : List (ι × PutCall × Ret)}
    {es : List (SerialEvent ι)} {as : List Act} (h : Run Step s₀ es ⟨k, l⟩)
    (hacts : Run (Putting.Others (Putting.start c)) k as k') :
    Run Step s₀ (es ++ as.map .act) ⟨k', l⟩ := by
  induction hacts with
  | start => simpa using h
  | @step as k₁ a k₂ hrun hact ih =>
      obtain ⟨-, -, rfl⟩ := hact
      rw [List.map_append, ← List.append_assoc]
      exact ih.step rfl

end Serial

theorem SerialEvent.acts_append {ι : Type*} (es es' : List (SerialEvent ι)) :
    acts (es ++ es') = acts es ++ acts es' := List.filterMap_append

theorem SerialEvent.acts_map {ι : Type*} (as : List Act) :
    acts (as.map (.act (ι := ι))) = as := by
  simp [acts, List.filterMap_map]

/-! ## The interleaving -/

/-- A thread calls `do_put` or takes a step in it, or the master does something
else. -/
inductive Happening (ι : Type*) where
  | call (t : ι) (c : PutCall)
  | run (t : ι)
  | act (a : Act)

def Happening.acts {ι : Type*} (es : List (Happening ι)) : List Act :=
  es.filterMap fun
    | .call _ _ | .run _ => none
    | .act a => some a

namespace Threads

variable {ι : Type*} [DecidableEq ι] {s s' s₀ : Threads ι} {es : List (Happening ι)}

/-- The act concerns none of the calls that are inside. -/
def Unrelated (s : Threads ι) (a : Act) : Prop :=
  ∀ t p, s.calls t = some p → p.inside → a.Apart p.call s.kernel ∧ s.kernel.NoFile p.call.fdToSendTo

def event (s : Threads ι) : Happening ι → ThreadEvent ι
  | .call t c => .call t c
  | .run t => .run t
  | .act a => .other (a.run s.kernel)

/-- A step of the interleaving; its acts are unrelated to the calls. -/
def Happens (s : Threads ι) (e : Happening ι) (s' : Threads ι) : Prop :=
  s.next (s.event e) = some s' ∧ ∀ a, e = .act a → s.Unrelated a

/-- The thread, its call and what `do_put` has returned. -/
def Returned (r : ι × Putting) (e : ι × PutCall × Ret) : Prop :=
  e.1 = r.1 ∧ e.2.1 = r.2.call ∧ r.2.place = .back e.2.2

/-- The state is one of a serial run with the same acts, except for those that
have come since the thread inside has got the mutex. -/
structure Serializable (s₀ : Threads ι) (es : List (Happening ι)) (s : Threads ι) : Prop where
  exclusive : Exclusive s
  serial : ∃ ses as l k, List.Forall₂ Returned s.returned l ∧
    Run Serial.Step ⟨s₀.kernel, []⟩ ses ⟨k, l⟩ ∧
    Happening.acts es = SerialEvent.acts ses ++ as ∧
    (s.kernel.held = false → k = s.kernel ∧ as = []) ∧
    ∀ t p, s.calls t = some p → p.inside →
      Mixed Putting.step Putting.Others (k, .start p.call) as (s.kernel, p)

omit [DecidableEq ι] in
theorem Serializable.start (hcalls : ∀ t, s₀.calls t = none) (hreturned : s₀.returned = [])
    (hfree : s₀.kernel.held = false) : Serializable s₀ [] s₀ where
  exclusive := .start hcalls hfree
  serial := by
    refine ⟨[], [], [], s₀.kernel, hreturned ▸ .nil, .start, rfl, fun _ => ⟨rfl, rfl⟩,
      fun t p hp => ?_⟩
    rw [hcalls] at hp
    cases hp

theorem Serializable.run {t : ι} (h : Serializable s₀ es s) (hs : RunCase s t s') :
    Serializable s₀ (es ++ [.run t]) s' := by
  have hexclusive := h.exclusive.run hs
  obtain ⟨ses, as, l, k₀, hl, hrun, hacts, hfree₀, hmixed⟩ := h.serial
  have hsame : Happening.acts (es ++ [.run t]) = Happening.acts es := by simp [Happening.acts]
  refine ⟨hexclusive, ?_⟩
  rw [hsame, hacts]
  cases hs with
  | @lock p hp hplace hfree =>
      obtain ⟨rfl, rfl⟩ := hfree₀ hfree
      have hp₀ : p = .start p.call := h.exclusive.waiting t p hp (h.exclusive.nobody hfree hp)
      refine ⟨ses, [], l, s.kernel, hl, hrun, rfl, fun hheld => (Bool.false_ne_true hheld.symm).elim,
        fun t' p' hp' hin' => ?_⟩
      rcases calls_update hp' with ⟨-, rfl⟩ | ⟨-, hp'⟩
      · have hstep : Putting.step (s.kernel, p) = (s.kernel.lock, p.goTo .sizing) := by
          simp only [Putting.step, hplace]
        have hown := Mixed.own (f := Putting.step) (E := Putting.Others) (.start (x := (s.kernel, p)))
        rw [hstep] at hown
        rw [hp₀] at hown
        rw [hp₀]
        exact hown
      · rw [h.exclusive.nobody hfree hp'] at hin'
        cases hin'
  | @inner p q bs k hp hin hq hstep hcall hout hk =>
      have hheld : k.held = true :=
        hk.sameMutex.held.trans (h.exclusive.held.mpr ⟨t, p, hp, hin⟩)
      refine ⟨ses, as, l, k₀, hl, hrun, rfl, ?_, ?_⟩
      · intro hfree
        rw [hheld] at hfree
        cases hfree
      · intro t' p' hp' hin'
        rcases calls_update hp' with ⟨-, rfl⟩ | ⟨hne, hp'⟩
        · have hown := (hmixed t p hp hin).own
          rwa [hstep, ← hcall] at hown
        · rw [h.exclusive.others hp hin hne hp'] at hin'
          cases hin'
  | @unlock p ret hp hplace =>
      -- the acts come first, and then the whole call
      have hin : p.inside := by simp only [Putting.inside, hplace]
      have hown := (hmixed t p hp hin).own
      have hstep : Putting.step (s.kernel, p) = (s.kernel.unlock, p.goTo (.back ret)) := by
        simp only [Putting.step, hplace]
      rw [hstep] at hown
      obtain ⟨k₁, n, hbefore, hrest⟩ := hown.atomic Putting.step_moves
      have hput : doPut k₁ p.call.fdToSendTo p.call.record p.call.io = some (ret, s.kernel.unlock) :=
        Putting.doPut_of_iterate rfl rfl hrest rfl
      have hwhole : Serial.Step ⟨k₁, l⟩ (.put t p.call)
          ⟨s.kernel.unlock, l ++ [(t, p.call, ret)]⟩ := by
        simp only [Serial.Step, Serial.next, hput, Option.map_some]
      have hserial := (Serial.run_acts hrun hbefore).step hwhole
      refine ⟨_, [], _, s.kernel.unlock, ?_, hserial, ?_, fun _ => ⟨rfl, rfl⟩,
        fun t' p' hp' hin' => ?_⟩
      · exact List.rel_append hl (.cons ⟨rfl, rfl, rfl⟩ .nil)
      · rw [SerialEvent.acts_append, SerialEvent.acts_append, SerialEvent.acts_map, List.append_nil]
        exact (List.append_nil _).symm
      · obtain ⟨hne, hp'⟩ := calls_leave hp'
        rw [h.exclusive.others hp hin hne hp'] at hin'
        cases hin'

theorem Serializable.step (h : Serializable s₀ es s) {e : Happening ι} (hs : Happens s e s') :
    Serializable s₀ (es ++ [e]) s' := by
  obtain ⟨hnext, hothers⟩ := hs
  cases e with
  | call t c =>
      simp only [event, next] at hnext
      split at hnext
      · rename_i ht
        rw [Option.some.injEq] at hnext
        subst hnext
        obtain ⟨ses, as, l, k₀, hl, hrun, hacts, hfree₀, hmixed⟩ := h.serial
        refine ⟨h.exclusive.call ht, ses, as, l, k₀, hl, hrun, ?_, hfree₀, ?_⟩
        · rw [← hacts]
          simp [Happening.acts]
        · intro t' p hp hin
          rcases calls_update hp with ⟨-, rfl⟩ | ⟨-, hp⟩
          · cases hin
          · exact hmixed t' p hp hin
      · cases hnext
  | run t => exact h.run (run_case (fun p hp => h.exclusive.not_back hp) hnext)
  | act a =>
      have hapart := hothers a rfl
      simp only [event, next, Option.some.injEq] at hnext
      subst hnext
      have hsame := a.run_sameMutex s.kernel
      obtain ⟨ses, as, l, k₀, hl, hrun, hacts, hfree₀, hmixed⟩ := h.serial
      have hmore : Happening.acts (es ++ [.act a]) = SerialEvent.acts ses ++ as ++ [a] := by
        rw [← hacts]
        simp [Happening.acts]
      refine ⟨h.exclusive.other hsame.held, ?_⟩
      rw [hmore]
      cases hheld : s.kernel.held with
      | false =>
          -- between two calls, the act has its place in the serial run
          obtain ⟨rfl, rfl⟩ := hfree₀ hheld
          refine ⟨ses ++ [.act a], [], l, a.run s.kernel, hl,
            hrun.step (show Serial.Step ⟨s.kernel, l⟩ (.act a) ⟨a.run s.kernel, l⟩ from rfl), ?_,
            fun _ => ⟨rfl, rfl⟩, fun t p hp hin => ?_⟩
          · rw [SerialEvent.acts_append, List.append_nil, List.append_nil]
            rfl
          · rw [h.exclusive.nobody hheld hp] at hin
            cases hin
      | true =>
          refine ⟨ses, as ++ [a], l, k₀, hl, hrun, List.append_assoc .., fun hfree => ?_,
            fun t p hp hin => ?_⟩
          · have hk : (a.run s.kernel).held = true := hsame.held.trans hheld
            rw [hk] at hfree
            cases hfree
          · obtain ⟨ha, hdst⟩ := hapart t p hp hin
            exact (hmixed t p hp hin).other ⟨ha, hdst, rfl⟩

theorem serializable_of_run (hcalls : ∀ t, s₀.calls t = none) (hreturned : s₀.returned = [])
    (hfree : s₀.kernel.held = false) (h : Run Happens s₀ es s) : Serializable s₀ es s := by
  induction h with
  | start => exact .start hcalls hreturned hfree
  | step _ hs ih => exact ih.step hs

/-- **`do_put` is atomic.** Any interleaving `es` of calls of `do_put`, of their
steps and of acts that are unrelated to the calls under way, which leaves no
call in the middle, comes to a kernel that a serial run comes to as well: one of
whole calls, those that have returned, in the order in which they have and with
the same results, and of the acts of `es`, these and no others, in their order. -/
theorem put_atomic (hcalls : ∀ t, s₀.calls t = none) (hreturned : s₀.returned = [])
    (hfree : s₀.kernel.held = false) (h : Run Happens s₀ es s)
    (hout : ∀ t p, s.calls t = some p → p.inside = false) :
    ∃ ses l, List.Forall₂ Returned s.returned l ∧
      Run Serial.Step ⟨s₀.kernel, []⟩ ses ⟨s.kernel, l⟩ ∧
      SerialEvent.acts ses = Happening.acts es := by
  have hserial := serializable_of_run hcalls hreturned hfree h
  obtain ⟨ses, as, l, k, hl, hrun, hacts, hk, -⟩ := hserial.serial
  have hheld : s.kernel.held = false := by
    rw [← Bool.not_eq_true, hserial.exclusive.held]
    rintro ⟨t, p, hp, hin⟩
    rw [hout t p hp] at hin
    cases hin
  obtain ⟨rfl, rfl⟩ := hk hheld
  exact ⟨ses, l, hl, hrun, by rw [hacts, List.append_nil]⟩

/-- A step of a thread, or an arrival while all calls are for connections. -/
def arrivesApart (s : Threads Bool) : Happening Bool → Bool
  | .call _ _ | .run _ => true
  | .act (.deliver _ _) => [true, false].all fun t => (s.calls t).all fun p =>
      s.kernel.desc p.call.fdToSendTo == some .sock
  | .act _ => false

def happen (s : Threads Bool) : List (Happening Bool) → Option (Threads Bool)
  | [] => some s
  | e :: es => if s.arrivesApart e then (s.next (s.event e)).bind fun s => s.happen es else none

theorem happen_run {s₀ s s' : Threads Bool} {es es' : List (Happening Bool)}
    (h : Run Happens s₀ es s) (hs : s.happen es' = some s') : Run Happens s₀ (es ++ es') s' := by
  induction es' generalizing es s with
  | nil =>
      obtain rfl : s = s' := Option.some.inj hs
      simpa using h
  | cons e es' ih =>
      rw [happen] at hs
      split at hs
      · rename_i hunrelated
        obtain ⟨s₁, hnext, hrest⟩ := Option.bind_eq_some_iff.mp hs
        have hstep : Happens s e s₁ := by
          refine ⟨hnext, ?_⟩
          rintro a rfl t p hp -
          cases a with
          | deliver fd arrived =>
              have hall := List.all_eq_true.mp hunrelated t (by cases t <;> simp)
              rw [hp, Option.all_some, beq_iff_eq] at hall
              refine ⟨trivial, ?_⟩
              intro path off hfile
              rw [hall] at hfile
              cases hfile
          | _ => cases hunrelated
        simpa using ih (h.step hstep) hrest
      · cases hs

/-- The calls of `twoSenders` step by step, and a byte that arrives on the other
connection while the second call is in its frame. -/
def twoCalls : List (Happening Bool) :=
  [.call true ⟨5, [97], 7, {}⟩, .call false ⟨5, [98], 8, {}⟩] ++ List.replicate 4 (.run false) ++
    [.act (.deliver 6 [.byte 1])] ++ List.replicate 5 (.run false) ++ List.replicate 9 (.run true)

/-- They come out one after the other, with the arrival somewhere. -/
theorem put_atomic_two :
    ∃ s ses l, twoSenders.happen twoCalls = some s ∧ l.length = 2 ∧
      List.Forall₂ Returned s.returned l ∧
      Run Serial.Step ⟨twoSenders.kernel, []⟩ ses ⟨s.kernel, l⟩ ∧
      (SerialEvent.acts ses).length = 1 := by
  have hends : (twoSenders.happen twoCalls).map
      (fun s => (s.returned.length, (s.calls true).isNone, (s.calls false).isNone)) =
        some (2, true, true) := by decide
  obtain ⟨s, hs, hs₂⟩ := Option.map_eq_some_iff.mp hends
  simp only [Prod.mk.injEq, Option.isNone_iff_eq_none] at hs₂
  obtain ⟨ses, l, hl, hrun, hacts⟩ := put_atomic (fun t => (rfl : twoSenders.calls t = none)) rfl rfl
    (happen_run .start hs) (fun t p hp => by
      cases t with
      | true => rw [hs₂.2.1] at hp; cases hp
      | false => rw [hs₂.2.2] at hp; cases hp)
  exact ⟨s, ses, l, hs, hl.length_eq.symm.trans hs₂.1, hl, hrun, by rw [hacts]; rfl⟩

end Threads

end KeyLime
