import KeyLime.Mutex
import KeyLime.PutSteps
import KeyLime.Transition

/-!
# Threads that call `do_put`

The event loop and the failure detector both call `do_put`, for the same
connections. Any number of threads do so here, any number of times and with
any arguments, and their steps are interleaved with each other and with
whatever the rest of the program does to the kernel.

The mutex keeps the frames apart: what a connection has been sent are the
frames of the calls that have returned, in the order in which they had the
mutex, each whole or, where the call has failed, cut short, and then a part
of the frame under way (`frames_apart`).

Two invariants carry this. `Exclusive` is about who is inside: one thread at
most, and it holds the mutex, so that all the others are in front of their lock.
`Orderly` is about the connection, and needs the first: only the thread inside
adds to the part of a frame at the end, and it leaves with that part complete or
given up.

What the rest of the program may do is a parameter of the step relation. `Keeps`
is what is asked of it: it does not write to that descriptor, and gives back the
mutex if it takes it.
-/

namespace KeyLime

open Transition

structure Threads (ι : Type*) where
  kernel : Kernel
  /-- The calls under way. -/
  calls : ι → Option Putting
  /-- History: the calls that have returned. -/
  returned : List (ι × Putting)

inductive ThreadEvent (ι : Type*) where
  | call (t : ι) (c : PutCall)
  | run (t : ι)
  /-- Something else than a step of `do_put`. -/
  | other (k : Kernel)

def ThreadEvent.ofPut {ι : Type*} : ThreadEvent ι → Bool
  | .other _ => false
  | _ => true

namespace Threads

variable {ι : Type*} [DecidableEq ι] {s s' s₀ : Threads ι} {t t' : ι} {p p' : Putting} {fd : Int}

/-- The state behind a step of thread `t`. -/
def put (s : Threads ι) (t : ι) : Kernel × Putting → Threads ι
  | (kernel, p) =>
    match p.place with
    | .back _ =>
        { kernel
          calls := Function.update s.calls t none
          returned := s.returned ++ [(t, p)] }
    | _ => { s with kernel, calls := Function.update s.calls t (some p) }

/-- `none` when the event cannot occur: a thread does not enter the mutex
while another one holds it. -/
def next (s : Threads ι) : ThreadEvent ι → Option (Threads ι)
  | .call t c =>
      if s.calls t = none then
        some { s with calls := Function.update s.calls t (some (.start c)) }
      else none
  | .run t =>
      (s.calls t).bind fun p =>
        if p.place = .locking ∧ s.kernel.held = true then none
        else some (s.put t (Putting.step (s.kernel, p)))
  | .other kernel => some { s with kernel }

/-- A step; `others` is what the rest of the program may do to the kernel. -/
def Step (others : Threads ι → Kernel → Prop) (s : Threads ι) (e : ThreadEvent ι)
    (s' : Threads ι) : Prop :=
  s.next e = some s' ∧ ∀ k, e = .other k → others s k

/-! ## The steps -/

/-- Every step a thread can take in `do_put`. -/
inductive RunCase (s : Threads ι) (t : ι) : Threads ι → Prop
  | lock {p : Putting} (hp : s.calls t = some p) (hplace : p.place = .locking)
      (hfree : s.kernel.held = false) :
      RunCase s t { s with
        kernel := s.kernel.lock
        calls := Function.update s.calls t (some (p.goTo .sizing)) }
  | inner {p q : Putting} {bs : Bytes} {k : Kernel} (hp : s.calls t = some p) (hin : p.inside)
      (hq : q.inside) (hstep : Putting.step (s.kernel, p) = (k, q)) (hcall : q.call = p.call)
      (hout : q.out = p.out ++ bs) (hk : Putting.Calls p.call s.kernel bs k) :
      RunCase s t { s with kernel := k, calls := Function.update s.calls t (some q) }
  | unlock {p : Putting} {ret : Ret} (hp : s.calls t = some p) (hplace : p.place = .leaving ret) :
      RunCase s t {
        kernel := s.kernel.unlock
        calls := Function.update s.calls t none
        returned := s.returned ++ [(t, p.goTo (.back ret))] }

theorem put_inside {k : Kernel} (hp : p.inside) :
    s.put t (k, p) = { s with kernel := k, calls := Function.update s.calls t (some p) } := by
  cases hplace : p.place with
  | back ret =>
      simp only [Putting.inside, hplace] at hp
      cases hp
  | _ => simp only [put, hplace]

theorem run_case (hback : ∀ p, s.calls t = some p → ∀ ret, p.place ≠ .back ret)
    (h : s.next (.run t) = some s') : RunCase s t s' := by
  obtain ⟨p, hp, h⟩ := Option.bind_eq_some_iff.mp h
  split at h
  · cases h
  · rename_i hfree
    rw [Option.some.injEq] at h
    subst h
    have hcase := Putting.step_case s.kernel p
    generalize hx : Putting.step (s.kernel, p) = x at hcase
    cases hcase with
    | lock hplace => exact .lock hp hplace (by simpa [hplace] using hfree)
    | inner hin hq hret hcall hout hk =>
        rw [put_inside hq]
        exact .inner hp hin hq hx hcall hout hk
    | unlock hplace => exact .unlock hp hplace
    | back hplace => exact (hback p hp _ hplace).elim

/-! ## The frames on a connection -/

/-- What the calls that have returned have written to `fd`. -/
def sentTo (s : Threads ι) (fd : Int) : Bytes :=
  (s.returned.filter fun r => r.2.call.fdToSendTo = fd).flatMap fun r => r.2.out

/-- A call under way has written `tail` to `fd`: the part of its frame that has come
out, or nothing when no thread inside is for that descriptor. -/
def UnderWay (s : Threads ι) (fd : Int) (tail : Bytes) : Prop :=
  (∃ t p, s.calls t = some p ∧ p.inside ∧ p.call.fdToSendTo = fd ∧ p.out = tail) ∨
    (tail = [] ∧ ∀ t p, s.calls t = some p → p.inside → p.call.fdToSendTo ≠ fd)

end Threads

namespace Kernel

variable {k k' : Kernel} {fd : Int}

/-- The descriptor is not that of a stored file. -/
def NoFile (k : Kernel) (fd : Int) : Prop := ∀ path off, k.desc fd ≠ some (.file path off)

theorem NoFile.ne (h : k.NoFile fd) {g : Int} {path : Bytes} {off : Nat}
    (hg : k.desc g = some (.file path off)) : fd ≠ g := by
  rintro rfl
  exact h path off hg

theorem NoFile.put_desc (h : k.NoFile fd) (g : Int) (bs : Bytes) :
    (k.put g bs).desc fd = k.desc fd := by
  unfold put
  split
  · rfl
  · split
    · rename_i path off hg
      exact Function.update_of_ne (h.ne hg) _ _
    · rfl
    · rfl

theorem NoFile.readFile_desc (h : k.NoFile fd) (g : Int) (n : Nat) :
    (k.readFile g n).2.desc fd = k.desc fd := by
  unfold readFile
  split
  · rename_i path off hg
    exact Function.update_of_ne (h.ne hg) _ _
  · rfl

theorem NoFile.rewind_desc (h : k.NoFile fd) (g : Int) : (k.rewind g).desc fd = k.desc fd := by
  unfold rewind
  split
  · rename_i path off hg
    exact Function.update_of_ne (h.ne hg) _ _
  · rfl

theorem NoFile.put_sent (h : k.NoFile fd) {g : Int} (hg : k.desc g ≠ none) (bs : Bytes) :
    (k.put g bs).sent fd = if g = fd then k.sent fd ++ bs else k.sent fd := by
  cases hd : k.desc g with
  | none => exact (hg hd).elim
  | some d =>
      cases d with
      | file path off =>
          rw [if_neg (h.ne hd).symm]
          unfold put
          split
          · rfl
          · rw [hd]
      | sock =>
          rw [put_sock hd]
          split
          · rename_i heq
            subst heq
            exact Function.update_self _ _ _
          · rename_i hne
            exact Function.update_of_ne (Ne.symm hne) _ _

end Kernel

namespace Putting

variable {c : PutCall} {k k' : Kernel} {bs : Bytes} {fd : Int}

theorem Calls.sameMutex (h : Calls c k bs k') : k.SameMutex k' := by
  cases h with
  | nothing => exact .refl k
  | rewind => exact k.rewind_sameMutex _
  | read n => exact k.readFile_sameMutex _ n
  | write bs h => exact k.put_sameMutex _ _

theorem Calls.noFile (h : Calls c k bs k') (hfd : k.NoFile fd) : k'.NoFile fd := by
  have hsame : k'.desc fd = k.desc fd := by
    cases h with
    | nothing => rfl
    | rewind => exact hfd.rewind_desc _
    | read n => exact hfd.readFile_desc _ n
    | write bs h => exact hfd.put_desc _ _
  exact fun path off h => hfd path off (hsame ▸ h)

theorem Calls.sent (h : Calls c k bs k') (hfd : k.NoFile fd) :
    k'.sent fd = if c.fdToSendTo = fd then k.sent fd ++ bs else k.sent fd := by
  have hnone : k.sent fd = if c.fdToSendTo = fd then k.sent fd ++ [] else k.sent fd := by
    rw [List.append_nil, ite_self]
  cases h with
  | nothing => exact hnone
  | rewind =>
      rw [← hnone]
      unfold Kernel.rewind
      split <;> rfl
  | read n =>
      rw [← hnone]
      unfold Kernel.readFile
      split <;> rfl
  | write bs h => exact hfd.put_sent h bs

end Putting

namespace Threads

variable {ι : Type*} [DecidableEq ι] {s s' s₀ : Threads ι} {t t' : ι} {p p' : Putting} {fd : Int}

/-- What the rest of the program may do: nobody but `do_put` writes to `fd`, and who
else takes the mutex gives it back before anybody can see it. -/
def Keeps (fd : Int) (s : Threads ι) (k : Kernel) : Prop :=
  k.held = s.kernel.held ∧ k.sent fd = s.kernel.sent fd ∧ k.NoFile fd

/-! ## Who is inside -/

/-- At most one thread is inside, and it holds the mutex; the others have not
begun. -/
structure Exclusive (s : Threads ι) : Prop where
  held : s.kernel.held = true ↔ ∃ t p, s.calls t = some p ∧ p.inside
  one : ∀ t t' p p', s.calls t = some p → p.inside → s.calls t' = some p' → p'.inside → t = t'
  waiting : ∀ t p, s.calls t = some p → p.inside = false → p = .start p.call

theorem calls_update {q p' : Putting} (h : Function.update s.calls t (some q) t' = some p') :
    (t' = t ∧ p' = q) ∨ (t' ≠ t ∧ s.calls t' = some p') := by
  by_cases ht : t' = t
  · subst ht
    rw [Function.update_self, Option.some.injEq] at h
    exact Or.inl ⟨rfl, h.symm⟩
  · rw [Function.update_of_ne ht] at h
    exact Or.inr ⟨ht, h⟩

theorem calls_leave (h : Function.update s.calls t none t' = some p') :
    t' ≠ t ∧ s.calls t' = some p' := by
  by_cases ht : t' = t
  · subst ht
    rw [Function.update_self] at h
    cases h
  · rw [Function.update_of_ne ht] at h
    exact ⟨ht, h⟩

theorem calls_other {q : Putting} (ht : s.calls t = none) (h : s.calls t' = some p) :
    Function.update s.calls t (some q) t' = some p := by
  refine (Function.update_of_ne ?_ _ _).trans h
  rintro rfl
  rw [ht] at h
  cases h

omit [DecidableEq ι] in
theorem Exclusive.start (hcalls : ∀ t, s.calls t = none) (hfree : s.kernel.held = false) :
    Exclusive s where
  held := by
    rw [hfree]
    refine ⟨fun h => (Bool.false_ne_true h).elim, ?_⟩
    intro h
    obtain ⟨t, p, hp, -⟩ := h
    rw [hcalls] at hp
    cases hp
  one t t' p p' hp := by
    rw [hcalls] at hp
    cases hp
  waiting t p hp := by
    rw [hcalls] at hp
    cases hp

omit [DecidableEq ι] in
theorem Exclusive.nobody (h : Exclusive s) (hfree : s.kernel.held = false) (hp : s.calls t = some p) :
    p.inside = false := by
  by_contra hin
  rw [Bool.not_eq_false] at hin
  rw [h.held.mpr ⟨t, p, hp, hin⟩] at hfree
  cases hfree

omit [DecidableEq ι] in
theorem Exclusive.others (h : Exclusive s) (hp : s.calls t = some p) (hin : p.inside)
    (hne : t' ≠ t) (hp' : s.calls t' = some p') : p'.inside = false := by
  by_contra hin'
  rw [Bool.not_eq_false] at hin'
  exact hne (h.one _ _ _ _ hp' hin' hp hin)

omit [DecidableEq ι] in
theorem Exclusive.not_back (h : Exclusive s) (hp : s.calls t = some p) (ret : Ret) :
    p.place ≠ .back ret := by
  intro hback
  have hstart := h.waiting t p hp (by simp only [Putting.inside, hback])
  rw [hstart] at hback
  cases hback

theorem Exclusive.call (h : Exclusive s) {c : PutCall} (ht : s.calls t = none) :
    Exclusive { s with calls := Function.update s.calls t (some (.start c)) } where
  held := by
    rw [h.held]
    constructor
    · rintro ⟨t', p, hp, hin⟩
      exact ⟨t', p, calls_other ht hp, hin⟩
    · rintro ⟨t', p, hp, hin⟩
      rcases calls_update hp with ⟨-, rfl⟩ | ⟨-, hp⟩
      · cases hin
      · exact ⟨t', p, hp, hin⟩
  one t₁ t₂ p₁ p₂ hp₁ hin₁ hp₂ hin₂ := by
    rcases calls_update hp₁ with ⟨-, rfl⟩ | ⟨-, hp₁⟩
    · cases hin₁
    · rcases calls_update hp₂ with ⟨-, rfl⟩ | ⟨-, hp₂⟩
      · cases hin₂
      · exact h.one _ _ _ _ hp₁ hin₁ hp₂ hin₂
  waiting t' p hp hin := by
    rcases calls_update hp with ⟨-, rfl⟩ | ⟨-, hp⟩
    · rfl
    · exact h.waiting t' p hp hin

/-- The thread that has made a step is inside, and nobody else is. -/
theorem Exclusive.enter (h : Exclusive s) {q : Putting} {k : Kernel} (hin : q.inside)
    (hheld : k.held = true) (hone : ∀ t' p', t' ≠ t → s.calls t' = some p' → p'.inside = false) :
    Exclusive { s with kernel := k, calls := Function.update s.calls t (some q) } where
  held := ⟨fun _ => ⟨t, q, Function.update_self _ _ _, hin⟩, fun _ => hheld⟩
  one t₁ t₂ p₁ p₂ hp₁ hin₁ hp₂ hin₂ := by
    rcases calls_update hp₁ with ⟨rfl, -⟩ | ⟨hne, hp₁⟩
    · rcases calls_update hp₂ with ⟨rfl, -⟩ | ⟨hne, hp₂⟩
      · rfl
      · rw [hone _ _ hne hp₂] at hin₂
        cases hin₂
    · rw [hone _ _ hne hp₁] at hin₁
      cases hin₁
  waiting t' p hp hout := by
    rcases calls_update hp with ⟨-, rfl⟩ | ⟨-, hp⟩
    · rw [hin] at hout
      cases hout
    · exact h.waiting t' p hp hout

theorem Exclusive.leave (h : Exclusive s) {k : Kernel} {l : List (ι × Putting)}
    (hheld : k.held = false) (hone : ∀ t' p', t' ≠ t → s.calls t' = some p' → p'.inside = false) :
    Exclusive { kernel := k, calls := Function.update s.calls t none, returned := l } where
  held := by
    refine ⟨fun hk => (Bool.false_ne_true (hheld.symm.trans hk)).elim, ?_⟩
    intro hsome
    obtain ⟨t', p', hp', hin'⟩ := hsome
    obtain ⟨hne, hp'⟩ := calls_leave hp'
    rw [hone t' p' hne hp'] at hin'
    cases hin'
  one t₁ t₂ p₁ p₂ hp₁ hin₁ := by
    obtain ⟨hne, hp₁⟩ := calls_leave hp₁
    rw [hone _ _ hne hp₁] at hin₁
    cases hin₁
  waiting t' p hp hout := h.waiting t' p (calls_leave hp).2 hout

theorem Exclusive.run (h : Exclusive s) (hs : RunCase s t s') : Exclusive s' := by
  cases hs with
  | lock hp hplace hfree => exact h.enter rfl rfl fun t' p' _ hp' => h.nobody hfree hp'
  | inner hp hin hq hstep hcall hout hk =>
      exact h.enter hq (hk.sameMutex.held.trans (h.held.mpr ⟨_, _, hp, hin⟩))
        fun t' p' => h.others hp hin
  | @unlock p ret hp hplace =>
      exact h.leave rfl fun t' p' => h.others hp (by simp only [Putting.inside, hplace])

omit [DecidableEq ι] in
theorem Exclusive.other (h : Exclusive s) {k : Kernel} (hheld : k.held = s.kernel.held) :
    Exclusive { s with kernel := k } where
  held := by
    show k.held = true ↔ _
    rw [hheld]
    exact h.held
  one := h.one
  waiting := h.waiting

/-! ## What is on the connection -/

structure Orderly (fd : Int) (s₀ s : Threads ι) : Prop where
  exclusive : Exclusive s
  noFile : s.kernel.NoFile fd
  onWay : ∀ t p, s.calls t = some p → p.OnWay
  returned : ∀ r ∈ s.returned, ∃ ret, r.2.place = .back ret ∧ r.2.Ended ret
  sent : ∃ tail, s.UnderWay fd tail ∧
    s.kernel.sent fd = s₀.kernel.sent fd ++ s.sentTo fd ++ tail

omit [DecidableEq ι] in
theorem Orderly.start (hcalls : ∀ t, s₀.calls t = none) (hret : s₀.returned = [])
    (hfree : s₀.kernel.held = false) (hfd : s₀.kernel.NoFile fd) : Orderly fd s₀ s₀ where
  exclusive := .start hcalls hfree
  noFile := hfd
  onWay t p hp := by
    rw [hcalls] at hp
    cases hp
  returned r hr := by
    rw [hret] at hr
    cases hr
  sent := by
    refine ⟨[], Or.inr ⟨rfl, ?_⟩, ?_⟩
    · intro t p hp
      rw [hcalls] at hp
      cases hp
    · simp [sentTo, hret]

omit [DecidableEq ι] in
theorem Orderly.tail (h : Orderly fd s₀ s) (hp : s.calls t = some p) (hin : p.inside)
    {tail : Bytes} (ht : s.UnderWay fd tail) :
    tail = if p.call.fdToSendTo = fd then p.out else [] := by
  rcases ht with ⟨t', p', hp', hin', hto, hout⟩ | ⟨htail, hnone⟩
  · obtain rfl := h.exclusive.one _ _ _ _ hp' hin' hp hin
    obtain rfl : p' = p := Option.some.inj (hp'.symm.trans hp)
    rw [if_pos hto, hout]
  · rw [if_neg (hnone t p hp hin), htail]

theorem underWay_update {q : Putting} {k : Kernel} (hin : q.inside)
    (hone : ∀ t' p', t' ≠ t → s.calls t' = some p' → p'.inside = false) :
    ({ s with kernel := k, calls := Function.update s.calls t (some q) } : Threads ι).UnderWay fd
      (if q.call.fdToSendTo = fd then q.out else []) := by
  split
  · rename_i hto
    exact Or.inl ⟨t, q, Function.update_self _ _ _, hin, hto, rfl⟩
  · rename_i hto
    refine Or.inr ⟨rfl, fun t' p' hp' hin' => ?_⟩
    rcases calls_update hp' with ⟨-, rfl⟩ | ⟨hne, hp'⟩
    · exact hto
    · rw [hone t' p' hne hp'] at hin'
      cases hin'

theorem Orderly.call (h : Orderly fd s₀ s) {c : PutCall} (ht : s.calls t = none) :
    Orderly fd s₀ { s with calls := Function.update s.calls t (some (.start c)) } where
  exclusive := h.exclusive.call ht
  noFile := h.noFile
  onWay t' p hp := by
    rcases calls_update hp with ⟨-, rfl⟩ | ⟨-, hp⟩
    · rfl
    · exact h.onWay t' p hp
  returned := h.returned
  sent := by
    obtain ⟨tail, htail, hsent⟩ := h.sent
    refine ⟨tail, ?_, hsent⟩
    rcases htail with ⟨t', p, hp, hin, hto, hout⟩ | ⟨htail, hnone⟩
    · exact Or.inl ⟨t', p, calls_other ht hp, hin, hto, hout⟩
    · refine Or.inr ⟨htail, fun t' p hp hin => ?_⟩
      rcases calls_update hp with ⟨-, rfl⟩ | ⟨-, hp⟩
      · cases hin
      · exact hnone t' p hp hin

theorem Orderly.run (h : Orderly fd s₀ s) (hs : RunCase s t s') : Orderly fd s₀ s' := by
  obtain ⟨tail, htail, hsent⟩ := h.sent
  have hexclusive := h.exclusive.run hs
  cases hs with
  | @lock p hp hplace hfree =>
      have hout : (p.goTo .sizing).out = [] := by
        have hway := h.onWay t p hp
        simp only [Putting.OnWay, hplace] at hway
        exact hway
      have hempty : tail = [] := by
        rcases htail with ⟨t', p', hp', hin', -⟩ | ⟨htail, -⟩
        · rw [h.exclusive.nobody hfree hp'] at hin'
          cases hin'
        · exact htail
      refine ⟨hexclusive, h.noFile, ?_, h.returned, tail, ?_, hsent⟩
      · intro t' p' hp'
        rcases calls_update hp' with ⟨-, rfl⟩ | ⟨-, hp'⟩
        · exact hout
        · exact h.onWay t' p' hp'
      · have hnew : Threads.UnderWay _ fd
            (if (p.goTo .sizing).call.fdToSendTo = fd then (p.goTo .sizing).out else []) :=
          underWay_update (s := s) (k := s.kernel.lock) (t := t) rfl fun t' p' _ hp' =>
            h.exclusive.nobody hfree hp'
        rwa [hout, ite_self, ← hempty] at hnew
  | @inner p q bs k hp hin hq hstep hcall hout hk =>
      have hway : q.OnWay := by
        have hnext := Putting.step_onWay (h.onWay t p hp) s.kernel
        rwa [hstep] at hnext
      refine ⟨hexclusive, hk.noFile h.noFile, fun t' p' hp' => ?_, h.returned, _,
        underWay_update hq fun t' p' => h.exclusive.others hp hin, ?_⟩
      · rcases calls_update hp' with ⟨-, rfl⟩ | ⟨-, hp'⟩
        · exact hway
        · exact h.onWay t' p' hp'
      · show k.sent fd = s₀.kernel.sent fd ++ s.sentTo fd ++ _
        rw [h.tail hp hin htail] at hsent
        rw [hk.sent h.noFile, hcall, hout, hsent]
        split
        · simp only [List.append_assoc]
        · rfl
  | @unlock p ret hp hplace =>
      have hin : p.inside := by simp only [Putting.inside, hplace]
      have hended : (p.goTo (.back ret)).Ended ret := by
        have hway := h.onWay t p hp
        simp only [Putting.OnWay, hplace] at hway
        exact hway
      refine ⟨hexclusive, h.noFile, fun t' p' hp' => h.onWay t' p' (calls_leave hp').2,
        fun r hr => ?_, [], Or.inr ⟨rfl, fun t' p' hp' hin' => ?_⟩, ?_⟩
      · rcases List.mem_append.mp hr with hr | hr
        · exact h.returned r hr
        · rw [List.mem_singleton] at hr
          subst hr
          exact ⟨ret, rfl, hended⟩
      · obtain ⟨hne, hp'⟩ := calls_leave hp'
        rw [h.exclusive.others hp hin hne hp'] at hin'
        cases hin'
      · show s.kernel.sent fd = _
        rw [hsent, h.tail hp hin htail, List.append_nil, List.append_assoc]
        congr 1
        simp only [sentTo, List.filter_append, List.flatMap_append]
        congr 1
        by_cases hto : p.call.fdToSendTo = fd
        · simp [hto, Putting.goTo]
        · simp [hto, Putting.goTo]

theorem Orderly.step (h : Orderly fd s₀ s) {e : ThreadEvent ι} (hs : Step (Keeps fd) s e s') :
    Orderly fd s₀ s' := by
  obtain ⟨hnext, hothers⟩ := hs
  cases e with
  | call t c =>
      simp only [next] at hnext
      split at hnext
      · rename_i ht
        rw [Option.some.injEq] at hnext
        subst hnext
        exact h.call ht
      · cases hnext
  | run t => exact h.run (run_case (fun p hp => h.exclusive.not_back hp) hnext)
  | other k =>
      obtain ⟨hheld, hsent, hfile⟩ := hothers k rfl
      simp only [next, Option.some.injEq] at hnext
      subst hnext
      refine ⟨h.exclusive.other hheld, hfile, h.onWay, h.returned, ?_⟩
      obtain ⟨tail, htail, heq⟩ := h.sent
      exact ⟨tail, htail, hsent.trans heq⟩

end Threads

namespace Putting

variable {p : Putting}

/-- What a call has written when it is over: a frame if it returns
`DONE_SENDING`, a part of one if it fails. -/
def Wrote (p : Putting) : Prop :=
  ∃ payload, (p.place = .back .doneSending ∧ p.out = putFrame (p.call.tempFileName, payload)) ∨
    (p.place = .back .bigFailure ∧ p.out <+: putFrame (p.call.tempFileName, payload) ∧
      p.out ≠ putFrame (p.call.tempFileName, payload))

theorem frame_eq {body : Bytes} (h : body.length = p.fileSize) :
    p.frame body = putFrame (p.call.tempFileName, body) := by
  simp only [frame, putFrame, h]

theorem wrote_of_ended {ret : Ret} (hp : p.place = .back ret) (h : p.Ended ret) : p.Wrote := by
  obtain ⟨body, hlen, hpre, hor⟩ := h
  rw [frame_eq hlen] at hpre hor
  rcases hor with ⟨rfl, hwhole⟩ | ⟨rfl, hpart⟩
  · exact ⟨body, Or.inl ⟨hp, hwhole⟩⟩
  · exact ⟨body, Or.inr ⟨hp, hpre, hpart⟩⟩

theorem OnWay.part (h : p.OnWay) : ∃ payload, p.out <+: putFrame (p.call.tempFileName, payload) := by
  have hended : ∀ {ret}, p.Ended ret → ∃ payload, p.out <+: putFrame (p.call.tempFileName, payload) := by
    rintro ret ⟨body, hlen, hpre, -⟩
    exact ⟨body, frame_eq hlen ▸ hpre⟩
  have hnothing : p.out = [] → ∃ payload, p.out <+: putFrame (p.call.tempFileName, payload) :=
    fun hout => ⟨[], hout ▸ List.nil_prefix⟩
  have hmiddle : (∃ body, p.out ++ p.pending = p.frame body ∧ body.length + p.missing = p.fileSize) →
      ∃ payload, p.out <+: putFrame (p.call.tempFileName, payload) := by
    rintro ⟨body, hout, hlen⟩
    refine ⟨body ++ List.replicate p.missing 0, ?_⟩
    rw [← frame_eq (by simp [hlen])]
    have hframe : p.frame (body ++ List.replicate p.missing 0) =
        p.out ++ (p.pending ++ List.replicate p.missing 0) := by
      rw [← List.append_assoc, hout]
      simp only [frame, List.append_assoc]
    exact hframe ▸ List.prefix_append _ _
  unfold OnWay at h
  split at h
  · exact hnothing h
  · exact hnothing h
  · exact hended h
  · exact hended h
  · exact hmiddle h

end Putting

namespace Threads

variable {ι : Type*} [DecidableEq ι] {s s' s₀ : Threads ι} {fd : Int}

/-- **Frames do not get mixed up** on a connection, whoever calls `do_put` and
whenever: one thread at a time is inside, every call that has returned has
written a whole frame or a part of one, and what has been sent is what these
calls have written, in the order in which they have returned, and behind it a
part of the frame of the thread that is inside now. -/
theorem frames_apart (hcalls : ∀ t, s₀.calls t = none) (hreturned : s₀.returned = [])
    (hfree : s₀.kernel.held = false) (hfd : s₀.kernel.NoFile fd)
    (h : Reach (Step (Keeps fd)) s₀ s) :
    (∀ t t' p p', s.calls t = some p → p.inside → s.calls t' = some p' → p'.inside → t = t') ∧
    (∀ r ∈ s.returned, r.2.Wrote) ∧
    ∃ tail, s.kernel.sent fd = s₀.kernel.sent fd ++ s.sentTo fd ++ tail ∧
      (tail = [] ∨ ∃ t p payload, s.calls t = some p ∧ p.inside ∧ p.call.fdToSendTo = fd ∧
        p.out = tail ∧ tail <+: putFrame (p.call.tempFileName, payload)) := by
  have horderly : Orderly fd s₀ s :=
    h.invariant (.start hcalls hreturned hfree hfd) fun _ _ _ _ horderly hs => horderly.step hs
  refine ⟨horderly.exclusive.one, ?_, ?_⟩
  · intro r hr
    obtain ⟨ret, hplace, hended⟩ := horderly.returned r hr
    exact Putting.wrote_of_ended hplace hended
  · obtain ⟨tail, htail, hsent⟩ := horderly.sent
    refine ⟨tail, hsent, ?_⟩
    rcases htail with ⟨t, p, hp, hin, hto, rfl⟩ | ⟨htail, -⟩
    · obtain ⟨payload, hpre⟩ := (horderly.onWay t p hp).part
      exact Or.inr ⟨t, p, payload, hp, hin, hto, rfl, hpre⟩
    · exact Or.inl htail

def runs (s : Threads ι) : List (ThreadEvent ι) → Option (Threads ι)
  | [] => some s
  | e :: es => (s.next e).bind fun s => s.runs es

theorem runs_reach {others : Threads ι → Kernel → Prop} {es : List (ThreadEvent ι)}
    (hes : es.all ThreadEvent.ofPut) (h : s.runs es = some s') : Reach (Step others) s s' := by
  induction es generalizing s with
  | nil =>
      obtain rfl : s = s' := Option.some.inj h
      exact .refl
  | cons e es ih =>
      obtain ⟨s₁, hnext, hrest⟩ := Option.bind_eq_some_iff.mp h
      rw [List.all_cons, Bool.and_eq_true] at hes
      refine Relation.ReflTransGen.head ⟨e, hnext, fun k hk => ?_⟩ (ih hes.2 hrest)
      rw [hk] at hes
      cases hes.1

/-- An event loop and a detector that both send an empty file to descriptor 5. -/
def twoSenders : Threads Bool where
  kernel := { (Master.init id).kernel with desc := fun fd => if fd = 5 then some .sock else none }
  calls := fun _ => none
  returned := []

/-- The second one gets the mutex first; the first one is in its frame. -/
def twoFrames : List (ThreadEvent Bool) :=
  [.call true ⟨5, [97], 7, {}⟩, .call false ⟨5, [98], 8, {}⟩] ++
    List.replicate 9 (.run false) ++ List.replicate 4 (.run true)

theorem frames_apart_two :
    ∃ s, twoSenders.runs twoFrames = some s ∧
      (∀ r ∈ s.returned, r.2.Wrote) ∧
      s.kernel.sent 5 = putFrame ([98], []) ++ putHeader [97] := by
  refine ⟨_, rfl, ?_, by decide⟩
  have hfile : twoSenders.kernel.NoFile 5 := fun path off h => by simp [twoSenders] at h
  have hofPut : twoFrames.all ThreadEvent.ofPut := by decide
  exact (frames_apart (fun t => (rfl : twoSenders.calls t = none)) rfl rfl hfile
    (runs_reach hofPut rfl)).2.1

end Threads

end KeyLime
