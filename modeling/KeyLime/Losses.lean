import KeyLime.Targets
import KeyLime.Delivery
import KeyLime.Effects

/-!
# Failed forwards

The scheduler's books are changed before `do_put` is called, and are not
changed back when it fails. So a failure loses the task of the frame, in
the one direction because a record is left with a task it was never sent,
in the other because a task is off its list without its result; unless
there was no record to give the task to, or no task to take off.

* `Recoverable` is what one would want: no task has been lost in the step, and
  one made in it is on `task_list`, or with a record that has been sent it.
* `Spared` is when it holds, a condition on the state before the call. Either
  way it is luck: nobody could be given the task, or it was on no list.

Both directions need what a failed `do_put` has written, which is less than the
frame (`doPut_failed`), so that the worker with the task does not have the
program.
-/

namespace KeyLime

open Bookkeeping

namespace Master

variable {m m' m₁ : Master} {fd : Int} {p q : Nat} {io : DataIo} {arrived : List Item}
  {name : Bytes} {ret : Ret} {k : Kernel} {t : Task}

/-- No task has been lost in the step, and one made in it is on `task_list`,
or on the list of a record to whose connection its frame was written. -/
structure Recoverable (m m' : Master) (stored : Bytes) : Prop where
  kept : ∀ t, m.ledger.Holds t → m'.ledger.Holds t
  placed : ∀ t ∈ madeTasks (newLog m m'), t ∈ m'.taskList
    ∨ ∃ q ∈ m'.workerList, t ∈ (m'.heap q).tasks
      ∧ m'.kernel.sent (m'.heap q).workerFd =
        m.kernel.sent (m'.heap q).workerFd ++ frame putVerb t.fileName stored

/-- A submission finds no record, other than its own, that could be given the
task; a result finds no task of its name on the list of its record. -/
def Spared (m : Master) (fd : Int) (p : Nat) (v : Command) (name : Bytes) : Prop :=
  if m.Submits fd p v then ∀ q, q ≠ p → ¬ m.Eligible q
  else name ∉ (m.heap p).tasks.map Task.fileName

theorem frame_length (name stored : Bytes) :
    (frame putVerb name stored).length = (putHeader name).length + 8 + stored.length := by
  simp only [frame, putHeader, List.length_append, sizeBytes_length]

theorem getFileSize_le (k : Kernel) (name : Bytes) (ok : Bool) :
    getFileSize k name ok ≤ ((k.store (k.resolve name)).getD []).length := by
  unfold getFileSize
  split <;> omega

theorem doPut_failed {w : Worker} {pio : PutIo} {k₁ : Kernel} {dst : Int}
    (hname : w.tempFileName = some name) (hdst : k.desc dst = some .sock)
    (ho : w.Opened k) (hsrc : w.tempFd = -1 → dst ≠ -1)
    (h : doPut k dst w pio = some (.bigFailure, k₁)) :
    k₁.sent dst ≠ k.sent dst ++ frame putVerb name ((k.store (k.resolve name)).getD []) := by
  have hne : w.tempFd ≠ dst := fun heq => by
    by_cases h1 : w.tempFd = -1
    · exact hsrc h1 (heq.symm.trans h1)
    · obtain ⟨off, hd⟩ := ho h1
      rw [heq, hdst] at hd
      cases hd
  obtain ⟨bs, hends⟩ := doPut_spec hname hdst hne h
  have hlt := (hends.failed nofun).2
  have hle := getFileSize_le k name pio.fopenOk
  intro heq
  rw [hends.delivered.sent, Function.update_self] at heq
  have := congrArg List.length (List.append_cancel_left heq)
  rw [frame_length] at this
  omega

theorem Conserved.newTask_fresh (hc : Conserved m) (p : Nat) (name : Bytes) :
    ¬ m.ledger.Holds (m.newTask p name) := by
  rw [Ledger.holds_iff_tally]
  have h := hc.tally (· = m.newTask p name)
  have hmade : (madeTasks m.log).countP (· = m.newTask p name) = 0 :=
    List.countP_eq_zero.mpr fun t ht heq => by
      have := hc.lt t ht
      rw [of_decide_eq_true heq] at this
      exact absurd this (Nat.lt_irrefl _)
  omega

theorem forwarded_workerFd (q : Nat) :
    ((m.forwarded fd p ret k).heap q).workerFd = (m.heap q).workerFd := by
  by_cases hq : q = p
  · rw [hq, forwarded_self]
    rfl
  · simp [forwarded, record, hq]

theorem submitted_failed (hr : Registry m) (hready : Ready m) (hc : Conserved m)
    (hname : (m.heap p).tempFileName = some name)
    (hput : doPut (m.submitted p name).kernel ((m.submitted p name).heap p).fdToSendTo
      ((m.submitted p name).heap p) io.put = some (.bigFailure, k))
    (heq : m' = (m.submitted p name).forwarded fd p .bigFailure k) :
    (m.newTask p name ∈ m'.taskList
      ∨ ∃ q ∈ m'.workerList, m.newTask p name ∈ (m'.heap q).tasks
        ∧ m'.kernel.sent (m'.heap q).workerFd = m.kernel.sent (m'.heap q).workerFd
          ++ frame putVerb name ((m.kernel.store (m.kernel.resolve name)).getD []))
      ↔ m.bestWorker = none := by
  have hledger : m'.ledger = m.ledger.place m.bestWorker (m.newTask p name) := by
    rw [heq, forwarded_ledger, submitted_ledger]
  have hpool : m'.taskList = (m.ledger.place m.bestWorker (m.newTask p name)).pool :=
    congrArg Ledger.pool hledger
  have hlists : ∀ q, (m'.heap q).tasks =
      (m.ledger.place m.bestWorker (m.newTask p name)).lists q :=
    fun q => congrFun (congrArg Ledger.lists hledger) q
  have hfresh := hc.newTask_fresh p name
  have hsame := submitted_same (p := p) hr.ranged name
  cases hb : m.bestWorker with
  | none =>
      refine iff_of_true (Or.inl ?_) rfl
      rw [hpool, hb]
      exact List.mem_append_right _ (List.mem_singleton_self _)
  | some b =>
      refine iff_of_false ?_ nofun
      rintro (hmem | ⟨q, hq, hmem, hsent⟩)
      · rw [hpool, hb] at hmem
        exact hfresh (Or.inr hmem)
      · have hq' : q ∈ m.workerList := by
          rw [heq] at hq
          exact hsame.workerList ▸ hq
        have hqb : q = b := by
          by_contra hne
          rw [hlists, hb] at hmem
          have : m.newTask p name ∈ m.ledger.lists q := by
            simpa [Ledger.place, hne] using hmem
          exact hfresh (Or.inl ⟨q, hr.lt q hq', this⟩)
        subst hqb
        have hfd : (m'.heap q).workerFd = (m.heap q).workerFd := by
          rw [heq, forwarded_workerFd, hsame.workerFd]
        have htgt : m.target = (m.heap q).workerFd := by simp [target, hb]
        obtain ⟨ts, hself⟩ := submitted_self (m := m) (p := p) name
        have hopen : ((m.submitted p name).heap p).Opened m.kernel := by
          rw [hself]
          exact hready.opened p
        have hsock := hr.isOpen q hq'
        rw [submitted_kernel, hself, htgt] at hput
        rw [hself] at hopen
        refine doPut_failed (k := m.kernel.lock.unlock) hname hsock hopen (fun _ => hr.ranged.ne hsock) hput ?_
        rw [hfd] at hsent
        rw [heq] at hsent
        exact hsent

theorem answered_failed (hr : Registry m) (hc : Conserved m) (hat : At m fd p)
    (hfd : fd ≠ m.interfaceFd) (heq : m' = (m.answered p name).forwarded fd p ret k) :
    (∀ t, m.ledger.Holds t → m'.ledger.Holds t) ↔ name ∉ (m.heap p).tasks.map Task.fileName := by
  have hc' : Conserved m' := heq ▸ forwarded_conserved (answered_conserved hr hc name)
  have hledger : m'.ledger = (m.schedulerRemoveTask (m.heap p).workerFd name).ledger := by
    rw [heq, forwarded_ledger, answered_ledger]
  have hlog : removedTasks m'.log = removedTasks m.log ++ (m.answeredTask fd name).toList := by
    rw [heq, forwarded_log, answered_log, hat.workerFd, List.append_assoc, removedTasks_append]
    cases m.answeredTask fd name <;> rfl
  rw [schedulerRemoveTask_ledger, hat.workerFd] at hledger
  rw [← hat.answeredTask_iff hr hfd]
  cases hf : m.finds fd name with
  | none =>
      rw [hf] at hledger
      exact iff_of_true (fun t h => hledger ▸ h) (by simp [answeredTask, hf])
  | some qi =>
      obtain ⟨t, ht, hn, hq, -⟩ := finds_spec hf
      have hans : m.answeredTask fd name = some t := by simp [answeredTask, hf, ht]
      refine iff_of_false (fun hkept => ?_) fun hno => hno ⟨t, hans, hn⟩
      -- a task that was removed is on no list
      have hheld := hkept t (Or.inl ⟨qi.1, hr.lt _ hq, List.mem_of_getElem? ht⟩)
      rw [Ledger.holds_iff_tally] at hheld
      have htally := hc'.tally (· = t)
      have hone := List.nodup_iff_count_le_one.mp hc'.nodup t
      have hrem : 0 < (removedTasks m'.log).countP (· = t) :=
        List.countP_pos_iff.mpr ⟨t, by simp [hlog, hans], by simp⟩
      have hcount : (madeTasks m'.log).countP (· = t) = (madeTasks m'.log).count t :=
        List.countP_congr fun _ _ => by simp
      omega

/-- **Failed forwards.** When `do_put` fails, the task concerned can still be
recovered exactly when the books had not been changed for it (`Spared`): a
submission finds no record but its own that could be given the task, and a
result finds no task of its name. In all other cases `handle_data` has given the
task away, or removed it, in front of the call, and does nothing about it behind. -/
theorem failed_forward_iff {sub : Bool} {dst : Int} {v : Command} {stored : Option Bytes}
    (hr : Reachable m) (hs : Step m (.data fd arrived io) m') (hcur : m.current fd = some p)
    (hfail : .forward q sub dst v name stored .bigFailure ∈ newLog m m') :
    Recoverable m m' (stored.getD []) ↔ m.Spared fd p v name := by
  obtain ⟨p', hat, hready0, hr0, hat0, hd, hcase⟩ := hs.call hr
  obtain rfl := hat.unique hcur
  have hforward : ¬ OfParser p (.forward q sub dst v name stored .bigFailure) := by
    rintro (⟨_, _, _, h⟩ | ⟨_, h⟩) <;> cases h
  have hnone : ∀ {m₁ : Master}, ParserOnly p (m.arriving fd arrived) m₁ → m' = m₁ → False :=
    fun hp heq => nomatch hp.mem_rest (l := []) (heq ▸ (List.append_nil _).symm) hfail hforward
  have hc0 : Conserved (m.arriving fd arrived) :=
    ⟨hr.conserved.tally, hr.conserved.nodup, hr.conserved.lt⟩
  rcases hcase with ⟨-, rfl⟩ | ⟨halive, hcase⟩
  · exact (hnone (.refl _ p) rfl).elim
  · cases hcase with
    | unfinished f hpar hst heq => exact (hnone (parsePhase_parserOnly hpar) heq).elim
    | dropped m₁ hpar hst hfd hal heq => exact (hnone (parsePhase_parserOnly hpar) heq).elim
    | submitted m₁ name₁ ret k hpar hst hname hfd hput heq =>
        have hp : ParserOnly p (m.arriving fd arrived) m₁ := parsePhase_parserOnly hpar
        have hr1 : Registry m₁ := hr0.change hat0 (parsePhase_change hr0 hat0 hpar)
        have hready1 : Ready m₁ := parsePhase_ready hready0 hr0 hat0 hd halive hpar
        obtain ⟨v₁, name₂, got, hcomp⟩ := parsePhase_complete hready0 hat0 halive hpar hst
        obtain ⟨ts, hself⟩ := submitted_self (m := m₁) (p := p) name₁
        have hlog := forwarded_log (m := m₁.submitted p name₁) (p := p) fd ret k
        rw [submitted_log, List.append_assoc, ← heq, hself, submitted_kernel] at hlog
        have hmem := hp.mem_rest (m := m.arriving fd arrived) hlog hfail hforward
        simp only [List.cons_append, List.nil_append, List.mem_cons, List.not_mem_nil,
          reduceCtorEq, or_false, false_or, Obs.forward.injEq, hname, Option.getD_some] at hmem
        obtain ⟨-, -, -, rfl, rfl, rfl, rfl⟩ := hmem
        have hsub : m.Submits fd p (m₁.heap p).toDo :=
          (hcomp.verb ▸ hcomp.interface_iff hr0 hat0 hpar hst).mp hfd
        have hsent : m₁.kernel.sent = m.kernel.sent :=
          parsePhase_sent hr0 hat0 (hready0.sound p) (hready0.opened p) hpar
        have hmade := (submitted_views (m := m.arriving fd arrived) hp heq).1
        change madeTasks (newLog m m') = _ at hmade
        have hfailed := submitted_failed hr1 hready1 (hp.conserved hc0) hname hput heq
        have hkept : ∀ t, m.ledger.Holds t → m'.ledger.Holds t := fun t ht => by
          rw [heq, forwarded_ledger, submitted_ledger]
          have ht1 : m₁.ledger.Holds t := by
            rw [show m₁.ledger = m.ledger from hp.ledger]
            exact ht
          exact ht1.place (bestWorker_lt hr1)
        rw [Spared, if_pos hsub]
        have helig : m₁.bestWorker = none ↔ ∀ q, q ≠ p → ¬ m.Eligible q := by
          rw [bestWorker_eq_none]
          refine forall_congr' fun q => ?_
          rw [parsePhase_eligible hr0 hat0 hpar hfd q, not_and]
          exact Iff.rfl
        rw [← helig, ← hfailed, hsent]
        constructor
        · intro h
          exact h.placed _ (hmade ▸ List.mem_singleton_self _)
        · intro h
          refine ⟨hkept, ?_⟩
          intro t ht
          rw [hmade, List.mem_singleton] at ht
          exact ht ▸ h
    | answered m₁ name₁ ret k hpar hst hname hfd hal hput heq =>
        have hp : ParserOnly p (m.arriving fd arrived) m₁ := parsePhase_parserOnly hpar
        have hchange := parsePhase_change hr0 hat0 hpar
        have hr1 : Registry m₁ := hr0.change hat0 hchange
        obtain ⟨v₁, name₂, got, hcomp⟩ := parsePhase_complete hready0 hat0 halive hpar hst
        obtain ⟨ts, hself⟩ := answered_self (m := m₁) (p := p) name₁
        have hlog := forwarded_log (m := m₁.answered p name₁) (p := p) fd ret k
        rw [answered_log, List.append_assoc, ← heq, hself] at hlog
        have hmem := hp.mem_rest (m := m.arriving fd arrived) hlog hfail hforward
        simp only [List.cons_append, List.nil_append, List.mem_cons, List.not_mem_nil,
          reduceCtorEq, or_false, false_or, Obs.forward.injEq, hname, Option.getD_some] at hmem
        obtain ⟨-, -, -, rfl, rfl, -, rfl⟩ := hmem
        have hsub : ¬ m.Submits fd p (m₁.heap p).toDo := fun h =>
          hfd ((hcomp.verb ▸ hcomp.interface_iff hr0 hat0 hpar hst).mpr h)
        have hmade := (answered_views (m := m.arriving fd arrived) hp heq).1
        change madeTasks (newLog m m') = _ at hmade
        have hfailed := answered_failed hr1 (hp.conserved hc0)
          (hat0.change hr0 hchange) hfd heq
        rw [show m₁.ledger = m.ledger from hp.ledger,
          show (m₁.heap p).tasks = (m.heap p).tasks from hp.tasks p] at hfailed
        rw [Spared, if_neg hsub, ← hfailed]
        refine ⟨fun h => h.kept, fun h => ⟨h, ?_⟩⟩
        intro t ht
        rw [hmade] at ht
        cases ht

/-- With no worker there, a submission is kept. -/
theorem failed_forward_iff_parked :
    ∃ m m', Reachable m ∧ Step m (.data 5 (submitFrame.map .byte) {}) m'
      ∧ Recoverable m m' [120] := by
  obtain ⟨m, m', hr, hs, hv⟩ := execStep_spec id (v := true)
    ([.accept [⟨5, [], default⟩]]) (e := .data 5 (submitFrame.map .byte) {})
    (f := fun m m' => decide (m.current 5 = some 0 ∧ m.workerList = [0]
      ∧ m.Submits 5 0 .interfacePut
      ∧ .forward 0 true (-1) .interfacePut [97] (some [120]) .bigFailure ∈ newLog m m'))
    (by decide +kernel)
  obtain ⟨hcur, hlist, hsub, hfail⟩ := of_decide_eq_true hv
  refine ⟨m, m', hr, hs, (failed_forward_iff hr hs hcur hfail).mpr ?_⟩
  rw [Spared, if_pos hsub]
  rintro q hq ⟨hmem, -⟩
  rw [hlist, List.mem_singleton] at hmem
  exact hq hmem

/-- A worker answers when the interface has gone: its task is on no list, and
nobody has the result. -/
theorem result_lost :
    ∃ m m', Reachable m ∧ Step m (.data 6 (resultFrame.map .byte) {}) m'
      ∧ m.current 6 = some 1
      ∧ .forward 1 false (-1) .put [97] (some [120]) .bigFailure ∈ newLog m m'
      ∧ (∃ t, t.fileName = [97] ∧ m.ledger.Holds t ∧ ¬ m'.ledger.Holds t)
      ∧ ¬ Recoverable m m' [120] := by
  obtain ⟨m, m', hr, hs, hv⟩ := execStep_spec id (v := true)
    ([.accept [⟨5, [], default⟩, ⟨6, [], default⟩], .data 5 (submitFrame.map .byte) {},
      .data 5 [.eof] {}])
    (e := .data 6 (resultFrame.map .byte) {})
    (f := fun m m' => decide (m.current 6 = some 1
      ∧ .forward 1 false (-1) .put [97] (some [120]) .bigFailure ∈ newLog m m'
      ∧ (m.heap 1).tasks = [⟨0, [97], 0, 0⟩] ∧ m.nextWorker = 2 ∧ m'.nextWorker = 2
      ∧ (m'.heap 0).tasks = [] ∧ (m'.heap 1).tasks = [] ∧ m'.taskList = []))
    (by decide +kernel)
  obtain ⟨hcur, hfail, htask, hn, hn', h0, h1, hpool⟩ := of_decide_eq_true hv
  have hheld : m.ledger.Holds ⟨0, [97], 0, 0⟩ := Or.inl ⟨1, by simp [ledger, hn], by
    simp [ledger, htask]⟩
  have hlost : ¬ m'.ledger.Holds ⟨0, [97], 0, 0⟩ := by
    rintro (⟨i, hi, hmem⟩ | hmem)
    · change i < m'.nextWorker at hi
      change _ ∈ (m'.heap i).tasks at hmem
      obtain rfl | rfl : i = 0 ∨ i = 1 := by omega
      · rw [h0] at hmem
        cases hmem
      · rw [h1] at hmem
        cases hmem
    · change _ ∈ m'.taskList at hmem
      rw [hpool] at hmem
      cases hmem
  exact ⟨m, m', hr, hs, hcur, hfail, ⟨_, rfl, hheld, hlost⟩, fun h => hlost (h.kept _ hheld)⟩

end Master

end KeyLime
