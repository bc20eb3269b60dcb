import KeyLime.Descriptors
import KeyLime.Possession
import KeyLime.Settling

/-!
# Who holds the worker's descriptors

The main thread holds the socket until it closes it, the executable it is
storing, and the output file of the task it is pushing; every other open
descriptor is that of the output of one task that is on its way. The one
exception is a task that the sending thread has given up: nobody closes its
output (`descriptors_held`).

`held` is the multiset of what the main thread and the tasks on their way have,
and `Handled` says that what is open is exactly this, and one more for each task
given up, of which there is one at most. A step of the main thread opens or
closes what it holds, and the sending thread closes the output of the task it has
sent; a task on its way carries its descriptor along through both queues and the
tasking threads, so that a step there does not change the multiset
(`Flow.outputFds`).

When the threads have settled with nothing given up there is no task on its way,
and the socket alone is open.
-/

namespace KeyLime

open Bookkeeping

/-! ## The kernel -/

namespace Kernel

variable {k k' k'' : Kernel} {fd g : Int}

structure SameOpen (k k' : Kernel) : Prop where
  desc : ∀ g, k'.desc g = none ↔ k.desc g = none
  nextFd : k'.nextFd = k.nextFd

theorem SameOpen.refl (k : Kernel) : k.SameOpen k := ⟨fun _ => Iff.rfl, rfl⟩

theorem SameOpen.trans (h : k.SameOpen k') (h' : k'.SameOpen k'') : k.SameOpen k'' :=
  ⟨fun g => (h'.desc g).trans (h.desc g), h'.nextFd.trans h.nextFd⟩

theorem SameOpen.ranged (h : k.SameOpen k') (hr : k.Ranged) : k'.Ranged := fun g hg => by
  rw [h.nextFd]
  exact hr g fun hnone => hg ((h.desc g).mpr hnone)

theorem put_sameOpen (k : Kernel) (fd : Int) (bs : Bytes) : k.SameOpen (k.put fd bs) := by
  refine ⟨fun g => put_desc_eq_none k fd g bs, ?_⟩
  unfold put
  split
  · rfl
  · split <;> rfl

theorem SameOpen.of_offset {d d' : Desc} (hd : k.desc fd = some d)
    (hk : k' = { k with desc := Function.update k.desc fd (some d') }) : k.SameOpen k' := by
  subst hk
  refine ⟨?_, rfl⟩
  intro g
  by_cases hg : g = fd
  · subst hg
    simp [hd]
  · simp [hg]

theorem readFile_sameOpen (k : Kernel) (fd : Int) (n : Nat) : k.SameOpen (k.readFile fd n).2 := by
  unfold readFile
  split
  · rename_i path off hd
    exact .of_offset hd rfl
  · exact .refl k

theorem rewind_sameOpen (k : Kernel) (fd : Int) : k.SameOpen (k.rewind fd) := by
  unfold rewind
  split
  · rename_i path off hd
    exact .of_offset hd rfl
  · exact .refl k

theorem close_isOpen : (k.close fd).desc g ≠ none ↔ k.desc g ≠ none ∧ g ≠ fd := by
  by_cases hg : g = fd
  · simp [close, hg]
  · simp [close, hg]

theorem write_sameOpen (k : Kernel) (bs : Bytes) (short : Option Nat) :
    k.SameOpen (Pipeline.write k bs short).2 := by
  unfold Pipeline.write
  split
  · exact .refl k
  · cases short <;> exact put_sameOpen ..

theorem open_possessed {holders : Multiset Int} (hr : k.Ranged) (name : Bytes) (ok : Bool)
    (h : Possessed (k.desc · ≠ none) (-1) holders) :
    Possessed ((k.openWithAllPermission name ok).2.desc · ≠ none) (-1)
      ((k.openWithAllPermission name ok).1 ::ₘ holders) := by
  cases ok with
  | false => exact h.fail
  | true =>
      have hfresh : ¬ k.desc k.nextFd ≠ none := fun hopen => lt_irrefl _ (hr k.nextFd hopen).2
      refine h.open hfresh (show (k.nextFd : Int) ≠ -1 by omega) fun g => ?_
      by_cases hg : g = k.nextFd
      · simp [openWithAllPermission, hg]
      · simp [openWithAllPermission, hg]

theorem Ranged.close (hr : k.Ranged) : (k.close fd).Ranged :=
  fun g hg => hr g (close_isOpen.mp hg).1

end Kernel

/-! ## The holders -/

/-- The descriptors the main thread holds. -/
def MainPc.holds : MainPc → Multiset Int
  | .receiving | .opening .. | .creating .. | .killing | .closing => {socketFd}
  | .storing _ fd _ _ => {fd, socketFd}
  | .pushing t _ => {t.outputFd, socketFd}
  | _ => 0

namespace Pipeline

variable {exec : Bytes → Bytes} {s s' : Pipeline} {e : PipelineEvent} {i : Fin numThread}
  {lost : Multiset Int}

/-- The descriptors of the outputs of the tasks on their way. -/
def outputFds (s : Pipeline) : Multiset Int := s.inFlight.map fun x => x.1.outputFd

def held (s : Pipeline) : Multiset Int := s.main.holds + s.outputFds

/-- Every open descriptor has one holder, or is one of the `lost`: these are the
outputs of the tasks the sending thread has given up, which nobody closes. -/
structure Handled (s : Pipeline) (lost : Multiset Int) : Prop where
  ranged : s.kernel.Ranged
  possessed : Possessed (s.kernel.desc · ≠ none) (-1) (s.held + lost)
  card : lost.card = s.abandoned.length
  /-- The sending thread gives up once, and exits. -/
  once : s.abandoned.length ≤ 1
  given : s.sending ≠ .exited → s.abandoned = []

theorem Flow.outputFds (h : Flow s s') (haccepted : s'.accepted = s.accepted)
    (hsent : s'.sent = s.sent) (habandoned : s'.abandoned = s.abandoned) :
    s'.outputFds = s.outputFds := by
  unfold Pipeline.outputFds
  cases h with
  | still hflight => rw [hflight]
  | accept t payload hpc hflight hacc =>
      rw [haccepted] at hacc
      simp at hacc
  | move t ph ph' rest hflight hflight' | start t ph' rest hflight hflight' =>
      rw [hflight, hflight', Multiset.map_cons, Multiset.map_cons]
  | send t ph body hflight hfresh hacc hstarted hs =>
      rw [hsent] at hs
      simp at hs
  | giveUp t ph hflight hfresh hacc hstarted hs hab =>
      rw [habandoned] at hab
      simp at hab

theorem held_congr (hmain : s'.main.holds = s.main.holds) (hfds : s'.outputFds = s.outputFds) :
    s'.held = s.held := by
  rw [held, held, hmain, hfds]

theorem held_cons {fd : Int} (hmain : s'.main.holds = fd ::ₘ s.main.holds)
    (hfds : s'.outputFds = s.outputFds) : s'.held = fd ::ₘ s.held := by
  rw [held, held, hmain, hfds, Multiset.cons_add]

theorem Handled.keep (h : Handled s lost) (hr : s'.kernel.Ranged)
    (hpossessed : Possessed (s'.kernel.desc · ≠ none) (-1) (s'.held + lost))
    (habandoned : s'.abandoned = s.abandoned)
    (hsending : s'.sending ≠ .exited → s.sending ≠ .exited) : Handled s' lost where
  ranged := hr
  possessed := hpossessed
  card := by rw [habandoned]; exact h.card
  once := by rw [habandoned]; exact h.once
  given hex := by rw [habandoned]; exact h.given (hsending hex)

theorem Handled.same (h : Handled s lost) (hk : s.kernel.SameOpen s'.kernel)
    (hheld : s'.held = s.held) (habandoned : s'.abandoned = s.abandoned)
    (hsending : s'.sending ≠ .exited → s.sending ≠ .exited) : Handled s' lost := by
  refine h.keep (hk.ranged h.ranged) ?_ habandoned hsending
  rw [hheld]
  exact h.possessed.congr fun g => not_congr (hk.desc g)

theorem Handled.acquires {fd : Int} (h : Handled s lost) (hr : s'.kernel.Ranged)
    (hheld : s'.held = fd ::ₘ s.held)
    (hopen : Possessed (s.kernel.desc · ≠ none) (-1) (s.held + lost) →
      Possessed (s'.kernel.desc · ≠ none) (-1) (fd ::ₘ (s.held + lost)))
    (habandoned : s'.abandoned = s.abandoned) (hsending : s'.sending = s.sending) :
    Handled s' lost := by
  refine h.keep hr ?_ habandoned fun hex => hsending ▸ hex
  rw [hheld, Multiset.cons_add]
  exact hopen h.possessed

theorem Handled.closes {fd : Int} {k : Kernel} (h : Handled s lost) (hk : s.kernel.SameOpen k)
    (hkernel : s'.kernel = k.close fd) (hheld : s.held = fd ::ₘ s'.held)
    (habandoned : s'.abandoned = s.abandoned)
    (hsending : s'.sending ≠ .exited → s.sending ≠ .exited) : Handled s' lost := by
  have hranged : s'.kernel.Ranged := by
    rw [hkernel]
    exact (hk.ranged h.ranged).close
  refine h.keep hranged ?_ habandoned hsending
  have hpossessed := h.possessed
  rw [hheld, Multiset.cons_add] at hpossessed
  refine hpossessed.close fun g => ?_
  rw [hkernel, Kernel.close_isOpen]
  exact and_congr_left' (not_congr (hk.desc g))

/-! ## One step -/

theorem MainCase.handled (hs : MainCase s e s') (h : Handled s lost) (hlive : s'.main ≠ .exited) :
    Handled s' lost := by
  cases hs with
  | request name payload hpc | leave hpc | kill hpc | join i hpc | joined i hpc | joinSending hpc
  | joinHeartbeat hpc => exact h.same (.refl _) (held_congr (by rw [hpc]; rfl) rfl) rfl id
  | exit e hpc hto => exact (hlive rfl).elim
  | opened name payload hpc =>
      exact h.acquires (Kernel.open_extends h.ranged name true).ranged
        (held_cons (by rw [hpc]; rfl) rfl) (Kernel.open_possessed h.ranged name true) rfl rfl
  | store name fd rest payload hpc hmore =>
      exact h.same (Kernel.put_sameOpen ..) (held_congr (by rw [hpc]; rfl) rfl) rfl id
  | stored name fd rest payload hpc hlast =>
      exact h.closes (Kernel.put_sameOpen ..) rfl (held_cons (by rw [hpc]; rfl) rfl) rfl id
  | created name payload ok hpc =>
      exact h.acquires (Kernel.open_extends h.ranged (outputName name) ok).ranged
        (held_cons (by rw [hpc]; rfl) rfl)
        (Kernel.open_possessed h.ranged (outputName name) ok) rfl rfl
  | close hpc =>
      exact h.closes (.refl _) rfl (held_cons (by rw [hpc]; rfl) rfl) rfl id

theorem TaskingCase.handled (hs : TaskingCase exec s i e s') (h : Handled s lost) :
    Handled s' lost := by
  have hfds : s'.outputFds = s.outputFds := by
    obtain ⟨heq, -, -⟩ := hs.frame
    exact hs.flow.outputFds (by rw [heq]; rfl) (by rw [heq]; rfl) (by rw [heq]; rfl)
  have hk : s.kernel.SameOpen s'.kernel := by
    cases hs with
    | noShell => exact (Kernel.put_sameOpen ..).trans (Kernel.put_sameOpen ..)
    | _ => exact ⟨fun _ => Iff.rfl, rfl⟩
  obtain ⟨heq, -, -⟩ := hs.frame
  exact h.same hk (held_congr (by rw [heq]; rfl) hfds) (by rw [heq]; rfl) (by rw [heq]; exact id)

theorem job_of_task {pc : SendingPc} {t : WorkerTask} (h : pc.task = some t) :
    ∃ ph, pc.job = {(t, ph)} := by
  cases pc with
  | pulling | exited => cases h
  | header | measuring | body =>
      obtain rfl := Option.some.inj h
      exact ⟨_, rfl⟩

theorem held_of_sending {t : WorkerTask} (ht : s.sending.task = some t) (hjob : s'.sending.job = 0)
    (hframe : s'.main = s.main ∧ s'.tasks = s.tasks ∧ s'.tasking = s.tasking
      ∧ s'.finished = s.finished) : s.held = t.outputFd ::ₘ s'.held := by
  obtain ⟨hmain, htasks, htasking, hfinished⟩ := hframe
  obtain ⟨ph, hph⟩ := job_of_task ht
  rw [held, held, outputFds, outputFds, inFlight_sending s, inFlight_sending s', hph, hjob, hmain,
    htasks, htasking, hfinished, zero_add, Multiset.singleton_add, Multiset.map_cons,
    Multiset.add_cons]

theorem SendingCase.handled (hs : SendingCase s e s') (h : Handled s lost) :
    ∃ lost', Handled s' lost' := by
  have hflow := hs.flow
  cases hs with
  | header t name mem hpc hin =>
      have hk : s.kernel.SameOpen (s.kernel.put socketFd (createHeader name)) :=
        Kernel.put_sameOpen ..
      refine ⟨lost, h.same hk (held_congr rfl (hflow.outputFds rfl rfl rfl)) rfl ?_⟩
      rw [hpc]
      nofun
  | measure t mem hpc =>
      have hk : s.kernel.SameOpen ((s.kernel.rewind t.outputFd).put socketFd
          (sizeBytes (endOffset s.kernel t.outputFd))) :=
        (Kernel.rewind_sameOpen ..).trans (Kernel.put_sameOpen ..)
      refine ⟨lost, h.same hk (held_congr rfl (hflow.outputFds rfl rfl rfl)) rfl ?_⟩
      rw [hpc]
      nofun
  | block t remain mem buffer body bs hpc hremain hbs =>
      have hk : s.kernel.SameOpen
          ((s.kernel.readFile t.outputFd (blockSize remain)).2.put socketFd bs) :=
        (Kernel.readFile_sameOpen ..).trans (Kernel.put_sameOpen ..)
      refine ⟨lost, h.same hk (held_congr rfl (hflow.outputFds rfl rfl rfl)) rfl ?_⟩
      rw [hpc]
      nofun
  | sent t mem buffer short body hpc =>
      have ht : s.sending.task = some t := by rw [hpc]; rfl
      refine ⟨lost, h.closes (.refl _) rfl (held_of_sending ht rfl ⟨rfl, rfl, rfl, rfl⟩) rfl ?_⟩
      rw [hpc]
      nofun
  | giveUp t mem short k bs htask hk =>
      have hkernel : s.kernel.SameOpen (Pipeline.write k bs short).2 := by
        have hread : s.kernel.SameOpen k := by
          rcases hk with rfl | rfl | ⟨n, rfl⟩
          · exact .refl _
          · exact Kernel.rewind_sameOpen ..
          · exact Kernel.readFile_sameOpen ..
        exact hread.trans (Kernel.write_sameOpen k bs short)
      have hnone : s.abandoned = [] := h.given fun hex => by
        rw [hex] at htask
        cases htask
      have hheld : s.held = t.outputFd ::ₘ (s.giveUp t (Pipeline.write k bs short).2).held :=
        held_of_sending htask rfl ⟨rfl, rfl, rfl, rfl⟩
      have habandoned : (s.giveUp t (Pipeline.write k bs short).2).abandoned = [t.seq] := by
        show s.abandoned ++ [t.seq] = _
        rw [hnone, List.nil_append]
      refine ⟨t.outputFd ::ₘ lost, hkernel.ranged h.ranged, ?_, ?_, ?_, fun hex => (hex rfl).elim⟩
      · have hpossessed := h.possessed
        rw [hheld, Multiset.cons_add, ← Multiset.add_cons] at hpossessed
        exact hpossessed.congr fun g => not_congr (hkernel.desc g)
      · rw [Multiset.card_cons, h.card, hnone, habandoned]
        rfl
      · rw [habandoned]
        exact Nat.le_refl 1

theorem Flow.outputFds_accept {t : WorkerTask} {payload : Bytes} {x : Bytes × Bytes}
    (h : Flow s s') (hpc : s.main = .pushing t payload)
    (haccepted : s'.accepted = s.accepted ++ [x]) :
    s'.outputFds = t.outputFd ::ₘ s.outputFds := by
  cases h with
  | accept t' payload' hpc' hflight =>
      obtain ⟨rfl, -⟩ := MainPc.pushing.inj (hpc.symm.trans hpc')
      rw [Pipeline.outputFds, hflight, Multiset.map_cons]
      rfl
  | still _ hacc | move _ _ _ _ _ _ _ hacc | start _ _ _ _ _ _ hacc | send _ _ _ _ _ hacc
  | giveUp _ _ _ _ hacc =>
      rw [haccepted] at hacc
      simp at hacc

theorem QueueCase.handled (hs : QueueCase s s') (ha : s.Accounts) (h : Handled s lost) :
    Handled s' lost := by
  obtain ⟨hk, hstarted, hsent, habandoned⟩ := hs.histories
  have hflow := (ha.queueFlow hs).flow hstarted hsent habandoned
  have hopen : s.kernel.SameOpen s'.kernel := ⟨fun g => by rw [hk], by rw [hk]⟩
  have hsame (hmain : s'.main.holds = s.main.holds) (haccepted : s'.accepted = s.accepted) :
      s'.held = s.held := held_congr hmain (hflow.outputFds haccepted hsent habandoned)
  cases hs with
  | accept t payload q hpc =>
      refine h.same hopen ?_ habandoned id
      rw [held, held, hflow.outputFds_accept hpc rfl, hpc]
      exact (Multiset.add_cons ..).trans (Multiset.cons_add ..).symm
  | task | finish | take | retire | hand => exact h.same hopen (hsame rfl rfl) habandoned id
  | endTask i q hpc =>
      refine h.same hopen (hsame ?_ rfl) habandoned id
      rw [hpc]
      show MainPc.holds (if i + 1 < numThread then .ending (i + 1) else .endingSender) = 0
      split <;> rfl
  | endSender q hpc => exact h.same hopen (hsame (by rw [hpc]; rfl) rfl) habandoned id
  | collect t q hpc =>
      refine h.same hopen (hsame rfl rfl) habandoned fun _ => ?_
      rw [hpc]
      nofun
  | stop t q hpc => exact h.same hopen (hsame rfl rfl) habandoned fun hex => (hex rfl).elim

theorem StepCase.handled (hs : StepCase exec s e s') (ha : s.Accounts) (h : Handled s lost)
    (hlive : s'.main ≠ .exited) : ∃ lost', Handled s' lost' := by
  cases hs with
  | main hs => exact ⟨lost, hs.handled h hlive⟩
  | tasking i hs => exact ⟨lost, hs.handled h⟩
  | sending hs => exact hs.handled h
  | heartbeat hs =>
      subst hs
      exact ⟨lost, h.same (.refl _) rfl rfl id⟩
  | queue hs => exact ⟨lost, hs.handled ha h⟩

/-! ## Every run -/

theorem start_handled (resolve : Bytes → Bytes) (store : Bytes → Option Bytes) :
    Handled (start resolve store) 0 where
  ranged := fun g hg => by
    have hsocket : g = socketFd := by
      by_contra hne
      exact hg (by simp [start, hne])
    rw [hsocket]
    exact ⟨by decide, show socketFd < ((4 : Nat) : Int) by decide⟩
  possessed := by
    have hheld : (start resolve store).held + 0 = {socketFd} := rfl
    constructor
    · intro g
      rw [hheld, Multiset.mem_singleton]
      by_cases hg : g = socketFd
      · simp [start, hg, socketFd]
      · simp [start, hg]
    · intro g _
      rw [hheld, Multiset.count_singleton]
      split <;> decide
  card := rfl
  once := Nat.zero_le 1
  given _ := rfl

theorem Reachable.handled (h : Reachable exec s) (hlive : s.main ≠ .exited) :
    ∃ lost, Handled s lost := by
  obtain ⟨resolve, store, h⟩ := h
  have hinv := h.invariant (I := fun s =>
      s.Wired ∧ s.Accounts ∧ (s.main ≠ .exited → ∃ lost, Handled s lost))
    ⟨start_wired resolve store, start_accounts resolve store,
      fun _ => ⟨0, start_handled resolve store⟩⟩ ?_
  · exact hinv.2.2 hlive
  · rintro s e s' - ⟨hw, ha, hh⟩ hs
    obtain ⟨hcase, hw', hlive, -⟩ := hw.step hs
    obtain ⟨lost, hlost⟩ := hh hlive
    exact ⟨hw', ha.step hcase, hcase.handled ha hlost⟩

/-- **Every descriptor has one holder.** In every state of a worker that has not
exited, each open descriptor is held by the main thread or by one task on its
way, but for one at most, of a task the sending thread has given up. And when
the threads have settled with nothing given up, only the socket is open. -/
theorem descriptors_held (h : Reachable exec s) (hlive : s.main ≠ .exited) :
    (∃ lost : Multiset Int, lost.card = s.abandoned.length ∧ s.abandoned.length ≤ 1
        ∧ Possessed (s.kernel.desc · ≠ none) (-1) (s.held + lost))
      ∧ (s.Settled → s.abandoned = [] → ∀ g, s.kernel.desc g ≠ none ↔ g = socketFd) := by
  obtain ⟨lost, hh⟩ := h.handled hlive
  refine ⟨⟨lost, hh.card, hh.once, hh.possessed⟩, ?_⟩
  intro hsettled hgiven g
  have hlost : lost = 0 := Multiset.card_eq_zero.mp (by rw [hh.card, hgiven]; rfl)
  have hflight : s.inFlight = 0 := by
    have hcard := congrArg Multiset.card h.accounts.2.places
    simp only [places, Multiset.card_add, Multiset.card_map, Multiset.coe_card, List.length_map,
      Multiset.card_range, hgiven, hsettled.answered hgiven, List.length_nil] at hcard
    exact Multiset.card_eq_zero.mp (by omega)
  rw [hh.possessed.isOpen_iff g, hlost, held, hsettled.1, outputFds, hflight]
  show g ∈ ({socketFd} : Multiset Int) ∧ _ ↔ _
  rw [Multiset.mem_singleton, and_iff_left_iff_imp]
  rintro rfl
  decide

/-- One task has been given up, and another one is in `task_queue`. -/
theorem descriptors_held_two :
    ∃ s lost, Reachable id s ∧ s.abandoned = [0] ∧ s.kernel.desc 5 ≠ none
      ∧ s.held = {7, socketFd} ∧ lost.card = 1
      ∧ Possessed (s.kernel.desc · ≠ none) (-1) (s.held + lost) := by
  have hexec : execRun id
      (requested [97] [1] 0 ++ through (.tasking 0) 0 ++ List.replicate 4 (.tasking 0 0)
        ++ through (.tasking 0) 0 ++ through .sending 0 ++ [.sending (fun _ => 0) (some 3)]
        ++ requested [98] [2] 0)
      (fun s => decide (s.main = .receiving ∧ s.abandoned = [0] ∧ s.kernel.desc 5 ≠ none
        ∧ s.held = {7, socketFd})) = some true := by decide +kernel
  obtain ⟨s, hr, hv⟩ := execRun_spec hexec
  obtain ⟨hmain, habandoned, hopen, hheld⟩ := of_decide_eq_true hv
  obtain ⟨⟨lost, hcard, -, hpossessed⟩, -⟩ := descriptors_held hr (by rw [hmain]; nofun)
  exact ⟨s, lost, hr, habandoned, hopen, hheld, by rw [hcard, habandoned]; rfl, hpossessed⟩

end Pipeline

end KeyLime
