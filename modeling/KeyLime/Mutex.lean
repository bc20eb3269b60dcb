import KeyLime.Call
import KeyLime.Delivery
import KeyLime.Effects

/-!
# The mutex

`data_structure_mutex` is not recursive. `do_put` holds it from its first
line to each of its seven returns (`doPutExits`), `schedule` for as long as
it runs; the other functions hold it around single accesses, and call
nothing that locks it meanwhile. So from a state in which the thread does
not hold it, each of them returns without it, and never asks for it twice
(`mutex_released`).

The model of `do_put` used everywhere else takes the mutex at its beginning and
gives it back at its end. `doPutExits` has the lock and each unlock where the
source has them, one in front of every `return`, and `doPutExits_eq` says that
the two are the same function.

`Released` is kept along a call, and its converse part, that the mutex is not
asked for by who holds it, is a flag of the kernel (`relocked`) which nothing
ever clears. Functions that leave the mutex alone (`SameMutex`) may stand between
a lock and an unlock. The functions are composed in the order in which they call
each other: `reschedule` through `schedule` and `do_put`, the detection pass
through `reschedule`, and `handle_data` through its stages.
-/

namespace KeyLime

variable {k k' k'' : Kernel} {dst src : Int} {w : Worker} {ret : Ret}

/-! ## `do_put`, return by return -/

/-- The data loop of `do_put`, which unlocks the mutex before each of its
returns. -/
def putRounds (dst src : Int) :
    Nat → List Outcome → List Outcome → Nat → Kernel → Option (Ret × Kernel)
  | fuel, reads, writes, size, k =>
    if size = 0 then some (.doneSending, k.unlock)
    else
      match fuel, reads.head? with
      | 0, _ => none
      | fuel + 1, some .intr => putRounds dst src fuel reads.tail writes size k
      | _ + 1, some .again => some (.bigFailure, k.unlock)
      | _ + 1, some .fail => some (.bigFailure, k.unlock)
      | _ + 1, some .zero => some (.bigFailure, k.unlock)
      | fuel + 1, _ =>
          let (blk, k) := readBlock k src size reads
          if blk = [] then some (.bigFailure, k.unlock)
          else
            let (r, writes, k) := writeAllToSocket k dst blk writes
            if r = -1 ∨ r = 0 ∨ r ≠ blk.length then some (.bigFailure, k.unlock)
            else putRounds dst src fuel reads.tail writes (size - blk.length) k

/-- `do_put` as it stands in the source. -/
def doPutExits (k : Kernel) (fdToSendTo : Int) (w : Worker) (io : PutIo) : Option (Ret × Kernel) :=
  w.tempFileName.bind fun name =>
    let k := k.lock
    let srcFd := w.tempFd
    let fileSize := getFileSize k name io.fopenOk
    let (r, writes, k) := writeAllToSocket k fdToSendTo (putHeader name) io.writes
    if r ≠ (putHeader name).length then some (.bigFailure, k.unlock)
    else
      let (r, writes, k) := writeAllToSocket k fdToSendTo (sizeBytes fileSize) writes
      if r ≠ 8 then some (.bigFailure, k.unlock)
      else
        putRounds fdToSendTo srcFd (fileSize + io.reads.length) io.reads writes fileSize
          (k.rewind srcFd)

section
variable {fuel size : Nat} {reads os : List Outcome} {o : Outcome} (writes : List Outcome)
  (k : Kernel)

theorem putRounds_done : putRounds dst src fuel reads writes 0 k =
    some (.doneSending, k.unlock) := by
  unfold putRounds
  rfl

theorem putRounds_intr (hsize : size ≠ 0) :
    putRounds dst src (fuel + 1) (.intr :: os) writes size k =
      putRounds dst src fuel os writes size k := by
  conv_lhs => unfold putRounds
  rw [if_neg hsize]
  rfl

theorem putRounds_stop (hsize : size ≠ 0) (ho : o = .again ∨ o = .fail ∨ o = .zero) :
    putRounds dst src (fuel + 1) (o :: os) writes size k = some (.bigFailure, k.unlock) := by
  unfold putRounds
  rw [if_neg hsize]
  rcases ho with rfl | rfl | rfl <;> rfl

theorem putRounds_data (hsize : size ≠ 0) (hreads : reads = [] ∨ ∃ n os, reads = .take n :: os) :
    putRounds dst src (fuel + 1) reads writes size k =
      let b := readBlock k src size reads
      let u := writeAllToSocket b.2 dst b.1 writes
      if b.1 = [] then some (.bigFailure, b.2.unlock)
      else if u.1 = -1 ∨ u.1 = 0 ∨ u.1 ≠ b.1.length then some (.bigFailure, u.2.2.unlock)
      else putRounds dst src fuel reads.tail u.2.1 (size - b.1.length) u.2.2 := by
  conv_lhs => unfold putRounds
  rw [if_neg hsize]
  rcases hreads with rfl | ⟨n, os, rfl⟩ <;> rfl

end

/-- The loop always comes to a return, and unlocks once on its way out. -/
theorem putRounds_eq (dst src : Int) {fuel size : Nat} {reads : List Outcome}
    (hfuel : size + reads.length ≤ fuel) (writes : List Outcome) (k : Kernel) :
    putRounds dst src fuel reads writes size k =
      some ((putLoop dst src fuel reads writes size k).1,
        (putLoop dst src fuel reads writes size k).2.unlock) := by
  induction fuel generalizing reads writes size k with
  | zero =>
      obtain rfl : size = 0 := by omega
      rw [putRounds_done, putLoop_done]
  | succ fuel ih =>
      by_cases hsize : size = 0
      · rw [hsize, putRounds_done, putLoop_done]
      · cases nextRead reads with
        | intr os =>
            rw [List.length_cons] at hfuel
            rw [putRounds_intr writes k hsize, putLoop_intr writes k hsize]
            exact ih (by omega) writes k
        | stop o os ho => rw [putRounds_stop writes k hsize ho, putLoop_stop writes k hsize ho]
        | data hreads =>
            rw [putRounds_data writes k hsize hreads, putLoop_data writes k hsize hreads]
            dsimp only
            split
            · rfl
            · rename_i hblk
              split
              · rfl
              · have hpos := List.length_pos_iff.mpr hblk
                have htail : reads.tail.length ≤ reads.length := by
                  rw [List.length_tail]
                  omega
                exact ih (by omega) _ _

theorem doPutExits_eq (k : Kernel) (dst : Int) (w : Worker) (io : PutIo) :
    doPutExits k dst w io = doPut k dst w io := by
  unfold doPutExits doPut
  cases w.tempFileName with
  | none => rfl
  | some name =>
      rw [Option.bind_some, Option.map_some]
      dsimp only
      split
      · rfl
      · split
        · rfl
        · exact putRounds_eq _ _ (Nat.le_refl _) _ _

/-! ## What a call does to the mutex -/

namespace Kernel

structure SameMutex (k k' : Kernel) : Prop where
  held : k'.held = k.held
  relocked : k'.relocked = k.relocked

/-- The thread does not hold the mutex, and has not asked for it while it
held it. -/
structure Released (k k' : Kernel) : Prop where
  held : k'.held = false
  relocked : k'.relocked = k.relocked

theorem SameMutex.refl (k : Kernel) : k.SameMutex k := ⟨rfl, rfl⟩

theorem SameMutex.trans (h : k.SameMutex k') (h' : k'.SameMutex k'') : k.SameMutex k'' :=
  ⟨h'.held.trans h.held, h'.relocked.trans h.relocked⟩

theorem SameMutex.released (h : k.SameMutex k') (hfree : k.held = false) : k.Released k' :=
  ⟨h.held.trans hfree, h.relocked⟩

theorem Released.trans (h : k.Released k') (h' : k'.Released k'') : k.Released k'' :=
  ⟨h'.held, h'.relocked.trans h.relocked⟩

theorem Released.refl (hfree : k.held = false) : k.Released k := ⟨hfree, rfl⟩

theorem put_sameMutex (k : Kernel) (fd : Int) (bs : Bytes) : k.SameMutex (k.put fd bs) := by
  unfold put
  split
  · exact ⟨rfl, rfl⟩
  · split <;> exact ⟨rfl, rfl⟩

theorem readFile_sameMutex (k : Kernel) (fd : Int) (n : Nat) : k.SameMutex (k.readFile fd n).2 := by
  unfold readFile
  split <;> exact ⟨rfl, rfl⟩

theorem rewind_sameMutex (k : Kernel) (fd : Int) : k.SameMutex (k.rewind fd) := by
  unfold rewind
  split <;> exact ⟨rfl, rfl⟩

theorem open_sameMutex (k : Kernel) (name : Bytes) (ok : Bool) :
    k.SameMutex (k.openWithAllPermission name ok).2 := by
  unfold openWithAllPermission
  split <;> exact ⟨rfl, rfl⟩

theorem lock_unlock (hfree : k.held = false) : k.Released k.lock.unlock where
  held := rfl
  relocked := by
    show (k.relocked || k.held) = k.relocked
    rw [hfree, Bool.or_false]

theorem SameMutex.unlock (hfree : k.held = false) (h : k.lock.SameMutex k') :
    k.Released k'.unlock :=
  ⟨rfl, h.relocked.trans (lock_unlock hfree).relocked⟩

end Kernel

open Kernel (SameMutex Released)

theorem writeAll_sameMutex (k : Kernel) (fd : Int) (buf : Bytes) (os : List Outcome) :
    k.SameMutex (writeAllToSocket k fd buf os).2.2 := by
  obtain ⟨pre, -, hk, -⟩ := writeAllToSocket_spec k fd buf os
  rw [hk]
  exact k.put_sameMutex fd pre

theorem readBlock_sameMutex (k : Kernel) (src : Int) (size : Nat) (reads : List Outcome) :
    k.SameMutex (readBlock k src size reads).2 := by
  unfold readBlock
  split <;> exact k.readFile_sameMutex ..

theorem putRounds_unlock {fuel size : Nat} {reads writes : List Outcome}
    (h : putRounds dst src fuel reads writes size k = some (ret, k')) :
    ∃ k₁, k.SameMutex k₁ ∧ k' = k₁.unlock := by
  induction fuel generalizing reads writes size k with
  | zero =>
      unfold putRounds at h
      split at h
      · cases h
        exact ⟨k, .refl k, rfl⟩
      · cases h
  | succ fuel ih =>
      by_cases hsize : size = 0
      · rw [hsize, putRounds_done] at h
        cases h
        exact ⟨k, .refl k, rfl⟩
      · cases nextRead reads with
        | intr os =>
            rw [putRounds_intr writes k hsize] at h
            exact ih h
        | stop o os ho =>
            rw [putRounds_stop writes k hsize ho] at h
            cases h
            exact ⟨k, .refl k, rfl⟩
        | data hreads =>
            rw [putRounds_data writes k hsize hreads] at h
            have hread := readBlock_sameMutex k src size reads
            have hwrite :=
              hread.trans (writeAll_sameMutex _ dst (readBlock k src size reads).1 writes)
            dsimp only at h
            split at h
            · cases h
              exact ⟨_, hread, rfl⟩
            · split at h
              · cases h
                exact ⟨_, hwrite, rfl⟩
              · obtain ⟨k₁, hk₁, heq⟩ := ih h
                exact ⟨k₁, hwrite.trans hk₁, heq⟩

/-- **`do_put`** gives the mutex back at each of its returns. -/
theorem doPutExits_released {io : PutIo} (hfree : k.held = false)
    (h : doPutExits k dst w io = some (ret, k')) : k.Released k' := by
  obtain ⟨name, -, h⟩ := Option.bind_eq_some_iff.mp h
  have hheader := writeAll_sameMutex k.lock dst (putHeader name) io.writes
  dsimp only at h
  split at h
  · cases h
    exact hheader.unlock hfree
  · have hsize := hheader.trans (writeAll_sameMutex _ dst
      (sizeBytes (getFileSize k.lock name io.fopenOk))
      (writeAllToSocket k.lock dst (putHeader name) io.writes).2.1)
    split at h
    · cases h
      exact hsize.unlock hfree
    · obtain ⟨k₁, hk₁, rfl⟩ := putRounds_unlock h
      exact ((hsize.trans (Kernel.rewind_sameMutex ..)).trans hk₁).unlock hfree

theorem doPut_released {io : PutIo} (hfree : k.held = false)
    (h : doPut k dst w io = some (ret, k')) : k.Released k' :=
  doPutExits_released hfree ((doPutExits_eq k dst w io).trans h)

namespace Master

variable {m m' : Master} {p : Nat} {fd : Int} {f : Flow}

theorem schedule_released (t : Task) (hfree : m.kernel.held = false) :
    m.kernel.Released (m.schedule t).1.kernel := by
  have hlock := Kernel.lock_unlock hfree
  cases hb : m.bestWorker with
  | none =>
      rw [schedule_of_none hb]
      exact hlock
  | some p =>
      rw [schedule_of_some hb]
      exact hlock

theorem reportHeartbeat_released (addr : Bytes) (usage now : ℚ) (hfree : m.kernel.held = false) :
    m.kernel.Released (m.reportHeartbeat addr usage now).kernel := by
  unfold reportHeartbeat
  split
  · exact .refl hfree
  · exact Kernel.lock_unlock hfree

theorem resend_released {mem : Worker} {t : Task} {io : ResendIo} (hfree : m.kernel.held = false)
    (h : m.resend mem t io = some m') : m.kernel.Released m'.kernel := by
  obtain ⟨k, ret, rfl, hput⟩ := resend_eq h
  have hs := schedule_released t hfree
  have hopen := hs.trans ((Kernel.open_sameMutex _ t.fileName io.openOk).released hs.held)
  exact hopen.trans (doPut_released hopen.held hput)

theorem resendAll_released {mem : Worker} {ts : List Task} {ios : List ResendIo}
    (hfree : m.kernel.held = false) (h : m.resendAll mem ts ios = some m') :
    m.kernel.Released m'.kernel := by
  induction ts generalizing m ios with
  | nil =>
      cases h
      exact .refl hfree
  | cons t ts ih =>
      obtain ⟨m₁, h₁, h₂⟩ := Option.bind_eq_some_iff.mp h
      have hround := resend_released hfree h₁
      exact hround.trans (ih hround.held h₂)

theorem reschedule_released {mem : Worker} {ios : List ResendIo} (hfree : m.kernel.held = false)
    (h : m.reschedule p mem ios = some m') : m.kernel.Released m'.kernel := by
  obtain ⟨m₁, h₁, h₂⟩ := Option.bind_eq_some_iff.mp h
  obtain ⟨ts, -, rfl⟩ := Option.map_eq_some_iff.mp h₂
  have hsent : m.kernel.Released m₁.kernel := resendAll_released hfree h₁
  exact hsent

theorem detectPass_released {now : ℚ} {mem : Worker} {ios : Nat → List ResendIo} {ps : List Nat}
    (hfree : m.kernel.held = false) (h : m.detectPass now mem ios ps = some m') :
    m.kernel.Released m'.kernel := by
  induction ps generalizing m with
  | nil =>
      cases h
      exact .refl hfree
  | cons p ps ih =>
      have hbeat := Kernel.lock_unlock hfree
      unfold detectPass at h
      dsimp only at h
      split at h
      · obtain ⟨m₁, h₁, h₂⟩ := Option.bind_eq_some_iff.mp h
        have hround := hbeat.trans (reschedule_released (by exact hbeat.held) h₁)
        exact hround.trans (ih hround.held h₂)
      · exact hbeat.trans (ih (by exact hbeat.held) h)

/-! ## `handle_data` -/

/-- The mutex is held around the `vector_erase`, and nowhere else in the
branch. -/
theorem headerStage_released (hfree : m.kernel.held = false) (h : m.headerStage fd p = some f) :
    m.kernel.Released f.master.kernel := by
  cases headerStage_case h with
  | skip => exact .refl hfree
  | more r | header r | reject r | quit r => exact ⟨hfree, rfl⟩
  | register r m₁ hst hr hret hverb hifd hreg =>
      obtain ⟨l, -, rfl⟩ := register_eq hreg
      have hcommit : m.kernel.Released (m.commit p .header r).kernel := ⟨hfree, rfl⟩
      exact hcommit.trans (Kernel.lock_unlock hcommit.held)

theorem sizeStage_released (hfree : m.kernel.held = false) (h : m.sizeStage p = some f) :
    m.kernel.Released f.master.kernel := by
  cases sizeStage_case h with
  | skip => exact .refl hfree
  | more r | size r | fail r => exact ⟨hfree, rfl⟩

theorem openTemp_sameMutex (k : Kernel) (w : Worker) (io : RecvIo) :
    k.SameMutex (openTemp k w io).1 := by
  rcases openTemp_cases k w io with ⟨heq, -⟩ | ⟨name, -, -, -, heq⟩ <;> rw [heq]
  · exact .refl k
  · exact ⟨rfl, rfl⟩

theorem getBinaryData_sameMutex (k : Kernel) (w : Worker) (io : RecvIo) :
    k.SameMutex (getBinaryData k w io).2 := by
  obtain ⟨bs, hbs⟩ := getBinaryData_put k w io
  rw [hbs]
  exact (openTemp_sameMutex k w io).trans (Kernel.put_sameMutex ..)

theorem dataStage_released {io : RecvIo} (hfree : m.kernel.held = false)
    (h : m.dataStage p io = some f) : m.kernel.Released f.master.kernel := by
  have hreceived : m.kernel.Released (m.received p io).kernel := by
    have hdata := (getBinaryData_sameMutex m.kernel (m.heap p) io).released hfree
    rw [received_kernel]
    exact ⟨hdata.held, hdata.relocked⟩
  cases dataStage_case h with
  | skip => exact .refl hfree
  | more | data | fail => exact hreceived

theorem parsePhase_released {io : RecvIo} (hfree : m.kernel.held = false)
    (h : m.parsePhase fd p io = some f) : m.kernel.Released f.master.kernel := by
  rw [parsePhase, Flow.andThen_assoc] at h
  rcases Flow.andThen_eq_some.mp h with ⟨m₁, h1, rfl⟩ | ⟨m₁, h1, h2⟩
  · exact headerStage_released hfree h1
  · have hheader : m.kernel.Released m₁.kernel := headerStage_released hfree h1
    rcases Flow.andThen_eq_some.mp h2 with ⟨m₂, h3, rfl⟩ | ⟨m₂, h3, h4⟩
    · exact hheader.trans (sizeStage_released hheader.held h3)
    · have hsize : m₁.kernel.Released m₂.kernel := sizeStage_released hheader.held h3
      exact hheader.trans (hsize.trans (dataStage_released hsize.held h4))

theorem forwardStage_released (hfree : m.kernel.held = false) (h : m.forwardStage fd p = some f) :
    m.kernel.Released f.master.kernel := by
  cases forwardStage_case h with
  | skip => exact .refl hfree
  | dead => exact .refl hfree
  | submit name =>
      show m.kernel.Released (m.submitted p name).kernel
      rw [submitted_kernel]
      exact Kernel.lock_unlock hfree
  | answer name =>
      show m.kernel.Released (m.answered p name).kernel
      rw [answered_kernel]
      exact .refl hfree

theorem putStage_released {io : PutIo} (hfree : m.kernel.held = false)
    (h : m.putStage fd p io = some f) : m.kernel.Released f.master.kernel := by
  cases putStage_case h with
  | skip => exact .refl hfree
  | put ret k hst hput => exact doPut_released hfree hput

theorem handleData_released {io : DataIo} (hfree : m.kernel.held = false)
    (h : m.handleData fd io = some m') : m.kernel.Released m'.kernel := by
  rcases handleData_cases h with ⟨rfl, -⟩ | ⟨p, -, -, hcall⟩
  · exact .refl hfree
  · rcases hcall with hret | ⟨m₁, hparse, hcall⟩
    · exact parsePhase_released hfree hret
    · have hparsed : m.kernel.Released m₁.kernel := parsePhase_released hfree hparse
      rcases hcall with hret | ⟨m₂, f, hforward, hput, rfl⟩
      · exact hparsed.trans (forwardStage_released hparsed.held hret)
      · have hforwarded : m₁.kernel.Released m₂.kernel :=
          forwardStage_released hparsed.held hforward
        exact hparsed.trans (hforwarded.trans (putStage_released hforwarded.held hput))

/-! ## The mutex -/

/-- Whatever the system calls do, the functions that lock the mutex return
without it, and ask for it only when they do not hold it. -/
structure Releases (m : Master) : Prop where
  schedule : ∀ t, m.kernel.Released (m.schedule t).1.kernel
  doPut : ∀ dst w io ret k, doPutExits m.kernel dst w io = some (ret, k) → m.kernel.Released k
  reportHeartbeat : ∀ addr usage now,
    m.kernel.Released (m.reportHeartbeat addr usage now).kernel
  reschedule : ∀ p mem ios m', m.reschedule p mem ios = some m' → m.kernel.Released m'.kernel
  detectPass : ∀ now mem ios ps m', m.detectPass now mem ios ps = some m' →
    m.kernel.Released m'.kernel
  handleData : ∀ fd io m', m.handleData fd io = some m' → m.kernel.Released m'.kernel

/-- **The mutex is given back.** From a state in which the thread does not hold
the mutex, every function that takes it returns without it, on each of its ways
out, and has never asked for it while holding it (`Releases`). -/
theorem mutex_released (hfree : m.kernel.held = false) : m.Releases where
  schedule t := schedule_released t hfree
  doPut _ _ _ _ _ h := doPutExits_released hfree h
  reportHeartbeat addr usage now := reportHeartbeat_released addr usage now hfree
  reschedule _ _ _ _ h := reschedule_released hfree h
  detectPass _ _ _ _ _ h := detectPass_released hfree h
  handleData _ _ _ h := handleData_released hfree h

/-- A file that is to go to a descriptor nobody has opened. -/
theorem mutex_released_unsent :
    ∃ k, doPutExits (init id).kernel 5 { (default : Worker) with tempFileName := some [97] } {} =
        some (.bigFailure, k) ∧ k.held = false ∧ k.relocked = false := by
  have hinit : (init id).Releases := mutex_released rfl
  have hput : doPutExits (init id).kernel 5 { (default : Worker) with tempFileName := some [97] } {} =
      some (.bigFailure, (init id).kernel.lock.unlock) := rfl
  have hk := hinit.doPut 5 _ {} .bigFailure _ hput
  exact ⟨_, hput, hk.held, hk.relocked⟩

theorem acceptConnections_sameMutex (cs : List Conn) :
    m.kernel.SameMutex (m.acceptConnections cs).kernel := by
  induction cs generalizing m with
  | nil => exact .refl m.kernel
  | cons c cs ih =>
      have hone : m.kernel.SameMutex (m.acceptOne c).kernel := ⟨rfl, rfl⟩
      exact hone.trans ih

/-- In a run the mutex is free between any two events, and has never been
asked for by its holder. -/
theorem Reachable.mutex_free (h : Reachable m) :
    m.kernel.held = false ∧ m.kernel.relocked = false := by
  refine h.invariant (I := fun m => m.kernel.held = false ∧ m.kernel.relocked = false)
    (fun resolve => ⟨rfl, rfl⟩) fun m e m' _ hm hs => ?_
  have hstep : m.kernel.Released m'.kernel := by
    have hhandle := hs.2
    cases e with
    | accept cs =>
        cases hhandle
        exact (acceptConnections_sameMutex cs).released hm.1
    | data fd arrived io =>
        have harrived : m.kernel.Released (m.arriving fd arrived).kernel := ⟨hm.1, rfl⟩
        have hcall : (m.arriving fd arrived).handleData fd io = some m' := hhandle
        exact harrived.trans (handleData_released harrived.held hcall)
    | heartbeat addr usage now =>
        cases hhandle
        exact reportHeartbeat_released addr usage now hm.1
    | detect now mem ios => exact detectPass_released hm.1 hhandle
  exact ⟨hstep.held, hstep.relocked.trans hm.2⟩

end Master

end KeyLime
