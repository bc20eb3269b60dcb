import KeyLime.Frames

/-!
# Every record is ready for the next event

`Ready m`: between two events every record is in a sound parse state, and
a temporary file it holds is open under its name (`Reachable.ready`). With
it `parsePhase_frame` applies to whatever event comes next.

Soundness of a record is a matter of few of its fields (`Worker.SameParse`), and
most of what the master does changes none of them: scheduling, heartbeats and
passes write the tasks, the load and the flags. So the module is a list of small
facts of the form "this leaves the parse state of every record alone", and three
larger ones, for the parser branches, which advance it, for the forwarding
branches, which reset it, and for new connections, which begin with one that
`createWorker` has made from arbitrary memory.

A dead record keeps the parse state it died in. A heartbeat may revive it in the
middle of a frame, and then it goes on from there; that is sound, too.
-/

namespace KeyLime

/-- The parts of a record the parser goes by. -/
structure Worker.SameParse (w w' : Worker) : Prop where
  status : w'.status = w.status
  command : w'.command = w.command
  toDo : w'.toDo = w.toDo
  tempFileName : w'.tempFileName = w.tempFileName
  fileSize : w'.fileSize = w.fileSize
  sizeBufferPos : w'.sizeBufferPos = w.sizeBufferPos
  tempFd : w'.tempFd = w.tempFd

namespace Worker

variable {w w' w'' : Worker} {k k' : Kernel}

theorem SameParse.refl (w : Worker) : SameParse w w := ⟨rfl, rfl, rfl, rfl, rfl, rfl, rfl⟩

theorem SameParse.trans (h : SameParse w w') (h' : SameParse w' w'') : SameParse w w'' :=
  ⟨h'.status.trans h.status, h'.command.trans h.command, h'.toDo.trans h.toDo,
    h'.tempFileName.trans h.tempFileName, h'.fileSize.trans h.fileSize,
    h'.sizeBufferPos.trans h.sizeBufferPos, h'.tempFd.trans h.tempFd⟩

theorem SameParse.sound (h : SameParse w w') (hs : w.Sound) : w'.Sound where
  start hst := by rw [h.sizeBufferPos, h.fileSize]; exact hs.start (h.status ▸ hst)
  unopened hst := by rw [h.tempFd]; exact hs.unopened (h.status ▸ hst)
  named hst := by rw [h.tempFileName]; exact hs.named (h.status ▸ hst)
  size hst := by rw [h.sizeBufferPos]; exact hs.size (h.status ▸ hst)
  data hst := by rw [h.fileSize]; exact hs.data (h.status ▸ hst)
  idle := by rw [h.status]; exact hs.idle

theorem SameParse.dec (h : SameParse w w') (got : Bytes) : w'.dec got = w.dec got := by
  simp only [Worker.dec, h.status, h.command, h.toDo, h.tempFileName, h.fileSize,
    h.sizeBufferPos]

theorem SameParse.opened (h : SameParse w w') (ho : w.Opened k) : w'.Opened k := by
  unfold Opened
  rw [h.tempFd, h.tempFileName]
  exact ho

theorem Opened.keeps (h : w.Opened k) (hr : k'.resolve = k.resolve)
    (hk : ∀ g path off, k.desc g = some (.file path off) →
      ∃ off', k'.desc g = some (.file path off')) : w.Opened k' := by
  intro hne
  obtain ⟨off, hd⟩ := h hne
  rw [hr]
  exact hk _ _ _ hd

theorem Opened.extends (h : w.Opened k) (hk : k.Extends k') : w.Opened k' :=
  h.keeps hk.resolve hk.file

end Worker

theorem getBinaryData_opened {k : Kernel} {w : Worker} (hk : k.Ranged) (h : w.Opened k)
    (io : RecvIo) : (getBinaryData k w io).1.w.Opened (getBinaryData k w io).2 := by
  have hopen := openTemp_opened h io
  have hext := (openTemp_ops k w io).extends hk
  rw [getBinaryData_eq]
  obtain ⟨x, hx⟩ := dataLoop_record (k.inbox w.workerFd).length (k.inbox w.workerFd) io.disk none
    (openTemp k w io).2 (openTemp k w io).1
  obtain ⟨bs, hbs⟩ := dataLoop_put (k.inbox w.workerFd).length (k.inbox w.workerFd) io.disk none
    (openTemp k w io).2 (openTemp k w io).1
  rw [hx, hbs]
  exact hopen.extends (Kernel.put_extends hext.ranged bs)

namespace Master

variable {m m' m₁ m₂ : Master} {fd : Int} {p q : Nat} {f : Flow}

structure Ready (m : Master) : Prop where
  sound : ∀ p, (m.heap p).Sound
  opened : ∀ p, (m.heap p).Opened m.kernel

/-! ## The parser branches -/

theorem getCommand_tempFd {s : List Item} {w : Worker} {r : Parsed}
    (h : getCommand s w = some r) : r.w.tempFd = w.tempFd := by
  rcases getCommand_spec h with ⟨_, _, _, _, _, hw⟩ | ⟨_, _, _, _, _, _, _, hw⟩
      | ⟨_, _, _, _, _, _, hw⟩ <;>
    rw [hw]

theorem headerStage_opened (hs : (m.heap p).Sound) (ho : (m.heap p).Opened m.kernel)
    (hf : m.headerStage fd p = some f) : (f.master.heap p).Opened f.master.kernel := by
  have hclosed : ∀ {r : Parsed}, (m.heap p).status = .start →
      getCommand (m.kernel.inbox (m.heap p).workerFd) (m.heap p) = some r → r.w.tempFd = -1 :=
    fun hst hr => (getCommand_tempFd hr).trans (hs.unopened (Or.inl hst))
  cases headerStage_case hf with
  | skip => exact ho
  | more r hst hr => exact fun hne => (hne (by simp [Flow.master, hclosed hst hr])).elim
  | header r hst hr => exact fun hne => (hne (by simp [Flow.master, hclosed hst hr])).elim
  | register r m₁ hst hr hret hverb hifd hreg =>
      obtain ⟨l, -, hm₁⟩ := register_eq hreg
      exact fun hne => (hne (by simp [Flow.master, hm₁, set, hclosed hst hr])).elim
  | reject r hst hr => exact fun hne => (hne (by simp [Flow.master, hclosed hst hr])).elim
  | quit r hst hr => exact fun hne => (hne (by simp [Flow.master, hclosed hst hr])).elim

theorem sizeStage_opened (ho : (m.heap p).Opened m.kernel) (hf : m.sizeStage p = some f) :
    (f.master.heap p).Opened f.master.kernel := by
  have key : ∀ {r : Parsed}, getSize (m.kernel.inbox (m.heap p).workerFd) (m.heap p) = some r →
      r.w.Opened m.kernel := fun hr => by
    rcases getSize_spec .put [] hr with
        ⟨_, _, _, _, _, _, _, hw⟩ | ⟨_, _, _, _, _, hw⟩ <;>
      rw [hw] <;> exact ho
  cases sizeStage_case hf with
  | skip => exact ho
  | more r hst hr => rw [Flow.master, commit_heap_self]; exact key hr
  | size r hst hr => rw [Flow.master, set_heap_self]; exact key hr
  | fail r hst hr => rw [Flow.master, commit_heap_self]; exact key hr

theorem dataStage_opened {io : RecvIo} (hk : m.kernel.Ranged) (ho : (m.heap p).Opened m.kernel)
    (hf : m.dataStage p io = some f) : (f.master.heap p).Opened f.master.kernel := by
  have key := getBinaryData_opened hk ho io
  cases dataStage_case hf with
  | skip => exact ho
  | more => rw [Flow.master, received_heap_self]; exact key
  | data => rw [Flow.master, set_heap_self]; exact key
  | fail => rw [Flow.master, received_heap_self]; exact key

theorem parsePhase_opened {io : RecvIo} (hr : Registry m) (hat : At m fd p)
    (hs : (m.heap p).Sound) (ho : (m.heap p).Opened m.kernel)
    (hf : m.parsePhase fd p io = some f) : (f.master.heap p).Opened f.master.kernel := by
  rw [parsePhase, Flow.andThen_assoc] at hf
  rcases Flow.andThen_eq_some.mp hf with ⟨m₁, h1, rfl⟩ | ⟨m₁, h1, h2⟩
  · exact headerStage_opened hs ho h1
  · have ho1 := headerStage_opened hs ho h1
    have hr1 := hr.change hat (headerStage_change hr hat h1)
    rcases Flow.andThen_eq_some.mp h2 with ⟨m₂, h3, rfl⟩ | ⟨m₂, h3, h4⟩
    · exact sizeStage_opened ho1 h3
    · exact dataStage_opened (sizeStage_same hr1.ranged h3).kernel.ranged
        (sizeStage_opened ho1 h3) h4

/-- Files stay open across the parser branches, whatever they do to the
registry. -/
theorem Change.keeps (hd : m.kernel.desc fd = some .sock) (hc : Change fd p m f) :
    f.master.kernel.resolve = m.kernel.resolve ∧
      ∀ g path off, m.kernel.desc g = some (.file path off) →
        ∃ off', f.master.kernel.desc g = some (.file path off') := by
  cases hc with
  | same hs => exact ⟨hs.kernel.resolve, hs.kernel.file⟩
  | joins hj => exact ⟨hj.kernel.resolve, hj.kernel.file⟩
  | quits hq =>
      refine ⟨hq.resolve, fun g path off hg => ⟨off, ?_⟩⟩
      have hne : g ≠ fd := fun heq => by
        rw [heq, hd] at hg
        cases hg
      rw [hq.desc, Function.update_of_ne hne]
      exact hg

theorem Change.isOpen (hd : m.kernel.desc fd = some .sock) (hc : Change fd p m f)
    (halive : (f.master.heap p).alive = true) : f.master.kernel.desc fd = some .sock := by
  cases hc with
  | same hs => exact (hs.kernel.sock fd).mpr hd
  | joins hj => exact (hj.kernel.sock fd).mpr hd
  | quits hq =>
      rw [hq.dead] at halive
      cases halive

theorem parsePhase_ready {io : RecvIo} (hready : Ready m) (hr : Registry m) (hat : At m fd p)
    (hd : m.kernel.desc fd = some .sock) (halive : (m.heap p).alive = true)
    (hf : m.parsePhase fd p io = some f) : Ready f.master := by
  have hpar := parsePhase_parserOnly hf
  obtain ⟨hres, hkeep⟩ := (parsePhase_change hr hat hf).keeps hd
  have hp : (f.master.heap p).Sound := by
    by_cases hst : (m.heap p).status = .forwardData
    · rw [parsePhase_ended hst hf]
      exact hready.sound p
    · cases parsePhase_frame [] hat.workerFd (hready.sound p) (hready.opened p) halive hst hf with
      | starved => assumption
      | complete => assumption
      | rejected => assumption
      | failed => assumption
  constructor <;> intro q <;> by_cases hq : q = p
  · exact hq ▸ hp
  · rw [hpar.others q hq]
    exact hready.sound q
  · subst hq
    exact parsePhase_opened hr hat (hready.sound q) (hready.opened q) hf
  · rw [hpar.others q hq]
    exact (hready.opened q).keeps hres hkeep

/-! ## The rest of the handler -/

theorem Ready.untouched (hready : Ready m) (hk : m.kernel.Extends m'.kernel)
    (h : ∀ q, (m.heap q).SameParse (m'.heap q)) : Ready m' where
  sound q := (h q).sound (hready.sound q)
  opened q := (h q).opened ((hready.opened q).extends hk)

theorem sameParse_of_update {w : Worker} (hheap : m'.heap = Function.update m.heap p w)
    (h : (m.heap p).SameParse w) (q : Nat) : (m.heap q).SameParse (m'.heap q) := by
  rw [hheap]
  by_cases hq : q = p
  · subst hq
    simpa using h
  · simp [hq, Worker.SameParse.refl]

theorem schedule_sameParse (t : Task) (q : Nat) :
    (m.heap q).SameParse ((m.schedule t).1.heap q) := by
  obtain ⟨ts, h⟩ := schedule_record (m := m) t q
  rw [h]
  exact ⟨rfl, rfl, rfl, rfl, rfl, rfl, rfl⟩

theorem schedulerRemoveTask_sameParse (fd : Int) (name : Bytes) (q : Nat) :
    (m.heap q).SameParse ((m.schedulerRemoveTask fd name).heap q) := by
  obtain ⟨ts, h⟩ := schedulerRemoveTask_record (m := m) fd name q
  rw [h]
  exact ⟨rfl, rfl, rfl, rfl, rfl, rfl, rfl⟩

/-- Forwarding a frame touches the parse state of no other record, and
leaves that of its own fresh. -/
theorem forwarded_ready {ret : Ret} {k : Kernel} (hready : Ready m)
    (hk : m.kernel.Extends m₁.kernel) (hk' : m₁.kernel.Extends k)
    (h : ∀ q, q ≠ p → (m.heap q).SameParse (m₁.heap q)) :
    Ready (m₁.forwarded fd p ret k) := by
  constructor <;> intro q <;> by_cases hq : q = p <;> simp only [forwarded, record]
  · subst hq
    rw [Function.update_self]
    exact Worker.fresh_sound _
  · rw [Function.update_of_ne hq]
    exact (h q hq).sound (hready.sound q)
  · subst hq
    rw [Function.update_self]
    exact fun hne => (hne rfl).elim
  · rw [Function.update_of_ne hq]
    exact ((h q hq).opened (hready.opened q)).extends (hk.trans hk')

theorem submitted_sameParse (name : Bytes) (hq : q ≠ p) :
    (m.heap q).SameParse ((m.submitted p name).heap q) := by
  have h : ((m.makeTask (m.heap p) name).2.heap q).SameParse _ :=
    schedule_sameParse (m.makeTask (m.heap p) name).1 q
  simp only [submitted, set, Function.update_of_ne hq]
  exact h

theorem answered_sameParse (name : Bytes) (hq : q ≠ p) :
    (m.heap q).SameParse ((m.answered p name).heap q) := by
  have := schedulerRemoveTask_sameParse (m := m) (m.heap p).workerFd name q
  simpa [answered, set, hq] using this

theorem handleData_ready {io : DataIo} (hready : Ready m) (hr : Registry m)
    (hd : m.kernel.desc fd = some .sock) (h : m.handleData fd io = some m') : Ready m' := by
  obtain ⟨p, hat⟩ := hr.at hd
  rcases handleData_cases h with ⟨rfl, -⟩ | ⟨q, hcur, halive, hcase⟩
  · exact hready
  · obtain rfl := hat.unique hcur
    rcases hcase with hpar | ⟨m₁, hpar, hfwd | ⟨m₂, f, hfwd, hput, rfl⟩⟩ <;>
      have hready1 := parsePhase_ready hready hr hat hd halive hpar <;>
      have hr1 := hr.change hat (parsePhase_change hr hat hpar)
    · exact hready1
    · cases forwardStage_case hfwd with
      | dead => exact hready1
    · have hs2 := forwardStage_same hr1.ranged hfwd
      have hidle := (hready1.sound q).idle
      cases forwardStage_case hfwd with
      | skip hst =>
          cases putStage_case hput with
          | skip => exact hready1
          | put ret k hst' => exact (hidle hst').elim
      | submit name hst hname hfd =>
          cases putStage_case hput with
          | skip hst' => exact (hst' (by simp [submitted])).elim
          | put ret k hst' hdo =>
              exact forwarded_ready hready1 hs2.kernel (doPut_extends hs2.kernel.ranged hdo)
                fun q' hq' => submitted_sameParse name hq'
      | answer name hst hname hfd hal =>
          cases putStage_case hput with
          | skip hst' => exact (hst' (by simp [answered])).elim
          | put ret k hst' hdo =>
              exact forwarded_ready hready1 hs2.kernel (doPut_extends hs2.kernel.ranged hdo)
                fun q' hq' => answered_sameParse name hq'

/-! ## The other events -/

theorem resend_sameParse {mem : Worker} {t : Task} {io : ResendIo}
    (h : m.resend mem t io = some m') (q : Nat) : (m.heap q).SameParse (m'.heap q) := by
  obtain ⟨k, ret, rfl, -⟩ := resend_eq h
  exact schedule_sameParse t q

theorem reschedule_sameParse {mem : Worker} {ios : List ResendIo}
    (h : m.reschedule p mem ios = some m') (hal : (m.heap p).alive = false) (q : Nat) :
    (m.heap q).SameParse (m'.heap q) := by
  rcases reschedule_spec h hal with ⟨-, rfl⟩ | ⟨t, m₁, -, h1, rfl⟩
  · exact .refl _
  · rw [← resend_dead h1 hal]
    exact (resend_sameParse h1 q).trans
      (sameParse_of_update rfl (by constructor <;> rfl) q)

theorem detectPass_sameParse {now : ℚ} {mem : Worker} {ios : Nat → List ResendIo} (q : Nat) :
    ∀ {ps : List Nat} {m : Master}, m.detectPass now mem ios ps = some m' →
      (m.heap q).SameParse (m'.heap q)
  | [], m, h => by
      obtain rfl := Option.some.inj h
      exact .refl _
  | p :: ps, m, h => by
      rw [detectPass] at h
      split at h
      · obtain ⟨m₁, h1, h2⟩ := Option.bind_eq_some_iff.mp h
        have h0 : (m.heap q).SameParse ((Master.set { m with kernel := m.kernel.lock.unlock } p
            { m.heap p with alive := false }).heap q) :=
          sameParse_of_update (p := p) rfl (by constructor <;> rfl) q
        exact h0.trans ((reschedule_sameParse h1 (by simp) q).trans (detectPass_sameParse q h2))
      · exact detectPass_sameParse (m := { m with kernel := m.kernel.lock.unlock }) q h

theorem reportHeartbeat_sameParse (addr : Bytes) (usage now : ℚ) (q : Nat) :
    (m.heap q).SameParse ((m.reportHeartbeat addr usage now).heap q) := by
  unfold reportHeartbeat
  split
  · exact .refl _
  · exact sameParse_of_update rfl (by constructor <;> rfl) q

theorem acceptOne_ready {c : Conn} (hready : Ready m) (hfree : m.kernel.desc c.fd = none) :
    Ready (m.acceptOne c) := by
  constructor <;> intro q <;> by_cases hq : q = m.nextWorker
  · rw [hq]
    rw [acceptOne_new]
    exact Worker.SameParse.sound (w := c.mem.fresh) ⟨rfl, rfl, rfl, rfl, rfl, rfl, rfl⟩
      c.mem.fresh_sound
  · rw [acceptOne_of_ne c hq]
    exact hready.sound q
  · rw [hq, acceptOne_new]
    exact fun hne => (hne rfl).elim
  · rw [acceptOne_of_ne c hq]
    refine (hready.opened q).keeps rfl fun g path off hg => ⟨off, ?_⟩
    have hne : g ≠ c.fd := fun heq => by
      rw [heq, hfree] at hg
      cases hg
    rw [acceptOne_desc, if_neg hne]
    exact hg

theorem acceptConnections_ready {cs : List Conn} (hready : Ready m)
    (h : acceptable m.kernel cs = true) : Ready (m.acceptConnections cs) :=
  acceptable_invariant (fun _ _ _ hfree hready => acceptOne_ready hready hfree) h hready

theorem Step.ready {e : Event} (hr : Registry m) (hready : Ready m) (hs : Step m e m') :
    Ready m' := by
  obtain ⟨hen, h⟩ := hs
  cases e with
  | accept cs =>
      obtain rfl := Option.some.inj h
      exact acceptConnections_ready hready hen
  | data fd arrived io =>
      simp only [enabled, Bool.and_eq_true, beq_iff_eq] at hen
      have hs0 := deliver_same fd hr.ranged arrived
      exact handleData_ready (hready.untouched hs0.kernel fun q => .refl _) (hr.same hs0) hen.1 h
  | heartbeat addr usage now =>
      obtain rfl := Option.some.inj h
      exact hready.untouched (reportHeartbeat_same hr.ranged addr usage now).kernel
        (reportHeartbeat_sameParse addr usage now)
  | detect now mem ios =>
      exact hready.untouched (detectPass_same hr.ranged h).kernel
        fun q => detectPass_sameParse q h

theorem init_ready (resolve : Bytes → Bytes) : Ready (init resolve) where
  sound _ := ⟨fun _ => ⟨rfl, rfl⟩, fun _ => rfl, fun h => (h rfl).elim, nofun, nofun, nofun⟩
  opened _ := fun hne => (hne rfl).elim

theorem Reachable.ready (h : Reachable m) : Ready m :=
  h.invariant init_ready fun _ _ _ hr hready hs => hs.ready hr.registry hready

end Master

end KeyLime
