import KeyLime.Call
import KeyLime.Names
import KeyLime.Reschedule

/-!
# The names of tasks

A task gets its name from the record its frame was read into, and the record
has it from `get_command`. So in every reachable state the name of every task
is one that a header line in the command buffer can carry (`Reachable.named`).

What is in the command buffer between two reads is at most a line of 1023 bytes
without a newline (`Legible`), or else the next byte is outside of the buffer and
there is no further state. `get_command` copies the name from behind the first
space, and C strings end at the first NUL; so a name is not empty, has neither a
newline nor a NUL in it, and leaves room for the verb and the space
(`HeaderName`).

Each event is then followed through the calls it makes: `schedule`,
`scheduler_remove_task` and `reschedule` move tasks from list to list, and none
of them makes a name up (`Named.of_less`).
-/

namespace KeyLime

/-- A name that fits into a header line, behind the shorter verb. -/
structure HeaderName (name : Bytes) : Prop where
  sendable : Sendable name
  short : name.length ≤ 1019

namespace Worker

/-- What is in the command buffer can be taken for a line, and a name that has
been taken from it is a header's. -/
structure Legible (w : Worker) : Prop where
  line : newline ∉ w.command
  room : w.command.length ≤ commandBufSize
  name : w.status ≠ .start → ∀ f, w.tempFileName = some f → HeaderName f

variable {w w' : Worker}

theorem SameParse.legible (h : SameParse w w') (hl : w.Legible) : w'.Legible where
  line := h.command ▸ hl.line
  room := h.command ▸ hl.room
  name := by
    rw [h.status, h.tempFileName]
    exact hl.name

theorem Legible.goes (h : w.Legible) (hst : w.status ≠ .start) (st : Status) (dst : Int) :
    { w with fdToSendTo := dst, status := st }.Legible :=
  ⟨h.line, h.room, fun _ => h.name hst⟩

theorem fresh_legible (w : Worker) : w.fresh.Legible :=
  ⟨List.not_mem_nil, Nat.zero_le _, fun hne => (hne rfl).elim⟩

end Worker

variable {w : Worker} {s : List Item} {r : Parsed} {line name : Bytes} {v : Command}

/-! ## What `get_command` leaves -/

theorem cstr_cstr (b : Bytes) : cstr (cstr b) = cstr b := cstr_of_not_mem (cstr_noNul b)

theorem length_cstr_lt (h : 0 ∈ line) : (cstr line).length < line.length := by
  refine lt_of_le_of_ne (List.takeWhile_sublist _).length_le fun heq => ?_
  have hall := (List.takeWhile_prefix fun b => decide (b ≠ 0)).eq_of_length heq
  have hzero := List.takeWhile_eq_self_iff.mp hall 0 h
  simp at hzero

theorem headerName_of_line (h : headerOf line = some (v, name)) (hline : newline ∉ line)
    (hroom : line.length ≤ commandBufSize) (hnul : line.length < commandBufSize ∨ 0 ∈ line) :
    HeaderName name := by
  have hstr : headerOf (cstr line) = some (v, name) := by
    rw [← h, headerOf, headerOf, cstr_cstr]
  have hsub : (cstr line).Sublist line := List.takeWhile_sublist _
  obtain ⟨hsend, hlen⟩ := headerOf_sendable hstr fun hmem => hline (hsub.subset hmem)
  refine ⟨hsend, ?_⟩
  have hlt : (cstr line).length < commandBufSize := by
    rcases hnul with hlt | hmem
    · exact lt_of_le_of_lt hsub.length_le hlt
    · exact lt_of_lt_of_le (length_cstr_lt hmem) hroom
  unfold commandBufSize at hlt
  omega

theorem parseHeader_name {ret : Ret} {w' : Worker} (hline : newline ∉ w.command)
    (hroom : w.command.length ≤ commandBufSize) (h : parseHeader w = some (ret, w')) :
    w'.command = w.command
      ∧ (ret = .doneSending → ∀ f, w'.tempFileName = some f → HeaderName f) := by
  have hnul : w.command.length < commandBufSize ∨ 0 ∈ w.command := by
    by_contra hno
    rw [not_or, not_lt] at hno
    rw [parseHeader, if_pos hno] at h
    cases h
  rcases parseHeader_spec h with ⟨v, name, hhead, -, rfl⟩ | ⟨-, rfl, v, name, rfl⟩
  · refine ⟨rfl, ?_⟩
    intro _ f hf
    obtain rfl := Option.some.inj hf
    exact headerName_of_line hhead hline hroom hnul
  · exact ⟨rfl, fun hret => by cases hret⟩

theorem getCommand_legible (hline : newline ∉ w.command)
    (hroom : w.command.length ≤ commandBufSize) (h : getCommand s w = some r) :
    newline ∉ r.w.command ∧ r.w.command.length ≤ commandBufSize
      ∧ (r.ret = .doneSending → ∀ f, r.w.tempFileName = some f → HeaderName f) := by
  induction s generalizing w with
  | nil =>
      obtain rfl := Option.some.inj h
      exact ⟨hline, hroom, fun hret => by cases hret⟩
  | cons i s ih =>
      cases i with
      | intr => exact ih hline hroom (by simpa only [getCommand] using h)
      | err =>
          obtain rfl := Option.some.inj h
          exact ⟨hline, hroom, fun hret => by cases hret⟩
      | eof =>
          obtain rfl := Option.some.inj h
          exact ⟨hline, hroom, fun hret => by cases hret⟩
      | byte b =>
          by_cases hb : b = newline
          · rw [getCommand, if_pos hb] at h
            obtain ⟨⟨ret, w'⟩, hp, rfl⟩ := Option.map_eq_some_iff.mp h
            obtain ⟨hcmd, hname⟩ := parseHeader_name hline hroom hp
            exact ⟨hcmd ▸ hline, hcmd ▸ hroom, hname⟩
          · rcases Nat.lt_or_ge w.command.length commandBufSize with hlt | hfull
            · have hline' : newline ∉ w.command ++ [b] := by
                simp only [List.mem_append, List.mem_singleton, not_or]
                exact ⟨hline, fun heq => hb heq.symm⟩
              have hroom' : (w.command ++ [b]).length ≤ commandBufSize := by
                rw [List.length_append, List.length_singleton]
                omega
              rw [getCommand_store hb hlt] at h
              exact ih hline' hroom' h
            · rw [getCommand_full hb hfull] at h
              cases h

namespace Master

variable {m m' m₁ : Master} {fd : Int} {p q : Nat} {f : Flow} {t : Task} {io : DataIo}

/-! ## The parser branches -/

theorem headerStage_legible (hl : (m.heap p).Legible) (hf : m.headerStage fd p = some f) :
    (f.master.heap p).Legible := by
  -- the record is still in `START`, or it has got its name
  have hstay : ∀ {r : Parsed} (alive : Bool), (m.heap p).status = .start →
      getCommand (m.kernel.inbox (m.heap p).workerFd) (m.heap p) = some r →
        { r.w with alive := alive }.Legible := by
    intro r alive hst hr
    obtain ⟨hline, hroom, -⟩ := getCommand_legible hl.line hl.room hr
    exact ⟨hline, hroom, fun hne => (hne ((getCommand_status hr).trans hst)).elim⟩
  have hnamed : ∀ {r : Parsed}, getCommand (m.kernel.inbox (m.heap p).workerFd) (m.heap p) = some r →
      r.ret = .doneSending → { r.w with status := .needSize }.Legible := by
    intro r hr hret
    obtain ⟨hline, hroom, hname⟩ := getCommand_legible hl.line hl.room hr
    exact ⟨hline, hroom, fun _ => hname hret⟩
  cases headerStage_case hf with
  | skip => exact hl
  | more r hst hr hret =>
      rw [Flow.master, commit_heap_self]
      exact hstay r.w.alive hst hr
  | header r hst hr hret hno =>
      rw [Flow.master, set_heap_self]
      exact hnamed hr hret
  | register r m₁ hst hr hret hverb hifd hreg =>
      obtain ⟨l, -, rfl⟩ := register_eq hreg
      simp only [Flow.master, set_heap_self]
      exact hnamed hr hret
  | reject r hst hr hret hfd =>
      rw [Flow.master, set_heap_self]
      exact hstay false hst hr
  | quit r hst hr hret hfd =>
      simp only [Flow.master, set_heap_self]
      exact hstay false hst hr

theorem sizeStage_legible (hl : (m.heap p).Legible) (hf : m.sizeStage p = some f) :
    (f.master.heap p).Legible := by
  have hsame : ∀ {r : Parsed} (st : Status) (alive : Bool), (m.heap p).status = .needSize →
      getSize (m.kernel.inbox (m.heap p).workerFd) (m.heap p) = some r →
        { r.w with status := st, alive := alive }.Legible := by
    intro r st alive hst hr
    have hname := hl.name (by rw [hst]; decide)
    rcases getSize_spec .put [] hr with
        ⟨_, _, _, _, _, _, _, hw⟩ | ⟨_, _, _, _, _, hw⟩ <;>
      rw [hw] <;> exact ⟨hl.line, hl.room, fun _ => hname⟩
  cases sizeStage_case hf with
  | skip => exact hl
  | more r hst hr hret =>
      rw [Flow.master, commit_heap_self]
      exact hsame r.w.status r.w.alive hst hr
  | size r hst hr hret =>
      rw [Flow.master, set_heap_self]
      exact hsame .recievingData _ hst hr
  | fail r hst hr hret =>
      rw [Flow.master, commit_heap_self]
      exact hsame r.w.status r.w.alive hst hr

theorem dataStage_legible {rio : RecvIo} (hl : (m.heap p).Legible)
    (hf : m.dataStage p rio = some f) : (f.master.heap p).Legible := by
  have hsame : ∀ (st : Status), (m.heap p).status = .recievingData →
      { (getBinaryData m.kernel (m.heap p) rio).1.w with status := st }.Legible := by
    intro st hst
    have hname := hl.name (by rw [hst]; decide)
    obtain ⟨g, x, hw⟩ := getBinaryData_record m.kernel (m.heap p) rio
    rw [hw]
    exact ⟨hl.line, hl.room, fun _ => hname⟩
  cases dataStage_case hf with
  | skip => exact hl
  | more hst =>
      rw [Flow.master, received_heap_self]
      exact hsame _ hst
  | data hst =>
      rw [Flow.master, set_heap_self]
      exact hsame .forwardData hst
  | fail hst =>
      rw [Flow.master, received_heap_self]
      exact hsame _ hst

theorem parsePhase_legible {rio : RecvIo} (hl : (m.heap p).Legible)
    (hf : m.parsePhase fd p rio = some f) : (f.master.heap p).Legible := by
  rw [parsePhase, Flow.andThen_assoc] at hf
  rcases Flow.andThen_eq_some.mp hf with ⟨m₁, h1, rfl⟩ | ⟨m₁, h1, h2⟩
  · exact headerStage_legible hl h1
  · rcases Flow.andThen_eq_some.mp h2 with ⟨m₂, h3, rfl⟩ | ⟨m₂, h3, h4⟩
    · exact sizeStage_legible (headerStage_legible hl h1) h3
    · exact dataStage_legible (sizeStage_legible (headerStage_legible hl h1) h3) h4

/-! ## The invariant -/

/-- Every record is legible, and every task has the name of a header. -/
structure Named (m : Master) : Prop where
  legible : ∀ q, (m.heap q).Legible
  tasks : ∀ q, ∀ t ∈ (m.heap q).tasks, HeaderName t.fileName
  pool : ∀ t ∈ m.taskList, HeaderName t.fileName

theorem Named.of_less (h : Named m) (hpool : m'.taskList = m.taskList)
    (hsame : ∀ q, (m.heap q).SameParse (m'.heap q))
    (hless : ∀ q, ∀ t ∈ (m'.heap q).tasks, t ∈ (m.heap q).tasks) : Named m' where
  legible q := (hsame q).legible (h.legible q)
  tasks q t ht := h.tasks q t (hless q t ht)
  pool := hpool ▸ h.pool

theorem Named.schedule (h : Named m) (ht : HeaderName t.fileName) : Named (m.schedule t).1 where
  legible q := (schedule_sameParse t q).legible (h.legible q)
  tasks q u hu := by
    have hd := schedule_dealtOne (m := m) t
    rw [hd.tasks q, List.mem_append] at hu
    rcases hu with hu | hu
    · exact h.tasks q u hu
    · split at hu
      · rw [List.mem_singleton.mp hu]
        exact ht
      · cases hu
  pool u hu := by
    have hd := schedule_dealtOne (m := m) t
    rw [hd.taskList, List.mem_append] at hu
    rcases hu with hu | hu
    · exact h.pool u hu
    · split at hu
      · rw [List.mem_singleton.mp hu]
        exact ht
      · cases hu

theorem Named.remove (h : Named m) (fd : Int) (name : Bytes) :
    Named (m.schedulerRemoveTask fd name) := by
  refine h.of_less ?_ (schedulerRemoveTask_sameParse fd name) fun q t ht => ?_
  · obtain ⟨heap, log, heq⟩ := schedulerRemoveTask_frame (m := m) fd name
    rw [heq]
  · cases hf : m.finds fd name with
    | none =>
        rw [schedulerRemoveTask_of_none hf] at ht
        exact ht
    | some pi =>
        obtain ⟨u, -, -, -, heq⟩ := schedulerRemoveTask_of_some hf
        rw [heq] at ht
        by_cases hq : q = pi.1
        · rw [hq] at ht ⊢
          simp only [record, set_heap_self] at ht
          exact List.mem_of_mem_eraseIdx ht
        · simpa [record, set_heap_of_ne _ hq] using ht

theorem Named.set {w : Worker} (h : Named m) (hw : w.Legible) (htasks : w.tasks = (m.heap p).tasks) :
    Named (m.set p w) := by
  refine ⟨fun q => ?_, fun q => ?_, h.pool⟩ <;> by_cases hq : q = p
  · subst hq
    rw [set_heap_self]
    exact hw
  · rw [set_heap_of_ne _ hq]
    exact h.legible q
  · subst hq
    rw [set_heap_self, htasks]
    exact h.tasks q
  · rw [set_heap_of_ne _ hq]
    exact h.tasks q

theorem Named.parsePhase {rio : RecvIo} (h : Named m) (hf : m.parsePhase fd p rio = some f) :
    Named f.master := by
  have hpar := parsePhase_parserOnly hf
  refine ⟨?_, ?_, hpar.taskList ▸ h.pool⟩
  · intro q
    by_cases hq : q = p
    · subst hq
      exact parsePhase_legible (h.legible q) hf
    · rw [hpar.others q hq]
      exact h.legible q
  · intro q
    rw [hpar.tasks q]
    exact h.tasks q

theorem Named.forwarded {ret : Ret} {k : Kernel} (h : Named m) (fd : Int) (p : Nat) :
    Named (m.forwarded fd p ret k) := by
  have hset := h.set (p := p) (m.heap p).fresh_legible rfl
  exact ⟨hset.legible, hset.tasks, hset.pool⟩

theorem Named.handleData (h : Named m) (hc : m.handleData fd io = some m') : Named m' := by
  rcases handleData_cases hc with ⟨rfl, -⟩ | ⟨p, -, -, hcase⟩
  · exact h
  · rcases hcase with hpar | ⟨m₁, hpar, hrest⟩
    · exact h.parsePhase hpar
    · have h1 : Named m₁ := h.parsePhase hpar
      rcases hrest with hfwd | ⟨m₂, f, hfwd, hput, rfl⟩
      · cases forwardStage_case hfwd with
        | dead => exact h1
      · have h2 : Named m₂ := by
          cases forwardStage_case hfwd with
          | skip => exact h1
          | submit name hst hname hfd =>
              have hmade : Named (m₁.makeTask (m₁.heap p) name).2 :=
                ⟨h1.legible, h1.tasks, h1.pool⟩
              have hst' : (m₁.heap p).status ≠ .start := by simp [hst]
              have hgood : HeaderName name := (h1.legible p).name hst' name hname
              have hsched := hmade.schedule (t := (m₁.makeTask (m₁.heap p) name).1) hgood
              refine hsched.set ((hsched.legible p).goes ?_ _ _) rfl
              rw [(schedule_sameParse _ p).status]
              exact hst'
          | answer name hst hname hfd hal =>
              have hrest := h1.remove (m₁.heap p).workerFd name
              refine hrest.set ((hrest.legible p).goes ?_ _ _) rfl
              rw [(schedulerRemoveTask_sameParse _ name p).status, hst]
              decide
        cases putStage_case hput with
        | skip => exact h2
        | put ret k hst hdo => exact h2.forwarded fd p

/-! ## The other events -/

theorem Named.resend {mem : Worker} {rio : ResendIo} (h : Named m) (ht : HeaderName t.fileName)
    (hr : m.resend mem t rio = some m') : Named m' := by
  obtain ⟨k, ret, rfl, -⟩ := resend_eq hr
  have h1 := h.schedule ht
  exact ⟨h1.legible, h1.tasks, h1.pool⟩

theorem Named.kill (h : Named m) (p : Nat) :
    Named ({ m with kernel := m.kernel.lock.unlock }.set p { m.heap p with alive := false }) := by
  have h0 : Named { m with kernel := m.kernel.lock.unlock } := ⟨h.legible, h.tasks, h.pool⟩
  exact h0.set ⟨(h.legible p).line, (h.legible p).room, (h.legible p).name⟩ rfl

theorem Named.reschedule {mem : Worker} {ios : List ResendIo} (h : Named m)
    (hal : (m.heap p).alive = false) (hr : m.reschedule p mem ios = some m') : Named m' := by
  rcases reschedule_spec hr hal with ⟨-, rfl⟩ | ⟨t, m₁, ht, h1, rfl⟩
  · exact h
  · have hn := h.resend (h.tasks p t (ht ▸ List.mem_singleton_self t)) h1
    rw [← resend_dead h1 hal]
    refine hn.of_less rfl (fun q => sameParse_of_update rfl (by constructor <;> rfl) q) ?_
    intro q u hu
    by_cases hq : q = p
    · subst hq
      rw [set_heap_self] at hu
      cases hu
    · rwa [set_heap_of_ne _ hq] at hu

theorem Named.detectPass {now : ℚ} {mem : Worker} {ios : Nat → List ResendIo} :
    ∀ {ps : List Nat} {m : Master}, Named m → m.detectPass now mem ios ps = some m' → Named m'
  | [], m, h, hd => by
      obtain rfl := Option.some.inj hd
      exact h
  | p :: ps, m, h, hd => by
      rw [Master.detectPass] at hd
      split at hd
      · obtain ⟨m₁, h1, h2⟩ := Option.bind_eq_some_iff.mp hd
        exact ((h.kill p).reschedule (by simp) h1).detectPass h2
      · have h0 : Named { m with kernel := m.kernel.lock.unlock } := ⟨h.legible, h.tasks, h.pool⟩
        exact h0.detectPass hd

theorem Named.acceptOne {c : Conn} (h : Named m) : Named (m.acceptOne c) := by
  refine ⟨fun q => ?_, fun q => ?_, h.pool⟩ <;> by_cases hq : q = m.nextWorker
  · rw [hq, acceptOne_new]
    exact ⟨List.not_mem_nil, Nat.zero_le _, fun hne => (hne rfl).elim⟩
  · rw [acceptOne_of_ne c hq]
    exact h.legible q
  · rw [hq, acceptOne_new]
    exact List.forall_mem_nil _
  · rw [acceptOne_of_ne c hq]
    exact h.tasks q

theorem Named.step {e : Event} (h : Named m) (hs : Step m e m') : Named m' := by
  obtain ⟨-, he⟩ := hs
  cases e with
  | accept cs =>
      obtain rfl := Option.some.inj he
      exact acceptConnections_invariant (fun _ _ h => h.acceptOne) h
  | data fd arrived io =>
      have h0 : Named (m.arriving fd arrived) := ⟨h.legible, h.tasks, h.pool⟩
      exact h0.handleData he
  | heartbeat addr usage now =>
      obtain rfl := Option.some.inj he
      refine h.of_less ?_ (reportHeartbeat_sameParse addr usage now) fun q t ht => ?_
      · unfold reportHeartbeat
        split <;> rfl
      · unfold reportHeartbeat at ht
        split at ht
        · exact ht
        · rename_i b _
          by_cases hq : q = b
          · subst hq
            simpa using ht
          · simpa [set_heap_of_ne _ hq] using ht
  | detect now mem ios => exact h.detectPass he

theorem init_named (resolve : Bytes → Bytes) : Named (init resolve) :=
  ⟨fun _ => ⟨List.not_mem_nil, Nat.zero_le _, fun hne => (hne rfl).elim⟩,
    fun _ _ ht => (List.not_mem_nil ht).elim, fun _ ht => (List.not_mem_nil ht).elim⟩

/-- **Task names.** In every reachable state each task has a name that a header line
can carry, and each record a command buffer that a line can stand in. -/
theorem Reachable.named (h : Reachable m) : Named m :=
  h.invariant init_named fun _ _ _ _ hn hs => hn.step hs

end Master

end KeyLime
