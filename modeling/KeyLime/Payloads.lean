import KeyLime.Tracking
import KeyLime.Chunks
import KeyLime.Idle

/-!
# The payloads of several connections

All temporary files are in one directory, under the names the headers
give. As long as no payload is received under the name of a file another
record holds open, the records stay `Faithful` to their connections, and
what is forwarded is the last frame of its own connection
(`payloads_own`). A second payload of that name empties the file of the
first (`payload_of_the_other`).

`Faithful` says of every live record that it has an open connection of its own
and is `Tracked`: its place in the frame and its file are what the bytes taken off
its connection so far lead to. A call keeps this for its own record since the
parser eats (`Stored`), and for all others since it spares them (`Spares`). The
condition on the events of the run (`keepsApart`) has a part for each kind of
event:

* where data arrive, the calls on files succeed, and no other live record holds
  the file open that the name in the header denotes;
* a heartbeat revives nobody: a record that has died in the middle of a frame is
  not where its connection is any more;
* a pass finds no silent record with tasks, since sending these again opens their
  files anew, and so empties them.
-/

namespace KeyLime

open Resume

namespace Master

variable {m m₁ m' : Master} {fd : Int} {p q r : Nat} {f : Flow} {io : DataIo} {e : Event}

/-! ## Names of open files -/

/-- No other live record holds the file open that `name` denotes. -/
def Alone (m : Master) (p : Nat) (name : Bytes) : Prop :=
  ∀ q < m.nextWorker, q ≠ p → (m.heap q).alive = true → (m.heap q).tempFd ≠ -1 →
    (m.heap q).tempPath m.kernel ≠ m.kernel.resolve name

instance (m : Master) (p : Nat) (name : Bytes) : Decidable (m.Alone p name) :=
  inferInstanceAs (Decidable (∀ q < m.nextWorker, _))

/-- What an event must keep for the payloads to stay apart. Where data arrive, no
file call fails, and the payload of a live record comes under a name no other
record holds open. A heartbeat revives nobody. In a detection pass, a record
found silent has no task to be sent again. -/
def keepsApart (m : Master) : Event → Bool
  | .accept _ => true
  | .data fd arrived io =>
      decide io.recv.Benign && io.put.fopenOk
        && (m.current fd).all fun p => !(m.heap p).alive
          || (m.reading p (m.stream fd arrived)).1.named.all fun name => decide (m.Alone p name)
  | .heartbeat addr usage now =>
      (m.beating (.heartbeat addr usage now)).all fun p => (m.heap p).alive
  | .detect now _ _ =>
      m.workerList.all fun p => !silent (m.heap p) now || (m.heap p).tasks.isEmpty

/-- Every live record has an open connection of its own, and is faithful to it. -/
structure Faithful (m : Master) : Prop where
  lt : ∀ q, (m.heap q).alive = true → q < m.nextWorker
  isOpen : ∀ q, (m.heap q).alive = true → m.kernel.desc (m.heap q).workerFd = some .sock
  distinct : ∀ q r, (m.heap q).alive = true → (m.heap r).alive = true →
    (m.heap q).workerFd = (m.heap r).workerFd → q = r
  tracked : ∀ q, (m.heap q).alive = true → m.Tracked q

/-! ## Events on no connection -/

theorem Faithful.kept (h : Faithful m) (hr : m.kernel.Ranged)
    (hk : Spares (-1) (fun _ => False) m.kernel m'.kernel) (hnext : m'.nextWorker = m.nextWorker)
    (hfd : ∀ q, (m'.heap q).workerFd = (m.heap q).workerFd)
    (hsame : ∀ q, (m.heap q).SameParse (m'.heap q))
    (hal : ∀ q, (m'.heap q).alive = true → (m.heap q).alive = true) : Faithful m' where
  lt q hq := hnext ▸ h.lt q (hal q hq)
  isOpen q hq := by
    have hd := h.isOpen q (hal q hq)
    rw [hfd]
    exact hk.sock _ (hr.ne hd) hd
  distinct q r hq hr heq := by
    rw [hfd, hfd] at heq
    exact h.distinct q r (hal q hq) (hal r hr) heq
  tracked q hq := by
    have hd := h.isOpen q (hal q hq)
    exact (h.tracked q (hal q hq)).spared hk (hsame q) (hfd q) (hr.ne hd) fun _ => id

theorem Faithful.acceptOne {c : Conn} (h : Faithful m) (hfree : m.kernel.desc c.fd = none) :
    Faithful (m.acceptOne c) := by
  have hold : ∀ q, q ≠ m.nextWorker → (m.acceptOne c).heap q = m.heap q :=
    fun _ => acceptOne_of_ne c
  have hnew : (m.acceptOne c).heap m.nextWorker = c.worker := acceptOne_new c
  have hclosed : ∀ g d, m.kernel.desc g = some d → g ≠ c.fd := by
    rintro g d hd rfl
    rw [hfree] at hd
    cases hd
  have hk : Spares c.fd (fun _ => False) m.kernel (m.acceptOne c).kernel :=
    ⟨fun g hg => Function.update_of_ne hg _ _,
      fun g hg hd => (Function.update_of_ne hg _ _).trans hd,
      fun g _ _ _ hd => (Function.update_of_ne (hclosed g _ hd) _ _).trans hd, fun _ _ => rfl, rfl⟩
  have hfdold : ∀ q, q ≠ m.nextWorker → ((m.acceptOne c).heap q).alive = true →
      (m.heap q).alive = true ∧ (m.heap q).workerFd ≠ c.fd := by
    intro q hq hal
    rw [hold q hq] at hal
    exact ⟨hal, hclosed _ _ (h.isOpen q hal)⟩
  refine ⟨?_, ?_, ?_, ?_⟩
  · intro q hal
    by_cases hqn : q = m.nextWorker
    · exact hqn ▸ Nat.lt_succ_self _
    · exact (h.lt q (hfdold q hqn hal).1).trans (Nat.lt_succ_self _)
  · intro q hal
    by_cases hqn : q = m.nextWorker
    · rw [hqn, hnew]
      exact Function.update_self ..
    · obtain ⟨hal, hne⟩ := hfdold q hqn hal
      rw [hold q hqn]
      exact hk.sock _ hne (h.isOpen q hal)
  · intro q r hq hr heq
    by_cases hqn : q = m.nextWorker <;> by_cases hrn : r = m.nextWorker
    · exact hqn.trans hrn.symm
    · rw [hqn, hnew, hold r hrn] at heq
      exact ((hfdold r hrn hr).2 heq.symm).elim
    · rw [hrn, hnew, hold q hqn] at heq
      exact ((hfdold q hqn hq).2 heq).elim
    · rw [hold q hqn, hold r hrn] at heq
      exact h.distinct q r (hfdold q hqn hq).1 (hfdold r hrn hr).1 heq
  · intro q hal
    by_cases hqn : q = m.nextWorker
    · have htaken : (m.acceptOne c).kernel.taken c.worker.workerFd = [] :=
        Function.update_self ..
      rw [hqn]
      refine tracked_fresh ?_ ?_ ?_ ?_ <;> rw [hnew]
      · rfl
      · rfl
      · rfl
      · rw [htaken]
        rfl
    · obtain ⟨hal, hne⟩ := hfdold q hqn hal
      exact (h.tracked q hal).spared hk (by rw [hold q hqn]; exact .refl _) (by rw [hold q hqn]) hne
        fun _ => id

theorem Faithful.acceptConnections {cs : List Conn} (h : Faithful m)
    (hcs : acceptable m.kernel cs = true) : Faithful (m.acceptConnections cs) :=
  acceptable_invariant (fun _ _ _ hfree h => h.acceptOne hfree) hcs h

/-! ## Events on a connection -/

theorem tracked_forwarded {ret : Ret} {k : Kernel} {v : Command} {name payload : Bytes}
    (hfd : (m.heap p).workerFd = fd) (hdec : decode (k.taken fd) = .done v name payload) :
    (m.forwarded fd p ret k).Tracked p := by
  refine tracked_fresh ?_ ?_ ?_ ?_ <;> rw [forwarded_self]
  · rfl
  · rfl
  · rfl
  · change (decode (k.taken (m.heap p).workerFd)).restart = .header []
    rw [hfd, hdec]
    rfl

theorem CallCase.tracked (hready : Ready m) (hr : Registry m) (hat : At m fd p)
    (hd : m.kernel.desc fd = some .sock) (halive : (m.heap p).alive = true)
    (hc : CallCase fd p io m m') (ht : m.Tracked p) (hio : io.recv.Benign)
    (halive' : (m'.heap p).alive = true) :
    m'.Tracked p ∧ m'.kernel.desc fd = some .sock := by
  have hended : ∀ {m₁ : Master}, m.parsePhase fd p io.recv = some (.next m₁) →
      (m₁.heap p).status = .forwardData →
      ∃ v name payload, decode (m₁.kernel.taken fd) = .done v name payload := by
    intro m₁ hpar hst
    have hs1 : (m₁.heap p).Sound := (parsePhase_ready hready hr hat hd halive hpar).sound p
    obtain ⟨payload, hdec, -⟩ := ht.ended hat.workerFd (hready.sound p) hio hpar hs1 hst
    exact ⟨_, _, _, hdec⟩
  cases hc with
  | unfinished f hpar hst heq =>
      subst heq
      have hsound := (parsePhase_ready hready hr hat hd halive hpar).sound p
      exact ⟨ht.parsed hat.workerFd (hready.sound p) hio hpar hsound hst halive',
        (parsePhase_change hr hat hpar).isOpen hd halive'⟩
  | dropped m₁ hpar hst hifd hal heq =>
      rw [heq, hal] at halive'
      cases halive'
  | submitted m₁ name ret k hpar hst hname hifd hdo heq =>
      obtain ⟨v, n, payload, hdec⟩ := hended hpar hst
      have hr1 : Registry m₁ := hr.change hat (parsePhase_change hr hat hpar)
      have hs := submitted_same (p := p) hr1.ranged name
      have htaken : k.taken = m₁.kernel.taken := by
        rw [(doPut_ops hdo).reads.2, submitted_kernel]
        rfl
      obtain ⟨ts, hself⟩ := submitted_self (m := m₁) (p := p) name
      have hal1 : (m₁.heap p).alive = true := by
        rw [heq, forwarded_self, hself] at halive'
        exact halive'
      subst heq
      refine ⟨tracked_forwarded ?_ (htaken ▸ hdec), ?_⟩
      · rw [hself]
        exact ((parsePhase_parserOnly hpar).workerFd p).trans hat.workerFd
      · refine ((doPut_extends hs.kernel.ranged hdo).sock fd).mpr ((hs.kernel.sock fd).mpr ?_)
        exact (parsePhase_change hr hat hpar).isOpen hd hal1
  | answered m₁ name ret k hpar hst hname hifd hal1 hdo heq =>
      obtain ⟨v, n, payload, hdec⟩ := hended hpar hst
      have hr1 : Registry m₁ := hr.change hat (parsePhase_change hr hat hpar)
      have hs := answered_same (p := p) hr1.ranged name
      have htaken : k.taken = m₁.kernel.taken := by
        rw [(doPut_ops hdo).reads.2, answered_kernel]
      obtain ⟨ts, hself⟩ := answered_self (m := m₁) (p := p) name
      subst heq
      refine ⟨tracked_forwarded ?_ (htaken ▸ hdec), ?_⟩
      · rw [hself]
        exact ((parsePhase_parserOnly hpar).workerFd p).trans hat.workerFd
      · refine ((doPut_extends hs.kernel.ranged hdo).sock fd).mpr ((hs.kernel.sock fd).mpr ?_)
        exact (parsePhase_change hr hat hpar).isOpen hd hal1

/-- **One call** leaves every live record faithful to its connection. -/
theorem Faithful.call (h : Faithful m) (hready : Ready m) (hr : Registry m) (hat : At m fd p)
    (hd : m.kernel.desc fd = some .sock) (halive : (m.heap p).alive = true)
    (hc : CallCase fd p io m m') (hio : io.recv.Benign)
    (halone : ∀ name, (m.reading p (m.kernel.inbox fd)).1.named = some name → m.Alone p name) :
    Faithful m' := by
  have hatt := hc.attended hr hat
  have hk : Spares fd (fun path => ∃ name,
      (m.reading p (m.kernel.inbox fd)).1.named = some name ∧ path = m.kernel.resolve name)
      m.kernel m'.kernel := by
    refine hc.spares hready hr hat hd halive fun f hpar hopen => ⟨_, ?_, rfl⟩
    exact (h.tracked p halive).names hat.workerFd (hready.sound p) hio hpar
      ((parsePhase_ready hready hr hat hd halive hpar).sound p) hopen
  have hfd : ∀ q, (m'.heap q).workerFd = (m.heap q).workerFd := by
    intro q
    by_cases hqp : q = p
    · exact hqp ▸ hatt.workerFd
    · obtain ⟨ts, heq⟩ := hatt.others q hqp
      rw [heq]
  have hal : ∀ q, (m'.heap q).alive = true → (m.heap q).alive = true := by
    intro q hq
    by_cases hqp : q = p
    · exact hqp ▸ halive
    · obtain ⟨ts, heq⟩ := hatt.others q hqp
      rw [heq] at hq
      exact hq
  have hself := hc.tracked hready hr hat hd halive (h.tracked p halive) hio
  have hne : ∀ q, q ≠ p → (m.heap q).alive = true → (m.heap q).workerFd ≠ fd := by
    intro q hqp hq heq
    exact hqp (h.distinct q p hq halive (heq.trans hat.workerFd.symm))
  refine ⟨fun q hq => hatt.nextWorker ▸ h.lt q (hal q hq), fun q hq => ?_,
    fun q r hq hr' heq => ?_, fun q hq => ?_⟩
  · rw [hfd]
    by_cases hqp : q = p
    · subst hqp
      rw [hat.workerFd]
      exact (hself hq).2
    · exact hk.sock _ (hne q hqp (hal q hq)) (h.isOpen q (hal q hq))
  · rw [hfd, hfd] at heq
    exact h.distinct q r (hal q hq) (hal r hr') heq
  · by_cases hqp : q = p
    · subst hqp
      exact (hself hq).1
    · obtain ⟨ts, heq⟩ := hatt.others q hqp
      refine (h.tracked q (hal q hq)).spared hk ?_ (hfd q) (hne q hqp (hal q hq)) ?_
      · rw [heq]
        exact ⟨rfl, rfl, rfl, rfl, rfl, rfl, rfl⟩
      · rintro hopen ⟨name, hname, hpath⟩
        exact halone name hname q (h.lt q (hal q hq)) hqp (hal q hq) hopen hpath

/-! ## Every run -/

theorem keepsApart_data {arrived : List Item} (h : m.keepsApart (.data fd arrived io) = true)
    (hcur : m.current fd = some p) (halive : (m.heap p).alive = true) :
    io.recv.Benign ∧ io.put.fopenOk = true
      ∧ ∀ name, (m.reading p (m.stream fd arrived)).1.named = some name → m.Alone p name := by
  simp only [keepsApart, hcur, halive, Option.all_some, Bool.and_eq_true, decide_eq_true_eq,
    Bool.not_true, Bool.false_or] at h
  refine ⟨h.1.1, h.1.2, ?_⟩
  intro name hname
  have := h.2
  rw [hname] at this
  exact of_decide_eq_true this

theorem keepsApart_detect {now : ℚ} {mem : Worker} {ios : Nat → List ResendIo}
    (h : m.keepsApart (.detect now mem ios) = true) :
    ∀ p ∈ m.workerList, silent (m.heap p) now = true → (m.heap p).tasks = [] := by
  intro p hp hsil
  have := List.all_eq_true.mp h p hp
  rw [hsil, Bool.not_true, Bool.false_or] at this
  exact List.isEmpty_iff.mp this

theorem Faithful.arriving (h : Faithful m) (hr : m.kernel.Ranged) (fd : Int)
    (arrived : List Item) : Faithful (m.arriving fd arrived) :=
  h.kept hr (.of_eq (fun _ _ => rfl) rfl rfl rfl) rfl (fun _ => rfl) (fun _ => .refl _)
    fun _ => id

theorem Step.faithful (hr : Reachable m) (h : Faithful m) (hs : Step m e m')
    (he : m.keepsApart e = true) : Faithful m' := by
  have hranged := hr.registry.ranged
  cases e with
  | accept cs =>
      obtain rfl := Option.some.inj hs.2
      exact h.acceptConnections hs.1
  | data fd arrived io =>
      obtain ⟨p, hat, hready0, hr0, hat0, hd0, hcase⟩ := hs.call hr
      rcases hcase with ⟨-, rfl⟩ | ⟨halive, hcase⟩
      · exact h.arriving hranged fd arrived
      · obtain ⟨hio, -, halone⟩ := keepsApart_data he hat.current halive
        refine (h.arriving hranged fd arrived).call hready0 hr0 hat0 hd0 halive hcase hio ?_
        rw [arriving_inbox]
        exact halone
  | heartbeat addr usage now =>
      obtain rfl := Option.some.inj hs.2
      have hsame := reportHeartbeat_same hranged addr usage now
      refine h.kept hranged ?_ hsame.nextWorker hsame.workerFd
        (reportHeartbeat_sameParse addr usage now) fun q hq => ?_
      · unfold reportHeartbeat
        split
        · exact .refl _ _ _
        · exact .of_eq (fun _ _ => rfl) rfl rfl rfl
      · unfold reportHeartbeat at hq
        split at hq
        · exact hq
        · rename_i p hp
          by_cases hqp : q = p
          · subst hqp
            have : (m.beating (.heartbeat addr usage now)).all (fun p => (m.heap p).alive) = true :=
              he
            rwa [beating, hp] at this
          · rw [← set_heap_of_ne _ hqp]
            exact hq
  | detect now mem ios =>
      have hsame := detectPass_same hranged hs.2
      obtain ⟨-, -, held, relocked, hk⟩ := detectPass_quiet (keepsApart_detect he) hs.2
      refine h.kept hranged ?_ hsame.nextWorker hsame.workerFd
        (fun q => detectPass_sameParse q hs.2) fun q => detectPass_alive q hs.2
      rw [hk]
      exact .of_eq (fun _ _ => rfl) rfl rfl rfl

theorem init_faithful (resolve : Bytes → Bytes) : Faithful (init resolve) :=
  ⟨nofun, nofun, nofun, nofun⟩

theorem ReachableWithin.faithful (h : ReachableWithin (fun m e _ => m.keepsApart e = true) m) :
    Faithful m :=
  h.invariant init_faithful fun _ _ _ hr hf hs he => hs.faithful hr.reachable hf he

/-- What `do_put` has written when it succeeds. -/
theorem doPut_done {k k' : Kernel} {w : Worker} {dst : Int} {pio : PutIo} {name payload : Bytes}
    (hdst : k.desc dst = some .sock ∨ k.desc dst = none)
    (hname : w.tempFileName = some name) (hopen : w.tempFd ≠ -1) (hs : w.Stores k payload)
    (hok : pio.fopenOk = true) (h : doPut k dst w pio = some (.doneSending, k')) :
    k'.sent dst = k.sent dst ++ frame putVerb name payload := by
  rcases hdst with hdst | hdst
  · have hd := hs.desc hopen
    have hstore := hs.store hopen
    have hsrc : w.tempFd ≠ dst := by
      rintro rfl
      rw [hd] at hdst
      cases hdst
    obtain ⟨bs, hends⟩ := doPut_spec hname hdst hsrc h
    obtain ⟨body, hbody, hlen, rfl⟩ := hends.done rfl
    have hsize : getFileSize k name pio.fopenOk = payload.length := by
      rw [Worker.tempPath, hname, Option.getD_some] at hstore
      rw [getFileSize, if_pos hok, hstore, Option.getD_some]
    have hrem : (k.rewind w.tempFd).remaining w.tempFd = payload := by
      simp [Kernel.rewind, Kernel.remaining, hd, hstore]
    rw [hsize] at hlen
    rw [hrem] at hbody
    rw [hends.delivered.sent, Function.update_self, hsize, hbody.eq_of_length hlen]
    rfl
  · cases (doPut_closed hdst h).1

/-- Every frame forwarded in the step is the last one of its own connection:
its name, its verb and its payload. -/
def OwnPayloads (m m' : Master) : Prop :=
  ∀ p i dst v name stored ret, .forward p i dst v name stored ret ∈ newLog m m' →
    ∃ payload, decode (m'.kernel.taken (m'.heap p).workerFd) = .done v name payload
      ∧ stored = some payload
      ∧ (ret = .doneSending → m'.kernel.sent dst = m.kernel.sent dst ++ frame putVerb name payload)

/-- The end of a frame, and the call of `do_put` for it. Between the two only
the mutex is taken and a target chosen. -/
theorem Tracked.delivers {m₂ : Master} {ret : Ret} {k : Kernel} {name : Bytes}
    {held relocked : Bool} (ht : m.Tracked p) (hready : Ready m) (hr : Registry m)
    (hat : At m fd p) (hd : m.kernel.desc fd = some .sock) (halive : (m.heap p).alive = true)
    (hio : io.recv.Benign) (hok : io.put.fopenOk = true)
    (hpar : m.parsePhase fd p io.recv = some (.next m₁))
    (hst : (m₁.heap p).status = .forwardData) (hname : (m₁.heap p).tempFileName = some name)
    (hkernel : m₂.kernel = { m₁.kernel with held := held, relocked := relocked })
    (hfd : (m₂.heap p).tempFd = (m₁.heap p).tempFd)
    (hname₂ : (m₂.heap p).tempFileName = (m₁.heap p).tempFileName)
    (hdst : m₁.kernel.desc (m₂.heap p).fdToSendTo = some .sock
      ∨ m₁.kernel.desc (m₂.heap p).fdToSendTo = none)
    (hdo : doPut m₂.kernel (m₂.heap p).fdToSendTo (m₂.heap p) io.put = some (ret, k)) :
    ∃ payload, decode (k.taken fd) = .done (m₁.heap p).toDo name payload
      ∧ m₁.kernel.store (m₁.kernel.resolve name) = some payload
      ∧ (ret = .doneSending → k.sent (m₂.heap p).fdToSendTo =
        m.kernel.sent (m₂.heap p).fdToSendTo ++ frame putVerb name payload) := by
  have hs1 : (m₁.heap p).Sound := (parsePhase_ready hready hr hat hd halive hpar).sound p
  obtain ⟨payload, hdec, hopen, hstores⟩ :=
    ht.ended hat.workerFd (hready.sound p) hio hpar hs1 hst
  rw [Flow.master] at hdec hopen hstores
  rw [hname, Option.getD_some] at hdec
  refine ⟨payload, ?_, ?_, ?_⟩
  · rw [(doPut_ops hdo).reads.2, hkernel]
    exact hdec
  · have hstore := hstores.store hopen
    rwa [Worker.tempPath, hname, Option.getD_some] at hstore
  · intro hret
    have hpath : (m₂.heap p).tempPath m₂.kernel = (m₁.heap p).tempPath m₁.kernel := by
      rw [Worker.tempPath, Worker.tempPath, hname₂, hkernel]
    have hstores₂ : (m₂.heap p).Stores m₂.kernel payload :=
      hstores.congr hfd hpath (fun _ => by rw [hkernel]) fun _ => by rw [hkernel]
    have hsent : m₁.kernel.sent = m.kernel.sent :=
      parsePhase_sent hr hat (hready.sound p) (hready.opened p) hpar
    subst hret
    have hdone := doPut_done (by rw [hkernel]; exact hdst) (hname₂.trans hname) (hfd ▸ hopen)
      hstores₂ hok hdo
    rw [hkernel] at hdone
    rw [hdone, ← hsent]

theorem mem_forwards {l : List Obs} {i : Bool} {dst : Int} {v : Command} {name : Bytes}
    {stored : Option Bytes} {ret : Ret} (h : .forward p i dst v name stored ret ∈ l) :
    .forward p i dst v name stored ret ∈ Master.forwards l :=
  List.mem_filterMap.mpr ⟨_, h, rfl⟩

theorem CallCase.own (hready : Ready m) (hr : Registry m) (hat : At m fd p)
    (hd : m.kernel.desc fd = some .sock) (halive : (m.heap p).alive = true)
    (hc : CallCase fd p io m m') (ht : m.Tracked p) (hio : io.recv.Benign)
    (hok : io.put.fopenOk = true) : OwnPayloads m m' := by
  intro q i dst v name stored ret ho
  have hmem := mem_forwards ho
  have hfd' := (hc.attended hr hat).workerFd.trans hat.workerFd
  have hquiet : ∀ {f : Flow}, m.parsePhase fd p io.recv = some f →
      Master.forwards (newLog m f.master) = [] := by
    intro f hpar
    obtain ⟨l, hl, hnone⟩ := (parsePhase_parserOnly hpar).forwards
    rw [newLog_of_append hl, hnone]
  cases hc with
  | unfinished f hpar hst heq =>
      rw [heq, hquiet hpar] at hmem
      exact (List.not_mem_nil hmem).elim
  | dropped m₁ hpar hst hifd hal heq =>
      rw [heq, show m₁ = (Flow.next m₁).master from rfl, hquiet hpar] at hmem
      exact (List.not_mem_nil hmem).elim
  | submitted m₁ name₁ ret₁ k hpar hst hname hifd hdo heq =>
      obtain ⟨i₁, hfwd⟩ := submitted_forwards (parsePhase_parserOnly hpar) rfl hname heq
      rw [hfwd, List.mem_singleton] at hmem
      cases hmem
      have hr1 : Registry m₁ := hr.change hat (parsePhase_change hr hat hpar)
      obtain ⟨ts, hself⟩ := submitted_self (m := m₁) (p := p) name
      obtain ⟨payload, hdec, hstored, hsent⟩ := ht.delivers hready hr hat hd halive hio hok hpar hst
        hname (submitted_kernel name) (by rw [hself]) (by rw [hself])
        (by rw [hself]; exact target_desc hr1) hdo
      rw [hself] at hsent
      refine ⟨payload, ?_, hstored, ?_⟩
      · rw [hfd', heq]
        exact hdec
      · rw [heq]
        exact hsent
  | answered m₁ name₁ ret₁ k hpar hst hname hifd hal1 hdo heq =>
      obtain ⟨i₁, hfwd⟩ := answered_forwards (parsePhase_parserOnly hpar) rfl hname heq
      rw [hfwd, List.mem_singleton] at hmem
      cases hmem
      have hr1 : Registry m₁ := hr.change hat (parsePhase_change hr hat hpar)
      obtain ⟨ts, hself⟩ := answered_self (m := m₁) (p := p) name
      obtain ⟨payload, hdec, hstored, hsent⟩ := ht.delivers hready hr hat hd halive hio hok hpar hst
        hname (answered_kernel name) (by rw [hself]) (by rw [hself])
        (by rw [hself]; exact interfaceFd_desc hr1) hdo
      rw [hself] at hsent
      refine ⟨payload, ?_, hstored, ?_⟩
      · rw [hfd', heq]
        exact hdec
      · rw [heq]
        exact hsent

theorem OwnPayloads.of_log (h : m'.log = m.log) : OwnPayloads m m' :=
  fun _ _ _ _ _ _ _ ho => (not_mem_newLog h ho).elim

/-- **Connections do not corrupt each other's payload**, in a run whose events
and whose last event all `keepsApart`: each payload comes under a name whose
file no other live record holds open. A frame that is forwarded then has the
verb, the name and the payload of the frame that its own connection has just
ended, and where `do_put` succeeds these are the bytes that have been written. -/
theorem payloads_own (hr : ReachableWithin (fun m e _ => m.keepsApart e = true) m)
    (hs : Step m e m') (he : m.keepsApart e = true) : OwnPayloads m m' := by
  have hreach := hr.reachable
  cases e with
  | accept cs =>
      obtain rfl := Option.some.inj hs.2
      exact .of_log (acceptConnections_log cs)
  | data fd arrived io =>
      obtain ⟨p, hat, hready0, hr0, hat0, hd0, hcase⟩ := hs.call hreach
      rcases hcase with ⟨-, rfl⟩ | ⟨halive, hcase⟩
      · exact .of_log rfl
      · obtain ⟨hio, hok, -⟩ := keepsApart_data he hat.current halive
        have hf := hr.faithful.arriving hreach.registry.ranged fd arrived
        have hown : OwnPayloads (m.arriving fd arrived) m' :=
          hcase.own hready0 hr0 hat0 hd0 halive (hf.tracked p halive) hio hok
        exact hown
  | heartbeat addr usage now =>
      obtain rfl := Option.some.inj hs.2
      exact .of_log (reportHeartbeat_log addr usage now)
  | detect now mem ios => exact .of_log (detectPass_quiet (keepsApart_detect he) hs.2).1

/-- The line `PUT b`. -/
def otherLine : Bytes := putVerb ++ [space, 98, newline]

/-- The interface is on 5. The worker on 6 has sent the first of two payload
bytes, and the one on 7 a whole result with that line. -/
def twoResults (line : Bytes) : List Event :=
  [.accept [⟨5, [5], default⟩, ⟨6, [6], default⟩, ⟨7, [7], default⟩],
    .data 5 (chunk submitLine) {}, .data 6 (chunk (resultLine ++ sizeBytes 2 ++ [20])) {},
    .data 7 (chunk (line ++ sizeBytes 1 ++ [30])) {}]

/-- The results of two workers, under different names. -/
theorem payloads_own_two :
    ∃ m m', ReachableWithin (fun m e _ => m.keepsApart e = true) m
      ∧ Step m (.data 6 (chunk [21]) {}) m' ∧ OwnPayloads m m'
      ∧ .forward 1 false 5 .put [97] (some [20, 21]) .doneSending ∈ newLog m m' := by
  obtain ⟨m, m', hr, hs, he, hv⟩ := execStepWithin_spec (c := keepsApart) id (twoResults otherLine)
    (e := .data 6 (chunk [21]) {}) (v := true)
    (f := fun m m' => decide
      (.forward 1 false 5 .put [97] (some [20, 21]) .doneSending ∈ newLog m m'))
    (by decide +kernel)
  exact ⟨m, m', hr, hs, payloads_own hr hs he, of_decide_eq_true hv⟩

/-- Under the same name the second one is written over the first. -/
theorem payload_of_the_other :
    ∃ m m', Reachable m ∧ Step m (.data 6 (chunk [21]) {}) m' ∧ ¬ OwnPayloads m m'
      ∧ decode (m'.kernel.taken 6) = .done .put [97] [20, 21]
      ∧ m'.kernel.sent 5 = m.kernel.sent 5 ++ frame putVerb [97] [30, 21] := by
  obtain ⟨m, m', hr, hs, hv⟩ := execStep_spec id (twoResults resultLine)
    (e := .data 6 (chunk [21]) {}) (v := true)
    (f := fun m m' => decide ((m'.heap 1).workerFd = 6
      ∧ .forward 1 false 5 .put [97] (some [30, 21]) .doneSending ∈ newLog m m'
      ∧ decode (m'.kernel.taken 6) = .done .put [97] [20, 21]
      ∧ m'.kernel.sent 5 = m.kernel.sent 5 ++ frame putVerb [97] [30, 21]))
    (by decide +kernel)
  obtain ⟨hfd, ho, hdec, hsent⟩ := of_decide_eq_true hv
  refine ⟨m, m', hr, hs, ?_, hdec, hsent⟩
  intro hown
  obtain ⟨payload, hlast, hstored, -⟩ := hown 1 false 5 .put [97] _ _ ho
  rw [hfd, hdec] at hlast
  obtain ⟨-, -, rfl⟩ := Dec.done.inj hlast
  cases hstored

end Master

end KeyLime
