import KeyLime.Call
import KeyLime.Stored
import KeyLime.Roundtrip
import KeyLime.Senders

/-!
# A frame that arrives in chunks

`Partway`: a connection has taken a part of a frame, and its record stands
where that part leads the reader. A further chunk that does not end the
frame keeps this and forwards nothing (`Partway.step`); one that does is
forwarded in the same call (`Partway.ends`).

The decoder of the master is put against both encoders (`Emitted`): the one of
the interface and the one of the worker, each with its own header and its own
loops. `decodes_every_chunking` then says that it inverts them however the bytes
are cut. Three kinds of lemmas are put together for it:

* the call returns at all: there is room in the command buffer for the rest of a
  line that fits as a whole (`Room`, `handleData_total`);
* what one chunk does, in terms of the bytes before and behind it
  (`Partway.call`), which is `parsePhase_eats` read forwards;
* the induction over the chunks before the last (`Partway.run`).

The last chunk may have more behind the frame. It is left unread.
-/

namespace KeyLime

open Resume

namespace Master

variable {m m₁ m₂ m' : Master} {fd : Int} {p : Nat} {io : DataIo}

/-! ## The call returns -/

/-- There is room in the command buffer for the rest of the line. -/
def Room (w : Worker) (bs : Bytes) : Prop :=
  w.status = .start → w.command.length + (bs.takeWhile (· != newline)).length < commandBufSize

theorem register_total (hat : At m fd p) (hifd : m.interfaceFd = -1) :
    ∃ m', m.register fd p = some m' := by
  have hp : p ∈ m.workerList := by
    rcases hat.place with h | ⟨-, h, -⟩
    · exact h.1
    · exact (hat.nonneg (h.trans hifd)).elim
  rw [register]
  cases hpos : m.findWorkerPos fd with
  | none => exact (findWorkerPos_eq_none hpos p hp hat.workerFd).elim
  | some i =>
      obtain ⟨q, hq, -⟩ := findWorkerPos_eq_some hpos
      have hi : i < m.workerList.length := (List.getElem?_eq_some_iff.mp hq).1
      simp [vectorErase, hi]

theorem headerStage_total (hr : Registry m) (hat : At m fd p)
    (hroom : Room (m.heap p) (readable (m.kernel.inbox fd))) :
    ∃ f, m.headerStage fd p = some f := by
  by_cases hst : (m.heap p).status = .start
  · have hline := hroom hst
    rw [← hat.workerFd] at hline
    obtain ⟨r, hgc⟩ := getCommand_total hline
    have h1 := commit_same hr.ranged .header (getCommand_parses hgc)
    have h2 := h1.trans (set_same (p := p) (w := { r.w with status := .needSize })
      h1.kernel.ranged ⟨by simp, by simp, by simp, by simp, by simp, by simp⟩)
    simp only [headerStage, if_neg (not_not_intro hst), hgc, Option.bind_some, commit_heap_self]
    cases r.ret with
    | notDoneSending => exact ⟨_, rfl⟩
    | bigFailure =>
        dsimp only
        split <;> exact ⟨_, rfl⟩
    | doneSending =>
        dsimp only
        split
        · rename_i hcond
          obtain ⟨m', hm'⟩ := register_total (hat.same h2) hcond.2
          rw [hm']
          exact ⟨_, rfl⟩
        · exact ⟨_, rfl⟩
  · exact ⟨_, if_pos hst⟩

theorem sizeStage_total (hpos : (m.heap p).status = .needSize → (m.heap p).sizeBufferPos < 8) :
    ∃ f, m.sizeStage p = some f := by
  by_cases hst : (m.heap p).status = .needSize
  · obtain ⟨r, hr⟩ := getSize_total (s := m.kernel.inbox (m.heap p).workerFd) (hpos hst)
    exact ⟨_, by rw [sizeStage, if_neg (not_not_intro hst), hr, Option.map_some]⟩
  · exact ⟨_, if_pos hst⟩

theorem dataStage_total (m : Master) (p : Nat) (io : RecvIo) : ∃ f, m.dataStage p io = some f := by
  unfold dataStage
  split
  · exact ⟨_, rfl⟩
  · dsimp only
    split <;> exact ⟨_, rfl⟩

theorem parsePhase_total (hr : Registry m) (hs : (m.heap p).Sound) (hat : At m fd p)
    (hroom : Room (m.heap p) (readable (m.kernel.inbox fd))) (io : RecvIo) :
    ∃ f, m.parsePhase fd p io = some f := by
  obtain ⟨f₁, h1⟩ := headerStage_total hr hat hroom
  rw [parsePhase, Flow.andThen_assoc, h1]
  rcases f₁ with m₁ | m₁
  · exact ⟨_, rfl⟩
  · have hpos : (m₁.heap p).status = .needSize → (m₁.heap p).sizeBufferPos < 8 := by
      intro hst₁
      by_cases hst : (m.heap p).status = .start
      · rcases headerStage_sized hst hs h1 with h | ⟨-, -, -, h⟩
        · rw [hst₁] at h
          cases h
        · omega
      · have hskip : m.headerStage fd p = some (.next m) := if_pos hst
        obtain rfl := Flow.next.inj (Option.some.inj (h1.symm.trans hskip))
        exact hs.size hst₁
    obtain ⟨f₂, h2⟩ := sizeStage_total hpos
    rcases f₂ with m₂ | m₂
    · exact ⟨.ret m₂, by simp [Flow.andThen, h2]⟩
    · obtain ⟨f₃, h3⟩ := dataStage_total m₂ p io
      exact ⟨f₃, by simp [Flow.andThen, h2, h3]⟩

theorem forwardStage_total (fd : Int) (hs : (m.heap p).Sound) : ∃ f, m.forwardStage fd p = some f := by
  by_cases hst : (m.heap p).status = .forwardData
  · obtain ⟨name, hname⟩ := Option.isSome_iff_exists.mp (hs.named (by simp [hst]))
    simp only [forwardStage, if_neg (not_not_intro hst), hname]
    split
    · exact ⟨_, rfl⟩
    · split <;> exact ⟨_, rfl⟩
  · exact ⟨_, if_pos hst⟩

theorem putStage_total (fd : Int) (pio : PutIo)
    (hname : (m.heap p).status = .forwardingData → (m.heap p).tempFileName.isSome = true) :
    ∃ f, m.putStage fd p pio = some f := by
  by_cases hst : (m.heap p).status = .forwardingData
  · obtain ⟨name, hname⟩ := Option.isSome_iff_exists.mp (hname hst)
    exact ⟨_, by simp only [putStage, if_neg (not_not_intro hst), doPut, hname, Option.map_some]; rfl⟩
  · exact ⟨_, if_pos hst⟩

/-- **`handle_data` returns**, given room for the header line. -/
theorem handleData_total (hready : Ready m) (hr : Registry m) (hat : At m fd p)
    (hd : m.kernel.desc fd = some .sock)
    (hroom : Room (m.heap p) (readable (m.kernel.inbox fd))) (io : DataIo) :
    ∃ m', m.handleData fd io = some m' := by
  rw [handleData, hat.current]
  dsimp only
  split
  · exact ⟨_, rfl⟩
  · rename_i hal
    rw [Bool.not_eq_false] at hal
    obtain ⟨f₁, h1⟩ := parsePhase_total hr (hready.sound p) hat hroom io.recv
    have hready1 := parsePhase_ready hready hr hat hd hal h1
    rw [parsePhase] at h1
    rw [h1]
    rcases f₁ with m₁ | m₁
    · exact ⟨_, rfl⟩
    · replace hready1 : Ready m₁ := hready1
      obtain ⟨f₂, h2⟩ := forwardStage_total fd (hready1.sound p)
      rcases f₂ with m₂ | m₂
      · exact ⟨m₂, by simp only [Flow.andThen, Option.bind_some, h2]; rfl⟩
      · have hname : (m₂.heap p).status = .forwardingData →
            (m₂.heap p).tempFileName.isSome = true := by
          intro hst
          cases forwardStage_case h2 with
          | skip => exact ((hready1.sound p).idle hst).elim
          | submit name hst₁ hname =>
              obtain ⟨ts, hself⟩ := submitted_self (m := m₁) (p := p) name
              rw [hself]
              exact hname ▸ rfl
          | answer name hst₁ hname =>
              obtain ⟨ts, hself⟩ := answered_self (m := m₁) (p := p) name
              rw [hself]
              exact hname ▸ rfl
        obtain ⟨f₃, h3⟩ := putStage_total fd io.put hname
        exact ⟨f₃.master, by simp only [Flow.andThen, Option.bind_some, h2, h3]; rfl⟩

/-! ## One chunk -/

variable {v : Command} {name payload sofar got c more : Bytes}

/-- Record `p` has taken the bytes `sofar` of a frame off the connection
`fd`, and `got` is stored of the payload. -/
structure Partway (m : Master) (fd : Int) (p : Nat) (sofar got : Bytes) : Prop where
  reachable : Reachable m
  here : At m fd p
  isOpen : m.kernel.desc fd = some .sock
  alive : (m.heap p).alive = true
  parsing : (m.heap p).status ≠ .forwardData
  drained : m.kernel.inbox fd = []
  reading : frameReader.feed (.header []) sofar = ((m.heap p).dec got, [])
  stores : (m.heap p).Stores m.kernel got

theorem Partway.fresh (hr : Reachable m) (hd : m.kernel.desc fd = some .sock)
    (hcur : m.current fd = some p) (halive : (m.heap p).alive = true)
    (hst : (m.heap p).status = .start) (hcmd : (m.heap p).command = [])
    (hbox : m.kernel.inbox fd = []) : Partway m fd p [] [] where
  reachable := hr
  here := by
    obtain ⟨q, hat⟩ := hr.registry.at hd
    obtain rfl := hat.unique hcur
    exact hat
  isOpen := hd
  alive := halive
  parsing := by simp [hst]
  drained := hbox
  reading := by simp [Worker.dec, hst, hcmd]
  stores := .of_closed ((hr.ready.sound p).unopened (Or.inl hst))

theorem takeWhile_frame (hname : Sendable name) (rest : Bytes) :
    (frame v.verb name payload ++ rest).takeWhile (· != newline) = headerLine v name := by
  have hsplit : frame v.verb name payload ++ rest =
      headerLine v name ++ newline :: (sizeBytes payload.length ++ payload ++ rest) := by
    simp [frame, headerLine]
  have hline : ∀ b ∈ headerLine v name, (b != newline) = true := by
    intro b hb
    refine bne_iff_ne.mpr ?_
    rintro rfl
    exact headerLine_noNewline hname hb
  rw [hsplit, List.takeWhile_append_of_pos hline, List.takeWhile_cons_of_neg (by simp),
    List.append_nil]

/-- The command buffer has room for a line that is short enough, wherever
the bytes are cut. -/
theorem Partway.room {rest : Bytes} (h : Partway m fd p sofar got) (hname : Sendable name)
    (hline : (headerLine v name).length < commandBufSize)
    (hpart : sofar ++ c ++ rest = frame v.verb name payload ++ more) : Room (m.heap p) c := by
  intro hst
  have hread := h.reading
  rw [show (m.heap p).dec got = .header (m.heap p).command by simp [Worker.dec, hst]] at hread
  obtain ⟨hcmd, hno⟩ := feed_inLine hread
  have hsofar : ∀ b ∈ sofar, (b != newline) = true := by
    intro b hb
    refine bne_iff_ne.mpr ?_
    rintro rfl
    exact hno hb
  have htake : (frame v.verb name payload ++ more).takeWhile (· != newline) = headerLine v name :=
    takeWhile_frame hname more
  rw [← hpart, List.append_assoc, List.takeWhile_append_of_pos hsofar] at htake
  have hlen := congrArg List.length htake
  have hle : (c.takeWhile (· != newline)).length ≤ ((c ++ rest).takeWhile (· != newline)).length := by
    rw [List.takeWhile_append]
    split
    · rename_i heq
      rw [heq, List.length_append]
      exact Nat.le_add_right _ _
    · exact le_rfl
  rw [List.length_append] at hlen
  rw [hcmd, List.nil_append]
  omega

def chunk (c : Bytes) : List Item := c.map .byte

theorem readable_chunk (c : Bytes) : readable (chunk c) = c := by
  simpa [chunk, readable] using readable_append c []

theorem ending_chunk (c : Bytes) : ending (chunk c) = .again := by
  simpa [chunk, ending] using ending_append c []

/-- What one chunk makes `handle_data` do, where the frame stands at `sofar`. -/
theorem Partway.call (h : Partway m fd p sofar got) (hroom : Room (m.heap p) c) (hc : c ≠ [])
    (hio : io.recv.Benign) :
    ∃ m' f, Step m (.data fd (chunk c) io) m'
      ∧ CallCase fd p io (m.arriving fd (chunk c)) m'
      ∧ (m.arriving fd (chunk c)).parsePhase fd p io.recv = some f
      ∧ FrameCase fd p io.recv (m.arriving fd (chunk c))
        (frameReader.feed (.header []) (sofar ++ c)) .again f
      ∧ ((f.master.heap p).alive = true ∨ (f.master.heap p).status ≠ .start →
        ∃ got' bs, Eats fd p (m.arriving fd (chunk c)) f.master got got' bs) := by
  have hr := h.reachable.registry
  have hready := h.reachable.ready
  have hs0 := deliver_same fd hr.ranged (chunk c)
  have hready0 : Ready (m.arriving fd (chunk c)) := hready.untouched hs0.kernel fun q => .refl _
  have hr0 : Registry (m.arriving fd (chunk c)) := hr.same hs0
  have hat0 : At (m.arriving fd (chunk c)) fd p := h.here.same hs0
  have hbox : (m.arriving fd (chunk c)).kernel.inbox fd = chunk c := by
    rw [arriving_inbox, stream, h.drained, List.nil_append]
  have hread : readable ((m.arriving fd (chunk c)).kernel.inbox fd) = c := by
    rw [hbox, readable_chunk]
  have hend : ending ((m.arriving fd (chunk c)).kernel.inbox fd) = .again := by
    rw [hbox, ending_chunk]
  have hroom0 : Room ((m.arriving fd (chunk c)).heap p)
      (readable ((m.arriving fd (chunk c)).kernel.inbox fd)) := by
    rw [hread]
    exact hroom
  obtain ⟨m', hm'⟩ := handleData_total hready0 hr0 hat0 h.isOpen hroom0 io
  have hne : (chunk c).isEmpty = false := by
    cases c with
    | nil => exact (hc rfl).elim
    | cons b c => rfl
  have hstep : Step m (.data fd (chunk c) io) m' := by
    refine ⟨?_, hm'⟩
    simp [enabled, h.isOpen, hne]
  obtain ⟨f, hpar⟩ := parsePhase_total hr0 (hready0.sound p) hat0 hroom0 io.recv
  have hframe := parsePhase_frame got hat0.workerFd (hready0.sound p) (hready0.opened p) h.alive
    h.parsing hpar
  have hcall := handleData_call hready0 hr0 hat0 h.isOpen h.alive hat0.current hm'
  have hstores : ((m.arriving fd (chunk c)).heap p).Stores (m.arriving fd (chunk c)).kernel got :=
    h.stores.congr rfl rfl (fun _ => rfl) (fun _ => rfl)
  refine ⟨m', f, hstep, hcall, hpar, ?_, fun hlive =>
    parsePhase_eats hat0.workerFd (hready0.sound p) h.parsing hio hstores hlive hpar⟩
  rw [hread, hend] at hframe
  rw [Consumer.feed_append, h.reading, List.nil_append]
  exact hframe

theorem ParserOnly.forwards (hpar : ParserOnly p m m₁) :
    ∃ l, m₁.log = m.log ++ l ∧ Master.forwards l = [] := by
  obtain ⟨l, hl, hp⟩ := hpar.log
  refine ⟨l, hl, List.filterMap_eq_nil_iff.mpr fun o ho => ?_⟩
  rcases hp o ho with ⟨_, _, _, rfl⟩ | ⟨_, rfl⟩ <;> rfl

/-- **A chunk inside the frame.** Nothing is forwarded. -/
theorem Partway.step (h : Partway m fd p sofar got) (hroom : Room (m.heap p) c) (hc : c ≠ [])
    (hio : io.recv.Benign)
    (hrun : frameReader.final (frameReader.feed (.header []) (sofar ++ c)).1 = false) :
    ∃ m' got', Step m (.data fd (chunk c) io) m' ∧ Partway m' fd p (sofar ++ c) got'
      ∧ ∃ l, m'.log = m.log ++ l ∧ Master.forwards l = [] := by
  obtain ⟨m', f, hstep, hcall, hpar, hframe, heats⟩ := h.call hroom hc hio
  have hr := h.reachable.registry
  have hs0 := deliver_same fd hr.ranged (chunk c)
  have hread : readable ((m.arriving fd (chunk c)).kernel.inbox fd) = c := by
    rw [arriving_inbox, stream, h.drained, List.nil_append, readable_chunk]
  cases hframe with
  | complete m₁ v name got₁ last hres =>
      rw [hres] at hrun
      cases hrun
  | rejected f last hres =>
      rcases hres with ⟨-, hne, -⟩ | ⟨hbad, -⟩
      · exact (hne rfl).elim
      · rw [hbad] at hrun
        cases hrun
  | failed m₁ st last hres hlog hstage hst hlast hbenign =>
      exact ((hbenign hio).2 rfl).elim
  | starved m₁ st got₁ hres _ hend hinbox hlog hsound halive =>
      obtain ⟨hst, rfl⟩ : (m₁.heap p).status ≠ .forwardData ∧ m' = m₁ := by
        cases hcall with
        | unfinished f hpar' hst heq =>
            obtain rfl := Option.some.inj (hpar.symm.trans hpar')
            exact ⟨hst, heq⟩
        | dropped m₂ hpar' => cases hpar.symm.trans hpar'
        | submitted m₂ name ret k hpar' => cases hpar.symm.trans hpar'
        | answered m₂ name ret k hpar' => cases hpar.symm.trans hpar'
      obtain ⟨got', bs, he⟩ := heats (Or.inl halive)
      have hbs : bs = c := by
        rcases he.rest with hrest | hrest <;> rw [hread] at hrest
        · rw [hrest, Flow.master, hinbox]
          simp [readable]
        · exact hrest.symm
      subst hbs
      have hr0 : Registry (m.arriving fd (chunk bs)) := hr.same hs0
      have hat0 : At (m.arriving fd (chunk bs)) fd p := h.here.same hs0
      obtain ⟨l, hl, hfwd⟩ := (parsePhase_parserOnly hpar).forwards
      refine ⟨m', got', hstep, ⟨h.reachable.step hstep, ?_, ?_, halive, hst, hinbox, ?_, he.stores⟩,
        l, hl, hfwd⟩
      · exact hat0.alive hr0 (parsePhase_change hr0 hat0 hpar) halive
      · have hsock : (m.arriving fd (chunk bs)).kernel.desc fd = some .sock := h.isOpen
        exact (parsePhase_change hr0 hat0 hpar).isOpen hsock halive
      · rw [Consumer.feed_append, h.reading, List.nil_append]
        exact he.feed

theorem submitted_forwards {m₁ : Master} {ret : Ret} {k : Kernel} (hpar : ParserOnly p m m₁)
    (hverb : (m₁.heap p).toDo = v) (hname : (m₁.heap p).tempFileName = some name)
    (heq : m' = (m₁.submitted p name).forwarded fd p ret k) :
    ∃ i, Master.forwards (newLog m m') =
      [.forward p i m₁.target v name (m₁.kernel.store (m₁.kernel.resolve name)) ret] := by
  obtain ⟨ts, hself⟩ := submitted_self (m := m₁) (p := p) name
  have hlog := forwarded_log (m := m₁.submitted p name) (p := p) fd ret k
  rw [submitted_log, List.append_assoc, ← heq, hself, submitted_kernel] at hlog
  refine ⟨decide (fd = (m₁.submitted p name).interfaceFd), ?_⟩
  rw [Master.forwards, hpar.filterMap hlog (by rintro o (⟨_, _, _, rfl⟩ | ⟨_, rfl⟩) <;> rfl)]
  simp only [hverb, hname, Option.getD_some]
  rfl

theorem answered_forwards {m₁ : Master} {ret : Ret} {k : Kernel} (hpar : ParserOnly p m m₁)
    (hverb : (m₁.heap p).toDo = v) (hname : (m₁.heap p).tempFileName = some name)
    (heq : m' = (m₁.answered p name).forwarded fd p ret k) :
    ∃ i, Master.forwards (newLog m m') =
      [.forward p i m₁.interfaceFd v name (m₁.kernel.store (m₁.kernel.resolve name)) ret] := by
  obtain ⟨ts, hself⟩ := answered_self (m := m₁) (p := p) name
  have hlog := forwarded_log (m := m₁.answered p name) (p := p) fd ret k
  rw [answered_log, List.append_assoc, ← heq, hself, answered_kernel] at hlog
  refine ⟨decide (fd = (m₁.answered p name).interfaceFd), ?_⟩
  rw [Master.forwards, hpar.filterMap hlog (by rintro o (⟨_, _, _, rfl⟩ | ⟨_, rfl⟩) <;> rfl)]
  simp only [hverb, hname, Option.getD_some]
  rfl

theorem Eats.whole {bs got' : Bytes} (h : Eats fd p m m₁ got got' bs)
    (hst : (m₁.heap p).status = .forwardData) (hname : (m₁.heap p).tempFileName = some name)
    (hfeed : (frameReader.feed ((m.heap p).dec got) (readable (m.kernel.inbox fd))).1 =
      .done v name payload) : (m₁.heap p).Stores m₁.kernel payload := by
  have hdec : (m₁.heap p).dec got' = .done (m₁.heap p).toDo name got' := by
    simp [Worker.dec, hst, hname]
  have hres := h.result (by rw [hdec]; rfl)
  rw [hfeed, hdec] at hres
  obtain ⟨-, -, rfl⟩ := Dec.done.inj hres
  exact h.stores

theorem Eats.stored {bs got' : Bytes} (h : Eats fd p m m₁ got got' bs)
    (hst : (m₁.heap p).status = .forwardData) (hname : (m₁.heap p).tempFileName = some name)
    (hfeed : (frameReader.feed ((m.heap p).dec got) (readable (m.kernel.inbox fd))).1 =
      .done v name payload) (hpay : payload ≠ []) :
    m₁.kernel.store (m₁.kernel.resolve name) = some payload := by
  have hstores := h.whole hst hname hfeed
  have hopen : (m₁.heap p).tempFd ≠ -1 := fun hc => hpay (hstores.closed hc)
  have hstore := hstores.store hopen
  rwa [Worker.tempPath, hname, Option.getD_some] at hstore

/-- **The chunk that ends the frame.** It is forwarded, and what is behind
it is left. -/
theorem Partway.ends (h : Partway m fd p sofar got) (hroom : Room (m.heap p) c) (hc : c ≠ [])
    (hio : io.recv.Benign) (hpay : payload ≠ [])
    (hdone : frameReader.feed (.header []) (sofar ++ c) = (.done v name payload, more)) :
    ∃ m' i dst ret, Step m (.data fd (chunk c) io) m'
      ∧ Master.forwards (newLog m m') = [.forward p i dst v name (some payload) ret]
      ∧ readable (m'.kernel.inbox fd) = more := by
  obtain ⟨m', f, hstep, hcall, hpar, hframe, heats⟩ := h.call hroom hc hio
  have hread : readable ((m.arriving fd (chunk c)).kernel.inbox fd) = c := by
    rw [arriving_inbox, stream, h.drained, List.nil_append, readable_chunk]
  have hfeed := hdone
  rw [Consumer.feed_append, h.reading, List.nil_append] at hfeed
  have hresult : (frameReader.feed (((m.arriving fd (chunk c)).heap p).dec got)
      (readable ((m.arriving fd (chunk c)).kernel.inbox fd))).1 = .done v name payload := by
    rw [hread]
    exact congrArg Prod.fst hfeed
  rw [hdone] at hframe
  cases hframe with
  | starved m₁ st got₁ hres hrun => cases hrun
  | rejected f last hres =>
      rcases hres with ⟨hin, -⟩ | ⟨hbad, -⟩
      · cases hin
      · cases hbad
  | failed m₁ st last hres hlog hstage hst hlast hbenign => cases (hbenign hio).1
  | complete m₁ v₁ name₁ got₁ last hres hlog hlast hst hverb hname hsound halive =>
      obtain ⟨hdec, hrest⟩ := Prod.mk.inj hres
      obtain ⟨rfl, rfl, rfl⟩ := Dec.done.inj hdec
      obtain ⟨got', bs, he⟩ := heats (Or.inr (by simp [Flow.master, hst]))
      have hstored : m₁.kernel.store (m₁.kernel.resolve name) = some payload :=
        he.stored hst hname hresult hpay
      have hpo : ParserOnly p m m₁ := by
        obtain ⟨h1, h2, h3, h4, h5, h6⟩ := parsePhase_parserOnly hpar
        exact ⟨h1, h2, h3, h4, h5, h6⟩
      cases hcall with
      | unfinished f hpar' hst' =>
          obtain rfl := Option.some.inj (hpar.symm.trans hpar')
          exact (hst' hst).elim
      | dropped m₂ hpar' hst' hfd hal =>
          obtain rfl := Flow.next.inj (Option.some.inj (hpar.symm.trans hpar'))
          rw [halive, decide_eq_true hpay] at hal
          cases hal
      | submitted m₂ name₂ ret k hpar' hst' hname' hfd hput heq =>
          obtain rfl := Flow.next.inj (Option.some.inj (hpar.symm.trans hpar'))
          obtain rfl := Option.some.inj (hname.symm.trans hname')
          obtain ⟨i, hfwd⟩ := submitted_forwards hpo hverb hname heq
          refine ⟨m', i, _, ret, hstep, by rw [hfwd, hstored], ?_⟩
          rw [(submitted_ended hput heq).inbox, ← hrest]
      | answered m₂ name₂ ret k hpar' hst' hname' hfd hal hput heq =>
          obtain rfl := Flow.next.inj (Option.some.inj (hpar.symm.trans hpar'))
          obtain rfl := Option.some.inj (hname.symm.trans hname')
          obtain ⟨i, hfwd⟩ := answered_forwards hpo hverb hname heq
          refine ⟨m', i, _, ret, hstep, by rw [hfwd, hstored], ?_⟩
          rw [(answered_ended hput heq).inbox, ← hrest]

/-! ## All chunks -/

/-- The bytes a sender has emitted for the file `name`, with verb `v`. -/
inductive Emitted (v : Command) (name payload bs : Bytes) : Prop where
  | interface (k k' : Kernel) (sockFd : Int) (os os' : List Outcome) (hv : v = .interfacePut)
      (hd : k.desc sockFd = some .sock) (hstore : k.store (k.resolve name) = some payload)
      (hos : Accepting os) (hsend : submit k sockFd name os = some (os', k'))
      (hsent : k'.sent sockFd = k.sent sockFd ++ bs)
  | worker (k k' : Kernel) (socket : Int) (task : WorkerTask) (path : Bytes) (off : Nat)
      (mem : Nat → UInt8) (os os' : List Outcome) (ok : Bool) (hv : v = .put)
      (hd : k.desc socket = some .sock) (hname : task.inputFilename = some name)
      (hfile : k.desc task.outputFd = some (.file path off)) (hstore : k.store path = some payload)
      (hos : Accepting os) (hsend : sendBack k socket task mem os = some (ok, os', k'))
      (hsent : k'.sent socket = k.sent socket ++ bs)

theorem Emitted.eq_frame {bs : Bytes} (h : Emitted v name payload bs) :
    bs = frame v.verb name payload := by
  cases h with
  | interface k k' sockFd os os' hv hd hstore hos hsend hsent =>
      rw [submit_sent hd hstore hos hsend] at hsent
      rw [hv]
      exact (List.append_cancel_left hsent).symm
  | worker k k' socket task path off mem os os' ok hv hd hname hfile hstore hos hsend hsent =>
      rw [(sendBack_sent hd hname hfile hstore hos hsend).2] at hsent
      rw [hv]
      exact (List.append_cancel_left hsent).symm

def arrivals (fd : Int) (cs : List (Bytes × DataIo)) : List Event :=
  cs.map fun c => .data fd (chunk c.1) c.2

theorem Partway.run {cs : List (Bytes × DataIo)} {rest : Bytes}
    (h : Partway m fd p sofar got) (hname : Sendable name)
    (hline : (headerLine v name).length < commandBufSize)
    (hcs : ∀ c ∈ cs, c.1 ≠ [] ∧ c.2.recv.Benign) (hrest : rest ≠ [])
    (hlen : payload.length < 2 ^ 64)
    (hparts : sofar ++ (cs.map Prod.fst).flatten ++ rest = frame v.verb name payload) :
    ∃ m' got', m.execWithin (fun _ _ => true) (arrivals fd cs) = some m'
      ∧ Partway m' fd p (sofar ++ (cs.map Prod.fst).flatten) got'
      ∧ ∃ l, m'.log = m.log ++ l ∧ Master.forwards l = [] := by
  induction cs generalizing m sofar got with
  | nil => exact ⟨m, got, rfl, by simpa using h, [], by simp, rfl⟩
  | cons c cs ih =>
      obtain ⟨hc, hio⟩ := hcs c (List.mem_cons_self ..)
      have hparts₁ : sofar ++ c.1 ++ (cs.map Prod.fst).flatten ++ rest =
          frame v.verb name payload := by
        rw [← hparts]
        simp
      have hwhole : sofar ++ c.1 ++ ((cs.map Prod.fst).flatten ++ rest) =
          frame v.verb name payload ++ [] := by
        rw [← List.append_assoc, hparts₁, List.append_nil]
      have hroom : Room (m.heap p) c.1 := h.room hname hline hwhole
      have hrun : frameReader.final (frameReader.feed (.header []) (sofar ++ c.1)).1 = false := by
        have hfeed : frameReader.feed (.header []) (frame v.verb name payload ++ []) =
            (.done v name payload, []) := feed_frame hname hlen []
        rw [List.append_nil, ← hparts₁, List.append_assoc] at hfeed
        exact Consumer.running_of_append (congrArg Prod.snd hfeed) (by simp [hrest])
      obtain ⟨m₁, got₁, hstep, hpart, l, hl, hfwd⟩ := h.step hroom hc hio hrun
      obtain ⟨m', got', hexec, hpart', l', hl', hfwd'⟩ := ih hpart
        (fun c hc => hcs c (List.mem_cons_of_mem _ hc)) hparts₁
      refine ⟨m', got', ?_, ?_, l ++ l', ?_, ?_⟩
      · rw [arrivals, List.map_cons, execWithin, hstep.1, Bool.and_self, if_pos rfl, hstep.2]
        exact hexec
      · simpa using hpart'
      · rw [hl', hl, List.append_assoc]
      · rw [Master.forwards, List.filterMap_append]
        exact List.append_eq_nil_iff.mpr ⟨hfwd, hfwd'⟩

/-- **The decoder inverts both senders, however their bytes are cut.** On a
connection whose record is fresh, the chunks before the last forward
nothing, and the last forwards one frame with the verb, the name and the
payload of the sender; what is behind the frame is left unread. -/
theorem decodes_every_chunking (cs : List (Bytes × DataIo)) (last more : Bytes) (io : DataIo)
    {bs : Bytes} (hr : Reachable m) (hd : m.kernel.desc fd = some .sock) (hcur : m.current fd = some p)
    (halive : (m.heap p).alive = true) (hst : (m.heap p).status = .start)
    (hcmd : (m.heap p).command = []) (hbox : m.kernel.inbox fd = [])
    (hname : Sendable name) (hline : (headerLine v name).length < commandBufSize)
    (hpay : payload ≠ []) (hlen : payload.length < 2 ^ 64) (hemit : Emitted v name payload bs)
    (hcs : ∀ c ∈ cs, c.1 ≠ [] ∧ c.2.recv.Benign) (hlast : last ≠ []) (hio : io.recv.Benign)
    (hparts : (cs.map Prod.fst).flatten ++ last = bs) :
    ∃ m₁ m₂, m.execWithin (fun _ _ => true) (arrivals fd cs) = some m₁
      ∧ forwards (newLog m m₁) = []
      ∧ Step m₁ (.data fd (chunk (last ++ more)) io) m₂
      ∧ (∃ i dst ret, forwards (newLog m₁ m₂) = [.forward p i dst v name (some payload) ret])
      ∧ readable (m₂.kernel.inbox fd) = more := by
  obtain rfl := hemit.eq_frame
  have h0 := Partway.fresh hr hd hcur halive hst hcmd hbox
  obtain ⟨m₁, got, hexec, hpart, l, hl, hfwd⟩ := h0.run hname hline hcs hlast hlen hparts
  rw [List.nil_append] at hpart
  have hall : (cs.map Prod.fst).flatten ++ (last ++ more) ++ [] =
      frame v.verb name payload ++ more := by
    rw [← hparts]
    simp
  have hdone : frameReader.feed (.header []) ((cs.map Prod.fst).flatten ++ (last ++ more)) =
      (.done v name payload, more) := by
    rw [List.append_nil] at hall
    rw [hall]
    exact feed_frame hname hlen more
  obtain ⟨m₂, i, dst, ret, hstep, hforward, hrest⟩ := hpart.ends (hpart.room hname hline hall)
    (by simp [hlast]) hio hpay hdone
  refine ⟨m₁, m₂, hexec, ?_, hstep, ⟨i, dst, ret, hforward⟩, hrest⟩
  rw [newLog_of_append hl]
  exact hfwd

/-- The interface, with the file `a` and a connection on 3. -/
def interfaceKernel : Kernel :=
  { (init id).kernel with
    desc := Function.update (fun _ => none) 3 (some .sock)
    store := Function.update (fun _ => none) [97] (some [120]) }

theorem interface_emits :
    Emitted .interfacePut [97] [120] (frame interfacePutVerb [97] [120]) := by
  have hsome : (submit interfaceKernel 3 [97] [.take 2, .intr]).isSome = true := by
    decide +kernel
  obtain ⟨⟨os', k'⟩, hsend⟩ := Option.isSome_iff_exists.mp hsome
  have hos : Accepting [.take 2, .intr] := by decide
  exact .interface interfaceKernel k' 3 _ os' rfl rfl rfl hos hsend (submit_sent rfl rfl hos hsend)

/-- The line is cut behind its third byte, and the size behind its first. -/
theorem decodes_every_chunking_three :
    ∃ m m₁ m₂, Reachable m ∧ m.interfaceFd = -1
      ∧ m.execWithin (fun _ _ => true) (arrivals 5 [([73, 78, 84], {}),
          ([69, 82, 70, 65, 67, 69, 95, 80, 85, 84, 32, 97, 10, 1], {})]) = some m₁
      ∧ forwards (newLog m m₁) = []
      ∧ Step m₁ (.data 5 (chunk ([0, 0, 0, 0, 0, 0, 0, 120] ++ [80, 85])) {}) m₂
      ∧ (∃ i dst ret, forwards (newLog m₁ m₂) = [.forward 0 i dst .interfacePut [97] (some [120]) ret])
      ∧ readable (m₂.kernel.inbox 5) = [80, 85] := by
  obtain ⟨m, hr, hv⟩ := execWithin_spec (c := fun _ _ => true) id (v := true)
    [.accept [⟨5, [5], default⟩, ⟨6, [6], default⟩]]
    (f := fun m => decide (m.kernel.desc 5 = some .sock ∧ m.current 5 = some 0
      ∧ (m.heap 0).alive = true ∧ (m.heap 0).status = .start ∧ (m.heap 0).command = []
      ∧ m.kernel.inbox 5 = [] ∧ m.interfaceFd = -1)) (by decide +kernel)
  obtain ⟨hd, hcur, halive, hst, hcmd, hbox, hifd⟩ := of_decide_eq_true hv
  have hsmooth : RecvIo.Benign {} := ⟨rfl, nofun⟩
  obtain ⟨m₁, m₂, hexec, hnone, hstep, hforward, hrest⟩ := decodes_every_chunking
    [([73, 78, 84], {}), ([69, 82, 70, 65, 67, 69, 95, 80, 85, 84, 32, 97, 10, 1], {})]
    [0, 0, 0, 0, 0, 0, 0, 120] [80, 85] {}
    hr.reachable hd hcur halive hst hcmd hbox (by decide) (by decide) (by simp) (by decide)
    interface_emits (by simp [hsmooth]) (by simp) hsmooth rfl
  exact ⟨m, m₁, m₂, hr.reachable, hifd, hexec, hnone, hstep, hforward, hrest⟩

end Master

end KeyLime
