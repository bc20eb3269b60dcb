import KeyLime.Naming
import KeyLime.Payloads

/-!
# Results of every length

A result is delivered by the call that meets the end of its frame: the task is
taken off the list, the frame goes to the interface, and the record is fresh
again. Two things come in between (`delivered_iff`):

* for a result with no payload `handle_data` has cleared `alive` by then, so that
  it returns instead, and the task stays where it is;
* bytes that came in one piece with the end of the frame, and are behind it, stay
  unread. The next frame is not looked at in this call, and no further event need
  come on an edge-triggered connection.

`Serving` is what the statement begins with: the record of a worker between two
frames, on a connection with nothing unread. It is also the last part of
`Delivers`, so that after a delivery the next result can be taken in the same
way.

The parts of a frame are given as any list of chunks, none of them empty, with
reads that may come short or be interrupted. All but the last leave the record
waiting for more (`Waits`), and the last is where the frame of `Forward` is
completed.
-/

namespace KeyLime

open Resume

variable {k k' : Kernel} {dst src : Int} {size fuel : Nat} {reads writes : List Outcome}
  {w : Worker} {name payload : Bytes}

/-! ## `do_put` without errors -/

/-- Short and interrupted reads and writes, but no failure. -/
structure PutIo.Benign (io : PutIo) : Prop where
  fopen : io.fopenOk = true
  file : Accepting io.reads
  sock : Smooth io.writes

theorem readBlock_pos (src : Int) (h : size ≠ 0) (reads : List Outcome) :
    ∃ n, 0 < n ∧ n ≤ size ∧ readBlock k src size reads = k.readFile src n := by
  unfold readBlock
  split
  · refine ⟨_, ?_, ?_, rfl⟩
    · split <;> omega
    · refine (Nat.min_le_right ..).trans ?_
      split <;> omega
  · refine ⟨_, ?_, ?_, rfl⟩ <;> split <;> omega

/-- **The loop comes to its end.** Every round sends a byte of the file or uses
up an interrupted read. -/
theorem putLoop_benign (hdst : k.desc dst = some .sock) (hsrc : src ≠ dst)
    (hreads : Accepting reads) (hwrites : Smooth writes)
    (hrem : size ≤ (k.remaining src).length) (hfuel : size + reads.length ≤ fuel) :
    (putLoop dst src fuel reads writes size k).1 = .doneSending := by
  induction fuel generalizing reads writes size k with
  | zero =>
      obtain rfl : size = 0 := by omega
      rw [putLoop_done]
  | succ fuel ih =>
      by_cases h0 : size = 0
      · rw [h0, putLoop_done]
      · cases nextRead reads with
        | intr os =>
            rw [List.length_cons] at hfuel
            rw [putLoop_intr writes k h0]
            exact ih hdst hreads.tail hwrites hrem (by omega)
        | stop o os ho =>
            obtain ⟨hzero, hagain, hfail⟩ := hreads o (List.mem_cons_self ..)
            rcases ho with ho | ho | ho
            · exact (hagain ho).elim
            · exact (hfail ho).elim
            · exact (hzero ho).elim
        | data hdata =>
            obtain ⟨n, hpos, hn, hblock⟩ := readBlock_pos (k := k) src h0 reads
            obtain ⟨hblk, hrem₁, -, hdesc⟩ := readFile_spec (k := k) hsrc n
            have hlen : ((k.remaining src).take n).length = n := by
              rw [List.length_take, Nat.min_eq_left (hn.trans hrem)]
            have hd₁ : (k.readFile src n).2.desc dst = some .sock := hdesc.trans hdst
            obtain ⟨os', hos', hwrite⟩ := writeAllToSocket_smooth (k := (k.readFile src n).2)
              ((k.remaining src).take n) (by rw [hd₁]; simp) hwrites
            have hne : (k.remaining src).take n ≠ [] := List.ne_nil_of_length_pos (by omega)
            rw [putLoop_data writes k h0 hdata]
            simp only [hblock, hblk, hwrite, hlen]
            rw [if_neg hne, if_neg (by omega)]
            have hremaining :
                ((k.readFile src n).2.put dst ((k.remaining src).take n)).remaining src =
                  (k.remaining src).drop n := by
              rw [← hrem₁]
              exact Kernel.remaining_congr (by rw [Kernel.put_sock_desc hd₁]) (by
                rw [Kernel.put_sock hd₁])
            refine ih ?_ (fun o ho => hreads o (List.mem_of_mem_tail ho)) hos' ?_ ?_
            · rw [Kernel.put_sock_desc hd₁]
              exact hd₁
            · rw [hremaining, List.length_drop]
              omega
            · rw [List.length_tail]
              omega

/-- **Without errors `do_put` succeeds.** -/
theorem doPut_benign {io : PutIo} (hname : w.tempFileName = some name)
    (hdst : k.desc dst = some .sock) (hopen : w.tempFd ≠ -1) (hs : w.Stores k payload)
    (hio : io.Benign) : ∃ k', doPut k dst w io = some (.doneSending, k') := by
  have hd := hs.desc hopen
  have hstore := hs.store hopen
  have hsrc : w.tempFd ≠ dst := by
    rintro rfl
    rw [hd] at hdst
    cases hdst
  have hsize : getFileSize k.lock name io.fopenOk = payload.length := by
    rw [Worker.tempPath, hname, Option.getD_some] at hstore
    have hstore' : k.lock.store (k.lock.resolve name) = some payload := hstore
    rw [getFileSize, if_pos hio.fopen, hstore', Option.getD_some]
  have hopened : k.lock.desc dst ≠ none := by simp [Kernel.lock, hdst]
  obtain ⟨os₁, hos₁, hheader⟩ := writeAllToSocket_smooth (putHeader name) hopened hio.sock
  have hd₁ : (k.lock.put dst (putHeader name)).desc dst = some .sock := by
    rwa [Kernel.put_sock_desc (k := k.lock) hdst]
  obtain ⟨os₂, hos₂, hcount⟩ := writeAllToSocket_smooth (sizeBytes payload.length)
    (by rw [hd₁]; simp) hos₁
  have hdesc₂ : ((k.lock.put dst (putHeader name)).put dst (sizeBytes payload.length)).desc =
      k.desc := (Kernel.put_sock_desc hd₁ _).trans (Kernel.put_sock_desc (k := k.lock) hdst _)
  have hstore₂ : ((k.lock.put dst (putHeader name)).put dst (sizeBytes payload.length)).store =
      k.store := by
    rw [Kernel.put_sock hd₁, Kernel.put_sock (k := k.lock) hdst]
    rfl
  generalize (k.lock.put dst (putHeader name)).put dst (sizeBytes payload.length) = k₂
    at hcount hdesc₂ hstore₂
  have hrem : (k₂.rewind w.tempFd).remaining w.tempFd = payload := by
    simp [Kernel.rewind, Kernel.remaining, hdesc₂, hstore₂, hd, hstore]
  have hdst₂ : (k₂.rewind w.tempFd).desc dst = some .sock := by
    rw [(rewind_delivered dst w.tempFd).desc dst hsrc.symm, hdesc₂]
    exact hdst
  have hall : payload.length ≤ ((k₂.rewind w.tempFd).remaining w.tempFd).length := by rw [hrem]
  have hloop := putLoop_benign hdst₂ hsrc hio.file hos₂ hall le_rfl
  rw [doPut, hname, Option.map_some]
  simp only [hsize, hheader, hcount, sizeBytes_length]
  rw [if_neg (fun hne => hne rfl), if_neg (by omega)]
  exact ⟨_, congrArg some (Prod.ext hloop rfl)⟩

namespace Master

variable {m m₁ m' : Master} {fd : Int} {p : Nat} {f : Flow} {io : DataIo} {c got more sofar : Bytes}
  {cs : List (Bytes × DataIo)}

/-! ## A worker's connection -/

/-- The record `p` of a worker on the connection `fd` is between two frames,
nothing is unread on the connection, and an interface is registered. What is
unread matters: `handle_data` is called once for each arrival and handles one
frame at most, so that bytes that were there before are taken for the frame. -/
structure Serving (m : Master) (fd : Int) (p : Nat) : Prop where
  isOpen : m.kernel.desc fd = some .sock
  drained : m.kernel.inbox fd = []
  current : m.current fd = some p
  alive : (m.heap p).alive = true
  status : (m.heap p).status = .start
  command : (m.heap p).command = []
  registered : m.interfaceFd ≠ -1
  other : fd ≠ m.interfaceFd

instance (m : Master) (fd : Int) (p : Nat) : Decidable (m.Serving fd p) :=
  decidable_of_iff (m.kernel.desc fd = some .sock ∧ m.kernel.inbox fd = []
      ∧ m.current fd = some p ∧ (m.heap p).alive = true ∧ (m.heap p).status = .start
      ∧ (m.heap p).command = [] ∧ m.interfaceFd ≠ -1 ∧ fd ≠ m.interfaceFd)
    ⟨fun ⟨h1, h2, h3, h4, h5, h6, h7, h8⟩ => ⟨h1, h2, h3, h4, h5, h6, h7, h8⟩,
      fun ⟨h1, h2, h3, h4, h5, h6, h7, h8⟩ => ⟨h1, h2, h3, h4, h5, h6, h7, h8⟩⟩

/-- What does not change while the parts of a result come in: the connections and
the interface, what has been sent on any of them, and the tasks of the record. -/
structure Waits (p : Nat) (m m' : Master) : Prop where
  same : Same m m'
  sent : m'.kernel.sent = m.kernel.sent
  tasks : (m'.heap p).tasks = (m.heap p).tasks

theorem Waits.trans (h : Waits p m m₁) (h' : Waits p m₁ m') : Waits p m m' :=
  ⟨h.same.trans h'.same, h'.sent.trans h.sent, h'.tasks.trans h.tasks⟩

theorem parsePhase_worker {rio : RecvIo} (hr : Registry m) (hat : At m fd p)
    (hifd : m.interfaceFd ≠ -1) (hne : fd ≠ m.interfaceFd)
    (hpar : m.parsePhase fd p rio = some f) : Same m f.master := by
  cases parsePhase_change hr hat hpar with
  | same hs => exact hs
  | joins hj => exact (hifd hj.vacant).elim
  | quits hq => exact (hne hq.iface).elim

theorem parsePhase_waits {rio : RecvIo} (hready : Ready m) (hr : Registry m) (hat : At m fd p)
    (hifd : m.interfaceFd ≠ -1) (hne : fd ≠ m.interfaceFd)
    (hpar : m.parsePhase fd p rio = some f) : Waits p m f.master :=
  ⟨parsePhase_worker hr hat hifd hne hpar,
    parsePhase_sent hr hat (hready.sound p) (hready.opened p) hpar,
    (parsePhase_parserOnly hpar).record.tasks⟩

/-- **A call that forwards nothing.** -/
theorem Step.waits {arrived : List Item} (hr : Reachable m)
    (hs : Step m (.data fd arrived io) m') (hat : At m fd p)
    (hifd : m.interfaceFd ≠ -1) (hne : fd ≠ m.interfaceFd)
    (hquiet : forwards (newLog m m') = []) : Waits p m m' := by
  obtain ⟨q, hat', hready0, hr0, hat0, -, hcase⟩ := hs.call hr
  obtain rfl := hat'.unique hat.current
  have harriving : Waits p m (m.arriving fd arrived) :=
    ⟨deliver_same fd hr.registry.ranged arrived, rfl, rfl⟩
  rcases hcase with ⟨-, rfl⟩ | ⟨-, hcase⟩
  · exact harriving
  · refine harriving.trans ?_
    cases hcase with
    | unfinished f hpar hst heq => exact heq ▸ parsePhase_waits hready0 hr0 hat0 hifd hne hpar
    | dropped m₁ hpar hst hfd hal heq =>
        exact heq ▸ parsePhase_waits hready0 hr0 hat0 hifd hne hpar
    | submitted m₁ name ret k hpar hst hname hfd hput heq =>
        have hwait := parsePhase_waits hready0 hr0 hat0 hifd hne hpar
        exact (hne (hfd.trans hwait.same.interfaceFd)).elim
    | answered m₁ name ret k hpar hst hname hfd hal hput heq =>
        obtain ⟨i, hforward⟩ := answered_forwards (parsePhase_parserOnly hpar) rfl hname heq
        have hlog : newLog (m.arriving fd arrived) m' = newLog m m' := rfl
        rw [hlog, hquiet] at hforward
        cases hforward

theorem execWithin_log {ck : Master → Event → Bool} {es : List Event} (hr : Reachable m)
    (h : m.execWithin ck es = some m') : ∃ l, m'.log = m.log ++ l := by
  induction es generalizing m with
  | nil =>
      obtain rfl := Option.some.inj h
      exact ⟨[], (List.append_nil _).symm⟩
  | cons e es ih =>
      obtain ⟨m₁, hs, -, hrest⟩ := execWithin_cons h
      obtain ⟨l₁, hl₁⟩ := hs.log hr
      obtain ⟨l₂, hl₂⟩ := ih (hr.step hs) hrest
      exact ⟨l₁ ++ l₂, by rw [hl₂, hl₁, List.append_assoc]⟩

theorem run_waits {l : List Obs} (hr : Reachable m) (hat : At m fd p) (hifd : m.interfaceFd ≠ -1)
    (hne : fd ≠ m.interfaceFd) (h : m.execWithin (fun _ _ => true) (arrivals fd cs) = some m')
    (hlog : m'.log = m.log ++ l) (hquiet : forwards l = []) : Waits p m m' := by
  induction cs generalizing m l with
  | nil =>
      obtain rfl := Option.some.inj h
      exact ⟨.refl hr.registry.ranged, rfl, rfl⟩
  | cons c cs ih =>
      obtain ⟨m₁, hs, -, hrest⟩ := execWithin_cons h
      obtain ⟨l₁, hl₁⟩ := hs.log hr
      obtain ⟨l₂, hl₂⟩ := execWithin_log (hr.step hs) hrest
      rw [hl₂, hl₁, List.append_assoc] at hlog
      obtain rfl := List.append_cancel_left hlog
      rw [forwards, List.filterMap_append, List.append_eq_nil_iff] at hquiet
      have hwait : Waits p m m₁ :=
        hs.waits hr hat hifd hne (by rw [newLog_of_append hl₁]; exact hquiet.1)
      refine hwait.trans (ih (hr.step hs) (hat.same hwait.same) ?_ ?_ hrest hl₂ hquiet.2)
      · rw [hwait.same.interfaceFd]
        exact hifd
      · rw [hwait.same.interfaceFd]
        exact hne

/-! ## The end of the result -/

theorem answered_tasks (hr : Registry m) (hat : At m fd p) (hne : fd ≠ m.interfaceFd)
    (name : Bytes) :
    ((m.answered p name).heap p).tasks = (m.heap p).tasks.eraseP fun t => t.fileName = name := by
  have hp : p ∈ m.workerList := by
    rcases hat.place with h | ⟨-, h, -⟩
    · exact h.1
    · exact (hne h).elim
  have howner : m.ownerOf (m.heap p).workerFd = some p := by
    cases ho : m.ownerOf (m.heap p).workerFd with
    | none =>
        have := List.find?_eq_none.mp ho p hp
        simp at this
    | some q =>
        obtain ⟨hq, hfd⟩ := ownerOf_spec ho
        rw [hr.fdInj q hq p hp hfd]
  have htasks : ((m.answered p name).heap p).tasks =
      ((m.schedulerRemoveTask (m.heap p).workerFd name).heap p).tasks := by
    simp [answered, set]
  rw [htasks, schedulerRemoveTask, howner, List.eraseP_eq_eraseIdx]
  dsimp only
  cases hpos : (m.heap p).tasks.findIdx? fun t => t.fileName = name with
  | none => rfl
  | some i => simp [record, set]

/-- The first task of that name is off the list of the record, the frame of
the result and nothing else has gone to the interface, and the record is live,
in its fresh state and ready for the next frame: `serving` is what the state
before the result has to meet, so that results one after the other are
delivered by one theorem. -/
structure Delivers (fd : Int) (p : Nat) (name payload : Bytes) (m m' : Master) : Prop where
  removed : (m'.heap p).tasks = (m.heap p).tasks.eraseP fun t => t.fileName = name
  written : m'.kernel.sent m.interfaceFd =
    m.kernel.sent m.interfaceFd ++ frame putVerb name payload
  fresh : (m'.heap p).fresh = m'.heap p
  serving : m'.Serving fd p

theorem Delivers.after (h : Delivers fd p name payload m₁ m') (hw : Waits p m m₁) :
    Delivers fd p name payload m m' := by
  refine ⟨?_, ?_, h.fresh, h.serving⟩
  · rw [h.removed, hw.tasks]
  · rw [← hw.same.interfaceFd, ← hw.sent]
    exact h.written

theorem Registry.delivers {ret : Ret} {k : Kernel} (hr : Registry m) (hat : At m fd p)
    (hifd : m.interfaceFd ≠ -1) (hne : fd ≠ m.interfaceFd) (halive : (m.heap p).alive = true)
    (hd : m.kernel.desc fd = some .sock) (hname : (m.heap p).tempFileName = some name)
    (hstores : (m.heap p).Stores m.kernel payload) (hpay : payload ≠ []) (hio : io.put.Benign)
    (hdo : doPut (m.answered p name).kernel ((m.answered p name).heap p).fdToSendTo
      ((m.answered p name).heap p) io.put = some (ret, k))
    (heq : m' = (m.answered p name).forwarded fd p ret k) (hdrained : m'.kernel.inbox fd = []) :
    Delivers fd p name payload m m' := by
  obtain ⟨q, hq, hqfd, hsock, -⟩ := hr.iface hifd
  obtain ⟨ts, hself⟩ := answered_self (m := m) (p := p) name
  have hopen : (m.heap p).tempFd ≠ -1 := fun hc => hpay (hstores.closed hc)
  have hs := answered_same (p := p) hr.ranged name
  have hk := answered_kernel (m := m) (p := p) name
  have hifd' := answered_interfaceFd (m := m) (p := p) name
  have htasks := answered_tasks hr hat hne name
  rw [hself] at htasks
  rw [hself, hk] at hdo
  generalize hw : { m.heap p with
    tasks := ts, fdToSendTo := m.interfaceFd, status := .forwardingData } = w at hdo htasks hself
  have hname' : w.tempFileName = some name := hw ▸ hname
  have hopen' : w.tempFd ≠ -1 := hw ▸ hopen
  have hdst : w.fdToSendTo = m.interfaceFd := hw ▸ rfl
  have hstores' : w.Stores m.kernel payload :=
    hstores.congr (hw ▸ rfl) (hw ▸ rfl) (fun _ => rfl) fun _ => rfl
  rw [hdst] at hdo
  obtain ⟨k', hdone⟩ := doPut_benign hname' hsock hopen' hstores' hio
  obtain ⟨rfl, rfl⟩ := Prod.mk.inj (Option.some.inj (hdo.symm.trans hdone))
  have hext : (m.answered p name).kernel.Extends k := by
    rw [hk]
    exact doPut_extends hr.ranged hdo
  have hsame : Same m m' := by
    rw [heq]
    exact hs.trans (.of_update hext rfl rfl Or.inl rfl rfl rfl rfl)
  have hat' := hat.same hsame
  have hself' : m'.heap p = w.fresh := by rw [heq, forwarded_self, hself]
  refine ⟨?_, ?_, ?_, ?_⟩
  · rw [hself']
    exact htasks
  · rw [heq]
    exact doPut_done (Or.inl hsock) hname' hopen' hstores' hio.fopen hdo
  · rw [hself']
    rfl
  · refine ⟨(hsame.kernel.sock fd).mpr hd, hdrained, hat'.current, ?_, ?_, ?_, ?_, ?_⟩
    · rw [hself', ← hw]
      exact halive
    · rw [hself']
      rfl
    · rw [hself']
      rfl
    · rw [hsame.interfaceFd]
      exact hifd
    · rw [hsame.interfaceFd]
      exact hne

theorem drained_of_suffix {s : List Item} (h : s <:+ chunk c) (hread : readable s = []) : s = [] := by
  cases s with
  | nil => rfl
  | cons i s =>
      obtain ⟨b, -, rfl⟩ := List.mem_map.mp (h.subset List.mem_cons_self)
      cases hread

/-- **The chunk that ends the result.** An empty result leaves the record dead;
any other is delivered, and what is behind it in the chunk is left unread. -/
theorem Partway.answers (h : Partway m fd p sofar got) (hroom : Room (m.heap p) c) (hc : c ≠ [])
    (hrecv : io.recv.Benign) (hput : io.put.Benign) (hifd : m.interfaceFd ≠ -1)
    (hne : fd ≠ m.interfaceFd)
    (hdone : frameReader.feed (.header []) (sofar ++ c) = (.done .put name payload, more)) :
    ∃ m', Step m (.data fd (chunk c) io) m' ∧ readable (m'.kernel.inbox fd) = more
      ∧ (payload = [] → (m'.heap p).alive = false)
      ∧ (payload ≠ [] → more = [] → Delivers fd p name payload m m') := by
  obtain ⟨m', f, hstep, hcall, hpar, hframe, heats⟩ := h.call hroom hc hrecv
  have hread : readable ((m.arriving fd (chunk c)).kernel.inbox fd) = c := by
    rw [arriving_inbox, stream, h.drained, List.nil_append, readable_chunk]
  have hfeed := hdone
  rw [Consumer.feed_append, h.reading, List.nil_append] at hfeed
  have hr := h.reachable.registry
  have hs0 := deliver_same fd hr.ranged (chunk c)
  have hr0 : Registry (m.arriving fd (chunk c)) := hr.same hs0
  have hat0 : At (m.arriving fd (chunk c)) fd p := h.here.same hs0
  have hready0 : Ready (m.arriving fd (chunk c)) :=
    h.reachable.ready.untouched hs0.kernel fun q => .refl _
  have hsame : Same (m.arriving fd (chunk c)) f.master := parsePhase_worker hr0 hat0 hifd hne hpar
  have hwait : Waits p (m.arriving fd (chunk c)) f.master :=
    parsePhase_waits hready0 hr0 hat0 hifd hne hpar
  rw [hdone] at hframe
  cases hframe with
  | starved m₁ st got₁ hres hrun => cases hrun
  | rejected f last hres =>
      rcases hres with ⟨hin, -⟩ | ⟨hbad, -⟩
      · cases hin
      · cases hbad
  | failed m₁ st last hres hlog hstage hst hlast hbenign => cases (hbenign hrecv).1
  | complete m₁ v₁ name₁ got₁ last hres hlog hlast hst hverb hname hsound halive =>
      obtain ⟨hdec, hrest⟩ := Prod.mk.inj hres
      obtain ⟨rfl, rfl, rfl⟩ := Dec.done.inj hdec
      have hr1 : Registry m₁ := hr0.same hsame
      have hat1 : At m₁ fd p := hat0.same hsame
      have hsent : Waits p m m₁ := ⟨hs0.trans hwait.same, hwait.sent, hwait.tasks⟩
      have hifd₁ : m₁.interfaceFd = m.interfaceFd := hsent.same.interfaceFd
      cases hcall with
      | unfinished f hpar' hst' =>
          obtain rfl := Option.some.inj (hpar.symm.trans hpar')
          exact (hst' hst).elim
      | dropped m₂ hpar' hst' hfd hal heq =>
          obtain rfl := Flow.next.inj (Option.some.inj (hpar.symm.trans hpar'))
          refine ⟨m', hstep, by rw [heq, ← hrest], fun _ => heq ▸ hal, ?_⟩
          intro hpay _
          rw [halive, decide_eq_true hpay] at hal
          cases hal
      | submitted m₂ name₂ ret k hpar' hst' hname' hfd hdo heq =>
          obtain rfl := Flow.next.inj (Option.some.inj (hpar.symm.trans hpar'))
          exact (hne (hfd.trans hifd₁)).elim
      | answered m₂ name₂ ret k hpar' hst' hname' hfd hal hdo heq =>
          obtain rfl := Flow.next.inj (Option.some.inj (hpar.symm.trans hpar'))
          obtain rfl := Option.some.inj (hname.symm.trans hname')
          have hinbox := (answered_ended hdo heq).inbox
          refine ⟨m', hstep, by rw [hinbox, ← hrest], ?_, ?_⟩
          · intro hpay
            rw [halive, decide_eq_false (not_not_intro hpay)] at hal
            cases hal
          · intro hpay hmore
            obtain ⟨got', bs, he⟩ := heats (Or.inr (by simp [Flow.master, hst]))
            have hstores : (m₁.heap p).Stores m₁.kernel payload :=
              he.whole hst hname (by rw [hread]; exact congrArg Prod.fst hfeed)
            have hd1 : m₁.kernel.desc fd = some .sock := (hsame.kernel.sock fd).mpr h.isOpen
            have hdrained : m'.kernel.inbox fd = [] := by
              rw [hinbox]
              have hleft := he.left
              rw [arriving_inbox, stream, h.drained, List.nil_append] at hleft
              exact drained_of_suffix hleft (hrest.symm.trans hmore)
            exact (hr1.delivers hat1 (hifd₁ ▸ hifd) (hifd₁ ▸ hne) hal hd1 hname hstores hpay hput hdo
              heq hdrained).after hsent

/-! ## Results of every length -/

/-- **Results of every length.** A result frame for a task of a worker's record
comes in any parts, the last one with `more` behind the frame. The events go
through, and what they come to is a delivery if and only if the result is not
empty and nothing is behind it: an empty one has cleared `alive` on the way, and
behind any other the next frame is not looked at. -/
theorem delivered_iff (last : Bytes) {t : Task} (hr : Reachable m) (hs : m.Serving fd p)
    (ht : t ∈ (m.heap p).tasks) (hlen : payload.length < 2 ^ 64)
    (hcs : ∀ c ∈ cs, c.1 ≠ [] ∧ c.2.recv.Benign) (hlast : last ≠ []) (hrecv : io.recv.Benign)
    (hput : io.put.Benign)
    (hparts : (cs.map Prod.fst).flatten ++ last = frame putVerb t.fileName payload) :
    ∃ m₁ m₂, m.execWithin (fun _ _ => true) (arrivals fd cs) = some m₁
      ∧ Step m₁ (.data fd (chunk (last ++ more)) io) m₂
      ∧ readable (m₂.kernel.inbox fd) = more
      ∧ (Delivers fd p t.fileName payload m m₂ ↔ payload ≠ [] ∧ more = []) := by
  obtain ⟨hname, hshort⟩ := hr.named.tasks p t ht
  have hline : (headerLine .put t.fileName).length < commandBufSize := by
    simp only [headerLine, Command.verb, putVerb, List.length_append, List.length_cons,
      List.length_nil, commandBufSize]
    omega
  have h0 := Partway.fresh hr hs.isOpen hs.current hs.alive hs.status hs.command hs.drained
  obtain ⟨m₁, got, hexec, hpart, l, hl, hquiet⟩ := h0.run hname hline hcs hlast hlen hparts
  rw [List.nil_append] at hpart
  have hwait := run_waits hr h0.here hs.registered hs.other hexec hl hquiet
  have hall : (cs.map Prod.fst).flatten ++ (last ++ more) ++ [] =
      frame putVerb t.fileName payload ++ more := by
    rw [← hparts]
    simp
  have hdone : frameReader.feed (.header []) ((cs.map Prod.fst).flatten ++ (last ++ more)) =
      (.done .put t.fileName payload, more) := by
    rw [List.append_nil] at hall
    rw [hall]
    exact feed_frame (v := .put) hname hlen more
  obtain ⟨m₂, hstep, hrest, hempty, hsome⟩ := hpart.answers (hpart.room hname hline hall)
    (by simp [hlast]) hrecv hput (hwait.same.interfaceFd ▸ hs.registered)
    (hwait.same.interfaceFd ▸ hs.other) hdone
  refine ⟨m₁, m₂, hexec, hstep, hrest, ?_⟩
  constructor
  · intro hdel
    constructor
    · intro hpay
      have halive := hdel.serving.alive
      rw [hempty hpay] at halive
      cases halive
    · rw [← hrest, hdel.serving.drained]
      rfl
  · rintro ⟨hpay, hmore⟩
    exact (hsome hpay hmore).after hwait

/-- The interface on 5 has submitted a program to the worker on 6. -/
def oneTask : List Event :=
  [.accept [⟨5, [], default⟩, ⟨6, [1], default⟩], .data 5 (chunk submitFrame) {}]

/-- The worker answers in two parts. -/
theorem delivered_iff_two :
    ∃ m m₁ m₂, Reachable m
      ∧ m.execWithin (fun _ _ => true) (arrivals 6 [([80, 85, 84, 32, 97, 10, 1, 0], {})]) = some m₁
      ∧ Step m₁ (.data 6 (chunk ([0, 0, 0, 0, 0, 0, 7] ++ [])) {}) m₂
      ∧ Delivers 6 1 [97] [7] m m₂ := by
  obtain ⟨m, hr, hv⟩ := execWithin_spec (c := fun _ _ => true) id (v := true) oneTask
    (f := fun m => decide (m.Serving 6 1 ∧ (m.heap 1).tasks = [⟨0, [97], 0, 0⟩]))
    (by decide +kernel)
  obtain ⟨hs, htasks⟩ := of_decide_eq_true hv
  have hrecv : ({} : DataIo).recv.Benign := ⟨rfl, List.forall_mem_nil _⟩
  have hput : ({} : DataIo).put.Benign := ⟨rfl, List.forall_mem_nil _, List.forall_mem_nil _⟩
  have hparts : ([([80, 85, 84, 32, 97, 10, 1, 0], ({} : DataIo))].map Prod.fst).flatten ++
      [0, 0, 0, 0, 0, 0, 7] = frame putVerb (Task.mk 0 [97] 0 0).fileName [7] := rfl
  obtain ⟨m₁, m₂, hexec, hstep, -, hdel⟩ := delivered_iff [0, 0, 0, 0, 0, 0, 7] hr.reachable hs
    (by simp [htasks]) (by simp) (by simp [hrecv]) (by simp) hrecv hput hparts
  exact ⟨m, m₁, m₂, hr.reachable, hexec, hstep, hdel.mpr (by simp)⟩

/-- An empty result arrives whole. -/
theorem empty_result_undelivered :
    ∃ m m₂, Reachable m ∧ m.Serving 6 1 ∧ (m.heap 1).tasks = [⟨0, [97], 0, 0⟩]
      ∧ Step m (.data 6 (chunk (frame putVerb [97] [])) {}) m₂
      ∧ (m₂.heap 1).alive = false ∧ (m₂.heap 1).tasks = [⟨0, [97], 0, 0⟩]
      ∧ m₂.kernel.sent 5 = m.kernel.sent 5 ∧ ¬ Delivers 6 1 [97] [] m m₂ := by
  obtain ⟨m, m₂, hr, hstep, hv⟩ := execStep_spec (v := true) id oneTask
    (f := fun m m₂ => decide (m.Serving 6 1 ∧ (m.heap 1).tasks = [⟨0, [97], 0, 0⟩]
      ∧ (m₂.heap 1).alive = false
      ∧ (m₂.heap 1).tasks = [⟨0, [97], 0, 0⟩] ∧ m₂.kernel.sent 5 = m.kernel.sent 5))
    (e := .data 6 (chunk (frame putVerb [97] [])) {}) (by decide +kernel)
  obtain ⟨hs, htasks, hdead, hkept, hsent⟩ := of_decide_eq_true hv
  refine ⟨m, m₂, hr, hs, htasks, hstep, hdead, hkept, hsent, ?_⟩
  intro hdel
  rw [hdel.serving.alive] at hdead
  cases hdead

end Master

end KeyLime
