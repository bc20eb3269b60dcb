import KeyLime.Registry

/-!
# The parser branches read frames

`parsePhase_frame`: on a live record, the three parser branches together
are the reader of frames, run on the readable bytes. The bytes run out
inside the frame (`starved`), or the frame is complete and the bytes
behind it are left (`complete`), or the call has failed - in the header,
which retires the record (`rejected`), or behind it, which does not
(`failed`).

Nothing here assumes that files can be opened or written, except where
`RecvIo.Benign` says so.

The proof goes through the branches from the last to the first: what the data
branch can come to (`dataStage_frame`), then what the size branch and the data
branch behind it can come to (`sizeStage_frame`), then all three. In each step a
stage is put in front of a case that is known (`FrameCase.after`), and the law
of phases (`feed_coarser`) says that the reader has not lost anything in between.
The history is carried along: each stage that has been passed leaves its entry
(`Passed`), and the last one says how it ended.
-/

namespace KeyLime

open Resume

/-- Where the parser stands in the frame, `got` being stored of the payload. -/
def Worker.dec (w : Worker) (got : Bytes) : Dec :=
  match w.status with
  | .start => .header w.command
  | .needSize => .size w.toDo (w.tempFileName.getD []) w.sizeBufferPos w.fileSize
  | .recievingData => .payload w.toDo (w.tempFileName.getD []) w.fileSize got
  | .forwardData | .forwardingData => .done w.toDo (w.tempFileName.getD []) got

/-- The parse state of a record between two events. The counters that a parser
function leaves behind are 0 again when the next frame begins, so that a function
which is called anew finds what it takes for granted. -/
structure Worker.Sound (w : Worker) : Prop where
  start : w.status = .start → w.sizeBufferPos = 0 ∧ w.fileSize = 0
  unopened : w.status = .start ∨ w.status = .needSize → w.tempFd = -1
  named : w.status ≠ .start → w.tempFileName.isSome = true
  size : w.status = .needSize → w.sizeBufferPos < 8
  data : w.status = .recievingData → 0 < w.fileSize
  idle : w.status ≠ .forwardingData

theorem Worker.fresh_sound (w : Worker) : w.fresh.Sound :=
  ⟨fun _ => ⟨rfl, rfl⟩, fun _ => rfl, fun h => (h rfl).elim, nofun, nofun, nofun⟩

namespace Dec

def got : Dec → Bytes
  | .data _ _ _ got => got
  | .done _ _ got => got
  | _ => []

end Dec

theorem final_payload {v : Command} {name got : Bytes} {left : Nat} (h : 0 < left) :
    frameReader.final (.payload v name left got) = false := by
  simp [Dec.payload, Nat.pos_iff_ne_zero.mp h, frameReader, Dec.inHeader, Dec.inSize, Dec.inData]

namespace Master

variable {m m' m₁ m₂ : Master} {fd : Int} {p q : Nat} {f : Flow} {io : RecvIo}

/-! ## What a call can come to -/

/-- The entries the parser makes on its way through a frame. -/
def Passed (p : Nat) (o : Obs) : Prop :=
  (∃ st, st ≠ .data ∧ o = .parsed st p .doneSending (some .data)) ∨ ∃ name, o = .opened p name

/-- The new entries of the history: passed stages, then `o`. -/
def Entered (p : Nat) (m m' : Master) (o : Obs) : Prop :=
  ∃ l, m'.log = m.log ++ l ++ [o] ∧ ∀ o ∈ l, Passed p o

theorem Entered.of_log {o : Obs} (h : m'.log = m.log ++ [o]) : Entered p m m' o :=
  ⟨[], by simp [h], by simp⟩

theorem Entered.after {o o' : Obs} (h : m₁.log = m.log ++ [o]) (ho : Passed p o)
    (h' : Entered p m₁ m' o') : Entered p m m' o' := by
  obtain ⟨l, hl, hp⟩ := h'
  refine ⟨o :: l, by simp [hl, h], ?_⟩
  intro o₁ h₁
  rcases List.mem_cons.mp h₁ with rfl | h₁
  · exact ho
  · exact hp o₁ h₁

/-- `res` is what the reader of frames makes of the readable bytes, `e`
how reads behind them end. -/
inductive FrameCase (fd : Int) (p : Nat) (io : RecvIo) (m : Master) (res : Dec × Bytes)
    (e : ReadResult) : Flow → Prop where
  | starved (m₁ : Master) (st : Stage) (got : Bytes)
      (hres : res = ((m₁.heap p).dec got, [])) (hrun : frameReader.final res.1 = false)
      (hend : e = .again) (hinbox : m₁.kernel.inbox fd = [])
      (hlog : Entered p m m₁ (.parsed st p .notDoneSending (some .again)))
      (hsound : (m₁.heap p).Sound) (halive : (m₁.heap p).alive = true) :
      FrameCase fd p io m res e (.ret m₁)
  | complete (m₁ : Master) (v : Command) (name got : Bytes) (last : Option ReadResult)
      (hres : res = (.done v name got, readable (m₁.kernel.inbox fd)))
      (hlog : Entered p m m₁ (.parsed .data p .doneSending last))
      (hlast : last = none ∨ last = some .data)
      (hst : (m₁.heap p).status = .forwardData) (hverb : (m₁.heap p).toDo = v)
      (hname : (m₁.heap p).tempFileName = some name) (hsound : (m₁.heap p).Sound)
      (halive : (m₁.heap p).alive = decide (got ≠ [])) :
      FrameCase fd p io m res e (.next m₁)
  | rejected (f : Flow) (last : Option ReadResult)
      (hres : res.1.inHeader = true ∧ e ≠ .again ∧ last = some e
        ∨ res.1 = .bad ∧ last = some .data)
      (hlog : Entered p m f.master (.parsed .header p .bigFailure last))
      (hst : (f.master.heap p).status = .start) (hsound : (f.master.heap p).Sound)
      (halive : (f.master.heap p).alive = false)
      (hflow : (fd = m.interfaceFd ∧ f = .ret f.master ∧ f.master.interfaceFd = -1
          ∧ f.master.kernel.desc fd = none)
        ∨ (fd ≠ m.interfaceFd ∧ f = .next f.master ∧ f.master.interfaceFd = m.interfaceFd)) :
      FrameCase fd p io m res e f
  | failed (m₁ : Master) (st : Stage) (last : Option ReadResult)
      (hres : res.1.inHeader = false ∧ res.1 ≠ .bad)
      (hlog : Entered p m m₁ (.parsed st p .bigFailure last)) (hstage : st ≠ .header)
      (hst : (m₁.heap p).status = .needSize ∨ (m₁.heap p).status = .recievingData)
      (hlast : last = some .data
        ∨ (last = some e ∧ e ≠ .again ∧ frameReader.final res.1 = false))
      (hbenign : io.Benign → frameReader.final res.1 = false ∧ e ≠ .again)
      (hsound : (m₁.heap p).Sound) (halive : (m₁.heap p).alive = true) :
      FrameCase fd p io m res e (.next m₁)

theorem FrameCase.after {res : Dec × Bytes} {e : ReadResult} {o : Obs}
    (h : m₁.log = m.log ++ [o]) (ho : Passed p o)
    (hc : FrameCase fd p io m₁ res e f) (hkeep : (f.master.heap p).status ≠ .start) :
    FrameCase fd p io m res e f := by
  cases hc with
  | starved m₂ st got hres hrun hend hinbox hlog hsound halive =>
      exact .starved m₂ st got hres hrun hend hinbox (.after h ho hlog) hsound halive
  | complete m₂ v name got last hres hlog hlast hst hverb hname hsound halive =>
      exact .complete m₂ v name got last hres (.after h ho hlog) hlast hst hverb hname hsound
        halive
  | rejected f last hres hlog hst hsound halive hflow => exact (hkeep hst).elim
  | failed m₂ st last hres hlog hstage hst hlast hbenign hsound halive =>
      exact .failed m₂ st last hres (.after h ho hlog) hstage hst hlast hbenign hsound halive

/-! ## The data -/

theorem received_log (io : RecvIo) :
    ∃ l, (m.received p io).log = m.log ++ l ++
        [.parsed .data p (getBinaryData m.kernel (m.heap p) io).1.ret
          (getBinaryData m.kernel (m.heap p) io).1.last] ∧ ∀ o ∈ l, Passed p o := by
  unfold received opening
  split
  · exact ⟨[.opened p (m.heap p).tempFileName], rfl, by simp [Passed]⟩
  · exact ⟨[], by simp [commit, record, set], by simp⟩

@[simp] theorem received_heap_self (io : RecvIo) :
    (m.received p io).heap p = (getBinaryData m.kernel (m.heap p) io).1.w := by
  simp [received]

theorem received_inbox (io : RecvIo) :
    (m.received p io).kernel.inbox (m.heap p).workerFd =
      (getBinaryData m.kernel (m.heap p) io).1.rest := by
  simp [received, commit, Kernel.advance, record, set]

/-- The data branch, on a record that is to read payload. A record whose
payload is empty has just been retired. -/
theorem dataStage_frame {name : Bytes} (got : Bytes) (hfd : (m.heap p).workerFd = fd)
    (hst : (m.heap p).status = .recievingData) (hname : (m.heap p).tempFileName = some name)
    (halive : (m.heap p).alive = decide ((m.heap p).fileSize ≠ 0))
    (hgot : (m.heap p).fileSize = 0 → got = [])
    (hopen : (m.heap p).Opened m.kernel)
    (h : m.dataStage p io = some f) :
    FrameCase fd p io m
      (frameReader.feed ((m.heap p).dec got) (readable (m.kernel.inbox fd)))
      (ending (m.kernel.inbox fd)) f := by
  subst hfd
  obtain ⟨l, hlog, hl⟩ := received_log (m := m) (p := p) io
  have hbox := received_inbox (m := m) (p := p) io
  have hdec : (m.heap p).dec got = .payload (m.heap p).toDo name (m.heap p).fileSize got := by
    simp [Worker.dec, hst, hname]
  have hfeed := feed_payload (m.heap p).toDo name
    (readable (m.kernel.inbox (m.heap p).workerFd)) (m.heap p).fileSize got
  rw [← hdec] at hfeed
  obtain ⟨g, hstream⟩ := getBinaryData_stream m.kernel (m.heap p) io
  rw [hfeed]
  cases dataStage_case h with
  | skip hst' => exact (hst' hst).elim
  | more hst' hret =>
      rw [hret] at hlog hstream
      rcases hstream with ⟨h1, -⟩ | ⟨-, hlt, hend, hrw, hlast, hrest⟩ | ⟨h1, -⟩
      · cases h1
      · have hpos : 0 < (m.heap p).fileSize := Nat.zero_lt_of_lt hlt
        refine .starved _ .data (got ++ (readable (m.kernel.inbox (m.heap p).workerFd)).take
          (m.heap p).fileSize) ?_ ?_ hend (hbox.trans hrest) ⟨l, by rw [hlog, hlast], hl⟩ ?_ ?_
        · rw [received_heap_self, hrw, List.drop_eq_nil_of_le hlt.le]
          simp [Worker.dec, hst, hname]
        · exact final_payload (Nat.sub_pos_of_lt hlt)
        · rw [received_heap_self, hrw]
          exact ⟨by simp [hst], by simp [hst], by simp [hname], by simp [hst],
            fun _ => Nat.sub_pos_of_lt hlt, by simp [hst]⟩
        · rw [received_heap_self, hrw]
          simpa [Nat.pos_iff_ne_zero.mp hpos] using halive
      · cases h1
  | data hst' hret =>
      rw [hret] at hlog hstream
      rcases hstream with ⟨-, hle, hrw, hrest, hlast⟩ | ⟨h1, -⟩ | ⟨h1, -⟩
      · refine .complete _ (m.heap p).toDo name (got ++ (readable
          (m.kernel.inbox (m.heap p).workerFd)).take (m.heap p).fileSize) _ ?_
          ⟨l, hlog, hl⟩ hlast (by simp) (by simp [hrw]) (by simp [hrw, hname]) ?_ ?_
        · have : (((m.received p io).set p
              { (getBinaryData m.kernel (m.heap p) io).1.w with status := .forwardData }).kernel.inbox
                (m.heap p).workerFd) = (getBinaryData m.kernel (m.heap p) io).1.rest := hbox
          rw [this, hrest, Nat.sub_eq_zero_of_le hle]
          rfl
        · rw [set_heap_self, hrw]
          exact ⟨nofun, by simp, by simp [hname], nofun, nofun, nofun⟩
        · simp only [set_heap_self, hrw, halive]
          congr 1
          simp only [ne_eq, List.append_eq_nil_iff, eq_iff_iff, not_iff_not]
          constructor
          · intro h0
            exact ⟨hgot h0, by simp [h0]⟩
          · rintro ⟨-, h0⟩
            have := congrArg List.length h0
            rw [List.length_take, List.length_nil] at this
            omega
      · cases h1
      · cases h1
  | fail hst' hret =>
      rw [hret] at hlog hstream
      rcases hstream with ⟨h1, -⟩ | ⟨h1, -⟩ | ⟨-, ⟨x, hx, hle, hrw⟩, hlast⟩
      · cases h1
      · cases h1
      · have hpos : 0 < (m.heap p).fileSize := hx.trans_le hle
        refine .failed _ .data _ ?_ ⟨l, hlog, hl⟩ nofun (Or.inr ?_) (hlast.imp_right fun h =>
          ⟨h.1, h.2.1, final_payload (Nat.sub_pos_of_lt h.2.2)⟩) ?_ ?_ ?_
        · unfold Dec.payload
          split <;> exact ⟨rfl, nofun⟩
        · rw [received_heap_self, hrw]
          exact hst
        · intro hio
          obtain ⟨hlt, hne⟩ := (getBinaryData_smooth hio
            (openTemp_desc hopen hio (by simp [hname]))).2.2 hret
          exact ⟨final_payload (Nat.sub_pos_of_lt hlt), hne⟩
        · rw [received_heap_self, hrw]
          exact ⟨by simp [hst], by simp [hst], by simp [hname], by simp [hst], fun _ => hx,
            by simp [hst]⟩
        · rw [received_heap_self, hrw]
          simpa [Nat.pos_iff_ne_zero.mp hpos] using halive

/-! ## The size and the data -/

theorem commit_log (st : Stage) (r : Parsed) :
    (m.commit p st r).log = m.log ++ [.parsed st p r.ret r.last] := by
  simp [commit, record, set]

theorem commit_inbox (st : Stage) (r : Parsed) :
    (m.commit p st r).kernel.inbox (m.heap p).workerFd = r.rest := by
  simp [commit, Kernel.advance, record, set]

theorem sizeStage_frame (got : Bytes) (hfd : (m.heap p).workerFd = fd)
    (hst : (m.heap p).status = .needSize) (hs : (m.heap p).Sound)
    (halive : (m.heap p).alive = true)
    (h : Flow.andThen (m.sizeStage p) (dataStage p io) = some f) :
    FrameCase fd p io m
      (frameReader.feed ((m.heap p).dec got) (readable (m.kernel.inbox fd)))
      (ending (m.kernel.inbox fd)) f := by
  subst hfd
  obtain ⟨name, hname⟩ := Option.isSome_iff_exists.mp (hs.named (by simp [hst]))
  have hfd0 := hs.unopened (Or.inr hst)
  have hpos0 := hs.size hst
  have hdec : (m.heap p).dec got =
      .size (m.heap p).toDo name (m.heap p).sizeBufferPos (m.heap p).fileSize := by
    simp [Worker.dec, hst, hname]
  have hspec := fun r hr => getSize_spec (m.heap p).toDo name
    (s := m.kernel.inbox (m.heap p).workerFd) (w := m.heap p) (r := r) hr
  rw [hdec, frame_feed_size]
  rcases Flow.andThen_eq_some.mp h with ⟨m₁, h1, rfl⟩ | ⟨m₁, h1, h2⟩
  · cases sizeStage_case h1 with
    | more r hst' hr hret =>
        have hlog := commit_log (m := m) (p := p) .size r
        rcases hspec r hr with ⟨pos, x, hfeed, hret', hlast, hrest, hpos, hw⟩ | ⟨x, -, hret', -⟩
        · have hend := stopped_notDone.mp (hret'.symm.trans hret)
          rw [hret, hlast, hend] at hlog
          rw [hfeed]
          refine .starved _ .size got ?_ rfl hend ((commit_inbox .size r).trans (hrest hend))
            (.of_log hlog) ?_ (by simp [hw, halive])
          · simp [Worker.dec, hw, hst, hname]
          · rw [commit_heap_self, hw]
            exact ⟨by simp [hst], fun _ => hfd0, by simp [hname], fun _ => hpos hpos0,
              by simp [hst], by simp [hst]⟩
        · rw [hret] at hret'
          cases hret'
  · have hkeep := (dataStage_keeps h2).2
    cases sizeStage_case h1 with
    | skip hst' => exact (hst' hst).elim
    | size r hst' hr hret =>
        have hlog := commit_log (m := m) (p := p) .size r
        rcases hspec r hr with ⟨pos, x, -, hret', -⟩ | ⟨x, hfeed, -, hlast, hend, hw⟩
        · exact (stopped_ne_done _ (hret'.symm.trans hret)).elim
        · rw [hret, hlast] at hlog
          have hw' : sized r.w = { m.heap p with
              sizeBufferPos := 8, fileSize := x, alive := decide (x ≠ 0)
              status := .recievingData } := by
            simp [sized, hw, halive]
          have hbox : ((m.commit p .size r).set p (sized r.w)).kernel.inbox
              (m.heap p).workerFd = r.rest := commit_inbox .size r
          have hfd' : (((m.commit p .size r).set p (sized r.w)).heap p).workerFd =
              (m.heap p).workerFd := by simp [hw']
          have hname' : (((m.commit p .size r).set p (sized r.w)).heap p).tempFileName = some name :=
            by simp [hw', hname]
          have hframe := dataStage_frame [] hfd' (by simp [hw']) hname' (by simp [hw']) (fun _ => rfl)
            (by simp [hw', hfd0, Worker.Opened]) h2
          have hdec' : (((m.commit p .size r).set p (sized r.w)).heap p).dec [] =
              .payload (m.heap p).toDo name x [] := by
            simp [Worker.dec, hw', hname]
          rw [hbox, hend, hdec'] at hframe
          rw [hfeed]
          have hlog' : ((m.commit p .size r).set p (sized r.w)).log = (m.commit p .size r).log := rfl
          refine hframe.after (hlog'.trans hlog) (Or.inl ⟨_, by simp, rfl⟩) ?_
          rw [ne_eq, hkeep]
          simp [sized]
    | fail r hst' hr hret =>
        have hlog := commit_log (m := m) (p := p) .size r
        rcases hspec r hr with ⟨pos, x, hfeed, hret', hlast, -, hpos, hw⟩ | ⟨x, -, hret', -⟩
        · have hend := stopped_bigFailure.mp (hret'.symm.trans hret)
          have hskip : ((m.commit p .size r).heap p).status ≠ .recievingData := by
            simp [hw, hst]
          rw [dataStage, if_pos hskip] at h2
          obtain rfl := Option.some.inj h2
          rw [hret] at hlog
          rw [hfeed]
          refine .failed _ .size _ ⟨rfl, (by simp)⟩ (.of_log hlog) (by simp)
            (Or.inl (by simp [hw, hst])) (Or.inr ⟨hlast, hend, rfl⟩)
            (fun _ => ⟨rfl, hend⟩) ?_
            (by simp [hw, halive])
          rw [commit_heap_self, hw]
          exact ⟨by simp [hst], fun _ => hfd0, by simp [hname], fun _ => hpos hpos0,
            by simp [hst], by simp [hst]⟩
        · rw [hret] at hret'
          cases hret'

/-! ## The whole frame -/

theorem Flow.andThen_assoc (x : Option Flow) (g k : Master → Option Flow) :
    Flow.andThen (Flow.andThen x g) k = Flow.andThen x fun m => Flow.andThen (g m) k := by
  rcases x with _ | (m | m) <;> rfl

theorem header_frame {r : Parsed} {v : Command} {name line : Bytes}
    (hs : (m.heap p).Sound) (hst : (m.heap p).status = .start) (halive : (m.heap p).alive = true)
    (hw : r.w = { m.heap p with command := line, toDo := v, tempFileName := some name })
    (hend : ending r.rest = ending (m.kernel.inbox (m.heap p).workerFd))
    (hheap : m₁.heap p = { r.w with status := .needSize })
    (hbox : m₁.kernel.inbox (m.heap p).workerFd = r.rest)
    (hlog : m₁.log = m.log ++ [.parsed .header p .doneSending (some .data)])
    (h : Flow.andThen (m₁.sizeStage p) (dataStage p io) = some f) :
    FrameCase (m.heap p).workerFd p io m
      (frameReader.feed (.size v name 0 0) (readable r.rest))
      (ending (m.kernel.inbox (m.heap p).workerFd)) f := by
  obtain ⟨hpos, hsize⟩ := hs.start hst
  have hw₁ : m₁.heap p = { m.heap p with
      command := line, toDo := v, tempFileName := some name, status := .needSize } := by
    rw [hheap, hw]
  have hsound : (m₁.heap p).Sound := by
    rw [hw₁]
    exact ⟨nofun, fun _ => hs.unopened (Or.inl hst), fun _ => rfl, fun _ => by simp [hpos],
      nofun, nofun⟩
  have hfd₁ : (m₁.heap p).workerFd = (m.heap p).workerFd := by rw [hw₁]
  have hframe := sizeStage_frame [] hfd₁ (by rw [hw₁]) hsound (by rw [hw₁]; exact halive) h
  have hdec : (m₁.heap p).dec [] = .size v name 0 0 := by
    rw [hw₁]
    simp [Worker.dec, hpos, hsize]
  rw [hbox, hend, hdec] at hframe
  refine hframe.after hlog (Or.inl ⟨_, by simp, rfl⟩) ?_
  have hne : (m₁.heap p).status ≠ .start := by
    rw [hw₁]
    nofun
  rcases Flow.andThen_eq_some.mp h with ⟨m₂, h1, rfl⟩ | ⟨m₂, h1, h2⟩
  · rwa [ne_eq, (sizeStage_keeps h1).2]
  · rwa [ne_eq, (dataStage_keeps h2).2, show (m₂.heap p).status = .start ↔ _ from
      (sizeStage_keeps h1).2]

theorem rejected_frame {r : Parsed} (hs : (m.heap p).Sound) (hst : (m.heap p).status = .start)
    (hr : getCommand (m.kernel.inbox (m.heap p).workerFd) (m.heap p) = some r)
    (hret : r.ret = .bigFailure) (hheap : f.master.heap p = { r.w with alive := false })
    (hlog : f.master.log = m.log ++ [.parsed .header p r.ret r.last])
    (hflow : ((m.heap p).workerFd = m.interfaceFd ∧ f = .ret f.master
        ∧ f.master.interfaceFd = -1 ∧ f.master.kernel.desc (m.heap p).workerFd = none)
      ∨ ((m.heap p).workerFd ≠ m.interfaceFd ∧ f = .next f.master
        ∧ f.master.interfaceFd = m.interfaceFd)) :
    FrameCase (m.heap p).workerFd p io m
      (frameReader.feed
        (headerReader.feed (.header (m.heap p).command)
          (readable (m.kernel.inbox (m.heap p).workerFd))).1
        (headerReader.feed (.header (m.heap p).command)
          (readable (m.kernel.inbox (m.heap p).workerFd))).2)
      (ending (m.kernel.inbox (m.heap p).workerFd)) f := by
  obtain ⟨hpos, hsize⟩ := hs.start hst
  have hfd0 := hs.unopened (Or.inl hst)
  rw [hret] at hlog
  rcases getCommand_spec hr with ⟨line, hfeed, hret', hlast, -, hw⟩ | ⟨_, _, _, -, hret', -⟩
    | ⟨line, v, name, hfeed, -, hlast, hw⟩
  · have hend := stopped_bigFailure.mp (hret'.symm.trans hret)
    rw [hfeed]
    refine .rejected f _ (Or.inl ⟨rfl, hend, hlast⟩) (.of_log hlog) ?_ ?_ (by rw [hheap]) hflow
    · simp [hheap, hw, hst]
    · rw [hheap, hw]
      exact ⟨fun _ => ⟨hpos, hsize⟩, fun _ => hfd0, by simp [hst], by simp [hst], by simp [hst],
        by simp [hst]⟩
  · rw [hret] at hret'
    cases hret'
  · rw [hfeed]
    refine .rejected f _ (Or.inr ⟨?_, hlast⟩) (.of_log hlog) ?_ ?_ (by rw [hheap]) hflow
    · rw [Consumer.feed_of_final rfl]
    · simp [hheap, hw, hst]
    · rw [hheap, hw]
      exact ⟨fun _ => ⟨hpos, hsize⟩, fun _ => hfd0, by simp [hst], by simp [hst], by simp [hst],
        by simp [hst]⟩

theorem headerStage_frame {got : Bytes} (hfd : (m.heap p).workerFd = fd)
    (hst : (m.heap p).status = .start) (hs : (m.heap p).Sound)
    (halive : (m.heap p).alive = true) (h : m.parsePhase fd p io = some f) :
    FrameCase fd p io m
      (frameReader.feed ((m.heap p).dec got) (readable (m.kernel.inbox fd)))
      (ending (m.kernel.inbox fd)) f := by
  subst hfd
  have hdec : (m.heap p).dec got = .header (m.heap p).command := by
    simp [Worker.dec, hst]
  have hspec := fun r hr => getCommand_spec
    (s := m.kernel.inbox (m.heap p).workerFd) (w := m.heap p) (r := r) hr
  obtain ⟨hpos, hsize⟩ := hs.start hst
  have hfd0 := hs.unopened (Or.inl hst)
  rw [hdec, frame_feed_header]
  rw [parsePhase, Flow.andThen_assoc] at h
  rcases Flow.andThen_eq_some.mp h with ⟨m₁, h1, rfl⟩ | ⟨m₁, h1, h2⟩
  · cases headerStage_case h1 with
    | more r hst' hr hret =>
        have hlog := commit_log (m := m) (p := p) .header r
        rcases hspec r hr with ⟨line, hfeed, hret', hlast, hrest, hw⟩ | ⟨_, _, _, -, hret', -⟩
          | ⟨_, _, _, -, hret', -⟩
        · have hend := stopped_notDone.mp (hret'.symm.trans hret)
          rw [hret, hlast, hend] at hlog
          rw [hfeed]
          refine .starved _ .header got ?_ rfl hend
            ((commit_inbox .header r).trans (hrest hend)) (.of_log hlog) ?_ (by simp [hw, halive])
          · simp [Worker.dec, hw, hst]
          · rw [commit_heap_self, hw]
            exact ⟨fun _ => ⟨hpos, hsize⟩, fun _ => hfd0, by simp [hst], by simp [hst],
              by simp [hst], by simp [hst]⟩
        · rw [hret] at hret'
          cases hret'
        · rw [hret] at hret'
          cases hret'
    | quit r hst' hr hret hq =>
        exact rejected_frame hs hst hr hret (by simp [Flow.master])
          (commit_log (m := m) (p := p) .header r)
          (Or.inl ⟨hq, rfl, rfl, by simp [Flow.master, Kernel.close, hq]⟩)
  · cases headerStage_case h1 with
    | skip hst' => exact (hst' hst).elim
    | header r hst' hr hret hno =>
        have hlog := commit_log (m := m) (p := p) .header r
        rcases hspec r hr with ⟨_, -, hret', -⟩ | ⟨line, v, name, hfeed, -, hlast, hend, hw⟩
          | ⟨_, _, _, -, hret', -⟩
        · exact (stopped_ne_done _ (hret'.symm.trans hret)).elim
        · rw [hret, hlast] at hlog
          rw [hfeed]
          have hheap : ((m.commit p .header r).set p { r.w with status := .needSize }).heap p =
              { r.w with status := .needSize } := by simp
          exact header_frame hs hst halive hw hend hheap (commit_inbox .header r) hlog h2
        · rw [hret] at hret'
          cases hret'
    | register r m₁ hst' hr hret hverb hifd hreg =>
        have hlog := commit_log (m := m) (p := p) .header r
        obtain ⟨l, -, hm₁⟩ := register_eq hreg
        rcases hspec r hr with ⟨_, -, hret', -⟩ | ⟨line, v, name, hfeed, -, hlast, hend, hw⟩
          | ⟨_, _, _, -, hret', -⟩
        · exact (stopped_ne_done _ (hret'.symm.trans hret)).elim
        · rw [hret, hlast] at hlog
          rw [hfeed]
          exact header_frame hs hst halive hw hend (by rw [hm₁]; simp [set])
            (by rw [hm₁]; exact commit_inbox .header r) (by rw [hm₁]; exact hlog) h2
        · rw [hret] at hret'
          cases hret'
    | reject r hst' hr hret hq =>
        have hst₁ : r.w.status = .start := (getCommand_status hr).trans hst
        have h3 : Flow.andThen (sizeStage p ((m.commit p .header r).set p
            { r.w with alive := false })) (dataStage p io)
            = some (.next ((m.commit p .header r).set p { r.w with alive := false })) := by
          simp [sizeStage, dataStage, Flow.andThen, hst₁]
        obtain rfl := Option.some.inj (h3.symm.trans h2)
        exact rejected_frame hs hst hr hret (by simp [Flow.master])
          (commit_log (m := m) (p := p) .header r) (Or.inr ⟨hq, rfl, rfl⟩)

/-- **The parser branches are the reader of frames.** Where the one call of
`handle_data` stops is where the reader stops on the bytes of the call, with the
same record, and what is left unread is the same. -/
theorem parsePhase_frame (got : Bytes) (hfd : (m.heap p).workerFd = fd) (hs : (m.heap p).Sound)
    (hopen : (m.heap p).Opened m.kernel) (halive : (m.heap p).alive = true)
    (hst : (m.heap p).status ≠ .forwardData) (h : m.parsePhase fd p io = some f) :
    FrameCase fd p io m
      (frameReader.feed ((m.heap p).dec got) (readable (m.kernel.inbox fd)))
      (ending (m.kernel.inbox fd)) f := by
  rcases hcase : (m.heap p).status with _ | _ | _ | _ | _
  · exact headerStage_frame hfd hcase hs halive h
  · have hskip : m.headerStage fd p = some (.next m) := by simp [headerStage, hcase]
    rw [parsePhase, Flow.andThen_assoc, hskip] at h
    exact sizeStage_frame got hfd hcase hs halive h
  · have hskip : Flow.andThen (m.headerStage fd p) (sizeStage p) = some (.next m) := by
      simp [headerStage, sizeStage, Flow.andThen, hcase]
    rw [parsePhase, hskip] at h
    obtain ⟨name, hname⟩ := Option.isSome_iff_exists.mp (hs.named (by simp [hcase]))
    have hpos := hs.data hcase
    exact dataStage_frame got hfd hcase hname
      (by rw [halive, decide_eq_true (Nat.pos_iff_ne_zero.mp hpos)])
      (fun h0 => absurd h0 (Nat.pos_iff_ne_zero.mp hpos)) hopen h
  · exact (hst hcase).elim
  · exact (hs.idle hcase).elim

/-- A record with a complete frame is past the parser branches. -/
theorem parsePhase_ended (hst : (m.heap p).status = .forwardData)
    (h : m.parsePhase fd p io = some f) : f = .next m := by
  have hskip : m.parsePhase fd p io = some (.next m) := by
    simp [parsePhase, headerStage, sizeStage, dataStage, Flow.andThen, hst]
  exact Option.some.inj (h.symm.trans hskip)

end Master

end KeyLime
