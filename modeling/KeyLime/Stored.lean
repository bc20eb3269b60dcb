import KeyLime.Effects

/-!
# What a connection has taken and what it has stored

`Eats`: a stage of the parser takes bytes off the connection, moves the
record along the reader of frames by exactly these, and keeps the payload
that has come so far in the temporary file. The three parser branches
together do so on every live record (`parsePhase_eats`), however the bytes
are cut, as long as files can be opened and written.

`Frames` says what a call returns and in which state it leaves the record;
here it is said what has become of the bytes. Three things have to agree behind
each stage: the bytes the reads have returned (`taken`, a history of the kernel),
the place of the reader, and the file. `Parsed.Reads` is the first of these for
one parser function, and `Worker.Stores` the last: the file holds the payload so
far and its descriptor is at the end, so that the next block is appended.

Stages compose (`Eats.trans`), since a stage that has not come to its end has
taken everything, and one that has leaves the rest to the next. What is left on
the connection is a suffix of what was there (`left`).
-/

namespace KeyLime

open Resume

/-! ## The temporary file -/

/-- The file the name of the record denotes. -/
def Worker.tempPath (k : Kernel) (w : Worker) : Bytes := k.resolve (w.tempFileName.getD [])

/-- The temporary file holds `got`, and its descriptor is at the end. As long as no
file has been opened there is no payload either. -/
structure Worker.Stores (k : Kernel) (w : Worker) (got : Bytes) : Prop where
  closed : w.tempFd = -1 → got = []
  desc : w.tempFd ≠ -1 → k.desc w.tempFd = some (.file (w.tempPath k) got.length)
  store : w.tempFd ≠ -1 → k.store (w.tempPath k) = some got

namespace Worker

variable {k k' : Kernel} {w w' : Worker} {got : Bytes}

theorem Stores.of_closed (h : w.tempFd = -1) : w.Stores k [] :=
  ⟨fun _ => rfl, fun hne => (hne h).elim, fun hne => (hne h).elim⟩

theorem Stores.congr (h : w.Stores k got) (hfd : w'.tempFd = w.tempFd)
    (hpath : w'.tempPath k' = w.tempPath k)
    (hdesc : w.tempFd ≠ -1 → k'.desc w.tempFd = k.desc w.tempFd)
    (hstore : w.tempFd ≠ -1 → k'.store (w.tempPath k) = k.store (w.tempPath k)) :
    w'.Stores k' got := by
  constructor <;> rw [hfd]
  · exact h.closed
  · intro hne
    rw [hpath, hdesc hne]
    exact h.desc hne
  · intro hne
    rw [hpath, hstore hne]
    exact h.store hne

theorem Stores.put (h : w.Stores k got) (hne : w.tempFd ≠ -1) (bs : Bytes) :
    w.Stores (k.put w.tempFd bs) (got ++ bs) := by
  have hpath : w.tempPath (k.put w.tempFd bs) = w.tempPath k := by
    rw [tempPath, tempPath, Kernel.put_resolve]
  obtain ⟨hstore, hdesc⟩ := Kernel.put_at_end bs (h.store hne) (h.desc hne)
  refine ⟨fun heq => (hne heq).elim, fun _ => ?_, fun _ => ?_⟩ <;> rw [hpath]
  · exact hdesc
  · exact hstore

end Worker

theorem openTemp_stores {k : Kernel} {w : Worker} {got : Bytes} (h : w.Stores k got)
    (io : RecvIo) : (openTemp k w io).2.Stores (openTemp k w io).1 got := by
  rcases openTemp_cases k w io with ⟨heq, -⟩ | ⟨name, hfd, -, hsome, heq⟩ <;> rw [heq]
  · exact h
  · obtain rfl := h.closed hfd
    have hpath : Worker.tempPath (k.opened name) { w with tempFd := k.nextFd } =
        k.resolve name := by
      simp [Worker.tempPath, hsome, Kernel.opened]
    refine ⟨fun _ => rfl, fun _ => ?_, fun _ => ?_⟩ <;> rw [hpath]
    · simp [Kernel.opened]
    · simp [Kernel.opened]

/-! ## The bytes the reads return -/

/-- The reads of the items `s` that `r` tells of have returned `bs`: all the
readable bytes, unless the stage is done before their end. -/
structure Parsed.Reads (r : Parsed) (s : List Item) (bs : Bytes) : Prop where
  returned : ∃ t, s = t ++ r.rest ∧ bs = Kernel.bytesOf t
  whole : r.ret ≠ .doneSending → readable s = bs
  part : r.ret = .doneSending → readable s = bs ++ readable r.rest

namespace Parsed.Reads

variable {r : Parsed} {s : List Item} {bs : Bytes}

theorem bytesOf_map (bs : Bytes) (s : List Item) :
    Kernel.bytesOf (bs.map .byte ++ s) = bs ++ Kernel.bytesOf s := by
  induction bs with
  | nil => rfl
  | cons b bs ih => simp [Kernel.bytesOf, ih]

theorem of_stopped (t : List Item) (hs : s = t ++ r.rest) (ht : Kernel.bytesOf t = [])
    (hret : r.ret ≠ .doneSending) (hread : readable s = []) : r.Reads s [] :=
  ⟨⟨t, hs, ht.symm⟩, fun _ => hread, fun h => (hret h).elim⟩

theorem intr (h : r.Reads s bs) : r.Reads (.intr :: s) bs := by
  obtain ⟨t, hs, hbs⟩ := h.returned
  exact ⟨⟨.intr :: t, by rw [hs]; rfl, hbs⟩, h.whole, h.part⟩

theorem block (blk : Bytes) (h : r.Reads s bs) : r.Reads (blk.map .byte ++ s) (blk ++ bs) := by
  obtain ⟨t, hs, hbs⟩ := h.returned
  refine ⟨⟨blk.map .byte ++ t, ?_, ?_⟩, ?_, ?_⟩
  · rw [hs, List.append_assoc]
  · rw [hbs, bytesOf_map]
  · intro hret
    rw [readable_append, h.whole hret]
  · intro hret
    rw [readable_append, h.part hret, List.append_assoc]

theorem byte (b : UInt8) (h : r.Reads s bs) : r.Reads (.byte b :: s) (b :: bs) := h.block [b]

theorem last (blk : Bytes) (hret : r.ret = .doneSending) :
    r.Reads (blk.map .byte ++ r.rest) blk := by
  refine ⟨⟨blk.map .byte, rfl, ?_⟩, fun h => (h hret).elim, fun _ => readable_append blk r.rest⟩
  have := bytesOf_map blk []
  rw [List.append_nil] at this
  rw [this, Kernel.bytesOf, List.append_nil]

theorem suffix (h : r.Reads s bs) : r.rest <:+ s := by
  obtain ⟨t, hs, -⟩ := h.returned
  exact ⟨t, hs.symm⟩

theorem taken {k : Kernel} {fd : Int} (h : r.Reads (k.inbox fd) bs) :
    (k.advance fd r.rest).taken fd = k.taken fd ++ bs := by
  obtain ⟨t, hs, hbs⟩ := h.returned
  have hlen : (k.inbox fd).length - r.rest.length = t.length := by
    rw [hs, List.length_append]
    omega
  have htake : (k.inbox fd).take t.length = t := by rw [hs, List.take_left]
  simp only [Kernel.advance, Function.update_self, hlen, htake, hbs]

end Parsed.Reads

theorem getCommand_reads {s : List Item} {w : Worker} {r : Parsed}
    (h : getCommand s w = some r) (hret : r.ret ≠ .bigFailure) : ∃ bs, r.Reads s bs := by
  induction s generalizing w with
  | nil =>
      obtain rfl := Option.some.inj h
      exact ⟨[], .of_stopped [] rfl rfl (by simp) rfl⟩
  | cons i s ih =>
      cases i with
      | intr =>
          obtain ⟨bs, hbs⟩ := ih h
          exact ⟨bs, hbs.intr⟩
      | err =>
          obtain rfl := Option.some.inj h
          exact (hret rfl).elim
      | eof =>
          obtain rfl := Option.some.inj h
          exact (hret rfl).elim
      | byte b =>
          rw [getCommand] at h
          split at h
          · obtain ⟨⟨ret, w'⟩, hp, rfl⟩ := Option.map_eq_some_iff.mp h
            refine ⟨[b], .last [b] ?_⟩
            rcases parseHeader_spec hp with ⟨v, name, -, hdone, -⟩ | ⟨-, hfail, -⟩
            · exact hdone
            · exact (hret hfail).elim
          · split at h
            · cases h
            · dsimp only at h
              split at h
              · obtain rfl := Option.some.inj h
                exact (hret rfl).elim
              · obtain ⟨bs, hbs⟩ := ih h
                exact ⟨b :: bs, hbs.byte b⟩

theorem getSize_reads {s : List Item} {w : Worker} {r : Parsed} (h : getSize s w = some r) :
    ∃ bs, r.Reads s bs := by
  induction s generalizing w with
  | nil =>
      obtain rfl := Option.some.inj h
      exact ⟨[], .of_stopped [] rfl rfl (by simp) rfl⟩
  | cons i s ih =>
      cases i with
      | intr =>
          obtain ⟨bs, hbs⟩ := ih h
          exact ⟨bs, hbs.intr⟩
      | err =>
          obtain rfl := Option.some.inj h
          exact ⟨[], .of_stopped [.err] rfl rfl (by simp) rfl⟩
      | eof =>
          obtain rfl := Option.some.inj h
          exact ⟨[], .of_stopped [] rfl rfl (by simp) rfl⟩
      | byte b =>
          rw [getSize] at h
          split at h
          · cases h
          · dsimp only at h
            split at h
            · obtain rfl := Option.some.inj h
              exact ⟨[b], .last [b] rfl⟩
            · obtain ⟨bs, hbs⟩ := ih h
              exact ⟨b :: bs, hbs.byte b⟩

theorem dataLoop_reads {fuel : Nat} {s : List Item} {os : List Outcome}
    {last : Option ReadResult} {w : Worker} {k : Kernel} {r : Parsed} {k' : Kernel}
    (hfuel : s.length ≤ fuel) (hos : Smooth os) (hd : k.desc w.tempFd ≠ none)
    (h : dataLoop fuel s os last w k = (r, k')) : ∃ bs, r.Reads s bs := by
  have hrun := dataLoop_run h
  clear h
  induction hrun with
  | done => exact ⟨[], .last [] rfl⟩
  | @drained fuel s os last w k h0 hend =>
      obtain rfl := hend.elim (fun h => List.length_eq_zero_iff.mp (by omega)) id
      exact ⟨[], .of_stopped [] rfl rfl (by simp) rfl⟩
  | intr _ ih =>
      obtain ⟨bs, hbs⟩ := ih (Nat.le_of_succ_le_succ hfuel) hos hd
      exact ⟨bs, hbs.intr⟩
  | err => exact ⟨[], .of_stopped [.err] rfl rfl (by simp) rfl⟩
  | eof => exact ⟨[], .of_stopped [] rfl rfl (by simp) rfl⟩
  | @refused fuel s rest os last w k blk h0 hsplit hpos hle hr =>
      obtain ⟨os', -, hwr⟩ := writeAllToSocket_smooth (k := k) blk hd hos
      rw [hwr] at hr
      simp only at hr
      omega
  | @block fuel s rest os last w k r k' blk h0 hsplit hpos hle _ ih =>
      obtain ⟨os', hos', hwr⟩ := writeAllToSocket_smooth (k := k) blk hd hos
      rw [hwr] at ih
      have hlen := congrArg List.length hsplit
      rw [List.length_append, List.length_map] at hlen
      have hdesc : (k.put w.tempFd blk).desc w.tempFd ≠ none := fun hc =>
        hd ((Kernel.put_desc_eq_none ..).mp hc)
      obtain ⟨bs, hbs⟩ := ih (by omega) hos' hdesc
      rw [hsplit]
      exact ⟨blk ++ bs, hbs.block blk⟩

theorem getBinaryData_reads {k : Kernel} {w : Worker} {io : RecvIo} (hio : io.Benign)
    (hd : (openTemp k w io).1.desc (openTemp k w io).2.tempFd ≠ none) :
    ∃ bs, (getBinaryData k w io).1.Reads (k.inbox w.workerFd) bs := by
  obtain ⟨r, k', hrk⟩ : ∃ r k', getBinaryData k w io = (r, k') := ⟨_, _, rfl⟩
  rw [hrk]
  exact dataLoop_reads le_rfl hio.disk hd ((getBinaryData_eq k w io).symm.trans hrk)

/-! ## The stages -/

namespace Master

variable {m m₁ m₂ m' : Master} {fd : Int} {p : Nat} {f : Flow} {got got' got'' bs bs' : Bytes}

/-- Record `p` has taken `bs` off the connection `fd`, which leads the reader
of frames to where it stands now; of the payload `got` was stored before
and `got'` is now. What is left to read was there before. -/
structure Eats (fd : Int) (p : Nat) (m m' : Master) (got got' bs : Bytes) : Prop where
  taken : m'.kernel.taken fd = m.kernel.taken fd ++ bs
  left : m'.kernel.inbox fd <:+ m.kernel.inbox fd
  feed : frameReader.feed ((m.heap p).dec got) bs = ((m'.heap p).dec got', [])
  stores : (m'.heap p).Stores m'.kernel got'
  rest : readable (m.kernel.inbox fd) = bs ++ readable (m'.kernel.inbox fd)
    ∨ readable (m.kernel.inbox fd) = bs

theorem Eats.trans (h : Eats fd p m m₁ got got' bs)
    (hrest : readable (m.kernel.inbox fd) = bs ++ readable (m₁.kernel.inbox fd))
    (h' : Eats fd p m₁ m₂ got' got'' bs') : Eats fd p m m₂ got got'' (bs ++ bs') where
  taken := by rw [h'.taken, h.taken, List.append_assoc]
  left := h'.left.trans h.left
  feed := by
    rw [Consumer.feed_append, h.feed, List.nil_append]
    exact h'.feed
  stores := h'.stores
  rest := by
    rw [hrest, List.append_assoc, List.append_cancel_left_eq, List.append_cancel_left_eq]
    exact h'.rest

/-- A record at the end of its frame has what the reader makes of the
readable bytes. -/
theorem Eats.result (h : Eats fd p m m' got got' bs)
    (hfin : frameReader.final ((m'.heap p).dec got') = true) :
    (frameReader.feed ((m.heap p).dec got) (readable (m.kernel.inbox fd))).1 =
      (m'.heap p).dec got' := by
  rcases h.rest with hrest | hrest
  · rw [hrest, Consumer.feed_append, h.feed, List.nil_append, Consumer.feed_of_final hfin]
  · rw [hrest, h.feed]

theorem commit_taken (st : Stage) {r : Parsed}
    (h : r.Reads (m.kernel.inbox (m.heap p).workerFd) bs) :
    (m.commit p st r).kernel.taken (m.heap p).workerFd =
      m.kernel.taken (m.heap p).workerFd ++ bs := h.taken

theorem commit_left (st : Stage) {r : Parsed}
    (h : r.Reads (m.kernel.inbox (m.heap p).workerFd) bs) :
    (m.commit p st r).kernel.inbox (m.heap p).workerFd <:+
      m.kernel.inbox (m.heap p).workerFd := by
  rw [commit_inbox]
  exact h.suffix

theorem header_eats {r : Parsed} (got : Bytes) (hst : (m.heap p).status = .start) (hs : (m.heap p).Sound)
    (hr : getCommand (m.kernel.inbox (m.heap p).workerFd) (m.heap p) = some r)
    (hret : r.ret = .doneSending) (hheap : m₁.heap p = { r.w with status := .needSize })
    (htaken : m₁.kernel.taken = (m.commit p .header r).kernel.taken)
    (hinbox : m₁.kernel.inbox = (m.commit p .header r).kernel.inbox) :
    ∃ bs, Eats (m.heap p).workerFd p m m₁ got [] bs
      ∧ readable (m.kernel.inbox (m.heap p).workerFd) =
        bs ++ readable (m₁.kernel.inbox (m.heap p).workerFd) := by
  obtain ⟨hpos, hsize⟩ := hs.start hst
  obtain ⟨bs, hbs⟩ := getCommand_reads hr (by simp [hret])
  have hread : readable (m.kernel.inbox (m.heap p).workerFd) =
      bs ++ readable (m₁.kernel.inbox (m.heap p).workerFd) := by
    rw [hinbox, commit_inbox]
    exact hbs.part hret
  refine ⟨bs, ⟨?_, ?_, ?_, ?_, Or.inl hread⟩, hread⟩
  · rw [htaken]
    exact commit_taken .header hbs
  · rw [hinbox]
    exact commit_left .header hbs
  · rcases getCommand_spec hr with ⟨_, -, hret', -⟩ | ⟨line, v, name, hfeed, -, -, -, hw⟩
      | ⟨_, _, _, -, hret', -⟩
    · exact (stopped_ne_done _ (hret'.symm.trans hret)).elim
    · rw [hbs.part hret] at hfeed
      have hdec : (m.heap p).dec got = .header (m.heap p).command := by simp [Worker.dec, hst]
      have hdec₁ : (m₁.heap p).dec [] = .size v name 0 0 := by
        simp [hheap, hw, Worker.dec, hpos, hsize]
      rw [hdec, hdec₁, frame_feed_header, Consumer.feed_of_append hfeed]
      rfl
    · rw [hret] at hret'
      cases hret'
  · refine .of_closed ?_
    rw [hheap]
    exact (getCommand_tempFd hr).trans (hs.unopened (Or.inl hst))

theorem headerStage_eats (got : Bytes) (hfd : (m.heap p).workerFd = fd)
    (hst : (m.heap p).status = .start) (hs : (m.heap p).Sound)
    (hlive : (f.master.heap p).alive = true ∨ (f.master.heap p).status ≠ .start)
    (h : m.headerStage fd p = some f) :
    ∃ bs, Eats fd p m f.master got [] bs ∧ ((f.master.heap p).status = .needSize →
      readable (m.kernel.inbox fd) = bs ++ readable (f.master.kernel.inbox fd)) := by
  subst hfd
  cases headerStage_case h with
  | skip hst' => exact (hst' hst).elim
  | more r hst' hr hret =>
      obtain ⟨bs, hbs⟩ := getCommand_reads hr (by simp [hret])
      have hread := hbs.whole (by simp [hret])
      refine ⟨bs, ⟨commit_taken .header hbs, commit_left .header hbs, ?_, .of_closed ?_, Or.inr hread⟩,
        fun hst₁ => ?_⟩
      · rcases getCommand_spec hr with ⟨line, hfeed, -, -, -, hw⟩ | ⟨_, _, _, -, hret', -⟩
          | ⟨_, _, _, -, hret', -⟩
        · rw [hread] at hfeed
          have hdec : (m.heap p).dec got = .header (m.heap p).command := by
            simp [Worker.dec, hst]
          have hdec₁ : ((m.commit p .header r).heap p).dec [] = .header line := by
            simp [hw, Worker.dec, hst]
          rw [hdec, frame_feed_header, hfeed]
          exact congrArg (·, []) hdec₁.symm
        · rw [hret] at hret'
          cases hret'
        · rw [hret] at hret'
          cases hret'
      · rw [Flow.master, commit_heap_self]
        exact (getCommand_tempFd hr).trans (hs.unopened (Or.inl hst))
      · have := getCommand_status hr
        rw [Flow.master, commit_heap_self, this, hst] at hst₁
        cases hst₁
  | header r hst' hr hret hno =>
      have hheap : ((m.commit p .header r).set p { r.w with status := .needSize }).heap p =
          { r.w with status := .needSize } := set_heap_self _
      obtain ⟨bs, heats, hread⟩ := header_eats got hst hs hr hret hheap rfl rfl
      exact ⟨bs, heats, fun _ => hread⟩
  | register r m₁ hst' hr hret hverb hifd hreg =>
      obtain ⟨l, -, hm₁⟩ := register_eq hreg
      have hheap : m₁.heap p = { r.w with status := .needSize } := by
        rw [hm₁]
        simp [set]
      obtain ⟨bs, heats, hread⟩ := header_eats got hst hs hr hret hheap (by rw [hm₁]; rfl)
        (by rw [hm₁]; rfl)
      exact ⟨bs, heats, fun _ => hread⟩
  | reject r hst' hr hret hq =>
      rcases hlive with hal | hne
      · simp [Flow.master] at hal
      · refine (hne ?_).elim
        simpa [Flow.master, hst] using getCommand_status hr
  | quit r hst' hr hret hq =>
      rcases hlive with hal | hne
      · simp [Flow.master] at hal
      · refine (hne ?_).elim
        simpa [Flow.master, hst] using getCommand_status hr

theorem sizeStage_eats (got : Bytes) (hfd : (m.heap p).workerFd = fd)
    (hst : (m.heap p).status = .needSize) (hname : (m.heap p).tempFileName.isSome = true)
    (hfd0 : (m.heap p).tempFd = -1) (h : m.sizeStage p = some f) :
    ∃ bs, Eats fd p m f.master got [] bs ∧ ((f.master.heap p).status = .recievingData →
      readable (m.kernel.inbox fd) = bs ++ readable (f.master.kernel.inbox fd)) := by
  subst hfd
  obtain ⟨name, hname⟩ := Option.isSome_iff_exists.mp hname
  have hdec : (m.heap p).dec got =
      .size (m.heap p).toDo name (m.heap p).sizeBufferPos (m.heap p).fileSize := by
    simp [Worker.dec, hst, hname]
  have hspec := fun r hr => getSize_spec (m.heap p).toDo name
    (s := m.kernel.inbox (m.heap p).workerFd) (w := m.heap p) (r := r) hr
  -- the readable bytes end inside the size
  have hstop : ∀ r, getSize (m.kernel.inbox (m.heap p).workerFd) (m.heap p) = some r →
      r.ret ≠ .doneSending → ∃ bs, Eats (m.heap p).workerFd p m (m.commit p .size r) got [] bs
        ∧ r.w.status = .needSize := by
    intro r hr hret
    obtain ⟨bs, hbs⟩ := getSize_reads hr
    have hread := hbs.whole hret
    rcases hspec r hr with ⟨pos, x, hfeed, -, -, -, -, hw⟩ | ⟨x, -, hret', -⟩
    · rw [hread] at hfeed
      have hdec₁ : ((m.commit p .size r).heap p).dec [] = .size (m.heap p).toDo name pos x := by
        simp [hw, Worker.dec, hst, hname]
      refine ⟨bs, ⟨commit_taken .size hbs, commit_left .size hbs, ?_, .of_closed ?_, Or.inr hread⟩,
        by rw [hw]; exact hst⟩
      · rw [hdec, hdec₁, frame_feed_size, hfeed]
        rfl
      · rw [commit_heap_self, hw]
        exact hfd0
    · exact (hret hret').elim
  cases sizeStage_case h with
  | skip hst' => exact (hst' hst).elim
  | more r hst' hr hret =>
      obtain ⟨bs, heats, hstay⟩ := hstop r hr (by simp [hret])
      refine ⟨bs, heats, ?_⟩
      intro hst₁
      rw [Flow.master, commit_heap_self, hstay] at hst₁
      cases hst₁
  | fail r hst' hr hret =>
      obtain ⟨bs, heats, hstay⟩ := hstop r hr (by simp [hret])
      refine ⟨bs, heats, ?_⟩
      intro hst₁
      rw [Flow.master, commit_heap_self, hstay] at hst₁
      cases hst₁
  | size r hst' hr hret =>
      obtain ⟨bs, hbs⟩ := getSize_reads hr
      have hread : readable (m.kernel.inbox (m.heap p).workerFd) =
          bs ++ readable (((m.commit p .size r).set p (sized r.w)).kernel.inbox
            (m.heap p).workerFd) := by
        rw [show ((m.commit p .size r).set p (sized r.w)).kernel.inbox (m.heap p).workerFd =
          r.rest from commit_inbox .size r]
        exact hbs.part hret
      refine ⟨bs, ⟨commit_taken .size hbs, commit_left .size hbs, ?_, .of_closed ?_, Or.inl hread⟩,
        fun _ => hread⟩
      · rcases hspec r hr with ⟨pos, x, -, hret', -⟩ | ⟨x, hfeed, -, -, -, hw⟩
        · exact (stopped_ne_done _ (hret'.symm.trans hret)).elim
        · rw [hbs.part hret] at hfeed
          have hdec₁ : (((m.commit p .size r).set p (sized r.w)).heap p).dec [] =
              .payload (m.heap p).toDo name x [] := by
            simp [hw, sized, Worker.dec, hname]
          rw [hdec, Flow.master, hdec₁, frame_feed_size, Consumer.feed_of_append hfeed]
          rfl
      · rcases hspec r hr with ⟨_, _, -, -, -, -, -, hw⟩ | ⟨x, -, -, -, -, hw⟩
        · simp [Flow.master, hw, sized, hfd0]
        · simp [Flow.master, hw, sized, hfd0]

/-- The payload bytes the data branch takes are the ones it stores. -/
theorem received_bytes {io : RecvIo} (hio : io.Benign)
    (hd : (openTemp m.kernel (m.heap p) io).1.desc (openTemp m.kernel (m.heap p) io).2.tempFd
      ≠ none) :
    ∃ bs, (getBinaryData m.kernel (m.heap p) io).1.Reads (m.kernel.inbox (m.heap p).workerFd) bs
      ∧ bs = (readable (m.kernel.inbox (m.heap p).workerFd)).take (m.heap p).fileSize
      ∧ (getBinaryData m.kernel (m.heap p) io).1.w.fileSize = (m.heap p).fileSize - bs.length := by
  obtain ⟨bs, hbs⟩ := getBinaryData_reads hio hd
  obtain ⟨-, hw, hfail⟩ := getBinaryData_smooth hio hd
  obtain ⟨g, hstream⟩ := getBinaryData_stream m.kernel (m.heap p) io
  -- short of the end of the payload, everything readable is taken
  have hshort : (readable (m.kernel.inbox (m.heap p).workerFd)).length < (m.heap p).fileSize →
      (getBinaryData m.kernel (m.heap p) io).1.ret ≠ .doneSending →
      bs = (readable (m.kernel.inbox (m.heap p).workerFd)).take (m.heap p).fileSize
        ∧ (getBinaryData m.kernel (m.heap p) io).1.w.fileSize =
          (m.heap p).fileSize - bs.length := by
    intro hlt hret
    rw [hw, ← hbs.whole hret]
    exact ⟨(List.take_of_length_le hlt.le).symm, rfl⟩
  refine ⟨bs, hbs, ?_⟩
  rcases hstream with ⟨hret, hle, -, hrest, -⟩ | ⟨hret, hlt, -⟩ | ⟨hret, -⟩
  · have hread := hbs.part hret
    rw [hrest] at hread
    have htake : bs = (readable (m.kernel.inbox (m.heap p).workerFd)).take
        (m.heap p).fileSize := by
      have h := List.take_append_drop (m.heap p).fileSize
        (readable (m.kernel.inbox (m.heap p).workerFd))
      exact List.append_cancel_right (hread.symm.trans h.symm)
    refine ⟨htake, ?_⟩
    rw [hw, htake, List.length_take]
    show (m.heap p).fileSize - _ = (m.heap p).fileSize - _
    omega
  · exact hshort hlt (by simp [hret])
  · exact hshort (hfail hret).1 (by simp [hret])

theorem received_eats {io : RecvIo} (hst : (m.heap p).status = .recievingData)
    (hname : (m.heap p).tempFileName.isSome = true) (hio : io.Benign)
    (hgot : (m.heap p).Stores m.kernel got) :
    ∃ got' bs, Eats (m.heap p).workerFd p m (m.received p io) got got' bs := by
  have hne := openTemp_ne m.kernel hio hname
  have hopen := openTemp_stores hgot io
  have hd : (openTemp m.kernel (m.heap p) io).1.desc (openTemp m.kernel (m.heap p) io).2.tempFd
      ≠ none := by
    rw [hopen.desc hne]
    simp
  obtain ⟨name, hname⟩ := Option.isSome_iff_exists.mp hname
  obtain ⟨bs, hbs, htake, hleft⟩ := received_bytes hio hd
  obtain ⟨hk, hw, -⟩ := getBinaryData_smooth hio hd
  obtain ⟨hin, htk⟩ := (getBinaryData_ops m.kernel (m.heap p) io).reads
  obtain ⟨g, hrec⟩ := openTemp_record m.kernel (m.heap p) io
  have hlen : bs.length ≤ (m.heap p).fileSize := by
    rw [htake]
    exact List.length_take_le ..
  refine ⟨got ++ bs, bs, ?_, ?_, ?_, ?_, ?_⟩
  · rw [received_kernel]
    rw [← hin] at hbs
    rw [hbs.taken, htk]
  · rw [received_inbox]
    exact hbs.suffix
  · have hdec : (m.heap p).dec got = .payload (m.heap p).toDo name (m.heap p).fileSize got := by
      simp [Worker.dec, hst, hname]
    rw [hdec, feed_payload, List.take_of_length_le hlen, List.drop_eq_nil_of_le hlen,
      received_heap_self, ← hleft]
    rw [hw]
    simp [Worker.dec, hst, hname]
  · have hput := hopen.put hne bs
    rw [htake, ← hk] at hput
    rw [received_heap_self, received_kernel, hw, htake]
    refine hput.congr rfl ?_ (fun _ => rfl) (fun _ => rfl)
    rw [hrec]
    rfl
  · rw [received_inbox]
    by_cases hret : (getBinaryData m.kernel (m.heap p) io).1.ret = .doneSending
    · exact Or.inl (hbs.part hret)
    · exact Or.inr (hbs.whole hret)

theorem dataStage_eats {io : RecvIo} (hfd : (m.heap p).workerFd = fd)
    (hst : (m.heap p).status = .recievingData)
    (hname : (m.heap p).tempFileName.isSome = true) (hio : io.Benign)
    (hgot : (m.heap p).Stores m.kernel got) (h : m.dataStage p io = some f) :
    ∃ got' bs, Eats fd p m f.master got got' bs := by
  subst hfd
  obtain ⟨got', bs, heats⟩ := received_eats hst hname hio hgot
  refine ⟨got', bs, ?_⟩
  cases dataStage_case h with
  | skip hst' => exact (hst' hst).elim
  | more => exact heats
  | fail => exact heats
  | data hst' hret =>
      obtain ⟨g, hstream⟩ := getBinaryData_stream m.kernel (m.heap p) io
      have hw : (getBinaryData m.kernel (m.heap p) io).1.w =
          { m.heap p with tempFd := g, fileSize := 0 } := by
        rcases hstream with ⟨-, -, hw, -⟩ | ⟨hret', -⟩ | ⟨hret', -⟩
        · exact hw
        · rw [hret] at hret'
          cases hret'
        · rw [hret] at hret'
          cases hret'
      refine ⟨heats.taken, heats.left, ?_, ?_, heats.rest⟩
      · rw [heats.feed]
        simp [Flow.master, hw, Worker.dec, hst, Dec.payload]
      · refine heats.stores.congr ?_ ?_ (fun _ => rfl) (fun _ => rfl)
        · simp [Flow.master]
        · simp [Flow.master, Worker.tempPath, set]

/-! ## The three branches together -/

theorem headerStage_sized (hst : (m.heap p).status = .start) (hs : (m.heap p).Sound)
    (h : m.headerStage fd p = some (.next m₁)) :
    (m₁.heap p).status = .start ∨ ((m₁.heap p).status = .needSize
      ∧ (m₁.heap p).tempFileName.isSome = true ∧ (m₁.heap p).tempFd = -1
      ∧ (m₁.heap p).sizeBufferPos = 0) := by
  have key : ∀ r, getCommand (m.kernel.inbox (m.heap p).workerFd) (m.heap p) = some r →
      r.ret = .doneSending → r.w.tempFileName.isSome = true ∧ r.w.tempFd = -1
        ∧ r.w.sizeBufferPos = 0 := by
    intro r hr hret
    rcases getCommand_spec hr with ⟨_, -, hret', -⟩ | ⟨_, _, _, -, -, -, -, hw⟩
      | ⟨_, _, _, -, hret', -⟩
    · exact (stopped_ne_done _ (hret'.symm.trans hret)).elim
    · rw [hw]
      exact ⟨rfl, hs.unopened (Or.inl hst), (hs.start hst).1⟩
    · rw [hret] at hret'
      cases hret'
  cases headerStage_case h with
  | skip hst' => exact (hst' hst).elim
  | header r hst' hr hret hno =>
      right
      simpa using key r hr hret
  | register r m₁ hst' hr hret hverb hifd hreg =>
      obtain ⟨l, -, hm₁⟩ := register_eq hreg
      right
      rw [hm₁]
      simpa [set] using key r hr hret
  | reject r hst' hr hret hq =>
      left
      simpa [hst] using getCommand_status hr

theorem sizeStage_named (hst : (m.heap p).status = .needSize)
    (hname : (m.heap p).tempFileName.isSome = true) (h : m.sizeStage p = some f) :
    (f.master.heap p).tempFileName.isSome = true := by
  have key : ∀ r, getSize (m.kernel.inbox (m.heap p).workerFd) (m.heap p) = some r →
      r.w.tempFileName = (m.heap p).tempFileName := by
    intro r hr
    rcases getSize_spec .put [] hr with ⟨_, _, -, -, -, -, -, hw⟩ | ⟨_, -, -, -, -, hw⟩ <;>
      rw [hw]
  cases sizeStage_case h with
  | skip hst' => exact (hst' hst).elim
  | more r hst' hr hret => simpa [Flow.master, key r hr] using hname
  | size r hst' hr hret => simpa [Flow.master, sized, key r hr] using hname
  | fail r hst' hr hret => simpa [Flow.master, key r hr] using hname

theorem sized_eats {io : RecvIo} (got : Bytes) (hfd : (m.heap p).workerFd = fd)
    (hst : (m.heap p).status = .needSize) (hname : (m.heap p).tempFileName.isSome = true)
    (hfd0 : (m.heap p).tempFd = -1) (hio : io.Benign)
    (h : Flow.andThen (m.sizeStage p) (dataStage p io) = some f) :
    ∃ got' bs, Eats fd p m f.master got got' bs := by
  rcases Flow.andThen_eq_some.mp h with ⟨m₁, h1, rfl⟩ | ⟨m₁, h1, h2⟩
  · obtain ⟨bs, heats, -⟩ := sizeStage_eats got hfd hst hname hfd0 h1
    exact ⟨[], bs, heats⟩
  · obtain ⟨bs, heats, hrest⟩ := sizeStage_eats got hfd hst hname hfd0 h1
    by_cases hst₁ : (m₁.heap p).status = .recievingData
    · have hfd₁ : (m₁.heap p).workerFd = fd :=
        (sizeStage_parserOnly h1).record.workerFd.trans hfd
      obtain ⟨got', bs', heats'⟩ := dataStage_eats hfd₁ hst₁ (sizeStage_named hst hname h1) hio
        heats.stores h2
      exact ⟨got', bs ++ bs', heats.trans (hrest hst₁) heats'⟩
    · rw [dataStage, if_pos hst₁] at h2
      obtain rfl := Option.some.inj h2
      exact ⟨[], bs, heats⟩

/-- **The parser stores what it takes**, unless it rejects a header. -/
theorem parsePhase_eats {io : RecvIo} (hfd : (m.heap p).workerFd = fd) (hs : (m.heap p).Sound)
    (hst : (m.heap p).status ≠ .forwardData) (hio : io.Benign)
    (hgot : (m.heap p).Stores m.kernel got)
    (hlive : (f.master.heap p).alive = true ∨ (f.master.heap p).status ≠ .start)
    (h : m.parsePhase fd p io = some f) : ∃ got' bs, Eats fd p m f.master got got' bs := by
  rcases hcase : (m.heap p).status with _ | _ | _ | _ | _
  · rw [parsePhase, Flow.andThen_assoc] at h
    rcases Flow.andThen_eq_some.mp h with ⟨m₁, h1, rfl⟩ | ⟨m₁, h1, h2⟩
    · obtain ⟨bs, heats, -⟩ := headerStage_eats got hfd hcase hs hlive h1
      exact ⟨[], bs, heats⟩
    · rcases headerStage_sized hcase hs h1 with hst₁ | ⟨hst₁, hname, hfd0, -⟩
      · have hskip : Flow.andThen (m₁.sizeStage p) (dataStage p io) = some (.next m₁) := by
          simp [sizeStage, dataStage, Flow.andThen, hst₁]
        obtain rfl := Option.some.inj (hskip.symm.trans h2)
        obtain ⟨bs, heats, -⟩ := headerStage_eats got hfd hcase hs hlive h1
        exact ⟨[], bs, heats⟩
      · obtain ⟨bs, heats, hrest⟩ := headerStage_eats got hfd hcase hs
          (Or.inr (by simp [Flow.master, hst₁])) h1
        have hfd₁ : (m₁.heap p).workerFd = fd :=
          (headerStage_parserOnly h1).record.workerFd.trans hfd
        obtain ⟨got', bs', heats'⟩ := sized_eats [] hfd₁ hst₁ hname hfd0 hio h2
        exact ⟨got', bs ++ bs', heats.trans (hrest hst₁) heats'⟩
  · have hskip : m.headerStage fd p = some (.next m) := by simp [headerStage, hcase]
    rw [parsePhase, Flow.andThen_assoc, hskip] at h
    exact sized_eats got hfd hcase (hs.named (by simp [hcase])) (hs.unopened (Or.inr hcase)) hio h
  · have hskip : Flow.andThen (m.headerStage fd p) (sizeStage p) = some (.next m) := by
      simp [headerStage, sizeStage, Flow.andThen, hcase]
    rw [parsePhase, hskip] at h
    exact dataStage_eats hfd hcase (hs.named (by simp [hcase])) hio hgot h
  · exact (hst hcase).elim
  · exact (hs.idle hcase).elim

end Master

end KeyLime
