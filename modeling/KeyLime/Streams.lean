import KeyLime.Receive

/-!
# Whole streams, and streams cut off

The receive loop turns the frames that `do_put` has written into tasks, one
for each, and is left at the end of the stream. A stream that ends inside of
a frame it survives only when that frame has not got beyond `PUT ` and what
is left of it is no file name: `read_file` goes by the number of bytes that
are missing and cannot tell the end of the stream from a slow master.

`receives_all` is about whole streams. That the bytes are those of the master is
not an assumption about a format but a hypothesis about calls: each part of the
stream is what some call of `do_put` has written for the file (`PutWrites`), with
its own short writes.

`survives_iff` is about a stream that is cut off behind any number of whole
frames. There are three ways such a stream can end for the worker: the loop is
left as it should be; `exit(-1)`, for five bytes, which are taken for a header
with an empty name; and from six bytes on it goes round without end in the loop of
`read_file_from_socket`, which takes a read of nothing for progress. The last is
a statement about every number of rounds (`receive_late`).
-/

namespace KeyLime

open Intake

variable {ios : Nat → RoundIo} {io : RoundIo} {frames : List (Bytes × Bytes)} {f : Bytes × Bytes}
  {bss : List Bytes} {s : List (Arrival UInt8)} {k : Kernel} {r : Receiver} {name q : Bytes}

/-! ## Whole streams -/

/-- A call of `do_put` for a file of that name and content has written `bs`. The
call is any that succeeds: with any record and target, and any outcomes of its
reads and writes. -/
def PutWrites (f : Bytes × Bytes) (bs : Bytes) : Prop :=
  ∃ k k' dst w io off, doPut k dst w io = some (.doneSending, k') ∧
    w.tempFileName = some f.1 ∧ io.fopenOk = true ∧ k.desc dst = some .sock ∧
    k.desc w.tempFd = some (.file (k.resolve f.1) off) ∧ k.store (k.resolve f.1) = some f.2 ∧
    k'.sent dst = k.sent dst ++ bs

theorem PutWrites.eq {bs : Bytes} (h : PutWrites f bs) : bs = putFrame f := by
  obtain ⟨k, k', dst, w, io, off, hput, hname, hopen, hdst, hsrc, hstore, hsent⟩ := h
  have hne : w.tempFd ≠ dst := by
    rintro heq
    rw [heq, hdst] at hsrc
    cases hsrc
  obtain ⟨bs', hends⟩ := doPut_spec hname hdst hne hput
  have hsize : getFileSize k f.1 io.fopenOk = f.2.length := by
    simp [getFileSize, hopen, hstore]
  have hrem : (k.rewind w.tempFd).remaining w.tempFd = f.2 := by
    simp [Kernel.rewind, Kernel.remaining, hsrc, hstore]
  obtain ⟨body, hbody, hlen, hbs⟩ := hends.done rfl
  rw [hsize] at hlen hbs
  rw [hrem] at hbody
  rw [hbody.eq_of_length hlen] at hbs
  have hall := hends.delivered.sent
  rw [hall, Function.update_self] at hsent
  exact (List.append_cancel_left hsent).symm.trans hbs

theorem PutWrites.of_computed (k : Kernel) (dst : Int) (w : Worker) (io : PutIo) {off : Nat}
    {bs : Bytes} (hname : w.tempFileName = some f.1) (hopen : io.fopenOk = true)
    (hdst : k.desc dst = some .sock) (hsrc : k.desc w.tempFd = some (.file (k.resolve f.1) off))
    (hstore : k.store (k.resolve f.1) = some f.2)
    (h : (doPut k dst w io).map (fun (ret, k') => (ret, k'.sent dst)) =
      some (.doneSending, k.sent dst ++ bs)) : PutWrites f bs := by
  obtain ⟨⟨ret, k'⟩, hput, hv⟩ := Option.map_eq_some_iff.mp h
  obtain ⟨rfl, hsent⟩ := Prod.mk.inj hv
  exact ⟨k, k', dst, w, io, off, hput, hname, hopen, hdst, hsrc, hstore, hsent⟩

theorem flatten_eq (h : List.Forall₂ PutWrites frames bss) :
    bss.flatten = (frames.map putFrame).flatten := by
  induction h with
  | nil => rfl
  | cons h _ ih => rw [List.flatten_cons, List.map_cons, List.flatten_cons, h.eq, ih]

theorem Pushed.whole {resolve : Bytes → Bytes} {ps : List (WorkerTask × Option Bytes)}
    (h : Pushed ios resolve ps frames) (hdisk : ∀ i, (ios i).writes = [])
    (hdir : ∀ f ∈ frames, resolve (outputName f.1) ≠ resolve f.1) :
    List.Forall₂ (fun p f => p.1.inputFilename = some f.1 ∧ p.2 = some f.2) ps frames := by
  induction h with
  | nil => exact .nil
  | cons h _ ih =>
      obtain ⟨hname, hgot⟩ := h
      exact .cons ⟨hname, hgot hdisk (hdir _ List.mem_cons_self)⟩
        (ih fun f hf => hdir f (List.mem_cons_of_mem _ hf))

/-- **The worker receives what the master has sent**: from the frames of any
list, in whatever pieces they arrive and however often a read is interrupted,
the loop makes one task each, in order, with the program in its file when the
task is pushed, and it is left at the end of the stream. -/
theorem receives_all (hframes : ∀ f ∈ frames, Framed f) (hputs : List.Forall₂ PutWrites frames bss)
    (hs : Arrival.err ∉ s) (hin : incoming s = bss.flatten) (hopen : ∀ i, (ios i).openOk = true)
    (hdisk : ∀ i, (ios i).writes = [])
    (hdir : ∀ f ∈ frames, k.resolve (outputName f.1) ≠ k.resolve f.1) :
    ∃ fuel r, receive ios fuel 0 ⟨k, s, []⟩ = some (.left, r) ∧
      List.Forall₂ (fun p f => p.1.inputFilename = some f.1 ∧ p.2 = some f.2) r.pushed frames := by
  rw [flatten_eq hputs, ← List.append_nil (List.flatten _)] at hin
  obtain ⟨r', ps, n, hin', hs', -, hpushed, hps, hrun⟩ :=
    receive_frames hopen hframes 0 ⟨k, s, []⟩ hs hin
  obtain ⟨s', hend⟩ := receive_end ios (0 + frames.length) hs' hin' n
  refine ⟨frames.length + (n + 1), _, (hrun _ (Nat.le_succ n)).trans hend, ?_⟩
  have hall : r'.pushed = ps := hpushed
  exact hall ▸ hps.whole hdisk hdir

/-- A master that has stored a file and is about to send it on 3. -/
def storedKernel (name payload : Bytes) : Kernel :=
  { (Pipeline.start id fun _ => some payload).kernel with
    desc := fun fd => if fd = 3 then some .sock else if fd = 4 then some (.file name 0) else none }

def storedRecord (name : Bytes) : Worker :=
  { (default : Worker) with tempFileName := some name, tempFd := 4 }

/-- Memory that is zero, and a disk that does not fail. -/
def quietIo : RoundIo := ⟨fun _ => 0, fun _ => 0, true, true, []⟩

def receiver (s : List (Arrival UInt8)) : Receiver := ⟨(Pipeline.start id fun _ => none).kernel, s, []⟩

/-- An empty program and one of a byte, read in three pieces with an
interrupted read between them. -/
theorem receives_two :
    ∃ fuel r, receive (fun _ => quietIo) fuel 0
        (receiver [.chunk 80 [85, 84], .intr,
          .chunk 32 ([97, 10] ++ sizeBytes 0 ++ [80, 85, 84, 32, 98, 10, 1]),
          .chunk 0 [0, 0, 0, 0, 0, 0, 7]]) = some (.left, r) ∧
      List.Forall₂ (fun p f => p.1.inputFilename = some f.1 ∧ p.2 = some f.2) r.pushed
        [([97], []), ([98], [7])] := by
  have hputs : List.Forall₂ PutWrites [([97], []), ([98], [7])]
      [putFrame ([97], []), putFrame ([98], [7])] := by
    refine .cons ?_ (.cons ?_ .nil)
    · exact .of_computed (storedKernel [97] []) 3 (storedRecord [97]) {} rfl rfl rfl rfl rfl
        (by decide +kernel)
    · exact .of_computed (storedKernel [98] [7]) 3 (storedRecord [98]) {} rfl rfl rfl rfl rfl
        (by decide +kernel)
  refine receives_all (by decide) hputs (by decide) (by decide) (fun _ => rfl) (fun _ => rfl) ?_
  decide

/-! ## Streams cut off -/

section
variable {tail body : Bytes} {size : Nat}

/-- A request whose file is cut off: the round does not end, or it makes a
task of what should have been a size other than 0. -/
theorem handleRequest_cut (hs : Arrival.err ∉ r.stream)
    (hsize : sizeAt (overwrite io.size ((incoming r.stream).take 8)) = size)
    (hbody : (incoming r.stream).drop 8 = body)
    (hcut : body.length < size ∨ (size = 0 ∧ body = [])) (hname : tail.dropLast ≠ [])
    (h0 : (0 : UInt8) ∉ tail.dropLast) (hopen : io.openOk = true) :
    (∀ fuel, handleRequest fuel io (putVerb ++ [space] ++ tail) r = none) ∨
      ∃ r' p, r'.pushed = r.pushed ++ [p] ∧ incoming r'.stream = [] ∧ Arrival.err ∉ r'.stream ∧
        ∀ fuel, 0 < fuel →
          handleRequest fuel io (putVerb ++ [space] ++ tail) r = some (none, r') := by
  have htail : tail ≠ [] := by
    rintro rfl
    exact hname rfl
  rcases hcut with hlt | ⟨rfl, rfl⟩
  · refine Or.inl fun fuel => ?_
    rw [handleRequest_put fuel io r tail htail h0, readFile_stuck hsize hbody r.kernel hs hname hopen hlt]
    rfl
  · right
    obtain ⟨s', k', hread, hin', herr', -⟩ :=
      readFile_whole hsize hbody r.kernel hs hname hopen (Nat.zero_le _) (by decide) Nat.one_pos
    obtain ⟨r', t, got, hpush, hr', -, hpushed, -⟩ := pushTask_spec io tail.dropLast r s' k'
    refine ⟨r', (t, got), hpushed, hr' ▸ hin', hr' ▸ herr', ?_⟩
    intro fuel hfuel
    refine handleRequest_mono hfuel ?_
    rw [handleRequest_put 1 io r tail htail h0, hread, Option.map_some, hpush]

end

/-- What a proper prefix of a frame is: a part of the header line, or the
line and a part of the rest. -/
theorem prefix_cases (hq : q <+: putFrame f) (hne : q ≠ putFrame f) :
    q <+: putVerb ++ [space] ++ f.1 ∨
      ∃ part more, q = putVerb ++ [space] ++ (f.1 ++ [newline]) ++ part ∧ more ≠ [] ∧
        sizeBytes f.2.length ++ f.2 = part ++ more := by
  obtain ⟨more, hmore⟩ := hq
  have hsplit : q ++ more =
      (putVerb ++ [space] ++ f.1) ++ newline :: (sizeBytes f.2.length ++ f.2) := by
    rw [hmore]
    simp [putFrame, putHeader]
  rcases List.append_eq_append_iff.mp hsplit with ⟨as, hhead, -⟩ | ⟨as, hqa, hrest⟩
  · exact Or.inl ⟨as, hhead.symm⟩
  · cases as with
    | nil =>
        left
        rw [hqa, List.append_nil]
    | cons b part =>
        obtain ⟨rfl, hrest'⟩ := List.cons.inj hrest
        refine Or.inr ⟨part, more, by simp [hqa], ?_, hrest'⟩
        rintro rfl
        exact hne (by simpa using hmore)

/-- A stream that ends behind the first bytes `PUT ` of a frame at the latest:
the line is no request, and the next round leaves the loop. -/
theorem receive_early (ios : Nat → RoundIo) (i : Nat) (hs : Arrival.err ∉ r.stream)
    (hnl : newline ∉ incoming r.stream) (hlen : (incoming r.stream).length ≤ 4) (fuel : Nat) :
    ∃ s', receive ios (fuel + 2) i r = some (.left, { r with stream := s' }) := by
  by_cases hnil : incoming r.stream = []
  · exact receive_end ios i hs hnil (fuel + 1)
  · obtain ⟨s₁, hin₁, hs₁, hround⟩ := receiveRound_line (ios i) hs (collect_short hnl) hnil
    obtain ⟨s', hend⟩ := receive_end ios (i + 1) (r := { r with stream := s₁ }) hs₁ hin₁
      fuel
    exact ⟨s', (receive_next ((hround _).trans (handleRequest_short (by omega)))).trans hend⟩

/-- The line ends with the first byte of the file name, which is taken for its
newline. -/
theorem receive_unnamed (ios : Nat → RoundIo) (i : Nat) {b : UInt8} (hs : Arrival.err ∉ r.stream)
    (hb : b ≠ newline) (hin : incoming r.stream = putVerb ++ [space] ++ [b]) (fuel : Nat) :
    ∃ s', receive ios (fuel + 1) i r = some (.exited, { r with stream := s' }) := by
  have hnl : newline ∉ incoming r.stream := by
    rw [hin]
    simpa [putVerb, space, newline] using hb.symm
  obtain ⟨s₁, -, hs₁, hround⟩ := receiveRound_line (ios i) hs (collect_short hnl) (by simp [hin])
  have hput : handleRequest fuel (ios i) (putVerb ++ [space] ++ [b]) { r with stream := s₁ } =
      (readFile fuel (ios i) [] s₁ r.kernel).map (pushTask (ios i) [] { r with stream := s₁ }) :=
    handleRequest_put fuel (ios i) { r with stream := s₁ } [b] (by simp) (by simp)
  rw [readFile_unnamed r.kernel hs₁] at hput
  exact ⟨s₁, receive_ended ((hround fuel).trans (by rw [hin]; exact hput))⟩

theorem receive_late {i : Nat} (hs : Arrival.err ∉ r.stream)
    (hf : Framed f) (hopen : (ios i).openOk = true) (hq : incoming r.stream <+: putFrame f)
    (hne : incoming r.stream ≠ putFrame f) (hlen : 6 ≤ (incoming r.stream).length) :
    (∀ fuel, receive ios fuel i r = none) ∨
      ∀ fuel, ∃ r' p, r'.pushed = r.pushed ++ [p] ∧ receive ios (fuel + 3) i r = some (.left, r') := by
  obtain ⟨hname, hnl, h0, hlt⟩ := hf
  have hnl' : newline ∉ putVerb ++ [space] ++ f.1 := by
    simp only [List.mem_append, not_or]
    exact ⟨⟨by decide, by decide⟩, hnl⟩
  -- A line with a file name in it, and a file of which some is missing.
  have finish (tail rest : Bytes) (hline : (lineCollector newline).feed [] (incoming r.stream) =
      (putVerb ++ [space] ++ tail, rest)) (htail : tail.dropLast ≠ [])
      (h0' : (0 : UInt8) ∉ tail.dropLast)
      (hcut : ∀ mem, (rest.drop 8).length < sizeAt (overwrite mem (rest.take 8)) ∨
        (sizeAt (overwrite mem (rest.take 8)) = 0 ∧ rest.drop 8 = [])) :
      (∀ fuel, receive ios fuel i r = none) ∨ ∀ fuel, ∃ r' p, r'.pushed = r.pushed ++ [p] ∧
        receive ios (fuel + 3) i r = some (.left, r') := by
    obtain ⟨s₁, hin₁, hs₁, hround⟩ := receiveRound_line (ios i) hs hline (by simp)
    rcases handleRequest_cut (r := { r with stream := s₁ }) hs₁ rfl rfl
      (by rw [hin₁]; exact hcut (ios i).size) htail h0' hopen with
      hnone | ⟨r', p, hpushed, hin', hs', hdone⟩
    · refine Or.inl fun fuel => ?_
      cases fuel with
      | zero => rfl
      | succ fuel => exact receive_stuck ((hround fuel).trans (hnone fuel))
    · refine Or.inr fun fuel => ?_
      obtain ⟨s', hend⟩ := receive_end ios (i + 1) hs' hin' (fuel + 1)
      exact ⟨{ r' with stream := s' }, p, hpushed,
        (receive_next ((hround _).trans (hdone _ (Nat.succ_pos _)))).trans hend⟩
  rcases prefix_cases hq hne with hhead | ⟨part, more, hpart, hmore, hrest⟩
  · obtain ⟨tail, htail⟩ : ∃ tail, incoming r.stream = putVerb ++ [space] ++ tail := by
      refine ⟨(incoming r.stream).drop 4, ?_⟩
      have htake : (incoming r.stream).take 4 = putVerb ++ [space] := by
        rw [List.prefix_iff_eq_take.mp hhead, List.take_take, Nat.min_eq_left (by omega)]
        rfl
      rw [← htake, List.take_append_drop]
    have hsub : tail <+: f.1 := by
      rw [htail] at hhead
      exact (List.prefix_append_right_inj _).mp hhead
    have hnl₁ : newline ∉ incoming r.stream := fun h => hnl' (hhead.subset h)
    refine finish tail [] ((collect_short hnl₁).trans (by rw [htail])) ?_ ?_ fun mem => ?_
    · intro hnil
      have := congrArg List.length hnil
      simp only [htail, List.length_append, putVerb, List.length_cons, List.length_nil,
        List.length_dropLast] at hlen this
      omega
    · exact fun h => h0 (hsub.subset (List.mem_of_mem_dropLast h))
    · rcases Nat.eq_zero_or_pos (sizeAt (overwrite mem ([].take 8))) with hz | hz
      · exact Or.inr ⟨hz, rfl⟩
      · exact Or.inl hz
  · have hdrop : (f.1 ++ [newline]).dropLast = f.1 := List.dropLast_concat
    refine finish (f.1 ++ [newline]) part ?_ (by rw [hdrop]; exact hname)
      (by rw [hdrop]; exact h0) fun mem => ?_
    · rw [hpart]
      simpa using collect_line hnl'
    · have hlens := congrArg List.length hrest
      simp only [List.length_append, sizeBytes_length] at hlens
      have hpos := List.length_pos_of_ne_nil hmore
      by_cases h8 : part.length < 8
      · rw [List.drop_eq_nil_of_le (by omega)]
        rcases Nat.eq_zero_or_pos (sizeAt (overwrite mem (part.take 8))) with hz | hz
        · exact Or.inr ⟨hz, rfl⟩
        · exact Or.inl hz
      · have htake : part.take 8 = sizeBytes f.2.length := by
          have := congrArg (List.take 8) hrest
          rw [List.take_left' (sizeBytes_length _), List.take_append_of_le_length (by omega)] at this
          exact this.symm
        rw [htake, sizeAt_sizeBytes (by omega), List.length_drop]
        exact Or.inl (by omega)

end KeyLime
