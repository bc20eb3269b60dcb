import KeyLime.Codec
import KeyLime.Outputs

/-!
# What a worker says

The sending thread writes one frame after the other on the socket: a header, a
size and the blocks of an output file, each in a call of its own and all of
them between the steps of six other threads. As long as requests come only
when the files of their names are free, the stream is one of frames, and each
of them answers a request of its own (`answers_framed`).

A stream is put together from two parts: the whole answers to the tasks that
have been sent, in that order, and behind them a part of the answer to the one
that the sending thread is at, or has given up (`Answers`). `SendingPc.said` says
for each place of the thread what it has written of the answer so far, and
`Speaks` what a step adds to it.

What an answer holds is the output of the task's own program, by `Outputs`. Its
run is tidy, so a name is plain for the shell, its command line fits, and its
files are not in use for another task; without this an answer may be another
program's, though the frames stay frames.
-/

namespace KeyLime

open Transition

/-- What the sending thread has said of the frame it is at. -/
def SendingPc.said : SendingPc → Bytes
  | .measuring t => createHeader (t.inputFilename.getD [])
  | .body t remain _ out =>
      createHeader (t.inputFilename.getD []) ++ sizeBytes (out.length + remain) ++ out
  | .pulling | .header _ | .exited => []

theorem sendable_of_runs {name : Bytes} (h : runsProgram name = true) : Sendable name := by
  simp only [runsProgram, plainName, Bool.and_eq_true, Bool.not_eq_true', List.all_eq_true] at h
  obtain ⟨⟨hbytes, hhead⟩, -⟩ := h
  refine ⟨?_, ?_, ?_⟩
  · rintro rfl
    cases hhead
  · intro hmem
    exact absurd (hbytes _ hmem) (by decide)
  · intro hmem
    exact absurd (hbytes _ hmem) (by decide)

namespace Pipeline

variable {exec : Bytes → Bytes} {s s' : Pipeline} {e : PipelineEvent} {i : Fin numThread}
  {t : WorkerTask} {seq : Nat} {x : Frame}

/-! ## The calls of `write_to_socket` -/

/-- The bytes of the next call, and the kernel it comes to. -/
def piece (s : Pipeline) : Bytes × Kernel :=
  match s.sending with
  | .header t => (createHeader (t.inputFilename.getD []), s.kernel)
  | .measuring t => (sizeBytes (endOffset s.kernel t.outputFd), s.kernel.rewind t.outputFd)
  | .body t remain buffer _ =>
      (fetch (overwrite buffer (s.kernel.readFile t.outputFd (blockSize remain)).1)
        (blockSize remain), (s.kernel.readFile t.outputFd (blockSize remain)).2)
  | .pulling | .exited => ([], s.kernel)

/-- What a step of the sending thread does to the socket: nothing, at the end
of a frame; all of the next call; or the part of it that fits. -/
inductive Speaks (s s' : Pipeline) : Prop
  | frame (t : WorkerTask) (buffer : Nat → UInt8) (body : Bytes)
      (hpc : s.sending = .body t 0 buffer body)
      (hs : s' = { s with
        kernel := s.kernel.close t.outputFd, sending := .pulling
        sent := s.sent ++ [(t.seq, body)] })
  | piece (t : WorkerTask) (pc : SendingPc) (htask : s.sending.task = some t)
      (htask' : pc.task = some t) (hopen : s.piece.2.desc socketFd ≠ none)
      (hsaid : pc.said = s.sending.said ++ s.piece.1)
      (hs : s' = { s with kernel := s.piece.2.put socketFd s.piece.1, sending := pc })
  | part (t : WorkerTask) (short : Option Nat) (htask : s.sending.task = some t)
      (hs : s' = s.giveUp t (write s.piece.2 s.piece.1 short).2)

theorem sendingStep_speaks {mem : Nat → UInt8} {short : Option Nat}
    (hs : s.sendingStep mem short = some s') : Speaks s s' := by
  unfold sendingStep at hs
  split at hs
  · rename_i t hpc
    obtain ⟨name, hin, h1⟩ := Option.map_eq_some_iff.mp hs
    have hpiece : s.piece = (createHeader name, s.kernel) := by simp only [piece, hpc, hin]; rfl
    have htask : s.sending.task = some t := by rw [hpc]; rfl
    cases hw : write s.kernel (createHeader name) short with
    | mk ok k =>
        simp only [hw] at h1
        cases ok with
        | true =>
            obtain ⟨hopen, -, rfl⟩ := write_ok hw
            refine .piece t (.measuring t) htask rfl (hpiece ▸ hopen) ?_ (by rw [hpiece, ← h1]; rfl)
            simp [SendingPc.said, hpc, hpiece, hin]
        | false =>
            exact .part t short htask (by rw [hpiece, hw, ← h1]; rfl)
  · rename_i t hpc
    simp only at hs
    have hpiece : s.piece = (sizeBytes (endOffset s.kernel t.outputFd),
        s.kernel.rewind t.outputFd) := by simp only [piece, hpc]
    have htask : s.sending.task = some t := by rw [hpc]; rfl
    cases hw : write (s.kernel.rewind t.outputFd) (sizeBytes (endOffset s.kernel t.outputFd)) short
      with
    | mk ok k =>
        simp only [hw] at hs
        cases ok with
        | true =>
            obtain ⟨hopen, -, rfl⟩ := write_ok hw
            refine .piece t (.body t (endOffset s.kernel t.outputFd) mem []) htask rfl
              (hpiece ▸ hopen) ?_ (by rw [hpiece]; exact (Option.some.inj hs).symm)
            simp [SendingPc.said, hpc, hpiece]
        | false =>
            exact .part t short htask (by rw [hpiece, hw]; exact (Option.some.inj hs).symm)
  · rename_i t remain buffer body hpc
    split at hs
    · rename_i hremain
      subst hremain
      exact .frame t buffer body hpc (Option.some.inj hs).symm
    · rename_i hremain
      rw [← blockSize] at hs
      have htask : s.sending.task = some t := by rw [hpc]; rfl
      cases hr : s.kernel.readFile t.outputFd (blockSize remain) with
      | mk blk k₁ =>
          have hpiece : s.piece = (fetch (overwrite buffer blk) (blockSize remain), k₁) := by
            simp only [piece, hpc, hr]
          simp only [hr] at hs
          cases hw : write k₁ (fetch (overwrite buffer blk) (blockSize remain)) short with
          | mk ok k =>
              simp only [hw] at hs
              cases ok with
              | true =>
                  obtain ⟨hopen, -, rfl⟩ := write_ok hw
                  refine .piece t (.body t (remain - blockSize remain) (overwrite buffer blk)
                    (body ++ fetch (overwrite buffer blk) (blockSize remain))) htask rfl
                    (hpiece ▸ hopen) ?_ (by rw [hpiece]; exact (Option.some.inj hs).symm)
                  have hle : blockSize remain ≤ remain := by
                    unfold blockSize
                    split <;> omega
                  have hsize : body.length + blockSize remain + (remain - blockSize remain) =
                      body.length + remain := by omega
                  simp [SendingPc.said, hpc, hpiece, length_fetch, hsize]
              | false =>
                  exact .part t short htask (by rw [hpiece, hw]; exact (Option.some.inj hs).symm)
  · cases hs

theorem piece_sent (s : Pipeline) : s.piece.2.sent = s.kernel.sent := by
  unfold piece
  split
  · rfl
  · simp only [Kernel.rewind]
    split <;> rfl
  · simp only [Kernel.readFile]
    split <;> rfl
  · rfl
  · rfl

theorem write_sent {k : Kernel} (hk : Steady k) (bs : Bytes) (short : Option Nat) :
    ∃ part, part <+: bs ∧ (write k bs short).2.sent socketFd = k.sent socketFd ++ part := by
  unfold write
  split
  · exact ⟨[], List.nil_prefix, (List.append_nil _).symm⟩
  · rename_i hopen
    have hd : k.desc socketFd = some .sock := hk.socket.resolve_right hopen
    cases short with
    | none => exact ⟨bs, List.prefix_rfl, by simp [Kernel.put_sock hd]⟩
    | some n => exact ⟨bs.take n, List.take_prefix n bs, by simp [Kernel.put_sock hd]⟩

/-! ## The answer to a request -/

/-- A frame that says what the program of request `seq` has to say: the verb `PUT`,
the name that was requested, and the output of the program that came with it. -/
def Answer (exec : Bytes → Bytes) (s : Pipeline) (seq : Nat) (x : Frame) : Prop :=
  ∃ name payload, s.accepted[seq]? = some (name, payload) ∧ x = (.put, name, exec payload)

theorem Answer.mono (h : s.Answer exec seq x) (hacc : s.accepted <+: s'.accepted) :
    s'.Answer exec seq x := by
  obtain ⟨name, payload, hget, hx⟩ := h
  obtain ⟨more, hmore⟩ := hacc
  refine ⟨name, payload, ?_, hx⟩
  rw [← hmore, List.getElem?_append_left (List.getElem?_eq_some_iff.mp hget).1]
  exact hget

theorem encode_answer (name out : Bytes) :
    Frame.encode (.put, name, out) = createHeader name ++ sizeBytes out.length ++ out := rfl

theorem Outputs.held {y : WorkerTask × Phase} (ho : s.Outputs exec) (hy : y ∈ s.sending.job) :
    s.Served exec y := by
  refine ho.served y ?_
  rw [inFlight_sending]
  exact Multiset.mem_add.mpr (Or.inl hy)

/-- What the sending thread has said and what it says next are of the answer
to the request it is at. -/
theorem Outputs.piece_prefix (ho : s.Outputs exec) (htask : s.sending.task = some t) :
    ∃ x, s.Answer exec t.seq x ∧ s.sending.said ++ s.piece.1 <+: x.encode := by
  cases hpc : s.sending with
  | pulling | exited =>
      rw [hpc] at htask
      cases htask
  | header t' =>
      obtain rfl : t' = t := Option.some.inj (by rw [hpc] at htask; exact htask)
      obtain ⟨name, payload, hget, hin, -⟩ := ho.held (y := (t', .finished)) (by
        simp [hpc, SendingPc.job])
      have hname : t'.inputFilename.getD [] = name := by rw [hin, Option.getD_some]
      refine ⟨_, ⟨name, payload, hget, rfl⟩, ?_⟩
      simp only [SendingPc.said, piece, hpc, hname, encode_answer, List.append_assoc]
      exact List.prefix_append _ _
  | measuring t' =>
      obtain rfl : t' = t := Option.some.inj (by rw [hpc] at htask; exact htask)
      obtain ⟨name, payload, hget, hin, -, -, -, hdesc, hstore⟩ :=
        ho.held (y := (t', .measuring)) (by simp [hpc, SendingPc.job])
      have hname : t'.inputFilename.getD [] = name := by rw [hin, Option.getD_some]
      have hsize : endOffset s.kernel t'.outputFd = (exec payload).length := by
        simp [endOffset, hdesc, hstore]
      refine ⟨_, ⟨name, payload, hget, rfl⟩, ?_⟩
      simp only [SendingPc.said, piece, hpc, hname, hsize, encode_answer]
      exact List.prefix_append _ _
  | body t' remain buffer out =>
      obtain rfl : t' = t := Option.some.inj (by rw [hpc] at htask; exact htask)
      obtain ⟨name, payload, hget, hin, -, -, -, hdesc, hstore, hprefix, hlen⟩ :=
        ho.held (y := (t', .body remain buffer out)) (by simp [hpc, SendingPc.job])
      have hname : t'.inputFilename.getD [] = name := by rw [hin, Option.getD_some]
      have hle : blockSize remain ≤ remain := by
        unfold blockSize
        split <;> omega
      obtain ⟨blk, hblk, hblklen, hprefix', -⟩ :=
        read_block hdesc hstore hprefix (n := blockSize remain) (by omega)
      have hbs : fetch (overwrite buffer blk) (blockSize remain) = blk := by
        rw [← hblklen, fetch_overwrite]
      refine ⟨_, ⟨name, payload, hget, rfl⟩, ?_⟩
      simp only [SendingPc.said, piece, hpc, hname, hlen, hblk, hbs, encode_answer,
        List.append_assoc]
      exact (List.prefix_append_right_inj _).mpr ((List.prefix_append_right_inj _).mpr hprefix')

theorem Outputs.piece_steady (ho : s.Outputs exec) : Steady s.piece.2 := by
  cases hpc : s.sending with
  | pulling | exited | header t =>
      simp only [piece, hpc]
      exact ho.steady
  | measuring t =>
      obtain ⟨name, payload, -, -, -, -, -, hright⟩ :=
        ho.held (y := (t, .measuring)) (by simp [hpc, SendingPc.job])
      obtain ⟨off, hdesc⟩ := hright.desc
      simp only [piece, hpc]
      exact (Touches.rewind ho.steady hdesc).steady
  | body t remain buffer out =>
      obtain ⟨name, payload, -, -, -, -, -, hright⟩ :=
        ho.held (y := (t, .body remain buffer out)) (by simp [hpc, SendingPc.job])
      obtain ⟨off, hdesc⟩ := hright.desc
      simp only [piece, hpc]
      exact (Touches.readFile ho.steady hdesc _).steady

theorem Outputs.said_answer {buffer : Nat → UInt8} {out : Bytes} (ho : s.Outputs exec)
    (hpc : s.sending = .body t 0 buffer out) :
    ∃ x, s.Answer exec t.seq x ∧ s.sending.said = x.encode := by
  obtain ⟨name, payload, hget, hin, -, -, -, -, -, hprefix, hlen⟩ :=
    ho.held (y := (t, .body 0 buffer out)) (by simp [hpc, SendingPc.job])
  have hname : t.inputFilename.getD [] = name := by rw [hin, Option.getD_some]
  have hout : out = exec payload := hprefix.eq_of_length hlen
  refine ⟨_, ⟨name, payload, hget, rfl⟩, ?_⟩
  rw [encode_answer, ← hout, ← hname, hpc]
  rfl

/-! ## The stream -/

/-- What is behind the frames of the tasks that have been sent: nothing, or a
part of the answer to a request that the sending thread is at or gave up. -/
def Unfinished (exec : Bytes → Bytes) (s : Pipeline) (part : Bytes) : Prop :=
  part = s.sending.said ∨ s.sending = .exited ∧
    ∃ seq ∈ s.abandoned, ∃ x, s.Answer exec seq x ∧ part <+: x.encode

/-- The stream is one of answers: whole ones to the tasks that have been sent, in the
order in which they have been, and behind them a part of one more. -/
structure Answers (exec : Bytes → Bytes) (s : Pipeline) : Prop where
  names : ∀ p ∈ s.accepted, runsProgram p.1 = true
  stream : ∃ xs part, s.kernel.sent socketFd = (xs.map Frame.encode).flatten ++ part ∧
    List.Forall₂ (s.Answer exec) (s.sent.map Prod.fst) xs ∧ s.Unfinished exec part

theorem start_answers (resolve : Bytes → Bytes) (store : Bytes → Option Bytes) :
    (start resolve store).Answers exec where
  names _ h := by cases h
  stream := ⟨[], [], rfl, .nil, Or.inl rfl⟩

theorem Answers.of_still (h : s.Answers exec) (hout : s'.kernel.sent socketFd = s.kernel.sent socketFd)
    (hsending : s'.sending = s.sending) (hsent : s'.sent = s.sent)
    (habandoned : s'.abandoned = s.abandoned) (hacc : s'.accepted = s.accepted) :
    s'.Answers exec := by
  obtain ⟨hnames, xs, part, hstream, hxs, hpart⟩ := h
  have hprefix : s.accepted <+: s'.accepted := by rw [hacc]
  refine ⟨by rw [hacc]; exact hnames, xs, part, hout.trans hstream, ?_, ?_⟩
  · rw [hsent]
    exact hxs.imp fun _ _ hx => hx.mono hprefix
  · rcases hpart with hsaid | ⟨hexited, seq, hseq, x, hx, hpart⟩
    · exact Or.inl (hsaid.trans (by rw [hsending]))
    · exact Or.inr ⟨hsending.trans hexited, seq, habandoned ▸ hseq, x, hx.mono hprefix, hpart⟩

theorem MainCase.sent_socket (h : MainCase s e s') (ho : s.Outputs exec) :
    s'.kernel.sent socketFd = s.kernel.sent socketFd := by
  have hmain := ho.main
  unfold MainRight at hmain
  -- What is stored goes to the file that was opened for it.
  have hput {fd : Int} {path : Bytes} {off : Nat} (hd : s.kernel.desc fd = some (.file path off))
      (bs : Bytes) : (s.kernel.put fd bs).sent = s.kernel.sent := by
    by_cases hbs : bs = []
    · rw [hbs, Kernel.put_nil]
    · rw [Kernel.put_file hd hbs]
  cases h with
  | opened name payload hpc => rfl
  | created name payload ok hpc => cases ok <;> rfl
  | store name fd rest payload hpc hmore =>
      simp only [hpc] at hmain
      obtain ⟨-, got, -, -, hdesc⟩ := hmain
      exact congrFun (hput hdesc _) socketFd
  | stored name fd rest payload hpc hlast =>
      simp only [hpc] at hmain
      obtain ⟨-, got, -, -, hdesc⟩ := hmain
      exact congrFun (hput hdesc _) socketFd
  | _ => rfl

theorem TaskingCase.sent_socket (h : TaskingCase exec s i e s') (htidy : s.Tidy e) :
    s'.kernel.sent socketFd = s.kernel.sent socketFd := by
  cases h with
  | noShell t name hpc hin => exact htidy.elim
  | _ => rfl

theorem Answers.speaks (h : s.Answers exec) (ho : s.Outputs exec) (hs : Speaks s s') :
    s'.Answers exec := by
  obtain ⟨hnames, xs, part, hstream, hxs, hpart⟩ := h
  have hsaid {t : WorkerTask} (htask : s.sending.task = some t) : part = s.sending.said := by
    refine hpart.resolve_right fun hp => ?_
    rw [hp.1] at htask
    cases htask
  have hsteady : Steady s.piece.2 := ho.piece_steady
  cases hs with
  | frame t buffer body hpc hs =>
      obtain ⟨x, hx, hall⟩ := ho.said_answer hpc
      subst hs
      refine ⟨hnames, xs ++ [x], [], ?_, ?_, Or.inl rfl⟩
      · rw [show (s.kernel.close t.outputFd).sent = s.kernel.sent from rfl, hstream,
          hsaid (by rw [hpc]; rfl), hall]
        simp
      · rw [List.map_append]
        exact List.rel_append hxs (.cons hx .nil)
  | piece t pc htask htask' hopen hpc hs =>
      have hd : s.piece.2.desc socketFd = some .sock := hsteady.socket.resolve_right hopen
      subst hs
      refine ⟨hnames, xs, part ++ s.piece.1, ?_, hxs, Or.inl ?_⟩
      · simp [Kernel.put_sock hd, piece_sent, hstream]
      · rw [hsaid htask]
        exact hpc.symm
  | part t short htask hs =>
      obtain ⟨x, hx, hprefix⟩ := ho.piece_prefix htask
      obtain ⟨more, hmore, hwrite⟩ := write_sent hsteady s.piece.1 short
      subst hs
      refine ⟨hnames, xs, part ++ more, ?_, hxs, Or.inr ⟨rfl, t.seq, by simp [giveUp], x, hx, ?_⟩⟩
      · rw [← List.append_assoc, ← hstream, ← piece_sent s]
        exact hwrite
      · rw [hsaid htask]
        exact ((List.prefix_append_right_inj _).mpr hmore).trans hprefix

theorem QueueCase.answers (h : QueueCase s s') (ho : s.Outputs exec) (ha : s.Answers exec) :
    s'.Answers exec := by
  obtain ⟨hkernel, -, hsent, habandoned⟩ := h.histories
  cases h with
  | accept t payload q hpc hcontents hpushed hpulled =>
      have hmain := ho.main
      unfold MainRight at hmain
      simp only [hpc] at hmain
      obtain ⟨name, ⟨hruns, -⟩, hin, -⟩ := hmain
      obtain ⟨hnames, xs, part, hstream, hxs, hpart⟩ := ha
      have hprefix : s.accepted <+: s.accepted ++ [(t.inputFilename.getD [], payload)] :=
        List.prefix_append _ _
      refine ⟨?_, xs, part, hstream, hxs.imp fun _ _ hx => hx.mono hprefix, ?_⟩
      · intro p hp
        rcases List.mem_append.mp hp with hp | hp
        · exact hnames p hp
        · obtain rfl := List.mem_singleton.mp hp
          rw [hin]
          exact hruns
      · rcases hpart with hsaid | ⟨hexited, seq, hseq, x, hx, hpart⟩
        · exact Or.inl hsaid
        · exact Or.inr ⟨hexited, seq, hseq, x, hx.mono hprefix, hpart⟩
  | collect t q hpc | stop t q hpc =>
      obtain ⟨hnames, xs, part, hstream, hxs, hpart⟩ := ha
      refine ⟨hnames, xs, part, hstream, hxs, Or.inl ?_⟩
      refine (hpart.resolve_right fun hp => ?_).trans (by rw [hpc]; rfl)
      rw [hpc] at hp
      cases hp.1
  | _ => exact ha.of_still rfl rfl rfl rfl rfl

theorem Step.sending {mem : Nat → UInt8} {short : Option Nat}
    (h : Step exec s (.sending mem short) s') : s.sendingStep mem short = some s' := by
  unfold Step Pipeline.handle at h
  split at h
  · cases h
  · exact h

theorem SendingCase.event (h : SendingCase s e s') : ∃ mem short, e = .sending mem short := by
  cases h <;> exact ⟨_, _, rfl⟩

theorem Answers.step (h : s.Answers exec) (ho : s.Outputs exec) (hs : Step exec s e s')
    (hcase : StepCase exec s e s') (htidy : s.Tidy e) : s'.Answers exec := by
  cases hcase with
  | main hm =>
      obtain ⟨heq, -, -⟩ := hm.frame
      refine h.of_still (hm.sent_socket ho) ?_ ?_ ?_ ?_ <;> rw [heq]
  | tasking i ht =>
      obtain ⟨heq, -, -⟩ := ht.frame
      refine h.of_still (ht.sent_socket htidy) ?_ ?_ ?_ ?_ <;> rw [heq] <;> rfl
  | sending hsend =>
      obtain ⟨mem, short, rfl⟩ := hsend.event
      exact h.speaks ho (sendingStep_speaks hs.sending)
  | heartbeat hb =>
      subst hb
      exact h.of_still rfl rfl rfl rfl rfl
  | queue hq => exact hq.answers ho h

theorem TidyReachable.wire (h : TidyReachable exec s) :
    s.Accounts ∧ s.Outputs exec ∧ s.Answers exec := by
  obtain ⟨resolve, store, h⟩ := h
  refine (h.invariant (I := fun s => s.Wired ∧ s.Accounts ∧ s.Outputs exec ∧ s.Answers exec)
    ⟨start_wired resolve store, start_accounts resolve store, start_outputs resolve store,
      start_answers resolve store⟩ ?_).2
  intro s e s' _ ⟨hw, ha, ho, hans⟩ ⟨hs, htidy⟩
  obtain ⟨hcase, hw', -⟩ := hw.step hs
  exact ⟨hw', ha.step hcase, ho.step ha hcase htidy, hans.step ho hs hcase htidy⟩

/-! ## The frames -/

theorem Accounts.unsent (ha : s.Accounts)
    (h : seq ∈ s.inFlight.map (fun y => y.1.seq) ∨ seq ∈ s.abandoned) :
    seq ∉ s.sent.map Prod.fst := by
  intro hsent
  have hnodup : s.places.Nodup := ha.places ▸ Multiset.nodup_range s.accepted.length
  obtain ⟨hfirst, -, hlast⟩ := Multiset.nodup_add.mp hnodup
  rcases h with hflight | habandoned
  · exact Multiset.disjoint_left.mp (Multiset.disjoint_of_nodup_add hfirst) hflight
      (Multiset.mem_coe.mpr hsent)
  · exact Multiset.disjoint_left.mp hlast (Multiset.mem_add.mpr (Or.inr (Multiset.mem_coe.mpr hsent)))
      (Multiset.mem_coe.mpr habandoned)

theorem Accounts.sent_nodup (ha : s.Accounts) : (s.sent.map Prod.fst).Nodup := by
  have hnodup : s.places.Nodup := ha.places ▸ Multiset.nodup_range s.accepted.length
  exact Multiset.coe_nodup.mp
    (Multiset.nodup_add.mp (Multiset.nodup_add.mp hnodup).1).2.1

theorem Accounts.sending_unsent (ha : s.Accounts) (htask : s.sending.task = some t) :
    t.seq ∉ s.sent.map Prod.fst := by
  refine ha.unsent (Or.inl ?_)
  rw [inFlight_sending, Multiset.map_add]
  refine Multiset.mem_add.mpr (Or.inl ?_)
  cases hpc : s.sending with
  | pulling | exited =>
      rw [hpc] at htask
      cases htask
  | header t' | measuring t' | body t' _ _ _ =>
      rw [hpc] at htask
      obtain rfl := Option.some.inj htask
      exact Multiset.mem_singleton_self _

/-- Behind the frames there is a part of the answer to one more request. -/
theorem Answers.part (h : s.Answers exec) (ha : s.Accounts) (ho : s.Outputs exec) :
    ∃ xs part, s.kernel.sent socketFd = (xs.map Frame.encode).flatten ++ part ∧
      List.Forall₂ (s.Answer exec) (s.sent.map Prod.fst) xs ∧ (part ≠ [] →
        ∃ seq x, seq ∉ s.sent.map Prod.fst ∧ s.Answer exec seq x ∧ part <+: x.encode) := by
  obtain ⟨-, xs, part, hstream, hxs, hpart⟩ := h
  refine ⟨xs, part, hstream, hxs, ?_⟩
  intro hne
  rcases hpart with hsaid | ⟨-, seq, hseq, x, hx, hprefix⟩
  · cases htask : s.sending.task with
    | none =>
        refine absurd hsaid fun hsaid => hne (hsaid.trans ?_)
        cases hpc : s.sending <;> simp_all [SendingPc.said, SendingPc.task]
    | some t =>
        obtain ⟨x, hx, hprefix⟩ := ho.piece_prefix htask
        exact ⟨t.seq, x, ha.sending_unsent htask, hx,
          hsaid ▸ (List.prefix_append _ _).trans hprefix⟩
  · exact ⟨seq, x, ha.unsent (Or.inr hseq), hx, hprefix⟩

theorem Answers.proper (h : s.Answers exec) (hx : s.Answer exec seq x)
    (hshort : ∀ p ∈ s.accepted, (exec p.2).length < 2 ^ 64) : x.Proper := by
  obtain ⟨name, payload, hget, rfl⟩ := hx
  have hmem := List.mem_of_getElem? hget
  exact ⟨sendable_of_runs (h.names (name, payload) hmem), hshort (name, payload) hmem⟩

theorem Answers.frames (h : s.Answers exec) (ha : s.Accounts) (ho : s.Outputs exec)
    (hshort : ∀ p ∈ s.accepted, (exec p.2).length < 2 ^ 64) :
    ∃ seqs : List Nat, seqs.Nodup ∧ s.sent.map Prod.fst <+: seqs
      ∧ seqs.length ≤ s.sent.length + 1
      ∧ List.Forall₂ (s.Answer exec) seqs (framesOf (s.kernel.sent socketFd)) := by
  obtain ⟨xs, part, hstream, hxs, hpart⟩ := h.part ha ho
  have hproper : ∀ x ∈ xs, x.Proper := fun x hx => by
    obtain ⟨i, hi, rfl⟩ := List.getElem_of_mem hx
    exact h.proper (List.Forall₂.get hxs (hxs.length_eq ▸ hi) hi) hshort
  obtain ⟨hwhole, hnext⟩ := framesOf_encodes (t := []) hproper rfl
  rw [List.nil_append] at hwhole hnext
  by_cases hnil : part = []
  · refine ⟨_, ha.sent_nodup, List.prefix_rfl, by simp, ?_⟩
    rw [hstream, hnil, List.append_nil, hwhole]
    exact hxs
  obtain ⟨seq, x, hseq, hx, hprefix⟩ := hpart hnil
  by_cases hall : part = x.encode
  · refine ⟨s.sent.map Prod.fst ++ [seq], ?_, List.prefix_append _ _, by simp, ?_⟩
    · exact List.nodup_append'.mpr ⟨ha.sent_nodup, List.nodup_singleton seq,
        List.disjoint_singleton.mpr hseq⟩
    · rw [hstream, hall, (framesOf_encode (h.proper hx hshort) hnext).1, hwhole]
      exact List.rel_append hxs (.cons hx .nil)
  · refine ⟨_, ha.sent_nodup, List.prefix_rfl, by simp, ?_⟩
    rw [hstream, framesOf_cut hproper (h.proper hx hshort) hprefix hall]
    exact hxs

/-- **Answers.** At any time of a tidy run the socket has been sent frames, one
for each request that has been answered and at most one more, and no request has
been answered twice. Each frame has the name of its request, and the output of
the program that came with it. -/
theorem answers_framed (h : TidyReachable exec s)
    (hshort : ∀ p ∈ s.accepted, (exec p.2).length < 2 ^ 64) :
    ∃ seqs : List Nat, seqs.Nodup ∧ s.sent.map Prod.fst <+: seqs
      ∧ seqs.length ≤ s.sent.length + 1
      ∧ List.Forall₂ (s.Answer exec) seqs (framesOf (s.kernel.sent socketFd)) := by
  obtain ⟨ha, ho, hans⟩ := h.wire
  exact hans.frames ha ho hshort

/-- The second answer is cut off behind its header. -/
theorem answers_framed_two :
    ∃ s, TidyReachable id s ∧ framesOf (s.kernel.sent socketFd) = [(.put, [97], [1])]
      ∧ s.sending.said = createHeader [98]
      ∧ ∃ seqs : List Nat, seqs.Nodup ∧ s.sent.map Prod.fst <+: seqs
        ∧ seqs.length ≤ s.sent.length + 1
        ∧ List.Forall₂ (s.Answer id) seqs (framesOf (s.kernel.sent socketFd)) := by
  have hexec : tidyRun id (requested [97] [1] 0 ++ served 0 ++ requested [98] [2] 0 ++
      (served 1).take 11)
      (fun s => (s.accepted, s.sending.said, s.kernel.sent socketFd)) =
      some ([([97], [1]), ([98], [2])], createHeader [98],
        Frame.encode (.put, [97], [1]) ++ createHeader [98]) := by decide +kernel
  obtain ⟨s, hr, hv⟩ := tidyRun_spec hexec
  obtain ⟨hacc, hv⟩ := Prod.mk.inj hv
  obtain ⟨hsaid, hsent⟩ := Prod.mk.inj hv
  refine ⟨s, hr, ?_, hsaid, answers_framed hr ?_⟩
  · rw [hsent]
    decide
  · rw [hacc]
    decide

end Pipeline

end KeyLime
