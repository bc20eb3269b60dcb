import KeyLime.Spares

/-!
# What a connection has said

`decode` reads the bytes a connection has taken as one frame after the
other. `Tracked`: the record of a connection stands where its own bytes
lead, and its temporary file holds the payload that is there. Parsing
keeps this (`Tracked.parsed`), and at the end of a frame the file is the
payload of the last frame of the connection (`Tracked.ended`).

`decode` differs from the reader of `Frames` in one thing: behind the end of a
frame it begins again (`restart`). The record does so when the frame has been
forwarded, by `reset_worker_for_parsing`, so that it is in step again when the
next byte is read.

What other connections do does not show, as long as they leave the descriptor,
the bytes taken and the file alone (`Tracked.spared`). The file is in one
directory with the files of the others, so this is the condition that
`Payloads` puts on a run.
-/

namespace KeyLime

open Resume

/-! ## The frames of a connection -/

namespace Dec

/-- The next frame begins where the last one has ended. -/
def restart : Dec → Dec
  | .done _ _ _ => .header []
  | d => d

/-- The name of the frame whose payload is being received, or has been. -/
def named : Dec → Option Bytes
  | .data _ name _ _ => some name
  | .done _ name _ => some name
  | _ => none

theorem restart_of_running {d : Dec} (h : frameReader.final d = false) : d.restart = d := by
  cases d with
  | done => cases h
  | header | size | data | bad => rfl

theorem named_payload (v : Command) (name : Bytes) (left : Nat) (got : Bytes) :
    (payload v name left got).named = some name := by
  unfold payload
  split <;> rfl

theorem named_feed {d : Dec} {name : Bytes} (h : d.named = some name) (bs : Bytes) :
    (frameReader.feed d bs).1.named = some name := by
  induction bs generalizing d with
  | nil => exact h
  | cons b bs ih =>
      cases d with
      | header | size | bad => cases h
      | done v name' got =>
          rw [Consumer.feed_of_final rfl]
          exact h
      | data v name' left got =>
          rw [Consumer.feed_cons rfl]
          refine ih ?_
          obtain rfl := Option.some.inj h
          exact named_payload v name' (left - 1) (got ++ [b])

end Dec

/-- The bytes of a connection, read as one frame after the other: at the end of a
frame the reader is set back to an empty header line, and the next byte is the
first of the next frame. -/
def decode (bs : Bytes) : Dec := frameReader.rounds Dec.restart (.header []) bs

theorem decode_append {t bs : Bytes} {d : Dec} (hne : bs ≠ [])
    (h : frameReader.feed (decode t).restart bs = (d, [])) : decode (t ++ bs) = d := by
  rw [decode, Consumer.rounds_append]
  exact Consumer.rounds_of_feed (fun _ => Dec.restart_of_running) hne h

theorem Worker.Sound.running {w : Worker} (h : w.Sound) (hst : w.status ≠ .forwardData)
    (got : Bytes) : frameReader.final (w.dec got) = false := by
  unfold Worker.dec
  split
  · rfl
  · rfl
  · rename_i hrec
    exact final_payload (h.data hrec)
  · rename_i hdone
    exact (hst hdone).elim
  · rename_i hidle
    exact (h.idle hidle).elim

namespace Master

variable {m m₁ m' : Master} {fd : Int} {p q : Nat} {f : Flow} {io : DataIo} {P : Bytes → Prop}
  {got got' bs : Bytes}

/-! ## The record of a connection -/

/-- Record `q` stands where the bytes of its own connection lead, and has
stored what is there of the payload. -/
structure Tracked (m : Master) (q : Nat) : Prop where
  parsing : (m.heap q).status ≠ .forwardData
  stands : ∃ got, (decode (m.kernel.taken (m.heap q).workerFd)).restart = (m.heap q).dec got
    ∧ (m.heap q).Stores m.kernel got

theorem Tracked.spared (h : m.Tracked q) (hk : Spares fd P m.kernel m'.kernel)
    (hsame : (m.heap q).SameParse (m'.heap q))
    (hfd : (m'.heap q).workerFd = (m.heap q).workerFd) (hne : (m.heap q).workerFd ≠ fd)
    (hP : (m.heap q).tempFd ≠ -1 → ¬ P ((m.heap q).tempPath m.kernel)) : m'.Tracked q := by
  obtain ⟨got, hdec, hstores⟩ := h.stands
  refine ⟨hsame.status ▸ h.parsing, got, ?_, ?_⟩
  · rw [hfd, hk.taken _ hne, hdec, hsame.dec]
  · have hpath : (m'.heap q).tempPath m'.kernel = (m.heap q).tempPath m.kernel := by
      rw [Worker.tempPath, Worker.tempPath, hk.resolve, hsame.tempFileName]
    refine hstores.congr hsame.tempFd hpath (fun hopen => ?_) fun hopen => hk.store _ (hP hopen)
    rw [hstores.desc hopen]
    exact hk.file _ _ _ (hP hopen) (hstores.desc hopen)

theorem tracked_fresh (hst : (m.heap q).status = .start) (hcmd : (m.heap q).command = [])
    (hfd : (m.heap q).tempFd = -1)
    (hdec : (decode (m.kernel.taken (m.heap q).workerFd)).restart = .header []) : m.Tracked q := by
  refine ⟨by simp [hst], [], ?_, .of_closed hfd⟩
  rw [hdec]
  simp [Worker.dec, hst, hcmd]

theorem Eats.decode (h : Eats fd p m m' got got' bs)
    (hdec : (decode (m.kernel.taken fd)).restart = (m.heap p).dec got) :
    (m'.heap p).dec got' = (m.heap p).dec got ∧ m'.kernel.taken fd = m.kernel.taken fd
      ∨ KeyLime.decode (m'.kernel.taken fd) = (m'.heap p).dec got' := by
  by_cases hbs : bs = []
  · subst hbs
    exact Or.inl ⟨(Prod.mk.inj h.feed).1.symm, by rw [h.taken, List.append_nil]⟩
  · refine Or.inr ?_
    rw [h.taken]
    refine decode_append hbs ?_
    rw [hdec]
    exact h.feed

/-! ## What the parser leaves -/

theorem headerStage_parsing (hst : (m.heap p).status ≠ .forwardData)
    (h : m.headerStage fd p = some f) : (f.master.heap p).status ≠ .forwardData := by
  cases headerStage_case h with
  | skip => exact hst
  | more r hst₁ hgc | reject r hst₁ hgc | quit r hst₁ hgc =>
      have hstay := getCommand_status hgc
      simp [Flow.master, hstay, hst₁]
  | header => simp [Flow.master]
  | register r m₁ hst₁ hgc hret hverb hifd hreg =>
      obtain ⟨l, -, rfl⟩ := register_eq hreg
      simp [Flow.master, set]

theorem sizeStage_parsing (hst : (m.heap p).status ≠ .forwardData) (h : m.sizeStage p = some f) :
    (f.master.heap p).status ≠ .forwardData := by
  cases sizeStage_case h with
  | skip => exact hst
  | more r hst₁ hgs | fail r hst₁ hgs =>
      have hstay : r.w.status = (m.heap p).status := by
        rcases getSize_spec .put [] hgs with ⟨_, _, -, -, -, -, -, hw⟩ | ⟨_, -, -, -, -, hw⟩ <;>
          rw [hw]
      simp [Flow.master, hstay, hst₁]
  | size => simp [Flow.master, sized]

/-- The file of a frame that has ended is open, even that of an empty one. -/
theorem parsePhase_holds {rio : RecvIo} (hst : (m.heap p).status ≠ .forwardData)
    (hio : rio.Benign) (h : m.parsePhase fd p rio = some f)
    (hs : (f.master.heap p).Sound) (hend : (f.master.heap p).status = .forwardData) :
    (f.master.heap p).tempFd ≠ -1 := by
  have hname := hs.named (by simp [hend])
  rw [parsePhase, Flow.andThen_assoc] at h
  rcases Flow.andThen_eq_some.mp h with ⟨m₁, h1, rfl⟩ | ⟨m₁, h1, h2⟩
  · exact (headerStage_parsing hst h1 hend).elim
  · have hst1 : (m₁.heap p).status ≠ .forwardData := headerStage_parsing hst h1
    rcases Flow.andThen_eq_some.mp h2 with ⟨m₂, h3, rfl⟩ | ⟨m₂, h3, h4⟩
    · exact (sizeStage_parsing hst1 h3 hend).elim
    · have hst2 : (m₂.heap p).status ≠ .forwardData := sizeStage_parsing hst1 h3
      obtain ⟨g, x, hw⟩ := getBinaryData_record m₂.kernel (m₂.heap p) rio
      have hfd := getBinaryData_tempFd m₂.kernel (m₂.heap p) rio
      cases dataStage_case h4 with
      | skip => exact (hst2 hend).elim
      | more hst₁ | fail hst₁ =>
          rw [Flow.master, received_heap_self, hw] at hend
          exact (hst2 hend).elim
      | data =>
          rw [Flow.master, set_heap_self, hw] at hname
          rw [Flow.master, set_heap_self]
          dsimp only at hname ⊢
          rw [hfd]
          exact openTemp_ne m₂.kernel hio hname

theorem Tracked.parsed {rio : RecvIo} (ht : m.Tracked p) (hfd : (m.heap p).workerFd = fd)
    (hs : (m.heap p).Sound) (hio : rio.Benign) (h : m.parsePhase fd p rio = some f)
    (hs' : (f.master.heap p).Sound) (hend : (f.master.heap p).status ≠ .forwardData)
    (halive : (f.master.heap p).alive = true) : f.master.Tracked p := by
  obtain ⟨got, hdec, hstores⟩ := ht.stands
  obtain ⟨got', bs, heats⟩ := parsePhase_eats hfd hs ht.parsing hio hstores (Or.inl halive) h
  have hfd' : (f.master.heap p).workerFd = fd :=
    (parsePhase_parserOnly h).record.workerFd.trans hfd
  rw [hfd] at hdec
  refine ⟨hend, got', ?_, heats.stores⟩
  rw [hfd']
  rcases heats.decode hdec with ⟨hsame, htaken⟩ | hnew
  · rw [htaken, hdec, hsame]
  · rw [hnew]
    exact Dec.restart_of_running (hs'.running hend got')

/-- A parser call that ends the frame: the payload is in the file, and is the
last one of the connection. -/
theorem Tracked.ended {rio : RecvIo} (ht : m.Tracked p) (hfd : (m.heap p).workerFd = fd)
    (hs : (m.heap p).Sound) (hio : rio.Benign) (h : m.parsePhase fd p rio = some f)
    (hs' : (f.master.heap p).Sound) (hend : (f.master.heap p).status = .forwardData) :
    ∃ payload, decode (f.master.kernel.taken fd) = .done (f.master.heap p).toDo
        ((f.master.heap p).tempFileName.getD []) payload
      ∧ (f.master.heap p).tempFd ≠ -1 ∧ (f.master.heap p).Stores f.master.kernel payload := by
  obtain ⟨got, hdec, hstores⟩ := ht.stands
  obtain ⟨got', bs, heats⟩ := parsePhase_eats hfd hs ht.parsing hio hstores
    (Or.inr (by simp [hend])) h
  have hdone : (f.master.heap p).dec got' = .done (f.master.heap p).toDo
      ((f.master.heap p).tempFileName.getD []) got' := by simp [Worker.dec, hend]
  rw [hfd] at hdec
  refine ⟨got', ?_, parsePhase_holds ht.parsing hio h hs' hend, heats.stores⟩
  rw [← hdone]
  rcases heats.decode hdec with ⟨hsame, -⟩ | hnew
  · have hrun := hs.running ht.parsing got
    rw [← hsame, hdone] at hrun
    cases hrun
  · exact hnew

theorem Tracked.names {rio : RecvIo} (ht : m.Tracked p) (hfd : (m.heap p).workerFd = fd)
    (hs : (m.heap p).Sound) (hio : rio.Benign) (h : m.parsePhase fd p rio = some f)
    (hs' : (f.master.heap p).Sound) (hopen : (f.master.heap p).tempFd ≠ -1) :
    (m.reading p (m.kernel.inbox fd)).1.named = some ((f.master.heap p).tempFileName.getD []) := by
  obtain ⟨got, -, hstores⟩ := ht.stands
  have hst : (f.master.heap p).status ≠ .start := fun hst => hopen (hs'.unopened (Or.inl hst))
  obtain ⟨got', bs, heats⟩ := parsePhase_eats hfd hs ht.parsing hio hstores (Or.inr hst) h
  have hname : ((f.master.heap p).dec got').named =
      some ((f.master.heap p).tempFileName.getD []) := by
    unfold Worker.dec
    split
    · rename_i hst₁
      exact (hst hst₁).elim
    · rename_i hst₁
      exact (hopen (hs'.unopened (Or.inr hst₁))).elim
    · exact Dec.named_payload ..
    · rfl
    · rfl
  by_cases hrec : (m.heap p).status = .recievingData
  · have hfrom : ∀ g, ((m.heap p).dec g).named = some ((m.heap p).tempFileName.getD []) := by
      intro g
      simp only [Worker.dec, hrec]
      exact Dec.named_payload ..
    have h1 := Dec.named_feed (hfrom got) bs
    rw [heats.feed, hname] at h1
    rw [h1]
    exact Dec.named_feed (hfrom []) _
  · have hsame : (m.heap p).dec [] = (m.heap p).dec got := by
      unfold Worker.dec
      split
      · rfl
      · rfl
      · rename_i hrec₁
        exact (hrec hrec₁).elim
      · rename_i hdone
        exact (ht.parsing hdone).elim
      · rename_i hidle
        exact (hs.idle hidle).elim
    rw [reading, hsame]
    rcases heats.rest with hrest | hrest
    · rw [hrest, Consumer.feed_append, heats.feed, List.nil_append]
      exact Dec.named_feed hname _
    · rw [hrest, heats.feed]
      exact hname

end Master

end KeyLime
