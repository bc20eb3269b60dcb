import Mathlib.Data.Set.Card
import KeyLime.Beats
import KeyLime.Tracking

/-!
# The descriptors of the temporary files

`get_binary_data` opens the temporary file of a record and
`reset_worker_for_parsing` is to close it, but looks at `temp_fd` only
after it has set it to -1. As long as no record is reset with its file
open, the files the parser has opened are those of the records
(`Owners`). The reset of such a record leaves a descriptor open that is no
record's (`accounted_iff`).

`Temporaries` is the master with the set of the descriptors that the parser has
opened so far. A step is followed through its calls:

* the parser opens the file of its record or nothing (`Obtains`), and closes none;
* forwarding leaves the open files alone, and resets the record at its end
  (`Resets`);
* the files that `reschedule` opens are its own, and are not in the set.

`losesFile` is read off the state before the step: the frame of a record with an
open file ends in it, and goes to somebody. That this is exactly when
`reset_worker_for_parsing` is reached with a file open is `losesFile_iff`; for
the frame whose call quits before, the record keeps its file.
-/

namespace KeyLime

open Transition

variable {k k' k'' : Kernel} {fd g : Int}

namespace Kernel

def IsFile (k : Kernel) (g : Int) : Prop := ∃ path off, k.desc g = some (.file path off)

def SameFiles (k k' : Kernel) : Prop := ∀ g, k'.IsFile g ↔ k.IsFile g

theorem SameFiles.refl (k : Kernel) : k.SameFiles k := fun _ => Iff.rfl

theorem SameFiles.trans (h : k.SameFiles k') (h' : k'.SameFiles k'') : k.SameFiles k'' :=
  fun g => (h' g).trans (h g)

theorem SameFiles.of_desc (h : k'.desc = k.desc) : k.SameFiles k' := by
  intro g
  unfold IsFile
  rw [h]

theorem SameFiles.of_offset {path : Bytes} {off off' : Nat}
    (hf : k.desc fd = some (.file path off))
    (hd : k'.desc = Function.update k.desc fd (some (.file path off'))) : k.SameFiles k' := by
  intro g
  unfold IsFile
  rw [hd]
  by_cases hg : g = fd
  · subst hg
    rw [Function.update_self]
    exact ⟨fun _ => ⟨path, off, hf⟩, fun _ => ⟨path, off', rfl⟩⟩
  · rw [Function.update_of_ne hg]

theorem put_sameFiles (k : Kernel) (fd : Int) (bs : Bytes) : k.SameFiles (k.put fd bs) := by
  by_cases hbs : bs = []
  · rw [hbs, put_nil]
    exact .refl k
  cases hd : k.desc fd with
  | none => rw [put_none hd]; exact .refl k
  | some d =>
      cases d with
      | sock => rw [put_sock hd]; exact .of_desc rfl
      | file path off => rw [put_file hd hbs]; exact .of_offset hd rfl

theorem sameFiles_kept (k : Kernel) : Kept k.SameFiles where
  put {k'} fd bs h := h.trans (put_sameFiles k' fd bs)
  readFile {k'} fd n h := by
    refine h.trans ?_
    unfold readFile
    split
    · rename_i path off hd
      exact .of_offset hd rfl
    · exact .refl k'
  rewind {k'} fd h := by
    refine h.trans ?_
    unfold rewind
    split
    · rename_i path off hd
      exact .of_offset hd rfl
    · exact .refl k'
  lock h := h.trans (.of_desc rfl)
  unlock h := h.trans (.of_desc rfl)

theorem opened_isFile (k : Kernel) (name : Bytes) :
    (k.opened name).IsFile g ↔ k.IsFile g ∨ g = k.nextFd := by
  unfold IsFile opened
  by_cases hg : g = k.nextFd
  · subst hg
    simp
  · simp [hg]

theorem close_sameFiles (h : k.desc fd = some .sock ∨ k.desc fd = none) :
    k.SameFiles (k.close fd) := by
  intro g
  unfold IsFile close
  by_cases hg : g = fd
  · subst hg
    rcases h with h | h <;> simp [h]
  · simp [hg]

theorem Ranged.fresh (h : k.Ranged) : ¬ k.IsFile k.nextFd := by
  rintro ⟨path, off, hd⟩
  have := (h k.nextFd (by simp [hd])).2
  omega

theorem Extends.isFile (h : k.Extends k') (hg : k.IsFile g) : k'.IsFile g := by
  obtain ⟨path, off, hd⟩ := hg
  obtain ⟨off', hd'⟩ := h.file g path off hd
  exact ⟨path, off', hd'⟩

end Kernel

namespace Master

variable {m m₁ m₂ m' : Master} {p q r : Nat} {f : Flow} {io : DataIo} {e : Event} {files : Set Int}

/-! ## What the parser opens -/

/-- The parser opens and closes no file, or it opens that of record `p`. -/
inductive Obtains (p : Nat) (m m' : Master) : Prop where
  | kept (hfd : (m'.heap p).tempFd = (m.heap p).tempFd) (hfiles : m.kernel.SameFiles m'.kernel)
  | opened (hnone : (m.heap p).tempFd = -1) (hsome : (m'.heap p).tempFd ≠ -1)
      (hnew : ¬ m.kernel.IsFile (m'.heap p).tempFd)
      (hfiles : ∀ g, m'.kernel.IsFile g ↔ m.kernel.IsFile g ∨ g = (m'.heap p).tempFd)

theorem Obtains.after (hfd : (m₁.heap p).tempFd = (m.heap p).tempFd)
    (hfiles : m.kernel.SameFiles m₁.kernel) (h : Obtains p m₁ m') : Obtains p m m' := by
  cases h with
  | kept hfd' hfiles' => exact .kept (hfd'.trans hfd) (hfiles.trans hfiles')
  | opened hnone hsome hnew hfiles' =>
      refine .opened (hfd.symm.trans hnone) hsome (fun h => hnew ((hfiles _).mpr h)) fun g => ?_
      rw [hfiles' g, hfiles g]

theorem Obtains.before (h : Obtains p m m₁) (hfd : (m'.heap p).tempFd = (m₁.heap p).tempFd)
    (hfiles : m₁.kernel.SameFiles m'.kernel) : Obtains p m m' := by
  cases h with
  | kept hfd' hfiles' => exact .kept (hfd.trans hfd') (hfiles'.trans hfiles)
  | opened hnone hsome hnew hfiles' =>
      rw [← hfd] at hsome hnew hfiles'
      exact .opened hnone hsome hnew fun g => (hfiles g).trans (hfiles' g)

theorem headerStage_files (hr : Registry m) (h : m.headerStage fd p = some f) :
    (f.master.heap p).tempFd = (m.heap p).tempFd ∧ m.kernel.SameFiles f.master.kernel := by
  cases headerStage_case h with
  | skip => exact ⟨rfl, .refl _⟩
  | more r hst hgc =>
      rw [Flow.master, commit_heap_self]
      exact ⟨getCommand_tempFd hgc, .of_desc rfl⟩
  | header r hst hgc | reject r hst hgc =>
      rw [Flow.master, set_heap_self]
      exact ⟨getCommand_tempFd hgc, .of_desc rfl⟩
  | register r m₁ hst hgc hret hverb hifd hreg =>
      obtain ⟨l, -, rfl⟩ := register_eq hreg
      refine ⟨?_, .of_desc rfl⟩
      simp only [Flow.master, set_heap_self]
      exact getCommand_tempFd hgc
  | quit r hst hgc hret hfd =>
      constructor
      · simp only [Flow.master, set_heap_self]
        exact getCommand_tempFd hgc
      · intro g
        exact Kernel.close_sameFiles (k := m.kernel) (interfaceFd_desc hr) g

theorem sizeStage_files (h : m.sizeStage p = some f) :
    (f.master.heap p).tempFd = (m.heap p).tempFd ∧ m.kernel.SameFiles f.master.kernel := by
  have key : ∀ {r : Parsed}, getSize (m.kernel.inbox (m.heap p).workerFd) (m.heap p) = some r →
      r.w.tempFd = (m.heap p).tempFd := by
    intro r hr
    rcases getSize_spec .put [] hr with
        ⟨_, _, _, _, _, _, _, hw⟩ | ⟨_, _, _, _, _, hw⟩ <;>
      rw [hw]
  cases sizeStage_case h with
  | skip => exact ⟨rfl, .refl _⟩
  | more r hst hr | fail r hst hr =>
      rw [Flow.master, commit_heap_self]
      exact ⟨key hr, .of_desc rfl⟩
  | size r hst hr =>
      rw [Flow.master, set_heap_self]
      exact ⟨key hr, .of_desc rfl⟩

theorem received_obtains (hk : m.kernel.Ranged) (rio : RecvIo) :
    Obtains p m (m.received p rio) := by
  have hself : ((m.received p rio).heap p).tempFd = (openTemp m.kernel (m.heap p) rio).2.tempFd := by
    rw [received_heap_self, getBinaryData_tempFd]
  obtain ⟨bs, hbs⟩ := getBinaryData_put m.kernel (m.heap p) rio
  have hfiles : (openTemp m.kernel (m.heap p) rio).1.SameFiles (m.received p rio).kernel := by
    rw [received_kernel, hbs]
    exact (Kernel.put_sameFiles _ _ bs).trans (.of_desc rfl)
  rcases openTemp_cases m.kernel (m.heap p) rio with ⟨heq, -⟩ | ⟨name, hnone, -, -, heq⟩ <;>
    rw [heq] at hself hfiles
  · exact .kept hself hfiles
  · refine .opened hnone (hself ▸ ?_) (hself ▸ hk.fresh) fun g => ?_
    · show ((m.kernel.nextFd : Nat) : Int) ≠ -1
      omega
    · rw [hfiles g, Kernel.opened_isFile, hself]

theorem dataStage_obtains {rio : RecvIo} (hk : m.kernel.Ranged) (h : m.dataStage p rio = some f) :
    Obtains p m f.master := by
  have key := received_obtains (p := p) hk rio
  cases dataStage_case h with
  | skip => exact .kept rfl (.refl _)
  | more | fail => exact key
  | data =>
      refine key.before ?_ (.refl _)
      rw [Flow.master, set_heap_self, received_heap_self]

theorem parsePhase_obtains {rio : RecvIo} (hr : Registry m) (hat : At m fd p)
    (h : m.parsePhase fd p rio = some f) : Obtains p m f.master := by
  rw [parsePhase, Flow.andThen_assoc] at h
  rcases Flow.andThen_eq_some.mp h with ⟨m₁, h1, rfl⟩ | ⟨m₁, h1, h2⟩
  · obtain ⟨hfd, hfiles⟩ := headerStage_files hr h1
    exact .kept hfd hfiles
  · obtain ⟨hfd1, hfiles1⟩ := headerStage_files hr h1
    have hr1 : Registry m₁ := hr.change hat (headerStage_change hr hat h1)
    refine .after hfd1 hfiles1 ?_
    rcases Flow.andThen_eq_some.mp h2 with ⟨m₂, h3, rfl⟩ | ⟨m₂, h3, h4⟩
    · obtain ⟨hfd, hfiles⟩ := sizeStage_files h3
      exact .kept hfd hfiles
    · obtain ⟨hfd2, hfiles2⟩ := sizeStage_files h3
      exact .after hfd2 hfiles2 (dataStage_obtains (sizeStage_same hr1.ranged h3).kernel.ranged h4)

theorem parsePhase_quits {rio : RecvIo} (hr : Registry m) (hat : At m fd p)
    (hs : (m.heap p).Sound) (h : m.parsePhase fd p rio = some f) (hq : Quits fd p m f.master) :
    (f.master.heap p).tempFd = -1 := by
  rw [parsePhase, Flow.andThen_assoc] at h
  rcases Flow.andThen_eq_some.mp h with ⟨m₁, h1, rfl⟩ | ⟨m₁, h1, h2⟩
  · rw [(headerStage_files hr h1).1]
    cases headerStage_case h1 with
    | more r hst => exact hs.unopened (Or.inl hst)
    | quit r hst => exact hs.unopened (Or.inl hst)
  · -- behind the header the descriptor of the interface stays
    have hc1 := headerStage_change hr hat h1
    have hr1 : Registry m₁ := hr.change hat hc1
    have hsame : Same m₁ f.master := by
      rcases Flow.andThen_eq_some.mp h2 with ⟨m₂, h3, rfl⟩ | ⟨m₂, h3, h4⟩
      · exact sizeStage_same hr1.ranged h3
      · have hs2 : Same m₁ m₂ := sizeStage_same hr1.ranged h3
        exact hs2.trans (dataStage_same hs2.kernel.ranged h4)
    have hifd : m₁.interfaceFd = -1 := hsame.interfaceFd.symm.trans hq.interfaceFd
    refine (hat.nonneg ?_).elim
    cases hc1 with
    | same hs1 => exact hq.iface.trans (hs1.interfaceFd.symm.trans hifd)
    | joins hj => exact hj.interfaceFd.symm.trans hifd
    | quits hq1 hf => cases hf

/-! ## The owners of the files -/

/-- The records of the connections. -/
def records (m : Master) : List Nat := m.workerList ++ m.interface.toList

/-- `g` is the `temp_fd` of a record. -/
def Owner (m : Master) (q : Nat) (g : Int) : Prop :=
  q ∈ m.records ∧ (m.heap q).tempFd = g ∧ g ≠ -1

/-- The files of the parser are open, and each is the `temp_fd` of one record, that of
a connection. What is in a record's `temp_fd` is open and one of these. -/
structure Owners (m : Master) (files : Set Int) : Prop where
  isOpen : ∀ g ∈ files, m.kernel.IsFile g
  owned : ∀ g, g ∈ files ↔ ∃ q, m.Owner q g
  unique : ∀ q r g, m.Owner q g → m.Owner r g → q = r
  /-- The record of an interface that has quit has no file. -/
  quit : m.interfaceFd = -1 → ∀ q, m.interface = some q → (m.heap q).tempFd = -1

theorem mem_records : q ∈ m.records ↔ q ∈ m.workerList ∨ m.interface = some q := by
  simp [records]

theorem At.mem_records (hat : At m fd p) : p ∈ m.records := by
  refine Master.mem_records.mpr ?_
  rcases hat.place with h | h
  · exact Or.inl h.1
  · exact Or.inr h.1

theorem Owners.kept (h : Owners m files) (hfiles : ∀ g, m.kernel.IsFile g → m'.kernel.IsFile g)
    (howner : ∀ q g, m'.Owner q g ↔ m.Owner q g)
    (hquit : m'.interfaceFd = -1 → ∀ q, m'.interface = some q → (m'.heap q).tempFd = -1) :
    Owners m' files where
  isOpen g hg := hfiles g (h.isOpen g hg)
  owned g := by
    rw [h.owned g]
    exact exists_congr fun q => (howner q g).symm
  unique q r g hq hr := h.unique q r g ((howner q g).mp hq) ((howner r g).mp hr)
  quit := hquit

theorem Owners.same (h : Owners m files) (hs : Same m m')
    (hfd : ∀ q, (m'.heap q).tempFd = (m.heap q).tempFd) : Owners m' files := by
  refine h.kept (fun g => hs.kernel.isFile) (fun q g => ?_) fun hifd q hq => ?_
  · unfold Owner
    rw [Master.mem_records, Master.mem_records, hs.workerList, hs.interface, hfd]
  · rw [hfd]
    exact h.quit (hs.interfaceFd ▸ hifd) q (hs.interface ▸ hq)

theorem Change.mem_records (hat : At m fd p) (hc : Change fd p m f)
    (hquit : m.interfaceFd = -1 → ∀ q, m.interface = some q → (m.heap q).tempFd = -1)
    (hne : (m.heap q).tempFd ≠ -1 ∨ q = p) : q ∈ f.master.records ↔ q ∈ m.records := by
  cases hc with
  | same hs => rw [Master.mem_records, Master.mem_records, hs.workerList, hs.interface]
  | quits hq => rw [Master.mem_records, Master.mem_records, hq.workerList, hq.interface]
  | joins hj =>
      by_cases hqp : q = p
      · rw [hqp]
        exact iff_of_true (Master.mem_records.mpr (Or.inr hj.interface)) hat.mem_records
      · have hold : m.interface ≠ some q := by
          intro hq
          rcases hne with hne | hne
          · exact hne (hquit hj.vacant q hq)
          · exact hqp hne
        have hnew : f.master.interface ≠ some q := by
          rw [hj.interface]
          exact fun h => hqp (Option.some.inj h).symm
        rw [Master.mem_records, Master.mem_records, hj.workerList, List.mem_erase_of_ne hqp]
        simp [hold, hnew]

/-- The descriptors that have become files. -/
def opens (m m' : Master) : Set Int := {g | ¬ m.kernel.IsFile g ∧ m'.kernel.IsFile g}

theorem opens_of_same (h : m.kernel.SameFiles m'.kernel) : opens m m' = ∅ := by
  ext g
  simp [opens, h g]

theorem Owners.adds {new : Int} (h : Owners m files) (hclosed : ¬ m.kernel.IsFile new)
    (hfiles : ∀ g, m'.kernel.IsFile g ↔ m.kernel.IsFile g ∨ g = new)
    (howner : ∀ q g, m'.Owner q g ↔ m.Owner q g ∨ q = p ∧ g = new)
    (hquit : m'.interfaceFd = -1 → ∀ q, m'.interface = some q → (m'.heap q).tempFd = -1) :
    Owners m' (files ∪ {new}) := by
  have hfree : ∀ q, ¬ m.Owner q new := fun q hq =>
    hclosed (h.isOpen _ ((h.owned _).mpr ⟨q, hq⟩))
  refine ⟨?_, ?_, ?_, hquit⟩
  · intro g hg
    exact (hfiles g).mpr (hg.imp_left (h.isOpen g))
  · intro g
    simp only [Set.mem_union, Set.mem_singleton_iff, h.owned g, howner, exists_or, exists_eq_left]
  · intro q r g hq hr
    rcases (howner q g).mp hq with hq | ⟨rfl, rfl⟩ <;>
      rcases (howner r _).mp hr with hr | ⟨rfl, hg⟩
    · exact h.unique q r g hq hr
    · exact (hfree q (hg ▸ hq)).elim
    · exact (hfree r hr).elim
    · rfl

theorem Owners.parsed_quit {rio : RecvIo} (h : Owners m files) (hr : Registry m) (hat : At m fd p)
    (hs : (m.heap p).Sound) (hpar : m.parsePhase fd p rio = some f)
    (hifd : f.master.interfaceFd = -1) (hq : f.master.interface = some q) :
    (f.master.heap q).tempFd = -1 := by
  cases parsePhase_change hr hat hpar with
  | same hs1 =>
      have hqp : q ≠ p := by
        rintro rfl
        rcases hat.place with ⟨hmem, -⟩ | ⟨-, hfd, -⟩
        · exact (hr.unlisted q (hs1.interface ▸ hq)).1 hmem
        · exact hat.nonneg (hfd.trans (hs1.interfaceFd ▸ hifd))
      rw [(parsePhase_parserOnly hpar).others q hqp]
      exact h.quit (hs1.interfaceFd ▸ hifd) q (hs1.interface ▸ hq)
  | joins hj => exact (hat.nonneg (hj.interfaceFd.symm.trans hifd)).elim
  | quits hq1 =>
      have hqp : q = p := by
        rcases hat.place with ⟨-, hne⟩ | ⟨hp, -⟩
        · exact (hne hq1.iface).elim
        · exact Option.some.inj (hq.symm.trans (hq1.interface.trans hp))
      rw [hqp]
      exact parsePhase_quits hr hat hs hpar hq1

/-- **Parsing** gives the files it opens to the record of the event. -/
theorem Owners.parsed {rio : RecvIo} (h : Owners m files) (hr : Registry m) (hat : At m fd p)
    (hs : (m.heap p).Sound) (hpar : m.parsePhase fd p rio = some f) :
    Owners f.master (files ∪ opens m f.master) := by
  have hchange := parsePhase_change hr hat hpar
  have hquit : f.master.interfaceFd = -1 → ∀ q, f.master.interface = some q →
      (f.master.heap q).tempFd = -1 := fun hifd q hq => h.parsed_quit hr hat hs hpar hifd hq
  -- a record that keeps its `temp_fd` keeps its file
  have hkeeps : ∀ q g, (f.master.heap q).tempFd = (m.heap q).tempFd →
      (f.master.Owner q g ↔ m.Owner q g) := by
    intro q g hfd
    unfold Owner
    rw [hfd]
    refine and_congr_left fun ⟨hg, hne⟩ => ?_
    exact hchange.mem_records hat h.quit (Or.inl (hg ▸ hne))
  have hothers : ∀ q, q ≠ p → (f.master.heap q).tempFd = (m.heap q).tempFd := fun q hq => by
    rw [(parsePhase_parserOnly hpar).others q hq]
  cases parsePhase_obtains hr hat hpar with
  | kept hfd hfiles =>
      rw [opens_of_same hfiles, Set.union_empty]
      refine h.kept (fun g => (hfiles g).mpr) (fun q g => hkeeps q g ?_) hquit
      by_cases hqp : q = p
      · rw [hqp, hfd]
      · exact hothers q hqp
  | opened hnone hsome hnew hfiles =>
      have hopens : opens m f.master = {(f.master.heap p).tempFd} := by
        ext g
        rw [Set.mem_singleton_iff]
        refine ⟨fun ⟨hno, hyes⟩ => ((hfiles g).mp hyes).resolve_left hno, ?_⟩
        rintro rfl
        exact ⟨hnew, (hfiles _).mpr (Or.inr rfl)⟩
      rw [hopens]
      refine h.adds (p := p) hnew hfiles (fun q g => ?_) hquit
      by_cases hqp : q = p
      · subst hqp
        have hold : ¬ m.Owner q g := fun ⟨_, hg, hne⟩ => hne (hg.symm.trans hnone)
        simp only [hold, false_or, true_and]
        refine ⟨fun hq => hq.2.1.symm, fun hg => ⟨?_, hg.symm, hg ▸ hsome⟩⟩
        exact (hchange.mem_records hat h.quit (Or.inr rfl)).mpr hat.mem_records
      · simp only [hkeeps q g (hothers q hqp), hqp, false_and, or_false]

/-! ## Forwarding -/

/-- What forwarding the frame of record `p` does to the files: nothing, but
the record is reset. -/
structure Resets (p : Nat) (m m' : Master) : Prop where
  files : m.kernel.SameFiles m'.kernel
  fresh : (m'.heap p).tempFd = -1
  others : ∀ q, q ≠ p → (m'.heap q).tempFd = (m.heap q).tempFd
  workerList : m'.workerList = m.workerList
  interfaceFd : m'.interfaceFd = m.interfaceFd
  interface : m'.interface = m.interface

theorem doPut_sameFiles {k k' : Kernel} {dst : Int} {w : Worker} {pio : PutIo} {ret : Ret}
    (h : doPut k dst w pio = some (ret, k')) : k.SameFiles k' :=
  doPut_keeps k.sameFiles_kept (.refl k) h

theorem forwarded_resets {w : Worker} {dst : Int} {ret : Ret} {k : Kernel} (hs : Same m₁ m₂)
    (hk : m₁.kernel.SameFiles m₂.kernel)
    (hothers : ∀ q, q ≠ p → ∃ ts, m₂.heap q = { m₁.heap q with tasks := ts })
    (hput : doPut m₂.kernel dst w io.put = some (ret, k)) :
    Resets p m₁ (m₂.forwarded fd p ret k) where
  files := hk.trans (doPut_sameFiles hput)
  fresh := by
    rw [forwarded_self]
    rfl
  others q hq := by
    obtain ⟨ts, heq⟩ := hothers q hq
    rw [forwarded_others ret k hq, heq]
  workerList := hs.workerList
  interfaceFd := hs.interfaceFd
  interface := hs.interface

theorem Resets.records (h : Resets p m m') : m'.records = m.records := by
  unfold Master.records
  rw [h.workerList, h.interface]

theorem Resets.owner (h : Resets p m m') (q : Nat) (g : Int) :
    m'.Owner q g ↔ q ≠ p ∧ m.Owner q g := by
  unfold Owner
  rw [h.records]
  by_cases hq : q = p
  · subst hq
    rw [h.fresh]
    simp only [ne_eq, not_true, false_and, iff_false]
    exact fun ⟨_, hg, hne⟩ => hne hg.symm
  · rw [h.others q hq]
    simp [hq]

theorem Owners.resets (h : Owners m files) (hr : Resets p m m')
    (hclosed : (m.heap p).tempFd = -1) : Owners m' files := by
  refine h.kept (fun g => (hr.files g).mpr) (fun q g => ?_) fun hifd q hq => ?_
  · rw [hr.owner]
    refine and_iff_right_of_imp fun ⟨_, hg, hne⟩ hq => ?_
    exact hne (hg.symm.trans (hq ▸ hclosed))
  · by_cases hqp : q = p
    · rw [hqp, hr.fresh]
    · rw [hr.others q hqp]
      exact h.quit (hr.interfaceFd ▸ hifd) q (hr.interface ▸ hq)

theorem Owners.loses (h : Owners m files) (hr : Resets p m m') (hp : p ∈ m.records)
    (hopen : (m.heap p).tempFd ≠ -1) :
    ∃ g ∈ files, m'.kernel.IsFile g ∧ ∀ q, ¬ m'.Owner q g := by
  have hown : m.Owner p (m.heap p).tempFd := ⟨hp, rfl, hopen⟩
  have hmem := (h.owned _).mpr ⟨p, hown⟩
  refine ⟨_, hmem, (hr.files _).mpr (h.isOpen _ hmem), ?_⟩
  intro q hq
  obtain ⟨hqp, hq⟩ := (hr.owner q _).mp hq
  exact hqp (h.unique q p _ hq hown)

/-- The call comes to `reset_worker_for_parsing` with the file of the record open. -/
def resetsOpen (m : Master) (fd : Int) (p : Nat) (rio : RecvIo) : Bool :=
  match Flow.andThen (m.parsePhase fd p rio) (forwardStage fd p) with
  | some (.next m₁) => (m₁.heap p).status == .forwardingData && decide ((m₁.heap p).tempFd ≠ -1)
  | _ => false

/-- The frame of record `p` has ended, and is not dropped. -/
def Forwards (fd : Int) (p : Nat) (m : Master) : Prop :=
  (m.heap p).status = .forwardData ∧ (fd = m.interfaceFd ∨ (m.heap p).alive = true)

theorem forwardStage_of_forwards (hname : (m.heap p).tempFileName.isSome = true)
    (h : Forwards fd p m) :
    ∃ m₁ ts dst, m.forwardStage fd p = some (.next m₁) ∧ m₁.heap p =
      { m.heap p with tasks := ts, fdToSendTo := dst, status := .forwardingData } := by
  obtain ⟨hst, hlive⟩ := h
  obtain ⟨name, hname⟩ := Option.isSome_iff_exists.mp hname
  by_cases hfd : fd = m.interfaceFd
  · obtain ⟨ts, hself⟩ := submitted_self (m := m) (p := p) name
    refine ⟨m.submitted p name, ts, _, ?_, hself⟩
    simp only [forwardStage, hst, ne_eq, not_true, if_false, hname, if_pos hfd]
    rfl
  · obtain ⟨ts, hself⟩ := answered_self (m := m) (p := p) name
    refine ⟨m.answered p name, ts, _, ?_, hself⟩
    simp only [forwardStage, hst, ne_eq, not_true, if_false, hname, if_neg hfd,
      hlive.resolve_left hfd, Bool.true_eq_false]
    rfl

theorem resetsOpen_iff {rio : RecvIo}
    (hs : ∀ f, m.parsePhase fd p rio = some f → (f.master.heap p).Sound) :
    m.resetsOpen fd p rio = true ↔ ∃ m₁, m.parsePhase fd p rio = some (.next m₁)
      ∧ Forwards fd p m₁ ∧ (m₁.heap p).tempFd ≠ -1 := by
  constructor
  · intro h
    unfold resetsOpen at h
    split at h
    · rename_i m₂ hrun
      rw [Bool.and_eq_true, beq_iff_eq, decide_eq_true_eq] at h
      obtain ⟨hst, hopen⟩ := h
      rcases Flow.andThen_eq_some.mp hrun with ⟨m₁, -, heq⟩ | ⟨m₁, hpar, hfwd⟩
      · cases heq
      · refine ⟨m₁, hpar, ?_⟩
        cases forwardStage_case hfwd with
        | skip => exact ((hs _ hpar).idle hst).elim
        | submit name hst₁ hname hfd =>
            obtain ⟨ts, hself⟩ := submitted_self (m := m₁) (p := p) name
            rw [hself] at hopen
            exact ⟨⟨hst₁, Or.inl hfd⟩, hopen⟩
        | answer name hst₁ hname hfd hal =>
            obtain ⟨ts, hself⟩ := answered_self (m := m₁) (p := p) name
            rw [hself] at hopen
            exact ⟨⟨hst₁, Or.inr hal⟩, hopen⟩
    · cases h
  · rintro ⟨m₁, hpar, hfwd, hopen⟩
    obtain ⟨m₂, ts, dst, hrun, hself⟩ :=
      forwardStage_of_forwards ((hs _ hpar).named (by simp [Flow.master, hfwd.1])) hfwd
    have hflow : Flow.andThen (m.parsePhase fd p rio) (forwardStage fd p) = some (.next m₂) := by
      rw [hpar]
      exact hrun
    rw [resetsOpen, hflow]
    simp only [hself, beq_self_eq_true, Bool.true_and]
    exact decide_eq_true hopen

/-- **The ends of a call**, as far as files go: nothing but parsing, or the
record is reset behind it. -/
theorem CallCase.tempFiles (hr : Registry m) (hat : At m fd p) (hc : CallCase fd p io m m') :
    ∃ f, m.parsePhase fd p io.recv = some f
      ∧ ((m' = f.master ∧ ¬ Forwards fd p f.master)
        ∨ (f = .next f.master ∧ Forwards fd p f.master ∧ Resets p f.master m')) := by
  cases hc with
  | unfinished f hpar hst heq => exact ⟨f, hpar, Or.inl ⟨heq, fun h => hst h.1⟩⟩
  | dropped m₁ hpar hst hfd hal heq =>
      refine ⟨_, hpar, Or.inl ⟨heq, ?_⟩⟩
      intro h
      rcases h.2 with h | h
      · exact hfd h
      · rw [Flow.master, hal] at h
        cases h
  | submitted m₁ name ret k hpar hst hname hfd hput heq =>
      have hr1 : Registry m₁ := hr.change hat (parsePhase_change hr hat hpar)
      refine ⟨_, hpar, Or.inr ⟨rfl, ⟨hst, Or.inl hfd⟩, heq ▸ ?_⟩⟩
      refine forwarded_resets (submitted_same hr1.ranged name) ?_
        (fun q => submitted_others name) hput
      rw [submitted_kernel]
      exact .of_desc rfl
  | answered m₁ name ret k hpar hst hname hfd hal hput heq =>
      have hr1 : Registry m₁ := hr.change hat (parsePhase_change hr hat hpar)
      refine ⟨_, hpar, Or.inr ⟨rfl, ⟨hst, Or.inr hal⟩, heq ▸ ?_⟩⟩
      refine forwarded_resets (answered_same hr1.ranged name) ?_
        (fun q => answered_others name) hput
      rw [answered_kernel]
      exact .refl _

/-! ## New connections -/

theorem Owners.acceptOne {c : Conn} (h : Owners m files) (hr : Registry m)
    (hfree : m.kernel.desc c.fd = none) : Owners (m.acceptOne c) files := by
  have hold : ∀ q ∈ m.records, (m.acceptOne c).heap q = m.heap q := by
    intro q hq
    refine acceptOne_of_ne c (Nat.ne_of_lt ?_)
    rcases mem_records.mp hq with hq | hq
    · exact hr.lt q hq
    · exact (hr.unlisted q hq).2
  have hnew : ((m.acceptOne c).heap m.nextWorker).tempFd = -1 := by
    rw [acceptOne_new]
    rfl
  have hrec : ∀ q, q ∈ (m.acceptOne c).records ↔ q ∈ m.records ∨ q = m.nextWorker := by
    intro q
    have hl : (m.acceptOne c).workerList = m.workerList ++ [m.nextWorker] := rfl
    have hi : (m.acceptOne c).interface = m.interface := rfl
    rw [mem_records, mem_records, hl, hi, List.mem_append, List.mem_singleton, or_right_comm]
  refine h.kept ?_ (fun q g => ?_) fun hifd q hq => ?_
  · rintro g ⟨path, off, hg⟩
    have hne : g ≠ c.fd := by
      rintro rfl
      rw [hfree] at hg
      cases hg
    exact ⟨path, off, by rwa [acceptOne_desc, if_neg hne]⟩
  · unfold Owner
    rw [hrec]
    refine ⟨?_, fun ⟨hq, hg, hne⟩ => ⟨Or.inl hq, by rwa [hold q hq], hne⟩⟩
    rintro ⟨hq | rfl, hg, hne⟩
    · exact ⟨hq, by rwa [hold q hq] at hg, hne⟩
    · exact (hne (hg.symm.trans hnew)).elim
  · have hq : m.interface = some q := hq
    rw [hold q (mem_records.mpr (Or.inr hq))]
    exact h.quit hifd q hq

theorem Owners.acceptConnections {cs : List Conn} (h : Owners m files) (hr : Registry m)
    (hcs : acceptable m.kernel cs = true) : Owners (m.acceptConnections cs) files :=
  (acceptable_invariant (I := fun m => Registry m ∧ Owners m files)
    (fun _ _ h0 hfree h => ⟨acceptOne_registry h.1 h0 hfree, h.2.acceptOne h.1 hfree⟩) hcs
    ⟨hr, h⟩).2

/-! ## Every step -/

/-- The files `get_binary_data` opens in the step: nothing else in
`handle_data` opens any. -/
def created (m : Master) (e : Event) (m' : Master) : Set Int :=
  match e with
  | .data _ _ _ => opens m m'
  | _ => ∅

/-- A live record is reset with its file open. -/
def losesFile (m : Master) : Event → Bool
  | .data fd arrived io =>
      (m.current fd).any fun p =>
        (m.heap p).alive && (m.arriving fd arrived).resetsOpen fd p io.recv
  | _ => false

/-- A file of the parser that is open and no record's. -/
def Lost (m : Master) (files : Set Int) : Prop :=
  ∃ g ∈ files, m.kernel.IsFile g ∧ ∀ q, ¬ m.Owner q g

/-- **One step** keeps the owners, or loses a file. -/
theorem Owners.step (h : Owners m files) (hr : Reachable m) (hs : Step m e m') :
    (m.losesFile e = false ∧ Owners m' (files ∪ created m e m'))
      ∨ (m.losesFile e = true ∧ Lost m' (files ∪ created m e m')) := by
  have hranged := hr.registry.ranged
  cases e with
  | accept cs =>
      obtain rfl := Option.some.inj hs.2
      refine Or.inl ⟨rfl, ?_⟩
      change Owners _ (files ∪ ∅)
      rw [Set.union_empty]
      exact h.acceptConnections hr.registry hs.1
  | heartbeat addr usage now =>
      obtain rfl := Option.some.inj hs.2
      refine Or.inl ⟨rfl, ?_⟩
      change Owners _ (files ∪ ∅)
      rw [Set.union_empty]
      exact h.same (reportHeartbeat_same hranged addr usage now) fun q =>
        (reportHeartbeat_sameParse addr usage now q).tempFd
  | detect now mem ios =>
      refine Or.inl ⟨rfl, ?_⟩
      change Owners _ (files ∪ ∅)
      rw [Set.union_empty]
      exact h.same (detectPass_same hranged hs.2) fun q => (detectPass_sameParse q hs.2).tempFd
  | data fd arrived io =>
      obtain ⟨p, hat, hready0, hr0, hat0, hd0, hcase⟩ := hs.call hr
      have h0 : Owners (m.arriving fd arrived) files :=
        h.same (deliver_same fd hranged arrived) fun _ => rfl
      rcases hcase with ⟨hdead, rfl⟩ | ⟨halive, hcase⟩
      · refine Or.inl ⟨?_, ?_⟩
        · simp [losesFile, hat.current, hdead]
        · have hnone : opens m (m.arriving fd arrived) = ∅ := opens_of_same (.of_desc rfl)
          rwa [created, hnone, Set.union_empty]
      · have hlose : m.losesFile (.data fd arrived io) =
            (m.arriving fd arrived).resetsOpen fd p io.recv := by
          simp [losesFile, hat.current, halive]
        have hsound : ∀ f, (m.arriving fd arrived).parsePhase fd p io.recv = some f →
            (f.master.heap p).Sound := fun f hpar =>
          (parsePhase_ready hready0 hr0 hat0 hd0 halive hpar).sound p
        obtain ⟨f, hpar, hend⟩ := hcase.tempFiles hr0 hat0
        have h1 : Owners f.master (files ∪ opens m f.master) :=
          h0.parsed hr0 hat0 (hready0.sound p) hpar
        rw [hlose, created]
        rcases hend with ⟨rfl, hno⟩ | ⟨hnext, hfwd, hreset⟩
        · refine Or.inl ⟨?_, h1⟩
          rw [Bool.eq_false_iff, ne_eq, resetsOpen_iff hsound]
          rintro ⟨m₁, hpar₁, hfwd, -⟩
          obtain rfl := Option.some.inj (hpar.symm.trans hpar₁)
          exact hno hfwd
        · have hcreated : opens m m' = opens m f.master := by
            ext g
            exact and_congr_right' (hreset.files g)
          rw [hnext] at hpar
          have hp : p ∈ f.master.records :=
            (hat0.change hr0 (parsePhase_change hr0 hat0 hpar)).mem_records
          rw [hcreated]
          by_cases hclosed : (f.master.heap p).tempFd = -1
          · refine Or.inl ⟨?_, h1.resets hreset hclosed⟩
            rw [Bool.eq_false_iff, ne_eq, resetsOpen_iff hsound]
            rintro ⟨m₁, hpar₁, -, hopen⟩
            obtain rfl := Flow.next.inj (Option.some.inj (hpar.symm.trans hpar₁))
            exact hopen hclosed
          · exact Or.inr ⟨(resetsOpen_iff hsound).mpr ⟨_, hpar, hfwd, hclosed⟩,
              h1.loses hreset hp hclosed⟩

theorem resets_done {items : List Item} (h : m.resets fd p items = true) :
    ∃ v name got, (m.reading p items).1 = .done v name got
      ∧ (m.Submits fd p v ∨ got ≠ [] ∨ (m.heap p).status = .forwardData) := by
  unfold resets at h
  split at h
  · rename_i v name got hdone
    exact ⟨v, name, got, hdone, by simpa [or_assoc] using h⟩
  · cases h

/-- A call that finds the end of a frame it does not drop forwards it. -/
theorem CallCase.forwards {arrived : List Item} (hready : Ready (m.arriving fd arrived))
    (hr : Registry (m.arriving fd arrived)) (hat : At (m.arriving fd arrived) fd p)
    (halive : (m.heap p).alive = true) (hc : CallCase fd p io (m.arriving fd arrived) m')
    (hio : io.recv.Benign) (h : m.resets fd p (m.stream fd arrived) = true) :
    ∃ m₁, (m.arriving fd arrived).parsePhase fd p io.recv = some (.next m₁)
      ∧ Forwards fd p m₁ := by
  obtain ⟨v, name, got, hdone, hends⟩ := resets_done h
  cases hc with
  | unfinished f hpar hst heq =>
      cases parsePhase_reading hready hat halive hpar hst with
      | starved _ _ _ _ hrun =>
          rw [hdone] at hrun
          cases hrun
      | complete _ _ _ _ _ _ _ _ hst' => exact (hst hst').elim
      | rejected _ _ hres =>
          rw [hdone] at hres
          rcases hres with ⟨hhead, -⟩ | ⟨hbad, -⟩
          · cases hhead
          · cases hbad
      | failed _ _ _ _ _ _ _ _ hbenign =>
          have hfinal := (hbenign hio).1
          rw [hdone] at hfinal
          cases hfinal
  | dropped m₁ hpar hst hfd hal heq =>
      obtain ⟨v', name', got', hcomp⟩ := parsePhase_complete hready hat halive hpar hst
      obtain ⟨rfl, -, rfl⟩ := Dec.done.inj (hdone.symm.trans (congrArg Prod.fst hcomp.reading_eq))
      rcases hends with hsub | hgot | hst₀
      · exact (hfd ((hcomp.interface_iff hr hat hpar hst).mpr hsub)).elim
      · rcases hcomp.now with ⟨hst₀, rfl⟩ | ⟨-, hal₁, -⟩
        · exact (Bool.eq_false_iff.mp hal halive).elim
        · rw [hal, eq_comm, decide_eq_false_iff_not] at hal₁
          exact (hal₁ hgot).elim
      · obtain rfl := Flow.next.inj (parsePhase_ended (m := m.arriving fd arrived) hst₀ hpar)
        exact (Bool.eq_false_iff.mp hal halive).elim
  | submitted m₁ name ret k hpar hst hname hfd => exact ⟨m₁, hpar, hst, Or.inl hfd⟩
  | answered m₁ name ret k hpar hst hname hfd hal => exact ⟨m₁, hpar, hst, Or.inr hal⟩

/-- In terms of the bytes: when neither the open nor a write of the file
fails, the file is lost of every frame that is complete with the event and
not dropped. -/
theorem losesFile_iff {arrived : List Item} (hr : Reachable m)
    (hs : Step m (.data fd arrived io) m') (hio : io.recv.Benign) (hcur : m.current fd = some p)
    (halive : (m.heap p).alive = true) :
    m.losesFile (.data fd arrived io) = true ↔ m.resets fd p (m.stream fd arrived) = true
      ∧ ((m.heap p).status = .forwardData → (m.heap p).tempFd ≠ -1) := by
  obtain ⟨p', hat, hready0, hr0, hat0, hd0, hcase⟩ := hs.call hr
  obtain rfl := hat.unique hcur
  have hcase : CallCase fd p io (m.arriving fd arrived) m' := by
    rcases hcase with ⟨hdead, -⟩ | ⟨-, hcase⟩
    · rw [halive] at hdead
      cases hdead
    · exact hcase
  have hsound : ∀ f, (m.arriving fd arrived).parsePhase fd p io.recv = some f →
      (f.master.heap p).Sound := fun f hpar =>
    (parsePhase_ready hready0 hr0 hat0 hd0 halive hpar).sound p
  have hlose : m.losesFile (.data fd arrived io) =
      (m.arriving fd arrived).resetsOpen fd p io.recv := by
    simp [losesFile, hat.current, halive]
  rw [hlose, resetsOpen_iff hsound]
  constructor
  · rintro ⟨m₁, hpar, hfwd, hopen⟩
    refine ⟨parsePhase_resets hready0 hr0 hat0 halive hpar hfwd.1 hfwd.2, ?_⟩
    intro hst
    obtain rfl := Flow.next.inj (parsePhase_ended (m := m.arriving fd arrived) hst hpar)
    exact hopen
  · rintro ⟨hresets, hopen⟩
    obtain ⟨m₁, hpar, hfwd⟩ := hcase.forwards hready0 hr0 hat0 halive hio hresets
    refine ⟨m₁, hpar, hfwd, ?_⟩
    by_cases hst : (m.heap p).status = .forwardData
    · obtain rfl := Flow.next.inj (parsePhase_ended (m := m.arriving fd arrived) hst hpar)
      exact hopen hst
    · exact parsePhase_holds (m := m.arriving fd arrived) hst hio hpar (hsound _ hpar) hfwd.1

end Master

/-! ## Every run -/

/-- The master and the descriptors `get_binary_data` has opened so far. -/
structure Temporaries where
  master : Master
  files : Set Int

namespace Temporaries

open Master

variable {s s' : Temporaries} {e : Event} {m m' : Master}

def init (resolve : Bytes → Bytes) : Temporaries := ⟨Master.init resolve, ∅⟩

def Step (s : Temporaries) (e : Event) (s' : Temporaries) : Prop :=
  Master.Step s.master e s'.master ∧ s'.files = s.files ∪ created s.master e s'.master

/-- `s` is reached in some run whose events all pass the check `c`. -/
def ReachableWithin (c : Master → Event → Bool) (s : Temporaries) : Prop :=
  ∃ resolve, Reach (Within Step fun s e _ => c s.master e = true) (init resolve) s

/-- The files of the parser are the `temp_fd`s of the records; a record in
`START` has none, and there are no more of them than connections with a
frame in progress. -/
structure Accounted (s : Temporaries) : Prop where
  owned : {g ∈ s.files | s.master.kernel.IsFile g} =
    {g | g ≠ -1 ∧ ∃ q ∈ s.master.records, (s.master.heap q).tempFd = g}
  fresh : ∀ q ∈ s.master.records, (s.master.heap q).status = .start →
    (s.master.heap q).tempFd = -1
  bounded : {g ∈ s.files | s.master.kernel.IsFile g}.encard ≤
    (s.master.records.filter fun q => (s.master.heap q).status ≠ .start).length

theorem accounted_of_owners (h : Owners s.master s.files) (hready : Ready s.master) :
    Accounted s := by
  have howned : {g ∈ s.files | s.master.kernel.IsFile g} =
      {g | g ≠ -1 ∧ ∃ q ∈ s.master.records, (s.master.heap q).tempFd = g} := by
    ext g
    rw [Set.mem_ofPred_eq, Set.mem_ofPred_eq, and_iff_left_of_imp (h.isOpen g), h.owned g]
    exact ⟨fun ⟨q, hq, hg, hne⟩ => ⟨hne, q, hq, hg⟩, fun ⟨hne, q, hq, hg⟩ => ⟨q, hq, hg, hne⟩⟩
  refine ⟨howned, fun q _ hst => (hready.sound q).unopened (Or.inl hst), ?_⟩
  have hsub : {g ∈ s.files | s.master.kernel.IsFile g} ⊆
      (fun q => (s.master.heap q).tempFd) ''
        ((s.master.records.filter fun q => (s.master.heap q).status ≠ .start).toFinset : Set Nat) := by
    rw [howned]
    rintro g ⟨hne, q, hq, rfl⟩
    refine ⟨q, ?_, rfl⟩
    simp only [List.coe_toFinset, Set.mem_ofPred_eq, List.mem_filter, decide_eq_true_eq]
    exact ⟨hq, fun hst => hne ((hready.sound q).unopened (Or.inl hst))⟩
  refine (Set.encard_le_encard hsub).trans ((Set.encard_image_le _ _).trans ?_)
  rw [Set.encard_coe_eq_coe_finsetCard]
  exact_mod_cast List.toFinset_card_le _

theorem not_accounted_of_lost (h : Lost s.master s.files) : ¬ Accounted s := by
  intro ha
  obtain ⟨g, hg, hopen, hno⟩ := h
  have hmem : g ∈ {g ∈ s.files | s.master.kernel.IsFile g} := ⟨hg, hopen⟩
  rw [ha.owned] at hmem
  obtain ⟨hne, q, hq, heq⟩ := hmem
  exact hno q ⟨hq, heq, hne⟩

theorem init_owners (resolve : Bytes → Bytes) : Owners (Master.init resolve) ∅ where
  isOpen g hg := hg.elim
  owned g := by simp [Owner, Master.records, Master.init]
  unique q r g hq := by simp [Owner, Master.records, Master.init] at hq
  quit _ q hq := by simp [Master.init] at hq

theorem ReachableWithin.owners (h : ReachableWithin (fun m e => !m.losesFile e) s) :
    Reachable s.master ∧ Owners s.master s.files := by
  obtain ⟨resolve, h⟩ := h
  refine h.invariant (I := fun s => Reachable s.master ∧ Owners s.master s.files)
    ⟨⟨resolve, .refl⟩, init_owners resolve⟩ fun s e s' _ hi hs => ?_
  obtain ⟨⟨hstep, hfiles⟩, hc⟩ := hs
  refine ⟨hi.1.step hstep, ?_⟩
  rw [hfiles]
  rcases hi.2.step hi.1 hstep with ⟨-, h'⟩ | ⟨hlose, -⟩
  · exact h'
  · simp [hlose] at hc

/-- **No descriptor is lost** as long as no record is reset with its temporary
file open, and the first reset of such a record loses one. Before it, the open
files of the parser are those of the records, no record between two frames has
one, and there are no more of them than connections with a frame in progress. -/
theorem accounted_iff (h : ReachableWithin (fun m e => !m.losesFile e) s) :
    Accounted s ∧ ∀ e s', Step s e s' → (Accounted s' ↔ s.master.losesFile e = false) := by
  obtain ⟨hr, ho⟩ := h.owners
  refine ⟨accounted_of_owners ho hr.ready, ?_⟩
  rintro e s' ⟨hs, hfiles⟩
  rcases ho.step hr hs with ⟨hno, ho'⟩ | ⟨hyes, hlost⟩ <;> rw [← hfiles] at *
  · exact iff_of_true (accounted_of_owners ho' (hr.step hs).ready) hno
  · exact iff_of_false (not_accounted_of_lost hlost) (by simp [hyes])

theorem ReachableWithin.step {c : Master → Event → Bool} (h : ReachableWithin c s)
    (hs : Step s e s') (hc : c s.master e = true) : ReachableWithin c s' := by
  obtain ⟨resolve, h⟩ := h
  exact ⟨resolve, h.step_within hs hc⟩

/-- A run of the master, with the files of the parser. -/
theorem reachable_files {c : Master → Event → Bool}
    (h : Master.ReachableWithin (fun m e _ => c m e = true) m) :
    ∃ files, ReachableWithin c ⟨m, files⟩ := by
  refine h.invariant (I := fun m => ∃ files, ReachableWithin c ⟨m, files⟩)
    (fun resolve => ⟨∅, resolve, .refl⟩) fun m e m' _ hi hs hc => ?_
  obtain ⟨files, hf⟩ := hi
  exact ⟨files ∪ created m e m', hf.step ⟨hs, rfl⟩ hc⟩

/-- A submission of two bytes of which one has come: its file is open. -/
theorem accounted_iff_partway :
    ∃ s, ReachableWithin (fun m e => !m.losesFile e) s
      ∧ s.master.records.map (fun q => (s.master.heap q).tempFd) = [6]
      ∧ Accounted s ∧ ∀ e s', Step s e s' → (Accounted s' ↔ s.master.losesFile e = false) := by
  obtain ⟨m, hr, hv⟩ := execWithin_spec (c := fun m e => !m.losesFile e) id
    [.accept [⟨5, [], default⟩],
      .data 5 ((submitLine ++ sizeBytes 2 ++ [120]).map .byte) {}]
    (f := fun m => m.records.map fun q => (m.heap q).tempFd) (v := [6]) (by decide +kernel)
  obtain ⟨files, hf⟩ := reachable_files hr
  exact ⟨_, hf, hv, accounted_iff hf⟩

/-- The submission of one byte has been forwarded to the worker on 6. Its
file is still open on descriptor 7, which is the `temp_fd` of no record. -/
theorem forwarded_file_lost :
    ∃ s, ReachableWithin (fun _ _ => true) s ∧ 7 ∈ s.files ∧ s.master.kernel.IsFile 7
      ∧ s.master.records.map (fun q => (s.master.heap q).tempFd) = [-1, -1] ∧ ¬ Accounted s := by
  obtain ⟨m, m', hr, hs, -, hv⟩ := execStepWithin_spec (c := fun _ _ => true) id
    [.accept [⟨5, [], default⟩, ⟨6, [1], default⟩]] (e := .data 5 (submitFrame.map .byte) {})
    (f := fun m m' => (m.kernel.desc 7, m'.kernel.desc 7,
      m'.records.map fun q => (m'.heap q).tempFd))
    (v := (none, some (.file [97] 1), [-1, -1])) (by decide +kernel)
  obtain ⟨hclosed, hopen, htemp⟩ : m.kernel.desc 7 = none
      ∧ m'.kernel.desc 7 = some (.file [97] 1)
      ∧ m'.records.map (fun q => (m'.heap q).tempFd) = [-1, -1] := by simpa using hv
  have hfile : m'.kernel.IsFile 7 := ⟨_, _, hopen⟩
  obtain ⟨files, hf⟩ := reachable_files hr
  have hmem : 7 ∈ files ∪ created m (.data 5 (submitFrame.map .byte) {}) m' := by
    refine Or.inr ⟨?_, hfile⟩
    rintro ⟨path, off, hd⟩
    rw [hclosed] at hd
    cases hd
  refine ⟨⟨m', _⟩, hf.step ⟨hs, rfl⟩ rfl, hmem, hfile, htemp,
    not_accounted_of_lost ⟨7, hmem, hfile, fun q howner => ?_⟩⟩
  obtain ⟨hq, htemp7, -⟩ := howner
  have h7 : (7 : Int) ∈ m'.records.map fun q => (m'.heap q).tempFd :=
    List.mem_map.mpr ⟨q, hq, htemp7⟩
  rw [htemp] at h7
  simp at h7

end Temporaries

end KeyLime
