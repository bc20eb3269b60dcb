import Mathlib.Data.Multiset.Basic
import KeyLime.Places
import KeyLime.Touches

/-!
# Whose output is sent

A task's own output is what is sent back for it. In every run of the threads that
is tidy (`Tidy`), each task in flight has its files to itself and they hold what
they should: the program as it was received, until it has been loaded, and of its
output what has been written so far (`Phase.Right`). So what is sent is what the
program says when it is run on its own (`output_of_own_program`).

Tidy excludes what the code does not guard against:

* a name the shell does not take for itself, or whose command line does not fit
  the buffer of `tasking`: something else is run, or nothing (`garble`);
* a request for a file that a task under way still needs, since `read_file` and
  `create_output_file` truncate it;
* an output file that cannot be opened, and a `system` that cannot start a shell.

The invariant (`Outputs`) ties tasks to files through `Needs`: which paths a task
still needs, depending on its phase. A step touches only paths its own task needs
(`Touches`), so it leaves the other tasks right; that is the same argument for
each of the steps, and the phases are the only place where the program's files,
offsets and descriptors come in.
-/

namespace KeyLime

open Transition

/-- The executable has not been loaded yet. -/
def Phase.needsInput : Phase → Bool
  | .queued | .executing | .opened => true
  | _ => false

/-- The file is still needed for the task: its output until it has been sent, and the
executable until it has been loaded. -/
def Needs (resolve : Bytes → Bytes) (x : WorkerTask × Phase) (path : Bytes) : Prop :=
  x.1.outputFilename.map resolve = some path ∨
    (x.2.needsInput = true ∧ x.1.inputFilename.map resolve = some path)

instance (resolve : Bytes → Bytes) (x : WorkerTask × Phase) (path : Bytes) :
    Decidable (Needs resolve x path) :=
  inferInstanceAs (Decidable (_ ∨ _))

/-- What the files of a task and its descriptor hold, at each phase: the executable
the payload, the output what the program has written so far, and the descriptor is
at the offset up to which the output has been sent. -/
def Phase.Right (exec : Bytes → Bytes) (k : Kernel) (name payload : Bytes) (fd : Int) :
    Phase → Prop
  | .queued | .executing =>
      k.store (k.resolve name) = some payload ∧
        k.desc fd = some (.file (k.resolve (outputName name)) 0)
  | .opened =>
      k.store (k.resolve name) = some payload ∧
        k.desc fd = some (.file (k.resolve (outputName name)) 0) ∧
        k.store (k.resolve (outputName name)) = some []
  | .running off rest =>
      k.desc fd = some (.file (k.resolve (outputName name)) 0) ∧
        ∃ written, k.store (k.resolve (outputName name)) = some written ∧
          written.length = off ∧ written ++ rest = exec payload
  | .finished | .measuring =>
      k.desc fd = some (.file (k.resolve (outputName name)) 0) ∧
        k.store (k.resolve (outputName name)) = some (exec payload)
  | .body remain _ out =>
      k.desc fd = some (.file (k.resolve (outputName name)) out.length) ∧
        k.store (k.resolve (outputName name)) = some (exec payload) ∧
        out <+: exec payload ∧ out.length + remain = (exec payload).length

theorem Phase.Right.touches {exec : Bytes → Bytes} {k k' : Kernel} {name payload : Bytes} {fd : Int}
    {ph : Phase} {P : Bytes → Prop}
    (h : ph.Right exec k name payload fd) (hk : Touches P k k')
    (hout : ¬ P (k.resolve (outputName name)))
    (hin : ph.needsInput = true → ¬ P (k.resolve name)) :
    ph.Right exec k' name payload fd := by
  have hstore := hk.store _ hout
  cases ph with
  | queued | executing =>
      obtain ⟨h1, h2⟩ := h
      simp only [Phase.Right, hk.resolve]
      exact ⟨(hk.store _ (hin rfl)).trans h1, hk.file _ _ _ hout h2⟩
  | opened =>
      obtain ⟨h1, h2, h3⟩ := h
      simp only [Phase.Right, hk.resolve]
      exact ⟨(hk.store _ (hin rfl)).trans h1, hk.file _ _ _ hout h2, hstore.trans h3⟩
  | running off rest =>
      obtain ⟨h1, written, h2, h3⟩ := h
      simp only [Phase.Right, hk.resolve]
      exact ⟨hk.file _ _ _ hout h1, written, hstore.trans h2, h3⟩
  | finished | measuring =>
      obtain ⟨h1, h2⟩ := h
      simp only [Phase.Right, hk.resolve]
      exact ⟨hk.file _ _ _ hout h1, hstore.trans h2⟩
  | body remain buffer out =>
      obtain ⟨h1, h2, h3⟩ := h
      simp only [Phase.Right, hk.resolve]
      exact ⟨hk.file _ _ _ hout h1, hstore.trans h2, h3⟩

theorem Phase.Right.desc {exec : Bytes → Bytes} {k : Kernel} {name payload : Bytes} {fd : Int}
    {ph : Phase} (h : ph.Right exec k name payload fd) :
    ∃ off, k.desc fd = some (.file (k.resolve (outputName name)) off) := by
  cases ph with
  | queued | executing => exact ⟨0, h.2⟩
  | opened => exact ⟨0, h.2.1⟩
  | running off rest => exact ⟨0, h.1⟩
  | finished | measuring => exact ⟨0, h.1⟩
  | body remain buffer out => exact ⟨_, h.1⟩

namespace Pipeline

variable {exec : Bytes → Bytes} {s s' : Pipeline} {e : PipelineEvent} {i : Fin numThread}
  {k k' : Kernel} {name payload : Bytes} {fd : Int} {t : WorkerTask} {ph ph' : Phase}
  {x y : WorkerTask × Phase}

/-- The name is plain for the shell, and its command line fits the buffer of
`tasking` (`runsProgram`), so that what is run is the file of that name. It and
the file for its output are not the same, and no task still needs one of them. -/
def Clear (s : Pipeline) (name : Bytes) : Prop :=
  runsProgram name = true ∧ s.kernel.resolve name ≠ s.kernel.resolve (outputName name) ∧
    ∀ x ∈ s.inFlight, ¬ Needs s.kernel.resolve x (s.kernel.resolve name) ∧
      ¬ Needs s.kernel.resolve x (s.kernel.resolve (outputName name))

instance (s : Pipeline) (name : Bytes) : Decidable (s.Clear name) :=
  inferInstanceAs (Decidable (_ ∧ _ ∧ _))

/-- A request comes only with a `Clear` name: plain for the shell, with a command
line that fits, and with files that no task needs. Output files can be opened,
and the shell can be started. All other steps are as they may be. -/
def Tidy (s : Pipeline) : PipelineEvent → Prop
  | .request name _ => s.Clear name
  | .createOutput ok => ok = true
  | .noShell _ => False
  | _ => True

instance (s : Pipeline) : (e : PipelineEvent) → Decidable (s.Tidy e)
  | .request name _ => inferInstanceAs (Decidable (s.Clear name))
  | .createOutput ok => inferInstanceAs (Decidable (ok = true))
  | .noShell _ => inferInstanceAs (Decidable False)
  | .leave | .exit | .openFile _ | .main | .tasking .. | .garble .. | .sending .. | .heartbeat _
  | .call _ | .enter .. | .wake _ => inferInstanceAs (Decidable True)

/-- Reached in a run whose steps are all tidy, from a worker that has just started. -/
def TidyReachable (exec : Bytes → Bytes) (s : Pipeline) : Prop :=
  ∃ resolve store, Reach (Within (Step exec) fun s e _ => s.Tidy e) (start resolve store) s

/-! ## What the files hold -/

/-- The task is the one accepted under its number, and its files are right: they have
the names of its request, they are two, and they hold what its phase says. -/
def Served (exec : Bytes → Bytes) (s : Pipeline) (x : WorkerTask × Phase) : Prop :=
  ∃ name payload, s.accepted[x.1.seq]? = some (name, payload) ∧
    x.1.inputFilename = some name ∧ x.1.outputFilename = some (outputName name) ∧
    runsProgram name = true ∧ s.kernel.resolve name ≠ s.kernel.resolve (outputName name) ∧
    x.2.Right exec s.kernel name payload x.1.outputFd

/-- What the main thread has stored of the request it is at. The files of the request
are clear all the time, since no other request can come in between. -/
def MainRight (s : Pipeline) : Prop :=
  match s.main with
  | .opening name _ => s.Clear name
  | .storing name fd rest payload => s.Clear name ∧ ∃ got, got ++ rest = payload ∧
      s.kernel.store (s.kernel.resolve name) = some got ∧
      s.kernel.desc fd = some (.file (s.kernel.resolve name) got.length)
  | .creating name payload =>
      s.Clear name ∧ s.kernel.store (s.kernel.resolve name) = some payload
  | .pushing t payload => ∃ name, s.Clear name ∧ t.inputFilename = some name ∧
      t.outputFilename = some (outputName name) ∧
      s.kernel.store (s.kernel.resolve name) = some payload ∧
      s.kernel.desc t.outputFd = some (.file (s.kernel.resolve (outputName name)) 0)
  | _ => True

structure Outputs (exec : Bytes → Bytes) (s : Pipeline) : Prop where
  steady : Steady s.kernel
  served : ∀ x ∈ s.inFlight, s.Served exec x
  apart : ∀ x ∈ s.inFlight, ∀ y ∈ s.inFlight, x.1.seq ≠ y.1.seq → ∀ output,
    y.1.outputFilename = some output → ¬ Needs s.kernel.resolve x (s.kernel.resolve output)
  main : s.MainRight
  sent : ∀ seq body, (seq, body) ∈ s.sent →
    ∃ name payload, s.accepted[seq]? = some (name, payload) ∧ body = exec payload

/-! ## What a step leaves alone -/

variable {P : Bytes → Prop} {rest : Multiset (WorkerTask × Phase)}

theorem Served.touches (h : s.Served exec x) (hk : Touches P s.kernel s'.kernel)
    (hacc : s.accepted <+: s'.accepted) (hP : ∀ path, P path → ¬ Needs s.kernel.resolve x path) :
    s'.Served exec x := by
  obtain ⟨name, payload, hget, hin, hout, hruns, hne, hright⟩ := h
  refine ⟨name, payload, ?_, hin, hout, hruns, by rw [hk.resolve]; exact hne, ?_⟩
  · obtain ⟨more, hmore⟩ := hacc
    rw [← hmore, List.getElem?_append_left (List.getElem?_eq_some_iff.mp hget).1]
    exact hget
  · refine hright.touches hk (fun hp => hP _ hp (Or.inl (by rw [hout]; rfl))) fun hneeds hp => ?_
    exact hP _ hp (Or.inr ⟨hneeds, by rw [hin]; rfl⟩)

theorem Clear.mono (h : s.Clear name) (hres : s'.kernel.resolve = s.kernel.resolve)
    (hflight : ∀ y ∈ s'.inFlight, ∃ x ∈ s.inFlight, ∀ path,
      Needs s.kernel.resolve y path → Needs s.kernel.resolve x path) : s'.Clear name := by
  obtain ⟨hruns, hne, hclear⟩ := h
  rw [Clear, hres]
  refine ⟨hruns, hne, ?_⟩
  intro y hy
  obtain ⟨x, hx, hxy⟩ := hflight y hy
  exact ⟨fun h => (hclear x hx).1 (hxy _ h), fun h => (hclear x hx).2 (hxy _ h)⟩

theorem MainRight.touches (h : s.MainRight) (hm : s'.main = s.main)
    (hk : Touches P s.kernel s'.kernel)
    (hP : ∀ name, s.Clear name → ¬ P (s.kernel.resolve name) ∧
      ¬ P (s.kernel.resolve (outputName name)))
    (hflight : ∀ y ∈ s'.inFlight, ∃ x ∈ s.inFlight, ∀ path,
      Needs s.kernel.resolve y path → Needs s.kernel.resolve x path) : s'.MainRight := by
  unfold MainRight at h ⊢
  rw [hm]
  cases hpc : s.main with
  | opening name payload =>
      simp only [hpc] at h ⊢
      exact h.mono hk.resolve hflight
  | storing name fd more payload =>
      simp only [hpc] at h ⊢
      obtain ⟨hclear, got, hgot, hstore, hdesc⟩ := h
      have hin := (hP name hclear).1
      refine ⟨hclear.mono hk.resolve hflight, got, hgot, ?_, ?_⟩ <;> rw [hk.resolve]
      · exact (hk.store _ hin).trans hstore
      · exact hk.file _ _ _ hin hdesc
  | creating name payload =>
      simp only [hpc] at h ⊢
      obtain ⟨hclear, hstore⟩ := h
      refine ⟨hclear.mono hk.resolve hflight, ?_⟩
      rw [hk.resolve]
      exact (hk.store _ (hP name hclear).1).trans hstore
  | pushing t payload =>
      simp only [hpc] at h ⊢
      obtain ⟨name, hclear, hin, hout, hstore, hdesc⟩ := h
      refine ⟨name, hclear.mono hk.resolve hflight, hin, hout, ?_, ?_⟩ <;> rw [hk.resolve]
      · exact (hk.store _ (hP name hclear).1).trans hstore
      · exact hk.file _ _ _ (hP name hclear).2 hdesc
  | _ => trivial

theorem Accounts.seq_ne (ha : s.Accounts) (hf : s.inFlight = (t, ph) ::ₘ rest) (hx : x ∈ rest) :
    x.1.seq ≠ t.seq := by
  have hnodup := Multiset.nodup_range s.accepted.length
  rw [← ha.places, Pipeline.places, hf, Multiset.map_cons] at hnodup
  have hcons := (Multiset.nodup_add.mp (Multiset.nodup_add.mp hnodup).1).1
  exact fun heq => (Multiset.nodup_cons.mp hcons).1 (heq ▸ Multiset.mem_map_of_mem _ hx)

/-- A step of the thread that holds a task: it touches the output of that
task only, and hands the task on or takes it away. -/
theorem Outputs.of_touches (h : s.Outputs exec) (ha : s.Accounts)
    (hf : s.inFlight = (t, ph) ::ₘ rest) (hout : t.outputFilename = some (outputName name))
    (hk : Touches (· = s.kernel.resolve (outputName name)) s.kernel s'.kernel)
    (hacc : s'.accepted = s.accepted) (hm : s'.main = s.main)
    (hnew : ∀ y ∈ s'.inFlight, y ∈ rest ∨ (y.1 = t ∧
      (y.2.needsInput = true → ph.needsInput = true) ∧ s'.Served exec y))
    (hsent : ∀ seq body, (seq, body) ∈ s'.sent →
      ∃ name payload, s'.accepted[seq]? = some (name, payload) ∧ body = exec payload) :
    s'.Outputs exec := by
  have hself : (t, ph) ∈ s.inFlight := hf ▸ Multiset.mem_cons_self ..
  have hrest : ∀ y ∈ rest, y ∈ s.inFlight := fun y hy => hf ▸ Multiset.mem_cons_of_mem hy
  have hneeds : Needs s.kernel.resolve (t, ph) (s.kernel.resolve (outputName name)) :=
    Or.inl (by rw [hout]; rfl)
  have hflight : ∀ y ∈ s'.inFlight, ∃ x ∈ s.inFlight, x.1 = y.1 ∧ ∀ path,
      Needs s.kernel.resolve y path → Needs s.kernel.resolve x path := fun y hy => by
    rcases hnew y hy with hy | ⟨ht, hle, -⟩
    · exact ⟨y, hrest y hy, rfl, fun _ => id⟩
    · refine ⟨(t, ph), hself, ht.symm, ?_⟩
      intro path hpath
      rcases hpath with hp | ⟨hin, hp⟩
      · exact Or.inl (ht ▸ hp)
      · exact Or.inr ⟨hle hin, ht ▸ hp⟩
  refine ⟨hk.steady, ?_, ?_, ?_, hsent⟩
  · intro y hy
    rcases hnew y hy with hy | ⟨-, -, hserved⟩
    · refine (h.served y (hrest y hy)).touches hk (by rw [hacc]) fun path hpath => ?_
      rw [hpath]
      exact h.apart y (hrest y hy) (t, ph) hself (ha.seq_ne hf hy) _ hout
    · exact hserved
  · intro x hx y hy hne output houtput
    obtain ⟨x', hx', hxx, hsub⟩ := hflight x hx
    obtain ⟨y', hy', hyy, -⟩ := hflight y hy
    rw [hk.resolve]
    intro hn
    refine h.apart x' hx' y' hy' (by rw [hxx, hyy]; exact hne) output (by rw [hyy]; exact houtput) ?_
    exact hsub _ hn
  · refine h.main.touches hm hk (fun name' hclear => ?_) fun y hy => ?_
    · obtain ⟨-, -, hclear⟩ := hclear
      exact ⟨fun heq => (hclear _ hself).1 (heq ▸ hneeds), fun heq => (hclear _ hself).2 (heq ▸ hneeds)⟩
    · obtain ⟨x, hx, -, hsub⟩ := hflight y hy
      exact ⟨x, hx, hsub⟩

theorem Outputs.of_phase {ph' : Phase} {payload : Bytes} (ho : s.Outputs exec) (ha : s.Accounts)
    (hf : s.inFlight = (t, ph) ::ₘ rest) (hf' : s'.inFlight = (t, ph') ::ₘ rest)
    (hget : s.accepted[t.seq]? = some (name, payload)) (hin : t.inputFilename = some name)
    (hout : t.outputFilename = some (outputName name)) (hruns : runsProgram name = true)
    (hne : s.kernel.resolve name ≠ s.kernel.resolve (outputName name))
    (hk : Touches (· = s.kernel.resolve (outputName name)) s.kernel s'.kernel)
    (hacc : s'.accepted = s.accepted) (hm : s'.main = s.main) (hsent : s'.sent = s.sent)
    (hneeds : ph'.needsInput = true → ph.needsInput = true)
    (hright : ph'.Right exec s'.kernel name payload t.outputFd) : s'.Outputs exec := by
  refine ho.of_touches ha hf hout hk hacc hm (fun y hy => ?_) ?_
  · rw [hf'] at hy
    rcases Multiset.mem_cons.mp hy with rfl | hy
    · exact Or.inr ⟨rfl, hneeds, name, payload, by rw [hacc]; exact hget, hin, hout, hruns,
        by rw [hk.resolve]; exact hne, hright⟩
    · exact Or.inl hy
  · rw [hsent, hacc]
    exact ho.sent

theorem Outputs.of_main (h : s.Outputs exec) (hflight : s'.inFlight = s.inFlight)
    (hacc : s'.accepted = s.accepted) (hsent : s'.sent = s.sent)
    (hk : Touches P s.kernel s'.kernel)
    (hP : ∀ x ∈ s.inFlight, ∀ path, P path → ¬ Needs s.kernel.resolve x path)
    (hm : s'.MainRight) : s'.Outputs exec where
  steady := hk.steady
  served x hx := by
    rw [hflight] at hx
    exact (h.served x hx).touches hk (by rw [hacc]) (hP x hx)
  apart x hx y hy hne output hout := by
    rw [hflight] at hx hy
    rw [hk.resolve]
    exact h.apart x hx y hy hne output hout
  main := hm
  sent := by
    rw [hsent, hacc]
    exact h.sent

/-! ## The main thread -/

theorem MainRight.of_other (hm : s.main.inLoop = false) : s.MainRight := by
  unfold MainRight
  cases hpc : s.main <;> simp_all [MainPc.inLoop]

theorem MainCase.outputs (h : MainCase s e s') (ho : s.Outputs exec) (htidy : s.Tidy e) :
    s'.Outputs exec := by
  have hmain := ho.main
  -- The steps that touch no file.
  have still (hk : Touches (fun _ => False) s.kernel s'.kernel) (hm : s'.MainRight) :
      s'.Outputs exec := by
    obtain ⟨heq, -, -⟩ := h.frame
    rw [heq] at hk hm ⊢
    exact ho.of_main rfl rfl rfl hk (fun _ _ _ hp => hp.elim) hm
  unfold MainRight at hmain
  cases h with
  | request name payload hpc => exact still (.refl ho.steady) htidy
  | leave hpc => exact still (.refl ho.steady) trivial
  | exit e hpc hto => exact still (.refl ho.steady) trivial
  | opened name payload hpc =>
      simp only [hpc] at hmain
      have hk := Touches.openFile ho.steady name true
      refine ho.of_main rfl rfl rfl hk (fun x hx path hp => hp ▸ (hmain.2.2 x hx).1)
        ⟨hmain.mono hk.resolve fun y hy => ⟨y, hy, fun _ => id⟩, [], rfl, ?_, ?_⟩
      · simp [Kernel.openWithAllPermission]
      · simp [Kernel.openWithAllPermission]
  | store name fd rest payload hpc hmore =>
      simp only [hpc] at hmain
      obtain ⟨hclear, got, hgot, hstore, hdesc⟩ := hmain
      have hk := Touches.put ho.steady hdesc (rest.take fileBufferSize)
      obtain ⟨hstore', hdesc'⟩ := Kernel.put_at_end (rest.take fileBufferSize) hstore hdesc
      refine ho.of_main rfl rfl rfl hk (fun x hx path hp => hp ▸ (hclear.2.2 x hx).1)
        ⟨hclear.mono hk.resolve fun y hy => ⟨y, hy, fun _ => id⟩, got ++ rest.take fileBufferSize,
          ?_, ?_, ?_⟩
      · rw [List.append_assoc, List.take_append_drop, hgot]
      · rw [hk.resolve]
        exact hstore'
      · rw [hk.resolve]
        exact hdesc'
  | stored name fd rest payload hpc hlast =>
      simp only [hpc] at hmain
      obtain ⟨hclear, got, hgot, hstore, hdesc⟩ := hmain
      have hput := Touches.put ho.steady hdesc rest
      obtain ⟨hstore', hdesc'⟩ := Kernel.put_at_end rest hstore hdesc
      have hk := hput.trans (Touches.close hput.steady hdesc')
      refine ho.of_main rfl rfl rfl hk (fun x hx path hp => hp ▸ (hclear.2.2 x hx).1)
        ⟨hclear.mono hk.resolve fun y hy => ⟨y, hy, fun _ => id⟩, ?_⟩
      rw [hk.resolve, ← hgot]
      exact hstore'
  | created name payload ok hpc =>
      simp only [hpc] at hmain
      obtain ⟨hclear, hstore⟩ := hmain
      obtain rfl : ok = true := htidy
      have hk := Touches.openFile ho.steady (outputName name) true
      refine ho.of_main rfl rfl rfl hk (fun x hx path hp => hp ▸ (hclear.2.2 x hx).2)
        ⟨name, hclear.mono hk.resolve fun y hy => ⟨y, hy, fun _ => id⟩, rfl, rfl, ?_, ?_⟩
      · rw [hk.resolve]
        exact (hk.store _ hclear.2.1).trans hstore
      · simp [Kernel.openWithAllPermission]
  | kill hpc => exact still (.refl ho.steady) trivial
  | close hpc => exact still (.close_socket ho.steady) trivial
  | join i hpc hi hexited => exact still (.refl ho.steady) trivial
  | joined i hpc hi => exact still (.refl ho.steady) trivial
  | joinSending hpc hexited => exact still (.refl ho.steady) trivial
  | joinHeartbeat hpc hexited => exact still (.refl ho.steady) trivial

/-! ## The tasking threads -/

theorem TaskingCase.outputs (h : TaskingCase exec s i e s') (ho : s.Outputs exec)
    (ha : s.Accounts) (htidy : s.Tidy e) : s'.Outputs exec := by
  have hflight := inFlight_tasking s i
  have hflight' (pc : TaskingPc) (ht : s'.tasking = (s.setTasking i pc).tasking) :=
    inFlight_setTasking pc ht
  have hheld : ∀ x ∈ (s.tasking i).job, s.Served exec x := fun x hx => by
    refine ho.served x ?_
    rw [hflight]
    exact Multiset.mem_add.mpr (Or.inl hx)
  -- The thread goes on with its task, which is right again.
  have go {t : WorkerTask} {ph : Phase} {name payload : Bytes} (ph' : Phase) (pc : TaskingPc)
      (hpc : (s.tasking i).job = {(t, ph)}) (hpc' : pc.job = {(t, ph')})
      (ht : s'.tasking = (s.setTasking i pc).tasking)
      (hget : s.accepted[t.seq]? = some (name, payload))
      (hin : t.inputFilename = some name) (hout : t.outputFilename = some (outputName name))
      (hruns : runsProgram name = true)
      (hne : s.kernel.resolve name ≠ s.kernel.resolve (outputName name))
      (hk : Touches (· = s.kernel.resolve (outputName name)) s.kernel s'.kernel)
      (hneeds : ph'.needsInput = true → ph.needsInput = true)
      (hright : ph'.Right exec s'.kernel name payload t.outputFd) : s'.Outputs exec := by
    obtain ⟨heq, -, -⟩ := h.frame
    have hflight' := hflight' pc ht
    rw [hpc] at hflight
    rw [hpc'] at hflight'
    rw [heq] at hflight' hk hright ⊢
    exact ho.of_phase ha hflight hflight' hget hin hout hruns hne hk rfl rfl rfl hneeds hright
  cases h with
  | «open» t name' output n hpc hin' hout' hruns' =>
      have hjob : (s.tasking i).job = {(t, .executing)} := by rw [hpc]; rfl
      obtain ⟨name, payload, hget, hin, hout, hruns, hne, hstore, hdesc⟩ :=
        hheld (t, .executing) (by simp [hjob])
      obtain rfl := Option.some.inj (hout'.symm.trans hout)
      exact go .opened (.opened t) hjob rfl rfl hget hin hout hruns hne (.of_store ho.steady _)
        (fun _ => rfl)
        ⟨(Function.update_of_ne hne _ _).trans hstore, hdesc, Function.update_self ..⟩
  | load t name' n hpc hin' =>
      have hjob : (s.tasking i).job = {(t, .opened)} := by rw [hpc]; rfl
      obtain ⟨name, payload, hget, hin, hout, hruns, hne, hstore, hdesc, hempty⟩ :=
        hheld (t, .opened) (by simp [hjob])
      obtain rfl := Option.some.inj (hin'.symm.trans hin)
      refine go (.running 0 _) (.running t 0 _) hjob rfl rfl hget hin hout hruns hne
        (.refl ho.steady) nofun ⟨hdesc, [], hempty, rfl, ?_⟩
      rw [hstore]
      rfl
  | write t output off n rest hpc hrest hout' =>
      have hjob : (s.tasking i).job = {(t, .running off rest)} := by rw [hpc]; rfl
      obtain ⟨name, payload, hget, hin, hout, hruns, hne, hdesc, written, hstore, hlen, hexec⟩ :=
        hheld (t, .running off rest) (by simp [hjob])
      obtain rfl := Option.some.inj (hout'.symm.trans hout)
      refine go (.running _ _) (.running t _ _) hjob rfl rfl hget hin hout hruns hne
        (.of_store ho.steady _) nofun ⟨hdesc, written ++ rest.take (n + 1), ?_, by simp [hlen], ?_⟩
      · show Function.update s.kernel.store _ _ _ = _
        rw [Function.update_self, hstore, Option.getD_some, ← hlen, Kernel.splice_at_end]
      · rw [List.append_assoc, List.take_append_drop, hexec]
  | finish t off n hpc =>
      have hjob : (s.tasking i).job = {(t, .running off [])} := by rw [hpc]; rfl
      obtain ⟨name, payload, hget, hin, hout, hruns, hne, hdesc, written, hstore, hlen, hexec⟩ :=
        hheld (t, .running off []) (by simp [hjob])
      refine go .finished (.returning t) hjob rfl rfl hget hin hout hruns hne (.refl ho.steady)
        nofun ⟨hdesc, ?_⟩
      rw [← hexec, List.append_nil]
      exact hstore
  | garble t store hpc hruns' =>
      obtain ⟨name, payload, hget, hin, hout, hruns, -⟩ :=
        hheld (t, .executing) (by simp [hpc, TaskingPc.job])
      rw [hruns' name hin] at hruns
      cases hruns
  | noShell t name hpc hin => exact htidy.elim

/-! ## The sending thread -/

theorem read_block {path content out : Bytes} {n : Nat}
    (hdesc : k.desc fd = some (.file path out.length)) (hstore : k.store path = some content)
    (hout : out <+: content) (hn : out.length + n ≤ content.length) :
    ∃ blk, (k.readFile fd n).1 = blk ∧ blk.length = n ∧ out ++ blk <+: content ∧
      (k.readFile fd n).2.desc fd = some (.file path (out ++ blk).length) ∧
      (k.readFile fd n).2.store path = some content := by
  obtain ⟨more, rfl⟩ := hout
  have hlen : n ≤ more.length := by
    rw [List.length_append] at hn
    omega
  have hread : k.readFile fd n = (more.take n, { k with
      desc := Function.update k.desc fd (some (.file path (out.length + (more.take n).length))) }) := by
    simp only [Kernel.readFile, hdesc, hstore, Option.getD_some, List.drop_left]
  rw [hread]
  refine ⟨more.take n, rfl, by simp [hlen], ?_, ?_, hstore⟩
  · exact (List.prefix_append_right_inj out).mpr (List.take_prefix n more)
  · simp

theorem SendingCase.outputs (h : SendingCase s e s') (ho : s.Outputs exec) (ha : s.Accounts) :
    s'.Outputs exec := by
  have hflight := inFlight_sending s
  have hflight' := inFlight_sending s'
  have hheld : ∀ x ∈ s.sending.job, s.Served exec x := fun x hx => by
    refine ho.served x ?_
    rw [hflight]
    exact Multiset.mem_add.mpr (Or.inl hx)
  cases h with
  | header t name' mem hpc hin' =>
      have hjob : s.sending.job = {(t, .finished)} := by rw [hpc]; rfl
      obtain ⟨name, payload, hget, hin, hout, hruns, hne, hright⟩ :=
        hheld (t, .finished) (by simp [hjob])
      rw [hjob] at hflight
      have hsocket {P : Bytes → Prop} :
          Touches P s.kernel (s.kernel.put socketFd (createHeader name')) := .put_socket ho.steady _
      exact ho.of_phase ha hflight hflight' hget hin hout hruns hne hsocket rfl rfl rfl
        (by simp [Phase.needsInput]) (hright.touches (P := fun _ => False) hsocket id fun _ => id)
  | measure t mem hpc =>
      have hjob : s.sending.job = {(t, .measuring)} := by rw [hpc]; rfl
      obtain ⟨name, payload, hget, hin, hout, hruns, hne, hdesc, hstore⟩ :=
        hheld (t, .measuring) (by simp [hjob])
      rw [hjob] at hflight
      have hrewind := Touches.rewind ho.steady hdesc
      have hk := hrewind.trans (.put_socket hrewind.steady
        (sizeBytes (endOffset s.kernel t.outputFd)))
      refine ho.of_phase ha hflight hflight' hget hin hout hruns hne hk rfl rfl rfl
        (by simp [Phase.needsInput]) ?_
      have hkernel : s.kernel.rewind t.outputFd = { s.kernel with
          desc := Function.update s.kernel.desc t.outputFd
            (some (.file (s.kernel.resolve (outputName name)) 0)) } := by
        simp only [Kernel.rewind, hdesc]
      have hright : Phase.Right exec (s.kernel.rewind t.outputFd) name payload t.outputFd
          (.body (endOffset s.kernel t.outputFd) mem []) := by
        rw [hkernel]
        refine ⟨by simp, hstore, List.nil_prefix, ?_⟩
        simp [endOffset, hdesc, hstore]
      have hsocket : Touches (fun _ => False) (s.kernel.rewind t.outputFd)
          ((s.kernel.rewind t.outputFd).put socketFd (sizeBytes (endOffset s.kernel t.outputFd))) :=
        .put_socket hrewind.steady _
      exact hright.touches hsocket id fun _ => id
  | block t remain mem buffer out bs hpc hremain hbs =>
      have hjob : s.sending.job = {(t, .body remain buffer out)} := by rw [hpc]; rfl
      obtain ⟨name, payload, hget, hin, hout, hruns, hne, hdesc, hstore, hprefix, hlen⟩ :=
        hheld (t, .body remain buffer out) (by simp [hjob])
      have hle : blockSize remain ≤ remain := by
        unfold blockSize
        split <;> omega
      obtain ⟨blk, hblk, hblklen, hprefix', hdesc', hstore'⟩ :=
        read_block hdesc hstore hprefix (n := blockSize remain) (by omega)
      have hbs' : bs = blk := by rw [hbs, hblk, ← hblklen, fetch_overwrite]
      rw [hjob] at hflight
      have hread := Touches.readFile ho.steady hdesc (blockSize remain)
      have hk := hread.trans (.put_socket hread.steady bs)
      have hright : Phase.Right exec (s.kernel.readFile t.outputFd (blockSize remain)).2 name
          payload t.outputFd (.body (remain - blockSize remain)
            (overwrite buffer (s.kernel.readFile t.outputFd (blockSize remain)).1) (out ++ bs)) := by
        simp only [Phase.Right, hread.resolve, hbs']
        refine ⟨hdesc', hstore', hprefix', ?_⟩
        rw [List.length_append, hblklen]
        omega
      have hsocket : Touches (fun _ => False) (s.kernel.readFile t.outputFd (blockSize remain)).2
          ((s.kernel.readFile t.outputFd (blockSize remain)).2.put socketFd bs) :=
        .put_socket hread.steady _
      exact ho.of_phase ha hflight hflight' hget hin hout hruns hne hk rfl rfl rfl
        (by simp [Phase.needsInput]) (hright.touches hsocket id fun _ => id)
  | sent t mem buffer short out hpc =>
      have hjob : s.sending.job = {(t, .body 0 buffer out)} := by rw [hpc]; rfl
      obtain ⟨name, payload, hget, hin, hout, hruns, hne, hdesc, hstore, hprefix, hlen⟩ :=
        hheld (t, .body 0 buffer out) (by simp [hjob])
      rw [hjob] at hflight
      refine ho.of_touches ha hflight hout (.close ho.steady hdesc) rfl rfl (fun y hy => ?_)
        fun seq body hmem => ?_
      · rw [hflight'] at hy
        left
        simpa [SendingPc.job] using hy
      · rcases List.mem_append.mp hmem with hmem | hmem
        · exact ho.sent seq body hmem
        · obtain ⟨rfl, rfl⟩ := Prod.mk.inj (List.mem_singleton.mp hmem)
          exact ⟨name, payload, hget, hprefix.eq_of_length (by omega)⟩
  | giveUp t mem short k bs htask hkernel =>
      have hjob : ∃ ph : Phase, s.sending.job = {(t, ph)} := by
        cases hpc : s.sending with
        | pulling | exited =>
            rw [hpc] at htask
            cases htask
        | header _ | measuring _ | body _ _ _ _ =>
            rw [hpc] at htask
            obtain rfl := Option.some.inj htask
            exact ⟨_, rfl⟩
      obtain ⟨ph, hjob⟩ := hjob
      obtain ⟨name, payload, hget, hin, hout, hruns, hne, hright⟩ := hheld (t, ph) (by simp [hjob])
      obtain ⟨off, hdesc⟩ := hright.desc
      have hk : Touches (· = s.kernel.resolve (outputName name)) s.kernel k := by
        rcases hkernel with rfl | rfl | ⟨n, rfl⟩
        · exact .refl ho.steady
        · exact .rewind ho.steady hdesc
        · exact .readFile ho.steady hdesc n
      rw [hjob] at hflight
      refine ho.of_touches ha hflight hout (hk.trans (.write hk.steady bs short)) rfl rfl
        (fun y hy => ?_) ho.sent
      have hexited : (s.giveUp t (Pipeline.write k bs short).2).sending.job = 0 := rfl
      rw [hflight', hexited, zero_add] at hy
      exact Or.inl hy

/-! ## The queues -/

/-- A task comes to the queue, with files that are not needed for another. -/
theorem Outputs.accept {payload : Bytes} (ho : s.Outputs exec) (ha : s.Accounts)
    (hpc : s.main = .pushing t payload) (hmain : s'.main = .receiving)
    (hflight : s'.inFlight = (t, .queued) ::ₘ s.inFlight)
    (haccepted : s'.accepted = s.accepted ++ [(t.inputFilename.getD [], payload)])
    (hkernel : s'.kernel = s.kernel) (hsent : s'.sent = s.sent) : s'.Outputs exec := by
  have hk : Touches (fun _ => False) s.kernel s'.kernel := by
    rw [hkernel]
    exact .refl ho.steady
  obtain ⟨hseq, -, -⟩ := ha.pushing t payload hpc
  have hold := ho.main
  unfold MainRight at hold
  simp only [hpc] at hold
  obtain ⟨name, ⟨hruns, hne, hclear⟩, hin, hout, hstore, hdesc⟩ := hold
  have hprefix : s.accepted <+: s'.accepted := ⟨_, haccepted.symm⟩
  have hserved : s'.Served exec (t, .queued) := by
    refine ⟨name, payload, ?_, hin, hout, hruns, ?_, ?_⟩
    · rw [haccepted, hseq, hin]
      simp
    · rw [hkernel]
      exact hne
    · rw [hkernel]
      exact ⟨hstore, hdesc⟩
  refine ⟨hkernel ▸ ho.steady, fun x hx => ?_, fun x hx y hy hxy output houtput => ?_, ?_,
    fun seq body hmem => ?_⟩
  · rw [hflight] at hx
    rcases Multiset.mem_cons.mp hx with rfl | hx
    · exact hserved
    · exact (ho.served x hx).touches hk hprefix fun _ hp => hp.elim
  · rw [hkernel]
    rw [hflight] at hx hy
    rcases Multiset.mem_cons.mp hx with rfl | hx
    · rcases Multiset.mem_cons.mp hy with rfl | hy
      · exact (hxy rfl).elim
      · have hneeds : Needs s.kernel.resolve y (s.kernel.resolve output) :=
          Or.inl (by rw [houtput]; rfl)
        rintro (hp | ⟨-, hp⟩)
        · simp only [hout, Option.map_some, Option.some.injEq] at hp
          exact (hclear y hy).2 (hp ▸ hneeds)
        · simp only [hin, Option.map_some, Option.some.injEq] at hp
          exact (hclear y hy).1 (hp ▸ hneeds)
    · rcases Multiset.mem_cons.mp hy with rfl | hy
      · obtain rfl := Option.some.inj (houtput.symm.trans hout)
        exact (hclear x hx).2
      · exact ho.apart x hx y hy hxy output houtput
  · rw [MainRight, hmain]
    trivial
  · rw [hsent] at hmem
    obtain ⟨name', payload', hget, hbody⟩ := ho.sent seq body hmem
    refine ⟨name', payload', ?_, hbody⟩
    rw [haccepted, List.getElem?_append_left (List.getElem?_eq_some_iff.mp hget).1]
    exact hget

theorem QueueCase.outputs (h : QueueCase s s') (ho : s.Outputs exec) (ha : s.Accounts) :
    s'.Outputs exec := by
  obtain ⟨hkernel, -, hsent, -⟩ := h.histories
  have hmain : s'.main = s.main ∨ s'.MainRight := by
    cases h with
    | accept => exact Or.inr trivial
    | endTask i q hpc =>
        right
        refine MainRight.of_other ?_
        show MainPc.inLoop (if i + 1 < numThread then .ending (i + 1) else .endingSender) = false
        split <;> rfl
    | endSender => exact Or.inr trivial
    | _ => exact Or.inl rfl
  have hk (P : Bytes → Prop) : Touches P s.kernel s'.kernel := by
    rw [hkernel]
    exact .refl ho.steady
  cases ha.queueFlow h with
  | still hflight haccepted =>
      refine ho.of_main hflight haccepted hsent (hk fun _ => False) (fun _ _ _ hp => hp.elim) ?_
      rcases hmain with hmain | hmain
      · exact ho.main.touches hmain (hk fun _ => False) (fun _ _ => ⟨id, id⟩)
          fun y hy => ⟨y, hflight ▸ hy, fun _ => id⟩
      · exact hmain
  | take t rest hmain hflight hflight' haccepted =>
      obtain ⟨name, payload, hget, hin, hout, hruns, hne, hright⟩ :=
        ho.served (t, .queued) (hflight ▸ Multiset.mem_cons_self ..)
      have hright' : Phase.Right exec s'.kernel name payload t.outputFd .executing := by
        rw [hkernel]
        exact hright
      exact ho.of_phase ha hflight hflight' hget hin hout hruns hne (hk _) haccepted hmain hsent
        (fun _ => rfl) hright'
  | accept t payload hpc hmain hflight haccepted =>
      exact ho.accept ha hpc hmain hflight haccepted hkernel hsent

/-! ## Runs -/

theorem start_outputs (resolve : Bytes → Bytes) (store : Bytes → Option Bytes) :
    (start resolve store).Outputs exec where
  steady := by
    refine ⟨?_, Or.inl rfl, (by decide : (3 : Int) < 4)⟩
    intro g hg
    by_cases h : g = socketFd
    · subst h
      exact (by decide : (0 : Int) ≤ 3 ∧ (3 : Int) < 4)
    · simp [start, h] at hg
  served x hx := by
    simp [inFlight, start, Monitor.create, Monitor.contents, TaskingPc.job, SendingPc.job] at hx
  apart x hx := by
    simp [inFlight, start, Monitor.create, Monitor.contents, TaskingPc.job, SendingPc.job] at hx
  main := trivial
  sent _ _ h := by cases h

theorem Outputs.step (h : s.Outputs exec) (ha : s.Accounts) (hs : StepCase exec s e s')
    (htidy : s.Tidy e) : s'.Outputs exec := by
  cases hs with
  | main hs => exact hs.outputs h htidy
  | tasking i hs => exact hs.outputs h ha htidy
  | sending hs => exact hs.outputs h ha
  | heartbeat hs =>
      subst hs
      exact ⟨h.steady, h.served, h.apart, h.main, h.sent⟩
  | queue hs => exact hs.outputs h ha

theorem TidyReachable.outputs (h : TidyReachable exec s) :
    s.Wired ∧ s.Accounts ∧ s.Outputs exec := by
  obtain ⟨resolve, store, h⟩ := h
  refine h.invariant (I := fun s => s.Wired ∧ s.Accounts ∧ s.Outputs exec)
    ⟨start_wired resolve store, start_accounts resolve store, start_outputs resolve store⟩ ?_
  intro s e s' _ ⟨hw, ha, ho⟩ ⟨hs, htidy⟩
  obtain ⟨hcase, hw', -⟩ := hw.step hs
  exact ⟨hw', ha.step hcase, ho.step ha hcase htidy⟩

def handleTidy (exec : Bytes → Bytes) (s : Pipeline) (e : PipelineEvent) : Option Pipeline :=
  if s.Tidy e then handle exec s e else none

def tidyRun {β : Type*} (exec : Bytes → Bytes) (es : List PipelineEvent) (f : Pipeline → β) :
    Option β :=
  (es.foldlM (handleTidy exec) (start id fun _ => none)).map f

theorem tidyRun_spec {β : Type*} {es : List PipelineEvent} {f : Pipeline → β} {v : β}
    (h : tidyRun exec es f = some v) : ∃ s, TidyReachable exec s ∧ f s = v := by
  obtain ⟨s, hs, hv⟩ := Option.map_eq_some_iff.mp h
  refine ⟨s, ⟨id, fun _ => none, (foldlM_reach Reach.refl hs).mono fun s e s' hstep => ?_⟩, hv⟩
  unfold handleTidy at hstep
  split at hstep
  · rename_i htidy
    exact ⟨hstep, htidy⟩
  · cases hstep

/-- **What is sent for a task is the output of its own program**, in every tidy
run: each name is plain for the shell, its command line fits, and its files are
not in use when it comes. For the task with number `seq` the body sent is what
`exec` makes of the payload accepted under that number, whatever the other
tasks, the other threads and the blocks of the file were doing meanwhile. -/
theorem output_of_own_program (h : TidyReachable exec s) {seq : Nat} {body : Bytes}
    (hsent : (seq, body) ∈ s.sent) :
    ∃ name payload, s.accepted[seq]? = some (name, payload) ∧ body = exec payload :=
  h.outputs.2.2.sent seq body hsent

/-- A task is executed and sent by one tasking thread and the sending thread. -/
def served (i : Fin numThread) : List PipelineEvent :=
  through (.tasking i) 0 ++ List.replicate 4 (.tasking i 0) ++ through (.tasking i) 0 ++
    through .sending 0 ++ List.replicate 4 (.sending (fun _ => 0) none)

/-- One name twice, the second time after the first task has been sent. -/
theorem twice_sent :
    ∃ s, TidyReachable id s ∧ (1, [2]) ∈ s.sent ∧
      ∃ name payload, s.accepted[1]? = some (name, payload) ∧ [2] = id payload := by
  have hexec : tidyRun id (requested [97] [1] 0 ++ served 0 ++ requested [97] [2] 0 ++ served 1)
      (fun s => s.sent) = some [(0, [1]), (1, [2])] := by decide +kernel
  obtain ⟨s, hr, hv⟩ := tidyRun_spec hexec
  have hsent : (1, [2]) ∈ s.sent := by simp [hv]
  exact ⟨s, hr, hsent, output_of_own_program hr hsent⟩

/-- The program of the first of two requests of one name has not been loaded
when the second comes: what is sent for the first is the output of the second. -/
theorem output_of_the_other :
    ∃ s, Reachable id s ∧ s.accepted = [([97], [1]), ([97], [2])] ∧ (0, [2]) ∈ s.sent ∧
      ¬ ∃ name payload, s.accepted[0]? = some (name, payload) ∧ [2] = id payload := by
  have hexec : execRun id (requested [97] [1] 0 ++ requested [97] [2] 1 ++ served 0)
      (fun s => (s.sent, s.accepted)) =
      some ([(0, [2])], [([97], [1]), ([97], [2])]) := by decide +kernel
  obtain ⟨s, hr, hv⟩ := execRun_spec hexec
  obtain ⟨hsent, hacc⟩ := Prod.mk.inj hv
  exact ⟨s, hr, hacc, by simp [hsent], by simp [hacc]⟩

end Pipeline

end KeyLime
