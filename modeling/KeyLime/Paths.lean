import KeyLime.Names
import KeyLime.Receive
import KeyLime.Spares
import KeyLime.Touches

/-!
# Where received files are stored and what is run

The master stores what it receives under the name in the header, in the
temporary directory it has changed to; the worker does the same with the name
in the forwarded header, and hands the name to a shell. No parser on the way
looks at the name: a file is stored in the directory itself only if the name is
an entry of it (`DirectEntry`), and the file that has been stored is the one
that is run only if the shell takes the name for itself. A name such as
`..$HOME` is an entry of the directory, and the shell makes a path above it of
`./..$HOME`. Both together are what the header has to say (`stays_inside_iff`).
-/

namespace KeyLime

open Intake

/-- The path names an entry of the working directory, and not the directory
itself or the one above. -/
structure DirectEntry (path : Bytes) : Prop where
  noSlash : slash ∉ path
  notDot : path ≠ [46]
  notDots : path ≠ [46, 46]

variable {P : Bytes → Prop} {k k' : Kernel} {fd : Int} {name path bs rest : Bytes} {off : Nat}
  {s s' : List (Arrival UInt8)} {fuel remain total : Nat} {os : List Outcome} {ret : Int}
  {io : RoundIo} {r r' : Receiver} {e : Option Ended}

theorem DirectEntry.output (h : DirectEntry name) : DirectEntry (outputName name) := by
  have hlen : (outputName name).length = name.length + 14 := by
    simp [outputName, outputFileFormat]
  refine ⟨?_, ?_, ?_⟩
  · intro hmem
    rcases List.mem_append.mp hmem with hmem | hmem
    · exact h.noSlash hmem
    · exact absurd hmem (by decide)
  · intro heq
    rw [heq] at hlen
    exact absurd hlen (by simp)
  · intro heq
    rw [heq] at hlen
    simp at hlen

/-! ## What the worker writes -/

theorem Touches.mono {Q : Bytes → Prop} (h : Touches P k k') (hsub : ∀ q, P q → Q q) :
    Touches Q k k' :=
  ⟨fun q hq => h.store q fun hp => hq (hsub q hp),
    fun g q off hq => h.file g q off fun hp => hq (hsub q hp), h.resolve, h.steady⟩

theorem writeLocal_touches (h : Steady k) (hd : k.desc fd = some (.file path off)) (blk : Bytes)
    (os : List Outcome) :
    Touches (· = path) k (writeLocal k fd blk os).2
      ∧ ∃ off', (writeLocal k fd blk os).2.desc fd = some (.file path off') := by
  have hput : ∀ bs, Touches (· = path) k (k.put fd bs)
      ∧ ∃ off', (k.put fd bs).desc fd = some (.file path off') := fun bs =>
    ⟨.put h hd bs, (Kernel.put_extends h.ranged bs).file fd path off hd⟩
  cases os with
  | nil => exact hput blk
  | cons o os =>
      cases o with
      | take n => exact hput _
      | _ => exact ⟨.refl h, off, hd⟩

theorem readFileFromSocket_touches (h : Steady k) (hd : k.desc fd = some (.file path off))
    (hread : readFileFromSocket fd fuel remain total os s k = some (ret, s', k')) :
    Touches (· = path) k k' ∧ ∃ off', k'.desc fd = some (.file path off') := by
  induction fuel generalizing remain total os s k off with
  | zero => cases hread
  | succ fuel ih =>
      unfold readFileFromSocket at hread
      split at hread
      · obtain ⟨-, -, rfl⟩ := Option.some.inj hread
        exact ⟨.refl h, off, hd⟩
      · rename_i blk s₁ _
        obtain ⟨hwrite, off₁, hd₁⟩ := writeLocal_touches h hd blk os
        simp only at hread
        split at hread
        · obtain ⟨-, -, rfl⟩ := Option.some.inj hread
          exact ⟨hwrite, off₁, hd₁⟩
        · obtain ⟨hrest, hd'⟩ := ih hwrite.steady hd₁ hread
          exact ⟨hwrite.trans hrest, hd'⟩

/-- `read_file` writes the file of that name. -/
theorem readFile_touches (h : Steady k) (hread : readFile fuel io name s k = some (some (s', k'))) :
    Touches (· = k.resolve name) k k' := by
  unfold readFile at hread
  split at hread
  · cases hread
  · simp only at hread
    split at hread
    · cases hread
    · rename_i hfd
      obtain ⟨⟨ret, s₁, k₁⟩, hbody, hret⟩ := Option.map_eq_some_iff.mp hread
      have hopen := Touches.openFile h name (io.openOk && decide (name ≠ []))
      have hok : (io.openOk && decide (name ≠ [])) = true := by
        by_contra hno
        rw [Bool.not_eq_true] at hno
        rw [hno] at hfd
        exact hfd rfl
      rw [hok] at hbody hopen hret
      have hd : (k.openWithAllPermission name true).2.desc
          (k.openWithAllPermission name true).1 = some (.file (k.resolve name) 0) :=
        Function.update_self ..
      obtain ⟨hfile, off', hd'⟩ := readFileFromSocket_touches hopen.steady hd hbody
      split at hret
      · cases hret
      · obtain ⟨-, rfl⟩ := Prod.mk.inj (Option.some.inj hret)
        exact (hopen.trans hfile).trans (.close hfile.steady hd')

/-- The two files of a request. -/
def FilesOf (resolve : Bytes → Bytes) (name path : Bytes) : Prop :=
  path = resolve name ∨ path = resolve (outputName name)

/-- **A round** with a header of `do_put` writes the two files of the request. -/
theorem receiveRound_header (h : Steady r.kernel) (hname : Sendable name)
    (hs : Arrival.err ∉ r.stream) (hin : incoming r.stream = putHeader name ++ rest)
    (hround : receiveRound fuel io r = some (e, r')) :
    Touches (FilesOf r.kernel.resolve name) r.kernel r'.kernel := by
  have hline : (lineCollector newline).feed [] (incoming r.stream) = (putHeader name, rest) := by
    rw [hin]
    exact collect_putHeader hname rest
  obtain ⟨s₁, -, -, hhandle⟩ := receiveRound_line io hs hline (by simp [putHeader])
  rw [hhandle fuel] at hround
  have hverb : fetch (overwrite io.line (putHeader name)) 3 = putVerb := rfl
  rw [handleRequest, hverb, if_neg (by simp), getFilenameFromHeader_put hname] at hround
  obtain ⟨x, hread, hpush⟩ := Option.map_eq_some_iff.mp hround
  cases x with
  | none =>
      obtain ⟨-, rfl⟩ := Prod.mk.inj hpush
      exact .refl h
  | some x =>
      obtain ⟨s₂, k₂⟩ := x
      have hfile := readFile_touches h hread
      obtain ⟨-, rfl⟩ := Prod.mk.inj hpush
      have hout := Touches.openFile hfile.steady (outputName name) io.outputOk
      rw [hfile.resolve] at hout
      exact (hfile.mono fun _ => Or.inl).trans (hout.mono fun _ => Or.inr)

/-! ## Both machines -/

/-- The path the shell runs for `./` and a name that it takes for itself. What
it runs for any other name is up to what it makes of it. -/
def executedPath (name : Bytes) : Option Bytes :=
  if runsProgram name then some ([46, slash] ++ name) else none

/-- Files stay in the working directories, where paths are names of files: what
`get_binary_data` writes for a record of that name, what the worker writes for
the header `do_put` makes of it, and the path it runs for a task it pushes. -/
structure StaysInside (opens : Bytes → Bool) (name : Bytes) : Prop where
  master : ∀ (k : Kernel) (w : Worker) (io : RecvIo) (path : Bytes), k.Ranged → k.resolve = id →
    w.tempFileName = some name → w.tempFd = -1 →
      (getBinaryData k w io).2.store path ≠ k.store path → DirectEntry path
  worker : ∀ (fuel : Nat) (io : RoundIo) (r r' : Receiver) (e : Option Ended) (rest path : Bytes),
    Steady r.kernel → r.kernel.resolve = id → Arrival.err ∉ r.stream →
      incoming r.stream = putHeader name ++ rest → receiveRound fuel io r = some (e, r') →
        r'.kernel.store path ≠ r.kernel.store path → DirectEntry path
  executes : ∀ t, Pushes opens name t → ∀ filename, t.inputFilename = some filename →
    ∃ entry, executedPath filename = some ([46, slash] ++ entry) ∧ DirectEntry entry

theorem getBinaryData_writes {w : Worker} (io : RecvIo) (hk : k.Ranged) (hres : k.resolve = id)
    (hname : w.tempFileName = some name) (hfd : w.tempFd = -1)
    (hne : (getBinaryData k w io).2.store path ≠ k.store path) : path = name := by
  have hopened : w.Opened k := fun hopen => (hopen hfd).elim
  have hpath : w.tempPath k = name := by rw [Worker.tempPath, hname, Option.getD_some, hres, id]
  have hspares : Spares (-1) (· = name) k (getBinaryData k w io).2 :=
    getBinaryData_spares hk hopened io fun _ => hpath
  by_contra hno
  exact hne (hspares.store path hno)

theorem getBinaryData_creates {w : Worker} (hname : w.tempFileName = some name)
    (hfd : w.tempFd = -1) (hsize : w.fileSize = 0) :
    (getBinaryData (Master.init id).kernel w {}).2.store name = some [] := by
  rw [getBinaryData_eq, openTemp_of_ok hfd rfl hname]
  simp [dataLoop, hsize, Kernel.opened, Master.init]

theorem StaysInside.of_sendable {opens : Bytes → Bool} (h : Sendable name) :
    StaysInside opens name ↔
      DirectEntry name ∧ (opens name = true → runsProgram name = true) := by
  constructor
  · intro hin
    constructor
    · refine hin.master (Master.init id).kernel { (default : Worker).fresh with
        tempFileName := some name } {} name (Master.init_registry id).ranged rfl rfl rfl ?_
      rw [getBinaryData_creates rfl rfl rfl]
      exact Option.some_ne_none _
    · intro hopens
      obtain ⟨t, ht⟩ := pushes_of_opens h hopens
      obtain ⟨entry, hpath, -⟩ := hin.executes t ht name (ht.names h).2.1
      rw [executedPath] at hpath
      split at hpath
      · rename_i hruns
        exact hruns
      · cases hpath
  · rintro ⟨hdir, hruns⟩
    refine ⟨fun k w io path hk hres hname hfd hne => ?_, fun fuel io r r' e rest path hst hres hs hin
      hround hne => ?_, fun t ht filename hf => ?_⟩
    · rw [getBinaryData_writes io hk hres hname hfd hne]
      exact hdir
    · have hfiles : FilesOf r.kernel.resolve name path := by
        by_contra hno
        exact hne ((receiveRound_header hst h hs hin hround).store path hno)
      rw [hres] at hfiles
      rcases hfiles with rfl | rfl
      · exact hdir
      · exact hdir.output
    · obtain ⟨hopens, hi, -⟩ := ht.names h
      obtain rfl := Option.some.inj (hi.symm.trans hf)
      exact ⟨name, if_pos (hruns hopens), hdir⟩

/-- **Received files stay in the working directories.** For every header line
that `get_command` accepts, in whatever parts it has come, the files it makes
master and worker write, and the program it makes the worker run, are entries of
their directories if and only if what comes behind the first space of the line
is one, and, should the worker be able to open it, is a word that the shell
takes for itself in a command line that fits. -/
theorem stays_inside_iff (opens : Bytes → Bool) {s : List Item} {w : Worker} {p : Parsed}
    (hs : readable s = bs ++ newline :: rest) (hnl : newline ∉ w.command ++ bs)
    (h : getCommand s w = some p) (hret : p.ret = .doneSending) :
    ∃ name, p.w.tempFileName = some name ∧ name = afterSpace (cstr (w.command ++ bs))
      ∧ (StaysInside opens name ↔
        DirectEntry name ∧ (opens name = true → runsProgram name = true)) := by
  obtain ⟨v, name, hhead, hname⟩ := getCommand_accepts hs hnl h hret
  obtain ⟨hsend, -⟩ := headerOf_sendable hhead hnl
  exact ⟨name, hname, (headerOf_name hhead).symm, StaysInside.of_sendable hsend⟩

/-- `PUT a`. -/
theorem stays_inside_iff_plain :
    ∃ p name, getCommand ((putHeader [97]).map .byte) (default : Worker).fresh = some p
      ∧ p.w.tempFileName = some name ∧ StaysInside opensInside name := by
  have hs : readable ((putHeader [97]).map .byte) = [80, 85, 84, 32, 97] ++ newline :: [] := rfl
  obtain ⟨name, hname, rfl, hiff⟩ := stays_inside_iff opensInside (w := (default : Worker).fresh) hs
    (by decide) rfl rfl
  exact ⟨_, _, rfl, hname, hiff.mpr ⟨⟨by decide, by decide, by decide⟩, by decide⟩⟩

/-- `INTERFACE_PUT ../a` is accepted, and stored in the directory above. -/
theorem stored_above :
    ∃ p, getCommand ((interfacePutVerb ++ [space, 46, 46, 47, 97, newline]).map .byte)
        (default : Worker).fresh = some p
      ∧ p.ret = .doneSending ∧ p.w.tempFileName = some [46, 46, 47, 97]
      ∧ (getBinaryData (Master.init id).kernel p.w {}).2.store [46, 46, 47, 97] = some []
      ∧ ∀ opens, ¬ StaysInside opens [46, 46, 47, 97] := by
  refine ⟨_, rfl, rfl, rfl, getBinaryData_creates rfl rfl rfl, ?_⟩
  intro opens hin
  have hdir := ((StaysInside.of_sendable (by decide)).mp hin).1
  exact hdir.noSlash (by decide)

/-- `..$HOME`, which is an entry of a directory: the shell runs another path. -/
example : ¬ StaysInside opensInside [46, 46, 36, 72, 79, 77, 69] := by
  rw [StaysInside.of_sendable (by decide)]
  intro h
  exact absurd (h.2 (by decide)) (by decide)

end KeyLime
