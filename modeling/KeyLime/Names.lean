import KeyLime.Printer
import KeyLime.Roundtrip

/-!
# File names and the buffers they meet

A name that `get_command` accepts is formatted by `do_put`, by `tasking` on
the worker, by `create_header`, and, when the result is forwarded, by `do_put`
again for `output_reciever`. It is the same name everywhere, but the limits are
set in three programs that do not know of one another, and the shell command
contains it twice.

Between `do_put` and `tasking` stands the `open` of `read_file`: if it fails
the worker calls `exit`, and nothing is formatted any more. The open of
`get_binary_data` on the master is not in the way: where it fails and the file
is empty, nothing is written to it, `get_file_size` takes it for empty, and the
frame goes out. So what decides is which names the worker can open, which is a
parameter here (`opens`). The buffers are kept if and only if the name has at
most 500 bytes or the worker cannot open it (`names_fit_iff`). `open` refuses a
single component of more than 255 bytes, not a path of that length, and so the
names that overflow are those with slashes in them (`long_name_overflows`).
-/

namespace KeyLime

open Intake

def slash : UInt8 := 47

variable {line name bs rest : Bytes} {s : List Item} {w : Worker} {r : Parsed} {v : Command}

/-! ## Accepted names -/

theorem length_afterSpace {verb : Bytes} (hpre : verb <+: line) (hspace : space ∉ verb)
    (hne : afterSpace line ≠ []) : (afterSpace line).length + verb.length + 1 ≤ line.length := by
  obtain ⟨tail, rfl⟩ := hpre
  have hdrop : (verb ++ tail).dropWhile (· ≠ space) = tail.dropWhile (· ≠ space) := by
    rw [List.dropWhile_append, if_pos]
    rw [List.isEmpty_iff, List.dropWhile_eq_nil_iff]
    intro b hb
    exact decide_eq_true fun heq => hspace (heq ▸ hb)
  have hle := (List.dropWhile_sublist (l := tail) fun b => decide (b ≠ space)).length_le
  have hpos := List.length_pos_of_ne_nil hne
  unfold afterSpace at hpos ⊢
  rw [hdrop, List.length_drop] at hpos ⊢
  rw [List.length_append]
  omega

theorem afterSpace_sublist (line : Bytes) : (afterSpace line).Sublist line :=
  (List.drop_sublist 1 _).trans (List.dropWhile_sublist _)

theorem headerOf_name (h : headerOf line = some (v, name)) : afterSpace (cstr line) = name := by
  rw [headerOf] at h
  split_ifs at h <;> exact (Prod.mk.inj (Option.some.inj h)).2

theorem headerOf_sendable (h : headerOf line = some (v, name)) (hnl : newline ∉ line) :
    Sendable name ∧ name.length + 4 ≤ line.length := by
  have hcstr : (cstr line).Sublist line := List.takeWhile_sublist _
  have hnul := cstr_noNul line
  simp only [headerOf] at h
  split at h
  · cases h
  · rename_i hne
    have hname : ∀ {verb : Bytes}, verb <+: cstr line → space ∉ verb → 3 ≤ verb.length →
        afterSpace (cstr line) = name → Sendable name ∧ name.length + 4 ≤ line.length := by
      rintro verb hpre hspace hlen rfl
      have hsub := afterSpace_sublist (cstr line)
      have := length_afterSpace hpre hspace hne
      have := hcstr.length_le
      refine ⟨⟨hne, fun hb => hnl ((hsub.trans hcstr).subset hb), fun hb => hnul (hsub.subset hb)⟩,
        by omega⟩
    split at h
    · rename_i hpre
      exact hname hpre (by decide) (by decide) (Prod.mk.inj (Option.some.inj h)).2
    · split at h
      · rename_i hpre
        exact hname hpre (by decide) (by decide) (Prod.mk.inj (Option.some.inj h)).2
      · cases h

/-- A line that is all there is taken apart, or rejected. -/
theorem getCommand_accepts (hs : readable s = bs ++ newline :: rest)
    (hnl : newline ∉ w.command ++ bs) (h : getCommand s w = some r) (hret : r.ret = .doneSending) :
    ∃ v name, headerOf (w.command ++ bs) = some (v, name) ∧ r.w.tempFileName = some name := by
  have hfeed : headerReader.feed (.header w.command) (readable s) =
      (.ofLine (w.command ++ bs), rest) := by
    rw [hs]
    exact feed_line (fun hmem => hnl (List.mem_append_right _ hmem)) rest
  rcases getCommand_spec h with ⟨line, hline, hstop, -⟩ | ⟨line, v, name, hline, -, -, -, hw⟩
      | ⟨line, v, name, -, hbad, -⟩
  · rw [hret] at hstop
    cases hend : ending s <;> rw [hend] at hstop <;> cases hstop
  · rw [hfeed] at hline
    have hof := (Prod.mk.inj hline).1
    unfold Dec.ofLine at hof
    split at hof
    · rename_i v' name' hh
      obtain ⟨rfl, rfl, -, -⟩ := Dec.size.inj hof
      exact ⟨v', name', hh, by rw [hw]⟩
    · cases hof
  · rw [hret] at hbad
    cases hbad

/-! ## The way of a name -/

theorem getFilenameFromHeader_put (h : Sendable name) :
    getFilenameFromHeader (putHeader name) = some name := by
  have hlen : (putHeader name).length = name.length + 5 := by
    simp [putHeader, putVerb]
  have htake : ((putHeader name).drop 4).take (name.length + 5 - 5) = name := by
    show (name ++ [newline]).take name.length = name
    rw [List.take_left]
  unfold getFilenameFromHeader
  rw [if_neg (by omega), hlen, htake, cstr, List.takeWhile_eq_self_iff.mpr fun b hb => ?_]
  exact decide_eq_true fun heq => h.string (heq ▸ hb)

theorem createHeader_dropLast (name : Bytes) :
    (createHeader name).dropLast = headerLine .put name := List.dropLast_concat

theorem collect_putHeader (h : Sendable name) (rest : Bytes) :
    (lineCollector newline).feed [] (putHeader name ++ rest) = (putHeader name, rest) := by
  have hno : newline ∉ putVerb ++ [space] ++ name := headerLine_noNewline (v := .put) h
  have hcollect : (lineCollector newline).feed [] (putVerb ++ [space] ++ name ++ newline :: rest) =
    (putVerb ++ [space] ++ name ++ [newline], rest) := collect_line hno
  simpa [putHeader] using hcollect

/-- A round of the worker's loop for a header of `do_put` pushes a task with the
name and its output name, or none; and none if the program cannot be opened. -/
theorem receiveRound_pushed {fuel : Nat} {io : RoundIo} {x x' : Receiver} {e : Option Ended}
    (hname : Sendable name) (hs : Arrival.err ∉ x.stream)
    (hin : incoming x.stream = putHeader name ++ rest)
    (hround : receiveRound fuel io x = some (e, x')) :
    x'.pushed = x.pushed ∨ (io.openOk = true ∧ ∃ t got, x'.pushed = x.pushed ++ [(t, got)]
      ∧ t.inputFilename = some name ∧ t.outputFilename = some (outputName name)) := by
  have hline : (lineCollector newline).feed [] (incoming x.stream) = (putHeader name, rest) := by
    rw [hin]
    exact collect_putHeader hname rest
  obtain ⟨s₁, -, -, hhandle⟩ := receiveRound_line io hs hline (by simp [putHeader])
  rw [hhandle fuel] at hround
  have hverb : fetch (overwrite io.line (putHeader name)) 3 = putVerb := rfl
  rw [handleRequest, hverb, if_neg (by simp), getFilenameFromHeader_put hname] at hround
  obtain ⟨y, hread, hpush⟩ := Option.map_eq_some_iff.mp hround
  cases y with
  | none =>
      obtain ⟨-, rfl⟩ := Prod.mk.inj hpush
      exact Or.inl rfl
  | some y =>
      obtain ⟨s₂, k₂⟩ := y
      obtain ⟨-, rfl⟩ := Prod.mk.inj hpush
      refine Or.inr ⟨?_, _, _, rfl, rfl, rfl⟩
      by_contra hclosed
      rw [Bool.not_eq_true] at hclosed
      unfold readFile at hread
      split at hread
      · cases hread
      · rw [hclosed] at hread
        cases hread

/-- The worker pushes the task `t` for the header that `do_put` has made of the
name; `opens` says which names its `open` succeeds for. -/
def Pushes (opens : Bytes → Bool) (name : Bytes) (t : WorkerTask) : Prop :=
  ∃ (fuel : Nat) (io : RoundIo) (x x' : Receiver) (e : Option Ended) (rest : Bytes)
    (got : Option Bytes), (io.openOk = true → opens name = true) ∧ Arrival.err ∉ x.stream
      ∧ incoming x.stream = putHeader name ++ rest ∧ receiveRound fuel io x = some (e, x')
      ∧ x'.pushed = x.pushed ++ [(t, got)]

/-- No buffer of a fixed size overflows on the way of a name: `buff` of
`do_put`, with the NUL of `sprintf`; `buffer` of `tasking`, for each task the
worker can push for the header; and, for the name that the master takes from
the header of such a task's result, `buff` of `do_put` and of
`output_reciever`, which stores all of the line but the newline. -/
structure WayFits (opens : Bytes → Bool) (name : Bytes) : Prop where
  request : (putHeader name).length + 1 ≤ 4096
  command : ∀ t, Pushes opens name t → ∀ filename output, t.inputFilename = some filename →
    t.outputFilename = some output → (commandLine filename output).length + 1 ≤ 1024
  result : ∀ t, Pushes opens name t → ∀ filename v name', t.inputFilename = some filename →
    headerOf (createHeader filename).dropLast = some (v, name') →
      (putHeader name').length + 1 ≤ 4096 ∧ (putHeader name').dropLast.length ≤ bufSize

variable {opens : Bytes → Bool} {t : WorkerTask}

theorem Pushes.names (h : Sendable name) (ht : Pushes opens name t) :
    opens name = true ∧ t.inputFilename = some name
      ∧ t.outputFilename = some (outputName name) := by
  obtain ⟨fuel, io, x, x', e, rest, got, hopens, hs, hin, hround, hpushed⟩ := ht
  rcases receiveRound_pushed h hs hin hround with hnone | ⟨hopen, t', got', hpushed', hi, ho⟩
  · rw [hnone] at hpushed
    simp at hpushed
  · rw [hpushed'] at hpushed
    obtain ⟨rfl, -⟩ := Prod.mk.inj (List.cons.inj (List.append_cancel_left hpushed)).1
    exact ⟨hopens hopen, hi, ho⟩

theorem pushes_of_opens (h : Sendable name) (hopens : opens name = true) :
    ∃ t, Pushes opens name t := by
  obtain ⟨b, bs, hbs⟩ : ∃ b bs, putHeader name ++ sizeBytes 0 = b :: bs := ⟨_, _, rfl⟩
  have hs : Arrival.err ∉ [Arrival.chunk b bs] := by simp
  have hin : incoming [Arrival.chunk b bs] =
      putHeader name ++ sizeBytes ([] : Bytes).length ++ [] ++ [] := by
    simp only [incoming, List.append_nil, List.length_nil, hbs]
  have hopen : (⟨fun _ => 0, fun _ => 0, true, true, []⟩ : RoundIo).openOk = true := rfl
  obtain ⟨x', t, got, -, -, -, hpushed, -, -, hround⟩ :=
    receiveRound_frame (r := ⟨(Pipeline.start id fun _ => none).kernel, [.chunk b bs], []⟩)
      hs hin h.nonempty h.line h.string (by decide) hopen
  have hheader : incoming [Arrival.chunk b bs] = putHeader name ++ sizeBytes 0 := by
    simp only [incoming, List.append_nil, hbs]
  exact ⟨t, 1, _, _, x', none, sizeBytes 0, got, fun _ => hopens, hs, hheader, hround 1 (by decide),
    hpushed⟩

theorem length_commandLine (name : Bytes) :
    (commandLine name (outputName name)).length = 2 * name.length + 23 := by
  simp only [commandLine, outputName, outputFileFormat, List.length_append, List.length_cons,
    List.length_nil]
  omega

/-- Only the shell command is too long for its buffer, and only where there is
one. -/
theorem WayFits.of_length (h : Sendable name) (hlen : name.length ≤ 1019) :
    WayFits opens name ↔ name.length ≤ 500 ∨ opens name = false := by
  have hput : (putHeader name).length = name.length + 5 := by
    simp [putHeader, putVerb]
  constructor
  · intro hfit
    by_cases hopens : opens name = true
    · obtain ⟨t, ht⟩ := pushes_of_opens h hopens
      obtain ⟨-, hi, ho⟩ := ht.names h
      have := hfit.command t ht name _ hi ho
      rw [length_commandLine] at this
      exact Or.inl (by omega)
    · exact Or.inr (Bool.eq_false_of_not_eq_true hopens)
  · intro hcond
    refine ⟨by omega, ?_, ?_⟩
    · intro t ht filename output hf ho
      obtain ⟨hopens, hi, hout⟩ := ht.names h
      obtain rfl := Option.some.inj (hi.symm.trans hf)
      obtain rfl := Option.some.inj (hout.symm.trans ho)
      have hle : name.length ≤ 500 :=
        hcond.resolve_right fun hno => Bool.false_ne_true (hno.symm.trans hopens)
      rw [length_commandLine]
      omega
    · intro t ht filename v name' hf hv
      obtain ⟨-, hi, -⟩ := ht.names h
      obtain rfl := Option.some.inj (hi.symm.trans hf)
      rw [createHeader_dropLast, headerOf_headerLine h] at hv
      obtain ⟨-, rfl⟩ := Prod.mk.inj (Option.some.inj hv)
      rw [List.length_dropLast, hput, bufSize]
      omega

/-- **Names and buffers.** For every header line of at most 1023 bytes that
`get_command` accepts, in whatever parts it has come, and every worker, its name
fits all the buffers on its way if and only if it has at most 500 bytes or the
worker cannot open a file of that name. -/
theorem names_fit_iff (opens : Bytes → Bool) (hs : readable s = bs ++ newline :: rest)
    (hnl : newline ∉ w.command ++ bs) (hlen : (w.command ++ bs).length ≤ 1023)
    (h : getCommand s w = some r) (hret : r.ret = .doneSending) :
    ∃ name, r.w.tempFileName = some name
      ∧ (WayFits opens name ↔ name.length ≤ 500 ∨ opens name = false) := by
  obtain ⟨v, name, hhead, hname⟩ := getCommand_accepts hs hnl h hret
  obtain ⟨hsend, hle⟩ := headerOf_sendable hhead hnl
  exact ⟨name, hname, WayFits.of_length hsend (by omega)⟩

/-! ## A directory -/

/-- `open` in a directory that has no subdirectories: the path has at most 4095
bytes, no component has more than 255, all but the last are the directory
itself, and the last is an entry of it. -/
def opensInside (path : Bytes) : Bool :=
  let components := path.splitOn slash
  path.length ≤ 4095 && components.all (fun c => c.length ≤ 255)
    && components.dropLast.all (fun c => c == [46])
    && !([[], [46], [46, 46]].contains (components.getLastD []))

/-- `PUT a`, on a new connection. -/
theorem names_fit_iff_short :
    ∃ name, ((getCommand ((putHeader [97]).map .byte) default).bind fun r => r.w.tempFileName) =
      some name ∧ (WayFits opensInside name ↔ name.length ≤ 500 ∨ opensInside name = false) := by
  obtain ⟨r, hr⟩ : ∃ r, getCommand ((putHeader [97]).map .byte) default = some r := ⟨_, rfl⟩
  have hret : r.ret = .doneSending := by
    obtain rfl := Option.some.inj hr
    rfl
  have hs : readable ((putHeader [97]).map .byte) = [80, 85, 84, 32, 97] ++ newline :: [] := by decide
  obtain ⟨name, hname, hfit⟩ := names_fit_iff opensInside hs (by decide) (by decide) hr hret
  exact ⟨name, by rw [hr]; exact hname, hfit⟩

/-- 250 times `./`, and `a`. -/
def dottedName : Bytes := (List.replicate 250 [46, slash]).flatten ++ [97]

/-- `INTERFACE_PUT` with this name of 501 bytes is accepted; it is the file `a`
of the directory, and its command line does not fit. -/
theorem long_name_overflows :
    ∃ r, getCommand ((headerLine .interfacePut dottedName ++ [newline]).map .byte) default = some r
      ∧ r.ret = .doneSending ∧ r.w.tempFileName = some dottedName
      ∧ opensInside dottedName = true ∧ ¬ WayFits opensInside dottedName := by
  have hsend : Sendable dottedName := by decide +kernel
  have hopens : opensInside dottedName = true := by decide +kernel
  have hread : ((getCommand ((headerLine .interfacePut dottedName ++ [newline]).map .byte)
      default).map fun r => (r.ret, r.w.tempFileName)) = some (.doneSending, some dottedName) := by
    decide +kernel
  obtain ⟨r, hr, hv⟩ := Option.map_eq_some_iff.mp hread
  obtain ⟨hret, hname⟩ := Prod.mk.inj hv
  have hlen : dottedName.length = 501 := by decide +kernel
  refine ⟨r, hr, hret, hname, hopens, ?_⟩
  intro hfit
  rcases (WayFits.of_length hsend (by rw [hlen]; decide)).mp hfit with hle | hclosed
  · rw [hlen] at hle
    omega
  · rw [hopens] at hclosed
    cases hclosed

end KeyLime
