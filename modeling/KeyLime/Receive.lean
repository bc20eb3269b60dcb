import Mathlib.Algebra.Ring.Int.Defs
import Mathlib.Data.List.TakeWhile
import KeyLime.Intake
import KeyLime.Delivery
import KeyLime.Pipeline

/-!
# The worker's receive loop

The loop of `worker_main`, byte by byte: a header line, the size, the file of
the program and its output file, and the task that is pushed. Its socket
blocks; how the bytes are cut into reads is not in the worker's hands. The
functions are those of `worker.c` on a stream of arrivals (`Intake`), in which an
interrupted read, a short one, the end and an error are told apart where the
source tells them apart: some of its callers look at the number of bytes, some
only for -1.

`printf` of the request is left out, and nobody interrupts the worker, so
`quitting` is 0. What lies in memory that nothing has been read into is an
input (`RoundIo`). The reads of a file go on when the stream is over, so the
loop takes fuel and is `none` when it has not come to an end. More fuel never
changes a result (`receive_mono`): "it ends with this" is "for some fuel", and
"it never ends" is "for no fuel".

What is proved here goes forward, from the bytes: a file of which all is there is
read and nothing behind it (`readFileFromSocket_spec`), one of which some is
missing is never done with (`readFileFromSocket_stuck`), a frame makes a task
(`receiveRound_frame`), and so do all of a list (`receive_frames`).
-/

namespace KeyLime

open Intake Resume

/-- What memory and the kernel give in one round: what the line buffer and
the `size_t` hold before anything is read into them, whether the two files
can be opened, and what the writes to the program's file do. -/
structure RoundIo where
  line : Nat → UInt8
  size : Nat → UInt8
  openOk : Bool
  outputOk : Bool
  writes : List Outcome

structure Receiver where
  kernel : Kernel
  stream : List (Arrival UInt8)
  /-- History: the tasks pushed onto `task_queue`, with what the file of the
  program held then. -/
  pushed : List (WorkerTask × Option Bytes)

/-- How the loop ends: with `break`, or in `exit(-1)`. -/
inductive Ended where
  | left
  | exited
deriving DecidableEq, Repr

/-- A `size_t` as an `ssize_t`. -/
def asSigned (n : Nat) : Int :=
  if n % 2 ^ 64 < 2 ^ 63 then (n % 2 ^ 64 : Nat) else (n % 2 ^ 64 : Nat) - 2 ^ 64

/-- The `size_t` whose bytes are `mem`. -/
def sizeAt (mem : Nat → UInt8) : Nat := (List.range 8).foldl (fun x i => setByte x i (mem i)) 0

def readFromSocket (count : Nat) (s : List (Arrival UInt8)) : Option Bytes × List (Arrival UInt8) :=
  readCount count s

def readLineFromSocket (s : List (Arrival UInt8)) : Option Bytes × List (Arrival UInt8) :=
  readLine newline s

/-- `read_size_from_socket`: a short read leaves the other bytes as they were. -/
def readSizeFromSocket (mem : Nat → UInt8) (s : List (Arrival UInt8)) :
    Option Nat × List (Arrival UInt8) :=
  let (got, s) := readFromSocket 8 s
  (got.map fun bs => sizeAt (overwrite mem bs), s)

/-- `write(local_file_fd, buffer, byteRead)`, whose result is not looked at. -/
def writeLocal (k : Kernel) (fd : Int) (blk : Bytes) : List Outcome → List Outcome × Kernel
  | [] => ([], k.put fd blk)
  | .take n :: os => (os, k.put fd (blk.take (n + 1)))
  | _ :: os => (os, k)

/-- The loop of `read_file_from_socket`, where `total` bytes have been read. -/
def readFileFromSocket (fd : Int) : Nat → Nat → Nat → List Outcome → List (Arrival UInt8) → Kernel →
    Option (Int × List (Arrival UInt8) × Kernel)
  | 0, _, _, _, _, _ => none
  | fuel + 1, remain, total, os, s, k =>
      match readFromSocket (if fileBufferSize ≤ remain then fileBufferSize else remain) s with
      | (none, s) => some (-1, s, k)
      | (some blk, s) =>
          let (os, k) := writeLocal k fd blk os
          if remain - blk.length = 0 then some (asSigned (total + blk.length), s, k)
          else readFileFromSocket fd fuel (remain - blk.length) (total + blk.length) os s k

/-- `read_file`, where `none` inside is `exit(-1)`. There is no file of the
empty name. -/
def readFile (fuel : Nat) (io : RoundIo) (name : Bytes) (s : List (Arrival UInt8)) (k : Kernel) :
    Option (Option (List (Arrival UInt8) × Kernel)) :=
  match readSizeFromSocket io.size s with
  | (none, _) => some none
  | (some size, s) =>
      let (fd, k) := k.openWithAllPermission name (io.openOk && name ≠ [])
      if fd = -1 then some none
      else
        (readFileFromSocket fd fuel size 0 io.writes s k).map fun (ret, s, k) =>
          if ret < 0 then none else some (s, k.close fd)

/-- `get_filename_from_header`, with `verb_size` 3. -/
def getFilenameFromHeader (header : Bytes) : Option Bytes :=
  if header.length < 5 then none else some (cstr ((header.drop 4).take (header.length - 5)))

/-- What a round does when `read_file` has come back. -/
def pushTask (io : RoundIo) (filename : Bytes) (r : Receiver) :
    Option (List (Arrival UInt8) × Kernel) → Option Ended × Receiver
  | none => (some .exited, r)
  | some (s, k) =>
      let (fd, output, k) := createOutputFile k filename io.outputOk
      let newTask : WorkerTask :=
        { seq := r.pushed.length, inputFilename := some filename, outputFilename := some output
          outputFd := fd }
      (none, { kernel := k, stream := s
               pushed := r.pushed ++ [(newTask, k.store (k.resolve filename))] })

/-- What a round does with a line that is there. -/
def handleRequest (fuel : Nat) (io : RoundIo) (request : Bytes) (r : Receiver) :
    Option (Option Ended × Receiver) :=
  if fetch (overwrite io.line request) 3 ≠ putVerb then some (none, r)
  else
    match getFilenameFromHeader request with
    | none => some (none, r)
    | some filename => (readFile fuel io filename r.stream r.kernel).map (pushTask io filename r)

/-- One round of the loop. -/
def receiveRound (fuel : Nat) (io : RoundIo) (r : Receiver) : Option (Option Ended × Receiver) :=
  match readLineFromSocket r.stream with
  | (none, s) => some (some .exited, { r with stream := s })
  | (some request, s) =>
      if request = [] then some (some .left, { r with stream := s })
      else handleRequest fuel io request { r with stream := s }

/-- The loop, from the round with the number `i` on. -/
def receive (io : Nat → RoundIo) : Nat → Nat → Receiver → Option (Ended × Receiver)
  | 0, _, _ => none
  | fuel + 1, i, r =>
      match receiveRound fuel (io i) r with
      | none => none
      | some (some e, r) => some (e, r)
      | some (none, r) => receive io fuel (i + 1) r

variable {io : RoundIo} {r r' : Receiver} {k k' : Kernel} {s s' : List (Arrival UInt8)}
  {fuel fuel' remain total : Nat} {os : List Outcome} {fd : Int} {name payload rest : Bytes}

/-! ## The size -/

theorem sizeAt_prefix {mem : Nat → UInt8} {n j : Nat} (h : ∀ i < j, mem i = UInt8.ofNat (n / 256 ^ i)) :
    (List.range j).foldl (fun x i => setByte x i (mem i)) 0 = n % 256 ^ j := by
  induction j with
  | zero => simp [Nat.mod_one]
  | succ j ih =>
      rw [List.range_succ, List.foldl_append, ih fun i hi => h i (by omega)]
      rw [List.foldl_cons, List.foldl_nil, h j (by omega), setByte_mod]

theorem sizeAt_sizeBytes {mem : Nat → UInt8} {n : Nat} (h : n < 2 ^ 64) :
    sizeAt (overwrite mem (sizeBytes n)) = n := by
  rw [sizeAt, sizeAt_prefix (n := n) fun i hi => ?_]
  · exact Nat.mod_eq_of_lt h
  · simp [overwrite, sizeBytes, hi]

/-! ## The file -/

theorem writeLocal_resolve (k : Kernel) (fd : Int) (blk : Bytes) (os : List Outcome) :
    (writeLocal k fd blk os).2.resolve = k.resolve := by
  cases os with
  | nil => simp [writeLocal]
  | cons o os => cases o <;> simp [writeLocal]

theorem block_le (remain : Nat) :
    (if fileBufferSize ≤ remain then fileBufferSize else remain) ≤ remain := by
  split <;> omega

theorem block_pos (remain : Nat) (h : remain ≠ 0) :
    0 < if fileBufferSize ≤ remain then fileBufferSize else remain := by
  unfold fileBufferSize
  split <;> omega

theorem readFileFromSocket_spec (fd : Int) (k : Kernel) (os : List Outcome) (total : Nat)
    (hs : Arrival.err ∉ s) (hle : remain ≤ (incoming s).length) (hfuel : remain < fuel) :
    ∃ s' k', readFileFromSocket fd fuel remain total os s k =
        some (asSigned (total + remain), s', k') ∧
      incoming s' = (incoming s).drop remain ∧ Arrival.err ∉ s' ∧ k'.resolve = k.resolve ∧
      (os = [] → k' = k.put fd ((incoming s).take remain)) := by
  induction fuel generalizing remain total os s k with
  | zero => omega
  | succ fuel ih =>
      have hblock := block_le remain
      have hpos := block_pos remain
      unfold readFileFromSocket
      generalize (if fileBufferSize ≤ remain then fileBufferSize else remain) = n at hblock hpos
      obtain ⟨s₁, hread, hin, herr⟩ := readCount_spec n hs
      have hlen : ((incoming s).take n).length = n := by
        rw [List.length_take]
        omega
      have hres := writeLocal_resolve k fd ((incoming s).take n) os
      simp only [readFromSocket, hread, hlen]
      split
      · rename_i h0
        obtain rfl : n = remain := by omega
        refine ⟨_, _, rfl, hin, herr, hres, ?_⟩
        rintro rfl
        rfl
      · rename_i h0
        have hn : 0 < n := hpos (by omega)
        obtain ⟨s', k', hrest, hin', herr', hres', hput⟩ :=
          ih (writeLocal k fd ((incoming s).take n) os).2 (writeLocal k fd ((incoming s).take n) os).1
            (total + n) herr (show remain - n ≤ _ by rw [hin, List.length_drop]; omega) (by omega)
        have htotal : total + n + (remain - n) = total + remain := by omega
        rw [hrest, htotal]
        refine ⟨s', k', rfl, ?_, herr', hres'.trans hres, ?_⟩
        · rw [hin', hin, List.drop_drop]
          congr 1
          omega
        · rintro rfl
          rw [hput rfl, hin]
          show (k.put fd _).put fd _ = _
          rw [Kernel.put_append, ← List.take_add]
          congr 2
          omega

/-- Where some of the file is missing, the loop goes on for ever: at the end of
the stream every read returns 0, and 0 bytes are left only of a whole file. -/
theorem readFileFromSocket_stuck (os : List Outcome) (total : Nat) (hs : Arrival.err ∉ s)
    (hlt : (incoming s).length < remain) : readFileFromSocket fd fuel remain total os s k = none := by
  induction fuel generalizing remain total os s k with
  | zero => rfl
  | succ fuel ih =>
      have hblock := block_le remain
      unfold readFileFromSocket
      generalize (if fileBufferSize ≤ remain then fileBufferSize else remain) = n at hblock
      obtain ⟨s₁, hread, hin, herr⟩ := readCount_spec n hs
      have hlen := List.length_take_le' n (incoming s)
      simp only [readFromSocket, hread]
      rw [if_neg (by omega)]
      refine ih _ _ herr ?_
      rw [hin, List.length_drop, List.length_take]
      omega

theorem readFileFromSocket_mono {v : Int × List (Arrival UInt8) × Kernel} (hle : fuel ≤ fuel')
    (h : readFileFromSocket fd fuel remain total os s k = some v) :
    readFileFromSocket fd fuel' remain total os s k = some v := by
  induction fuel generalizing fuel' remain total os s k with
  | zero => cases h
  | succ fuel ih =>
      obtain ⟨m, rfl⟩ : ∃ m, fuel' = m + 1 := ⟨fuel' - 1, by omega⟩
      unfold readFileFromSocket at h ⊢
      split at h
      · exact h
      · simp only at h ⊢
        split at h
        · rename_i h0
          rw [if_pos h0]
          exact h
        · rename_i h0
          rw [if_neg h0]
          exact ih (by omega) h

/-! ## The requests -/

theorem readSizeFromSocket_spec (mem : Nat → UInt8) (hs : Arrival.err ∉ s) :
    ∃ s', readSizeFromSocket mem s = (some (sizeAt (overwrite mem ((incoming s).take 8))), s') ∧
      incoming s' = (incoming s).drop 8 ∧ Arrival.err ∉ s' := by
  obtain ⟨s', hread, h⟩ := readCount_spec 8 hs
  refine ⟨s', ?_, h⟩
  simp only [readSizeFromSocket, readFromSocket, hread, Option.map_some]

theorem asSigned_of_lt {n : Nat} (h : n < 2 ^ 63) : asSigned n = n := by
  unfold asSigned
  rw [if_pos (by omega)]
  omega

theorem readFile_opened {size : Nat} (hread : readSizeFromSocket io.size s = (some size, s'))
    (hname : name ≠ []) (hopen : io.openOk = true) :
    readFile fuel io name s k =
      (readFileFromSocket k.nextFd fuel size 0 io.writes s' (k.openWithAllPermission name true).2).map
        fun (ret, s, k') => if ret < 0 then none else some (s, k'.close k.nextFd) := by
  have hok : (io.openOk && decide (name ≠ [])) = true := by simp [hopen, hname]
  unfold readFile
  rw [hread]
  simp only [hok]
  exact if_neg (by show (k.nextFd : Int) ≠ -1; omega)

section
variable {size : Nat} {body : Bytes}
  (hsize : sizeAt (overwrite io.size ((incoming s).take 8)) = size)
  (hbody : (incoming s).drop 8 = body)
include hsize hbody

theorem readFile_whole (k : Kernel) (hs : Arrival.err ∉ s) (hname : name ≠ [])
    (hopen : io.openOk = true) (hle : size ≤ body.length) (hlt : size < 2 ^ 63)
    (hfuel : size < fuel) :
    ∃ s' k', readFile fuel io name s k = some (some (s', k')) ∧
      incoming s' = body.drop size ∧ Arrival.err ∉ s' ∧ k'.resolve = k.resolve ∧
      (io.writes = [] → k'.store (k.resolve name) = some (body.take size)) := by
  obtain ⟨s₁, hread, hin, herr⟩ := readSizeFromSocket_spec io.size hs
  rw [hsize] at hread
  rw [hbody] at hin
  obtain ⟨s', k', hfile, hin', herr', hres, hput⟩ :=
    readFileFromSocket_spec k.nextFd (k.openWithAllPermission name true).2 io.writes 0 herr
      (by rw [hin]; exact hle) hfuel
  refine ⟨s', k'.close k.nextFd, ?_, by rw [hin', hin], herr', hres, ?_⟩
  · rw [readFile_opened hread hname hopen, hfile, Nat.zero_add, asSigned_of_lt hlt]
    exact congrArg some (if_neg (by omega))
  · intro hw
    rw [hput hw, hin]
    have hstore : (k.openWithAllPermission name true).2.store (k.resolve name) = some [] :=
      Function.update_self ..
    have hdesc : (k.openWithAllPermission name true).2.desc k.nextFd =
        some (.file (k.resolve name) ([] : Bytes).length) := Function.update_self ..
    exact (Kernel.put_at_end _ hstore hdesc).1

theorem readFile_stuck (k : Kernel) (hs : Arrival.err ∉ s) (hname : name ≠ [])
    (hopen : io.openOk = true) (hlt : body.length < size) : readFile fuel io name s k = none := by
  obtain ⟨s₁, hread, hin, herr⟩ := readSizeFromSocket_spec io.size hs
  rw [hsize] at hread
  rw [hbody] at hin
  rw [readFile_opened hread hname hopen, readFileFromSocket_stuck _ _ herr (by rw [hin]; exact hlt)]
  rfl

end

theorem readFile_unnamed (k : Kernel) (hs : Arrival.err ∉ s) :
    readFile fuel io [] s k = some none := by
  obtain ⟨s₁, hread, -⟩ := readSizeFromSocket_spec io.size hs
  unfold readFile
  rw [hread]
  simp [Kernel.openWithAllPermission]

theorem readFile_mono {v : Option (List (Arrival UInt8) × Kernel)} (hle : fuel ≤ fuel')
    (h : readFile fuel io name s k = some v) : readFile fuel' io name s k = some v := by
  unfold readFile at h ⊢
  split at h
  · exact h
  · simp only at h ⊢
    split at h
    · rename_i hfd
      rw [if_pos hfd]
      exact h
    · rename_i hfd
      rw [if_neg hfd]
      obtain ⟨x, hx, rfl⟩ := Option.map_eq_some_iff.mp h
      rw [readFileFromSocket_mono hle hx]
      rfl

theorem handleRequest_mono {request : Bytes} {v : Option Ended × Receiver} (hle : fuel ≤ fuel')
    (h : handleRequest fuel io request r = some v) : handleRequest fuel' io request r = some v := by
  unfold handleRequest at h ⊢
  split at h
  · rename_i hne
    rw [if_pos hne]
    exact h
  · rename_i hne
    rw [if_neg hne]
    split at h
    · exact h
    · obtain ⟨x, hx, rfl⟩ := Option.map_eq_some_iff.mp h
      rw [readFile_mono hle hx]
      rfl

theorem handleRequest_short {request : Bytes} (h : request.length < 5) :
    handleRequest fuel io request r = some (none, r) := by
  unfold handleRequest getFilenameFromHeader
  rw [if_pos h]
  split <;> rfl

theorem handleRequest_put (fuel : Nat) (io : RoundIo) (r : Receiver) (tail : Bytes)
    (hne : tail ≠ []) (h0 : (0 : UInt8) ∉ tail.dropLast) :
    handleRequest fuel io (putVerb ++ [space] ++ tail) r =
      (readFile fuel io tail.dropLast r.stream r.kernel).map (pushTask io tail.dropLast r) := by
  have hlen : (putVerb ++ [space] ++ tail).length = tail.length + 4 := by
    simp [putVerb]
  have hpos := List.length_pos_of_ne_nil hne
  have hverb : fetch (overwrite io.line (putVerb ++ [space] ++ tail)) 3 = putVerb := rfl
  have hname : getFilenameFromHeader (putVerb ++ [space] ++ tail) = some tail.dropLast := by
    unfold getFilenameFromHeader
    rw [if_neg (by omega), hlen]
    have htake : ((putVerb ++ [space] ++ tail).drop 4).take (tail.length + 4 - 5) = tail.dropLast := by
      rw [List.dropLast_eq_take]
      rfl
    rw [htake, cstr, List.takeWhile_eq_self_iff.mpr fun b hb => ?_]
    simp only [ne_eq, decide_eq_true_eq]
    rintro rfl
    exact h0 hb
  unfold handleRequest
  rw [hverb, if_neg (by simp), hname]

/-! ## The rounds -/

theorem receiveRound_line (io : RoundIo) {line : Bytes} (hs : Arrival.err ∉ r.stream)
    (hline : (lineCollector newline).feed [] (incoming r.stream) = (line, rest)) (hne : line ≠ []) :
    ∃ s', incoming s' = rest ∧ Arrival.err ∉ s' ∧ ∀ fuel,
      receiveRound fuel io r = handleRequest fuel io line { r with stream := s' } := by
  obtain ⟨s', hread, hin, herr⟩ := readLine_spec newline hs
  rw [hline] at hread hin
  refine ⟨s', hin, herr, ?_⟩
  intro fuel
  simp only [receiveRound, readLineFromSocket, hread, if_neg hne]

theorem receiveRound_end (io : RoundIo) (hs : Arrival.err ∉ r.stream) (hin : incoming r.stream = []) :
    ∃ s', ∀ fuel, receiveRound fuel io r = some (some .left, { r with stream := s' }) := by
  obtain ⟨s', hread, -⟩ := readLine_spec newline hs
  rw [hin] at hread
  refine ⟨s', ?_⟩
  intro fuel
  simp only [receiveRound, readLineFromSocket, hread, Consumer.feed_nil, if_pos]

theorem receiveRound_mono {v : Option Ended × Receiver} (hle : fuel ≤ fuel')
    (h : receiveRound fuel io r = some v) : receiveRound fuel' io r = some v := by
  unfold receiveRound at h ⊢
  split at h
  · exact h
  · split at h
    · rename_i hnil
      rw [if_pos hnil]
      exact h
    · rename_i hne
      rw [if_neg hne]
      exact handleRequest_mono hle h

/-- A task is pushed, and its program is in its file unless the output file
is the same one. -/
theorem pushTask_spec (io : RoundIo) (name : Bytes) (r : Receiver) (s : List (Arrival UInt8))
    (k : Kernel) :
    ∃ r' t got, pushTask io name r (some (s, k)) = (none, r') ∧ r'.stream = s ∧
      r'.kernel.resolve = k.resolve ∧ r'.pushed = r.pushed ++ [(t, got)] ∧
      t.inputFilename = some name ∧
      (k.resolve (outputName name) ≠ k.resolve name → got = k.store (k.resolve name)) := by
  unfold pushTask createOutputFile
  cases io.outputOk with
  | false => exact ⟨_, _, _, rfl, rfl, rfl, rfl, rfl, fun _ => rfl⟩
  | true =>
      exact ⟨_, _, _, rfl, rfl, rfl, rfl, rfl, fun hne => Function.update_of_ne hne.symm _ _⟩

theorem receiveRound_frame (hs : Arrival.err ∉ r.stream)
    (hin : incoming r.stream = putHeader name ++ sizeBytes payload.length ++ payload ++ rest)
    (hname : name ≠ []) (hnl : newline ∉ name) (h0 : (0 : UInt8) ∉ name) (hlt : payload.length < 2 ^ 63)
    (hopen : io.openOk = true) :
    ∃ r' t got, incoming r'.stream = rest ∧ Arrival.err ∉ r'.stream ∧
      r'.kernel.resolve = r.kernel.resolve ∧ r'.pushed = r.pushed ++ [(t, got)] ∧
      t.inputFilename = some name ∧
      (io.writes = [] → r.kernel.resolve (outputName name) ≠ r.kernel.resolve name →
        got = some payload) ∧
      ∀ fuel, payload.length < fuel → receiveRound fuel io r = some (none, r') := by
  have hnl' : newline ∉ putVerb ++ [space] ++ name := by
    simp only [List.mem_append, not_or]
    exact ⟨⟨by decide, by decide⟩, hnl⟩
  have hline : (lineCollector newline).feed [] (incoming r.stream) =
      (putVerb ++ [space] ++ (name ++ [newline]), sizeBytes payload.length ++ payload ++ rest) := by
    rw [hin]
    simpa [putHeader] using collect_line hnl'
  obtain ⟨s₁, hin₁, herr₁, hround⟩ := receiveRound_line io hs hline (by simp)
  have hlen := sizeBytes_length payload.length
  have hsize : sizeAt (overwrite io.size ((incoming s₁).take 8)) = payload.length := by
    rw [hin₁, List.append_assoc, List.take_left' hlen, sizeAt_sizeBytes (by omega)]
  have hbody : (incoming s₁).drop 8 = payload ++ rest := by
    rw [hin₁, List.append_assoc, List.drop_left' hlen]
  obtain ⟨s', k', hread, hin', herr', hres, hstore⟩ :=
    readFile_whole hsize hbody r.kernel herr₁ hname hopen (by simp) hlt (Nat.lt_succ_self _)
  have hdrop : (name ++ [newline]).dropLast = name := List.dropLast_concat
  have hput := handleRequest_put (payload.length + 1) io { r with stream := s₁ }
    (name ++ [newline]) (by simp) (by rw [hdrop]; exact h0)
  rw [hdrop, hread] at hput
  obtain ⟨r', t, got, hpush, hr', hres', hpushed, ht, hgot⟩ :=
    pushTask_spec io name { r with stream := s₁ } s' k'
  rw [Option.map_some, hpush] at hput
  refine ⟨r', t, got, ?_, hr' ▸ herr', hres'.trans hres, hpushed, ht, fun hw hne => ?_,
    fun fuel hfuel => ?_⟩
  · rw [hr', hin', List.drop_left]
  · rw [hgot (by rw [hres]; exact hne), hres, hstore hw, List.take_left]
  · rw [hround]
    exact handleRequest_mono hfuel hput

/-! ## The loop -/

theorem receive_mono {ios : Nat → RoundIo} {i : Nat} {v : Ended × Receiver} (hle : fuel ≤ fuel')
    (h : receive ios fuel i r = some v) : receive ios fuel' i r = some v := by
  induction fuel generalizing fuel' i r with
  | zero => cases h
  | succ fuel ih =>
      obtain ⟨m, rfl⟩ : ∃ m, fuel' = m + 1 := ⟨fuel' - 1, by omega⟩
      unfold receive at h ⊢
      cases hround : receiveRound fuel (ios i) r with
      | none =>
          rw [hround] at h
          cases h
      | some x =>
          obtain ⟨e, r'⟩ := x
          rw [receiveRound_mono (by omega) hround]
          rw [hround] at h
          cases e with
          | some e => exact h
          | none => exact ih (by omega) h

section
variable {ios : Nat → RoundIo} {i : Nat} {e : Ended}

theorem receive_stuck (h : receiveRound fuel (ios i) r = none) : receive ios (fuel + 1) i r = none := by
  rw [receive, h]

theorem receive_ended (h : receiveRound fuel (ios i) r = some (some e, r')) :
    receive ios (fuel + 1) i r = some (e, r') := by
  rw [receive, h]

theorem receive_next (h : receiveRound fuel (ios i) r = some (none, r')) :
    receive ios (fuel + 1) i r = receive ios fuel (i + 1) r' := by
  rw [receive, h]

theorem receive_end (ios : Nat → RoundIo) (i : Nat) (hs : Arrival.err ∉ r.stream)
    (hin : incoming r.stream = []) (fuel : Nat) :
    ∃ s', receive ios (fuel + 1) i r = some (.left, { r with stream := s' }) := by
  obtain ⟨s', hround⟩ := receiveRound_end (ios i) hs hin
  exact ⟨s', receive_ended (hround fuel)⟩

end

/-- A frame, as the master writes it. -/
def putFrame (f : Bytes × Bytes) : Bytes :=
  putHeader f.1 ++ sizeBytes f.2.length ++ f.2

/-- A name that fills a header line, and a payload that fits a file: `off_t`
is signed. -/
def Framed (f : Bytes × Bytes) : Prop :=
  f.1 ≠ [] ∧ newline ∉ f.1 ∧ (0 : UInt8) ∉ f.1 ∧ f.2.length < 2 ^ 63

instance (f : Bytes × Bytes) : Decidable (Framed f) :=
  inferInstanceAs (Decidable (_ ∧ _ ∧ _ ∧ _))

/-- One task for each frame, in order. If no write to the disk fails and the
two files of a task are not the same one, each program is in its file. -/
def Pushed (ios : Nat → RoundIo) (resolve : Bytes → Bytes) :
    List (WorkerTask × Option Bytes) → List (Bytes × Bytes) → Prop :=
  List.Forall₂ fun p f => p.1.inputFilename = some f.1 ∧
    ((∀ i, (ios i).writes = []) → resolve (outputName f.1) ≠ resolve f.1 → p.2 = some f.2)

theorem receive_frames {ios : Nat → RoundIo} {frames : List (Bytes × Bytes)}
    (hopen : ∀ i, (ios i).openOk = true) (hframes : ∀ f ∈ frames, Framed f) :
    ∀ (i : Nat) (r : Receiver), Arrival.err ∉ r.stream →
      incoming r.stream = (frames.map putFrame).flatten ++ rest →
      ∃ r' ps n, incoming r'.stream = rest ∧ Arrival.err ∉ r'.stream ∧
        r'.kernel.resolve = r.kernel.resolve ∧ r'.pushed = r.pushed ++ ps ∧
        Pushed ios r.kernel.resolve ps frames ∧
        ∀ fuel, n ≤ fuel → receive ios (frames.length + fuel) i r =
          receive ios fuel (i + frames.length) r' := by
  induction frames with
  | nil =>
      intro i r hs hin
      exact ⟨r, [], 0, hin, hs, rfl, (List.append_nil _).symm, .nil, fun fuel _ => by simp⟩
  | cons f frames ih =>
      intro i r hs hin
      obtain ⟨hname, hnl, h0, hlt⟩ := hframes f List.mem_cons_self
      rw [List.map_cons, List.flatten_cons, List.append_assoc] at hin
      obtain ⟨r₁, t, got, hin₁, hs₁, hres₁, hpushed₁, ht, hgot, hround⟩ :=
        receiveRound_frame hs hin hname hnl h0 hlt (hopen i)
      obtain ⟨r', ps, n, hin', hs', hres', hpushed', hps, hrun⟩ :=
        ih (fun f hf => hframes f (List.mem_cons_of_mem _ hf)) (i + 1) r₁ hs₁ hin₁
      refine ⟨r', (t, got) :: ps, max n (f.2.length + 1), hin', hs', hres'.trans hres₁, ?_,
        .cons ⟨ht, fun hw hdir => hgot (hw i) hdir⟩ (hres₁ ▸ hps), fun fuel hfuel => ?_⟩
      · rw [hpushed', hpushed₁, List.append_assoc]
        rfl
      · have hlen : (f :: frames).length + fuel = (frames.length + fuel) + 1 := by
          rw [List.length_cons]
          omega
        have hnext : i + (f :: frames).length = i + 1 + frames.length := by
          rw [List.length_cons]
          omega
        rw [hlen, hnext, ← hrun fuel (by omega)]
        exact receive_next (hround _ (by omega))

end KeyLime
