import KeyLime.Run
import KeyLime.Pipeline
import KeyLime.Delivery

/-!
# The two senders of frames

`send_request`, `get_user_file_size` and `write_binary_data` of the
interface, and `write_size_to_socket` and `write_file_to_socket` of the
worker, over their write loops. Interrupted and partial writes are retried,
so on a connection that accepts bytes each of them emits one frame
(`submit_sent`, `sendBack_sent`).

A stdio stream is the list of bytes it still has to read, and stored files
are read without an error.

The two programs build their frames in different ways from the same three parts,
and each of them in its own buffer, whose contents the worker does not
initialise: it sends what its block buffer holds, whether a `read` has filled it
or not. With files that are read in full that makes no difference, which is what
is shown here; what happens otherwise is the subject of `ShortReads`. The
interface puts its header line together in a buffer of 1024 bytes, and the model
of `send_request` is undefined where the line does not fit.
-/

namespace KeyLime

/-! ## The write loops -/

/-- The loop of `my_write` and of `write_to_socket`: `total` bytes are out,
`buf` is still to go. Unlike the master's, it does not retry on `EAGAIN`. -/
def writeLoop (fd : Int) :
    List Outcome → Bytes → Int → Kernel → Int × List Outcome × Kernel
  | [], buf, total, k => (total + buf.length, [], k.put fd buf)
  | .intr :: os, buf, total, k => writeLoop fd os buf total k
  | .zero :: os, _, total, k => (total, os, k)
  | .again :: os, _, _, k => (-1, os, k)
  | .fail :: os, _, _, k => (-1, os, k)
  | .take n :: os, buf, total, k =>
      if buf.drop (n + 1) = [] then
        (total + (buf.take (n + 1)).length, os, k.put fd (buf.take (n + 1)))
      else
        writeLoop fd os (buf.drop (n + 1)) (total + (buf.take (n + 1)).length)
          (k.put fd (buf.take (n + 1)))

def myWrite (k : Kernel) (socket : Int) (buffer : Bytes) (os : List Outcome) :
    Int × List Outcome × Kernel :=
  if k.desc socket = none then (-1, os, k) else writeLoop socket os buffer 0 k

def writeToSocket (k : Kernel) (socket : Int) (buffer : Bytes) (os : List Outcome) :
    Int × List Outcome × Kernel :=
  if k.desc socket = none then (-1, os, k) else writeLoop socket os buffer 0 k

/-- The writes of a connection that is up: they may be partial or interrupted. -/
def Accepting (os : List Outcome) : Prop := ∀ o ∈ os, o ≠ .zero ∧ o ≠ .again ∧ o ≠ .fail

instance (os : List Outcome) : Decidable (Accepting os) :=
  inferInstanceAs (Decidable (∀ o ∈ os, o ≠ .zero ∧ o ≠ .again ∧ o ≠ .fail))

theorem Accepting.tail {o : Outcome} {os : List Outcome} (h : Accepting (o :: os)) :
    Accepting os := fun o' ho' => h o' (List.mem_cons_of_mem _ ho')

theorem writeLoop_accepting (fd : Int) {os : List Outcome} (hos : Accepting os) :
    ∀ (buf : Bytes) (total : Int) (k : Kernel), ∃ os', Accepting os'
      ∧ writeLoop fd os buf total k = (total + buf.length, os', k.put fd buf) := by
  induction os with
  | nil =>
      intro buf total k
      exact ⟨[], hos, rfl⟩
  | cons o os ih =>
      intro buf total k
      cases o with
      | intr => exact ih hos.tail buf total k
      | zero => exact ((hos .zero (List.mem_cons_self ..)).1 rfl).elim
      | again => exact ((hos .again (List.mem_cons_self ..)).2.1 rfl).elim
      | fail => exact ((hos .fail (List.mem_cons_self ..)).2.2 rfl).elim
      | take n =>
          rw [writeLoop]
          split
          · rename_i hdrop
            have htake : buf.take (n + 1) = buf := by
              have h := List.take_append_drop (n + 1) buf
              rwa [hdrop, List.append_nil] at h
            exact ⟨os, hos.tail, by rw [htake]⟩
          · obtain ⟨os', hos', heq⟩ := ih hos.tail (buf.drop (n + 1))
              (total + (buf.take (n + 1)).length) (k.put fd (buf.take (n + 1)))
            refine ⟨os', hos', ?_⟩
            have hlen := congrArg List.length (List.take_append_drop (n + 1) buf)
            rw [List.length_append] at hlen
            rw [heq, Kernel.put_append, List.take_append_drop]
            congr 1
            omega

theorem myWrite_accepting {k : Kernel} {socket : Int} {os : List Outcome} (buffer : Bytes)
    (hd : k.desc socket = some .sock) (hos : Accepting os) :
    ∃ os', Accepting os'
      ∧ myWrite k socket buffer os = ((buffer.length : Int), os', k.put socket buffer) := by
  obtain ⟨os', hos', heq⟩ := writeLoop_accepting socket hos buffer 0 k
  refine ⟨os', hos', ?_⟩
  rw [myWrite, if_neg (by simp [hd]), heq, Int.zero_add]

theorem writeToSocket_accepting {k : Kernel} {socket : Int} {os : List Outcome} (buffer : Bytes)
    (hd : k.desc socket = some .sock) (hos : Accepting os) :
    ∃ os', Accepting os'
      ∧ writeToSocket k socket buffer os = ((buffer.length : Int), os', k.put socket buffer) :=
  myWrite_accepting buffer hd hos

/-! ## The interface -/

def bufSize : Nat := 1024

/-- `send_request`: the line is put together in `buffer`, which has to hold
it and its NUL; `none` when it does not. -/
def sendRequest (k : Kernel) (sockFd : Int) (buffer localName : Bytes) (os : List Outcome) :
    Option (List Outcome × Kernel) :=
  let line := buffer ++ [space] ++ localName ++ [newline]
  if line.length < bufSize then some (myWrite k sockFd line os).2 else none

def getUserFileSize (k : Kernel) (filename : Bytes) : Nat :=
  ((k.store (k.resolve filename)).getD []).length

/-- `write_binary_data` from the stream `f`. Every round but the last takes
bytes off the stream, so its length is fuel enough. -/
def writeBinaryData (sockFd : Int) :
    Nat → Bytes → List Outcome → Kernel → List Outcome × Kernel
  | 0, _, os, k => (os, k)
  | fuel + 1, f, os, k =>
      if f.take bufSize = [] then (os, k)
      else
        let (_, os, k) := myWrite k sockFd (f.take bufSize) os
        writeBinaryData sockFd fuel (f.drop bufSize) os k

/-- What `interface_main` does with a file name: `none` when the file cannot
be read, which ends the program, and when the line is too long for it. -/
def submit (k : Kernel) (sockFd : Int) (name : Bytes) (os : List Outcome) :
    Option (List Outcome × Kernel) :=
  (k.store (k.resolve name)).bind fun f =>
    (sendRequest k sockFd interfacePutVerb name os).map fun (os, k) =>
      let (_, os, k) := myWrite k sockFd (sizeBytes (getUserFileSize k name)) os
      writeBinaryData sockFd (f.length + 1) f os k

theorem writeBinaryData_accepting {sockFd : Int} {fuel : Nat} {f : Bytes} {os : List Outcome}
    {k : Kernel} (hd : k.desc sockFd = some .sock) (hos : Accepting os) (hfuel : f.length < fuel) :
    (writeBinaryData sockFd fuel f os k).2 = k.put sockFd f := by
  induction fuel generalizing f os k with
  | zero => omega
  | succ fuel ih =>
      rw [writeBinaryData]
      split
      · rename_i hnil
        obtain rfl : f = [] := by
          cases f with
          | nil => rfl
          | cons b f => cases hnil
        simp
      · rename_i hne
        obtain ⟨os', hos', heq⟩ := myWrite_accepting (f.take bufSize) hd hos
        have hpos : 0 < (f.take bufSize).length := List.length_pos_of_ne_nil hne
        have hlen := congrArg List.length (List.take_append_drop bufSize f)
        rw [List.length_append] at hlen
        have hd' : (k.put sockFd (f.take bufSize)).desc sockFd = some .sock := by
          rw [Kernel.put_sock_desc hd, hd]
        rw [heq, ih hd' hos' (by omega), Kernel.put_append, List.take_append_drop]

/-- **The interface emits a frame.** -/
theorem submit_sent {k k' : Kernel} {sockFd : Int} {name payload : Bytes} {os os' : List Outcome}
    (hd : k.desc sockFd = some .sock) (hstore : k.store (k.resolve name) = some payload)
    (hos : Accepting os) (h : submit k sockFd name os = some (os', k')) :
    k'.sent sockFd = k.sent sockFd ++ Master.frame interfacePutVerb name payload := by
  rw [submit, hstore, Option.bind_some] at h
  obtain ⟨⟨os₁, k₁⟩, hreq, heq⟩ := Option.map_eq_some_iff.mp h
  rw [sendRequest] at hreq
  split at hreq
  · obtain ⟨os₂, hos₂, hw⟩ := myWrite_accepting
      (interfacePutVerb ++ [space] ++ name ++ [newline]) hd hos
    rw [hw] at hreq
    obtain ⟨rfl, rfl⟩ := Prod.mk.inj (Option.some.inj hreq)
    have hd₁ : (k.put sockFd (interfacePutVerb ++ [space] ++ name ++ [newline])).desc sockFd =
        some .sock := by
      rw [Kernel.put_sock_desc hd, hd]
    have hsize : getUserFileSize
        (k.put sockFd (interfacePutVerb ++ [space] ++ name ++ [newline])) name =
          payload.length := by
      rw [getUserFileSize, Kernel.put_sock hd]
      simp [hstore]
    obtain ⟨os₃, hos₃, hw₁⟩ := myWrite_accepting (sizeBytes payload.length) hd₁ hos₂
    have hd₂ := (congrFun (Kernel.put_sock_desc hd₁ (sizeBytes payload.length)) sockFd).trans hd₁
    simp only [hsize, hw₁] at heq
    have hk := congrArg Prod.snd heq
    rw [writeBinaryData_accepting hd₂ hos₃ (Nat.lt_succ_self _), Kernel.put_append,
      Kernel.put_append, Kernel.put_sock hd] at hk
    rw [← show _ = k' from hk]
    simp [Master.frame]
  · cases hreq

/-! ## The worker -/

def writeSizeToSocket (k : Kernel) (socket : Int) (size : Nat) (os : List Outcome) :
    Int × List Outcome × Kernel :=
  writeToSocket k socket (sizeBytes size) os

/-- The loop of `write_file_to_socket`: it does not look at what `read` has
returned, and sends what its buffer holds. Every round sends a byte or uses
up a `write` that has sent none. -/
def writeFileLoop (socket localFd : Int) :
    Nat → Nat → (Nat → UInt8) → List Outcome → Int → Kernel → Int × List Outcome × Kernel
  | fuel, remain, buffer, os, total, k =>
    if remain = 0 then (total, os, k)
    else
      match fuel with
      | 0 => (total, os, k)
      | fuel + 1 =>
          let count := if fileBufferSize ≤ remain then fileBufferSize else remain
          let (blk, k) := k.readFile localFd count
          let buffer := overwrite buffer blk
          let (byteWrote, os, k) := writeToSocket k socket (fetch buffer count) os
          if byteWrote = -1 then (-1, os, k)
          else
            writeFileLoop socket localFd fuel (remain - byteWrote.toNat) buffer os
              (total + byteWrote) k

/-- `write_file_to_socket`; `mem` is the memory `malloc` returns. -/
def writeFileToSocket (k : Kernel) (socket localFd : Int) (size : Nat) (mem : Nat → UInt8)
    (os : List Outcome) : Int × List Outcome × Kernel :=
  writeFileLoop socket localFd (size + os.length) size mem os 0 k

/-- What `sending` does with a task it has pulled; `false` when it gives up
and the thread ends. -/
def sendBack (k : Kernel) (socket : Int) (task : WorkerTask) (mem : Nat → UInt8)
    (os : List Outcome) : Option (Bool × List Outcome × Kernel) :=
  task.inputFilename.map fun name =>
    let (r, os, k) := writeToSocket k socket (createHeader name) os
    if r = -1 then (false, os, k)
    else
      let size := endOffset k task.outputFd
      let (r, os, k) := writeSizeToSocket (k.rewind task.outputFd) socket size os
      if r = -1 then (false, os, k)
      else
        let (r, os, k) := writeFileToSocket k socket task.outputFd size mem os
        if r = -1 then (false, os, k) else (true, os, k.close task.outputFd)

theorem writeFileLoop_accepting {socket localFd : Int} (hne : localFd ≠ socket) {fuel : Nat} :
    ∀ {remain : Nat} (buffer : Nat → UInt8) {os : List Outcome} (total : Int) {k : Kernel},
      k.desc socket = some .sock → Accepting os → (k.remaining localFd).length = remain →
        remain ≤ fuel → ∃ os' k', writeFileLoop socket localFd fuel remain buffer os total k =
          (total + remain, os', k') ∧ Delivered socket localFd k k' (k.remaining localFd) := by
  induction fuel with
  | zero =>
      intro remain buffer os total k hd hos hlen hfuel
      obtain rfl : remain = 0 := by omega
      rw [List.eq_nil_of_length_eq_zero hlen]
      exact ⟨os, k, by simp [writeFileLoop], .of_same rfl rfl rfl fun _ _ => rfl⟩
  | succ fuel ih =>
      intro remain buffer os total k hd hos hlen hfuel
      by_cases h0 : remain = 0
      · subst h0
        rw [List.eq_nil_of_length_eq_zero hlen]
        exact ⟨os, k, by simp [writeFileLoop], .of_same rfl rfl rfl fun _ _ => rfl⟩
      · obtain ⟨count, hcount⟩ : ∃ count,
            count = if fileBufferSize ≤ remain then fileBufferSize else remain := ⟨_, rfl⟩
        have hle : count ≤ remain ∧ 0 < count := by
          rw [hcount]
          unfold fileBufferSize
          split <;> omega
        obtain ⟨hblk, hrem, hread, hdesc⟩ := readFile_spec (k := k) hne count
        have hblklen : (k.readFile localFd count).1.length = count := by
          rw [hblk, List.length_take, hlen]
          omega
        have hfetch := fetch_overwrite buffer (k.readFile localFd count).1
        rw [hblklen] at hfetch
        have hd₁ := hdesc.trans hd
        obtain ⟨os₁, hos₁, hw⟩ := writeToSocket_accepting (k.readFile localFd count).1 hd₁ hos
        have hdesc₁ := Kernel.put_sock_desc hd₁ (k.readFile localFd count).1
        have hput : Delivered socket localFd (k.readFile localFd count).2
            ((k.readFile localFd count).2.put socket (k.readFile localFd count).1)
            (k.readFile localFd count).1 := .put hd₁ _
        have hrem₁ := Kernel.remaining_congr (congrFun hdesc₁ localFd) hput.store
        obtain ⟨os', k', heq, hdel⟩ := ih (overwrite buffer (k.readFile localFd count).1)
          (total + count) ((congrFun hdesc₁ socket).trans hd₁) hos₁
          (by rw [hrem₁, hrem, List.length_drop, hlen]) (by omega : remain - count ≤ fuel)
        refine ⟨os', k', ?_, ?_⟩
        · rw [writeFileLoop]
          simp only [if_neg h0, ← hcount, hfetch, hw, hblklen]
          rw [if_neg (by omega), Int.toNat_natCast, heq]
          congr 1
          omega
        · have hall := (hread.trans hput).trans hdel
          rwa [hrem₁, hrem, hblk, List.nil_append, List.take_append_drop] at hall

/-- **The worker emits a frame.** -/
theorem sendBack_sent {k k' : Kernel} {socket : Int} {task : WorkerTask} {name payload path : Bytes}
    {off : Nat} {mem : Nat → UInt8} {os os' : List Outcome} {ok : Bool}
    (hd : k.desc socket = some .sock) (hname : task.inputFilename = some name)
    (hfile : k.desc task.outputFd = some (.file path off)) (hstore : k.store path = some payload)
    (hos : Accepting os) (h : sendBack k socket task mem os = some (ok, os', k')) :
    ok = true ∧ k'.sent socket = k.sent socket ++ Master.frame putVerb name payload := by
  have hne : task.outputFd ≠ socket := by
    intro heq
    rw [heq, hd] at hfile
    cases hfile
  rw [sendBack, hname, Option.map_some, Option.some.injEq] at h
  -- the header
  obtain ⟨os₁, hos₁, hw₁⟩ := writeToSocket_accepting (createHeader name) hd hos
  have h1 : Delivered socket task.outputFd k (k.put socket (createHeader name))
      (createHeader name) := .put hd _
  have hdesc₁ := Kernel.put_sock_desc hd (createHeader name)
  have hfile₁ := (congrFun hdesc₁ task.outputFd).trans hfile
  have hsize : endOffset (k.put socket (createHeader name)) task.outputFd = payload.length := by
    rw [endOffset, hfile₁]
    simp [h1.store, hstore]
  rw [hw₁] at h
  simp only [hsize] at h
  rw [if_neg (by omega)] at h
  -- the size
  have h2 := h1.trans (rewind_delivered socket task.outputFd)
  have hd₂ : ((k.put socket (createHeader name)).rewind task.outputFd).desc socket = some .sock := by
    rw [(rewind_delivered socket task.outputFd).desc socket hne.symm, hdesc₁, hd]
  obtain ⟨os₂, hos₂, hw₂⟩ := writeToSocket_accepting (sizeBytes payload.length) hd₂ hos₁
  have hrem : ((k.put socket (createHeader name)).rewind task.outputFd).remaining task.outputFd =
      payload := by
    simp [Kernel.rewind, hfile₁, Kernel.remaining, h1.store, hstore]
  rw [writeSizeToSocket, hw₂] at h
  simp only at h
  rw [if_neg (by omega)] at h
  -- the payload
  have hdesc₃ := Kernel.put_sock_desc hd₂ (sizeBytes payload.length)
  have hput : Delivered socket task.outputFd _ _ (sizeBytes payload.length) := .put hd₂ _
  have hrem₃ := Kernel.remaining_congr (congrFun hdesc₃ task.outputFd) hput.store
  rw [hrem] at hrem₃
  obtain ⟨os₄, k₄, hw₄, h4⟩ := writeFileLoop_accepting hne mem 0
    ((congrFun hdesc₃ socket).trans hd₂) hos₂ (by rw [hrem₃])
    (Nat.le_add_right payload.length os₂.length)
  rw [writeFileToSocket, hw₄] at h
  simp only at h
  rw [if_neg (by omega)] at h
  obtain ⟨rfl, -, rfl⟩ : ok = true ∧ os' = os₄ ∧ k' = k₄.close task.outputFd := by
    simpa [eq_comm] using h
  have hall := ((h2.trans hput).trans h4).sent
  refine ⟨rfl, ?_⟩
  show k₄.sent socket = _
  rw [hall, hrem₃, Function.update_self]
  simp [Master.frame, createHeader]

end KeyLime
