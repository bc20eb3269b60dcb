import KeyLime.Printer
import KeyLime.Process

/-!
# The three programs

The master with any number of workers and interfaces, on connections that hold
a bounded number of bytes in each direction. What `handle_data` makes of its
input is left open: the master may call `do_put` whenever it serves, for any
file and any peer. Inside `do_put` it is at one `write` of
`write_all_to_socket` after the other, and reads nothing; a `write` to a full
connection is tried again and again.

A master that does so waits for a peer that can go on (`no_cyclic_wait`). It
could fail to if the peer waited in turn for the master to read:

* a worker receives in a thread of its own, which waits for the tasking threads
  when its queue is full, and these wait for nobody but the shell;
* an interface prints in a thread of its own, which waits for its stream only.

So the argument is about the peer alone. The state of a worker is that of
`Process`, in which all of its threads are (`Sound`); the sending thread may be
stuck for as long as it likes. A peer that has ended is `gone`, and a `write` to
it fails, so the master does not retry.

That the printing thread of an interface does not get outside of its buffer is
not part of this module; see `Framing`.
-/

namespace KeyLime

open Transition

/-- How many bytes each connection holds, from the master and to it. -/
structure Links (ι : Type*) where
  down : ι → Nat
  up : ι → Nat
  down_pos : ∀ j, 0 < down j
  up_pos : ∀ j, 0 < up j

/-- The process behind a connection. What has ended, or has written outside of
its buffers, is `gone`. -/
inductive Peer where
  | worker (p : WorkerProcess)
  | interface (p : Printer)
  | gone

/-- What `do_put` is writing; `fileSize` is its variable `file_size`, without
the block. -/
inductive PutPart where
  | header (fileSize : Nat)
  | size (fileSize : Nat)
  | block (fileSize : Nat)

/-- Where the master is: in `epoll_wait` or a handler, in a
`write_all_to_socket` of `do_put` with the rest of its buffer, or at the head
of the loop of `do_put`. -/
inductive MasterPlace (ι : Type*) where
  | serving
  | writing (dst : ι) (buffer : Bytes) (part : PutPart)
  | looping (dst : ι) (fileSize : Nat)

/-- `down` and `up` are the bytes on the way. -/
structure Cluster (ι : Type*) where
  master : MasterPlace ι
  peers : ι → Peer
  down : ι → Bytes
  up : ι → Bytes

inductive ClusterEvent (ι : Type*) where
  /-- The master reads at most `n + 1` bytes. -/
  | receive (j : ι) (n : Nat)
  | doPut (dst : ι) (name : Bytes) (fileSize : Nat)
  /-- A `write` of the master takes at most `n + 1` bytes. -/
  | write (n : Nat)
  /-- The loop of `do_put`, with the block it reads. -/
  | loop (block : Bytes)
  /-- A `read` of the file, or a `write` to a process that has ended, fails. -/
  | readFails
  | writeFails
  | worker (j : ι) (e : WorkerEvent)
  /-- `output_reciever`, whose `read` returns at most `n + 1` bytes. -/
  | output (j : ι) (n : Nat)
  /-- The main thread of the interface writes. -/
  | submit (j : ι) (bs : Bytes)

def PutPart.next {ι : Type*} (dst : ι) : PutPart → MasterPlace ι
  | .header fileSize => .writing dst (sizeBytes fileSize) (.size fileSize)
  | .size fileSize | .block fileSize => .looping dst fileSize

def Peer.running : Peer → Prop
  | .worker p => p.threads.main ≠ .exited
  | .interface _ => True
  | .gone => False

def Printer.reads (p : Printer) : Bool :=
  match p.place with
  | .loop => false
  | .line => true
  | .size i => i < 8
  | .data size => size ≠ 0

/-- A `read` of at most `k` bytes off what is there. -/
def recvFrom (n k : Nat) (bs : Bytes) : Intake.Got UInt8 × Bytes :=
  (.data (bs.take (min k (n + 1))), bs.drop (min k (n + 1)))

/-- The steps of the main loop and the tasking threads of a worker, and of
`output_reciever`. -/
def ClusterEvent.receives {ι : Type*} [DecidableEq ι] (j : ι) : ClusterEvent ι → Bool
  | .worker i e => i = j && e.receives
  | .output i _ => i = j
  | _ => false

namespace Cluster

variable {ι : Type*} [DecidableEq ι] (links : Links ι) (exec : ι → Bytes → Bytes) (s : Cluster ι)

/-- `read` in a handler, of what has arrived from `j`. -/
def receive (j : ι) (n : Nat) : Option (Cluster ι) :=
  match s.master with
  | .serving =>
      if s.up j = [] then none
      else some { s with up := Function.update s.up j ((s.up j).drop (n + 1)) }
  | _ => none

def doPut (dst : ι) (name : Bytes) (fileSize : Nat) : Option (Cluster ι) :=
  match s.master with
  | .serving => some { s with master := .writing dst (putHeader name) (.header fileSize) }
  | _ => none

/-- A round of `write_all_to_socket`. Nothing fits into a full connection:
that is `EAGAIN`, and the next round is the same. -/
def write (n : Nat) : Option (Cluster ι) :=
  match s.master with
  | .writing dst buffer part =>
      let k := min (n + 1) (links.down dst - (s.down dst).length)
      some { s with
        down := Function.update s.down dst (s.down dst ++ buffer.take k)
        master := if buffer.drop k = [] then part.next dst else .writing dst (buffer.drop k) part }
  | _ => none

/-- The loop of `do_put`: it is over, or the next block is written. -/
def loop (block : Bytes) : Option (Cluster ι) :=
  match s.master with
  | .looping dst fileSize =>
      if fileSize = 0 then some { s with master := .serving }
      else if block ≠ [] ∧ block.length ≤ (if fileSize < 4096 then fileSize else 4096) then
        some { s with master := .writing dst block (.block (fileSize - block.length)) }
      else none
  | _ => none

def readFails : Option (Cluster ι) :=
  match s.master with
  | .looping _ _ => some { s with master := .serving }
  | _ => none

def writeFails : Option (Cluster ι) :=
  match s.master with
  | .writing dst _ _ =>
      match s.peers dst with
      | .worker p =>
          match p.threads.main with
          | .exited => some { s with master := .serving }
          | _ => none
      | .interface _ => none
      | .gone => some { s with master := .serving }
  | _ => none

def setPeer (j : ι) (p : Peer) : Cluster ι := { s with peers := Function.update s.peers j p }

def worker (j : ι) (e : WorkerEvent) : Option (Cluster ι) :=
  match s.peers j with
  | .worker p =>
      (p.handle (exec j) (s.down j) (links.up j - (s.up j).length) e).map fun (p, inbox, out) =>
        { s.setPeer j (.worker p) with
          down := Function.update s.down j inbox
          up := Function.update s.up j (s.up j ++ out) }
  | _ => none

/-- A step of `output_reciever`. A `read` waits for something to read. -/
def output (j : ι) (n : Nat) : Option (Cluster ι) :=
  match s.peers j with
  | .interface p =>
      if p.reads && s.down j = [] then none
      else
        match p.step (recvFrom n) (s.down j) with
        | .on p bs =>
            some { s.setPeer j (.interface p) with down := Function.update s.down j bs }
        | .exited | .outside => some (s.setPeer j .gone)
  | _ => none

def submit (j : ι) (bs : Bytes) : Option (Cluster ι) :=
  match s.peers j with
  | .interface _ =>
      if bs ≠ [] ∧ (s.up j).length + bs.length ≤ links.up j then
        some { s with up := Function.update s.up j (s.up j ++ bs) }
      else none
  | _ => none

def handle : ClusterEvent ι → Option (Cluster ι)
  | .receive j n => s.receive j n
  | .doPut dst name fileSize => s.doPut dst name fileSize
  | .write n => s.write links n
  | .loop block => s.loop block
  | .readFails => s.readFails
  | .writeFails => s.writeFails
  | .worker j e => s.worker links exec j e
  | .output j n => s.output j n
  | .submit j bs => s.submit links j bs

def Step (s : Cluster ι) (e : ClusterEvent ι) (s' : Cluster ι) : Prop :=
  s.handle links exec e = some s'

/-- All processes have just connected. -/
structure Initial : Prop where
  master : s.master = .serving
  down : ∀ j, s.down j = []
  up : ∀ j, s.up j = []
  peers : ∀ j, (∃ resolve store, s.peers j = .worker (.start resolve store))
    ∨ ∃ mem b, s.peers j = .interface (.start mem b)

def Reachable (s : Cluster ι) : Prop := ∃ s₀, Initial s₀ ∧ Reach (Step links exec) s₀ s

/-- The master is retrying a `write` to `j`, whose connection is full. It does nothing
else, and in particular reads nothing, until some of the bytes get through. -/
def Retries (j : ι) : Prop :=
  ∃ buffer part, s.master = .writing j buffer part ∧ buffer ≠ [] ∧ links.down j ≤ (s.down j).length

variable {links} {exec} {s} {s' : Cluster ι} {e : ClusterEvent ι} {i j : ι}

/-! ## What a step can do -/

/-- **Everything a step can do.** -/
inductive StepCase (links : Links ι) (exec : ι → Bytes → Bytes) (s : Cluster ι) :
    ClusterEvent ι → Cluster ι → Prop where
  | receive (j : ι) (n : Nat) (hm : s.master = .serving) :
      StepCase links exec s (.receive j n)
        { s with up := Function.update s.up j ((s.up j).drop (n + 1)) }
  | doPut (dst : ι) (name : Bytes) (fileSize : Nat) (hm : s.master = .serving) :
      StepCase links exec s (.doPut dst name fileSize)
        { s with master := .writing dst (putHeader name) (.header fileSize) }
  | write (n k : Nat) (dst : ι) (buffer : Bytes) (part : PutPart)
      (hm : s.master = .writing dst buffer part)
      (hk : k = min (n + 1) (links.down dst - (s.down dst).length)) :
      StepCase links exec s (.write n) { s with
        down := Function.update s.down dst (s.down dst ++ buffer.take k)
        master := if buffer.drop k = [] then part.next dst else .writing dst (buffer.drop k) part }
  | done (dst : ι) (block : Bytes) (hm : s.master = .looping dst 0) :
      StepCase links exec s (.loop block) { s with master := .serving }
  | block (dst : ι) (fileSize : Nat) (block : Bytes) (hm : s.master = .looping dst fileSize)
      (hne : block ≠ []) (hle : block.length ≤ fileSize) :
      StepCase links exec s (.loop block)
        { s with master := .writing dst block (.block (fileSize - block.length)) }
  | readFails (dst : ι) (fileSize : Nat) (hm : s.master = .looping dst fileSize) :
      StepCase links exec s .readFails { s with master := .serving }
  | writeFails (dst : ι) (buffer : Bytes) (part : PutPart)
      (hm : s.master = .writing dst buffer part) (hend : ¬ (s.peers dst).running) :
      StepCase links exec s .writeFails { s with master := .serving }
  | worker (j : ι) (we : WorkerEvent) (p p' : WorkerProcess) (inbox out : Bytes)
      (hp : s.peers j = .worker p)
      (hstep : p.handle (exec j) (s.down j) (links.up j - (s.up j).length) we =
        some (p', inbox, out)) :
      StepCase links exec s (.worker j we) { s.setPeer j (.worker p') with
        down := Function.update s.down j inbox, up := Function.update s.up j (s.up j ++ out) }
  | output (j : ι) (n : Nat) (p p' : Printer) (bs : Bytes) (hp : s.peers j = .interface p)
      (hread : p.reads = true → s.down j ≠ [])
      (hstep : p.step (recvFrom n) (s.down j) = .on p' bs) :
      StepCase links exec s (.output j n)
        { s.setPeer j (.interface p') with down := Function.update s.down j bs }
  | ended (j : ι) (n : Nat) (p : Printer) (hp : s.peers j = .interface p)
      (hread : p.reads = true → s.down j ≠ [])
      (hstep : ∀ p' bs, p.step (recvFrom n) (s.down j) ≠ .on p' bs) :
      StepCase links exec s (.output j n) (s.setPeer j .gone)
  | submit (j : ι) (bs : Bytes) (p : Printer) (hp : s.peers j = .interface p)
      (hroom : (s.up j).length + bs.length ≤ links.up j) :
      StepCase links exec s (.submit j bs) { s with up := Function.update s.up j (s.up j ++ bs) }

theorem loop_case {block : Bytes} (hs : s.loop block = some s') :
    StepCase links exec s (.loop block) s' := by
  unfold loop at hs
  split at hs
  · rename_i dst fileSize hm
    by_cases h0 : fileSize = 0
    · rw [if_pos h0] at hs
      obtain rfl := Option.some.inj hs
      exact .done dst block (h0 ▸ hm)
    · rw [if_neg h0] at hs
      by_cases hblock : block ≠ [] ∧ block.length ≤ (if fileSize < 4096 then fileSize else 4096)
      · rw [if_pos hblock] at hs
        obtain rfl := Option.some.inj hs
        refine .block dst fileSize block hm hblock.1 (Nat.le_trans hblock.2 ?_)
        split <;> omega
      · rw [if_neg hblock] at hs
        cases hs
  · cases hs

theorem writeFails_case (hs : s.writeFails = some s') : StepCase links exec s .writeFails s' := by
  unfold writeFails at hs
  split at hs
  · rename_i dst buffer part hm
    split at hs
    · rename_i p hp
      split at hs
      · rename_i hmain
        obtain rfl := Option.some.inj hs
        refine .writeFails dst buffer part hm ?_
        rw [hp]
        exact fun h => h hmain
      · cases hs
    · cases hs
    · rename_i hp
      obtain rfl := Option.some.inj hs
      refine .writeFails dst buffer part hm ?_
      rw [hp]
      exact id
  · cases hs

theorem output_case {n : Nat} (hs : s.output j n = some s') :
    StepCase links exec s (.output j n) s' := by
  unfold output at hs
  split at hs
  · rename_i p hp
    split at hs
    · cases hs
    · rename_i hwait
      have hread : p.reads = true → s.down j ≠ [] := by simpa using hwait
      cases hstep : p.step (recvFrom n) (s.down j) with
      | on p' bs =>
          rw [hstep] at hs
          obtain rfl := Option.some.inj hs
          exact .output j n p p' bs hp hread hstep
      | exited | outside =>
          rw [hstep] at hs
          obtain rfl := Option.some.inj hs
          exact .ended j n p hp hread (by simp [hstep])
  · cases hs

theorem Step.case (hs : Step links exec s e s') : StepCase links exec s e s' := by
  rw [Step] at hs
  cases e with
  | receive j n =>
      rw [handle, receive] at hs
      split at hs
      · rename_i hm
        split at hs
        · cases hs
        · obtain rfl := Option.some.inj hs
          exact .receive j n hm
      · cases hs
  | doPut dst name fileSize =>
      rw [handle, doPut] at hs
      split at hs
      · rename_i hm
        obtain rfl := Option.some.inj hs
        exact .doPut dst name fileSize hm
      · cases hs
  | write n =>
      rw [handle, write] at hs
      split at hs
      · rename_i dst buffer part hm
        obtain rfl := Option.some.inj hs
        exact .write n _ dst buffer part hm rfl
      · cases hs
  | loop block => exact loop_case hs
  | readFails =>
      rw [handle, readFails] at hs
      split at hs
      · rename_i dst fileSize hm
        obtain rfl := Option.some.inj hs
        exact .readFails dst fileSize hm
      · cases hs
  | writeFails => exact writeFails_case hs
  | worker j we =>
      rw [handle, worker] at hs
      split at hs
      · rename_i p hp
        obtain ⟨⟨p', inbox, out⟩, hstep, rfl⟩ := Option.map_eq_some_iff.mp hs
        exact .worker j we p p' inbox out hp hstep
      · cases hs
  | output j n => exact output_case hs
  | submit j bs =>
      rw [handle, submit] at hs
      split at hs
      · rename_i p hp
        split at hs
        · rename_i hroom
          obtain rfl := Option.some.inj hs
          exact .submit j bs p hp hroom.2
        · cases hs
      · cases hs

/-! ## The workers are sound -/

/-- Every worker is as its own steps have made it. -/
def Sound (s : Cluster ι) : Prop := ∀ j p, s.peers j = .worker p → p.Sound

omit [DecidableEq ι] in
theorem Initial.sound (h : Initial s) : s.Sound := by
  intro j p hp
  rcases h.peers j with ⟨resolve, store, hw⟩ | ⟨mem, b, hi⟩
  · obtain rfl := Peer.worker.inj (hw.symm.trans hp)
    exact WorkerProcess.start_sound resolve store
  · cases hi.symm.trans hp

theorem Sound.setPeer (h : s.Sound) {q : Peer} (hq : ∀ p, q = .worker p → p.Sound) :
    (s.setPeer j q).Sound := by
  intro i p hp
  by_cases hij : i = j
  · subst hij
    exact hq p ((Function.update_self ..).symm.trans hp)
  · exact h i p ((Function.update_of_ne hij ..).symm.trans hp)

/-- **One step.** The master changes no process. -/
theorem Sound.step (h : s.Sound) (hs : Step links exec s e s') : s'.Sound := by
  cases hs.case with
  | worker j we p p' inbox out hp hstep =>
      have hp' : p'.Sound := (h j p hp).step hstep
      exact h.setPeer (j := j) (q := .worker p') fun q hq => Peer.worker.inj hq ▸ hp'
  | output j n p p' bs => exact h.setPeer (j := j) (q := .interface p') (by simp)
  | ended j n p => exact h.setPeer (j := j) (q := .gone) (by simp)
  | receive | doPut | write | done | block | readFails | writeFails | submit => exact h

theorem Reachable.sound (h : Reachable links exec s) : s.Sound := by
  obtain ⟨s₀, h0, h⟩ := h
  exact h.invariant h0.sound fun _ _ _ _ hi hs => hi.step hs

/-! ## Waiting -/

theorem Retries.write (h : s.Retries links j) (n : Nat) : s.write links n = some s := by
  obtain ⟨buffer, part, hm, hne, hfull⟩ := h
  have hk : min (n + 1) (links.down j - (s.down j).length) = 0 := by omega
  simp only [Cluster.write, hm, hk, List.take_zero, List.drop_zero, List.append_nil, if_neg hne,
    Function.update_eq_self]
  rw [← hm]

omit [DecidableEq ι] in
theorem Retries.arrived (h : s.Retries links j) : s.down j ≠ [] := by
  obtain ⟨buffer, part, -, -, hfull⟩ := h
  have hpos := links.down_pos j
  exact List.ne_nil_of_length_pos (by omega)

theorem Sound.receives (h : s.Sound) (hrun : (s.peers j).running) (hin : s.down j ≠ []) :
    ∃ e s', e.receives j = true ∧ Step links exec s e s' := by
  cases hp : s.peers j with
  | worker p =>
      rw [hp] at hrun
      obtain ⟨e, ⟨p', inbox, out⟩, hrec, hstep⟩ := (h j p hp).enabled hrun hin (exec j)
        (links.up j - (s.up j).length)
      refine ⟨.worker j e, { s.setPeer j (.worker p') with
        down := Function.update s.down j inbox
        up := Function.update s.up j (s.up j ++ out) }, ?_, ?_⟩
      · simp only [ClusterEvent.receives, decide_true, Bool.true_and, hrec]
      · simp only [Step, handle, worker, hp, hstep, Option.map_some]
  | interface p =>
      have hwait : ¬ (p.reads && decide (s.down j = [])) = true := by simp [hin]
      refine ⟨.output j 0, ?_⟩
      simp only [ClusterEvent.receives, decide_true, Step, handle, output, hp, if_neg hwait,
        true_and]
      split <;> exact ⟨_, rfl⟩
  | gone =>
      rw [hp] at hrun
      exact hrun.elim

/-- **No cyclic wait.** A master that retries a `write` to a full connection
waits for a process of which the receiving thread can go on, or one of the
tasking threads it waits for. -/
theorem no_cyclic_wait (h : Reachable links exec s) (hr : s.Retries links j)
    (hrun : (s.peers j).running) : ∃ e s', e.receives j = true ∧ Step links exec s e s' :=
  h.sound.receives hrun hr.arrived

def narrow (ι : Type*) : Links ι :=
  ⟨fun _ => 1, fun _ => 1, fun _ => Nat.one_pos, fun _ => Nat.one_pos⟩

/-- One worker that has just connected. -/
def single : Cluster Unit :=
  ⟨.serving, fun _ => .worker (.start id fun _ => none), fun _ => [], fun _ => []⟩

/-- The first byte of a header has been written. -/
def singleFull : Cluster Unit :=
  { single with
    master := .writing () ((putHeader [97]).drop 1) (.header 0)
    down := fun _ => (putHeader [97]).take 1 }

theorem no_cyclic_wait_single :
    ∃ e s', ClusterEvent.receives () e = true ∧ Step (narrow Unit) (fun _ => id) singleFull e s' := by
  have hinit : single.Initial := ⟨rfl, fun _ => rfl, fun _ => rfl, fun _ => .inl ⟨id, _, rfl⟩⟩
  have hput : Step (narrow Unit) (fun _ => id) single (.doPut () [97] 0)
      { single with master := .writing () (putHeader [97]) (.header 0) } := rfl
  have hwrite : Step (narrow Unit) (fun _ => id)
      { single with master := .writing () (putHeader [97]) (.header 0) } (.write 0) singleFull := rfl
  refine no_cyclic_wait ⟨single, hinit, (Reach.refl.step hput).step hwrite⟩
    ⟨_, _, rfl, by decide, by decide⟩ ?_
  simp [singleFull, single, Peer.running, WorkerProcess.start, Pipeline.start]

end Cluster

end KeyLime
