import KeyLime.Settling

/-!
# The end of the queues

`queue_destroy` walks the list of nodes with nothing to stop it but the end of
the list. On the queues of `worker_main` it finds a list that ends, and nobody
else who is still there.

`destroyLoop` is the loop on the chain of nodes, one node freed in each round,
and what the destructor has been called with. It frees what `queue_pull` would
have taken, one after the other (`destroyLoop_pull`), so that what is left behind
follows from the invariant of the queue.

That nobody is in the functions of the queues follows from `pthread_join`: when
`worker_main` is through, all of its threads have been joined, and each of them
has left the queues before it ended (`Finished.outside`). What the destructor is
given is put next to what has been sent and given up, and the three make up all
that was accepted.
-/

namespace KeyLime

namespace Queue

variable {α : Type*} {q : Queue α} {ps : List Nat} {xs : List α}

/-- The loop of `queue_destroy`, for at most this many nodes: the nodes that
are left, and what the destructor has been called with. -/
def destroyLoop : Nat → (Nat → Option (QueueNode α)) → Option Nat → List α →
    Option ((Nat → Option (QueueNode α)) × List α)
  | _, nodes, none, destroyed => some (nodes, destroyed)
  | 0, _, some _, _ => none
  | rounds + 1, nodes, some cur, destroyed =>
      (nodes cur).bind fun node =>
        destroyLoop rounds (Function.update nodes cur none) node.next (destroyed ++ [node.data])

def destroy (rounds : Nat) (q : Queue α) : Option ((Nat → Option (QueueNode α)) × List α) :=
  destroyLoop rounds q.nodes q.head []

theorem destroyLoop_pull {x : α} {q' : Queue α} {b : Bool} (h : q.pull = some (x, q', b))
    (rounds : Nat) (ys : List α) :
    destroyLoop (rounds + 1) q.nodes q.head ys =
      destroyLoop rounds q'.nodes q'.head (ys ++ [x]) := by
  obtain ⟨p, hhead, h⟩ := Option.bind_eq_some_iff.mp h
  obtain ⟨node, hnode, h⟩ := Option.map_eq_some_iff.mp h
  simp only [Prod.mk.injEq] at h
  obtain ⟨rfl, rfl, -⟩ := h
  rw [hhead, destroyLoop, hnode]
  rfl

theorem Holds.destroyLoop (h : q.Holds ps xs) (ys : List α) :
    destroyLoop xs.length q.nodes q.head ys = some (fun _ => none, ys ++ xs) := by
  induction xs generalizing q ps ys with
  | nil =>
      have hps : ps = [] := List.length_eq_zero_iff.mp h.length
      have hnodes : q.nodes = fun _ => none := funext fun p => by
        by_contra hne
        have hmem := h.only p hne
        rw [hps] at hmem
        cases hmem
      rw [h.null_iff.1.mpr rfl, hnodes, List.append_nil]
      rfl
  | cons x xs ih =>
      cases ps with
      | nil => exact absurd h.length (Nat.succ_ne_zero _).symm
      | cons p ps =>
          obtain ⟨q', hpull, hholds, -⟩ := h.pull
          rw [List.length_cons, destroyLoop_pull hpull, ih hholds, List.append_assoc]
          rfl

theorem Holds.destroy (h : q.Holds ps xs) : q.destroy xs.length = some (fun _ => none, xs) :=
  h.destroyLoop []

end Queue

namespace Pipeline

variable {exec : Bytes → Bytes} {s : Pipeline} {th : Thread}

theorem Finished.outside (h : s.Finished) (th : Thread) :
    s.taskOp th = none ∧ s.finishedOp th = none := by
  cases th with
  | main => simp [taskOp, finishedOp, h.main]
  | tasking i => simp [taskOp, finishedOp, (h.tasking i).1]
  | sending => simp [taskOp, finishedOp, h.sending]

/-- **The queues are destroyed** when no thread is in their functions any more.
`task_queue` is empty; the destructor is called, in their order, with what the
sending thread has not taken of `finished_task_queue`, which is no task that
was sent or given up, and no task twice; and no node stays behind. -/
theorem torn_down (h : Reachable exec s) (hdone : s.main = .done) :
    (∀ th, s.tasks.threads th = .out ∧ s.finished.threads th = .out) ∧
    s.tasks.queue.destroy 0 = some (fun _ => none, []) ∧
    ∃ ts, s.finished.queue.destroy ts.length = some (fun _ => none, ts) ∧
      s.finished.pulled ++ ts = s.finished.pushed ∧
      (((ts.filter fun t => t.inputFilename.isSome).map (·.seq)) ++ s.sent.map Prod.fst
        ++ s.abandoned).Perm (List.range s.accepted.length) := by
  obtain ⟨hw, ha, hend⟩ := h.ending
  have hf := hend.finished hw ha hdone
  obtain ⟨ps, htasks⟩ := hw.tasks.holds
  obtain ⟨qs, hfinished⟩ := hw.finished.holds
  rw [hf.tasks] at htasks
  exact ⟨fun th => ⟨hw.taskOps.out (hf.outside th).1, hw.finishedOps.out (hf.outside th).2⟩,
    htasks.destroy, s.finished.contents, hfinished.destroy, hw.finished_history, hf.executed.2⟩

/-- The sending thread is told to stop while a program runs: its task stays. -/
theorem torn_down_one :
    ∃ s, Reachable id s ∧ s.main = .done ∧ s.accepted = [([97], [1])] ∧ s.sent.length = 0 ∧
      (∀ th, s.tasks.threads th = .out ∧ s.finished.threads th = .out) ∧
      s.tasks.queue.destroy 0 = some (fun _ => none, []) ∧
      ∃ ts, s.finished.queue.destroy ts.length = some (fun _ => none, ts) ∧ ts.length = 1 := by
  have hexec : execRun id
      (requested [97] [1] 0 ++ through (.tasking 0) 0 ++ [.leave, .main, .main]
        ++ (List.range 5).flatMap (through .main) ++ through .main 0 ++ through .sending 0
        ++ List.replicate 4 (.tasking 0 0) ++ through (.tasking 0) 0
        ++ (List.finRange 5).flatMap (fun i => through (.tasking i) 0)
        ++ List.replicate 7 .main ++ [.heartbeat false, .main])
      (fun s => (s.main, s.accepted, s.sent.length, s.finished.pushed.length,
        s.finished.pulled.length)) = some (.done, [([97], [1])], 0, 2, 1) := by decide +kernel
  obtain ⟨s, hr, hv⟩ := execRun_spec hexec
  simp only [Prod.mk.injEq] at hv
  obtain ⟨hmain, hacc, hsent, hpushed, hpulled⟩ := hv
  obtain ⟨hout, htasks, ts, hdestroy, hts, -⟩ := torn_down hr hmain
  have hlen := congrArg List.length hts
  rw [List.length_append, hpushed, hpulled] at hlen
  exact ⟨s, hr, hmain, hacc, hsent, hout, htasks, ts, hdestroy, by omega⟩

end Pipeline

end KeyLime
