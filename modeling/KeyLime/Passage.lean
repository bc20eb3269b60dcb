import KeyLime.Router
import KeyLime.Session
import KeyLime.Streams

/-!
# From one directory to another

The three programs in a row. What a user enters goes out of the interface as
frames, the master routes them, and the receive loop of a worker makes tasks
of them. The programs in front of a worker's threads are files of the user,
under their names and in the order in which they were entered
(`programs_arrive`).

The three ends meet in what has been sent on a connection:

* `Typed`: what the master has read of the interface's connection is the
  beginning of what `main` of `interface.c` sends for the words typed
  (`session_sends`);
* the router says what part of it each worker has been told
  (`frames_routed`), under the verb of the master;
* `Reading`: the worker reads what the master has sent, with file calls that
  succeed, and `receive` takes it to tasks (`receives_all`).

All of it is under the conditions of the parts. The master's run is `lossless`:
its file calls succeed, no frame is cut short, no payload meets an open file of
another connection, nobody is revived, and no silent record has tasks when a pass
runs. So nothing is said here about a program that is sent again: `reschedule`
empties its file first, and the worker makes a task of an empty program. The
session is `Roomy`, so that no name overruns its array, nothing refuses what it
writes, and none of its names is that of a directory.
-/

namespace KeyLime

open Resume Intake Transition

namespace Router

variable {φ : Type*} {r : Router φ} {p q : Nat}

/-- What a connection has been told by one other connection alone, that one
has said. -/
theorem told_sublist (h : ∀ y ∈ r.moved, y.2.1 = q → y.1 = p) :
    (r.told q).Sublist (r.heard p) := by
  unfold told heard
  generalize r.moved = l at h
  induction l with
  | nil => exact .slnil
  | cons y l ih =>
      obtain ⟨src, dst, x⟩ := y
      have hrest := ih fun y hy => h y (List.mem_cons_of_mem _ hy)
      by_cases hdst : dst = q
      · have hsrc : src = p := h _ List.mem_cons_self hdst
        simpa [hdst, hsrc] using hrest
      · by_cases hsrc : src = p
        · simpa [hdst, hsrc] using hrest.cons x
        · simpa [hdst, hsrc] using hrest

end Router

namespace Master

variable {m : Master} {r : Router Frame} {fd : Int} {p q : Nat}

theorem Models.told_carried (h : Models m r) {x : Frame} (hx : x ∈ r.told q) : x.Carried := by
  obtain ⟨⟨src, dst, x'⟩, hy, heq⟩ := List.mem_filterMap.mp hx
  by_cases hdst : dst = q
  · obtain rfl : x' = x := by simpa only [hdst, if_true, Option.some.injEq] using heq
    exact h.carried _ hy
  · simp only [hdst, if_false, reduceCtorEq] at heq

theorem Models.received (h : Models m r) (hd : m.kernel.desc fd = some .sock) (hat : At m fd q)
    (hshort : ∀ x ∈ r.told q, x.2.2.length < 2 ^ 63) {ios : Nat → RoundIo} {k : Kernel}
    {s : List (Arrival UInt8)} (hs : Arrival.err ∉ s) (hin : incoming s = m.kernel.sent fd)
    (hopen : ∀ i, (ios i).openOk = true) (hdisk : ∀ i, (ios i).writes = [])
    (hdir : ∀ x ∈ r.told q, k.resolve (outputName x.2.1) ≠ k.resolve x.2.1) :
    ∃ fuel w, receive ios fuel 0 ⟨k, s, []⟩ = some (.left, w) ∧
      List.Forall₂ (fun t (x : Frame) => t.1.inputFilename = some x.2.1 ∧ t.2 = some x.2.2)
        w.pushed (r.told q) := by
  have hframed : ∀ f ∈ (r.told q).map Prod.snd, Framed f := by
    intro f hf
    obtain ⟨x, hx, rfl⟩ := List.mem_map.mp hf
    have hname := (h.told_carried hx).proper.name
    exact ⟨hname.nonempty, hname.line, hname.string, hshort x hx⟩
  have hstream : incoming s = (((r.told q).map Prod.snd).map putFrame).flatten ++ [] := by
    rw [hin, h.wired.told fd q hd hat, List.append_nil, List.map_map, List.flatMap_def]
    rfl
  obtain ⟨w, ps, n, hin', hs', -, hpushed, hps, hrun⟩ :=
    receive_frames hopen hframed 0 ⟨k, s, []⟩ hs hstream
  obtain ⟨s', hend⟩ := receive_end ios (0 + ((r.told q).map Prod.snd).length) hs' hin' n
  refine ⟨_, _, (hrun _ (Nat.le_succ n)).trans hend, ?_⟩
  have hall : w.pushed = ps := hpushed
  have hwhole := hps.whole hdisk fun f hf => by
    obtain ⟨x, hx, rfl⟩ := List.mem_map.mp hf
    exact hdir x hx
  rw [← hall] at hwhole
  exact List.forall₂_map_right_iff.mp hwhole

/-- What record `p` has taken is of a session in the directory of `home`. -/
structure Typed (m : Master) (p : Nat) (home : Kernel) (input : Input) : Prop where
  alive : (m.heap p).alive = true
  empty : home.store (home.resolve []) = none
  size : ∀ path f, home.store path = some f → f.length < 2 ^ 63
  room : Roomy input
  taken : ∃ dirs sockFd os e k', NoDirectory dirs home input ∧ home.desc sockFd = some .sock
    ∧ home.sent sockFd = [] ∧ Accepting os
    ∧ session dirs sockFd (input.length + 1) input os home = some (e, k')
    ∧ m.kernel.taken (m.heap p).workerFd <+: k'.sent sockFd

theorem Typed.heard {home : Kernel} {input : Input} (he : Typed m p home input)
    (h : Models m r) : r.heard p <+: (found home (words .blank input)).map (request home) := by
  obtain ⟨dirs, sockFd, os, e, k', hfiles, hd, hfresh, hos, hsession, hprefix⟩ := he.taken
  obtain ⟨e₁, k₁, hsession₁, -, hsent⟩ := session_sent hd hfresh hos he.room hfiles
  obtain ⟨-, rfl⟩ := Prod.mk.inj (Option.some.inj (hsession.symm.trans hsession₁))
  have hsize : ∀ path f, home.store path = some f → f.length < 2 ^ 64 := fun path f hf =>
    (he.size path f hf).trans (by decide)
  rw [← h.heard p he.alive, ← framesOf_requests he.empty hsize, ← hsent]
  exact framesOf_prefix hprefix

/-- What a worker reads of its connection, and a disk that does not fail. -/
structure Reading (bs : Bytes) (ws : List Bytes) (ios : Nat → RoundIo) (k : Kernel)
    (s : List (Arrival UInt8)) : Prop where
  noErr : Arrival.err ∉ s
  stream : incoming s = bs
  openOk : ∀ i, (ios i).openOk = true
  disk : ∀ i, (ios i).writes = []
  dir : ∀ w ∈ ws, k.resolve (outputName w) ≠ k.resolve w

/-- **Programs arrive.** The master has run without loss, and has read a part of
what a session of the interface has sent on connection `p`. A worker all of whose
frames came from `p` reads these, up to the end of its stream. Then its receive
loop makes tasks of names `ws` that were entered and found, in the order in which
they were entered, each under its name and with the content of the user's file. -/
theorem programs_arrive (h : ReachableWithin (fun m e _ => m.lossless e = true) m) :
    ∃ r, Models m r ∧ ∀ (p q : Nat) (fd : Int) (home : Kernel) (input : Input),
      Typed m p home input → (∀ y ∈ r.moved, y.2.1 = q → y.1 = p) →
      m.kernel.desc fd = some .sock → At m fd q →
      ∀ ios k s, Reading (m.kernel.sent fd) (found home (words .blank input)) ios k s →
        ∃ fuel w ws, receive ios fuel 0 ⟨k, s, []⟩ = some (.left, w)
          ∧ ws.Sublist (found home (words .blank input)) ∧ r.told q = ws.map (request home)
          ∧ List.Forall₂ (fun t n => t.1.inputFilename = some n ∧ t.2 = home.store (home.resolve n))
            w.pushed ws := by
  obtain ⟨-, r, hr⟩ := h.routed
  refine ⟨r, hr, ?_⟩
  intro p q fd home input he hone hd hat ios k s hread
  have hsub : (r.told q).Sublist ((found home (words .blank input)).map (request home)) :=
    (Router.told_sublist hone).trans (he.heard hr).sublist
  obtain ⟨ws, hws, htold⟩ := List.sublist_map_iff.mp hsub
  have hfile : ∀ n ∈ ws, ∃ f, home.store (home.resolve n) = some f := fun n hn =>
    (found_mem (hws.subset hn)).2
  have hnames : ∀ x ∈ r.told q, x.2.1 ∈ found home (words .blank input)
      ∧ x.2.2.length < 2 ^ 63 := by
    intro x hx
    rw [htold] at hx
    obtain ⟨n, hn, rfl⟩ := List.mem_map.mp hx
    obtain ⟨f, hf⟩ := hfile n hn
    exact ⟨hws.subset hn, by rw [request, hf]; exact he.size _ f hf⟩
  obtain ⟨fuel, w, hreceive, htasks⟩ := hr.received hd hat (fun x hx => (hnames x hx).2) hread.noErr
    hread.stream hread.openOk hread.disk fun x hx => hread.dir _ (hnames x hx).1
  refine ⟨fuel, w, ws, hreceive, hws, htold, ?_⟩
  rw [htold, List.forall₂_map_right_iff] at htasks
  refine (List.Forall₂.flip ((List.forall₂_and_left _ _).mpr ⟨hfile, htasks.flip⟩)).imp ?_
  rintro t n ⟨⟨f, hf⟩, hname, hcontent⟩
  rw [request, hf, Option.getD_some] at hcontent
  exact ⟨hname, hcontent.trans hf.symm⟩

/-- The user enters `a`; the worker reads its connection in three pieces. -/
theorem programs_arrive_two :
    ∃ m r fuel w ws, ReachableWithin (fun m e _ => m.lossless e = true) m ∧ Models m r
      ∧ receive (fun _ => quietIo) fuel 0
        (receiver [.chunk 80 [85, 84], .intr, .chunk 32 ([97, 10] ++ sizeBytes 1), .chunk 120 []]) =
          some (.left, w)
      ∧ ws.Sublist [[97]] ∧ r.told 1 = ws.map (request homeKernel)
      ∧ List.Forall₂ (fun t n => t.1.inputFilename = some n ∧ t.2 = homeKernel.store n) w.pushed ws := by
  obtain ⟨m, hr, hv⟩ := execWithin_spec (c := lossless) id (v := true)
    [.accept [⟨5, [5], default⟩, ⟨6, [6], default⟩], .data 5 (chunk submitFrame) {}]
    (f := fun m => decide ((m.heap 0).alive = true ∧ (m.heap 0).workerFd = 5
      ∧ m.kernel.desc 6 = some .sock ∧ m.current 6 = some 1 ∧ m.nextWorker = 2
      ∧ m.kernel.taken 5 = submitFrame ∧ m.kernel.sent 6 = putFrame ([97], [120])))
    (by decide +kernel)
  obtain ⟨hal, hfd, hd, hcur, hcount, htaken, hsent⟩ := of_decide_eq_true hv
  obtain ⟨r, hmodels, harrive⟩ := programs_arrive hr
  have hnum := Router.numbered hmodels.reach
  have hone : ∀ y ∈ r.moved, y.2.1 = 1 → y.1 = 0 := by
    intro y hy hdst
    have hlt := (hnum.moved y hy).1
    have hne := hnum.apart y hy
    rw [hmodels.wired.count, hcount] at hlt
    omega
  have hat : At m 6 1 := by
    obtain ⟨q, hq⟩ := hr.reachable.registry.at hd
    exact hq.unique hcur ▸ hq
  have htyped : Typed m 0 homeKernel [some 97, some 10] := by
    refine ⟨hal, rfl, homeKernel_short, by decide, fun _ => none, 3, [], .waits, _, fun _ _ => rfl, rfl,
      rfl, by decide, rfl, ?_⟩
    rw [hfd, htaken]
    decide
  have hread : Reading (m.kernel.sent 6) (found homeKernel (words .blank [some 97, some 10]))
      (fun _ => quietIo) (receiver []).kernel
      [.chunk 80 [85, 84], .intr, .chunk 32 ([97, 10] ++ sizeBytes 1), .chunk 120 []] := by
    refine ⟨by decide, ?_, fun _ => rfl, fun _ => rfl, by decide⟩
    rw [hsent]
    decide
  obtain ⟨fuel, w, ws, hreceive, hws, htold, htasks⟩ :=
    harrive 0 1 6 homeKernel [some 97, some 10] htyped hone hd hat _ _ _ hread
  exact ⟨m, r, fuel, w, ws, hr, hmodels, hreceive, hws, htold, htasks⟩

end Master

end KeyLime
