import Mathlib.Algebra.BigOperators.Group.Finset.Basic
import Mathlib.Data.Multiset.Filter
import KeyLime.Passage
import KeyLime.Printer
import KeyLime.Wire

/-!
# From the user and back

The whole of a cluster with one interface. The user enters names, the
interface sends the files of them, the master routes them to the workers, the
threads of the workers execute them and send what they have to say, the master
routes that back, and the interface prints it. The user is shown outputs of the
programs that were entered, whole, one after the other, and none of them more
often than it was entered (`programs_return`).

With one interface the router's frames form a star: each goes out of the centre
or into it (`Star`), and what the centre is told is the sum over the other
connections of what these say. For each of them

    what it says  ≤  what its threads have executed  ≤  what it has been told

counted as multisets. The first step is `output_of_own_program` and `Wire`, the
second `one_place` and `receives_all`. Summed up, this is `le_of_places`: what
is printed is a part of what was entered.

The conditions are those of the parts. The master's run is `lossless` (see
`Router`), so nothing is sent again by a detection pass and nobody is revived.
The threads of each worker have come by a `Tidy` run: every name is plain for the
shell and its command line fits, and it is not entered again while its files are
in use. A program that is entered twice may come to the same worker twice, and
then the second run empties the output of the first unless that has been sent.
-/

namespace KeyLime

open Resume Intake Transition

/-! ## A star -/

namespace Router

variable {α φ : Type*} {r : Router φ} {p n : Nat}

theorem coe_filterMap_cons (h : α → Nat) (v : α → φ) (q : Nat) (y : α) (l : List α) :
    (((y :: l).filterMap fun y => if h y = q then some (v y) else none : List φ) : Multiset φ) =
      (if h y = q then {v y} else 0)
        + ((l.filterMap fun y => if h y = q then some (v y) else none : List φ) : Multiset φ) := by
  by_cases hq : h y = q
  · simp [hq]
  · simp [hq]

/-- Sorted by where they come from, the items that go to `p` are those that
come from anywhere else. -/
theorem sum_apart (f g : α → Nat) (v : α → φ) {l : List α}
    (hstar : ∀ y ∈ l, g y < n ∧ (f y = p ↔ g y ≠ p)) :
    ((l.filterMap fun y => if f y = p then some (v y) else none : List φ) : Multiset φ) =
      ∑ q ∈ (Finset.range n).erase p,
        ((l.filterMap fun y => if g y = q then some (v y) else none : List φ) : Multiset φ) := by
  induction l with
  | nil => simp
  | cons y l ih =>
      obtain ⟨hlt, hiff⟩ := hstar y List.mem_cons_self
      have hmem : g y ∈ (Finset.range n).erase p ↔ f y = p := by
        rw [Finset.mem_erase, Finset.mem_range, hiff]
        exact and_iff_left hlt
      rw [coe_filterMap_cons, ih fun y hy => hstar y (List.mem_cons_of_mem _ hy),
        Finset.sum_congr rfl fun q _ => coe_filterMap_cons g v q y l, Finset.sum_add_distrib,
        Finset.sum_ite_eq]
      simp only [hmem]

theorem mem_heard {q : Nat} {x : φ} : x ∈ r.heard q ↔ ∃ dst, (q, dst, x) ∈ r.moved := by
  rw [heard, List.mem_filterMap]
  constructor
  · rintro ⟨⟨src, dst, x'⟩, hy, heq⟩
    by_cases hsrc : src = q
    · obtain rfl : x' = x := by simpa only [hsrc, if_true, Option.some.injEq] using heq
      exact ⟨dst, hsrc ▸ hy⟩
    · simp only [hsrc, if_false, reduceCtorEq] at heq
  · rintro ⟨dst, hy⟩
    exact ⟨(q, dst, x), hy, if_pos rfl⟩

theorem mem_told {q : Nat} {x : φ} : x ∈ r.told q ↔ ∃ src, (src, q, x) ∈ r.moved := by
  rw [told, List.mem_filterMap]
  constructor
  · rintro ⟨⟨src, dst, x'⟩, hy, heq⟩
    by_cases hdst : dst = q
    · obtain rfl : x' = x := by simpa only [hdst, if_true, Option.some.injEq] using heq
      exact ⟨src, hdst ▸ hy⟩
    · simp only [hdst, if_false, reduceCtorEq] at heq
  · rintro ⟨src, hy⟩
    exact ⟨(src, q, x), hy, if_pos rfl⟩

/-- Each frame that has passed was to `p` or from it. -/
def Star (r : Router φ) (p : Nat) : Prop := ∀ y ∈ r.moved, y.1 = p ∨ y.2.1 = p

theorem Numbered.star_told (h : Numbered r) (hs : r.Star p) :
    (r.told p : Multiset φ) = ∑ q ∈ (Finset.range r.count).erase p, (r.heard q : Multiset φ) :=
  sum_apart (fun y : Nat × Nat × φ => y.2.1) Prod.fst (fun y => y.2.2) fun y hy => by
    have hne := h.apart y hy
    refine ⟨(h.moved y hy).1, fun hdst hsrc => hne (hsrc.trans hdst.symm), ?_⟩
    intro hsrc
    exact (hs y hy).resolve_left hsrc

theorem Numbered.star_heard (h : Numbered r) (hs : r.Star p) :
    (r.heard p : Multiset φ) = ∑ q ∈ (Finset.range r.count).erase p, (r.told q : Multiset φ) :=
  sum_apart Prod.fst (fun y : Nat × Nat × φ => y.2.1) (fun y => y.2.2) fun y hy => by
    have hne := h.apart y hy
    refine ⟨(h.moved y hy).2, fun hsrc hdst => hne (hsrc.trans hdst.symm), ?_⟩
    intro hdst
    exact (hs y hy).resolve_right hdst

/-- If all others reply to what they have been told, `p` is told replies to
what it has said. -/
theorem Numbered.star_replies (h : Numbered r) (hs : r.Star p) (reply : φ → φ)
    (hreply : ∀ q, q ≠ p → (r.heard q : Multiset φ) ≤ (r.told q : Multiset φ).map reply) :
    (r.told p : Multiset φ) ≤ (r.heard p : Multiset φ).map reply := by
  have hsum := map_sum (Multiset.mapAddMonoidHom reply) (fun q => (r.told q : Multiset φ))
    ((Finset.range r.count).erase p)
  rw [Multiset.coe_mapAddMonoidHom] at hsum
  rw [h.star_told hs, h.star_heard hs, hsum]
  exact Finset.sum_le_sum fun q hq => hreply q (Finset.ne_of_mem_erase hq)

end Router

section
variable {α β : Type*} {f : α → β} {l : List α} {xs : List β}

/-- Items that belong to distinct places of a list are at most those there. -/
theorem le_of_places {is : List Nat} (hn : is.Nodup)
    (h : List.Forall₂ (fun i x => ∃ y, l[i]? = some y ∧ x = f y) is xs) :
    (xs : Multiset β) ≤ (l : Multiset α).map f := by
  have hxs : is.map (fun i => (l[i]?).map f) = xs.map some ∧ ∀ i ∈ is, i < l.length := by
    clear hn
    induction h with
    | nil => exact ⟨rfl, fun _ hi => (List.not_mem_nil hi).elim⟩
    | cons hx _ ih =>
        obtain ⟨y, hy, rfl⟩ := hx
        rw [List.map_cons, hy, ih.1]
        exact ⟨rfl, List.forall_mem_cons.mpr ⟨(List.getElem?_eq_some_iff.mp hy).1, ih.2⟩⟩
  have hall : (List.range l.length).map (fun i => (l[i]?).map f) = (l.map f).map some :=
    List.ext_getElem (by simp) fun i _ hi => by
      rw [List.length_map, List.length_map] at hi
      simp [hi]
  have hle : (is : Multiset Nat) ≤ (List.range l.length : Multiset Nat) :=
    (Multiset.le_iff_subset (Multiset.coe_nodup.mpr hn)).mpr fun i hi =>
      List.mem_range.mpr (hxs.2 i hi)
  have hmap := Multiset.map_le_map (f := fun i => (l[i]?).map f) hle
  rw [Multiset.map_coe, Multiset.map_coe, hxs.1, hall, ← Multiset.map_coe, ← Multiset.map_coe,
    Multiset.map_le_map_iff (Option.some_injective β)] at hmap
  exact hmap

theorem exists_map_of_le (h : (xs : Multiset β) ≤ (l : Multiset α).map f) :
    ∃ l' : List α, l'.Subperm l ∧ xs = l'.map f := by
  obtain ⟨ys, hperm, hsub⟩ : xs.Subperm (l.map f) := Multiset.coe_le.mp h
  obtain ⟨l₁, hl₁, rfl⟩ := List.sublist_map_iff.mp hsub
  have hcomp := congrFun (congrFun (List.eq_map_comp_perm f) xs) l₁
  obtain ⟨l', hxs, hl'⟩ := hcomp.mpr hperm.symm
  exact ⟨l', ⟨l₁, hl'.symm, hl₁⟩, hxs⟩

end

namespace Master

variable {exec : Bytes → Bytes} {m : Master} {r : Router Frame} {fd : Int} {p q : Nat}
  {names : List Bytes}

def reply (exec : Bytes → Bytes) (x : Frame) : Frame := (.put, x.2.1, exec x.2.2)

/-- Record `q` is of a worker: its receive loop makes tasks of what it reads, its
threads have come by a tidy run to execute and send some of these, and what the
master has taken of it is of what they have sent. -/
structure Works (exec : Bytes → Bytes) (names : List Bytes) (m : Master) (q : Nat) : Prop where
  alive : (m.heap q).alive = true
  isOpen : m.kernel.desc (m.heap q).workerFd = some .sock
  listed : At m (m.heap q).workerFd q
  threads : ∃ s : Pipeline, s.TidyReachable exec
    ∧ (∀ p ∈ s.accepted, (exec p.2).length < 2 ^ 63)
    ∧ m.kernel.taken (m.heap q).workerFd <+: s.kernel.sent socketFd
    ∧ ∃ ios k arrivals fuel w, Reading (m.kernel.sent (m.heap q).workerFd) names ios k arrivals
      ∧ receive ios fuel 0 ⟨k, arrivals, []⟩ = some (.left, w)
      ∧ s.accepted <+: w.pushed.map fun t => (t.1.inputFilename.getD [], t.2.getD [])

/-- What the receive loop of a worker makes of what it has been told. -/
theorem Models.pushed (hm : Models m r) (hd : m.kernel.desc fd = some .sock) (hat : At m fd q)
    (htold : ∀ x ∈ r.told q, x.2.1 ∈ names ∧ x.2.2.length < 2 ^ 63) {ios : Nat → RoundIo}
    {k : Kernel} {s : List (Arrival UInt8)} {fuel : Nat} {w : Receiver}
    (hread : Reading (m.kernel.sent fd) names ios k s)
    (hreceive : receive ios fuel 0 ⟨k, s, []⟩ = some (.left, w)) :
    w.pushed.map (fun t => (t.1.inputFilename.getD [], t.2.getD [])) =
      (r.told q).map Prod.snd := by
  obtain ⟨fuel', w', hreceive', htasks⟩ := hm.received hd hat (fun x hx => (htold x hx).2)
    hread.noErr hread.stream hread.openOk hread.disk fun x hx => hread.dir _ (htold x hx).1
  obtain rfl : w = w' := by
    have h₁ := receive_mono (Nat.le_max_left fuel fuel') hreceive
    have h₂ := receive_mono (Nat.le_max_right fuel fuel') hreceive'
    exact (Prod.mk.inj (Option.some.inj (h₁.symm.trans h₂))).2
  rw [← List.forall₂_eq_eq_eq, List.forall₂_map_left_iff, List.forall₂_map_right_iff]
  refine htasks.imp fun t x ht => ?_
  rw [ht.1, ht.2]
  rfl

/-- **A worker replies** to what it has been told, at most once to each frame. -/
theorem Works.replies (h : Works exec names m q) (hm : Models m r)
    (htold : ∀ x ∈ r.told q, x.2.1 ∈ names ∧ x.2.2.length < 2 ^ 63) :
    (r.heard q : Multiset Frame) ≤ (r.told q : Multiset Frame).map (reply exec)
      ∧ ∀ x ∈ r.heard q, x.2.2.length < 2 ^ 63 := by
  obtain ⟨s, hs, hshort, htaken, ios, k, arrivals, fuel, w, hread, hreceive, hacc⟩ := h.threads
  rw [hm.pushed h.isOpen h.listed htold hread hreceive] at hacc
  obtain ⟨ha, ho, hans⟩ := hs.wire
  obtain ⟨seqs, hnodup, -, -, hframes⟩ := hans.frames ha ho fun p hp =>
    (hshort p hp).trans (by decide)
  have hprefix : r.heard q <+: framesOf (s.kernel.sent socketFd) := by
    rw [← hm.heard q h.alive]
    exact framesOf_prefix htaken
  have hheard := List.forall₂_take (r.heard q).length hframes
  rw [← List.prefix_iff_eq_take.mp hprefix] at hheard
  refine ⟨le_of_places (hnodup.sublist (List.take_sublist _ _)) (hheard.imp fun i x hx => ?_),
    fun x hx => ?_⟩
  · obtain ⟨name, payload, hget, rfl⟩ := hx
    obtain ⟨more, hmore⟩ := hacc
    have htold : ((r.told q).map Prod.snd)[i]? = some (name, payload) := by
      rw [← hmore, List.getElem?_append_left (List.getElem?_eq_some_iff.mp hget).1, hget]
    rw [List.getElem?_map] at htold
    obtain ⟨y, hy, heq⟩ := Option.map_eq_some_iff.mp htold
    exact ⟨y, hy, by rw [reply, heq]⟩
  · obtain ⟨j, hj, rfl⟩ := List.getElem_of_mem hx
    have hj' : j < (seqs.take (r.heard q).length).length := by rwa [hheard.length_eq]
    obtain ⟨name, payload, hget, heq⟩ := hheard.get hj' hj
    rw [List.get_eq_getElem] at heq
    rw [heq]
    exact hshort (name, payload) (List.mem_of_getElem? hget)

theorem Typed.told {home : Kernel} {input : Input} (ht : Typed m p home input) (h : Models m r)
    (hs : r.Star p) (hq : q ≠ p) {x : Frame} (hx : x ∈ r.told q) :
    x.2.1 ∈ found home (words .blank input) ∧ x.2.2.length < 2 ^ 63 := by
  obtain ⟨src, hy⟩ := Router.mem_told.mp hx
  obtain rfl : src = p := (hs _ hy).resolve_right hq
  obtain ⟨n, hn, rfl⟩ := List.mem_map.mp ((ht.heard h).subset (Router.mem_heard.mpr ⟨q, hy⟩))
  obtain ⟨f, hf⟩ := (found_mem hn).2
  exact ⟨hn, by rw [request, hf]; exact ht.size _ f hf⟩

theorem Models.prints (hr : Models m r) (hd : m.kernel.desc fd = some .sock) (hat : At m fd p)
    (hshort : ∀ x ∈ r.told p, x.2.2.length < 2 ^ 63) (e : Printer.Stop) (mem : Nat → UInt8)
    (b : UInt8) {s : List (Arrival UInt8)} (hs : Printer.Plain s) (hin : incoming s = m.kernel.sent fd) :
    ∃ (n : Nat) (printer : Printer) (s' : List (Arrival UInt8)),
      Printer.run (Printer.recv e) n (Printer.start mem b) s = .on printer s'
      ∧ incoming s' = [] ∧ printer.output = ((r.told p).map fun x => x.2.2).flatten := by
  have hframes : ∀ f ∈ (r.told p).map Prod.snd,
      newline ∉ f.1 ∧ (putHeader f.1).length ≤ 1024 ∧ f.2.length < 2 ^ 63 := by
    intro f hf
    obtain ⟨x, hx, rfl⟩ := List.mem_map.mp hf
    have hcarried := hr.told_carried hx
    exact ⟨hcarried.proper.name.line, hcarried.header, hshort x hx⟩
  have hstream : incoming s = (((r.told p).map Prod.snd).map putFrame).flatten ++ [] := by
    rw [hin, hr.wired.told fd p hd hat, List.append_nil, List.map_map, List.flatMap_def]
    rfl
  have hloop : (Printer.start mem b).step (Printer.recv e) s =
      .on { Printer.start mem b with place := .line } s := rfl
  obtain ⟨printer, s', hgets, -, hout, hin', -⟩ := Printer.gets_frames (e := e)
    (p := { Printer.start mem b with place := .line }) hframes hs ⟨rfl, rfl, rfl⟩ hstream
  obtain ⟨n, hn⟩ := Printer.Gets.step hloop hgets
  refine ⟨n, printer, s', hn, hin', ?_⟩
  rw [hout, List.map_map]
  rfl

/-- **Programs return.** With one interface, and workers on all connections it has
been told something by, the user is shown outputs of programs that were entered:
whole, one after the other, and each at most as often as it was entered. What is
printed is the output of the user's own file, although it has been written four
times on the way, by the master and the worker, there and back. -/
theorem programs_return (h : ReachableWithin (fun m e _ => m.lossless e = true) m) :
    ∃ r, Models m r ∧ ∀ (p : Nat) (fd : Int) (home : Kernel) (input : Input),
      Typed m p home input → m.kernel.desc fd = some .sock → At m fd p → r.Star p →
      (∀ y ∈ r.moved, y.2.1 = p → Works exec (found home (words .blank input)) m y.1) →
      ∀ e mem b s, Printer.Plain s → incoming s = m.kernel.sent fd →
        ∃ (n : Nat) (printer : Printer) (s' : List (Arrival UInt8)) (ws : List Bytes),
          Printer.run (Printer.recv e) n (Printer.start mem b) s = .on printer s'
          ∧ incoming s' = [] ∧ ws.Subperm (found home (words .blank input))
          ∧ printer.output =
            (ws.map fun w => exec ((home.store (home.resolve w)).getD [])).flatten := by
  obtain ⟨-, r, hr⟩ := h.routed
  refine ⟨r, hr, ?_⟩
  intro p fd home input htyped hd hat hstar hworks e mem b s hs hin
  have hnum := Router.numbered hr.reach
  have hreplies : ∀ q, q ≠ p → (r.heard q : Multiset Frame) ≤ (r.told q : Multiset Frame).map
      (reply exec) ∧ ∀ x ∈ r.heard q, x.2.2.length < 2 ^ 63 := by
    intro q hq
    by_cases hsilent : r.heard q = []
    · rw [hsilent]
      exact ⟨Multiset.zero_le _, fun x hx => (List.not_mem_nil hx).elim⟩
    · obtain ⟨x, hx⟩ := List.exists_mem_of_ne_nil _ hsilent
      obtain ⟨dst, hy⟩ := Router.mem_heard.mp hx
      exact (hworks _ hy ((hstar _ hy).resolve_left hq)).replies hr fun x hx =>
        htyped.told hr hstar hq hx
  have hall : (r.told p : Multiset Frame) ≤
      (found home (words .blank input) : Multiset Bytes).map (reply exec ∘ request home) := by
    refine (hnum.star_replies hstar _ fun q hq => (hreplies q hq).1).trans ?_
    rw [← Multiset.map_map, Multiset.map_coe (request home)]
    exact Multiset.map_le_map (Multiset.coe_le.mpr (htyped.heard hr).sublist.subperm)
  obtain ⟨ws, hws, htold⟩ := exists_map_of_le hall
  have hlong : ∀ x ∈ r.told p, x.2.2.length < 2 ^ 63 := by
    intro x hx
    obtain ⟨src, hy⟩ := Router.mem_told.mp hx
    exact (hreplies src (hnum.apart _ hy)).2 x (Router.mem_heard.mpr ⟨p, hy⟩)
  obtain ⟨n, printer, s', hn, hin', hout⟩ := hr.prints hd hat hlong e mem b hs hin
  refine ⟨n, printer, s', ws, hn, hin', hws, ?_⟩
  rw [hout, htold, List.map_map]
  rfl

/-! ## One program -/

/-- The user enters `a`, which says what is in it; the worker on 6 executes it. -/
theorem returning_run :
    ∃ m : Master, ReachableWithin (fun m e _ => m.lossless e = true) m
      ∧ (m.heap 0).alive = true ∧ (m.heap 0).workerFd = 5
      ∧ (m.heap 1).alive = true ∧ (m.heap 1).workerFd = 6
      ∧ m.kernel.desc 5 = some .sock ∧ m.kernel.desc 6 = some .sock
      ∧ At m 5 0 ∧ At m 6 1 ∧ m.nextWorker = 2
      ∧ m.kernel.taken 5 = submitFrame ∧ m.kernel.taken 6 = Frame.encode (.put, [97], [120])
      ∧ m.kernel.sent 5 = putFrame ([97], [120]) ∧ m.kernel.sent 6 = putFrame ([97], [120]) := by
  obtain ⟨m, hr, hv⟩ := execWithin_spec (c := lossless) id (v := true)
    [.accept [⟨5, [5], default⟩, ⟨6, [6], default⟩], .data 5 (chunk submitFrame) {},
      .data 6 (chunk (resultLine ++ sizeBytes 1 ++ [120])) {}]
    (f := fun m => decide ((m.heap 0).alive = true ∧ (m.heap 0).workerFd = 5
      ∧ (m.heap 1).alive = true ∧ (m.heap 1).workerFd = 6
      ∧ m.kernel.desc 5 = some .sock ∧ m.kernel.desc 6 = some .sock
      ∧ m.current 5 = some 0 ∧ m.current 6 = some 1 ∧ m.nextWorker = 2
      ∧ m.kernel.taken 5 = submitFrame ∧ m.kernel.taken 6 = Frame.encode (.put, [97], [120])
      ∧ m.kernel.sent 5 = putFrame ([97], [120]) ∧ m.kernel.sent 6 = putFrame ([97], [120])))
    (by decide +kernel)
  obtain ⟨hal0, hfd0, hal1, hfd1, hd5, hd6, hcur5, hcur6, hrest⟩ := of_decide_eq_true hv
  have hat {fd : Int} {p : Nat} (hd : m.kernel.desc fd = some .sock) (hcur : m.current fd = some p) :
      At m fd p := by
    obtain ⟨q, hq⟩ := hr.reachable.registry.at hd
    exact hq.unique hcur ▸ hq
  exact ⟨m, hr, hal0, hfd0, hal1, hfd1, hd5, hd6, hat hd5 hcur5, hat hd6 hcur6, hrest⟩

theorem returning_threads :
    ∃ s : Pipeline, s.TidyReachable id ∧ s.main = .receiving ∧ s.started = [0]
      ∧ s.finished.contents = [] ∧ s.sent.map Prod.fst = [0] ∧ s.abandoned = []
      ∧ s.accepted = [([97], [120])]
      ∧ s.kernel.sent socketFd = Frame.encode (.put, [97], [120]) := by
  have hexec : Pipeline.tidyRun id (Pipeline.requested [97] [120] 0 ++ Pipeline.served 0)
      (fun s => decide (s.main = .receiving ∧ s.started = [0] ∧ s.finished.contents = []
        ∧ s.sent.map Prod.fst = [0] ∧ s.abandoned = [] ∧ s.accepted = [([97], [120])]
        ∧ s.kernel.sent socketFd = Frame.encode (.put, [97], [120]))) = some true := by
    decide +kernel
  obtain ⟨s, hs, hview⟩ := Pipeline.tidyRun_spec hexec
  exact ⟨s, hs, of_decide_eq_true hview⟩

theorem returning_received :
    ∃ w, receive (fun _ => quietIo) 20 0 (receiver [.chunk 80 ([85, 84, 32, 97, 10] ++
        sizeBytes 1 ++ [120])]) = some (.left, w)
      ∧ w.pushed.map (fun t => (t.1.inputFilename.getD [], t.2.getD [])) = [([97], [120])] := by
  have hreceive : (receive (fun _ => quietIo) 20 0 (receiver [.chunk 80 ([85, 84, 32, 97, 10] ++
      sizeBytes 1 ++ [120])])).map (fun x => (x.1, x.2.pushed.map fun t =>
        (t.1.inputFilename.getD [], t.2.getD []))) = some (.left, [([97], [120])]) := by
    decide +kernel
  obtain ⟨⟨ended, w⟩, hreceive, hpushed⟩ := Option.map_eq_some_iff.mp hreceive
  obtain ⟨rfl, hpushed⟩ := Prod.mk.inj hpushed
  exact ⟨w, hreceive, hpushed⟩

/-- The interface prints what `a` says. -/
theorem programs_return_two :
    ∃ (m : Master) (r : Router Frame) (n : Nat) (printer : Printer)
      (s' : List (Arrival UInt8)) (ws : List Bytes),
      ReachableWithin (fun m e _ => m.lossless e = true) m ∧ Models m r
      ∧ r.heard 1 = [(.put, [97], [120])]
      ∧ Printer.run (Printer.recv .eof) n (Printer.start (fun _ => 0) 0)
        [.chunk 80 [85, 84, 32], .chunk 97 (newline :: sizeBytes 1), .chunk 120 []] =
          .on printer s'
      ∧ incoming s' = [] ∧ ws.Subperm [[97]]
      ∧ printer.output = (ws.map fun w => (homeKernel.store w).getD []).flatten := by
  obtain ⟨m, hr, hal0, hfd0, hal1, hfd1, hd5, hd6, hat5, hat6, hcount, htaken5, htaken6, hsent5,
    hsent6⟩ := returning_run
  obtain ⟨r, hmodels, hreturn⟩ := @programs_return id m hr
  have hnum := Router.numbered hmodels.reach
  have hstar : r.Star 0 := by
    intro y hy
    have hlt := hnum.moved y hy
    have hne := hnum.apart y hy
    rw [hmodels.wired.count, hcount] at hlt
    omega
  have htyped : Typed m 0 homeKernel [some 97, some 10] := by
    refine ⟨hal0, rfl, homeKernel_short, by decide, fun _ => none, 3, [], .waits, _, fun _ _ => rfl,
      rfl, rfl, by decide, rfl, ?_⟩
    rw [hfd0, htaken5]
    decide
  obtain ⟨threads, hthreads, -, -, -, -, -, hacc, hsaid⟩ := returning_threads
  obtain ⟨w, hreceive, hpushed⟩ := returning_received
  have hworks : Works id (found homeKernel (words .blank [some 97, some 10])) m 1 := by
    refine ⟨hal1, hfd1 ▸ hd6, hfd1 ▸ hat6, threads, hthreads, ?_, ?_, fun _ => quietIo,
      _, _, 20, w, ⟨by decide, ?_, fun _ => rfl, fun _ => rfl, by decide⟩, hreceive, ?_⟩
    · rw [hacc]
      decide
    · rw [hfd1, htaken6, hsaid]
    · rw [hfd1, hsent6]
      decide
    · rw [hacc, hpushed]
  obtain ⟨n, printer, s', ws, hrun, hin, hws, hout⟩ :=
    hreturn 0 5 homeKernel [some 97, some 10] htyped hd5 hat5 hstar (fun y hy hdst => by
      have hlt := (hnum.moved y hy).1
      have hne := hnum.apart y hy
      rw [hmodels.wired.count, hcount] at hlt
      have hsrc : y.1 = 1 := by omega
      exact hsrc ▸ hworks) .eof (fun _ => 0) 0
      [.chunk 80 [85, 84, 32], .chunk 97 (newline :: sizeBytes 1), .chunk 120 []]
      ⟨by decide, by decide⟩ (by rw [hsent5]; decide)
  refine ⟨m, r, n, printer, s', ws, hr, hmodels, ?_, hrun, hin, hws, hout⟩
  rw [← hmodels.heard 1 hal1, hfd1, htaken6]
  decide

end Master

end KeyLime
