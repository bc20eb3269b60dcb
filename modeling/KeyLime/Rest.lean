import KeyLime.Return
import KeyLime.Settling

/-!
# When all is at rest

What is shown to the user is of what was entered, and none of it is shown too
often (`programs_return`). In the end none of it is missing either: when the
threads of every worker have come to rest, as they do if left alone
(`settles`), and no bytes are on their way any more, each program that was
entered has been executed once, and its output has been shown once.

The argument is that of `Return` with equalities. At rest a worker has executed
all it was told, and the master has taken all it has said; so the sums over the
connections are equal, and `exists_map_of_eq` turns the equality of outputs into
a permutation of the programs.

At rest means, of each connection but that of the interface (`Rests`):

* its receive loop has read all that was sent, with file calls that succeed;
* its threads have settled (`Settled`), by a run that is `Tidy`, and no write to the
  master has failed, so that no task has been abandoned;
* the master has read all that they have sent, and the record is alive.

The master's run is `lossless` as before: no file call fails, no frame is cut
short, nobody is revived and no silent record has tasks. A worker that dies is
outside of this; what then becomes of its tasks is in `Recovery` and `Losses`.
-/

namespace KeyLime

open Resume Intake Transition

section
variable {α β : Type*} {f : α → β} {l : List α} {xs : List β}

theorem exists_map_of_eq (h : (xs : Multiset β) = (l : Multiset α).map f) :
    ∃ l' : List α, l'.Perm l ∧ xs = l'.map f := by
  obtain ⟨l', hsub, hxs⟩ := exists_map_of_le h.le
  have hcard := congrArg Multiset.card h
  rw [Multiset.card_map, Multiset.coe_card, Multiset.coe_card, hxs, List.length_map] at hcard
  exact ⟨l', hsub.perm_of_length_le hcard.ge, hxs⟩

end

namespace Router

variable {φ : Type*} {r : Router φ} {p : Nat}

/-- If all others have replied to all they have been told, `p` has been told a
reply to everything it has said. -/
theorem Numbered.star_replied (h : Numbered r) (hs : r.Star p) (reply : φ → φ)
    (hreply : ∀ q, q ≠ p → (r.heard q : Multiset φ) = (r.told q : Multiset φ).map reply) :
    (r.told p : Multiset φ) = (r.heard p : Multiset φ).map reply := by
  have hsum := map_sum (Multiset.mapAddMonoidHom reply) (fun q => (r.told q : Multiset φ))
    ((Finset.range r.count).erase p)
  rw [Multiset.coe_mapAddMonoidHom] at hsum
  rw [h.star_told hs, h.star_heard hs, hsum]
  exact Finset.sum_congr rfl fun q hq => hreply q (Finset.ne_of_mem_erase hq)

end Router

namespace Master

variable {exec : Bytes → Bytes} {m : Master} {r : Router Frame} {fd : Int} {p q : Nat}
  {names : List Bytes} {home : Kernel} {input : Input}

/-- What record `p` has taken is all of a session in the directory of `home`. -/
structure TypedAll (m : Master) (p : Nat) (home : Kernel) (input : Input) : Prop where
  typed : Typed m p home input
  all : ∃ dirs sockFd os e k', NoDirectory dirs home input ∧ home.desc sockFd = some .sock
    ∧ home.sent sockFd = [] ∧ Accepting os
    ∧ session dirs sockFd (input.length + 1) input os home = some (e, k')
    ∧ m.kernel.taken (m.heap p).workerFd = k'.sent sockFd

theorem TypedAll.heard (he : TypedAll m p home input) (h : Models m r) :
    r.heard p = (found home (words .blank input)).map (request home) := by
  obtain ⟨dirs, sockFd, os, e, k', hfiles, hd, hfresh, hos, hsession, hall⟩ := he.all
  obtain ⟨e₁, k₁, hsession₁, -, hsent⟩ := session_sent hd hfresh hos he.typed.room hfiles
  obtain ⟨-, rfl⟩ := Prod.mk.inj (Option.some.inj (hsession.symm.trans hsession₁))
  have hsize : ∀ path f, home.store path = some f → f.length < 2 ^ 64 := fun path f hf =>
    (he.typed.size path f hf).trans (by decide)
  rw [← h.heard p he.typed.alive, hall, hsent, framesOf_requests he.typed.empty hsize]

/-- Record `q` is of a worker at rest: its receive loop has made tasks of all it has
been sent, its threads have settled with these by a tidy run, no write of theirs
has failed, and the master has taken all they have sent. -/
structure Rests (exec : Bytes → Bytes) (names : List Bytes) (m : Master) (q : Nat) : Prop where
  alive : (m.heap q).alive = true
  isOpen : m.kernel.desc (m.heap q).workerFd = some .sock
  listed : At m (m.heap q).workerFd q
  threads : ∃ s : Pipeline, s.TidyReachable exec ∧ s.Settled ∧ s.abandoned = []
    ∧ (∀ p ∈ s.accepted, (exec p.2).length < 2 ^ 63)
    ∧ m.kernel.taken (m.heap q).workerFd = s.kernel.sent socketFd
    ∧ ∃ ios k arrivals fuel w, Reading (m.kernel.sent (m.heap q).workerFd) names ios k arrivals
      ∧ receive ios fuel 0 ⟨k, arrivals, []⟩ = some (.left, w)
      ∧ s.accepted = w.pushed.map fun t => (t.1.inputFilename.getD [], t.2.getD [])

theorem Rests.works (h : Rests exec names m q) : Works exec names m q := by
  obtain ⟨halive, hopen, hlisted, s, hs, -, -, hshort, htaken, ios, k, arrivals, fuel, w, hread,
    hreceive, hacc⟩ := h
  exact ⟨halive, hopen, hlisted, s, hs, hshort, htaken ▸ List.prefix_rfl, ios, k, arrivals, fuel, w,
    hread, hreceive, hacc ▸ List.prefix_rfl⟩

/-- **A worker at rest has replied** to all it has been told. -/
theorem Rests.replied (h : Rests exec names m q) (hm : Models m r)
    (htold : ∀ x ∈ r.told q, x.2.1 ∈ names ∧ x.2.2.length < 2 ^ 63) :
    (r.heard q : Multiset Frame) = (r.told q : Multiset Frame).map (reply exec) := by
  refine Multiset.eq_of_le_of_card_le (h.works.replies hm htold).1 ?_
  obtain ⟨s, hs, hsettled, hgiven, hshort, htaken, ios, k, arrivals, fuel, w, hread, hreceive,
    hacc⟩ := h.threads
  rw [hm.pushed h.isOpen h.listed htold hread hreceive] at hacc
  obtain ⟨ha, ho, hans⟩ := hs.wire
  obtain ⟨seqs, -, hsent, -, hframes⟩ := hans.frames ha ho fun p hp =>
    (hshort p hp).trans (by decide)
  have hheard : framesOf (s.kernel.sent socketFd) = r.heard q := by
    rw [← htaken]
    exact hm.heard q h.alive
  rw [hheard] at hframes
  rw [Multiset.card_map, Multiset.coe_card, Multiset.coe_card]
  calc (r.told q).length = s.accepted.length := by rw [hacc, List.length_map]
    _ = (s.sent.map Prod.fst).length := by rw [List.length_map, hsettled.answered hgiven]
    _ ≤ seqs.length := hsent.length_le
    _ = (r.heard q).length := hframes.length_eq

/-- **All programs return.** With one interface, all of whose frames have been
taken, and workers at rest on all other connections that anything has passed
on, the user is shown the output of each program that was entered: whole, one
after the other, and each as often as it was entered. The order is that in which
the results came to the master. -/
theorem all_return (h : ReachableWithin (fun m e _ => m.lossless e = true) m) :
    ∃ r, Models m r ∧ ∀ (p : Nat) (fd : Int) (home : Kernel) (input : Input),
      TypedAll m p home input → m.kernel.desc fd = some .sock → At m fd p → r.Star p →
      (∀ y ∈ r.moved, ∀ q, q ≠ p → y.1 = q ∨ y.2.1 = q →
        Rests exec (found home (words .blank input)) m q) →
      ∀ e mem b s, Printer.Plain s → incoming s = m.kernel.sent fd →
        ∃ (n : Nat) (printer : Printer) (s' : List (Arrival UInt8)) (ws : List Bytes),
          Printer.run (Printer.recv e) n (Printer.start mem b) s = .on printer s'
          ∧ incoming s' = [] ∧ ws.Perm (found home (words .blank input))
          ∧ printer.output =
            (ws.map fun w => exec ((home.store (home.resolve w)).getD [])).flatten := by
  obtain ⟨-, r, hr⟩ := h.routed
  refine ⟨r, hr, ?_⟩
  intro p fd home input htyped hd hat hstar hrests e mem b s hs hin
  have hnum := Router.numbered hr.reach
  have hrest : ∀ q, q ≠ p → Rests exec (found home (words .blank input)) m q
      ∨ r.heard q = [] ∧ r.told q = [] := by
    intro q hq
    by_cases hmoved : ∃ y ∈ r.moved, y.1 = q ∨ y.2.1 = q
    · obtain ⟨y, hy, hyq⟩ := hmoved
      exact Or.inl (hrests y hy q hq hyq)
    · refine Or.inr ⟨?_, ?_⟩ <;> refine List.eq_nil_iff_forall_not_mem.mpr fun x hx => hmoved ?_
      · obtain ⟨dst, hy⟩ := Router.mem_heard.mp hx
        exact ⟨_, hy, Or.inl rfl⟩
      · obtain ⟨src, hy⟩ := Router.mem_told.mp hx
        exact ⟨_, hy, Or.inr rfl⟩
  have hreplied : ∀ q, q ≠ p → (r.heard q : Multiset Frame) =
      (r.told q : Multiset Frame).map (reply exec) := by
    intro q hq
    rcases hrest q hq with hrests | ⟨hheard, htold⟩
    · exact hrests.replied hr fun x hx => htyped.typed.told hr hstar hq hx
    · rw [hheard, htold]
      rfl
  have hlong : ∀ x ∈ r.told p, x.2.2.length < 2 ^ 63 := by
    intro x hx
    obtain ⟨src, hy⟩ := Router.mem_told.mp hx
    have hne := hnum.apart _ hy
    have hheard := Router.mem_heard.mpr ⟨p, hy⟩
    exact ((hrests _ hy src hne (Or.inl rfl)).works.replies hr fun x hx =>
      htyped.typed.told hr hstar hne hx).2 x hheard
  have hall : (r.told p : Multiset Frame) =
      (found home (words .blank input) : Multiset Bytes).map (reply exec ∘ request home) := by
    rw [hnum.star_replied hstar _ hreplied, htyped.heard hr, ← Multiset.map_coe, Multiset.map_map]
  obtain ⟨ws, hws, htold⟩ := exists_map_of_eq hall
  obtain ⟨n, printer, s', hn, hin', hout⟩ := hr.prints hd hat hlong e mem b hs hin
  refine ⟨n, printer, s', ws, hn, hin', hws, ?_⟩
  rw [hout, htold, List.map_map]
  rfl

/-- The user has entered `a`, and the worker on 6 has answered. -/
theorem all_return_two :
    ∃ (m : Master) (n : Nat) (printer : Printer) (s' : List (Arrival UInt8)),
      ReachableWithin (fun m e _ => m.lossless e = true) m
      ∧ Printer.run (Printer.recv .eof) n (Printer.start (fun _ => 0) 0)
        [.chunk 80 [85, 84, 32], .chunk 97 (newline :: sizeBytes 1), .chunk 120 []] =
          .on printer s'
      ∧ incoming s' = [] ∧ printer.output = [120] := by
  obtain ⟨m, hr, hal0, hfd0, hal1, hfd1, hd5, hd6, hat5, hat6, hcount, htaken5, htaken6, hsent5,
    hsent6⟩ := returning_run
  obtain ⟨r, hmodels, hreturn⟩ := @all_return id m hr
  have hnum := Router.numbered hmodels.reach
  have hends : ∀ y ∈ r.moved, (y.1 = 0 ∨ y.1 = 1) ∧ (y.2.1 = 0 ∨ y.2.1 = 1) ∧ y.1 ≠ y.2.1 := by
    intro y hy
    have hlt := hnum.moved y hy
    rw [hmodels.wired.count, hcount] at hlt
    exact ⟨by omega, by omega, hnum.apart y hy⟩
  have hstar : r.Star 0 := fun y hy => by
    have := hends y hy
    omega
  have htyped : TypedAll m 0 homeKernel [some 97, some 10] := by
    refine ⟨⟨hal0, rfl, homeKernel_short, by decide, fun _ => none, 3, [], .waits, _, fun _ _ => rfl,
      rfl, rfl, by decide, rfl, ?_⟩, fun _ => none, 3, [], .waits, _, fun _ _ => rfl, rfl, rfl,
      by decide, rfl, ?_⟩ <;> rw [hfd0, htaken5] <;> decide
  obtain ⟨threads, hthreads, hmain, hstarted, hfinished, hsent, hgiven, hacc, hsaid⟩ :=
    returning_threads
  have hleft : threads.left = [] := by rw [Pipeline.left, hfinished]; rfl
  have hexecuted : threads.Executed := by
    rw [Pipeline.Executed, hstarted, hleft, hsent, hgiven, hacc]
    exact ⟨List.Perm.refl _, List.Perm.refl _⟩
  obtain ⟨w, hreceive, hpushed⟩ := returning_received
  have hrests : Rests id (found homeKernel (words .blank [some 97, some 10])) m 1 := by
    refine ⟨hal1, hfd1 ▸ hd6, hfd1 ▸ hat6, threads, hthreads, ⟨hmain, hexecuted, fun _ => hleft⟩,
      hgiven, ?_, ?_, fun _ => quietIo, _, _, 20, w,
      ⟨by decide, ?_, fun _ => rfl, fun _ => rfl, by decide⟩, hreceive, ?_⟩
    · rw [hacc]
      decide
    · rw [hfd1, htaken6, hsaid]
    · rw [hfd1, hsent6]
      decide
    · rw [hacc, hpushed]
  obtain ⟨n, printer, s', ws, hrun, hin, hws, hout⟩ :=
    hreturn 0 5 homeKernel [some 97, some 10] htyped hd5 hat5 hstar (fun y hy q hq hyq => by
      have hend := hends y hy
      have hq1 : q = 1 := by omega
      exact hq1 ▸ hrests) .eof (fun _ => 0) 0
      [.chunk 80 [85, 84, 32], .chunk 97 (newline :: sizeBytes 1), .chunk 120 []]
      ⟨by decide, by decide⟩ (by rw [hsent5]; decide)
  have hone : ws = [[97]] := List.perm_singleton.mp hws
  refine ⟨m, n, printer, s', hr, hrun, hin, ?_⟩
  rw [hout, hone]
  decide

end Master

end KeyLime
