import Mathlib.Data.Set.Insert
import KeyLime.Payloads
import KeyLime.Codec
import KeyLime.Naming

/-!
# The master as a router of frames

`Router` says what the master is for: connections come, one at a time of
them is the interface, and a frame passes from one connection to another,
one of the two being the interface. What a connection has said and what it
has been told are two views of the one list of frames that have passed.

`frames_routed`: the master is a router. In a run that loses no frame, what a live
connection has said, cut into frames, is the first view of some run of the
router, and what an open one has been sent is the second, frame by frame:
nothing is lost, sent twice, sent to a third connection, invented, or
overtaken by a later frame of the same connection. What it has said is what the
master has read of it; bytes behind a frame may stay unread.

The master does not do this in every run. `lossless` is the condition on each
event. Two parts of it are about frames that are cut short:

* calls on files succeed when data arrive: opens and writes while the payload is
  read, and the `fopen` of `do_put`;
* `do_put` sends every frame it is given to the end.

The others are about frames that are passed on changed:

* no payload comes under a name whose file another live record holds open;
* a heartbeat revives nobody, since a record that has died in the middle of a
  frame is not where its connection is any more;
* a pass finds no silent record that has tasks, since it would send these again
  with their files emptied.

The simulation is split in two. `Wired` is about connections and what has been
sent on them, and holds whoever is alive; `Heard` is about what has been read, and
holds of live records only. A call is split by `CallCase`: only the two cases that
end in `do_put` move the router.
-/

namespace KeyLime

open Resume Transition

/-! ## The router -/

/-- Connections are numbered as they come. -/
structure Router (φ : Type*) where
  count : Nat
  opened : Set Nat
  iface : Option Nat
  moved : List (Nat × Nat × φ)

namespace Router

variable {φ : Type*} {r r' : Router φ} {p q : Nat} {x : φ}

inductive Move (φ : Type*) where
  | opens
  | joins (p : Nat)
  | quits (p : Nat)
  | passes (src dst : Nat) (x : φ)

def init : Router φ := ⟨0, ∅, none, []⟩

def allowed (r : Router φ) : Move φ → Prop
  | .opens => True
  | .joins p => p ∈ r.opened ∧ r.iface = none
  | .quits p => r.iface = some p
  | .passes src dst _ =>
      src ∈ r.opened ∧ dst ∈ r.opened ∧ src ≠ dst ∧ (r.iface = some src ∨ r.iface = some dst)

def after (r : Router φ) : Move φ → Router φ
  | .opens => { r with count := r.count + 1, opened := insert r.count r.opened }
  | .joins p => { r with iface := some p }
  | .quits p => { r with iface := none, opened := r.opened \ {p} }
  | .passes src dst x => { r with moved := r.moved ++ [(src, dst, x)] }

def Step (r : Router φ) (e : Move φ) (r' : Router φ) : Prop := r.allowed e ∧ r' = r.after e

def heard (r : Router φ) (p : Nat) : List φ :=
  r.moved.filterMap fun (src, _, x) => if src = p then some x else none

def told (r : Router φ) (p : Nat) : List φ :=
  r.moved.filterMap fun (_, dst, x) => if dst = p then some x else none

theorem heard_passes (src dst : Nat) (x : φ) (p : Nat) :
    (r.after (.passes src dst x)).heard p = r.heard p ++ if src = p then [x] else [] := by
  simp only [heard, after, List.filterMap_append]
  split <;> simp [*]

theorem told_passes (src dst : Nat) (x : φ) (p : Nat) :
    (r.after (.passes src dst x)).told p = r.told p ++ if dst = p then [x] else [] := by
  simp only [told, after, List.filterMap_append]
  split <;> simp [*]

/-- Only connections that have come are open, or have passed anything on, and
none to itself. -/
structure Numbered (r : Router φ) : Prop where
  opened : ∀ p ∈ r.opened, p < r.count
  moved : ∀ y ∈ r.moved, y.1 < r.count ∧ y.2.1 < r.count
  apart : ∀ y ∈ r.moved, y.1 ≠ y.2.1

theorem Numbered.step {e : Move φ} (h : Numbered r) (hs : Step r e r') : Numbered r' := by
  obtain ⟨hok, rfl⟩ := hs
  cases e with
  | opens =>
      refine ⟨?_, ?_, h.apart⟩
      · intro p hp
        rcases hp with rfl | hp
        · exact Nat.lt_succ_self _
        · exact (h.opened p hp).trans (Nat.lt_succ_self _)
      · intro y hy
        exact ⟨(h.moved y hy).1.trans (Nat.lt_succ_self _),
          (h.moved y hy).2.trans (Nat.lt_succ_self _)⟩
  | joins p => exact ⟨h.opened, h.moved, h.apart⟩
  | quits q => exact ⟨fun p hp => h.opened p hp.1, h.moved, h.apart⟩
  | passes src dst x =>
      refine ⟨h.opened, fun y hy => ?_, fun y hy => ?_⟩ <;>
        rcases List.mem_append.mp hy with hy | hy
      · exact h.moved y hy
      · obtain rfl := List.mem_singleton.mp hy
        exact ⟨h.opened src hok.1, h.opened dst hok.2.1⟩
      · exact h.apart y hy
      · obtain rfl := List.mem_singleton.mp hy
        exact hok.2.2.1

theorem numbered (h : Reach Step (init : Router φ) r) : Numbered r :=
  h.invariant ⟨fun _ hp => (Set.notMem_empty _ hp).elim, fun _ hy => (List.not_mem_nil hy).elim,
    fun _ hy => (List.not_mem_nil hy).elim⟩
    fun _ _ _ _ hnum hs => hnum.step hs

theorem Numbered.silent (h : Numbered r) (hp : r.count ≤ p) : r.heard p = [] ∧ r.told p = [] := by
  constructor <;> refine List.filterMap_eq_nil_iff.mpr fun y hy => if_neg fun heq => ?_
  · have hlt := (h.moved y hy).1
    rw [heq] at hlt
    exact Nat.not_lt.mpr hp hlt
  · have hlt := (h.moved y hy).2
    rw [heq] at hlt
    exact Nat.not_lt.mpr hp hlt

end Router

/-- A frame as the master writes it, whoever it came from. -/
def Frame.wire (x : Frame) : Bytes := putFrame x.2

/-- A frame that `get_command` has let through. -/
structure Frame.Carried (x : Frame) : Prop where
  proper : x.Proper
  header : (putHeader x.2.1).length ≤ 1024

namespace Master

variable {m m₁ m₂ m' : Master} {fd g : Int} {p q : Nat} {f : Flow} {io : DataIo} {e : Event}
  {r : Router Frame}

/-! ## The record of a connection -/

theorem Registry.at_iff (hr : Registry m) (hd : m.kernel.desc fd = some .sock) :
    At m fd p ↔ (m.heap p).workerFd = fd
      ∧ (p ∈ m.workerList ∨ m.interface = some p ∧ fd = m.interfaceFd) := by
  refine ⟨fun h => ⟨h.workerFd, h.place.imp And.left fun hi => ⟨hi.1, hi.2.1⟩⟩, ?_⟩
  rintro ⟨hfd, hplace⟩
  obtain ⟨q, hq⟩ := hr.at hd
  suffices hpq : p = q by rwa [hpq]
  rcases hplace with hp | ⟨hi, heq⟩ <;> rcases hq.place with ⟨hql, hne⟩ | ⟨hqi, heq', -⟩
  · exact hr.fdInj p hp q hql (hfd.trans hq.workerFd.symm)
  · obtain ⟨-, -, -, -, hall⟩ := hr.iface (heq' ▸ hq.nonneg)
    exact (hall p hp (hfd.trans heq')).elim
  · exact (hne heq).elim
  · exact Option.some.inj (hi.symm.trans hqi)

theorem Change.at_back (hr : Registry m) (hat : At m fd p) (hc : Change fd p m f)
    (hd : f.master.kernel.desc g = some .sock) (hq : At f.master g q) :
    m.kernel.desc g = some .sock ∧ At m g q := by
  have hr' := hr.change hat hc
  have hplace := (hr'.at_iff hd).mp hq
  cases hc with
  | same hs =>
      have hd₀ := (hs.kernel.sock g).mp hd
      rw [hs.workerList, hs.interface, hs.interfaceFd, hs.workerFd] at hplace
      exact ⟨hd₀, (hr.at_iff hd₀).mpr hplace⟩
  | joins hj =>
      have hd₀ := (hj.kernel.sock g).mp hd
      refine ⟨hd₀, ?_⟩
      rw [hj.workerList, hj.interface, hj.interfaceFd, hj.workerFd] at hplace
      obtain ⟨hfd, hmem | ⟨hi, rfl⟩⟩ := hplace
      · exact (hr.at_iff hd₀).mpr ⟨hfd, Or.inl (List.mem_of_mem_erase hmem)⟩
      · exact Option.some.inj hi ▸ hat
  | quits hq' =>
      rw [hq'.desc] at hd
      have hne : g ≠ fd := by
        rintro rfl
        rw [Function.update_self] at hd
        cases hd
      rw [Function.update_of_ne hne] at hd
      refine ⟨hd, (hr.at_iff hd).mpr ?_⟩
      rw [hq'.workerList, hq'.interfaceFd, hq'.workerFd] at hplace
      exact ⟨hplace.1, Or.inl (hplace.2.resolve_right fun h => hr.ranged.ne hd h.2)⟩

theorem At.same_back (hq : At m' g q) (hr : Registry m) (hs : Same m m')
    (hd : m'.kernel.desc g = some .sock) : m.kernel.desc g = some .sock ∧ At m g q := by
  have hd₀ := (hs.kernel.sock g).mp hd
  obtain ⟨q', hq'⟩ := hr.at hd₀
  exact ⟨hd₀, hq.unique (hq'.same hs).current ▸ hq'⟩

/-! ## The simulation -/

/-- The number of the interface's connection. -/
def ifaceNo (m : Master) : Option Nat := if m.interfaceFd = -1 then none else m.interface

/-- The router has the connections of the master, under the numbers of their records,
and its interface. On each connection that is open the master has sent what the
router has told there, frame by frame, and nothing else. -/
structure Wired (m : Master) (r : Router Frame) : Prop where
  count : r.count = m.nextWorker
  iface : r.iface = m.ifaceNo
  opened : ∀ fd p, m.kernel.desc fd = some .sock → At m fd p → p ∈ r.opened
  told : ∀ fd p, m.kernel.desc fd = some .sock → At m fd p →
    m.kernel.sent fd = (r.told p).flatMap Frame.wire

/-- The router has heard what the live connections have said. A record that has died
in the middle of a frame is not looked at any more. -/
def Heard (m : Master) (r : Router Frame) : Prop :=
  ∀ p, (m.heap p).alive = true → framesOf (m.kernel.taken (m.heap p).workerFd) = r.heard p

theorem Wired.same (h : Wired m r) (hr : Registry m) (hs : Same m m')
    (hsent : ∀ g, m.kernel.desc g = some .sock → m'.kernel.sent g = m.kernel.sent g) :
    Wired m' r := by
  refine ⟨h.count.trans hs.nextWorker.symm, ?_, ?_, ?_⟩
  · rw [h.iface, ifaceNo, ifaceNo, hs.interfaceFd, hs.interface]
  · intro g q hd hq
    obtain ⟨hd₀, hq₀⟩ := hq.same_back hr hs hd
    exact h.opened g q hd₀ hq₀
  · intro g q hd hq
    obtain ⟨hd₀, hq₀⟩ := hq.same_back hr hs hd
    exact (hsent g hd₀).trans (h.told g q hd₀ hq₀)

theorem At.ifaceNo (hat : At m fd p) (hfd : fd = m.interfaceFd) :
    m.ifaceNo = some p := by
  rcases hat.place with ⟨-, hne⟩ | ⟨hi, -⟩
  · exact (hne hfd).elim
  · rw [Master.ifaceNo, if_neg (hfd ▸ hat.nonneg), hi]

/-- **The parser branches** move nothing. The interface may come or go. -/
theorem Wired.parsed {rio : RecvIo} (h : Wired m r) (hready : Ready m) (hr : Registry m)
    (hat : At m fd p) (hd : m.kernel.desc fd = some .sock)
    (hpar : m.parsePhase fd p rio = some f) :
    ∃ r', Reach Router.Step r r' ∧ Wired f.master r' ∧ r'.moved = r.moved := by
  have hc := parsePhase_change hr hat hpar
  have hsent : f.master.kernel.sent = m.kernel.sent :=
    parsePhase_sent hr hat (hready.sound p) (hready.opened p) hpar
  have hback := fun g q => hc.at_back (g := g) (q := q) hr hat
  cases hc with
  | same hs => exact ⟨r, .refl, h.same hr hs fun g _ => congrFun hsent g, rfl⟩
  | joins hj =>
      have hvacant : r.iface = none := by rw [h.iface, ifaceNo, if_pos hj.vacant]
      have hstep : Router.Step r (.joins p) (r.after (.joins p)) :=
        ⟨⟨h.opened fd p hd hat, hvacant⟩, rfl⟩
      refine ⟨r.after (.joins p), Reach.refl.step hstep,
        ⟨h.count.trans hj.nextWorker.symm, ?_, fun g q hd' hq => ?_, fun g q hd' hq => ?_⟩, rfl⟩
      · rw [ifaceNo, hj.interfaceFd, if_neg hat.nonneg, hj.interface]
        rfl
      · obtain ⟨hd₀, hq₀⟩ := hback g q hd' hq
        exact h.opened g q hd₀ hq₀
      · obtain ⟨hd₀, hq₀⟩ := hback g q hd' hq
        rw [hsent]
        exact h.told g q hd₀ hq₀
  | quits hq =>
      have hstep : Router.Step r (.quits p) (r.after (.quits p)) :=
        ⟨h.iface.trans (hat.ifaceNo hq.iface), rfl⟩
      refine ⟨r.after (.quits p), Reach.refl.step hstep,
        ⟨h.count.trans hq.nextWorker.symm, ?_, fun g q hd' hq' => ?_, fun g q hd' hq' => ?_⟩, rfl⟩
      · rw [ifaceNo, hq.interfaceFd, if_pos rfl]
        rfl
      · obtain ⟨hd₀, hq₀⟩ := hback g q hd' hq'
        have hqp : q ≠ p := by
          rintro rfl
          rw [hq.desc, ← hat.workerFd, hq₀.workerFd, Function.update_self] at hd'
          cases hd'
        exact ⟨h.opened g q hd₀ hq₀, hqp⟩
      · obtain ⟨hd₀, hq₀⟩ := hback g q hd' hq'
        rw [hsent]
        exact h.told g q hd₀ hq₀

/-! ## Frames that end -/

/-- What the parser branches take brings the frame they come to the end of,
if they come to one. -/
theorem Tracked.cuts {rio : RecvIo} (ht : m.Tracked p) (hfd : (m.heap p).workerFd = fd)
    (hs : (m.heap p).Sound) (hio : rio.Benign)
    (hlive : (f.master.heap p).alive = true ∨ (f.master.heap p).status ≠ .start)
    (hpar : m.parsePhase fd p rio = some f) :
    ∃ got, framesOf (f.master.kernel.taken fd) =
        framesOf (m.kernel.taken fd) ++ ((f.master.heap p).dec got).frame?.toList
      ∧ ((f.master.heap p).status = .forwardData →
        decode (f.master.kernel.taken fd) = (f.master.heap p).dec got) := by
  obtain ⟨got, hdec, hstores⟩ := ht.stands
  obtain ⟨got', bs, heats⟩ := parsePhase_eats hfd hs ht.parsing hio hstores hlive hpar
  rw [hfd] at hdec
  have hrun := hs.running ht.parsing got
  refine ⟨got', ?_, ?_⟩
  · rw [heats.taken]
    refine framesOf_append (by rw [hdec]; exact heats.feed) fun hbs => ?_
    subst hbs
    have hsame : (m.heap p).dec got = (f.master.heap p).dec got' := (Prod.mk.inj heats.feed).1
    exact Dec.frame?_of_running (hsame ▸ hrun)
  · intro hend
    rcases heats.decode hdec with ⟨hsame, -⟩ | hnew
    · rw [← hsame, Worker.dec, hend] at hrun
      cases hrun
    · exact hnew

/-! ## One call -/

theorem doPut_sent_of_ne {k k' : Kernel} {w : Worker} {dst : Int} {pio : PutIo} {ret : Ret}
    {name : Bytes} (hname : w.tempFileName = some name) (hdst : k.desc dst = some .sock)
    (hsrc : w.tempFd ≠ dst) (h : doPut k dst w pio = some (ret, k')) (hg : g ≠ dst) :
    k'.sent g = k.sent g := by
  obtain ⟨bs, hends⟩ := doPut_spec hname hdst hsrc h
  rw [hends.delivered.sent, Function.update_of_ne hg]

/-- **A frame is sent on**, from the interface or to it. -/
theorem Wired.passes {dst : Int} {x : Frame} (h : Wired m r) (hr : Registry m) (hat : At m fd p)
    (hd : m.kernel.desc fd = some .sock) (hdst : m.kernel.desc dst = some .sock)
    (hstar : fd = m.interfaceFd ∧ dst ≠ m.interfaceFd ∨ fd ≠ m.interfaceFd ∧ dst = m.interfaceFd)
    (hs : Same m m') (hsent : m'.kernel.sent dst = m.kernel.sent dst ++ x.wire)
    (hothers : ∀ g, g ≠ dst → m'.kernel.sent g = m.kernel.sent g) :
    ∃ q, Router.Step r (.passes p q x) (r.after (.passes p q x))
      ∧ Wired m' (r.after (.passes p q x)) := by
  obtain ⟨q, hq⟩ := hr.at hdst
  have hne : p ≠ q := by
    rintro rfl
    obtain rfl : fd = dst := hat.workerFd.symm.trans hq.workerFd
    rcases hstar with ⟨h1, h2⟩ | ⟨h1, h2⟩
    · exact h2 h1
    · exact h1 h2
  have hiface : r.iface = some p ∨ r.iface = some q := by
    rw [h.iface]
    exact hstar.imp (fun h => hat.ifaceNo h.1) fun h => hq.ifaceNo h.2
  refine ⟨q, ⟨⟨h.opened fd p hd hat, h.opened dst q hdst hq, hne, hiface⟩, rfl⟩,
    ⟨h.count.trans hs.nextWorker.symm, ?_, fun g q' hg hq' => ?_, fun g q' hg hq' => ?_⟩⟩
  · rw [ifaceNo, hs.interfaceFd, hs.interface]
    exact h.iface
  · obtain ⟨hg₀, hat₀⟩ := hq'.same_back hr hs hg
    exact h.opened g q' hg₀ hat₀
  · obtain ⟨hg₀, hat₀⟩ := hq'.same_back hr hs hg
    rw [Router.told_passes, List.flatMap_append, ← h.told g q' hg₀ hat₀]
    by_cases hgd : g = dst
    · subst hgd
      rw [hsent, if_pos (hat₀.unique hq.current), List.flatMap_singleton]
    · have hqq : q ≠ q' := by
        rintro rfl
        exact hgd (hat₀.workerFd.symm.trans hq.workerFd)
      rw [hothers g hgd, if_neg hqq, List.flatMap_nil, List.append_nil]

/-- No forwarded frame of the step is cut short. -/
def Whole (m m' : Master) : Prop :=
  ∀ p i dst v name stored ret,
    .forward p i dst v name stored ret ∈ newLog m m' → ret = .doneSending

/-- What a call moves, and what it has cut off the stream of its record: the frames
`xs` that end in the call are what the router has heard in the same steps. -/
structure Routed (fd : Int) (p : Nat) (m : Master) (r : Router Frame) (m' : Master)
    (r' : Router Frame) : Prop where
  reach : Reach Router.Step r r'
  wired : Wired m' r'
  others : ∀ q, q ≠ p → r'.heard q = r.heard q
  heard : (m'.heap p).alive = true → ∃ xs,
    framesOf (m'.kernel.taken fd) = framesOf (m.kernel.taken fd) ++ xs
      ∧ r'.heard p = r.heard p ++ xs
  carried : ∀ y ∈ r'.moved, y ∈ r.moved ∨ y.2.2.Carried

theorem Change.sock_next (hc : Change fd p m (.next m₁)) (hd : m.kernel.desc g = some .sock) :
    m₁.kernel.desc g = some .sock := by
  cases hc with
  | same hs => exact (hs.kernel.sock g).mpr hd
  | joins hj => exact (hj.kernel.sock g).mpr hd
  | quits hq hf => cases hf

theorem heard_of_moved {r₁ : Router Frame} (h : r₁.moved = r.moved) (q : Nat) :
    r₁.heard q = r.heard q := by rw [Router.heard, h, Router.heard]

theorem mem_of_forwards {l : List Obs} {o : Obs} (h : o ∈ Master.forwards l) : o ∈ l := by
  obtain ⟨o', ho', heq⟩ := List.mem_filterMap.mp h
  split at heq
  · obtain rfl := Option.some.inj heq
    exact ho'
  · cases heq

theorem Whole.ret {i : Bool} {dst : Int} {v : Command} {name : Bytes} {stored : Option Bytes}
    {ret : Ret} (h : Whole m m')
    (hfwd : forwards (newLog m m') = [.forward p i dst v name stored ret]) :
    ret = .doneSending := by
  refine h p i dst v name stored ret (mem_of_forwards ?_)
  rw [hfwd]
  exact List.mem_singleton_self _

theorem target_ne_interfaceFd (hr : Registry m) (hne : m.interfaceFd ≠ -1) :
    m.target ≠ m.interfaceFd := by
  unfold target
  cases hb : m.bestWorker with
  | none => exact hne.symm
  | some q =>
      obtain ⟨-, -, -, -, hall⟩ := hr.iface hne
      exact hall q (bestWorker_eligible hb).1

/-- The end of a frame, and a whole `do_put` of it. -/
theorem Wired.sends {name : Bytes} {held relocked : Bool} {ts : List Task} {dst : Int}
    {st : Status} {k : Kernel} (hw : Wired m r) (ht : m.Tracked p) (hready : Ready m)
    (hr : Registry m) (hat : At m fd p) (hd : m.kernel.desc fd = some .sock)
    (halive : (m.heap p).alive = true) (hio : io.recv.Benign) (hok : io.put.fopenOk = true)
    (hpar : m.parsePhase fd p io.recv = some (.next m₁))
    (hst : (m₁.heap p).status = .forwardData) (hname : (m₁.heap p).tempFileName = some name)
    (hsame : Same m₁ m₂)
    (hkernel : m₂.kernel = { m₁.kernel with held := held, relocked := relocked })
    (hself : m₂.heap p = { m₁.heap p with tasks := ts, fdToSendTo := dst, status := st })
    (hdst : m₁.kernel.desc dst = some .sock ∨ m₁.kernel.desc dst = none)
    (hstar : fd = m₁.interfaceFd ∧ dst ≠ m₁.interfaceFd
      ∨ fd ≠ m₁.interfaceFd ∧ dst = m₁.interfaceFd)
    (hdo : doPut m₂.kernel (m₂.heap p).fdToSendTo (m₂.heap p) io.put = some (.doneSending, k))
    (hfit : (m.heap p).Legible) : ∃ r', Routed fd p m r (m₂.forwarded fd p .doneSending k) r' := by
  have hc := parsePhase_change hr hat hpar
  have hr₁ : Registry m₁ := hr.change hat hc
  have hready₁ : Ready m₁ := parsePhase_ready hready hr hat hd halive hpar
  have htarget : (m₂.heap p).fdToSendTo = dst := by rw [hself]
  have hnamed : (m₂.heap p).tempFileName = some name := by rw [hself]; exact hname
  have htemp : (m₂.heap p).tempFd = (m₁.heap p).tempFd := by rw [hself]
  obtain ⟨r₁, hreach, hw₁, hmoved⟩ := hw.parsed hready hr hat hd hpar
  rw [Flow.master] at hw₁
  obtain ⟨payload, hdec, -, hsent⟩ := ht.delivers hready hr hat hd halive hio hok hpar hst hname
    hkernel htemp (hnamed.trans hname.symm) (htarget.symm ▸ hdst) hdo
  obtain ⟨got, hcuts, hends⟩ := ht.cuts hat.workerFd (hready.sound p) hio
    (Or.inr (by rw [Flow.master, hst]; exact Status.noConfusion)) hpar
  have hopen : m₁.kernel.desc dst = some .sock := by
    refine hdst.resolve_right fun hnone => ?_
    have hclosed : m₂.kernel.desc (m₂.heap p).fdToSendTo = none := by rw [htarget, hkernel, hnone]
    cases (doPut_closed hclosed hdo).1
  have hopen₂ : m₂.kernel.desc (m₂.heap p).fdToSendTo = some .sock := by
    rw [htarget, hkernel, hopen]
  have hsrc : (m₂.heap p).tempFd ≠ (m₂.heap p).fdToSendTo := by
    intro heq
    rw [htemp, htarget] at heq
    obtain ⟨off, hfile⟩ := hready₁.opened p (heq ▸ hr₁.ranged.ne hopen)
    rw [heq, hopen] at hfile
    cases hfile
  have hforwarded : Same m₂ (m₂.forwarded fd p .doneSending k) :=
    .of_update (doPut_extends hsame.kernel.ranged hdo) rfl rfl Or.inl rfl rfl rfl rfl
  have hwrites : k.sent dst =
      m₁.kernel.sent dst ++ Frame.wire ((m₁.heap p).toDo, name, payload) := by
    have hsent₁ : m₁.kernel.sent = m.kernel.sent :=
      parsePhase_sent hr hat (hready.sound p) (hready.opened p) hpar
    rw [hsent₁]
    exact htarget ▸ hsent rfl
  have hspares : ∀ g, g ≠ dst → k.sent g = m₁.kernel.sent g := by
    intro g hg
    rw [doPut_sent_of_ne hnamed hopen₂ hsrc hdo (by rwa [htarget]), hkernel]
  obtain ⟨q, hstep, hwired⟩ := hw₁.passes hr₁ (hat.change hr hc) (hc.sock_next hd) hopen hstar
    (hsame.trans hforwarded) hwrites hspares
  have htaken : k.taken = m₁.kernel.taken := by rw [(doPut_ops hdo).reads.2, hkernel]
  rw [← hends hst, Flow.master, ← htaken, hdec] at hcuts
  have hcarried : Frame.Carried ((m₁.heap p).toDo, name, payload) := by
    have hmem : ((m₁.heap p).toDo, name, payload) ∈ framesOf (k.taken fd) := by
      rw [hcuts]
      exact List.mem_append_right _ (List.mem_singleton_self _)
    refine ⟨framesOf_proper hmem, ?_⟩
    have hshort := ((parsePhase_legible hfit hpar).name (by
      rw [Flow.master, hst]
      exact Status.noConfusion) name hname).short
    simp only [putHeader, putVerb, List.length_append, List.length_cons, List.length_nil]
    omega
  refine ⟨_, ⟨hreach.step hstep, hwired, fun q' hq' => ?_,
    fun _ => ⟨[((m₁.heap p).toDo, name, payload)], hcuts, ?_⟩, fun y hy => ?_⟩⟩
  · rw [Router.heard_passes, if_neg hq'.symm, List.append_nil, heard_of_moved hmoved]
  · rw [Router.heard_passes, if_pos rfl, heard_of_moved hmoved]
  · rcases List.mem_append.mp hy with hy | hy
    · exact Or.inl (hmoved ▸ hy)
    · obtain rfl := List.mem_singleton.mp hy
      exact Or.inr hcarried

/-- A call that comes to the end of no frame, or drops the one it comes to. -/
theorem Wired.takes (hw : Wired m r) (ht : m.Tracked p) (hready : Ready m) (hr : Registry m)
    (hat : At m fd p) (hd : m.kernel.desc fd = some .sock) (halive : (m.heap p).alive = true)
    (hio : io.recv.Benign) (hpar : m.parsePhase fd p io.recv = some f)
    (hend : (f.master.heap p).alive = true → (f.master.heap p).status ≠ .forwardData) :
    ∃ r', Routed fd p m r f.master r' := by
  obtain ⟨r', hreach, hwired, hmoved⟩ := hw.parsed hready hr hat hd hpar
  refine ⟨r', ⟨hreach, hwired, fun q _ => heard_of_moved hmoved q, fun halive' => ⟨[], ?_, ?_⟩,
    fun y hy => Or.inl (hmoved ▸ hy)⟩⟩
  · obtain ⟨got, hcuts, -⟩ := ht.cuts hat.workerFd (hready.sound p) hio (Or.inl halive') hpar
    have hs := (parsePhase_ready hready hr hat hd halive hpar).sound p
    rw [hcuts, Dec.frame?_of_running (hs.running (hend halive') got), Option.toList_none]
  · rw [List.append_nil, heard_of_moved hmoved]

/-- **One call** of a run that loses no frame: nothing is moved, or the frame that
ends in it, to the one connection it is for. -/
theorem CallCase.routed (hc : CallCase fd p io m m') (hw : Wired m r) (ht : m.Tracked p)
    (hready : Ready m) (hr : Registry m) (hat : At m fd p) (hd : m.kernel.desc fd = some .sock)
    (halive : (m.heap p).alive = true) (hio : io.recv.Benign) (hok : io.put.fopenOk = true)
    (hwhole : Whole m m') (hfit : (m.heap p).Legible) : ∃ r', Routed fd p m r m' r' := by
  cases hc with
  | unfinished f hpar hst heq =>
      subst heq
      exact hw.takes ht hready hr hat hd halive hio hpar fun _ => hst
  | dropped m₁ hpar hst hfd hal heq =>
      subst heq
      refine hw.takes ht hready hr hat hd halive hio hpar fun halive' => ?_
      rw [Flow.master, hal] at halive'
      cases halive'
  | submitted m₁ name ret k hpar hst hname hfd hput heq =>
      have hr₁ : Registry m₁ := hr.change hat (parsePhase_change hr hat hpar)
      obtain ⟨i, hfwd⟩ := submitted_forwards (parsePhase_parserOnly hpar) rfl hname heq
      obtain rfl := hwhole.ret hfwd
      obtain ⟨ts, hself⟩ := submitted_self (m := m₁) (p := p) name
      have hstar : m₁.target ≠ m₁.interfaceFd := target_ne_interfaceFd hr₁ (hfd ▸ hat.nonneg)
      rw [heq]
      exact hw.sends ht hready hr hat hd halive hio hok hpar hst hname
        (submitted_same hr₁.ranged name) (submitted_kernel name) hself (target_desc hr₁)
        (Or.inl ⟨hfd, hstar⟩) hput hfit
  | answered m₁ name ret k hpar hst hname hfd hal hput heq =>
      have hr₁ : Registry m₁ := hr.change hat (parsePhase_change hr hat hpar)
      obtain ⟨i, hfwd⟩ := answered_forwards (parsePhase_parserOnly hpar) rfl hname heq
      obtain rfl := hwhole.ret hfwd
      obtain ⟨ts, hself⟩ := answered_self (m := m₁) (p := p) name
      have hkernel : (m₁.answered p name).kernel = { m₁.kernel with
          held := m₁.kernel.held, relocked := m₁.kernel.relocked } := answered_kernel name
      rw [heq]
      exact hw.sends ht hready hr hat hd halive hio hok hpar hst hname
        (answered_same hr₁.ranged name) hkernel hself (interfaceFd_desc hr₁) (Or.inr ⟨hfd, rfl⟩)
        hput hfit

/-! ## Every run -/

/-- The master and a run of the router that goes along with it. Every frame that has
passed has a name and a size that a header line and eight bytes can carry. -/
structure Models (m : Master) (r : Router Frame) : Prop where
  reach : Reach Router.Step .init r
  wired : Wired m r
  heard : Heard m r
  carried : ∀ y ∈ r.moved, y.2.2.Carried

theorem acceptOne_at {c : Conn} (hr : Registry m) (h0 : 0 ≤ c.fd)
    (hfree : m.kernel.desc c.fd = none) (hd : (m.acceptOne c).kernel.desc g = some .sock)
    (hq : At (m.acceptOne c) g q) :
    g = c.fd ∧ q = m.nextWorker ∨ g ≠ c.fd ∧ m.kernel.desc g = some .sock ∧ At m g q := by
  obtain ⟨hfd, hplace⟩ := ((acceptOne_registry hr h0 hfree).at_iff hd).mp hq
  by_cases hqn : q = m.nextWorker
  · rw [hqn, acceptOne_new] at hfd
    exact Or.inl ⟨hfd.symm, hqn⟩
  · rw [acceptOne_of_ne c hqn] at hfd
    have hplace : q ∈ m.workerList ∨ m.interface = some q ∧ g = m.interfaceFd := by
      refine hplace.imp_left fun hmem => ?_
      exact (List.mem_append.mp hmem).resolve_right fun h => hqn (List.mem_singleton.mp h)
    have hd₀ : m.kernel.desc g = some .sock := by
      rcases hplace with hmem | ⟨-, rfl⟩
      · exact hfd ▸ hr.isOpen q hmem
      · obtain ⟨-, -, -, hsock, -⟩ := hr.iface hq.nonneg
        exact hsock
    refine Or.inr ⟨?_, hd₀, (hr.at_iff hd₀).mpr ⟨hfd, hplace⟩⟩
    rintro rfl
    rw [hfree] at hd₀
    cases hd₀

theorem Models.acceptOne {c : Conn} (h : Models m r) (hr : Registry m) (hf : Faithful m)
    (h0 : 0 ≤ c.fd) (hfree : m.kernel.desc c.fd = none) :
    ∃ r', Models (m.acceptOne c) r' := by
  have hnew := (Router.numbered h.reach).silent h.wired.count.le
  have hstep : Router.Step r .opens (r.after .opens) := ⟨trivial, rfl⟩
  refine ⟨r.after .opens, h.reach.step hstep, ⟨congrArg (· + 1) h.wired.count, h.wired.iface,
    fun g q hd hq => ?_, fun g q hd hq => ?_⟩, fun q hal => ?_, h.carried⟩
  · rcases acceptOne_at hr h0 hfree hd hq with ⟨-, rfl⟩ | ⟨-, hd₀, hq₀⟩
    · exact Or.inl h.wired.count.symm
    · exact Or.inr (h.wired.opened g q hd₀ hq₀)
  · have hsent : (m.acceptOne c).kernel.sent = Function.update m.kernel.sent c.fd [] := rfl
    rcases acceptOne_at hr h0 hfree hd hq with ⟨rfl, rfl⟩ | ⟨hne, hd₀, hq₀⟩
    · rw [hsent, Function.update_self, show (r.after .opens).told m.nextWorker = [] from hnew.2]
      rfl
    · rw [hsent, Function.update_of_ne hne]
      exact h.wired.told g q hd₀ hq₀
  · have htaken : (m.acceptOne c).kernel.taken = Function.update m.kernel.taken c.fd [] := rfl
    by_cases hqn : q = m.nextWorker
    · rw [hqn, acceptOne_new, htaken]
      change framesOf (Function.update m.kernel.taken c.fd [] c.fd) = r.heard m.nextWorker
      rw [Function.update_self, hnew.1]
      rfl
    · rw [acceptOne_of_ne c hqn] at hal ⊢
      have hne : (m.heap q).workerFd ≠ c.fd := by
        intro heq
        have hopen := hf.isOpen q hal
        rw [heq, hfree] at hopen
        cases hopen
      rw [htaken, Function.update_of_ne hne]
      exact h.heard q hal

theorem Models.same (h : Models m r) (hr : Registry m) (hs : Same m m')
    (hsent : m'.kernel.sent = m.kernel.sent) (htaken : m'.kernel.taken = m.kernel.taken)
    (hal : ∀ q, (m'.heap q).alive = true → (m.heap q).alive = true) : Models m' r := by
  refine ⟨h.reach, h.wired.same hr hs fun g _ => congrFun hsent g, ?_, h.carried⟩
  intro q hq
  rw [htaken, hs.workerFd]
  exact h.heard q (hal q hq)

theorem Models.acceptConnections {cs : List Conn} (h : Models m r) (hr : Registry m)
    (hf : Faithful m) (hcs : acceptable m.kernel cs = true) :
    ∃ r', Models (m.acceptConnections cs) r' := by
  refine (acceptable_invariant (I := fun m => Registry m ∧ Faithful m ∧ ∃ r, Models m r) ?_ hcs
    ⟨hr, hf, r, h⟩).2.2
  rintro m c h0 hfree ⟨hr, hf, r, h⟩
  exact ⟨acceptOne_registry hr h0 hfree, hf.acceptOne hfree, h.acceptOne hr hf h0 hfree⟩

theorem Models.call (h : Models m r) (hready : Ready m) (hr : Registry m) (hf : Faithful m)
    (hat : At m fd p) (hd : m.kernel.desc fd = some .sock) (halive : (m.heap p).alive = true)
    (hc : CallCase fd p io m m') (hio : io.recv.Benign) (hok : io.put.fopenOk = true)
    (hwhole : Whole m m') (hfit : (m.heap p).Legible) : ∃ r', Models m' r' := by
  obtain ⟨r', hrouted⟩ := hc.routed h.wired (hf.tracked p halive) hready hr hat hd halive hio hok
    hwhole hfit
  have hatt := hc.attended hr hat
  have hspares := hc.spares (P := fun _ => True) hready hr hat hd halive fun _ _ _ => trivial
  refine ⟨r', h.reach.trans hrouted.reach, hrouted.wired, fun q hal => ?_,
    fun y hy => (hrouted.carried y hy).elim (h.carried y) id⟩
  by_cases hqp : q = p
  · subst hqp
    obtain ⟨xs, hframes, hheard⟩ := hrouted.heard hal
    rw [hatt.workerFd, hat.workerFd, hframes, hheard, ← h.heard q halive, hat.workerFd]
  · obtain ⟨ts, hself⟩ := hatt.others q hqp
    rw [hself] at hal ⊢
    have hne : (m.heap q).workerFd ≠ fd := fun heq =>
      hqp (hf.distinct q p hal halive (heq.trans hat.workerFd.symm))
    rw [hspares.taken _ hne, hrouted.others q hqp]
    exact h.heard q hal

/-- The event loses no frame and alters none. It `keepsApart`: the file calls it
makes succeed, no payload comes under a name whose file another live record
holds open, a heartbeat revives no dead record, and a pass finds no silent
record that has tasks. And each `do_put` it makes sends its frame to the end. -/
def lossless (m : Master) (e : Event) : Bool :=
  m.keepsApart e && (m.handle e).all fun m' => (newLog m m').all fun o =>
    match o with
    | .forward _ _ _ _ _ _ ret => ret == .doneSending
    | _ => true

theorem lossless_spec (h : m.lossless e = true) (hs : Step m e m') :
    m.keepsApart e = true ∧ Whole m m' := by
  rw [lossless, Bool.and_eq_true, hs.2, Option.all_some] at h
  exact ⟨h.1, fun p i dst v name stored ret ho => eq_of_beq (List.all_eq_true.mp h.2 _ ho)⟩

theorem Models.step (h : Models m r) (hreach : Reachable m) (hf : Faithful m) (hs : Step m e m')
    (he : m.lossless e = true) : ∃ r', Models m' r' := by
  have hr := hreach.registry
  obtain ⟨hapart, hwhole⟩ := lossless_spec he hs
  cases e with
  | accept cs =>
      obtain rfl := Option.some.inj hs.2
      exact h.acceptConnections hr hf hs.1
  | data fd arrived io =>
      obtain ⟨p, hat, hready₀, hr₀, hat₀, hd₀, hcase⟩ := hs.call hreach
      have harr : Models (m.arriving fd arrived) r :=
        h.same hr (deliver_same fd hr.ranged arrived) rfl rfl fun _ => id
      rcases hcase with ⟨-, rfl⟩ | ⟨halive, hcase⟩
      · exact ⟨r, harr⟩
      · obtain ⟨hio, hok, -⟩ := keepsApart_data hapart hat.current halive
        exact harr.call hready₀ hr₀ (hf.arriving hr.ranged fd arrived) hat₀ hd₀ halive hcase hio hok
          hwhole (hreach.named.legible p)
  | heartbeat addr usage now =>
      obtain rfl := Option.some.inj hs.2
      have hsame := reportHeartbeat_same hr.ranged addr usage now
      refine ⟨r, h.same hr hsame ?_ ?_ fun q hq => ?_⟩
      · unfold reportHeartbeat
        split <;> rfl
      · unfold reportHeartbeat
        split <;> rfl
      · unfold reportHeartbeat at hq
        split at hq
        · exact hq
        · rename_i p hp
          by_cases hqp : q = p
          · subst hqp
            have hall : (m.beating (.heartbeat addr usage now)).all (fun p => (m.heap p).alive) =
              true := hapart
            rwa [beating, hp] at hall
          · rw [← set_heap_of_ne _ hqp]
            exact hq
  | detect now mem ios =>
      have hsame := detectPass_same hr.ranged hs.2
      obtain ⟨-, -, held, relocked, hk⟩ := detectPass_quiet (keepsApart_detect hapart) hs.2
      refine ⟨r, h.same hr hsame ?_ ?_ fun q => detectPass_alive q hs.2⟩ <;> rw [hk]

theorem ReachableWithin.routed (h : ReachableWithin (fun m e _ => m.lossless e = true) m) :
    Faithful m ∧ ∃ r, Models m r := by
  refine h.invariant (I := fun m => Faithful m ∧ ∃ r, Models m r) (fun resolve => ?_) ?_
  · refine ⟨init_faithful resolve, .init, .refl, ⟨rfl, rfl, fun _ _ hd => ?_, fun _ _ hd => ?_⟩,
      fun _ hal => ?_, fun _ hy => (List.not_mem_nil hy).elim⟩
    · cases hd
    · cases hd
    · cases hal
  · rintro m e m' hreach ⟨hf, r, h⟩ hs he
    obtain ⟨hapart, -⟩ := lossless_spec he hs
    exact ⟨hs.faithful hreach.reachable hf hapart, h.step hreach.reachable hf hs he⟩

/-- **The master is a router of frames**, in every run whose events are all
`lossless`: a run of the router goes along with it, such that the connections and
the interface are the router's, what has been sent on an open connection is what
it has been told there, each frame as `do_put` writes it, and what has been read
of a live connection, cut into frames, is what it has said there (`Models`). -/
theorem frames_routed (h : ReachableWithin (fun m e _ => m.lossless e = true) m) :
    ∃ r, Models m r := h.routed.2

/-- The interface submits a frame, the worker on 6 is told it and answers. -/
theorem frames_routed_two :
    ∃ m r, ReachableWithin (fun m e _ => m.lossless e = true) m ∧ Models m r
      ∧ r.heard 0 = [(.interfacePut, [97], [120])] ∧ r.heard 1 = [(.put, [97], [20, 21])]
      ∧ m.kernel.sent 5 = Master.frame putVerb [97] [20, 21]
      ∧ m.kernel.sent 6 = Master.frame putVerb [97] [120] := by
  obtain ⟨m, hr, hv⟩ := execWithin_spec (c := lossless) id (v := true)
    [.accept [⟨5, [5], default⟩, ⟨6, [6], default⟩], .data 5 (chunk submitFrame) {},
      .data 6 (chunk (resultLine ++ sizeBytes 2 ++ [20])) {}, .data 6 (chunk [21]) {}]
    (f := fun m => decide ((m.heap 0).alive = true ∧ (m.heap 0).workerFd = 5
      ∧ (m.heap 1).alive = true ∧ (m.heap 1).workerFd = 6
      ∧ framesOf (m.kernel.taken 5) = [(.interfacePut, [97], [120])]
      ∧ framesOf (m.kernel.taken 6) = [(.put, [97], [20, 21])]
      ∧ m.kernel.sent 5 = Master.frame putVerb [97] [20, 21]
      ∧ m.kernel.sent 6 = Master.frame putVerb [97] [120]))
    (by decide +kernel)
  obtain ⟨hal0, hfd0, hal1, hfd1, hf0, hf1, hs5, hs6⟩ := of_decide_eq_true hv
  obtain ⟨r, hmodels⟩ := frames_routed hr
  refine ⟨m, r, hr, hmodels, ?_, ?_, hs5, hs6⟩
  · rw [← hmodels.heard 0 hal0, hfd0, hf0]
  · rw [← hmodels.heard 1 hal1, hfd1, hf1]

end Master

end KeyLime
