import Mathlib.Data.List.Nodup
import KeyLime.Schedule
import KeyLime.Descriptors

/-!
# The connection registry

`Registry m`: every open connection has exactly one record, listed in
`worker_list` or registered as the interface, found by its descriptor.
It holds in every reachable state (`Reachable.registry`), so an event on a
connection is handled on the record of that connection
(`Registry.current`).

Only three things change the registry: a new connection, the interface
registering, the interface quitting. Everything else relates its states
by `Same`, which is all that most of the modules behind this one need to know
of a handler they do not study.

* `Change` is what the parser branches can do to the registry, all together or
  from the first: nothing, `Joins`, `Quits`.
* `At m fd p` says that `p` is the record of the connection on `fd`; there is
  one (`Registry.at`) and only one (`At.unique`), and it stays the one through a
  change (`At.change`).
* A closed descriptor may come again for another connection. The record of the
  old one is still there, dead; what makes this harmless is that a connection
  is looked up in the list and that only the interface is ever closed.
-/

namespace KeyLime

namespace Master

variable {m m' m₁ m₂ : Master} {fd : Int} {p q : Nat} {f : Flow} {io : DataIo}

structure Registry (m : Master) : Prop where
  ranged : m.kernel.Ranged
  nodup : m.workerList.Nodup
  lt : ∀ p ∈ m.workerList, p < m.nextWorker
  fdInj : ∀ p ∈ m.workerList, ∀ q ∈ m.workerList,
    (m.heap p).workerFd = (m.heap q).workerFd → p = q
  isOpen : ∀ p ∈ m.workerList, m.kernel.desc (m.heap p).workerFd = some .sock
  /-- The registered interface has its record, and its descriptor is no worker's. -/
  iface : m.interfaceFd ≠ -1 → ∃ p, m.interface = some p ∧
    (m.heap p).workerFd = m.interfaceFd ∧ m.kernel.desc m.interfaceFd = some .sock ∧
      ∀ q ∈ m.workerList, (m.heap q).workerFd ≠ m.interfaceFd
  unlisted : ∀ p, m.interface = some p → p ∉ m.workerList ∧ p < m.nextWorker
  /-- The record of an interface that has quit is dead. -/
  gone : m.interfaceFd = -1 → ∀ p, m.interface = some p → (m.heap p).alive = false
  route : ∀ g, m.kernel.desc g = some .sock →
    g = m.interfaceFd ∨ ∃ p ∈ m.workerList, (m.heap p).workerFd = g

/-- Nothing the registry is about has changed: the lists of connections, the
interface, the descriptors of the records. A record of the list may have come
alive, by a heartbeat. -/
structure Same (m m' : Master) : Prop where
  kernel : m.kernel.Extends m'.kernel
  workerList : m'.workerList = m.workerList
  interfaceFd : m'.interfaceFd = m.interfaceFd
  interface : m'.interface = m.interface
  nextWorker : m'.nextWorker = m.nextWorker
  workerFd : ∀ q, (m'.heap q).workerFd = (m.heap q).workerFd
  alive : ∀ q, (m'.heap q).alive = true → (m.heap q).alive = true ∨ q ∈ m.workerList

theorem Same.refl (h : m.kernel.Ranged) : Same m m :=
  ⟨.refl h, rfl, rfl, rfl, rfl, fun _ => rfl, fun _ => Or.inl⟩

theorem Same.trans (h : Same m m') (h' : Same m' m₁) : Same m m₁ where
  kernel := h.kernel.trans h'.kernel
  workerList := h'.workerList.trans h.workerList
  interfaceFd := h'.interfaceFd.trans h.interfaceFd
  interface := h'.interface.trans h.interface
  nextWorker := h'.nextWorker.trans h.nextWorker
  workerFd q := (h'.workerFd q).trans (h.workerFd q)
  alive q hq := by
    rcases h'.alive q hq with h1 | h1
    · exact h.alive q h1
    · exact Or.inr (h.workerList ▸ h1)

theorem Registry.same (hr : Registry m) (hs : Same m m') : Registry m' where
  ranged := hs.kernel.ranged
  nodup := hs.workerList ▸ hr.nodup
  lt p hp := by
    rw [hs.nextWorker]
    exact hr.lt p (hs.workerList ▸ hp)
  fdInj p hp q hq heq := by
    rw [hs.workerFd, hs.workerFd] at heq
    exact hr.fdInj p (hs.workerList ▸ hp) q (hs.workerList ▸ hq) heq
  isOpen p hp := by
    rw [hs.workerFd, hs.kernel.sock]
    exact hr.isOpen p (hs.workerList ▸ hp)
  iface hne := by
    rw [hs.interfaceFd] at hne ⊢
    obtain ⟨p, hp, hfd, hd, hall⟩ := hr.iface hne
    refine ⟨p, hs.interface.trans hp, (hs.workerFd p).trans hfd, (hs.kernel.sock _).mpr hd, ?_⟩
    intro q hq
    rw [hs.workerFd]
    exact hall q (hs.workerList ▸ hq)
  unlisted p hp := by
    rw [hs.nextWorker, hs.workerList]
    exact hr.unlisted p (hs.interface ▸ hp)
  gone heq p hp := by
    rw [hs.interface] at hp
    have hdead := hr.gone (hs.interfaceFd ▸ heq) p hp
    cases hal : (m'.heap p).alive with
    | false => rfl
    | true =>
        rcases hs.alive p hal with h | h
        · rw [hdead] at h
          cases h
        · exact ((hr.unlisted p hp).1 h).elim
  route g hg := by
    rw [hs.interfaceFd, hs.workerList]
    refine (hr.route g ((hs.kernel.sock g).mp hg)).imp_right ?_
    rintro ⟨p, hp, hfd⟩
    exact ⟨p, hp, (hs.workerFd p).trans hfd⟩

/-! ## Finding the record of an event -/

theorem findWorkerPos_eq_some {i : Nat} (h : m.findWorkerPos fd = some i) :
    ∃ p, m.workerList[i]? = some p ∧ (m.heap p).workerFd = fd := by
  unfold findWorkerPos at h
  obtain ⟨hi, hfd, -⟩ := List.findIdx?_eq_some_iff_getElem.mp h
  exact ⟨_, List.getElem?_eq_getElem hi, by simpa using hfd⟩

theorem findWorkerPos_eq_none (h : m.findWorkerPos fd = none) :
    ∀ p ∈ m.workerList, (m.heap p).workerFd ≠ fd := by
  unfold findWorkerPos at h
  intro p hp
  simpa using List.findIdx?_eq_none_iff.mp h p hp

theorem findWorkerPos_congr (hl : m'.workerList = m.workerList)
    (hfd : ∀ q, (m'.heap q).workerFd = (m.heap q).workerFd) :
    m'.findWorkerPos fd = m.findWorkerPos fd := by
  unfold findWorkerPos
  rw [hl]
  simp only [hfd]

/-- Record `p` is that of the connection on `fd`: the one `find_worker_pos` leads to,
or that of the interface. A record is one or the other, as it leaves the list
when it registers. -/
structure At (m : Master) (fd : Int) (p : Nat) : Prop where
  current : m.current fd = some p
  workerFd : (m.heap p).workerFd = fd
  nonneg : fd ≠ -1
  place : (p ∈ m.workerList ∧ fd ≠ m.interfaceFd)
    ∨ (m.interface = some p ∧ fd = m.interfaceFd ∧ p ∉ m.workerList)

/-- **Routing.** An event on an open connection is handled on the record of that
connection, also when its descriptor has been in use before. -/
theorem Registry.at (hr : Registry m) (hd : m.kernel.desc fd = some .sock) :
    ∃ p, At m fd p := by
  have hne : fd ≠ -1 := hr.ranged.ne hd
  cases hpos : m.findWorkerPos fd with
  | some i =>
      obtain ⟨p, hp, hfd⟩ := findWorkerPos_eq_some hpos
      have hmem : p ∈ m.workerList := List.mem_of_getElem? hp
      refine ⟨p, by simp [current, hpos, hp], hfd, hne, Or.inl ⟨hmem, ?_⟩⟩
      intro heq
      obtain ⟨-, -, -, -, hall⟩ := hr.iface (heq ▸ hne)
      exact hall p hmem (hfd.trans heq)
  | none =>
      rcases hr.route fd hd with heq | ⟨p, hp, hfd⟩
      · obtain ⟨p, hp, hfd, -, -⟩ := hr.iface (heq ▸ hne)
        exact ⟨p, by simp [current, hpos, hp], hfd.trans heq.symm, hne,
          Or.inr ⟨hp, heq, (hr.unlisted p hp).1⟩⟩
      · exact (findWorkerPos_eq_none hpos p hp hfd).elim

theorem At.unique (h : At m fd p) (hq : m.current fd = some q) : q = p :=
  Option.some.inj (hq.symm.trans h.current)

theorem At.same (h : At m fd p) (hs : Same m m') : At m' fd p where
  current := by
    unfold Master.current
    rw [findWorkerPos_congr hs.workerList hs.workerFd, hs.workerList, hs.interface]
    exact h.current
  workerFd := (hs.workerFd p).trans h.workerFd
  nonneg := h.nonneg
  place := by
    rw [hs.workerList, hs.interfaceFd, hs.interface]
    exact h.place

/-! ## What leaves the registry alone -/

theorem same_of_kernel {k : Kernel} (h : m.kernel.Extends k) : Same m { m with kernel := k } :=
  ⟨h, rfl, rfl, rfl, rfl, fun _ => rfl, fun _ => Or.inl⟩

theorem Same.of_update {w : Worker} (hk : m.kernel.Extends m'.kernel)
    (hheap : m'.heap = Function.update m.heap p w) (hfd : w.workerFd = (m.heap p).workerFd)
    (hal : w.alive = true → (m.heap p).alive = true ∨ p ∈ m.workerList)
    (hl : m'.workerList = m.workerList) (hifd : m'.interfaceFd = m.interfaceFd)
    (hi : m'.interface = m.interface) (hn : m'.nextWorker = m.nextWorker) : Same m m' := by
  refine ⟨hk, hl, hifd, hi, hn, fun q => ?_, fun q => ?_⟩ <;> rw [hheap] <;> by_cases hq : q = p
  · subst hq
    simpa using hfd
  · simp [hq]
  · subst hq
    simpa using hal
  · simp only [Function.update_of_ne hq]
    exact Or.inl

theorem set_same (h : m.kernel.Ranged) {w : Worker} (hw : Parses (m.heap p) w) :
    Same m (m.set p w) :=
  .of_update (.refl h) rfl hw.workerFd (fun ha => Or.inl (hw.alive ha)) rfl rfl rfl rfl

theorem commit_same (h : m.kernel.Ranged) (st : Stage) {r : Parsed}
    (hw : Parses (m.heap p) r.w) : Same m (m.commit p st r) :=
  .of_update (.of_desc h rfl rfl rfl) rfl hw.workerFd (fun ha => Or.inl (hw.alive ha))
    rfl rfl rfl rfl

theorem sizeStage_same (h : m.kernel.Ranged) (hf : m.sizeStage p = some f) :
    Same m f.master := by
  cases sizeStage_case hf with
  | skip => exact .refl h
  | more r hst hr hret => exact commit_same h _ (getSize_parses hr)
  | size r hst hr hret =>
      have h1 := commit_same h .size (getSize_parses hr)
      refine h1.trans (set_same h1.kernel.ranged ?_)
      simp only [commit_heap_self]
      exact ⟨rfl, rfl, rfl, rfl, rfl, by simp only [sized, Bool.and_eq_true]; exact And.left⟩
  | fail r hst hr hret => exact commit_same h _ (getSize_parses hr)

theorem received_same (h : m.kernel.Ranged) (io : RecvIo) : Same m (m.received p io) := by
  have hk := (getBinaryData_ops m.kernel (m.heap p) io).extends h
  have hw := getBinaryData_parses m.kernel (m.heap p) io
  have hadv : (getBinaryData m.kernel (m.heap p) io).2.Extends
      ((getBinaryData m.kernel (m.heap p) io).2.advance (m.heap p).workerFd
        (getBinaryData m.kernel (m.heap p) io).1.rest) := .of_desc hk.ranged rfl rfl rfl
  unfold received opening
  split <;>
    exact .of_update (hk.trans hadv) rfl hw.workerFd (fun ha => Or.inl (hw.alive ha))
      rfl rfl rfl rfl

theorem dataStage_same {io : RecvIo} (h : m.kernel.Ranged) (hf : m.dataStage p io = some f) :
    Same m f.master := by
  cases dataStage_case hf with
  | skip => exact .refl h
  | more => exact received_same h io
  | data hst hret =>
      have h1 := received_same (p := p) h io
      refine h1.trans (set_same h1.kernel.ranged ?_)
      simp only [received, commit_heap_self]
      exact ⟨rfl, rfl, rfl, rfl, rfl, id⟩
  | fail => exact received_same h io

theorem lock_unlock_extends {k : Kernel} (h : k.Ranged) : k.Extends k.lock.unlock :=
  .of_desc h rfl rfl rfl

theorem schedule_same (h : m.kernel.Ranged) (t : Task) : Same m (m.schedule t).1 := by
  cases hb : m.bestWorker with
  | none =>
      rw [schedule_of_none hb]
      exact ⟨lock_unlock_extends h, rfl, rfl, rfl, rfl, fun _ => rfl, fun _ => Or.inl⟩
  | some p =>
      rw [schedule_of_some hb]
      exact .of_update (lock_unlock_extends h) rfl rfl Or.inl rfl rfl rfl rfl

theorem submitted_same (h : m.kernel.Ranged) (name : Bytes) : Same m (m.submitted p name) := by
  have h1 : Same m (m.makeTask (m.heap p) name).2 :=
    ⟨.refl h, rfl, rfl, rfl, rfl, fun _ => rfl, fun _ => Or.inl⟩
  have h2 := h1.trans (schedule_same h1.kernel.ranged (m.makeTask (m.heap p) name).1)
  exact h2.trans (set_same h2.kernel.ranged ⟨rfl, rfl, rfl, rfl, rfl, id⟩)

theorem schedulerRemoveTask_same (h : m.kernel.Ranged) (fd : Int) (name : Bytes) :
    Same m (m.schedulerRemoveTask fd name) := by
  cases hf : m.finds fd name with
  | none =>
      rw [schedulerRemoveTask_of_none hf]
      exact ⟨.refl h, rfl, rfl, rfl, rfl, fun _ => rfl, fun _ => Or.inl⟩
  | some pi =>
      obtain ⟨t, -, -, -, heq⟩ := schedulerRemoveTask_of_some hf
      rw [heq]
      exact .of_update (.refl h) rfl rfl Or.inl rfl rfl rfl rfl

theorem answered_same (h : m.kernel.Ranged) (name : Bytes) : Same m (m.answered p name) := by
  have h1 := schedulerRemoveTask_same h (m.heap p).workerFd name
  exact h1.trans (set_same h1.kernel.ranged ⟨rfl, rfl, rfl, rfl, rfl, id⟩)

theorem forwardStage_same (h : m.kernel.Ranged) (hf : m.forwardStage fd p = some f) :
    Same m f.master := by
  cases forwardStage_case hf with
  | skip => exact .refl h
  | submit name => exact submitted_same h name
  | dead => exact .refl h
  | answer name => exact answered_same h name

theorem putStage_same {io : PutIo} (h : m.kernel.Ranged) (hf : m.putStage fd p io = some f) :
    Same m f.master := by
  cases putStage_case hf with
  | skip => exact .refl h
  | put ret k hst hput =>
      exact .of_update (doPut_extends h hput) rfl rfl Or.inl rfl rfl rfl rfl

theorem resend_same {mem : Worker} {t : Task} {io : ResendIo} (h : m.kernel.Ranged)
    (hs : m.resend mem t io = some m') : Same m m' := by
  obtain ⟨k, ret, rfl, hput⟩ := resend_eq hs
  have h1 := schedule_same h t
  have h2 := Kernel.open_extends h1.kernel.ranged t.fileName io.openOk
  have h3 := h2.trans (doPut_extends h2.ranged hput)
  exact h1.trans ⟨h3, rfl, rfl, rfl, rfl, fun _ => rfl, fun _ => Or.inl⟩

theorem reschedule_same {mem : Worker} {ios : List ResendIo} (h : m.kernel.Ranged)
    (hal : (m.heap p).alive = false) (hs : m.reschedule p mem ios = some m') : Same m m' := by
  rcases reschedule_spec hs hal with ⟨-, rfl⟩ | ⟨t, m₁, -, h1, rfl⟩
  · exact .refl h
  · have h2 := resend_same h h1
    rw [← resend_dead h1 hal]
    exact h2.trans (.of_update (.refl h2.kernel.ranged) rfl rfl Or.inl rfl rfl rfl rfl)

theorem detectPass_same {now : ℚ} {mem : Worker} {ios : Nat → List ResendIo} :
    ∀ {ps : List Nat} {m : Master}, m.kernel.Ranged →
      m.detectPass now mem ios ps = some m' → Same m m'
  | [], m, h, hs => by
      obtain rfl := Option.some.inj hs
      exact .refl h
  | p :: ps, m, h, hs => by
      have h0 : Same m { m with kernel := m.kernel.lock.unlock } :=
        same_of_kernel (lock_unlock_extends h)
      rw [detectPass] at hs
      split at hs
      · obtain ⟨m₁, h1, h2⟩ := Option.bind_eq_some_iff.mp hs
        have h3 := h0.trans (set_same (p := p) (w := { m.heap p with alive := false })
          h0.kernel.ranged ⟨rfl, rfl, rfl, rfl, rfl, nofun⟩)
        have h4 := h3.trans (reschedule_same h3.kernel.ranged (by simp) h1)
        exact h4.trans (detectPass_same h4.kernel.ranged h2)
      · exact h0.trans (detectPass_same h0.kernel.ranged hs)

theorem reportHeartbeat_same (h : m.kernel.Ranged) (addr : Bytes) (usage now : ℚ) :
    Same m (m.reportHeartbeat addr usage now) := by
  unfold reportHeartbeat
  split
  · exact .refl h
  · rename_i p hp
    exact .of_update (lock_unlock_extends h) rfl rfl
      (fun _ => Or.inr (List.mem_of_find?_eq_some hp)) rfl rfl rfl rfl

/-! ## The interface comes and goes -/

/-- Record `p` has registered as the interface. -/
structure Joins (fd : Int) (p : Nat) (m m' : Master) : Prop where
  vacant : m.interfaceFd = -1
  kernel : m.kernel.Extends m'.kernel
  workerList : m'.workerList = m.workerList.erase p
  interfaceFd : m'.interfaceFd = fd
  interface : m'.interface = some p
  nextWorker : m'.nextWorker = m.nextWorker
  workerFd : ∀ q, (m'.heap q).workerFd = (m.heap q).workerFd

/-- The interface, on `fd` with record `p`, has quit. -/
structure Quits (fd : Int) (p : Nat) (m m' : Master) : Prop where
  iface : fd = m.interfaceFd
  desc : m'.kernel.desc = Function.update m.kernel.desc fd none
  resolve : m'.kernel.resolve = m.kernel.resolve
  nextFd : m'.kernel.nextFd = m.kernel.nextFd
  workerList : m'.workerList = m.workerList
  interfaceFd : m'.interfaceFd = -1
  interface : m'.interface = m.interface
  nextWorker : m'.nextWorker = m.nextWorker
  workerFd : ∀ q, (m'.heap q).workerFd = (m.heap q).workerFd
  dead : (m'.heap p).alive = false

theorem Registry.joins (hr : Registry m) (hat : At m fd p) (hj : Joins fd p m m') :
    Registry m' := by
  have hp : p ∈ m.workerList := by
    rcases hat.place with h | ⟨-, h, -⟩
    · exact h.1
    · exact (hat.nonneg (h.trans hj.vacant)).elim
  have hmem : ∀ q, q ∈ m'.workerList ↔ q ≠ p ∧ q ∈ m.workerList := fun q => by
    rw [hj.workerList, hr.nodup.mem_erase_iff]
  have hfd : ∀ q ∈ m'.workerList, (m'.heap q).workerFd ≠ fd := fun q hq heq => by
    obtain ⟨hne, hq⟩ := (hmem q).mp hq
    exact hne (hr.fdInj q hq p hp ((hj.workerFd q).symm.trans (heq.trans hat.workerFd.symm)))
  refine ⟨hj.kernel.ranged, ?_, ?_, ?_, ?_, ?_, ?_, ?_, ?_⟩
  · rw [hj.workerList]
    exact hr.nodup.erase p
  · intro q hq
    rw [hj.nextWorker]
    exact hr.lt q ((hmem q).mp hq).2
  · intro q hq q' hq' heq
    rw [hj.workerFd, hj.workerFd] at heq
    exact hr.fdInj q ((hmem q).mp hq).2 q' ((hmem q').mp hq').2 heq
  · intro q hq
    rw [hj.workerFd, hj.kernel.sock]
    exact hr.isOpen q ((hmem q).mp hq).2
  · intro _
    rw [hj.interfaceFd]
    refine ⟨p, hj.interface, (hj.workerFd p).trans hat.workerFd, ?_, hfd⟩
    rw [hj.kernel.sock, ← hat.workerFd]
    exact hr.isOpen p hp
  · intro q hq
    obtain rfl := Option.some.inj (hj.interface.symm.trans hq)
    rw [hj.nextWorker]
    exact ⟨fun h => ((hmem p).mp h).1 rfl, hr.lt p hp⟩
  · intro heq
    exact (hat.nonneg (hj.interfaceFd.symm.trans heq)).elim
  · intro g hg
    rw [hj.interfaceFd]
    rcases hr.route g ((hj.kernel.sock g).mp hg) with h | ⟨q, hq, hqfd⟩
    · exact (hr.ranged.ne ((hj.kernel.sock g).mp hg) (h.trans hj.vacant)).elim
    · by_cases hqp : q = p
      · exact Or.inl (hqfd.symm.trans (hqp ▸ hat.workerFd))
      · exact Or.inr ⟨q, (hmem q).mpr ⟨hqp, hq⟩, (hj.workerFd q).trans hqfd⟩

theorem Joins.trans (hj : Joins fd p m m') (hs : Same m' m₁) : Joins fd p m m₁ where
  vacant := hj.vacant
  kernel := hj.kernel.trans hs.kernel
  workerList := hs.workerList.trans hj.workerList
  interfaceFd := hs.interfaceFd.trans hj.interfaceFd
  interface := hs.interface.trans hj.interface
  nextWorker := hs.nextWorker.trans hj.nextWorker
  workerFd q := (hs.workerFd q).trans (hj.workerFd q)

theorem At.joins (hat : At m fd p) (hr : Registry m) (hj : Joins fd p m m') : At m' fd p := by
  have hd : m'.kernel.desc fd = some .sock := by
    obtain ⟨q, hq, hqfd, hd, -⟩ := (hr.joins hat hj).iface
      (fun h => hat.nonneg (hj.interfaceFd.symm.trans h))
    rwa [hj.interfaceFd] at hd
  obtain ⟨q, hq⟩ := (hr.joins hat hj).at hd
  rcases hq.place with ⟨-, hne⟩ | ⟨hi, -, -⟩
  · exact (hne hj.interfaceFd.symm).elim
  · obtain rfl := Option.some.inj (hj.interface.symm.trans hi)
    exact hq

theorem Registry.quits (hr : Registry m) (hat : At m fd p) (hq : Quits fd p m m') :
    Registry m' := by
  obtain ⟨p', hp', hpfd, -, hall⟩ := hr.iface (hq.iface ▸ hat.nonneg)
  have hp : m.interface = some p := by
    rcases hat.place with h | h
    · exact (h.2 hq.iface).elim
    · exact h.1
  refine ⟨?_, ?_, ?_, ?_, ?_, ?_, ?_, ?_, ?_⟩
  · intro g hg
    rw [hq.desc] at hg
    rw [hq.nextFd]
    by_cases heq : g = fd
    · simp [heq] at hg
    · exact hr.ranged g (by simpa [heq] using hg)
  · rw [hq.workerList]
    exact hr.nodup
  · intro q h
    rw [hq.nextWorker]
    exact hr.lt q (hq.workerList ▸ h)
  · intro q h q' h' heq
    rw [hq.workerFd, hq.workerFd] at heq
    exact hr.fdInj q (hq.workerList ▸ h) q' (hq.workerList ▸ h') heq
  · intro q h
    rw [hq.workerList] at h
    have hne : (m.heap q).workerFd ≠ fd := hq.iface ▸ hall q h
    rw [hq.workerFd, hq.desc, Function.update_of_ne hne]
    exact hr.isOpen q h
  · intro h
    exact (h hq.interfaceFd).elim
  · intro q h
    rw [hq.nextWorker, hq.workerList]
    exact hr.unlisted q (hq.interface ▸ h)
  · intro _ q h
    rw [hq.interface, hp] at h
    obtain rfl := Option.some.inj h
    exact hq.dead
  · intro g hg
    rw [hq.desc] at hg
    by_cases heq : g = fd
    · simp [heq] at hg
    · rw [Function.update_of_ne heq] at hg
      rw [hq.workerList]
      rcases hr.route g hg with h | ⟨q, h, hqfd⟩
      · exact (heq (h.trans hq.iface.symm)).elim
      · exact Or.inr ⟨q, h, (hq.workerFd q).trans hqfd⟩

theorem At.register (hat : At m fd p) (hr : Registry m) (hi : m.interfaceFd = -1)
    (h : m.register fd p = some m') :
    m' = { m with
      interfaceFd := fd
      interface := some p
      workerList := m.workerList.erase p
      kernel := m.kernel.lock.unlock } := by
  obtain ⟨l, hl, rfl⟩ := register_eq h
  have hp : p ∈ m.workerList := by
    rcases hat.place with h | ⟨-, h, -⟩
    · exact h.1
    · exact (hat.nonneg (h.trans hi)).elim
  cases hpos : m.findWorkerPos fd with
  | none => exact (findWorkerPos_eq_none hpos p hp hat.workerFd).elim
  | some i =>
      rw [hpos] at hl
      obtain ⟨hlt, rfl⟩ := vectorErase_some hl
      obtain ⟨q, hq, hqfd⟩ := findWorkerPos_eq_some hpos
      obtain rfl := hr.fdInj q (List.mem_of_getElem? hq) p hp (hqfd.trans hat.workerFd.symm)
      rw [List.getElem?_eq_getElem hlt] at hq
      rw [hat.workerFd, ← Option.some.inj hq, hr.nodup.erase_getElem i hlt]

/-- The call takes record `p` beyond its first header, with the verb of an
interface and no interface there. -/
def Registers (m : Master) (p : Nat) (m' : Master) : Prop :=
  (m.heap p).status = .start ∧ (m'.heap p).status ≠ .start
    ∧ (m'.heap p).toDo = .interfacePut ∧ m.interfaceFd = -1

/-- How the parser branches, all together or from the first, change the
registry. -/
inductive Change (fd : Int) (p : Nat) (m : Master) (f : Flow) : Prop where
  | same (hs : Same m f.master) (hno : ¬ Registers m p f.master)
  | joins (hj : Joins fd p m f.master) (hyes : Registers m p f.master)
  | quits (hq : Quits fd p m f.master) (hf : f = .ret f.master)

theorem headerStage_change (hr : Registry m) (hat : At m fd p)
    (hf : m.headerStage fd p = some f) : Change fd p m f := by
  have hpar := headerStage_parserOnly hf
  have hwfd : ∀ q, (f.master.heap q).workerFd = (m.heap q).workerFd := fun q => by
    by_cases hq : q = p
    · rw [hq]
      exact hpar.record.workerFd
    · rw [hpar.others q hq]
  cases headerStage_case hf with
  | skip hst => exact .same (.refl hr.ranged) fun h => hst h.1
  | more r hst hgc hret =>
      refine .same (commit_same hr.ranged _ (getCommand_parses hgc)) fun h => h.2.1 ?_
      have := getCommand_status hgc
      simpa [Flow.master, hst] using this
  | header r hst hgc hret hno =>
      have h1 := commit_same hr.ranged .header (getCommand_parses hgc)
      refine .same (h1.trans (set_same h1.kernel.ranged
        ⟨by simp, by simp, by simp, by simp, by simp, by simp⟩)) fun h => hno ⟨?_, h.2.2.2⟩
      simpa [Flow.master] using h.2.2.1
  | reject r hst hgc hret hfd =>
      have h1 := commit_same hr.ranged .header (getCommand_parses hgc)
      refine .same (h1.trans (set_same h1.kernel.ranged
        ⟨by simp, by simp, by simp, by simp, by simp, by simp⟩)) fun h => h.2.1 ?_
      have := getCommand_status hgc
      simpa [Flow.master, hst] using this
  | register r m₁ hst hgc hret hverb hifd hreg =>
      have h1 := commit_same hr.ranged .header (getCommand_parses hgc)
      have h2 := h1.trans (set_same (p := p) (w := { r.w with status := .needSize })
        h1.kernel.ranged ⟨by simp, by simp, by simp, by simp, by simp, by simp⟩)
      obtain rfl := (hat.same h2).register (hr.same h2) (h2.interfaceFd.trans hifd) hreg
      exact .joins ⟨hifd, h2.kernel.trans (lock_unlock_extends h2.kernel.ranged),
        rfl, rfl, rfl, rfl, hwfd⟩ ⟨hst, by simp [Flow.master], by simpa [Flow.master], hifd⟩
  | quit r hst hgc hret hfd =>
      refine .quits ⟨hfd, ?_, rfl, rfl, rfl, rfl, rfl, rfl, hwfd, by simp [Flow.master]⟩ rfl
      rw [hfd]
      rfl

theorem sizeStage_keeps (hf : m.sizeStage p = some f) :
    (f.master.heap p).toDo = (m.heap p).toDo
      ∧ ((f.master.heap p).status = .start ↔ (m.heap p).status = .start) := by
  cases sizeStage_case hf with
  | skip => exact ⟨rfl, Iff.rfl⟩
  | more r hst hr hret => simp [Flow.master, getSize_keeps hr]
  | size r hst hr hret => simp [Flow.master, sized, getSize_keeps hr, hst]
  | fail r hst hr hret => simp [Flow.master, getSize_keeps hr]

theorem dataStage_keeps {rio : RecvIo} (hf : m.dataStage p rio = some f) :
    (f.master.heap p).toDo = (m.heap p).toDo
      ∧ ((f.master.heap p).status = .start ↔ (m.heap p).status = .start) := by
  obtain ⟨g, x, hw⟩ := getBinaryData_record m.kernel (m.heap p) rio
  cases dataStage_case hf with
  | skip => exact ⟨rfl, Iff.rfl⟩
  | more hst => simp [Flow.master, received, hw]
  | data hst => simp [Flow.master, hw, hst]
  | fail hst => simp [Flow.master, received, hw]

theorem Change.andThen {x : Option Flow} {g : Master → Option Flow}
    (hx : ∀ f₁, x = some f₁ → Change fd p m f₁)
    (hsame : ∀ m₁ f₁, m₁.kernel.Ranged → g m₁ = some f₁ → Same m₁ f₁.master)
    (hkeeps : ∀ m₁ f₁, g m₁ = some f₁ → (f₁.master.heap p).toDo = (m₁.heap p).toDo
      ∧ ((f₁.master.heap p).status = .start ↔ (m₁.heap p).status = .start))
    (h : Flow.andThen x g = some f) : Change fd p m f := by
  rcases Flow.andThen_eq_some.mp h with ⟨m₁, h1, rfl⟩ | ⟨m₁, h1, h2⟩
  · exact hx _ h1
  · obtain ⟨htoDo, hst⟩ := hkeeps m₁ f h2
    have hiff : Registers m p f.master ↔ Registers m p m₁ := by
      unfold Registers
      rw [htoDo, ne_eq, ne_eq, hst]
    cases hx _ h1 with
    | same hs hno =>
        exact .same (hs.trans (hsame m₁ f hs.kernel.ranged h2)) fun h => hno (hiff.mp h)
    | joins hj hyes =>
        exact .joins (hj.trans (hsame m₁ f hj.kernel.ranged h2)) (hiff.mpr hyes)
    | quits hq hf => cases hf

theorem parsePhase_change {rio : RecvIo} (hr : Registry m) (hat : At m fd p)
    (hf : m.parsePhase fd p rio = some f) : Change fd p m f :=
  .andThen (fun _ => .andThen (fun _ => headerStage_change hr hat)
    (fun _ _ => sizeStage_same) fun _ _ => sizeStage_keeps)
    (fun _ _ => dataStage_same) (fun _ _ => dataStage_keeps) hf

theorem Registry.change (hr : Registry m) (hat : At m fd p) (hc : Change fd p m f) :
    Registry f.master := by
  cases hc with
  | same hs => exact hr.same hs
  | joins hj => exact hr.joins hat hj
  | quits hq => exact hr.quits hat hq

theorem At.change {m₁ : Master} (hat : At m fd p) (hr : Registry m)
    (hc : Change fd p m (.next m₁)) : At m₁ fd p := by
  cases hc with
  | same hs => exact hat.same hs
  | joins hj => exact hat.joins hr hj
  | quits hq hf => cases hf

theorem At.alive (hat : At m fd p) (hr : Registry m) (hc : Change fd p m f)
    (halive : (f.master.heap p).alive = true) : At f.master fd p := by
  cases hc with
  | same hs => exact hat.same hs
  | joins hj => exact hat.joins hr hj
  | quits hq =>
      rw [hq.dead] at halive
      cases halive

/-! ## The whole handler -/

theorem handleData_registry (hr : Registry m) (hd : m.kernel.desc fd = some .sock)
    (h : m.handleData fd io = some m') : Registry m' := by
  obtain ⟨p, hat⟩ := hr.at hd
  rcases handleData_cases h with ⟨rfl, -⟩ | ⟨q, hcur, -, hcase⟩
  · exact hr
  · obtain rfl := hat.unique hcur
    rcases hcase with hpar | ⟨m₁, hpar, hfwd | ⟨m₂, f, hfwd, hput, rfl⟩⟩ <;>
      have hr1 := hr.change hat (parsePhase_change hr hat hpar)
    · exact hr1
    · exact hr1.same (forwardStage_same hr1.ranged hfwd)
    · have hs2 := forwardStage_same hr1.ranged hfwd
      exact hr1.same (hs2.trans (putStage_same hs2.kernel.ranged hput))

/-! ## New connections -/

/-- The record of a new connection. -/
def Conn.worker (c : Conn) : Worker :=
  { c.mem.fresh with alive := true, tasks := [], workerFd := c.fd, ip := c.ip, cpuUsage := -1 }

theorem acceptOne_new (c : Conn) : (m.acceptOne c).heap m.nextWorker = c.worker := by
  simp [acceptOne, createWorker_eq, Conn.worker]

theorem acceptOne_of_ne (c : Conn) (hq : q ≠ m.nextWorker) :
    (m.acceptOne c).heap q = m.heap q :=
  set_heap_of_ne _ hq

theorem acceptOne_desc (c : Conn) (g : Int) :
    (m.acceptOne c).kernel.desc g = if g = c.fd then some .sock else m.kernel.desc g := by
  simp [acceptOne, createWorker_eq, Kernel.connect, Function.update_apply]

theorem acceptConnections_invariant {I : Master → Prop} {cs : List Conn}
    (hone : ∀ (m : Master) (c : Conn), I m → I (m.acceptOne c)) (h : I m) :
    I (m.acceptConnections cs) := by
  induction cs generalizing m with
  | nil => exact h
  | cons c cs ih => exact ih (hone m c h)

theorem acceptable_invariant {I : Master → Prop} {cs : List Conn}
    (hone : ∀ (m : Master) (c : Conn), 0 ≤ c.fd → m.kernel.desc c.fd = none → I m →
      I (m.acceptOne c))
    (hcs : acceptable m.kernel cs = true) (h : I m) : I (m.acceptConnections cs) := by
  induction cs generalizing m with
  | nil => exact h
  | cons c cs ih =>
      simp only [acceptable, Bool.and_eq_true, decide_eq_true_eq, Option.isNone_iff_eq_none] at hcs
      exact ih hcs.2 (hone m c hcs.1.1 hcs.1.2 h)

theorem acceptOne_registry {c : Conn} (hr : Registry m) (h0 : 0 ≤ c.fd)
    (hfree : m.kernel.desc c.fd = none) : Registry (m.acceptOne c) := by
  have hheap : ∀ q, q ≠ m.nextWorker → (m.acceptOne c).heap q = m.heap q :=
    fun _ => acceptOne_of_ne c
  have hnew : ((m.acceptOne c).heap m.nextWorker).workerFd = c.fd := by
    rw [acceptOne_new]
    rfl
  have hdesc := acceptOne_desc (m := m) c
  have hold : ∀ q ∈ m.workerList, q ≠ m.nextWorker := fun q hq => (hr.lt q hq).ne
  have hofd : ∀ q ∈ m.workerList, (m.heap q).workerFd ≠ c.fd := fun q hq heq => by
    have := hr.isOpen q hq
    rw [heq, hfree] at this
    cases this
  have hmem : ∀ q, q ∈ (m.acceptOne c).workerList ↔ q ∈ m.workerList ∨ q = m.nextWorker :=
    fun q => by simp [acceptOne]
  refine ⟨?_, ?_, ?_, ?_, ?_, ?_, ?_, ?_, ?_⟩
  · intro g hg
    rw [hdesc] at hg
    have hn : (m.acceptOne c).kernel.nextFd = max m.kernel.nextFd (c.fd.toNat + 1) := rfl
    rw [hn]
    by_cases heq : g = c.fd
    · subst heq
      omega
    · rw [if_neg heq] at hg
      have := hr.ranged g hg
      omega
  · show (m.workerList ++ [m.nextWorker]).Nodup
    refine hr.nodup.append (List.nodup_singleton _) ?_
    intro q hq hq'
    exact hold q hq (List.mem_singleton.mp hq')
  · intro q hq
    show q < m.nextWorker + 1
    rcases (hmem q).mp hq with h | rfl
    · exact (hr.lt q h).trans (Nat.lt_succ_self _)
    · exact Nat.lt_succ_self _
  · intro q hq q' hq' heq
    rcases (hmem q).mp hq with h | rfl <;> rcases (hmem q').mp hq' with h' | rfl
    · rw [hheap q (hold q h), hheap q' (hold q' h')] at heq
      exact hr.fdInj q h q' h' heq
    · rw [hheap q (hold q h), hnew] at heq
      exact (hofd q h heq).elim
    · rw [hheap q' (hold q' h'), hnew] at heq
      exact (hofd q' h' heq.symm).elim
    · rfl
  · intro q hq
    rw [hdesc]
    rcases (hmem q).mp hq with h | rfl
    · rw [hheap q (hold q h), if_neg (hofd q h)]
      exact hr.isOpen q h
    · rw [hnew, if_pos rfl]
  · intro hne
    obtain ⟨p, hp, hpfd, hd, hall⟩ := hr.iface hne
    have hcfd : m.interfaceFd ≠ c.fd := fun heq => by
      rw [heq, hfree] at hd
      cases hd
    refine ⟨p, hp, ?_, ?_, ?_⟩
    · rw [hheap p (hr.unlisted p hp).2.ne]
      exact hpfd
    · rw [hdesc]
      show (if m.interfaceFd = c.fd then _ else m.kernel.desc m.interfaceFd) = _
      rw [if_neg hcfd]
      exact hd
    · intro q hq
      rcases (hmem q).mp hq with h | rfl
      · rw [hheap q (hold q h)]
        exact hall q h
      · rw [hnew]
        exact hcfd.symm
  · intro p hp
    obtain ⟨hnot, hlt⟩ := hr.unlisted p hp
    refine ⟨?_, hlt.trans (Nat.lt_succ_self _)⟩
    intro h
    rcases (hmem p).mp h with h | h
    · exact hnot h
    · exact hlt.ne h
  · intro heq p hp
    rw [hheap p (hr.unlisted p hp).2.ne]
    exact hr.gone heq p hp
  · intro g hg
    rw [hdesc] at hg
    by_cases heq : g = c.fd
    · exact Or.inr ⟨m.nextWorker, (hmem _).mpr (Or.inr rfl), hnew.trans heq.symm⟩
    · rw [if_neg heq] at hg
      refine (hr.route g hg).imp_right ?_
      rintro ⟨q, hq, hqfd⟩
      exact ⟨q, (hmem q).mpr (Or.inl hq), (by rw [hheap q (hold q hq)]; exact hqfd)⟩

theorem acceptConnections_registry {cs : List Conn} (hr : Registry m)
    (h : acceptable m.kernel cs = true) : Registry (m.acceptConnections cs) :=
  acceptable_invariant (fun _ _ h0 hfree hr => acceptOne_registry hr h0 hfree) h hr

/-! ## Every reachable state -/

theorem init_registry (resolve : Bytes → Bytes) : Registry (init resolve) where
  ranged _ h := (h rfl).elim
  nodup := List.nodup_nil
  lt _ h := nomatch h
  fdInj _ h := nomatch h
  isOpen _ h := nomatch h
  iface h := (h rfl).elim
  unlisted _ h := nomatch h
  gone _ _ h := nomatch h
  route _ h := nomatch h

theorem deliver_same (fd : Int) (h : m.kernel.Ranged) (arrived : List Item) :
    Same m { m with kernel := m.kernel.deliver fd arrived } :=
  same_of_kernel (.of_desc h rfl rfl rfl)

theorem Step.registry {e : Event} (hr : Registry m) (hs : Step m e m') : Registry m' := by
  obtain ⟨hen, h⟩ := hs
  cases e with
  | accept cs =>
      obtain rfl := Option.some.inj h
      exact acceptConnections_registry hr hen
  | data fd arrived io =>
      simp only [enabled, Bool.and_eq_true, beq_iff_eq] at hen
      exact handleData_registry (hr.same (deliver_same fd hr.ranged arrived)) hen.1 h
  | heartbeat addr usage now =>
      obtain rfl := Option.some.inj h
      exact hr.same (reportHeartbeat_same hr.ranged addr usage now)
  | detect now mem ios => exact hr.same (detectPass_same hr.ranged h)

theorem Reachable.registry (h : Reachable m) : Registry m :=
  h.invariant init_registry fun _ _ _ _ hr hs => hs.registry hr

end Master

end KeyLime
