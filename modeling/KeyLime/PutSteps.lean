import KeyLime.Delivery
import KeyLime.Receive
import KeyLime.Reduction

/-!
# `do_put`, one system call after the other

`Putting` is a thread in `do_put`: where it is, and what is still to come
of the outcomes of its reads and writes. A step takes the mutex or gives
it back, or makes one system call.

A thread that nobody interrupts does what `doPut` does (`putting_doPut`).
Whatever happens to the kernel in between, it writes a frame or a part of
one (`Putting.OnWay`): what it has written, with what is in its buffer and any
bytes for those it still has to read, makes a frame. The payload is what its reads
have got, so nothing needs to be known of the file, and a call that does not get
as many bytes as it has announced fails.

`StepCase` lists what one step can do, with the system call it makes. The results
about several threads (`Threads`, `Atomic`) are by cases on it and do not look at
the program of `do_put` again.
-/

namespace KeyLime

/-- The arguments of a call: `fd_to_send_to`, and of the record the name and
the descriptor of its file. -/
structure PutCall where
  fdToSendTo : Int
  tempFileName : Bytes
  tempFd : Int
  io : PutIo

/-- Where a thread is in `do_put`; `buf` is what `write_all_to_socket` still
has to write, `left` the value of `file_size` in the data loop. -/
inductive PutPlace where
  | locking
  | sizing
  | header (buf : Bytes)
  | size (buf : Bytes)
  | rewinding
  | reading (left : Nat)
  | block (left : Nat) (buf : Bytes)
  | leaving (ret : Ret)
  | back (ret : Ret)
deriving DecidableEq

structure Putting where
  call : PutCall
  place : PutPlace
  fileSize : Nat
  reads : List Outcome
  writes : List Outcome
  /-- History: what its writes have accepted. -/
  out : Bytes

namespace Putting

def start (c : PutCall) : Putting := ⟨c, .locking, 0, c.io.reads, c.io.writes, []⟩

def inside (p : Putting) : Bool :=
  match p.place with
  | .locking | .back _ => false
  | _ => true

def goTo (p : Putting) (place : PutPlace) : Putting := { p with place }

/-- `write` has accepted `bs`, and `place` is behind it. -/
def wrote (p : Putting) (bs : Bytes) (place : PutPlace) (os : List Outcome) : Putting :=
  { p with place, writes := os, out := p.out ++ bs }

/-- The next `write` in `write_all_to_socket`; `place` is where the rest of
the buffer is written. -/
def write (k : Kernel) (p : Putting) (place : Bytes → PutPlace) (buf : Bytes) : Kernel × Putting :=
  if k.desc p.call.fdToSendTo = none then (k, p.goTo (.leaving .bigFailure))
  else
    match p.writes with
    | [] => (k.put p.call.fdToSendTo buf, p.wrote buf (place []) [])
    | .intr :: os => (k, p.wrote [] (place buf) os)
    | .again :: os => (k, p.wrote [] (place buf) os)
    | .fail :: os => (k, p.wrote [] (.leaving .bigFailure) os)
    | .zero :: os => (k, p.wrote [] (.leaving .bigFailure) os)
    | .take n :: os =>
        (k.put p.call.fdToSendTo (buf.take (n + 1)),
          p.wrote (buf.take (n + 1)) (place (buf.drop (n + 1))) os)

/-- The next `read` of the file, `left` bytes being missing. -/
def read (k : Kernel) (p : Putting) (left : Nat) : Kernel × Putting :=
  match p.reads.head? with
  | some .intr => (k, { p with reads := p.reads.tail })
  | some .again => (k, p.goTo (.leaving .bigFailure))
  | some .fail => (k, p.goTo (.leaving .bigFailure))
  | some .zero => (k, p.goTo (.leaving .bigFailure))
  | _ =>
      let (blk, k) := readBlock k p.call.tempFd left p.reads
      if blk = [] then (k, p.goTo (.leaving .bigFailure))
      else (k, { p with reads := p.reads.tail, place := .block (left - blk.length) blk })

def step : Kernel × Putting → Kernel × Putting
  | (k, p) =>
    match p.place with
    | .locking => (k.lock, p.goTo .sizing)
    | .sizing =>
        (k, { p with
          fileSize := getFileSize k p.call.tempFileName p.call.io.fopenOk
          place := .header (putHeader p.call.tempFileName) })
    | .header buf =>
        if buf = [] then (k, p.goTo (.size (sizeBytes p.fileSize))) else p.write k .header buf
    | .size buf => if buf = [] then (k, p.goTo .rewinding) else p.write k .size buf
    | .rewinding => (k.rewind p.call.tempFd, p.goTo (.reading p.fileSize))
    | .reading left => if left = 0 then (k, p.goTo (.leaving .doneSending)) else p.read k left
    | .block left buf =>
        if buf = [] then (k, p.goTo (.reading left)) else p.write k (.block left) buf
    | .leaving ret => (k.unlock, p.goTo (.back ret))
    | .back _ => (k, p)

/-! ## A call that is not interrupted -/

/-- Steps without anything in between. -/
def Leads (x y : Kernel × Putting) : Prop := ∃ n, step^[n] x = y

variable {x y z : Kernel × Putting} {k k' : Kernel} {p : Putting}

theorem Leads.refl (x : Kernel × Putting) : Leads x x := ⟨0, rfl⟩

theorem Leads.next (h : Leads (step x) y) : Leads x y := by
  obtain ⟨n, rfl⟩ := h
  exact ⟨n + 1, rfl⟩

theorem Leads.trans (h : Leads x y) (h' : Leads y z) : Leads x z := by
  obtain ⟨n, rfl⟩ := h
  obtain ⟨m, rfl⟩ := h'
  exact ⟨m + n, Function.iterate_add_apply _ _ _ _⟩

/-- The call is where `write_all_to_socket` writes `buf`. -/
structure Writes (place : Bytes → PutPlace) : Prop where
  step : ∀ k p buf, p.place = place buf → buf ≠ [] → step (k, p) = p.write k place buf

theorem writes_header : Writes .header where
  step k p buf hp hbuf := by simp only [Putting.step, hp, if_neg hbuf]

theorem writes_size : Writes .size where
  step k p buf hp hbuf := by simp only [Putting.step, hp, if_neg hbuf]

theorem writes_block (left : Nat) : Writes (.block left) where
  step k p buf hp hbuf := by simp only [Putting.step, hp, if_neg hbuf]

/-- What a call has come to when its loop of writes is over. -/
structure Written (place : Bytes → PutPlace) (p p' : Putting) (whole : Prop) (os : List Outcome) :
    Prop where
  call : p'.call = p.call
  fileSize : p'.fileSize = p.fileSize
  reads : p'.reads = p.reads
  writes : p'.writes = os
  place : (whole ∧ p'.place = place []) ∨ (¬ whole ∧ p'.place = .leaving .bigFailure)

theorem write_leads {place : Bytes → PutPlace} (hw : Writes place) (os : List Outcome) :
    ∀ (buf : Bytes) (total : Nat) (k : Kernel) (p : Putting), p.place = place buf →
      p.writes = os → k.desc p.call.fdToSendTo ≠ none →
      ∃ p', Leads (k, p) ((writeAllLoop p.call.fdToSendTo os buf total k).2.2, p')
        ∧ Written place p p' ((writeAllLoop p.call.fdToSendTo os buf total k).1 = total + buf.length)
          (writeAllLoop p.call.fdToSendTo os buf total k).2.1 := by
  induction os with
  | nil =>
      intro buf total k p hp hos hd
      by_cases hbuf : buf = []
      · subst hbuf
        exact ⟨p, .refl _, rfl, rfl, rfl, hos, Or.inl ⟨by simp [writeAllLoop], hp⟩⟩
      · have hloop : writeAllLoop p.call.fdToSendTo [] buf total k =
            ((total : Int) + buf.length, [], k.put p.call.fdToSendTo buf) := by
          cases buf with
          | nil => exact (hbuf rfl).elim
          | cons b buf => rfl
        rw [hloop]
        refine ⟨p.wrote buf (place []) [], .next ?_, rfl, rfl, rfl, rfl, Or.inl ⟨rfl, rfl⟩⟩
        simp only [hw.step k p buf hp hbuf, Putting.write, if_neg hd, hos]
        exact .refl _
  | cons o os ih =>
      intro buf total k p hp hos hd
      cases buf with
      | nil => exact ⟨p, .refl _, rfl, rfl, rfl, hos, Or.inl ⟨by simp [writeAllLoop], hp⟩⟩
      | cons b buf =>
          have hstep := hw.step k p _ hp (List.cons_ne_nil b buf)
          simp only [Putting.write, if_neg hd, hos] at hstep
          cases o with
          | intr =>
              obtain ⟨p', hl, hwr⟩ := ih (b :: buf) total k (p.wrote [] (place (b :: buf)) os)
                rfl rfl hd
              exact ⟨p', .next (hstep ▸ hl), hwr.call, hwr.fileSize, hwr.reads, hwr.writes, hwr.place⟩
          | again =>
              obtain ⟨p', hl, hwr⟩ := ih (b :: buf) total k (p.wrote [] (place (b :: buf)) os)
                rfl rfl hd
              exact ⟨p', .next (hstep ▸ hl), hwr.call, hwr.fileSize, hwr.reads, hwr.writes, hwr.place⟩
          | fail =>
              refine ⟨p.wrote [] (.leaving .bigFailure) os, .next (hstep ▸ .refl _), rfl, rfl, rfl, rfl,
                Or.inr ⟨?_, rfl⟩⟩
              simp only [writeAllLoop, List.length_cons]
              omega
          | zero =>
              refine ⟨p.wrote [] (.leaving .bigFailure) os, .next (hstep ▸ .refl _), rfl, rfl, rfl, rfl,
                Or.inr ⟨?_, rfl⟩⟩
              simp only [writeAllLoop, List.length_cons]
              omega
          | take n =>
              have hd' : (k.put p.call.fdToSendTo ((b :: buf).take (n + 1))).desc
                  p.call.fdToSendTo ≠ none :=
                fun h => hd ((k.put_desc_eq_none _ _ _).mp h)
              obtain ⟨p', hl, hwr⟩ := ih ((b :: buf).drop (n + 1))
                (total + ((b :: buf).take (n + 1)).length)
                (k.put p.call.fdToSendTo ((b :: buf).take (n + 1)))
                (p.wrote ((b :: buf).take (n + 1)) (place ((b :: buf).drop (n + 1))) os) rfl rfl hd'
              have hlen := congrArg List.length (List.take_append_drop (n + 1) (b :: buf))
              rw [List.length_append] at hlen
              rw [Nat.cast_add] at hl hwr
              refine ⟨p', .next (hstep ▸ hl), hwr.call, hwr.fileSize, hwr.reads, hwr.writes, ?_⟩
              have hsum : ((total : Int) + ((b :: buf).take (n + 1)).length
                  + ((b :: buf).drop (n + 1)).length) = total + (b :: buf).length := by omega
              have hplace := hwr.place
              rw [hsum] at hplace
              exact hplace

theorem writeAll_leads {place : Bytes → PutPlace} (hw : Writes place) {buf : Bytes}
    {r : Int} {os : List Outcome} (hp : p.place = place buf)
    (h : writeAllToSocket k p.call.fdToSendTo buf p.writes = (r, os, k')) :
    ∃ p', Leads (k, p) (k', p') ∧ Written place p p' (r = buf.length) os := by
  unfold writeAllToSocket at h
  split at h
  · rename_i hclosed
    obtain ⟨rfl, rfl, rfl⟩ := h
    refine ⟨p.goTo (.leaving .bigFailure), .next ?_, rfl, rfl, rfl, rfl, Or.inr ⟨by omega, rfl⟩⟩
    rw [hw.step k p buf hp hclosed.1, Putting.write, if_pos hclosed.2]
    exact .refl _
  · rename_i hopen
    by_cases hbuf : buf = []
    · subst hbuf
      have hloop : writeAllLoop p.call.fdToSendTo p.writes [] 0 k = (0, p.writes, k) := by
        unfold writeAllLoop
        rfl
      rw [hloop] at h
      obtain ⟨rfl, rfl, rfl⟩ := h
      exact ⟨p, .refl _, rfl, rfl, rfl, rfl, Or.inl ⟨rfl, hp⟩⟩
    · have hd : k.desc p.call.fdToSendTo ≠ none := fun hd => hopen ⟨hbuf, hd⟩
      obtain ⟨p', hl, hwr⟩ := write_leads hw p.writes buf 0 k p hp rfl hd
      rw [Nat.cast_zero, h] at hl hwr
      rw [zero_add] at hwr
      exact ⟨p', hl, hwr⟩

theorem step_reading {left : Nat} (hp : p.place = .reading left) (hleft : left ≠ 0) :
    step (k, p) = p.read k left := by
  simp only [step, hp, if_neg hleft]

theorem putLoop_leads {fuel left : Nat} {ret : Ret} (hfuel : left + p.reads.length ≤ fuel)
    (hp : p.place = .reading left)
    (h : putLoop p.call.fdToSendTo p.call.tempFd fuel p.reads p.writes left k = (ret, k')) :
    ∃ p', Leads (k, p) (k', p') ∧ p'.call = p.call ∧ p'.place = .leaving ret := by
  induction fuel generalizing left k p with
  | zero =>
      obtain rfl : left = 0 := by omega
      rw [putLoop_done] at h
      obtain ⟨rfl, rfl⟩ := h
      refine ⟨p.goTo (.leaving .doneSending), .next ?_, rfl, rfl⟩
      simp only [step, hp]
      exact .refl _
  | succ fuel ih =>
      by_cases hleft : left = 0
      · subst hleft
        rw [putLoop_done] at h
        obtain ⟨rfl, rfl⟩ := h
        refine ⟨p.goTo (.leaving .doneSending), .next ?_, rfl, rfl⟩
        simp only [step, hp]
        exact .refl _
      · have hstep := step_reading (k := k) hp hleft
        unfold Putting.read at hstep
        generalize hreads : p.reads = reads at h hfuel hstep
        cases nextRead reads with
        | intr os =>
            rw [putLoop_intr _ _ hleft] at h
            rw [List.length_cons] at hfuel
            obtain ⟨p', hl, hcall, hplace⟩ :=
              ih (p := { p with reads := os }) (by simp only; omega) hp h
            exact ⟨p', .next (hstep ▸ hl), hcall, hplace⟩
        | stop o os ho =>
            rw [putLoop_stop _ _ hleft ho] at h
            obtain ⟨rfl, rfl⟩ := h
            refine ⟨p.goTo (.leaving .bigFailure), .next ?_, rfl, rfl⟩
            rw [hstep]
            rcases ho with rfl | rfl | rfl <;> exact .refl _
        | data hdata =>
            rw [putLoop_data _ _ hleft hdata] at h
            have hread : step (k, p) =
                (if (readBlock k p.call.tempFd left reads).1 = [] then
                  ((readBlock k p.call.tempFd left reads).2, p.goTo (.leaving .bigFailure))
                else ((readBlock k p.call.tempFd left reads).2,
                  { p with
                    reads := reads.tail
                    place := .block (left - (readBlock k p.call.tempFd left reads).1.length)
                      (readBlock k p.call.tempFd left reads).1 })) := by
              rw [hstep]
              rcases hdata with rfl | ⟨n, os, rfl⟩ <;> rfl
            dsimp only at h
            generalize readBlock k p.call.tempFd left reads = b at h hread
            obtain ⟨blk, k₁⟩ := b
            dsimp only at h hread
            split at h
            · rename_i hblk
              obtain ⟨rfl, rfl⟩ := h
              rw [if_pos hblk] at hread
              exact ⟨p.goTo (.leaving .bigFailure), .next (hread ▸ .refl _), rfl, rfl⟩
            · rename_i hblk
              rw [if_neg hblk] at hread
              have hpos := List.length_pos_iff.mpr hblk
              obtain ⟨⟨r, os, k₂⟩, hcallw⟩ : ∃ u, writeAllToSocket k₁ p.call.fdToSendTo blk p.writes = u :=
                ⟨_, rfl⟩
              rw [hcallw] at h
              obtain ⟨p₂, hl, hwr⟩ := writeAll_leads (writes_block (left - blk.length)) rfl
                (p := { p with reads := reads.tail, place := .block (left - blk.length) blk }) hcallw
              dsimp only at h
              rcases hwr.place with ⟨hwhole, hplace⟩ | ⟨hshort, hplace⟩
              · rw [if_neg (by omega)] at h
                have hdone : step (k₂, p₂) = (k₂, p₂.goTo (.reading (left - blk.length))) := by
                  simp only [step, hplace, if_true]
                have htail : reads.tail.length ≤ reads.length := by
                  rw [List.length_tail]
                  omega
                obtain ⟨p', hl', hcall, hplace'⟩ := ih (k := k₂)
                  (p := p₂.goTo (.reading (left - blk.length)))
                  (by simp only [goTo, hwr.reads]; omega) rfl
                  (by simpa only [goTo, hwr.call, hwr.reads, hwr.writes] using h)
                refine ⟨p', .next ?_, hcall.trans hwr.call, hplace'⟩
                rw [hread]
                exact hl.trans (.next (hdone ▸ hl'))
              · rw [if_pos (by omega)] at h
                obtain ⟨rfl, rfl⟩ := h
                exact ⟨p₂, .next (hread ▸ hl), hwr.call, hplace⟩

/-- A thread that nobody interrupts does what `doPut` does. -/
theorem putting_doPut {c : PutCall} {w : Worker} {ret : Ret}
    (hname : w.tempFileName = some c.tempFileName) (hfd : w.tempFd = c.tempFd)
    (h : doPut k c.fdToSendTo w c.io = some (ret, k')) :
    ∃ p, Leads (k, start c) (k', p) ∧ p.call = c ∧ p.place = .back ret := by
  rw [doPut, hname, Option.map_some, Option.some.injEq, hfd] at h
  dsimp only at h
  generalize hsize : getFileSize k.lock c.tempFileName c.io.fopenOk = n at h
  obtain ⟨⟨r, os, k₁⟩, hheader⟩ : ∃ u, writeAllToSocket k.lock c.fdToSendTo
      (putHeader c.tempFileName) c.io.writes = u := ⟨_, rfl⟩
  rw [hheader] at h
  dsimp only at h
  obtain ⟨p₁, hl₁, hwr₁⟩ := writeAll_leads writes_header
    (p := ⟨c, .header (putHeader c.tempFileName), n, c.io.reads, c.io.writes, []⟩) rfl hheader
  have hstart : Leads (k, start c) (k₁, p₁) := by
    refine .next (.next ?_)
    simp only [step, start, goTo, hsize]
    exact hl₁
  have hgives : ∀ {p : Putting} {k₂ : Kernel} {ret' : Ret}, Leads (k, start c) (k₂, p) → p.call = c →
      p.place = .leaving ret' → (ret', k₂.unlock) = (ret, k') →
      ∃ p, Leads (k, start c) (k', p) ∧ p.call = c ∧ p.place = .back ret := by
    rintro p k₂ ret' hl hcall hplace ⟨rfl, rfl⟩
    have hstep : step (k₂, p) = (k₂.unlock, p.goTo (.back ret)) := by simp only [step, hplace]
    exact ⟨p.goTo (.back ret), hl.trans (.next (hstep ▸ .refl _)), hcall, rfl⟩
  split at h
  · rename_i hshort
    rcases hwr₁.place with ⟨hwhole, -⟩ | ⟨-, hplace⟩
    · exact (hshort hwhole).elim
    · exact hgives hstart hwr₁.call hplace h
  · rename_i hwhole
    have hplace₁ : p₁.place = .header [] := by
      rcases hwr₁.place with ⟨-, hplace⟩ | ⟨hshort, -⟩
      · exact hplace
      · exact (hwhole hshort).elim
    obtain ⟨⟨r₂, os₂, k₂⟩, hsizeOf⟩ : ∃ u, writeAllToSocket k₁ c.fdToSendTo (sizeBytes n) os = u :=
      ⟨_, rfl⟩
    rw [hsizeOf] at h
    dsimp only at h
    have hnext : step (k₁, p₁) = (k₁, p₁.goTo (.size (sizeBytes n))) := by
      simp only [step, hplace₁, if_true, hwr₁.fileSize]
    obtain ⟨p₂, hl₂, hwr₂⟩ := writeAll_leads writes_size (p := p₁.goTo (.size (sizeBytes n))) rfl
      (by simpa only [goTo, hwr₁.call, hwr₁.writes] using hsizeOf)
    have hstart₂ : Leads (k, start c) (k₂, p₂) := hstart.trans (.next (hnext ▸ hl₂))
    have hcall₂ : p₂.call = c := hwr₂.call.trans hwr₁.call
    rw [sizeBytes_length] at hwr₂
    split at h
    · rename_i hshort
      rcases hwr₂.place with ⟨hwhole, -⟩ | ⟨-, hplace⟩
      · exact (hshort hwhole).elim
      · exact hgives hstart₂ hcall₂ hplace h
    · rename_i hwhole₂
      have hplace₂ : p₂.place = .size [] := by
        rcases hwr₂.place with ⟨-, hplace⟩ | ⟨hshort, -⟩
        · exact hplace
        · exact (hwhole₂ hshort).elim
      have hsize₂ : p₂.fileSize = n := hwr₂.fileSize.trans hwr₁.fileSize
      have hrewind : Leads (k₂, p₂) (k₂.rewind c.tempFd, p₂.goTo (.reading n)) := by
        refine .next (.next ?_)
        simp only [step, hplace₂, if_true, goTo, hcall₂, hsize₂]
        exact .refl _
      have hreads₂ : p₂.reads = c.io.reads := hwr₂.reads.trans hwr₁.reads
      obtain ⟨⟨ret', k₃⟩, hloop⟩ : ∃ u, putLoop c.fdToSendTo c.tempFd (n + c.io.reads.length)
          c.io.reads os₂ n (k₂.rewind c.tempFd) = u := ⟨_, rfl⟩
      rw [hloop] at h
      have hfuel : n + (p₂.goTo (.reading n)).reads.length ≤ n + c.io.reads.length := by
        simp only [goTo, hreads₂, le_refl]
      obtain ⟨p₃, hl₃, hcall₃, hplace₃⟩ := putLoop_leads (p := p₂.goTo (.reading n)) hfuel rfl
        (by simpa only [goTo, hcall₂, hreads₂, hwr₂.writes] using hloop)
      exact hgives ((hstart₂.trans hrewind).trans hl₃) (hcall₃.trans hcall₂) hplace₃ h

theorem step_back {ret : Ret} (hp : p.place = .back ret) : step (k, p) = (k, p) := by
  simp only [step, hp]

theorem iterate_back {ret : Ret} (hp : p.place = .back ret) (n : Nat) :
    step^[n] (k, p) = (k, p) :=
  Function.iterate_fixed (step_back hp) n

theorem doPut_of_iterate {c : PutCall} {w : Worker} {ret : Ret} {n : Nat}
    (hname : w.tempFileName = some c.tempFileName) (hfd : w.tempFd = c.tempFd)
    (h : step^[n] (k, start c) = (k', p)) (hp : p.place = .back ret) :
    doPut k c.fdToSendTo w c.io = some (ret, k') := by
  obtain ⟨⟨ret₁, k₁⟩, hput⟩ : ∃ u, doPut k c.fdToSendTo w c.io = some u := by
    unfold doPut
    rw [hname]
    exact ⟨_, rfl⟩
  obtain ⟨p₁, ⟨m, hm⟩, -, hp₁⟩ := putting_doPut hname hfd hput
  have hboth : (k₁, p₁) = (k', p) := by
    rw [← iterate_back (k := k₁) hp₁ n, ← hm, ← Function.iterate_add_apply, Nat.add_comm,
      Function.iterate_add_apply, h, iterate_back hp]
  obtain ⟨rfl, rfl⟩ := Prod.mk.inj hboth
  rw [hp, PutPlace.back.injEq] at hp₁
  rw [hput, hp₁]

/-! ## What has been written -/

/-- What is in the buffers and still has to be written. -/
def pending (p : Putting) : Bytes :=
  match p.place with
  | .header buf => buf ++ sizeBytes p.fileSize
  | .size buf => buf
  | .block _ buf => buf
  | _ => []

/-- How many bytes of the file still have to be read. -/
def missing (p : Putting) : Nat :=
  match p.place with
  | .header _ => p.fileSize
  | .size _ => p.fileSize
  | .rewinding => p.fileSize
  | .reading left => left
  | .block left _ => left
  | _ => 0

def frame (p : Putting) (body : Bytes) : Bytes :=
  putHeader p.call.tempFileName ++ sizeBytes p.fileSize ++ body

/-- A successful call has written a frame, and one that fails a part of one
that is not the whole. -/
def Ended (p : Putting) (ret : Ret) : Prop :=
  ∃ body, body.length = p.fileSize ∧ p.out <+: p.frame body ∧
    ((ret = .doneSending ∧ p.out = p.frame body) ∨ (ret = .bigFailure ∧ p.out ≠ p.frame body))

/-- So far the call has written the beginning of a frame. What is in its buffers
comes next in that frame, and the payload has as many bytes as were announced,
counting those that are still to be read. -/
def OnWay (p : Putting) : Prop :=
  match p.place with
  | .locking => p.out = []
  | .sizing => p.out = []
  | .leaving ret => p.Ended ret
  | .back ret => p.Ended ret
  | _ => ∃ body, p.out ++ p.pending = p.frame body ∧ body.length + p.missing = p.fileSize

theorem ended_of_part {body : Bytes} (h : p.out ++ p.pending = p.frame body)
    (hlen : body.length + p.missing = p.fileSize) (hmore : p.pending ≠ [] ∨ p.missing ≠ 0) :
    p.Ended .bigFailure := by
  have hframe : p.frame (body ++ List.replicate p.missing 0) =
      p.out ++ (p.pending ++ List.replicate p.missing 0) := by
    rw [← List.append_assoc, h]
    simp only [frame, List.append_assoc]
  refine ⟨body ++ List.replicate p.missing 0, by simp [hlen], ?_, Or.inr ⟨rfl, ?_⟩⟩
  · rw [hframe]
    exact List.prefix_append _ _
  · intro heq
    rw [hframe, List.self_eq_append_right, List.append_eq_nil_iff, List.replicate_eq_nil_iff] at heq
    rcases hmore with hpend | hmiss
    · exact hpend heq.1
    · exact hmiss heq.2

/-- The middle of a call: one `write` of what `place` says is to be written
next. `rest` and `left` are what is to come behind the buffer. -/
theorem write_onWay {place : Bytes → PutPlace} {buf body : Bytes} {left : Nat} (rest : Bytes)
    (hplace : ∀ (q : Putting) buf, q.fileSize = p.fileSize → q.place = place buf →
      q.pending = buf ++ rest ∧ q.missing = left)
    (honWay : ∀ (q : Putting) buf, q.place = place buf → q.OnWay =
      ∃ body, q.out ++ q.pending = q.frame body ∧ body.length + q.missing = q.fileSize)
    (hbuf : buf ≠ []) (hout : p.out ++ (buf ++ rest) = p.frame body)
    (hlen : body.length + left = p.fileSize) (hp : p.place = place buf) :
    (p.write k place buf).2.OnWay := by
  obtain ⟨hpend, hmiss⟩ := hplace p buf rfl hp
  have hpart : p.Ended .bigFailure := by
    refine ended_of_part (hpend ▸ hout) (hmiss ▸ hlen) (Or.inl fun h => hbuf ?_)
    rw [hpend, List.append_eq_nil_iff] at h
    exact h.1
  have hgo : ∀ (n : Nat) (os : List Outcome),
      (p.wrote (buf.take n) (place (buf.drop n)) os).OnWay := by
    intro n os
    rw [honWay _ (buf.drop n) rfl]
    obtain ⟨hpend', hmiss'⟩ := hplace (p.wrote (buf.take n) (place (buf.drop n)) os) _ rfl rfl
    refine ⟨body, ?_, hmiss' ▸ hlen⟩
    rw [hpend']
    calc p.out ++ buf.take n ++ (buf.drop n ++ rest)
        = p.out ++ (buf.take n ++ buf.drop n ++ rest) := by simp only [List.append_assoc]
      _ = p.frame body := by rw [List.take_append_drop, hout]
  have hstop : ∀ os : List Outcome, (p.wrote [] (.leaving .bigFailure) os).OnWay := by
    intro os
    obtain ⟨body', hlen', hpre, hor⟩ := hpart
    have hsame : (p.wrote [] (.leaving .bigFailure) os).out = p.out := List.append_nil p.out
    refine ⟨body', hlen', ?_, ?_⟩ <;> rw [hsame]
    · exact hpre
    · exact hor
  unfold Putting.write
  split
  · exact hpart
  · split
    · simpa only [List.take_length, List.drop_length] using hgo buf.length []
    · simpa only [List.take_zero, List.drop_zero] using hgo 0 _
    · simpa only [List.take_zero, List.drop_zero] using hgo 0 _
    · exact hstop _
    · exact hstop _
    · exact hgo _ _

theorem readBlock_length_le (k : Kernel) (src : Int) (size : Nat) (reads : List Outcome) :
    (readBlock k src size reads).1.length ≤ size := by
  obtain ⟨n, hn, hblock⟩ := readBlock_eq (k := k) src size reads
  rw [hblock]
  refine le_trans ?_ hn
  unfold Kernel.readFile
  split
  · exact List.length_take_le _ _
  · exact Nat.zero_le _

theorem read_onWay {body : Bytes} {left : Nat} (hleft : left ≠ 0) (hp : p.place = .reading left)
    (hout : p.out = p.frame body) (hlen : body.length + left = p.fileSize) :
    (p.read k left).2.OnWay := by
  have hpart : p.Ended .bigFailure := by
    have hpend : p.pending = [] := by simp only [pending, hp]
    have hmiss : p.missing = left := by simp only [missing, hp]
    exact ended_of_part (by rw [hpend, List.append_nil, hout]) (by rw [hmiss, hlen])
      (Or.inr (by rw [hmiss]; exact hleft))
  unfold Putting.read
  split
  · simp only [OnWay, hp]
    exact ⟨body, by simp only [pending, List.append_nil]; exact hout, by simpa only [missing] using hlen⟩
  · exact hpart
  · exact hpart
  · exact hpart
  · have hle := readBlock_length_le k p.call.tempFd left p.reads
    generalize readBlock k p.call.tempFd left p.reads = b at hle ⊢
    obtain ⟨blk, k₁⟩ := b
    dsimp only at hle ⊢
    split
    · exact hpart
    · refine ⟨body ++ blk, ?_, ?_⟩
      · simp only [pending, frame, ← List.append_assoc]
        exact congrArg (· ++ blk) (hout.trans (by simp only [frame, List.append_assoc]))
      · simp only [missing, List.length_append]
        omega

theorem step_onWay (h : p.OnWay) (k : Kernel) : (step (k, p)).2.OnWay := by
  cases hp : p.place with
  | locking =>
      simp only [OnWay, hp] at h
      simp only [step, hp]
      exact h
  | sizing =>
      simp only [OnWay, hp] at h
      simp only [step, hp]
      exact ⟨[], by simp [pending, frame, h], by simp [missing]⟩
  | header buf =>
      simp only [OnWay, pending, missing, hp] at h
      obtain ⟨body, hout, hlen⟩ := h
      by_cases hbuf : buf = []
      · subst hbuf
        simp only [step, hp, if_true]
        exact ⟨body, hout, hlen⟩
      · rw [writes_header.step k p buf hp hbuf]
        refine write_onWay _ (fun q buf hq hqp => ?_) (fun q buf hqp => ?_) hbuf hout hlen hp
        · simp only [pending, missing, hqp, hq, and_self]
        · simp only [OnWay, hqp]
  | size buf =>
      simp only [OnWay, pending, missing, hp] at h
      obtain ⟨body, hout, hlen⟩ := h
      by_cases hbuf : buf = []
      · subst hbuf
        simp only [step, hp, if_true]
        exact ⟨body, hout, hlen⟩
      · rw [writes_size.step k p buf hp hbuf]
        refine write_onWay [] (fun q buf hq hqp => ?_) (fun q buf hqp => ?_) hbuf
          (by rwa [List.append_nil]) hlen hp
        · simp only [pending, missing, hqp, hq, List.append_nil, and_self]
        · simp only [OnWay, hqp]
  | rewinding =>
      simp only [OnWay, pending, missing, hp] at h
      simp only [step, hp]
      exact h
  | reading left =>
      simp only [OnWay, pending, missing, hp, List.append_nil] at h
      obtain ⟨body, hout, hlen⟩ := h
      by_cases hleft : left = 0
      · subst hleft
        simp only [step, hp, if_true]
        exact ⟨body, hlen, ⟨[], (List.append_nil p.out).trans hout⟩, Or.inl ⟨rfl, hout⟩⟩
      · rw [step_reading hp hleft]
        exact read_onWay hleft hp hout hlen
  | block left buf =>
      simp only [OnWay, pending, missing, hp] at h
      obtain ⟨body, hout, hlen⟩ := h
      by_cases hbuf : buf = []
      · subst hbuf
        simp only [step, hp, if_true]
        exact ⟨body, hout, hlen⟩
      · rw [(writes_block left).step k p buf hp hbuf]
        refine write_onWay [] (fun q buf hq hqp => ?_) (fun q buf hqp => ?_) hbuf
          (by rwa [List.append_nil]) hlen hp
        · simp only [pending, missing, hqp, List.append_nil, and_self]
        · simp only [OnWay, hqp]
  | leaving ret =>
      simp only [OnWay, hp] at h
      simp only [step, hp]
      exact h
  | back ret =>
      rw [step_back hp]
      exact h

/-! ## What a step does to the kernel -/

/-- The system calls of a thread inside; `bs` is what a `write` has accepted. -/
inductive Calls (c : PutCall) (k : Kernel) : Bytes → Kernel → Prop
  | nothing : Calls c k [] k
  | rewind : Calls c k [] (k.rewind c.tempFd)
  | read (n : Nat) : Calls c k [] (k.readFile c.tempFd n).2
  | write (bs : Bytes) (h : k.desc c.fdToSendTo ≠ none) : Calls c k bs (k.put c.fdToSendTo bs)

/-- Every step a call can take. All but the lock, the unlock and the return are inner
steps, of which only the system call matters, and what it has written. -/
inductive StepCase (k : Kernel) (p : Putting) : Kernel × Putting → Prop
  | lock (hp : p.place = .locking) : StepCase k p (k.lock, p.goTo .sizing)
  | inner {k' : Kernel} {q : Putting} {bs : Bytes} (hp : p.inside) (hq : q.inside)
      (hret : ∀ ret, p.place ≠ .leaving ret) (hcall : q.call = p.call) (hout : q.out = p.out ++ bs)
      (hk : Calls p.call k bs k') : StepCase k p (k', q)
  | unlock {ret : Ret} (hp : p.place = .leaving ret) : StepCase k p (k.unlock, p.goTo (.back ret))
  | back {ret : Ret} (hp : p.place = .back ret) : StepCase k p (k, p)

theorem write_case {place : Bytes → PutPlace} {buf : Bytes} (hp : p.place = place buf)
    (hin : ∀ (q : Putting) buf, q.place = place buf → q.inside)
    (hret : ∀ ret, p.place ≠ .leaving ret) : StepCase k p (p.write k place buf) := by
  have hpin : p.inside := hin p buf hp
  have hnothing : ∀ {pl : PutPlace} {os : List Outcome}, (p.wrote [] pl os).inside →
      StepCase k p (k, p.wrote [] pl os) := fun hq =>
    .inner hpin hq hret rfl rfl .nothing
  unfold Putting.write
  split
  · exact .inner hpin rfl hret rfl (List.append_nil _).symm .nothing
  · rename_i hd
    split
    · exact .inner hpin (hin _ _ rfl) hret rfl rfl (.write _ hd)
    · exact hnothing (hin _ _ rfl)
    · exact hnothing (hin _ _ rfl)
    · exact hnothing rfl
    · exact hnothing rfl
    · exact .inner hpin (hin _ _ rfl) hret rfl rfl (.write _ hd)

theorem read_case {left : Nat} (hp : p.place = .reading left) : StepCase k p (p.read k left) := by
  have hpin : p.inside := by simp only [inside, hp]
  have hret : ∀ ret, p.place ≠ .leaving ret := by
    intro ret h
    rw [hp] at h
    cases h
  have hout : p.out = p.out ++ [] := (List.append_nil _).symm
  unfold Putting.read
  split
  · exact .inner hpin (by simp only [inside, hp]) hret rfl hout .nothing
  · exact .inner hpin rfl hret rfl hout .nothing
  · exact .inner hpin rfl hret rfl hout .nothing
  · exact .inner hpin rfl hret rfl hout .nothing
  · obtain ⟨n, -, hblock⟩ := readBlock_eq (k := k) p.call.tempFd left p.reads
    rw [hblock]
    dsimp only
    split
    · exact .inner hpin rfl hret rfl hout (.read n)
    · exact .inner hpin rfl hret rfl hout (.read n)

theorem step_case (k : Kernel) (p : Putting) : StepCase k p (step (k, p)) := by
  have hout : p.out = p.out ++ [] := (List.append_nil _).symm
  have hret : ∀ {place : PutPlace}, p.place = place → (∀ ret, place ≠ .leaving ret) →
      ∀ ret, p.place ≠ .leaving ret := fun hp h ret => hp ▸ h ret
  cases hp : p.place with
  | locking => simpa only [step, hp] using .lock hp
  | sizing =>
      simp only [step, hp]
      exact .inner (by simp only [inside, hp]) rfl (hret hp (by simp)) rfl hout .nothing
  | header buf =>
      by_cases hbuf : buf = []
      · subst hbuf
        simp only [step, hp, if_true]
        exact .inner (by simp only [inside, hp]) rfl (hret hp (by simp)) rfl hout .nothing
      · rw [writes_header.step k p buf hp hbuf]
        exact write_case hp (fun q buf hq => by simp only [inside, hq]) (hret hp (by simp))
  | size buf =>
      by_cases hbuf : buf = []
      · subst hbuf
        simp only [step, hp, if_true]
        exact .inner (by simp only [inside, hp]) rfl (hret hp (by simp)) rfl hout .nothing
      · rw [writes_size.step k p buf hp hbuf]
        exact write_case hp (fun q buf hq => by simp only [inside, hq]) (hret hp (by simp))
  | rewinding =>
      simp only [step, hp]
      exact .inner (by simp only [inside, hp]) rfl (hret hp (by simp)) rfl hout .rewind
  | reading left =>
      by_cases hleft : left = 0
      · subst hleft
        simp only [step, hp, if_true]
        exact .inner (by simp only [inside, hp]) rfl (hret hp (by simp)) rfl hout .nothing
      · rw [step_reading hp hleft]
        exact read_case hp
  | block left buf =>
      by_cases hbuf : buf = []
      · subst hbuf
        simp only [step, hp, if_true]
        exact .inner (by simp only [inside, hp]) rfl (hret hp (by simp)) rfl hout .nothing
      · rw [(writes_block left).step k p buf hp hbuf]
        exact write_case hp (fun q buf hq => by simp only [inside, hq]) (hret hp (by simp))
  | leaving ret => simpa only [step, hp] using .unlock hp
  | back ret =>
      rw [step_back hp]
      exact .back hp

end Putting

end KeyLime
