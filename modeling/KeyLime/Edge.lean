import KeyLime.Retiring

/-!
# Edge-triggered events

A connection gets a new event only with new data, so a call of
`handle_data` has to read until it meets `EAGAIN`. It does so unless a
frame with a payload ends in the readable bytes: then it forwards that
frame and returns, and what was behind it stays unread until something else
arrives.

A frame without a payload is no exception to the exception: its size has cleared
`alive`, and what the call leaves is a dead record, of which nobody expects that
it drains its socket. That is why the condition is about frames with a payload
(`Finishes`), and why only records that are live behind the call have to drain.

The last read of a call is in the history. `drained_spec` collects what the four
ends of a call say about it, and the equivalence is read off that.
-/

namespace KeyLime

open Resume

namespace Master

variable {m m' m₁ : Master} {fd : Int} {p : Nat} {io : DataIo} {arrived : List Item}

def lastRead (l : List Obs) : Option ReadResult :=
  l.reverse.findSome? fun
    | .parsed _ _ _ last => last
    | _ => none

theorem lastRead_concat (l : List Obs) (st : Stage) (ret : Ret) (r : ReadResult) :
    lastRead (l ++ [.parsed st p ret (some r)]) = some r := by
  simp [lastRead]

theorem lastRead_mem {l : List Obs} {r : ReadResult} (h : lastRead l = some r) :
    ∃ st q ret, .parsed st q ret (some r) ∈ l := by
  obtain ⟨o, ho, hr⟩ := List.exists_of_findSome?_eq_some h
  cases o with
  | parsed st q ret last =>
      subst hr
      exact ⟨st, q, ret, List.mem_reverse.mp ho⟩
  | _ => cases hr

/-- The socket has been read until nothing was readable. -/
structure Drained (m : Master) (fd : Int) (m' : Master) : Prop where
  again : lastRead (newLog m m') = some .again
  empty : readable (m'.kernel.inbox fd) = []

/-- The call finds the end of a frame with a payload, or starts on a record
that has one to forward. -/
def Finishes (m : Master) (p : Nat) (s : List Item) : Prop :=
  ∃ v name got, (m.reading p s).1 = .done v name got
    ∧ (got ≠ [] ∨ (m.heap p).status = .forwardData)

theorem Complete.not_again {v : Command} {name got : Bytes}
    (hc : Complete fd p m m₁ v name got) (he : Ended p m₁ m') :
    lastRead (newLog m m') ≠ some .again := by
  intro h
  obtain ⟨st, q, ret, hmem⟩ := lastRead_mem h
  rcases hc.entries he hmem with (⟨st', -, h1⟩ | ⟨name', h1⟩) | ⟨last, hlast, h1⟩ | h1
  · cases h1
  · cases h1
  · rcases hlast with rfl | rfl <;> cases h1
  · exact h1 _ _ _ _ rfl

theorem Complete.finishes_iff {v : Command} {name got : Bytes}
    (hc : Complete fd p (m.arriving fd arrived) m₁ v name got)
    (hal : (m.heap p).alive = true) :
    m.Finishes p (m.stream fd arrived) ↔ (m₁.heap p).alive = true := by
  have hread := congrArg Prod.fst hc.reading_eq
  rcases hc.now with ⟨hst, rfl⟩ | ⟨hst, hal₁, -⟩
  · exact iff_of_true ⟨v, name, got, hread, Or.inr hst⟩ hal
  · rw [hal₁, decide_eq_true_eq]
    constructor
    · rintro ⟨v', name', got', hread', hgot | hst'⟩
      · obtain ⟨-, -, rfl⟩ := Dec.done.inj (hread'.symm.trans hread)
        exact hgot
      · exact (hst hst').elim
    · exact fun hgot => ⟨v, name, got, hread, Or.inl hgot⟩

theorem not_finishes_of_running {s : List Item}
    (h : frameReader.final (m.reading p s).1 = false) : ¬ m.Finishes p s := by
  rintro ⟨v, name, got, hread, -⟩
  rw [hread] at h
  cases h

/-- A call on a live connection with nothing but bytes to read, in terms of
whether a frame with a payload ends in these bytes. -/
theorem drained_spec (hr : Reachable m) (hs : Step m (.data fd arrived io) m')
    (hcur : m.current fd = some p) (hal : (m.heap p).alive = true)
    (hend : ending (m.stream fd arrived) = .again) :
    (((m'.heap p).alive = true → Drained m fd m') → ¬ m.Finishes p (m.stream fd arrived))
      ∧ (io.recv.Benign → ¬ m.Finishes p (m.stream fd arrived) →
        (m'.heap p).alive = true → Drained m fd m')
      ∧ (io.recv.Benign → (m'.heap p).alive = true →
        readable (m'.kernel.inbox fd) = (m.reading p (m.stream fd arrived)).2) := by
  obtain ⟨p', hat, hready0, -, hat0, -, hcase⟩ := hs.call hr
  obtain rfl := hat.unique hcur
  rcases hcase with ⟨hdead, -⟩ | ⟨-, hcase⟩
  · rw [hal] at hdead
    cases hdead
  · rcases hcase.ended hready0 hat0 hal with ⟨f, hpar, hst, rfl⟩ | ⟨m₁, v, name, got, hcomp, he⟩
    · have hframe := parsePhase_reading hready0 hat0 hal hpar hst
      rw [hend] at hframe
      cases hframe with
      | starved m₁ st got hres hrun _ hinbox hlog =>
          obtain ⟨l, hl, -⟩ := hlog
          have hdrained : Drained m fd m₁ := by
            refine ⟨?_, by rw [hinbox]; rfl⟩
            have hl' : m₁.log = m.log ++ (l ++ [_]) := hl.trans (List.append_assoc ..)
            rw [newLog_of_append hl']
            exact lastRead_concat _ _ _ _
          refine ⟨fun _ => not_finishes_of_running hrun, fun _ _ _ => hdrained, ?_⟩
          intro _ _
          exact hdrained.empty.trans (congrArg Prod.snd hres).symm
      | complete _ _ _ _ _ _ _ _ hst' => exact (hst hst').elim
      | rejected _ _ hres _ _ _ hdead =>
          rcases hres with ⟨-, hagain, -⟩ | ⟨hbad, -⟩
          · exact (hagain rfl).elim
          · refine ⟨?_, ?_, ?_⟩
            · intro _
              rintro ⟨v, name, got, hread, -⟩
              rw [hbad] at hread
              cases hread
            · intro _ _ hlive
              rw [hdead] at hlive
              cases hlive
            · intro _ hlive
              rw [hdead] at hlive
              cases hlive
      | failed m₁ st last hres hlog hstage hst' hlast hbenign _ hlive =>
          refine ⟨?_, ?_, ?_⟩
          · intro hdrain
            obtain ⟨l, hl, -⟩ := hlog
            have hagain := (hdrain hlive).again
            rcases hlast with rfl | ⟨-, hne, -⟩
            · have hl' : m₁.log = m.log ++ (l ++ [_]) := hl.trans (List.append_assoc ..)
              change lastRead (newLog m m₁) = _ at hagain
              rw [newLog_of_append hl', lastRead_concat] at hagain
              cases hagain
            · exact (hne rfl).elim
          · intro hio
            exact ((hbenign hio).2 rfl).elim
          · intro hio
            exact ((hbenign hio).2 rfl).elim
    · have hfin := hcomp.finishes_iff hal
      rw [← he.alive] at hfin
      refine ⟨fun hdrain => fun h => ?_, fun _ hno hlive => (hno (hfin.mpr hlive)).elim,
        fun _ _ => ?_⟩
      · exact hcomp.not_again he (hdrain (hfin.mp h)).again
      · rw [he.inbox, hcomp.reading_eq]

theorem benign_default : RecvIo.Benign {} := ⟨rfl, nofun⟩

end Master

end KeyLime
