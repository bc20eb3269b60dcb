import KeyLime.Roundtrip
import KeyLime.Stages

/-!
# The grammar of header lines

A header line is a verb, one space and a file name. `get_command` finds the
verb by its prefix and the name behind the first space, so that it takes these
lines apart and some others as well: those in which a verb is followed by
another byte than the space, and a space comes later (`recognises_iff`).

`HeaderForm` is the grammar, and `headerOf_iff` what the code has instead: the
line begins with the verb and has a space with something behind it. The verbs are
no prefixes of each other, so the order in which they are tried does not matter
(`verb_prefix_unique`).

A line comes in chunks, and each call of `get_command` reads one of them up to
its end or to the newline. `getCommands_line` puts the calls together: in any
chunks the line comes to what it comes to in one, as the buffer holds what has
been read so far.
-/

namespace KeyLime

open Resume

variable {w : Worker} {s : List Item} {cs : List (List Item)} {line bs more name : Bytes}
  {v : Command} {r : Parsed}

/-! ## The grammar -/

/-- The line is the verb, one space and the name, which is not empty. -/
structure HeaderForm (line : Bytes) (v : Command) (name : Bytes) : Prop where
  line : line = headerLine v name
  name : name ≠ []

/-- Another byte than the space follows a verb. -/
def RunsOn (line : Bytes) : Prop :=
  ∃ (v : Command) (b : UInt8) (rest : Bytes), b ≠ space ∧ line = v.verb ++ b :: rest

/-- What `get_command` makes of the line is what the grammar says of it. -/
structure Recognises (line : Bytes) (r : Parsed) : Prop where
  accepts : r.ret = .doneSending ↔ ∃ v name, HeaderForm line v name
  fields : ∀ v name, HeaderForm line v name → r.w.toDo = v ∧ r.w.tempFileName = some name
  rejects : (¬ ∃ v name, HeaderForm line v name) → r.ret = .bigFailure

theorem verb_prefix_unique {v' : Command} (h : v.verb <+: line) (h' : v'.verb <+: line) :
    v = v' := by
  obtain ⟨t, rfl⟩ := h
  obtain ⟨t', ht'⟩ := h'
  have hhead := congrArg List.head? ht'
  cases v <;> cases v' <;> first | rfl | cases hhead

theorem headerOf_iff (h : 0 ∉ line) :
    headerOf line = some (v, name) ↔ v.verb <+: line ∧ afterSpace line = name ∧ name ≠ [] := by
  rw [headerOf, cstr_of_not_mem h]
  by_cases hname : afterSpace line = []
  · rw [if_pos hname]
    constructor
    · intro hno
      cases hno
    · rintro ⟨-, rfl, hne⟩
      exact (hne hname).elim
  · rw [if_neg hname]
    have hother : ∀ {v' : Command}, v'.verb <+: line →
        (some (v', afterSpace line) = some (v, name) ↔
          v.verb <+: line ∧ afterSpace line = name ∧ name ≠ []) := by
      intro v' hpre
      constructor
      · intro heq
        obtain ⟨rfl, rfl⟩ := Prod.mk.inj (Option.some.inj heq)
        exact ⟨hpre, rfl, hname⟩
      · rintro ⟨hv, rfl, -⟩
        rw [verb_prefix_unique hv hpre]
    by_cases hi : interfacePutVerb <+: line
    · rw [if_pos hi]
      have hpre : Command.interfacePut.verb <+: line := hi
      exact hother hpre
    · rw [if_neg hi]
      by_cases hp : putVerb <+: line
      · rw [if_pos hp]
        have hpre : Command.put.verb <+: line := hp
        exact hother hpre
      · rw [if_neg hp]
        constructor
        · intro hno
          cases hno
        · rintro ⟨hv, -, -⟩
          cases v with
          | interfacePut => exact (hi hv).elim
          | put => exact (hp hv).elim

theorem HeaderForm.headerOf (h : HeaderForm line v name) (hnul : 0 ∉ line) :
    headerOf line = some (v, name) := by
  refine (headerOf_iff hnul).mpr ⟨⟨[space] ++ name, ?_⟩, ?_, h.name⟩
  · rw [h.line, headerLine, List.append_assoc]
  · rw [h.line, afterSpace_headerLine]

/-- An accepted line is of the grammar, unless its verb runs on. -/
theorem headerForm_of_headerOf (hnul : 0 ∉ line) (hrun : ¬ RunsOn line)
    (h : headerOf line = some (v, name)) : HeaderForm line v name := by
  obtain ⟨⟨t, rfl⟩, hname, hne⟩ := (headerOf_iff hnul).mp h
  cases t with
  | nil =>
      have hnone : afterSpace (v.verb ++ []) = [] := by
        cases v <;> rfl
      exact (hne (hname.symm.trans hnone)).elim
  | cons b t =>
      by_cases hb : b = space
      · subst hb
        have hline : v.verb ++ space :: t = headerLine v t := by
          simp [headerLine]
        rw [hline, afterSpace_headerLine] at hname
        exact ⟨hname ▸ hline, hne⟩
      · exact (hrun ⟨v, b, t, hb, rfl⟩).elim

theorem HeaderForm.not_runsOn (h : HeaderForm line v name) : ¬ RunsOn line := by
  rintro ⟨v', b, rest, hb, hline⟩
  have hform : line = v.verb ++ space :: name := by
    rw [h.line]
    simp [headerLine]
  have hpre : v.verb <+: line := ⟨_, hform.symm⟩
  have hpre' : v'.verb <+: line := ⟨_, hline.symm⟩
  obtain rfl := verb_prefix_unique hpre hpre'
  rw [hform] at hline
  exact hb (List.cons.inj (List.append_cancel_left hline)).1.symm

/-! ## A line in chunks -/

/-- The calls of `get_command` for a line that comes in chunks: one for each
chunk, as long as `NOT_DONE_SENDING` is returned. -/
def getCommands (w : Worker) : List (List Item) → Option Parsed
  | [] => some ⟨.notDoneSending, none, [], w⟩
  | s :: cs => (getCommand s w).bind fun r =>
      if r.ret = .notDoneSending then getCommands r.w cs else some r

theorem getCommand_inside (hno : newline ∉ readable s) (hend : ending s = .again)
    (hroom : w.command.length + (readable s).length ≤ commandBufSize) :
    getCommand s w = some ⟨.notDoneSending, some .again, [],
      { w with command := w.command ++ readable s }⟩ := by
  induction s generalizing w with
  | nil => simp [getCommand, readable]
  | cons i s ih =>
      cases i with
      | intr => exact ih hno hend hroom
      | err => cases hend
      | eof => cases hend
      | byte b =>
          rw [readable, List.mem_cons, not_or] at hno
          rw [readable, List.length_cons] at hroom
          have hlen : (w.command ++ [b]).length = w.command.length + 1 := by simp
          rw [getCommand_store (Ne.symm hno.1) (by omega), ih hno.2 hend (by rw [hlen]; omega)]
          simp [readable]

theorem getCommand_line (hread : readable s = bs ++ newline :: more) (hno : newline ∉ bs)
    (hroom : w.command.length + bs.length ≤ commandBufSize) :
    ∃ rest, readable rest = more ∧ getCommand s w =
      (parseHeader { w with command := w.command ++ bs }).map fun (ret, w) =>
        ⟨ret, some .data, rest, w⟩ := by
  induction s generalizing w bs with
  | nil => simp [readable] at hread
  | cons i s ih =>
      cases i with
      | intr => exact ih hread hno hroom
      | err => simp [readable] at hread
      | eof => simp [readable] at hread
      | byte b =>
          cases bs with
          | nil =>
              obtain ⟨rfl, hmore⟩ := List.cons.inj hread
              exact ⟨s, hmore, by rw [getCommand, if_pos rfl, List.append_nil]⟩
          | cons c bs =>
              obtain ⟨rfl, hrest⟩ := List.cons.inj hread
              rw [List.mem_cons, not_or] at hno
              rw [List.length_cons] at hroom
              have hlen : (w.command ++ [b]).length = w.command.length + 1 := by simp
              rw [getCommand_store (Ne.symm hno.1) (by omega)]
              obtain ⟨rest, hmore, heq⟩ := ih (w := { w with command := w.command ++ [b] })
                hrest hno.2 (by rw [hlen]; omega)
              exact ⟨rest, hmore, by rw [heq]; simp⟩

/-- However the line is cut, it is parsed when its newline comes. -/
theorem getCommands_line {ret : Ret} {w' : Worker} (hcs : ∀ s ∈ cs, ending s = .again)
    (hread : (cs.map readable).flatten = bs ++ newline :: more) (hno : newline ∉ bs)
    (hroom : w.command.length + bs.length ≤ commandBufSize)
    (h : parseHeader { w with command := w.command ++ bs } = some (ret, w')) :
    ∃ rest, getCommands w cs = some ⟨ret, some .data, rest, w'⟩ := by
  induction cs generalizing w bs with
  | nil => simp at hread
  | cons s cs ih =>
      rw [List.map_cons, List.flatten_cons] at hread
      have hend : ending s = .again := hcs s (List.mem_cons_self ..)
      -- the newline is in a later chunk
      have hlater : ∀ bs', bs = readable s ++ bs' →
          (cs.map readable).flatten = bs' ++ newline :: more →
          ∃ rest, getCommands w (s :: cs) = some ⟨ret, some .data, rest, w'⟩ := by
        rintro bs' rfl hread'
        rw [List.mem_append, not_or] at hno
        rw [List.length_append] at hroom
        have hinside := getCommand_inside (w := w) hno.1 hend (by omega)
        obtain ⟨rest, hrest⟩ := ih (w := { w with command := w.command ++ readable s })
          (fun s hs => hcs s (List.mem_cons_of_mem _ hs)) hread' hno.2
          (by rw [List.length_append]; omega) (by rw [List.append_assoc]; exact h)
        exact ⟨rest, by rw [getCommands, hinside, Option.bind_some, if_pos rfl, hrest]⟩
      rcases List.append_eq_append_iff.mp hread with ⟨bs', hbs, hrest⟩ | ⟨c, hs, hrest⟩
      · exact hlater bs' hbs hrest
      · cases c with
        | nil =>
            rw [List.append_nil] at hs
            exact hlater [] (by rw [hs, List.append_nil]) hrest.symm
        | cons b c =>
            obtain ⟨rfl, -⟩ := List.cons.inj hrest
            obtain ⟨rest, -, hline⟩ := getCommand_line hs hno hroom
            rw [h, Option.map_some] at hline
            have hret : ret ≠ .notDoneSending := by
              rcases parseHeader_spec h with ⟨_, _, _, rfl, _⟩ | ⟨_, rfl, _⟩ <;> simp
            exact ⟨rest, by rw [getCommands, hline, Option.bind_some, if_neg hret]⟩

/-- **The header grammar.** In whatever chunks a line comes, `get_command`
makes of it what the grammar says, if and only if no verb in it runs on to a
later space with something behind it. The grammar asks for one space behind the
verb; the code looks for the first space wherever it is. -/
theorem recognises_iff (hcs : ∀ s ∈ cs, ending s = .again)
    (hread : (cs.map readable).flatten = line ++ newline :: more) (hno : newline ∉ line)
    (hnul : 0 ∉ line) (hlen : line.length ≤ 1023) (hcmd : w.command = []) :
    (∃ r, getCommands w cs = some r ∧ Recognises line r)
      ↔ ¬ (RunsOn line ∧ afterSpace line ≠ []) := by
  have hsize : line.length < commandBufSize := by
    unfold commandBufSize
    omega
  have hcommand : w.command ++ line = line := by rw [hcmd, List.nil_append]
  obtain ⟨⟨ret, w'⟩, hparse⟩ : ∃ r, parseHeader { w with command := w.command ++ line } = some r := by
    rw [hcommand]
    have hroom : ¬ (commandBufSize ≤ line.length ∧ 0 ∉ line) := by omega
    simp only [parseHeader, if_neg hroom]
    split_ifs <;> exact ⟨_, rfl⟩
  obtain ⟨rest, hget⟩ := getCommands_line hcs hread hno (by rw [hcmd, List.length_nil]; omega) hparse
  have hspec := parseHeader_spec hparse
  rw [hcommand] at hspec
  constructor
  · rintro ⟨r, hr, hrec⟩ ⟨⟨v, b, t, hb, hline⟩, hname⟩
    obtain rfl := Option.some.inj (hget.symm.trans hr)
    have hof : headerOf line = some (v, afterSpace line) :=
      (headerOf_iff hnul).mpr ⟨⟨b :: t, hline.symm⟩, rfl, hname⟩
    rcases hspec with ⟨v', name, -, hret, -⟩ | ⟨hnone, -⟩
    · obtain ⟨v'', name'', hform⟩ := hrec.accepts.mp hret
      exact hform.not_runsOn ⟨v, b, t, hb, hline⟩
    · rw [hof] at hnone
      cases hnone
  · intro hcond
    refine ⟨_, hget, ?_⟩
    rcases hspec with ⟨v, name, hof, hret, hw⟩ | ⟨hnone, hret, -⟩
    · have hform : HeaderForm line v name := by
        refine headerForm_of_headerOf hnul (fun hrun => hcond ⟨hrun, ?_⟩) hof
        obtain ⟨-, hname, hne⟩ := (headerOf_iff hnul).mp hof
        rwa [hname]
      refine ⟨⟨fun _ => ⟨v, name, hform⟩, fun _ => hret⟩, fun v' name' hform' => ?_,
        fun hno => (hno ⟨v, name, hform⟩).elim⟩
      have heq := hof.symm.trans (hform'.headerOf hnul)
      obtain ⟨rfl, rfl⟩ := Prod.mk.inj (Option.some.inj heq)
      subst hw
      exact ⟨rfl, rfl⟩
    · have hno : ∀ v name, ¬ HeaderForm line v name := by
        intro v name hform
        rw [hform.headerOf hnul] at hnone
        cases hnone
      refine ⟨⟨?_, ?_⟩, fun v name hform => (hno v name hform).elim, fun _ => hret⟩
      · intro hdone
        rw [show ret = .doneSending from hdone] at hret
        cases hret
      · rintro ⟨v, name, hform⟩
        exact (hno v name hform).elim

/-- `PUT a`, cut behind its first byte. -/
theorem recognises_iff_two :
    ∃ r, getCommands (default : Worker).fresh [[.byte 80, .intr],
        [.byte 85, .byte 84, .byte 32, .byte 97, .byte 10, .byte 1]] = some r
      ∧ Recognises [80, 85, 84, 32, 97] r := by
  have hread : (([[.byte 80, .intr],
      [.byte 85, .byte 84, .byte 32, .byte 97, .byte 10, .byte 1]] : List (List Item)).map
        readable).flatten = [80, 85, 84, 32, 97] ++ newline :: [1] := rfl
  refine (recognises_iff (fun s hs => ?_) hread (by decide) (by decide) (by decide) rfl).mpr ?_
  · rw [List.mem_cons, List.mem_singleton] at hs
    rcases hs with rfl | rfl <;> rfl
  · rintro ⟨⟨v, b, rest, hb, hline⟩, -⟩
    cases v with
    | interfacePut => cases hline
    | put =>
        have htail : [32, 97] = b :: rest := @List.append_cancel_left _ putVerb _ _ hline
        exact hb (List.cons.inj htail).1.symm

/-- `PUTX a` is taken for `PUT a`. -/
theorem runs_on_accepted :
    ∃ r, getCommands (default : Worker).fresh [[.byte 80, .byte 85, .byte 84, .byte 88, .byte 32,
        .byte 97, .byte 10]] = some r
      ∧ r.ret = .doneSending ∧ r.w.toDo = .put ∧ r.w.tempFileName = some [97]
      ∧ ¬ Recognises [80, 85, 84, 88, 32, 97] r := by
  refine ⟨_, rfl, rfl, rfl, rfl, ?_⟩
  intro hrec
  obtain ⟨v, name, hform⟩ := hrec.accepts.mp rfl
  have hline := hform.line
  cases v <;> cases hline

end KeyLime
