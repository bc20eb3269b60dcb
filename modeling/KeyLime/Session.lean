import KeyLime.Prompt
import KeyLime.Codec

/-!
# A session of the interface

`interface_main` as a whole: whatever is typed, the names in it are those a
lexer finds (`words`), and the files of the names go out one after the other,
each as one frame, up to the first name there is no file for. So the stream
is a stream of frames (`session_sends`). Nothing clears `running`: at its end
the input is taken for an empty name, which has no file.

Two things are between the user and this. The arrays of the program are not
checked in time, so the names must have room in them, and also the one that has
not ended yet (`Roomy`). And `access` and `fopen` are content with a directory:
the program announces the size `stat` reports, `fread` fails, no payload
follows, and the next requests are taken for one (`submitDirectory`). A session
in which a directory is entered is no stream of frames.
-/

namespace KeyLime

open Resume

/-! ## The program -/

/-- The program waits for the next character, has said `INVALID FILE`, or has
written behind one of its arrays. -/
inductive SessionEnd where
  | waits
  | invalidFile
  | overruns
deriving DecidableEq

/-- What `interface_main` does with the name of a directory, of which `stat`
reports this size: the request and the size go out, and nothing behind them,
since `fread` fails on it. -/
def submitDirectory (k : Kernel) (sockFd : Int) (name : Bytes) (size : Nat) (os : List Outcome) :
    Option (List Outcome × Kernel) :=
  (sendRequest k sockFd interfacePutVerb name os).map fun (os, k) =>
    (myWrite k sockFd (sizeBytes size) os).2

/-- The loop of `interface_main`, for at most this many names. `access` finds
the files there are, and the directories `dirs`, with what `stat` says of them. -/
def session (dirs : Bytes → Option Nat) (sockFd : Int) :
    Nat → Input → List Outcome → Kernel → Option (SessionEnd × Kernel)
  | 0, _, _, _ => none
  | rounds + 1, input, os, k =>
      match (readName (skipSpaces input) []).2 with
      | none =>
          some (if (readName (skipSpaces input) []).1.all fun u => decide u.InBounds then .waits
            else .overruns, k)
      | some (name, rest) =>
          match dirs (k.resolve (cstr name)) with
          | some size =>
              match submitDirectory k sockFd (cstr name) size os with
              | none => some (.overruns, k)
              | some (os, k) => session dirs sockFd rounds rest os k
          | none =>
              if k.store (k.resolve (cstr name)) = none then some (.invalidFile, k)
              else
                match submit k sockFd (cstr name) os with
                | none => some (.overruns, k)
                | some (os, k) => session dirs sockFd rounds rest os k

/-! ## The names -/

/-- Between two names, or behind the first characters of one. -/
inductive Scan where
  | blank
  | word (w : Bytes)

/-- The names that have been entered, as a lexer finds them. Between names
`EOF` begins an empty one. -/
def words : Scan → Input → List Bytes
  | _, [] => []
  | .blank, none :: s => words (.word []) s
  | .blank, some c :: s => if isspace c then words .blank s else words (.word [c]) s
  | .word w, none :: s => w :: words .blank s
  | .word w, some c :: s => if isspace c then w :: words .blank s else words (.word (w ++ [c])) s

/-- The characters of the name that has not ended yet. -/
def unfinished : Scan → Input → Bytes
  | .blank, [] => []
  | .word w, [] => w
  | .blank, none :: s => unfinished (.word []) s
  | .blank, some c :: s =>
      if isspace c then unfinished .blank s else unfinished (.word [c]) s
  | .word _, none :: s => unfinished .blank s
  | .word w, some c :: s =>
      if isspace c then unfinished .blank s else unfinished (.word (w ++ [c])) s

variable {s input rest : Input} {w name : Bytes} {k k' : Kernel} {sockFd : Int}
  {os : List Outcome} {dirs : Bytes → Option Nat}

theorem words_word (w : Bytes) (s : Input) : words (.word w) s =
    match (nextName s).2 with
    | none => []
    | some rest => (w ++ (nextName s).1) :: words .blank rest := by
  induction s generalizing w with
  | nil => rfl
  | cons i s ih =>
      cases i with
      | none => simp [words, nextName]
      | some c =>
          rw [words, nextName]
          by_cases hc : isspace c = true
          · simp [hc]
          · rw [if_neg hc, if_neg hc, ih]
            cases (nextName s).2 <;> simp

theorem words_blank (s : Input) : words .blank s = words (.word []) (skipSpaces s) := by
  induction s with
  | nil => rfl
  | cons i s ih =>
      cases i with
      | none => rfl
      | some c =>
          rw [words, skipSpaces]
          by_cases hc : isspace c = true
          · rw [if_pos hc, if_pos hc, ih]
          · rw [if_neg hc, if_neg hc, words, if_neg hc, List.nil_append]

/-- The lexer and the loops of `interface_main` find the same names. -/
theorem words_next (s : Input) : words .blank s =
    match (nextName (skipSpaces s)).2 with
    | none => []
    | some rest => (nextName (skipSpaces s)).1 :: words .blank rest := by
  rw [words_blank, words_word]
  cases (nextName (skipSpaces s)).2 <;> simp

theorem unfinished_word (w : Bytes) (s : Input) : unfinished (.word w) s =
    match (nextName s).2 with
    | none => w ++ (nextName s).1
    | some rest => unfinished .blank rest := by
  induction s generalizing w with
  | nil => simp [unfinished, nextName]
  | cons i s ih =>
      cases i with
      | none => simp [unfinished, nextName]
      | some c =>
          rw [unfinished, nextName]
          by_cases hc : isspace c = true
          · simp [hc]
          · rw [if_neg hc, if_neg hc, ih]
            cases (nextName s).2 <;> simp

theorem unfinished_blank (s : Input) :
    unfinished .blank s = unfinished (.word []) (skipSpaces s) := by
  induction s with
  | nil => rfl
  | cons i s ih =>
      cases i with
      | none => rfl
      | some c =>
          rw [unfinished, skipSpaces]
          by_cases hc : isspace c = true
          · rw [if_pos hc, if_pos hc, ih]
          · rw [if_neg hc, if_neg hc, unfinished, if_neg hc, List.nil_append]

theorem unfinished_next (s : Input) : unfinished .blank s =
    match (nextName (skipSpaces s)).2 with
    | none => (nextName (skipSpaces s)).1
    | some rest => unfinished .blank rest := by
  rw [unfinished_blank, unfinished_word]
  cases (nextName (skipSpaces s)).2 <;> simp

theorem nextName_noSpace (s : Input) : ∀ c ∈ (nextName s).1, isspace c = false := by
  induction s with
  | nil => simp [nextName]
  | cons i s ih =>
      cases i with
      | none => simp [nextName]
      | some c =>
          rw [nextName]
          by_cases hc : isspace c = true
          · simp [hc]
          · rw [if_neg hc]
            intro b hb
            rcases List.mem_cons.mp hb with rfl | hb
            · exact Bool.eq_false_of_not_eq_true hc
            · exact ih b hb

theorem nextName_shorter (h : (nextName s).2 = some rest) : rest.length < s.length := by
  induction s with
  | nil => cases h
  | cons i s ih =>
      cases i with
      | none =>
          obtain rfl := Option.some.inj h
          exact Nat.lt_succ_self _
      | some c =>
          rw [nextName] at h
          split at h
          · obtain rfl := Option.some.inj h
            exact Nat.lt_succ_self _
          · exact (ih h).trans (Nat.lt_succ_self _)

theorem skipSpaces_le (s : Input) : (skipSpaces s).length ≤ s.length := by
  induction s with
  | nil => exact Nat.le_refl _
  | cons i s ih =>
      cases i with
      | none => exact Nat.le_succ _
      | some c =>
          rw [skipSpaces]
          split
          · exact ih.trans (Nat.le_succ _)
          · exact Nat.le_refl _

/-! ## One file -/

theorem writeBinaryData_puts {fuel : Nat} {f : Bytes} (hd : k.desc sockFd = some .sock)
    (hos : Accepting os) (hfuel : f.length < fuel) :
    ∃ os', Accepting os' ∧ writeBinaryData sockFd fuel f os k = (os', k.put sockFd f) := by
  induction fuel generalizing f os k with
  | zero => omega
  | succ fuel ih =>
      rw [writeBinaryData]
      split
      · rename_i hnil
        obtain rfl : f = [] := by
          cases f with
          | nil => rfl
          | cons b f => cases hnil
        exact ⟨os, hos, by rw [Kernel.put_nil]⟩
      · rename_i hne
        obtain ⟨os₁, hos₁, hw⟩ := myWrite_accepting (f.take bufSize) hd hos
        have hpos : 0 < (f.take bufSize).length := List.length_pos_of_ne_nil hne
        have hlen := congrArg List.length (List.take_append_drop bufSize f)
        rw [List.length_append] at hlen
        have hd₁ := (congrFun (Kernel.put_sock_desc hd (f.take bufSize)) sockFd).trans hd
        obtain ⟨os', hos', hrest⟩ := ih hd₁ hos₁ (by omega : (f.drop bufSize).length < fuel)
        refine ⟨os', hos', ?_⟩
        simp only [hw]
        rw [hrest, Kernel.put_append, List.take_append_drop]

theorem submit_puts {payload : Bytes} (hd : k.desc sockFd = some .sock)
    (hstore : k.store (k.resolve name) = some payload) (hlen : name.length ≤ 1008)
    (hos : Accepting os) :
    ∃ os', Accepting os' ∧ submit k sockFd name os =
      some (os', k.put sockFd (Frame.encode (.interfacePut, name, payload))) := by
  have hline : (interfacePutVerb ++ [space] ++ name ++ [newline]).length < bufSize := by
    simp only [List.length_append, interfacePutVerb, List.length_cons, List.length_nil, bufSize]
    omega
  obtain ⟨os₁, hos₁, hw₁⟩ := myWrite_accepting (interfacePutVerb ++ [space] ++ name ++ [newline])
    hd hos
  have hd₁ := (congrFun (Kernel.put_sock_desc hd
    (interfacePutVerb ++ [space] ++ name ++ [newline])) sockFd).trans hd
  have hsize : getUserFileSize
      (k.put sockFd (interfacePutVerb ++ [space] ++ name ++ [newline])) name = payload.length := by
    rw [getUserFileSize, Kernel.put_sock hd]
    exact congrArg (fun f => (Option.getD f []).length) hstore
  obtain ⟨os₂, hos₂, hw₂⟩ := myWrite_accepting (sizeBytes payload.length) hd₁ hos₁
  have hd₂ := (congrFun (Kernel.put_sock_desc hd₁ (sizeBytes payload.length)) sockFd).trans hd₁
  obtain ⟨os₃, hos₃, hw₃⟩ := writeBinaryData_puts hd₂ hos₂ (Nat.lt_add_one payload.length)
  simp only [Kernel.put_append] at hw₃
  refine ⟨os₃, hos₃, ?_⟩
  simp only [submit, hstore, Option.bind_some, sendRequest, if_pos hline, hw₁, Option.map_some,
    hsize, hw₂, hw₃, Kernel.put_append, Frame.encode, Master.frame, Command.verb]

/-! ## Every session -/

/-- The names up to the first one there is no file for. -/
def found (k : Kernel) (ws : List Bytes) : List Bytes :=
  (ws.map cstr).takeWhile fun w => (k.store (k.resolve w)).isSome

def request (k : Kernel) (w : Bytes) : Frame :=
  (.interfacePut, w, (k.store (k.resolve w)).getD [])

theorem found_congr {k₁ : Kernel} (hs : k₁.store = k.store) (hr : k₁.resolve = k.resolve)
    (ws : List Bytes) : found k₁ ws = found k ws := by rw [found, found, hs, hr]

/-- The names have room in `name`, and their requests in `buffer`. The name
that has not ended yet has room too. -/
structure Roomy (input : Input) : Prop where
  names : ∀ w ∈ words .blank input, w.length < nameSize ∧ (cstr w).length ≤ 1008
  last : (unfinished .blank input).length ≤ nameSize

instance (input : Input) : Decidable (Roomy input) :=
  decidable_of_iff ((∀ w ∈ words .blank input, w.length < nameSize ∧ (cstr w).length ≤ 1008)
      ∧ (unfinished .blank input).length ≤ nameSize)
    ⟨fun ⟨h1, h2⟩ => ⟨h1, h2⟩, fun ⟨h1, h2⟩ => ⟨h1, h2⟩⟩

def NoDirectory (dirs : Bytes → Option Nat) (k : Kernel) (input : Input) : Prop :=
  ∀ w ∈ words .blank input, dirs (k.resolve (cstr w)) = none

theorem readName_next (h : ∀ w ∈ words .blank s, w.length < nameSize) (rest : Input)
    (hrest : (nextName (skipSpaces s)).2 = some rest) :
    (readName (skipSpaces s) []).2 = some ((nextName (skipSpaces s)).1, rest) := by
  have hmem : (nextName (skipSpaces s)).1 ∈ words .blank s := by
    rw [words_next, hrest]
    exact List.mem_cons_self
  have hlt := h _ hmem
  have hfits : NameFits ([] ++ (nextName (skipSpaces s)).1).length
      (nextName (skipSpaces s)).2.isSome := ⟨hlt.le, fun _ => hlt⟩
  rw [readName_name hfits, hrest, Option.map_some, List.nil_append]

theorem readName_unfinished (s : Input) (name : Bytes) (h : (nextName s).2 = none) :
    (readName s name).2 = none := by
  induction s generalizing name with
  | nil => rfl
  | cons i s ih =>
      cases i with
      | none => cases h
      | some c =>
          rw [nextName] at h
          rw [readName]
          by_cases hc : isspace c = true
          · rw [if_pos hc] at h
            cases h
          · rw [if_neg hc] at h
            rw [if_neg hc]
            split
            · rfl
            · split
              · rfl
              · exact ih (name ++ [c]) h

/-- How a session ends that overruns nothing. -/
def Ends (k : Kernel) (input : Input) (e : SessionEnd) : Prop :=
  (e = .invalidFile ∧ ∃ w ∈ words .blank input, k.store (k.resolve (cstr w)) = none)
    ∨ (e = .waits ∧ ∀ w ∈ words .blank input, k.store (k.resolve (cstr w)) ≠ none)

theorem session_rounds {rounds : Nat} (hrounds : input.length < rounds)
    (hd : k.desc sockFd = some .sock) (hos : Accepting os) (hroom : Roomy input)
    (hfiles : NoDirectory dirs k input) :
    ∃ e k', session dirs sockFd rounds input os k = some (e, k') ∧ Ends k input e
      ∧ k' = k.put sockFd
        (((found k (words .blank input)).map fun w => (request k w).encode).flatten) := by
  induction rounds generalizing input os k with
  | zero => omega
  | succ rounds ih =>
      rw [session]
      have hwords := words_next input
      have hlast := unfinished_next input
      cases hrest : (nextName (skipSpaces input)).2 with
      | none =>
          -- the input is over before the next name is
          rw [hrest] at hwords hlast
          dsimp only at hlast
          rw [readName_unfinished _ [] hrest]
          have hfits : ∀ u ∈ (readName (skipSpaces input) []).1, u.InBounds := by
            refine (readName_iff (Nat.zero_le _)).mpr ⟨?_, fun hended => ?_⟩
            · rw [List.nil_append, ← hlast]
              exact hroom.last
            · rw [hrest] at hended
              cases hended
          have hall : ((readName (skipSpaces input) []).1.all fun u => decide u.InBounds) = true :=
            List.all_eq_true.mpr fun u hu => decide_eq_true (hfits u hu)
          refine ⟨.waits, k, by rw [if_pos hall], Or.inr ⟨rfl, ?_⟩, ?_⟩
          · intro w hw
            rw [hwords] at hw
            cases hw
          · rw [hwords]
            exact (Kernel.put_nil k sockFd).symm
      | some rest =>
          rw [hrest] at hwords hlast
          dsimp only at hlast
          have hread := readName_next (fun w hw => (hroom.names w hw).1) rest hrest
          rw [hread]
          set name := (nextName (skipSpaces input)).1
          have hmem : name ∈ words .blank input := hwords ▸ List.mem_cons_self
          dsimp only
          rw [hfiles name hmem]
          cases hstore : k.store (k.resolve (cstr name)) with
          | none =>
              refine ⟨.invalidFile, k, by simp only [if_true],
                Or.inl ⟨rfl, name, hmem, hstore⟩, ?_⟩
              rw [hwords, found, List.map_cons, List.takeWhile_cons, hstore]
              exact (Kernel.put_nil k sockFd).symm
          | some payload =>
              obtain ⟨os₁, hos₁, hsubmit⟩ := submit_puts hd hstore (hroom.names name hmem).2 hos
              set k₁ := k.put sockFd (Frame.encode (.interfacePut, cstr name, payload))
              have hput : k₁ = _ := Kernel.put_sock hd
              have hsame : k₁.store = k.store ∧ k₁.resolve = k.resolve := by
                rw [hput]
                exact ⟨rfl, rfl⟩
              have hd₁ : k₁.desc sockFd = some .sock := by rw [hput]; exact hd
              have hshort := (nextName_shorter hrest).trans_le (skipSpaces_le input)
              have hmore : ∀ w ∈ words .blank rest, w ∈ words .blank input := fun w hw =>
                hwords ▸ List.mem_cons_of_mem _ hw
              obtain ⟨e, k', hsession, hend, hk'⟩ := ih (by omega : rest.length < rounds) hd₁ hos₁
                ⟨fun w hw => hroom.names w (hmore w hw), hlast ▸ hroom.last⟩ fun w hw => by
                  rw [hsame.2]
                  exact hfiles w (hmore w hw)
              refine ⟨e, k', ?_, ?_, ?_⟩
              · simp only [reduceCtorEq, if_false, hsubmit]
                exact hsession
              · rw [Ends, hsame.1, hsame.2] at hend
                refine hend.imp (fun ⟨he, w, hw, hnone⟩ => ⟨he, w, hmore w hw, hnone⟩)
                  fun ⟨he, hall⟩ => ⟨he, ?_⟩
                rw [hwords, List.forall_mem_cons]
                exact ⟨by rw [hstore]; exact Option.some_ne_none _, hall⟩
              · have hcons : found k (words .blank input) =
                    cstr name :: found k (words .blank rest) := by
                  rw [hwords, found, List.map_cons, List.takeWhile_cons, hstore]
                  rfl
                have hrequest : request k (cstr name) = (.interfacePut, cstr name, payload) := by
                  rw [request, hstore, Option.getD_some]
                rw [hk', found_congr hsame.1 hsame.2, hcons, List.map_cons, List.flatten_cons,
                  Kernel.put_append, hrequest]
                simp only [request, hsame.1, hsame.2]

theorem found_mem {ws : List Bytes} (h : w ∈ found k ws) :
    (∃ w' ∈ ws, cstr w' = w) ∧ ∃ payload, k.store (k.resolve w) = some payload := by
  have hmem : w ∈ ws.map cstr := (List.takeWhile_sublist _).subset h
  have hfile := List.mem_takeWhile_imp (p := fun w => (k.store (k.resolve w)).isSome) h
  exact ⟨List.mem_map.mp hmem, Option.isSome_iff_exists.mp hfile⟩

theorem words_noSpace (hw : w ∈ words .blank s) : ∀ c ∈ w, isspace c = false := by
  induction hlen : s.length using Nat.strong_induction_on generalizing s with
  | _ n ih =>
      have hwords := words_next s
      cases hrest : (nextName (skipSpaces s)).2 with
      | none =>
          rw [hwords, hrest] at hw
          cases hw
      | some rest =>
          rw [hwords, hrest] at hw
          rcases List.mem_cons.mp hw with rfl | hw
          · exact nextName_noSpace _
          · have hshort := (nextName_shorter hrest).trans_le (skipSpaces_le s)
            exact ih rest.length (by omega) hw rfl

/-- What is requested can be received: no file has the empty name, and none is
too long for its size. -/
theorem request_proper (hempty : k.store (k.resolve []) = none)
    (hsize : ∀ path f, k.store path = some f → f.length < 2 ^ 64)
    (hw : w ∈ found k (words .blank input)) : (request k w).Proper := by
  obtain ⟨⟨w', hw', rfl⟩, payload, hstore⟩ := found_mem hw
  refine ⟨⟨?_, ?_, cstr_noNul w'⟩, ?_⟩
  · intro hnil
    rw [show cstr w' = [] from hnil, hempty] at hstore
    cases hstore
  · intro hnl
    have hmem : newline ∈ w' := (List.takeWhile_sublist _).subset hnl
    have hspace := words_noSpace hw' newline hmem
    cases hspace
  · rw [request, hstore, Option.getD_some]
    exact hsize _ payload hstore

theorem framesOf_requests (hempty : k.store (k.resolve []) = none)
    (hsize : ∀ path f, k.store path = some f → f.length < 2 ^ 64) (input : Input) :
    framesOf (((found k (words .blank input)).map fun w => (request k w).encode).flatten) =
      (found k (words .blank input)).map (request k) := by
  have hproper : ∀ x ∈ (found k (words .blank input)).map (request k), x.Proper := by
    intro x hx
    obtain ⟨w, hw, rfl⟩ := List.mem_map.mp hx
    exact request_proper hempty hsize hw
  have hframes := (framesOf_encodes (t := []) hproper rfl).1
  rw [List.map_map, List.nil_append] at hframes
  exact hframes

theorem session_sent (hd : k.desc sockFd = some .sock) (hfresh : k.sent sockFd = [])
    (hos : Accepting os) (hroom : Roomy input) (hfiles : NoDirectory dirs k input) :
    ∃ e k', session dirs sockFd (input.length + 1) input os k = some (e, k') ∧ Ends k input e
      ∧ k'.sent sockFd =
        ((found k (words .blank input)).map fun w => (request k w).encode).flatten := by
  obtain ⟨e, k', hsession, hend, rfl⟩ :=
    session_rounds (Nat.lt_succ_self input.length) hd hos hroom hfiles
  refine ⟨e, _, hsession, hend, ?_⟩
  rw [Kernel.put_sock hd, hfresh]
  change Function.update k.sent sockFd _ sockFd = _
  rw [Function.update_self, List.nil_append]

/-- A directory with the files `a` and `b`. -/
def homeKernel : Kernel :=
  { (Master.init id).kernel with
    desc := Function.update (fun _ => none) 3 (some .sock)
    store := fun path => if path = [97] then some [120] else if path = [98] then some [] else none }

theorem homeKernel_short (path f : Bytes) (h : homeKernel.store path = some f) :
    f.length < 2 ^ 63 := by
  simp only [homeKernel] at h
  split at h
  · obtain rfl := Option.some.inj h
    decide
  · split at h
    · obtain rfl := Option.some.inj h
      decide
    · cases h

/-- ` a`, a tab, `b`, a newline, `c` and `EOF`. -/
def typed : Input := [some 32, some 97, some 9, some 98, some 10, some 99, none]

end KeyLime
