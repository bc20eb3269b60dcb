import KeyLime.Senders

/-!
# The names a user enters

The loop of `interface_main` that reads a file name off the standard input
into `name` and puts the request together in `buffer`, both of 1024 bytes. Its
limit is tested behind the store and allows one character too many, and the
request is longer than the name. `interfaceUses` lists what a run does to the
two arrays; all of it is in bounds if and only if the names are short enough
(`prompt_iff`).

The input is what `getchar` returns, and `EOF` may come anywhere in it, also in
front of more: a terminal goes on behind it. The loop does not look at `EOF` when
it skips white space, and takes it for the end of a name. A name that has not
ended, because the input stops, has its characters stored all the same, but no
request is made of it.

Which names `access` finds is the file system's choice, and is given as a list of
answers. Only a name that is found goes into a request, so that one of 1009 to
1023 characters is harmless if there is no such file.
-/

namespace KeyLime

/-- What `getchar` returns, one after the other: a character or `EOF`. Behind
the last one the program waits. -/
abbrev Input : Type := List (Option UInt8)

/-- `isspace` in the C locale. -/
def isspace (c : UInt8) : Bool := c == 32 || (9 ≤ c && c ≤ 13)

/-- The `max` of `interface_main`, which is also the size of `name`. -/
def nameSize : Nat := 1024

/-- A byte of `name` is written, or the line of a request stands in `buffer`. -/
inductive Use where
  | name (index : Nat)
  | header (line : Bytes)
deriving DecidableEq

/-- The line has a NUL behind it. -/
def Use.InBounds : Use → Prop
  | .name index => index < nameSize
  | .header line => line.length + 1 ≤ bufSize

instance : DecidablePred Use.InBounds
  | .name index => inferInstanceAs (Decidable (index < nameSize))
  | .header line => inferInstanceAs (Decidable (line.length + 1 ≤ bufSize))

/-! ## The program -/

/-- The first inner loop. The character that ends it is put back. -/
def skipSpaces : Input → Input
  | [] => []
  | none :: s => s
  | some c :: s => if isspace c then skipSpaces s else some c :: s

/-- The second inner loop, with `name` read so far: what it writes to the
array and, when it is left by `break`, the name and the rest of the input.
Behind a write out of bounds nothing is known of the program. -/
def readName : Input → Bytes → List Use × Option (Bytes × Input)
  | [], _ => ([], none)
  | none :: s, name =>
      ([.name name.length], if name.length < nameSize then some (name, s) else none)
  | some c :: s, name =>
      if isspace c then
        ([.name name.length], if name.length < nameSize then some (name, s) else none)
      else if nameSize ≤ name.length then ([.name name.length], none)
      -- "Filename is larger than allowed"
      else if name.length + 1 > nameSize then ([.name name.length], none)
      else (.name name.length :: (readName s (name ++ [c])).1, (readName s (name ++ [c])).2)

/-- What `strcpy` and `send_request` put into `buffer`. -/
def requestLine (name : Bytes) : Bytes := interfacePutVerb ++ [space] ++ cstr name ++ [newline]

/-- The loop of `interface_main`, with the answers of `access`. -/
def interfaceUses : List Bool → Input → List Use
  | [], _ => []
  | ok :: answers, input =>
      (readName (skipSpaces input) []).1 ++
        match (readName (skipSpaces input) []).2 with
        | none => []
        | some (name, rest) =>
            if ok = false then []
            else
              .header (requestLine name) ::
                if bufSize ≤ (requestLine name).length then [] else interfaceUses answers rest

/-! ## The names -/

/-- The characters up to the next white space or `EOF`, and what is behind it,
if it has come. -/
def nextName : Input → Bytes × Option Input
  | [] => ([], none)
  | none :: s => ([], some s)
  | some c :: s => if isspace c then ([], some s) else (c :: (nextName s).1, (nextName s).2)

def NameFits (length : Nat) (ended : Bool) : Prop :=
  length ≤ nameSize ∧ (ended = true → length < nameSize)

/-- Every name has at most 1023 characters, and at most 1008 of them go into a
request. -/
def InputFits : List Bool → Input → Prop
  | [], _ => True
  | ok :: answers, input =>
      NameFits (nextName (skipSpaces input)).1.length (nextName (skipSpaces input)).2.isSome
        ∧ ∀ rest, (nextName (skipSpaces input)).2 = some rest → ok = true →
          (cstr (nextName (skipSpaces input)).1).length ≤ 1008 ∧ InputFits answers rest

variable {s : Input} {name : Bytes} {answers : List Bool} {input : Input}

theorem sendRequest_isSome (k : Kernel) (sockFd : Int) (name : Bytes) (os : List Outcome) :
    (sendRequest k sockFd interfacePutVerb (cstr name) os).isSome = true
      ↔ (Use.header (requestLine name)).InBounds := by
  rw [sendRequest, Use.InBounds, requestLine]
  split
  · rename_i hlt
    exact iff_of_true rfl hlt
  · rename_i hge
    exact iff_of_false (by simp) hge

/-- **One name** stays inside of its array if and only if it is short enough. -/
theorem readName_iff (hname : name.length ≤ nameSize) :
    (∀ u ∈ (readName s name).1, u.InBounds)
      ↔ NameFits (name ++ (nextName s).1).length (nextName s).2.isSome := by
  induction s generalizing name with
  | nil => simp [readName, nextName, NameFits, hname]
  | cons i s ih =>
      have hends : (∀ u ∈ [Use.name name.length], u.InBounds) ↔ NameFits name.length true := by
        rw [List.forall_mem_singleton]
        exact ⟨fun h => ⟨hname, fun _ => h⟩, fun h => h.2 rfl⟩
      cases i with
      | none =>
          rw [readName, nextName, List.append_nil]
          exact hends
      | some c =>
          rw [readName, nextName]
          by_cases hc : isspace c = true
          · rw [if_pos hc, if_pos hc, List.append_nil]
            exact hends
          · rw [if_neg hc, if_neg hc]
            by_cases hfull : nameSize ≤ name.length
            · -- the character is stored behind the end
              rw [if_pos hfull, List.forall_mem_singleton]
              refine ⟨fun h => (Nat.not_lt.mpr hfull h).elim, ?_⟩
              intro h
              have hle := h.1
              rw [List.length_append, List.length_cons] at hle
              omega
            · rw [if_neg hfull, if_neg (by omega), List.forall_mem_cons,
                ih (by rw [List.length_append, List.length_singleton]; omega),
                List.append_assoc, List.singleton_append]
              exact ⟨fun h => h.2, fun h => ⟨Nat.not_le.mp hfull, h⟩⟩

theorem readName_name (h : NameFits (name ++ (nextName s).1).length (nextName s).2.isSome) :
    (readName s name).2 = (nextName s).2.map fun rest => (name ++ (nextName s).1, rest) := by
  induction s generalizing name with
  | nil => rfl
  | cons i s ih =>
      cases i with
      | none =>
          rw [nextName, List.append_nil] at h
          rw [readName, nextName, if_pos (h.2 rfl), List.append_nil]
          rfl
      | some c =>
          rw [nextName] at h
          rw [readName, nextName]
          by_cases hc : isspace c = true
          · rw [if_pos hc, List.append_nil] at h
            rw [if_pos hc, if_pos hc, if_pos (h.2 rfl), List.append_nil]
            rfl
          · rw [if_neg hc] at h
            have hle := h.1
            rw [List.length_append, List.length_cons] at hle
            have hsplit : name ++ c :: (nextName s).1 = name ++ [c] ++ (nextName s).1 := by simp
            rw [hsplit] at h
            rw [if_neg hc, if_neg hc, if_neg (by omega), if_neg (by omega), hsplit]
            exact ih h

theorem length_requestLine (name : Bytes) :
    (requestLine name).length = (cstr name).length + 15 := by
  simp [requestLine, interfacePutVerb]

/-- **The arrays of the interface.** For every input and every answer of
`access`, the writes to `name` and the lines in `buffer` are in bounds if and
only if the names are short enough: 1023 characters, or 1024 as long as a name
has not ended, and 1008 for one that is found. -/
theorem prompt_iff (answers : List Bool) (input : Input) :
    (∀ u ∈ interfaceUses answers input, u.InBounds) ↔ InputFits answers input := by
  induction answers generalizing input with
  | nil => simp [interfaceUses, InputFits]
  | cons ok answers ih =>
      rw [interfaceUses, InputFits, List.forall_mem_append, readName_iff (Nat.zero_le _),
        List.nil_append]
      refine and_congr_right fun hfits => ?_
      rw [← List.nil_append (nextName (skipSpaces input)).1] at hfits
      have hname := readName_name hfits
      rw [List.nil_append] at hname hfits
      rw [hname]
      cases hrest : (nextName (skipSpaces input)).2 with
      | none => simp
      | some rest =>
          cases ok with
          | false => simp
          | true =>
              have hline : (Use.header (requestLine (nextName (skipSpaces input)).1)).InBounds ↔
                  (cstr (nextName (skipSpaces input)).1).length ≤ 1008 := by
                rw [Use.InBounds, length_requestLine, bufSize]
                omega
              simp only [Option.map_some, Bool.true_eq_false, if_false, List.forall_mem_cons, hline,
                Option.some.injEq, forall_eq', forall_const]
              refine and_congr_right fun hle => ?_
              rw [if_neg (by rw [length_requestLine, bufSize]; omega)]
              exact ih rest

/-- A name of 1024 characters gets its NUL behind `name`, and the request for
one of 1009 characters has no room for its NUL. -/
theorem prompt_overrun :
    (∃ u ∈ interfaceUses [true] (List.replicate 1024 (some 97) ++ [some 10]), ¬ u.InBounds)
      ∧ ∃ u ∈ interfaceUses [true] (List.replicate 1009 (some 97) ++ [some 10]), ¬ u.InBounds := by
  decide +kernel

end KeyLime
