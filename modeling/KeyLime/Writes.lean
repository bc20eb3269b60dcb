import Mathlib.Data.List.Infix
import KeyLime.Kernel

/-!
# What the write loop does

`write_all_to_socket` puts a prefix of its buffer on the descriptor, every
byte once and in order, and its return value tells how long the prefix is
(`writeAllToSocket_spec`). On a descriptor that refuses nothing the prefix
is the whole buffer (`writeAllToSocket_smooth`).

The lemmas in front of the loop are those of `Kernel.put`, which is what a
`write` that has accepted certain bytes has done: on a connection they are
appended to what it has been sent, on a file they are spliced in at the offset.
Two writes in a row are one write of both parts (`put_append`), so that a loop
of short writes is, for everyone who looks at the kernel later, a single one.
-/

namespace KeyLime

namespace Kernel

theorem splice_at_end (got bs : Bytes) : splice got got.length bs = got ++ bs := by
  simp [splice]

theorem splice_splice (old : Bytes) (off : Nat) (a b : Bytes) :
    splice (splice old off a) (off + a.length) b = splice old off (a ++ b) := by
  have hpad : ((old ++ List.replicate (off - old.length) 0).take off).length = off := by
    simp only [List.length_take, List.length_append, List.length_replicate]
    omega
  unfold splice
  generalize (old ++ List.replicate (off - old.length) (0 : UInt8)).take off = pre at hpad ⊢
  generalize List.replicate _ (0 : UInt8) = zeros
  have hlen : (pre ++ a).length = off + a.length := by rw [List.length_append, hpad]
  rw [List.append_assoc (pre ++ a), List.take_left' hlen, List.drop_append,
    List.drop_eq_nil_of_le (by omega), List.nil_append, List.drop_drop, hlen]
  simp only [List.append_assoc, List.length_append]
  congr 4
  omega

@[simp] theorem put_nil (k : Kernel) (fd : Int) : k.put fd [] = k := by simp [put]

theorem put_file {k : Kernel} {fd : Int} {path : Bytes} {off : Nat} {bs : Bytes}
    (h : k.desc fd = some (.file path off)) (hbs : bs ≠ []) :
    k.put fd bs =
      { k with
        store := Function.update k.store path
          (some (splice ((k.store path).getD []) off bs))
        desc := Function.update k.desc fd (some (.file path (off + bs.length))) } := by
  simp [put, h, hbs]

theorem put_sock {k : Kernel} {fd : Int} {bs : Bytes} (h : k.desc fd = some .sock) :
    k.put fd bs = { k with sent := Function.update k.sent fd (k.sent fd ++ bs) } := by
  by_cases hbs : bs = []
  · subst hbs
    simp
  · simp [put, h, hbs]

theorem put_sock_desc {k : Kernel} {fd : Int} (h : k.desc fd = some .sock) (bs : Bytes) :
    (k.put fd bs).desc = k.desc := by
  rw [put_sock h]

theorem put_none {k : Kernel} {fd : Int} {bs : Bytes} (h : k.desc fd = none) :
    k.put fd bs = k := by
  simp [put, h]

@[simp] theorem put_resolve (k : Kernel) (fd : Int) (bs : Bytes) :
    (k.put fd bs).resolve = k.resolve := by
  unfold put
  split
  · rfl
  · split <;> rfl

theorem put_at_end {k : Kernel} {fd : Int} {path got : Bytes} (bs : Bytes)
    (hstore : k.store path = some got) (hdesc : k.desc fd = some (.file path got.length)) :
    (k.put fd bs).store path = some (got ++ bs) ∧
      (k.put fd bs).desc fd = some (.file path (got ++ bs).length) := by
  by_cases hbs : bs = []
  · simp [hbs, hstore, hdesc]
  · rw [put_file hdesc hbs]
    simp [hstore, splice_at_end]

theorem put_append (k : Kernel) (fd : Int) (a b : Bytes) :
    (k.put fd a).put fd b = k.put fd (a ++ b) := by
  by_cases ha : a = []
  · simp [ha]
  by_cases hb : b = []
  · simp [hb]
  have hab : a ++ b ≠ [] := by simp [ha]
  cases hd : k.desc fd with
  | none => rw [put_none hd, put_none hd, put_none hd]
  | some d =>
      cases d with
      | sock =>
          have hd' : (k.put fd a).desc fd = some .sock := by rw [put_sock hd]; exact hd
          rw [put_sock hd', put_sock hd, put_sock hd]
          simp
      | file path off =>
          have hd' : (k.put fd a).desc fd = some (.file path (off + a.length)) := by
            rw [put_file hd ha]
            simp
          rw [put_file hd' hb, put_file hd ha, put_file hd hab]
          simp [splice_splice, Nat.add_assoc]

theorem put_desc_eq_none (k : Kernel) (fd g : Int) (bs : Bytes) :
    (k.put fd bs).desc g = none ↔ k.desc g = none := by
  by_cases hbs : bs = []
  · simp [hbs]
  cases hd : k.desc fd with
  | none => rw [put_none hd]
  | some d =>
      cases d with
      | sock => rw [put_sock hd]
      | file path off =>
          rw [put_file hd hbs]
          by_cases hg : g = fd
          · subst hg
            simp [hd]
          · simp [hg]

end Kernel

/-! ## The loop -/

/-- What the loop has done when it stops: a prefix `pre` of the buffer is
out, and the result is an error before the end or the number of bytes. -/
theorem writeAllLoop_spec (fd : Int) :
    ∀ (os : List Outcome) (buf : Bytes) (total : Int) (k : Kernel),
      ∃ pre, pre <+: buf ∧ (writeAllLoop fd os buf total k).2.2 = k.put fd pre
        ∧ (((writeAllLoop fd os buf total k).1 = -1 ∧ pre ≠ buf)
          ∨ (writeAllLoop fd os buf total k).1 = total + pre.length) := by
  intro os
  induction os with
  | nil =>
      intro buf total k
      refine ⟨buf, List.prefix_rfl, ?_⟩
      cases buf <;> simp [writeAllLoop]
  | cons o os ih =>
      intro buf total k
      cases buf with
      | nil => exact ⟨[], List.prefix_rfl, by simp [writeAllLoop]⟩
      | cons b buf =>
          cases o with
          | intr => simpa only [writeAllLoop] using ih (b :: buf) total k
          | again => simpa only [writeAllLoop] using ih (b :: buf) total k
          | fail => exact ⟨[], List.nil_prefix, by simp [writeAllLoop]⟩
          | zero => exact ⟨[], List.nil_prefix, by simp [writeAllLoop]⟩
          | take n =>
              obtain ⟨pre, hpre, hk, hr⟩ := ih ((b :: buf).drop (n + 1))
                (total + ((b :: buf).take (n + 1)).length) (k.put fd ((b :: buf).take (n + 1)))
              refine ⟨(b :: buf).take (n + 1) ++ pre, ?_, ?_, ?_⟩
              · obtain ⟨t, ht⟩ := hpre
                exact ⟨t, by rw [List.append_assoc, ht, List.take_append_drop]⟩
              · rw [writeAllLoop, hk, Kernel.put_append]
                simp
              · rw [writeAllLoop]
                · rcases hr with ⟨hr, hne⟩ | hr
                  · refine Or.inl ⟨hr, fun heq => hne ?_⟩
                    have := congrArg (List.drop ((b :: buf).take (n + 1)).length) heq
                    rw [List.drop_left] at this
                    rw [this, List.length_take]
                    by_cases hle : n + 1 ≤ (b :: buf).length
                    · rw [Nat.min_eq_left hle]
                    · rw [List.drop_eq_nil_of_le (by omega), List.drop_eq_nil_of_le (by omega)]
                  · right
                    rw [hr]
                    simp only [List.length_append]
                    push_cast
                    omega
                · simp

theorem writeAllToSocket_spec (k : Kernel) (fd : Int) (buf : Bytes) (os : List Outcome) :
    ∃ pre, pre <+: buf ∧ (writeAllToSocket k fd buf os).2.2 = k.put fd pre
      ∧ (((writeAllToSocket k fd buf os).1 = -1 ∧ pre ≠ buf)
        ∨ (writeAllToSocket k fd buf os).1 = pre.length) := by
  unfold writeAllToSocket
  split
  · rename_i h
    exact ⟨[], List.nil_prefix, by simp, Or.inl ⟨rfl, fun heq => h.1 heq.symm⟩⟩
  · obtain ⟨pre, hpre, hk, hr⟩ := writeAllLoop_spec fd os buf 0 k
    exact ⟨pre, hpre, hk, by simpa using hr⟩

/-- Outcomes that refuse nothing for good: a `write` takes some of its bytes, or is
interrupted, or finds the connection full for now. -/
def Smooth (os : List Outcome) : Prop := ∀ o ∈ os, o ≠ .zero ∧ o ≠ .fail

instance (os : List Outcome) : Decidable (Smooth os) :=
  inferInstanceAs (Decidable (∀ o ∈ os, _))

theorem Smooth.tail {o : Outcome} {os : List Outcome} (h : Smooth (o :: os)) : Smooth os :=
  fun o' ho' => h o' (List.mem_cons_of_mem _ ho')

theorem writeAllLoop_smooth (fd : Int) :
    ∀ {os : List Outcome} (buf : Bytes) (total : Int) (k : Kernel), Smooth os →
      ∃ os', Smooth os' ∧ writeAllLoop fd os buf total k = (total + buf.length, os', k.put fd buf) := by
  intro os
  induction os with
  | nil =>
      intro buf total k hs
      refine ⟨[], hs, ?_⟩
      cases buf <;> simp [writeAllLoop]
  | cons o os ih =>
      intro buf total k hs
      cases buf with
      | nil => exact ⟨o :: os, hs, by simp [writeAllLoop]⟩
      | cons b buf =>
          cases o with
          | intr => simpa only [writeAllLoop] using ih (b :: buf) total k hs.tail
          | again => simpa only [writeAllLoop] using ih (b :: buf) total k hs.tail
          | fail => exact ((hs .fail (List.mem_cons_self ..)).2 rfl).elim
          | zero => exact ((hs .zero (List.mem_cons_self ..)).1 rfl).elim
          | take n =>
              obtain ⟨os', hs', heq⟩ := ih ((b :: buf).drop (n + 1))
                (total + ((b :: buf).take (n + 1)).length) (k.put fd ((b :: buf).take (n + 1)))
                hs.tail
              refine ⟨os', hs', ?_⟩
              rw [writeAllLoop, heq, Kernel.put_append, List.take_append_drop]
              · congr 1
                have := congrArg List.length (List.take_append_drop (n + 1) (b :: buf))
                rw [List.length_append] at this
                omega
              · simp

theorem writeAllToSocket_smooth {k : Kernel} {fd : Int} {os : List Outcome} (buf : Bytes)
    (hd : k.desc fd ≠ none) (hs : Smooth os) :
    ∃ os', Smooth os' ∧ writeAllToSocket k fd buf os = ((buf.length : Int), os', k.put fd buf) := by
  obtain ⟨os', hs', heq⟩ := writeAllLoop_smooth fd buf 0 k hs
  refine ⟨os', hs', ?_⟩
  rw [writeAllToSocket, if_neg (fun h => hd h.2), heq, Int.zero_add]

end KeyLime
