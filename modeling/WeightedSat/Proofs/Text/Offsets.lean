import WeightedSat.Text.Position

/-!
**Bytes and characters of a text.**

An offset counts bytes, a column counts characters.  The two part at the first character that takes
more than one byte, and an offset inside such a character is the place of nothing.

Main definitions:

* `WeightedSat.Text.cutAt?` — cuts a text at an offset.

Main results:

* `WeightedSat.Text.length_le_byteSize` — when there are as many bytes as characters;
* `WeightedSat.Text.cutAt?_eq_some_iff` — **what a cut at an offset gives**.
-/

set_option relaxedAutoImplicit false
set_option autoImplicit false

namespace WeightedSat.Text

/-! ### The number of bytes -/

@[simp] theorem byteSize_nil : byteSize [] = 0 := rfl

@[simp] theorem byteSize_cons (c : Char) (text : List Char) :
    byteSize (c :: text) = c.utf8Size + byteSize text := by
  have hfrom : ∀ (text : List Char) (n : Nat),
      text.foldl (fun n c => n + c.utf8Size) n = n + byteSize text := by
    intro text
    induction text with
    | nil => exact fun n => rfl
    | cons c text ih =>
        intro n
        rw [byteSize, List.foldl_cons, List.foldl_cons, ih, ih]
        omega
  rw [byteSize, List.foldl_cons, hfrom]
  omega

@[simp] theorem byteSize_append (front rest : List Char) :
    byteSize (front ++ rest) = byteSize front + byteSize rest := by
  induction front with
  | nil => rw [List.nil_append, byteSize_nil, Nat.zero_add]
  | cons c front ih => rw [List.cons_append, byteSize_cons, byteSize_cons, ih, Nat.add_assoc]

/-- A text has at least as many bytes as characters, and no more only where each takes one. -/
theorem length_le_byteSize (text : List Char) :
    text.length ≤ byteSize text ∧
      (byteSize text ≤ text.length ↔ ∀ c ∈ text, c.utf8Size = 1) := by
  induction text with
  | nil => exact ⟨Nat.le_refl _, by simp⟩
  | cons c text ih =>
      obtain ⟨hle, hiff⟩ := ih
      have hpos := c.utf8Size_pos
      rw [byteSize_cons, List.length_cons, List.forall_mem_cons, ← hiff]
      omega

/-! ### Cutting at an offset -/

/-- What stands in front of an offset and behind it.  There is nothing to cut inside a character or
behind the end. -/
def cutAt? : Nat → List Char → Option (List Char × List Char)
  | 0, text => some ([], text)
  | _ + 1, [] => none
  | n + 1, c :: text =>
      if c.utf8Size ≤ n + 1 then
        (cutAt? (n + 1 - c.utf8Size) text).map fun cut => (c :: cut.1, cut.2)
      else none

/-- The end of a character's bytes is where the next character may be cut off. -/
theorem cutAt?_byteSize_append (front rest : List Char) :
    cutAt? (byteSize front) (front ++ rest) = some (front, rest) := by
  induction front with
  | nil => rw [byteSize_nil, cutAt?, List.nil_append]
  | cons c front ih =>
      obtain ⟨k, hk⟩ : ∃ k, byteSize (c :: front) = k + 1 :=
        Nat.exists_eq_add_one.2 (by have := c.utf8Size_pos; rw [byteSize_cons]; omega)
      have hfits : c.utf8Size ≤ k + 1 := by rw [← hk, byteSize_cons]; omega
      have hrest : k + 1 - c.utf8Size = byteSize front := by rw [← hk, byteSize_cons]; omega
      rw [hk, List.cons_append, cutAt?, if_pos hfits, hrest, ih, Option.map_some]

/-- **What a cut at an offset gives**: the text in two parts, the first of which has as many bytes
as the offset says. -/
theorem cutAt?_eq_some_iff {n : Nat} {text front rest : List Char} :
    cutAt? n text = some (front, rest) ↔ text = front ++ rest ∧ byteSize front = n := by
  constructor
  · intro h
    induction text generalizing n front with
    | nil =>
        cases n with
        | zero =>
            cases h
            exact ⟨rfl, rfl⟩
        | succ n => cases h
    | cons c text ih =>
        cases n with
        | zero =>
            cases h
            exact ⟨rfl, rfl⟩
        | succ n =>
            rw [cutAt?] at h
            split at h
            · obtain ⟨⟨front', rest'⟩, hcut, heq⟩ := Option.map_eq_some_iff.1 h
              cases heq
              obtain ⟨rfl, hsize⟩ := ih hcut
              exact ⟨rfl, by rw [byteSize_cons, hsize]; omega⟩
            · cases h
  · rintro ⟨rfl, rfl⟩
    exact cutAt?_byteSize_append front rest

end WeightedSat.Text
