import Mathlib.Tactic.IntervalCases
import WeightedSat.Document.Reader
import WeightedSat.Proofs.Text.Numerals

/-!
**Reading a document piece by piece, and its strings.**

A text is read as a value, or refused, whatever follows it, as long as that cannot be taken for more
of the text.  Stated so, what is known of the parts of a document says what is read of the whole.

Main definitions:

* `WeightedSat.Document.Ends` — how a reader ends that starts in front of a text;
* `WeightedSat.Document.Reads` — **a reader reads a text as a value**;
* `WeightedSat.Document.Answers` — a reader reads a text as a value or refuses it;
* `WeightedSat.Document.SkipsSpace` — a reader that passes over blanks first.

Main results:

* `WeightedSat.Document.Ends.bind` — one reader after another;
* `WeightedSat.Document.readString_plain`, `WeightedSat.Document.reads_readText` — **strings without
  escapes**.
-/

set_option relaxedAutoImplicit false
set_option autoImplicit false

namespace WeightedSat.Document

variable {α β σ : Type}

/-! ### Readers -/

/-- The characters that may follow a value. -/
def delimiters : List Char := [' ', '\n', '\t', '\r', ',', ']', '\x7d']

/-- What may follow a value: nothing, a blank, a comma or a closing bracket. -/
def Delimited (rest : List Char) : Prop :=
  ∀ c ∈ rest.head?, c ∈ delimiters

theorem mem_delimiters_of_isSpace {c : Char} (h : Cursor.isSpace c = true) : c ∈ delimiters := by
  simp only [Cursor.isSpace, Bool.or_eq_true, decide_eq_true_eq] at h
  rcases h with ((rfl | rfl) | rfl) | rfl <;> decide

/-- How a reader ends that starts at a cursor: in front of a text and with a value, or with a
failure where there is no value. -/
inductive Ends (reader : Reader α) (c : Cursor) (rest : List Char) : Option α → Prop
  | value {a : α} {offset : Nat} (h : reader c = .ok (a, ⟨rest, offset⟩)) :
      Ends reader c rest (some a)
  | failure {f : Failure} (h : reader c = .error f) : Ends reader c rest none

/-- **A reader reads a text as a value**, whatever may follow the text. -/
def Reads (reader : Reader α) (text : List Char) (a : α) : Prop :=
  ∀ rest offset, Delimited rest →
    ∃ offset', reader ⟨text ++ rest, offset⟩ = .ok (a, ⟨rest, offset'⟩)

/-- A reader reads a text as a value, or refuses it where there is no value, whatever may follow the
text. -/
def Answers (reader : Reader α) (text : List Char) (answer : Option α) : Prop :=
  ∀ rest offset, Delimited rest → Ends reader ⟨text ++ rest, offset⟩ rest answer

theorem answers_some_iff {reader : Reader α} {text : List Char} {a : α} :
    Answers reader text (some a) ↔ Reads reader text a := by
  constructor
  · intro h rest offset hrest
    cases h rest offset hrest with
    | value hread => exact ⟨_, hread⟩
  · intro h rest offset hrest
    obtain ⟨_, hread⟩ := h rest offset hrest
    exact .value hread

/-- One reader after another. -/
theorem bind_apply {x : Reader α} {c c' : Cursor} {a : α} (h : x c = .ok (a, c'))
    (f : α → Reader β) : (x >>= f) c = f a c' := by
  change (x c >>= fun p => f p.1 p.2) = _
  rw [h]
  rfl

theorem bind_apply_error {x : Reader α} {c : Cursor} {failure : Failure} (h : x c = .error failure)
    (f : α → Reader β) : (x >>= f) c = .error failure := by
  change (x c >>= fun p => f p.1 p.2) = _
  rw [h]
  rfl

/-- A reader ends like another one that goes on in its place. -/
theorem Ends.of_eq {x y : Reader α} {c c' : Cursor} {rest : List Char} {answer : Option α}
    (h : x c = y c') (hend : Ends y c' rest answer) : Ends x c rest answer := by
  cases hend with
  | value hread => exact .value (h.trans hread)
  | failure hfail => exact .failure (h.trans hfail)

/-- Another reader goes on where the first one ended. -/
theorem Ends.bind {x : Reader α} {f : α → Reader β} {c : Cursor} {rest last : List Char}
    {answer : Option α} {answer' : α → Option β} (h : Ends x c rest answer)
    (hnext : ∀ a offset, answer = some a → Ends (f a) ⟨rest, offset⟩ last (answer' a)) :
    Ends (x >>= f) c last (answer.bind answer') := by
  cases h with
  | failure hfail => exact .failure (bind_apply_error hfail f)
  | @value a offset hread =>
      exact .of_eq (bind_apply hread f) (hnext a offset rfl)

/-- What is returned does not move the cursor. -/
theorem Ends.map {x : Reader α} {c : Cursor} {rest : List Char} {answer : Option α}
    (h : Ends x c rest answer) (f : α → β) : Ends (do return f (← x)) c rest (answer.map f) := by
  rw [Option.map_eq_bind]
  exact h.bind fun _ _ _ => .value rfl

theorem Answers.map {x : Reader α} {text : List Char} {answer : Option α}
    (h : Answers x text answer) (f : α → β) : Answers (do return f (← x)) text (answer.map f) :=
  fun rest offset hrest => (h rest offset hrest).map f

theorem Reads.map {x : Reader α} {text : List Char} {a : α} (h : Reads x text a) (f : α → β) :
    Reads (do return f (← x)) text (f a) :=
  answers_some_iff.1 ((answers_some_iff.2 h).map f)

/-! ### Blanks -/

/-- Characters that may stand between the parts of a document. -/
def AreBlank (blanks : List Char) : Prop :=
  ∀ a ∈ blanks, Cursor.isSpace a = true

/-- A reader that passes over a blank in front. -/
def SkipsSpace (reader : Reader α) : Prop :=
  ∀ a rest offset, Cursor.isSpace a = true →
    reader ⟨a :: rest, offset⟩ = reader ⟨rest, offset + 1⟩

/-- Such a reader passes over any number of blanks. -/
theorem SkipsSpace.blanks {reader : Reader α} (h : SkipsSpace reader) {blanks : List Char}
    (hblanks : AreBlank blanks) (rest : List Char) (offset : Nat) :
    ∃ offset', reader ⟨blanks ++ rest, offset⟩ = reader ⟨rest, offset'⟩ := by
  induction blanks generalizing offset with
  | nil => exact ⟨offset, rfl⟩
  | cons a blanks ih =>
      rw [AreBlank, List.forall_mem_cons] at hblanks
      rw [List.cons_append, h a _ _ hblanks.1]
      exact ih hblanks.2 (offset + 1)

theorem skipsSpace_peekNext : SkipsSpace peekNext := by
  intro a rest offset ha
  have hskip : Cursor.skipSpace ⟨a :: rest, offset⟩ = Cursor.skipSpace ⟨rest, offset + 1⟩ := by
    simp [Cursor.skipSpace, ha]
    omega
  rw [peekNext, peekNext, hskip]

theorem SkipsSpace.bind {x : Reader α} (h : SkipsSpace x) (f : α → Reader β) :
    SkipsSpace (x >>= f) := by
  intro a rest offset ha
  change (x _ >>= fun p => f p.1 p.2) = (x _ >>= fun p => f p.1 p.2)
  rw [h a rest offset ha]

theorem Answers.space {reader : Reader α} {text : List Char} {answer : Option α}
    (h : Answers reader text answer) (hskip : SkipsSpace reader) :
    Answers reader (' ' :: text) answer := by
  intro rest offset hrest
  rw [List.cons_append]
  exact .of_eq (hskip ' ' _ offset rfl) (h rest (offset + 1) hrest)

/-- The next character, where it is no blank. -/
theorem peekNext_cons {a : Char} (ha : Cursor.isSpace a = false) (rest : List Char)
    (offset : Nat) : peekNext ⟨a :: rest, offset⟩ = .ok (some a, ⟨a :: rest, offset⟩) := by
  simp [peekNext, Cursor.skipSpace, ha]

/-! ### Repetition -/

theorem loopWithin_more {step : σ → Reader (σ ⊕ α)} {s s' : σ} {c c' : Cursor}
    (h : step s c = .ok (.inl s', c')) (n : Nat) :
    loopWithin step (n + 1) s c = loopWithin step n s' c' := by
  rw [loopWithin, bind_apply h]

theorem loopWithin_done {step : σ → Reader (σ ⊕ α)} {s : σ} {a : α} {c c' : Cursor}
    (h : step s c = .ok (.inr a, c')) (n : Nat) : loopWithin step (n + 1) s c = .ok (a, c') := by
  rw [loopWithin, bind_apply h]
  rfl

/-- A step that goes on, and then the others. -/
theorem Ends.loopWithin_next {step : σ → Reader (σ ⊕ α)} {s s' : σ} {c : Cursor}
    {rest last : List Char} {answer : Option α} {n : Nat}
    (h : Ends (step s) c rest (some (Sum.inl s')))
    (hlater : ∀ offset, Ends (loopWithin step n s') ⟨rest, offset⟩ last answer) :
    Ends (loopWithin step (n + 1) s) c last answer := by
  cases h with
  | value hstep => exact .of_eq (loopWithin_more hstep n) (hlater _)

theorem Ends.loopWithin_failed {step : σ → Reader (σ ⊕ α)} {s : σ} {c : Cursor}
    {rest : List Char} (h : Ends (step s) c rest none) (n : Nat) (last : List Char) :
    Ends (loopWithin step (n + 1) s) c last none := by
  cases h with
  | failure hfail => exact .failure (bind_apply_error hfail _)

theorem Ends.loopWithin_done {step : σ → Reader (σ ⊕ α)} {s : σ} {c : Cursor} {rest : List Char}
    {a : α} (h : Ends (step s) c rest (some (Sum.inr a))) (n : Nat) :
    Ends (loopWithin step (n + 1) s) c rest (some a) := by
  cases h with
  | value hstep => exact .value (Document.loopWithin_done hstep n)

/-! ### Strings -/

/-- A character that stands for itself in a string. -/
def IsPlain (a : Char) : Prop :=
  a ≠ '"' ∧ a ≠ '\\' ∧ 0x20 ≤ a.toNat

instance (a : Char) : Decidable (IsPlain a) :=
  inferInstanceAs (Decidable (_ ∧ _ ∧ _))

/-- Characters that stand for themselves. -/
def ArePlain (text : List Char) : Prop :=
  ∀ a ∈ text, IsPlain a

instance (text : List Char) : Decidable (ArePlain text) :=
  decidable_of_iff (text.all fun a => IsPlain a) (by simp [ArePlain])

theorem stringStep_plain {a : Char} (ha : IsPlain a) (read rest : List Char) (offset : Nat) :
    stringStep read ⟨a :: rest, offset⟩ = .ok (.inl (a :: read), ⟨rest, offset + a.utf8Size⟩) := by
  obtain ⟨hquote, hslash, hcontrol⟩ := ha
  have hpeek : peek ⟨a :: rest, offset⟩ = .ok (some a, ⟨a :: rest, offset⟩) := rfl
  rw [stringStep, bind_apply hpeek]
  simp only [Nat.not_lt.2 hcontrol, if_false]
  rfl

theorem encodeChar_plain {a : Char} (ha : IsPlain a) : Text.encodeChar a = [a] := by
  obtain ⟨hquote, hslash, hcontrol⟩ := ha
  have hne : ∀ b : Char, b.toNat < 0x20 → a ≠ b := by
    rintro b hb rfl
    omega
  rw [Text.encodeChar, if_neg hquote, if_neg hslash, if_neg (hne _ (by decide)),
    if_neg (hne _ (by decide)), if_neg (hne _ (by decide)), if_neg (hne _ (by decide)),
    if_neg (hne _ (by decide)), if_neg (by omega), if_neg (by omega)]

/-- The escape of a control character is read as the character. -/
theorem stringStep_control {n : Nat} (hn : n < 0x20) (read rest : List Char) (offset : Nat) :
    ∃ offset', stringStep read ⟨Text.encodeChar (Char.ofNat n) ++ rest, offset⟩ =
      .ok (.inl (Char.ofNat n :: read), ⟨rest, offset'⟩) := by
  interval_cases n <;> exact ⟨_, rfl⟩

/-- **Every character is read back** from what stands for it in a string. -/
theorem stringStep_encodeChar (a : Char) (read rest : List Char) (offset : Nat) :
    ∃ offset', stringStep read ⟨Text.encodeChar a ++ rest, offset⟩ =
      .ok (.inl (a :: read), ⟨rest, offset'⟩) := by
  rcases Nat.lt_or_ge a.toNat 0x20 with hcontrol | hcontrol
  · have hread := stringStep_control hcontrol read rest offset
    rwa [Char.ofNat_toNat] at hread
  · by_cases hquote : a = '"'
    · subst hquote
      exact ⟨_, rfl⟩
    · by_cases hslash : a = '\\'
      · subst hslash
        exact ⟨_, rfl⟩
      · have ha : IsPlain a := ⟨hquote, hslash, hcontrol⟩
        rw [encodeChar_plain ha]
        exact ⟨_, stringStep_plain ha read rest offset⟩

theorem loopWithin_stringStep (text read rest : List Char) (offset : Nat) {n : Nat}
    (hn : text.length < n) :
    ∃ offset', loopWithin stringStep n read ⟨text.flatMap Text.encodeChar ++ '"' :: rest, offset⟩ =
      .ok (read.reverse ++ text, ⟨rest, offset'⟩) := by
  obtain ⟨n, rfl⟩ : ∃ m, n = m + 1 := ⟨n - 1, by omega⟩
  induction text generalizing read offset n with
  | nil =>
      refine ⟨offset + '"'.utf8Size, ?_⟩
      rw [List.append_nil]
      exact @loopWithin_done _ _ stringStep _ _ _ _ rfl n
  | cons a text ih =>
      rw [List.length_cons] at hn
      obtain ⟨n, rfl⟩ : ∃ m, n = m + 1 := ⟨n - 1, by omega⟩
      obtain ⟨offset₁, hstep⟩ := stringStep_encodeChar a read
        (text.flatMap Text.encodeChar ++ '"' :: rest) offset
      obtain ⟨offset₂, hrest⟩ := ih (a :: read) offset₁ n (by omega)
      refine ⟨offset₂, ?_⟩
      rw [List.flatMap_cons, List.append_assoc, loopWithin_more hstep, hrest, List.reverse_cons,
        List.append_assoc, List.singleton_append]

theorem encodeChar_ne_nil (a : Char) : Text.encodeChar a ≠ [] := by
  rw [Text.encodeChar]
  split_ifs <;> exact List.cons_ne_nil _ _

theorem length_le_flatMap_encodeChar (text : List Char) :
    text.length ≤ (text.flatMap Text.encodeChar).length := by
  induction text with
  | nil => exact Nat.le_refl 0
  | cons a text ih =>
      have hpos := List.length_pos_iff.2 (encodeChar_ne_nil a)
      rw [List.flatMap_cons, List.length_append, List.length_cons]
      omega

/-- **A string is read back**, behind its first quotation mark. -/
theorem readString_encode (text rest : List Char) (offset : Nat) :
    ∃ offset', readString ⟨text.flatMap Text.encodeChar ++ '"' :: rest, offset⟩ =
      .ok (text, ⟨rest, offset'⟩) := by
  have hlength := length_le_flatMap_encodeChar text
  exact loopWithin_stringStep text [] rest offset
    (by simp only [List.length_append, List.length_cons]; omega)

theorem ArePlain.flatMap_encodeChar {text : List Char} (h : ArePlain text) :
    text.flatMap Text.encodeChar = text := by
  induction text with
  | nil => rfl
  | cons a text ih =>
      rw [ArePlain, List.forall_mem_cons] at h
      rw [List.flatMap_cons, encodeChar_plain h.1, ih h.2, List.singleton_append]

/-- A string without escapes, behind its first quotation mark. -/
theorem readString_plain {text : List Char} (h : ArePlain text) (rest : List Char)
    (offset : Nat) :
    ∃ offset', readString ⟨text ++ '"' :: rest, offset⟩ = .ok (text, ⟨rest, offset'⟩) := by
  have hread := readString_encode text rest offset
  rwa [h.flatMap_encodeChar] at hread

/-! ### Texts -/

/-- A string without escapes between its quotation marks. -/
def quoted (text : List Char) : List Char :=
  '"' :: text ++ ['"']

theorem ArePlain.encode_eq {text : List Char} (h : ArePlain text) :
    Text.encode text = quoted text := by
  rw [Text.encode, h.flatMap_encodeChar, quoted]

/-- **A written text is read back.** -/
theorem reads_readText (text : String) : Reads readText (Text.encode text.toList) text := by
  intro rest offset hrest
  obtain ⟨offset', hread⟩ := readString_encode text.toList rest (offset + 1)
  refine ⟨offset', ?_⟩
  have htext : Text.encode text.toList ++ rest =
      '"' :: (text.toList.flatMap Text.encodeChar ++ '"' :: rest) := by
    simp [Text.encode]
  have hadvance : advance ⟨'"' :: (text.toList.flatMap Text.encodeChar ++ '"' :: rest), offset⟩ =
      .ok ((), ⟨text.toList.flatMap Text.encodeChar ++ '"' :: rest, offset + 1⟩) := rfl
  rw [htext, readText, bind_apply (peekNext_cons (by decide) _ _)]
  simp only
  rw [bind_apply hadvance, bind_apply hread, String.ofList_toList]
  rfl

/-- A text without escapes is read. -/
theorem reads_readText_quoted {text : String} (h : ArePlain text.toList) :
    Reads readText (quoted text.toList) text := by
  have hread := reads_readText text
  rwa [h.encode_eq] at hread

theorem skipsSpace_readText : SkipsSpace readText :=
  skipsSpace_peekNext.bind _

end WeightedSat.Document
