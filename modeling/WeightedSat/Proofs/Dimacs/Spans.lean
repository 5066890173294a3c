import Mathlib.Data.List.Sort
import WeightedSat.Proofs.Dimacs.Words
import WeightedSat.Proofs.Text.Offsets

/-!
**Where the words of a line stand.**

The words of a line are its longest stretches without a blank, each with the column that it starts
in.  This module proves it from the way a line is cut, and with it that no character of a line is
lost: the words at their columns, with the blanks of the line between them, are the line again.

A line may also be read in one pass that counts bytes, not characters: it remembers the offset where
a word has started, slices the line when a blank or the end comes, and only then counts the
characters in front.  The offsets that it slices at never lie inside a character, whatever the
number of bytes a character takes, so it finds the same words.

Main definitions:

* `WeightedSat.Dimacs.IsMaximalRun`, `WeightedSat.Dimacs.IsWordOf` — **a word of a line**;
* `WeightedSat.Dimacs.putBack` — words put back at their columns;
* `WeightedSat.Dimacs.scan` — the pass that counts bytes.

Main results:

* `WeightedSat.Dimacs.Cut.mem_iff` — a line is cut into its words;
* `WeightedSat.Dimacs.Cut.pairwise` — their columns increase;
* `WeightedSat.Dimacs.Cut.putBack_eq` — **no character is lost**;
* `WeightedSat.Dimacs.tokenAt?_eq_some_iff` — what a slice between two offsets gives;
* `WeightedSat.Dimacs.Cut.scan_eq` — **counting bytes finds the same words**;
* `WeightedSat.Dimacs.tokens_are_maximal_runs` — what the scanner of a line finds.
-/

set_option relaxedAutoImplicit false
set_option autoImplicit false

namespace WeightedSat.Dimacs

/-! ### Words of a line -/

/-- **A longest stretch without a blank**: characters that make up a word, with a blank or nothing
on either side. -/
structure IsMaximalRun (before word after : List Char) : Prop where
  plain : IsPlainWord word
  starts : ∀ c ∈ before.getLast?, Text.isBlank c = true
  stops : ∀ c ∈ after.head?, Text.isBlank c = true

/-- **A word of a line**, with its column, where the first character of the line stands in the given
one. -/
def IsWordOf (column : Nat) (line : List Char) (t : Token) : Prop :=
  ∃ before after, line = before ++ t.text ++ after ∧ IsMaximalRun before t.text after ∧
    t.column = column + before.length

/-- What stands far in front of a longest stretch does not matter. -/
theorem IsMaximalRun.of_append (front : List Char) {before word after : List Char}
    (h : IsMaximalRun (front ++ before) word after) : IsMaximalRun before word after := by
  refine ⟨h.plain, fun c hc => h.starts c ?_, h.stops⟩
  rw [List.getLast?_append, Option.mem_def.1 hc, Option.some_or, Option.mem_some_iff]

theorem IsMaximalRun.append (front : List Char) {before word after : List Char}
    (h : IsMaximalRun before word after)
    (hfront : before = [] → ∀ c ∈ front.getLast?, Text.isBlank c = true) :
    IsMaximalRun (front ++ before) word after := by
  refine ⟨h.plain, fun c hc => ?_, h.stops⟩
  cases before with
  | nil => exact hfront rfl c (by rwa [List.append_nil] at hc)
  | cons a before => exact h.starts c (by rwa [List.getLast?_append_cons] at hc)

/-- What starts with a word does not start with a blank. -/
theorem IsPlainWord.exists_head {w : List Char} (hw : IsPlainWord w) (rest : List Char) :
    ∃ c ∈ (w ++ rest).head?, Text.isBlank c = false := by
  obtain ⟨c, cs, rfl⟩ := List.exists_cons_of_ne_nil hw.ne_nil
  exact ⟨c, rfl, hw.not_blank c List.mem_cons_self⟩

/-- A word that a blank or the end stops is what can be read of a line without a blank. -/
theorem IsPlainWord.takeWhile_append {w rest : List Char} (hw : IsPlainWord w)
    (hnext : ∀ c ∈ rest.head?, Text.isBlank c = true) :
    (w ++ rest).takeWhile (!Text.isBlank ·) = w := by
  have hrest : rest.takeWhile (!Text.isBlank ·) = [] := by
    cases rest with
    | nil => rfl
    | cons b rest => simp [hnext b rfl]
  rw [List.takeWhile_append_of_pos (by simpa using hw.not_blank), hrest, List.append_nil]

section
variable {column : Nat} {line : List Char} {t : Token}

theorem not_isWordOf_nil : ¬IsWordOf column [] t := by
  rintro ⟨before, after, hline, hrun, -⟩
  have hfront := (List.append_eq_nil_iff.1 hline.symm).1
  exact hrun.plain.ne_nil (List.append_eq_nil_iff.1 hfront).2

/-- A blank is no part of a word. -/
theorem isWordOf_cons_blank {b : Char} (hb : Text.isBlank b = true) :
    IsWordOf column (b :: line) t ↔ IsWordOf (column + 1) line t := by
  constructor
  · rintro ⟨before, after, hline, hrun, hcolumn⟩
    cases before with
    | nil =>
        obtain ⟨c, hc, hplain⟩ := hrun.plain.exists_head after
        rw [← List.nil_append t.text, ← hline] at hc
        obtain rfl : b = c := by simpa using hc
        rw [hb] at hplain
        cases hplain
    | cons a before =>
        obtain ⟨rfl, rfl⟩ := List.cons.inj hline
        refine ⟨before, after, rfl, hrun.of_append [b], ?_⟩
        rw [hcolumn, List.length_cons]
        omega
  · rintro ⟨before, after, rfl, hrun, hcolumn⟩
    refine ⟨b :: before, after, rfl, hrun.append [b] fun _ c hc => ?_, ?_⟩
    · obtain rfl : b = c := by simpa using hc
      exact hb
    · rw [hcolumn, List.length_cons]
      omega

/-- **What starts with a word** has it, and the words of the rest. -/
theorem isWordOf_append {w : List Char} (hw : IsPlainWord w)
    (hnext : ∀ c ∈ line.head?, Text.isBlank c = true) :
    IsWordOf column (w ++ line) t ↔ t = ⟨w, column⟩ ∨ IsWordOf (column + w.length) line t := by
  constructor
  · rintro ⟨before, after, hline, hrun, hcolumn⟩
    rw [List.append_assoc] at hline
    rcases List.append_eq_append_iff.1 hline with ⟨between, rfl, rfl⟩ | ⟨front, rfl, hfront⟩
    · refine .inr ⟨between, after, (List.append_assoc ..).symm, hrun.of_append w, ?_⟩
      rw [hcolumn, List.length_append, Nat.add_assoc]
    · -- nothing of the first word comes before: its last character would be blank
      have hbefore : before = [] := by
        rw [← List.getLast?_eq_none_iff, Option.eq_none_iff_forall_not_mem]
        intro c hc
        have hplain := hw.not_blank c (List.mem_append_left _ (List.mem_of_getLast? hc))
        rw [hrun.starts c hc] at hplain
        cases hplain
      subst hbefore
      have htext : t.text = front := by
        rw [← hrun.plain.takeWhile_append hrun.stops, hfront]
        exact hw.takeWhile_append hnext
      obtain ⟨text, first⟩ := t
      obtain rfl : text = front := htext
      obtain rfl : first = column := hcolumn
      exact .inl rfl
  · rintro (rfl | ⟨before, after, rfl, hrun, hcolumn⟩)
    · exact ⟨[], line, rfl, ⟨hw, by simp, hnext⟩, rfl⟩
    · refine ⟨w ++ before, after, by simp only [List.append_assoc], hrun.append w ?_, ?_⟩
      · -- two words with nothing between them would touch
        rintro rfl
        obtain ⟨d, hd, hplain⟩ := hrun.plain.exists_head after
        rw [hnext d hd] at hplain
        cases hplain
      · rw [hcolumn, List.length_append, Nat.add_assoc]

end

section
variable {column : Nat} {line : List Char} {ts : List Token}

/-- **A line is cut into its words.** -/
theorem Cut.mem_iff (h : Cut column line ts) {t : Token} : t ∈ ts ↔ IsWordOf column line t := by
  induction h with
  | nil => simp [not_isWordOf_nil]
  | blank hb _ ih => rw [ih, isWordOf_cons_blank hb]
  | word hw hnext _ ih => rw [List.mem_cons, ih, isWordOf_append hw hnext]

theorem Cut.le_column (h : Cut column line ts) {t : Token} (ht : t ∈ ts) : column ≤ t.column := by
  obtain ⟨before, -, -, -, hcolumn⟩ := h.mem_iff.1 ht
  omega

/-- The columns of words increase. -/
theorem Cut.pairwise (h : Cut column line ts) : ts.Pairwise (·.column < ·.column) := by
  induction h with
  | nil => exact .nil
  | blank _ _ ih => exact ih
  | word hw _ h ih =>
      refine .cons (fun t ht => ?_) ih
      have hpos := List.length_pos_of_ne_nil hw.ne_nil
      exact Nat.lt_of_lt_of_le (by simp only; omega) (h.le_column ht)

/-! ### Putting the words back -/

/-- Words put back at their columns, with blanks between them; the first blank or word comes in the
given column. -/
def putBack (column : Nat) (blanks : List Char) : List Token → List Char
  | [] => blanks
  | t :: ts =>
      blanks.take (t.column - column) ++ t.text ++
        putBack (t.column + t.text.length) (blanks.drop (t.column - column)) ts

/-- A blank comes first where no word starts. -/
theorem putBack_cons {b : Char} {blanks : List Char} (hts : ∀ t ∈ ts, column + 1 ≤ t.column) :
    putBack column (b :: blanks) ts = b :: putBack (column + 1) blanks ts := by
  cases ts with
  | nil => rfl
  | cons t ts =>
      have hle := hts t List.mem_cons_self
      have hgap : t.column - column = (t.column - (column + 1)) + 1 := by omega
      rw [putBack, putBack, hgap, List.take_succ_cons, List.drop_succ_cons, List.cons_append,
        List.cons_append]

/-- **No character is lost**: the words at their columns, with the blanks of the line between them,
are the line. -/
theorem Cut.putBack_eq (h : Cut column line ts) :
    putBack column (line.filter Text.isBlank) ts = line := by
  induction h with
  | nil => rfl
  | blank hb h ih =>
      rw [List.filter_cons_of_pos hb, putBack_cons fun t ht => h.le_column ht, ih]
  | word hw _ _ ih =>
      have hblanks : List.filter Text.isBlank _ = [] :=
        List.filter_eq_nil_iff.2 fun c hc => by rw [hw.not_blank c hc]; decide
      rw [List.filter_append, hblanks, List.nil_append, putBack, Nat.sub_self, List.take_zero,
        List.drop_zero, List.nil_append, ih]

end

/-! ### Counting bytes -/

/-- The slice of a line between two offsets, with the column it starts in. -/
def tokenAt? (line : List Char) (start stop : Nat) : Option Token := do
  let (front, _) ← Text.cutAt? stop line
  let (before, text) ← Text.cutAt? start front
  return ⟨text, before.length + 1⟩

/-- **One pass over the characters of a line**, from an offset on, with the offset where a word has
started.  It fails where it would slice inside a character. -/
def scan (line : List Char) (offset : Nat) : Option Nat → List Char → Option (List Token)
  | none, [] => some []
  | some start, [] => do
      let t ← tokenAt? line start (Text.byteSize line)
      return [t]
  | start, c :: rest =>
      match Text.isBlank c, start with
      | true, some start => do
          let t ← tokenAt? line start offset
          let ts ← scan line (offset + c.utf8Size) none rest
          return t :: ts
      | false, none => scan line (offset + c.utf8Size) (some offset) rest
      | _, start => scan line (offset + c.utf8Size) start rest

/-- **What a slice between two offsets gives**: what stands between a front part of the line with as
many bytes as the one says and one with as many as the other. -/
theorem tokenAt?_eq_some_iff {line : List Char} {start stop : Nat} {t : Token} :
    tokenAt? line start stop = some t ↔
      ∃ before after, line = before ++ t.text ++ after ∧ Text.byteSize before = start ∧
        Text.byteSize (before ++ t.text) = stop ∧ t.column = before.length + 1 := by
  rw [tokenAt?]
  simp only [Option.bind_eq_bind, Option.bind_eq_some_iff, Prod.exists, Text.cutAt?_eq_some_iff,
    Option.pure_def, Option.some_inj]
  constructor
  · rintro ⟨front, after, ⟨rfl, hstop⟩, before, text, ⟨rfl, hstart⟩, rfl⟩
    exact ⟨before, after, rfl, hstart, hstop, rfl⟩
  · rintro ⟨before, after, hline, hstart, hstop, hcolumn⟩
    exact ⟨before ++ t.text, after, ⟨hline, hstop⟩, before, t.text, ⟨rfl, hstart⟩,
      by rw [← hcolumn]⟩

section
variable {line rest : List Char} {offset start : Nat}

theorem scan_cons_blank {b : Char} (hb : Text.isBlank b = true) :
    scan line offset none (b :: rest) = scan line (offset + b.utf8Size) none rest := by
  simp only [scan, hb]

/-- Inside a word nothing happens. -/
theorem scan_append {w : List Char} (hw : ∀ c ∈ w, Text.isBlank c = false) :
    scan line offset (some start) (w ++ rest) =
      scan line (offset + Text.byteSize w) (some start) rest := by
  induction w generalizing offset with
  | nil => rfl
  | cons c w ih =>
      obtain ⟨hc, hw⟩ := List.forall_mem_cons.1 hw
      rw [Text.byteSize_cons, ← Nat.add_assoc, ← ih hw]
      simp only [List.cons_append, scan, hc]

/-- A word stops at a blank, or at the end. -/
theorem scan_some (hnext : ∀ c ∈ rest.head?, Text.isBlank c = true)
    (hend : rest = [] → offset = Text.byteSize line) :
    scan line offset (some start) rest =
      (do
        let t ← tokenAt? line start offset
        let ts ← scan line offset none rest
        return t :: ts) := by
  cases rest with
  | nil => rw [scan, scan, hend rfl]; rfl
  | cons b rest =>
      have hb := hnext b rfl
      simp only [scan, hb]

/-- **A word is sliced as a whole**, whatever follows. -/
theorem scan_word {before w rest : List Char} (hw : IsPlainWord w)
    (hnext : ∀ c ∈ rest.head?, Text.isBlank c = true) :
    scan (before ++ w ++ rest) (Text.byteSize before) none (w ++ rest) =
      (scan (before ++ w ++ rest) (Text.byteSize (before ++ w)) none rest).map
        (⟨w, before.length + 1⟩ :: ·) := by
  obtain ⟨c, cs, rfl⟩ := List.exists_cons_of_ne_nil hw.ne_nil
  obtain ⟨hc, hcs⟩ := List.forall_mem_cons.1 hw.not_blank
  have hstart : scan (before ++ (c :: cs) ++ rest) (Text.byteSize before) none (c :: cs ++ rest) =
      scan (before ++ (c :: cs) ++ rest) (Text.byteSize before + c.utf8Size)
        (some (Text.byteSize before)) (cs ++ rest) := by
    simp only [List.cons_append, scan, hc]
  have hoffset : Text.byteSize before + c.utf8Size + Text.byteSize cs =
      Text.byteSize (before ++ c :: cs) := by
    rw [Text.byteSize_append, Text.byteSize_cons, Nat.add_assoc]
  have hslice : tokenAt? (before ++ (c :: cs) ++ rest) (Text.byteSize before)
      (Text.byteSize (before ++ c :: cs)) = some ⟨c :: cs, before.length + 1⟩ :=
    tokenAt?_eq_some_iff.2 ⟨before, rest, rfl, rfl, rfl, rfl⟩
  rw [hstart, scan_append hcs, hoffset, scan_some hnext (by rintro rfl; rw [List.append_nil]),
    hslice]
  cases scan (before ++ (c :: cs) ++ rest) (Text.byteSize (before ++ c :: cs)) none rest <;> rfl

end

/-- **Counting bytes finds the words that a line is cut into.** -/
theorem Cut.scan_eq {column : Nat} {rest : List Char} {ts : List Token} (h : Cut column rest ts)
    (before : List Char) (hcolumn : column = before.length + 1) :
    scan (before ++ rest) (Text.byteSize before) none rest = some ts := by
  induction h generalizing before with
  | nil => rfl
  | @blank column b rest ts hb _ ih =>
      have hrest := ih (before ++ [b]) (by simp [hcolumn])
      rw [List.append_assoc, List.singleton_append, Text.byteSize_append,
        Text.byteSize_cons, Text.byteSize_nil, Nat.add_zero] at hrest
      rw [scan_cons_blank hb]
      exact hrest
  | @word column w rest ts hw hnext _ ih =>
      have hrest := ih (before ++ w) (by rw [hcolumn, List.length_append]; omega)
      rw [← List.append_assoc, scan_word hw hnext, hrest, hcolumn, Option.map_some]

/-! ### The scanner of a line -/

/-- **The scanner of a line is exact.**  It finds the longest stretches without a blank, in order
and with the columns that they start in, and nothing else; none is empty, and each is what the line
has behind the characters in front of its column.  The words at their columns and the blanks of the
line make up the line, and a pass that counts bytes finds the same words. -/
theorem tokens_are_maximal_runs (line : List Char) :
    (∀ ts, ts = tokens line ↔
        ts.Pairwise (·.column < ·.column) ∧ ∀ t, t ∈ ts ↔ IsWordOf 1 line t) ∧
      (∀ t ∈ tokens line, t.text ≠ [] ∧ 1 ≤ t.column ∧ t.text <+: line.drop (t.column - 1)) ∧
      putBack 1 (line.filter Text.isBlank) (tokens line) = line ∧
      scan line 0 none line = some (tokens line) := by
  have hcut := cut_tokens line
  refine ⟨fun ts => ⟨?_, ?_⟩, fun t ht => ?_, hcut.putBack_eq, hcut.scan_eq [] rfl⟩
  · rintro rfl
    exact ⟨hcut.pairwise, fun t => hcut.mem_iff⟩
  · rintro ⟨hsorted, hmem⟩
    have : Std.Asymm fun t u : Token => t.column < u.column := ⟨fun _ _ h => Nat.lt_asymm h⟩
    exact hsorted.eq_of_mem_iff hcut.pairwise fun t => by rw [hmem, hcut.mem_iff]
  · obtain ⟨before, after, rfl, hrun, hcolumn⟩ := hcut.mem_iff.1 ht
    refine ⟨hrun.plain.ne_nil, by omega, ?_⟩
    rw [hcolumn, Nat.add_sub_cancel_left, List.append_assoc, List.drop_left]
    exact List.prefix_append _ _

/-- A blank of three bytes, and a word and a blank of two: the last word is behind six characters
and ten bytes. -/
example : tokens "4\u3000\u00e9\u00a01 0".toList =
    [⟨['4'], 1⟩, ⟨['\u00e9'], 3⟩, ⟨['1'], 5⟩, ⟨['0'], 7⟩] := by
  decide

end WeightedSat.Dimacs
