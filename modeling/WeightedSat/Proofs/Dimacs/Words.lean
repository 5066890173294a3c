import Mathlib.Data.List.SplitBy
import WeightedSat.Dimacs.Token
import WeightedSat.Text.Lines

/-!
**Lines and words by cutting.**

A text is cut at its line feeds, and a line at its blanks; what is empty is dropped.  This is how a
clause file is meant to be read: it says nothing of columns, of carriage returns or of how a line
is scanned.  This module states it and proves that the scanner of lines finds the same words.

Both ways of cutting have one law that the rest of the theory uses: cutting at a separator gives
what the two sides give, one after the other.

Main definitions:

* `WeightedSat.Dimacs.wordsOf` — the words of a line;
* `WeightedSat.Dimacs.wordLines` — the lines of a text that have a word, as words;
* `WeightedSat.Dimacs.Cut` — **how a line is cut into words and their columns**.

Main results:

* `WeightedSat.Dimacs.wordsOf_append_blank`, `WeightedSat.Dimacs.wordLines_append_feed` — cutting at
  a separator;
* `WeightedSat.Dimacs.wordLines_spaced` — a line made of words;
* `WeightedSat.Dimacs.cut_tokens` — **the scanner of a line cuts it into words**;
* `WeightedSat.Dimacs.map_text_tokens` — the words it finds are those that cutting finds;
* `WeightedSat.Dimacs.wordLines_eq_lines` — the lines that are read are the lines with a word.
-/

set_option relaxedAutoImplicit false
set_option autoImplicit false

namespace WeightedSat.Dimacs

/-- The words of a line: what stands between its blanks. -/
def wordsOf (line : List Char) : List (List Char) :=
  (line.splitOnP Text.isBlank).filter (!·.isEmpty)

/-- The lines of a text that have a word, as words: what stands between its feeds. -/
def wordLines (text : List Char) : List (List (List Char)) :=
  ((text.splitOn '\n').map wordsOf).filter (!·.isEmpty)

/-! ### Cutting at a separator -/

@[simp] theorem wordsOf_nil : wordsOf [] = [] := rfl

/-- **A blank cuts a line in two.** -/
theorem wordsOf_append_blank {b : Char} (hb : Text.isBlank b = true) (xs ys : List Char) :
    wordsOf (xs ++ b :: ys) = wordsOf xs ++ wordsOf ys := by
  rw [wordsOf, List.splitOnP_append_cons _ _ hb, List.filter_append, wordsOf, wordsOf]

theorem wordsOf_cons_blank {b : Char} (hb : Text.isBlank b = true) (ys : List Char) :
    wordsOf (b :: ys) = wordsOf ys :=
  wordsOf_append_blank hb [] ys

theorem wordsOf_blanks_append {bs : List Char} (hbs : ∀ b ∈ bs, Text.isBlank b = true)
    (ys : List Char) : wordsOf (bs ++ ys) = wordsOf ys := by
  induction bs with
  | nil => rfl
  | cons b bs ih =>
      rw [List.cons_append, wordsOf_cons_blank (hbs b List.mem_cons_self),
        ih fun c hc => hbs c (List.mem_cons_of_mem b hc)]

/-- What has no blank is a word. -/
theorem wordsOf_word {w : List Char} (hne : w ≠ []) (hw : ∀ c ∈ w, Text.isBlank c = false) :
    wordsOf w = [w] := by
  rw [wordsOf, List.splitOnP_eq_singleton hw]
  simp [hne]

/-- A word in front of a blank. -/
theorem wordsOf_word_append {w : List Char} (hne : w ≠ []) (hw : ∀ c ∈ w, Text.isBlank c = false)
    {b : Char} (hb : Text.isBlank b = true) (ys : List Char) :
    wordsOf (w ++ b :: ys) = w :: wordsOf ys := by
  rw [wordsOf_append_blank hb, wordsOf_word hne hw, List.singleton_append]

@[simp] theorem wordLines_nil : wordLines [] = [] := rfl

/-- **A feed cuts a text in two.** -/
theorem wordLines_append_feed (xs ys : List Char) :
    wordLines (xs ++ '\n' :: ys) = wordLines xs ++ wordLines ys := by
  rw [wordLines, List.splitOn_append_cons_self, List.map_append, List.filter_append, wordLines,
    wordLines]

/-- A line with a word on it. -/
theorem wordLines_line {line : List Char} (hfeed : '\n' ∉ line) (hne : wordsOf line ≠ []) :
    wordLines line = [wordsOf line] := by
  rw [wordLines, List.splitOn_eq_singleton hfeed]
  simp [hne]

/-! ### Lines made of words -/

/-- Characters that make up one word. -/
structure IsPlainWord (w : List Char) : Prop where
  ne_nil : w ≠ []
  not_blank : ∀ c ∈ w, Text.isBlank c = false

theorem isPlainWord_iff {w : List Char} :
    IsPlainWord w ↔ (!w.isEmpty && w.all (!Text.isBlank ·)) = true := by
  rw [Bool.and_eq_true_iff, List.all_eq_true]
  constructor
  · intro h
    exact ⟨by simpa using h.ne_nil, fun c hc => by simpa using h.not_blank c hc⟩
  · rintro ⟨hne, hall⟩
    exact ⟨by simpa using hne, fun c hc => by simpa using hall c hc⟩

instance (w : List Char) : Decidable (IsPlainWord w) :=
  decidable_of_iff _ isPlainWord_iff.symm

/-- Words with a space behind each, and a last word. -/
theorem wordsOf_spaced {ws : List (List Char)} {last : List Char} (hws : ∀ w ∈ ws, IsPlainWord w)
    (hlast : IsPlainWord last) : wordsOf (ws.flatMap (· ++ [' ']) ++ last) = ws ++ [last] := by
  induction ws with
  | nil => exact wordsOf_word hlast.ne_nil hlast.not_blank
  | cons w ws ih =>
      have hw := hws w List.mem_cons_self
      rw [List.flatMap_cons, List.append_assoc, List.append_assoc, List.singleton_append,
        wordsOf_word_append hw.ne_nil hw.not_blank (by decide),
        ih fun v hv => hws v (List.mem_cons_of_mem w hv), List.cons_append]

/-- **A line made of words** has these words. -/
theorem wordLines_spaced {ws : List (List Char)} {last : List Char}
    (hws : ∀ w ∈ ws, IsPlainWord w) (hlast : IsPlainWord last) (rest : List Char) :
    wordLines (ws.flatMap (· ++ [' ']) ++ last ++ '\n' :: rest) =
      (ws ++ [last]) :: wordLines rest := by
  have hwords := wordsOf_spaced hws hlast
  have hfeed : '\n' ∉ ws.flatMap (· ++ [' ']) ++ last := by
    have hplain : ∀ w, IsPlainWord w → '\n' ∉ w := by
      intro w hw hmem
      have hblank := hw.not_blank '\n' hmem
      exact absurd hblank (by decide)
    intro hmem
    rcases List.mem_append.1 hmem with hmem | hmem
    · obtain ⟨w, hw, hmem⟩ := List.mem_flatMap.1 hmem
      rcases List.mem_append.1 hmem with hmem | hmem
      · exact hplain w (hws w hw) hmem
      · exact absurd hmem (by decide)
    · exact hplain last hlast hmem
  rw [wordLines_append_feed, wordLines_line hfeed (by simp [hwords]), hwords,
    List.singleton_append]

/-! ### The scanner of a line -/

/-- Runs of one kind each, of both kinds in turn. -/
structure Alternating (rs : List (List Char)) : Prop where
  ne_nil : ∀ r ∈ rs, r ≠ []
  uniform : ∀ r ∈ rs, ∃ b, ∀ c ∈ r, Text.isBlank c = b
  turns : rs.IsChain fun r s => ∀ c ∈ r, ∀ d ∈ s, Text.isBlank c ≠ Text.isBlank d

theorem Alternating.tail {r : List Char} {rs : List (List Char)} (h : Alternating (r :: rs)) :
    Alternating rs :=
  ⟨fun s hs => h.ne_nil s (List.mem_cons_of_mem r hs),
    fun s hs => h.uniform s (List.mem_cons_of_mem r hs), h.turns.tail⟩

/-- A chain of characters of the same kind is of one kind. -/
theorem exists_isBlank_eq {r : List Char}
    (h : r.IsChain fun a b => (Text.isBlank a == Text.isBlank b) = true) :
    ∃ b, ∀ c ∈ r, Text.isBlank c = b := by
  cases r with
  | nil => exact ⟨true, by simp⟩
  | cons a r =>
      refine ⟨Text.isBlank a, ?_⟩
      induction r generalizing a with
      | nil => simp
      | cons b r ih =>
          obtain ⟨hab, hchain⟩ := List.isChain_cons_cons.1 h
          intro c hc
          rcases List.mem_cons.1 hc with rfl | hc
          · rfl
          · rw [ih b hchain c hc, eq_of_beq hab]

theorem alternating_runs (line : List Char) : Alternating (runs line) where
  ne_nil _ hr := List.ne_nil_of_mem_splitBy hr
  uniform _ hr := exists_isBlank_eq (List.isChain_of_mem_splitBy hr)
  turns := by
    have huniform : ∀ r ∈ runs line, ∃ b, ∀ c ∈ r, Text.isBlank c = b :=
      fun _ hr => exists_isBlank_eq (List.isChain_of_mem_splitBy hr)
    refine (List.isChain_getLast_head_splitBy _ line).imp_of_mem_imp ?_
    rintro r s hr hs ⟨hrne, hsne, hturn⟩ c hc d hd
    obtain ⟨b, hb⟩ := huniform r hr
    obtain ⟨b', hb'⟩ := huniform s hs
    rw [hb _ (List.getLast_mem hrne), hb' _ (List.head_mem hsne)] at hturn
    rw [hb c hc, hb' d hd]
    exact beq_eq_false_iff_ne.1 hturn

/-- **A line cut into words**, its first character standing in the given column: a blank is passed
over, and a word goes on to the next blank or to the end. -/
inductive Cut : Nat → List Char → List Token → Prop
  /-- Nothing is left. -/
  | nil (column : Nat) : Cut column [] []
  /-- A blank comes first. -/
  | blank {column : Nat} {b : Char} {line : List Char} {ts : List Token}
      (hb : Text.isBlank b = true) (h : Cut (column + 1) line ts) : Cut column (b :: line) ts
  /-- A word comes first. -/
  | word {column : Nat} {w line : List Char} {ts : List Token} (hw : IsPlainWord w)
      (hnext : ∀ c ∈ line.head?, Text.isBlank c = true) (h : Cut (column + w.length) line ts) :
      Cut column (w ++ line) (⟨w, column⟩ :: ts)

theorem Cut.blanks {column : Nat} {bs line : List Char} {ts : List Token}
    (hbs : ∀ b ∈ bs, Text.isBlank b = true) (h : Cut (column + bs.length) line ts) :
    Cut column (bs ++ line) ts := by
  induction bs generalizing column with
  | nil => exact h
  | cons b bs ih =>
      have hrest : Cut (column + 1) (bs ++ line) ts := by
        refine ih (fun c hc => hbs c (List.mem_cons_of_mem b hc)) ?_
        rwa [Nat.add_assoc, Nat.add_comm 1]
      exact .blank (hbs b List.mem_cons_self) hrest

/-- Runs in turn are cut where their kind changes. -/
theorem Alternating.cut {rs : List (List Char)} (h : Alternating rs) (column : Nat) :
    Cut column rs.flatten (place [] column rs) := by
  induction rs generalizing column with
  | nil => exact .nil column
  | cons r rs ih =>
      have hne := h.ne_nil r List.mem_cons_self
      obtain ⟨b, hb⟩ := h.uniform r List.mem_cons_self
      rw [List.flatten_cons, place, place_eq_append]
      cases b with
      | true =>
          -- a run of blanks: its first character shows that it is no word
          have hword : isWord r = false := by
            obtain ⟨c, cs, rfl⟩ := List.exists_cons_of_ne_nil hne
            simp [isWord, hb c List.mem_cons_self]
          rw [hword]
          exact .blanks hb (ih h.tail _)
      | false =>
          have hword : isWord r = true := by
            rw [isWord, List.all_eq_true]
            intro c hc
            rw [hb c hc, Bool.not_false]
          rw [hword]
          refine .word ⟨hne, hb⟩ ?_ (ih h.tail _)
          intro d hd
          cases rs with
          | nil => cases hd
          | cons s rs =>
              -- the next run starts with a blank, which ends the word
              have hnes := h.ne_nil s (List.mem_cons_of_mem r List.mem_cons_self)
              obtain ⟨c, cs, rfl⟩ := List.exists_cons_of_ne_nil hne
              obtain ⟨e, es, rfl⟩ := List.exists_cons_of_ne_nil hnes
              obtain rfl : e = d := by simpa using hd
              have hturn := (List.isChain_cons_cons.1 h.turns).1 c List.mem_cons_self e
                List.mem_cons_self
              rw [hb c List.mem_cons_self] at hturn
              simpa using hturn.symm

/-- **The scanner cuts a line into words**, from the first column on. -/
theorem cut_tokens (line : List Char) : Cut 1 line (tokens line) := by
  have hcut := (alternating_runs line).cut 1
  rwa [runs, List.flatten_splitBy] at hcut

theorem Cut.map_text {column : Nat} {line : List Char} {ts : List Token} (h : Cut column line ts) :
    ts.map (·.text) = wordsOf line := by
  induction h with
  | nil => rfl
  | blank hb _ ih => rw [ih, wordsOf_cons_blank hb]
  | @word _ _ line _ hw hnext _ ih =>
      rw [List.map_cons, ih]
      cases line with
      | nil => rw [List.append_nil, wordsOf_word hw.ne_nil hw.not_blank, wordsOf_nil]
      | cons b line =>
          have hb := hnext b rfl
          rw [wordsOf_word_append hw.ne_nil hw.not_blank hb, wordsOf_cons_blank hb]

/-- **The scanner of a line finds its words.** -/
theorem map_text_tokens (line : List Char) : (tokens line).map (·.text) = wordsOf line :=
  (cut_tokens line).map_text

/-! ### The lines of a text -/

theorem pieces_eq_splitOn (feed : Char) (text : List Char) :
    Text.pieces feed text = text.splitOn feed := by
  induction text with
  | nil => rw [Text.pieces_nil, List.splitOn_nil]
  | cons c text ih =>
      rw [Text.pieces_cons, List.splitOn_cons_eq_if_modifyHead, ih]
      obtain ⟨p, ps, hps⟩ := List.exists_cons_of_ne_nil (List.splitOn_ne_nil feed text)
      rw [hps]
      by_cases hc : c = feed
      · simp [hc]
      · simp [hc, Text.onFirst]

/-- The carriage return that is removed is a blank. -/
theorem wordsOf_chomp (line : List Char) : wordsOf (Text.chomp '\r' line) = wordsOf line := by
  rw [Text.chomp]
  split
  · rename_i hlast
    obtain ⟨init, rfl⟩ := List.getLast?_eq_some_iff.1 hlast
    rw [List.dropLast_concat, wordsOf_append_blank (by decide), wordsOf_nil, List.append_nil]
  · rfl

/-- **The lines that are read, as far as they have a word**, are what stands between the feeds. -/
theorem wordLines_eq_lines (text : List Char) :
    wordLines text = ((Text.lines text).map wordsOf).filter (!·.isEmpty) := by
  have hlast : ∀ line : List Char,
      (([line].filter (!·.isEmpty)).map wordsOf).filter (!·.isEmpty) =
        ([line].map wordsOf).filter (!·.isEmpty) := by
    intro line
    cases line <;> simp
  obtain ⟨init, last, hpieces⟩ : ∃ init last, text.splitOn '\n' = init ++ [last] :=
    ⟨_, _, (List.dropLast_append_getLast (List.splitOn_ne_nil '\n' text)).symm⟩
  rw [wordLines, Text.lines, Text.linesOf, pieces_eq_splitOn, hpieces, List.dropLast_concat,
    List.getLast?_concat, Option.toList_some, List.map_append, List.filter_append, List.map_append,
    List.filter_append, hlast, List.map_map]
  simp only [Function.comp_def, wordsOf_chomp]

end WeightedSat.Dimacs
