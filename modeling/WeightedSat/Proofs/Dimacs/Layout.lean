import Mathlib.Data.List.TakeWhile
import Mathlib.Logic.Relation
import WeightedSat.Proofs.Dimacs.Acceptance

/-!
**The layout of a clause file is irrelevant.**

The words of the clauses may stand on any lines, with any blanks between them; blank lines and
blanks around lines mean nothing, and comments may be put in and taken out where no clause is open.
These edits of a text are described here as they are made, character by character.  None of them
changes what is read: a line that is broken, or joined with the next one, is read word by word
either way, and no word of a clause can be taken for the mark of a comment or of a problem line.

Main definitions:

* `WeightedSat.Dimacs.readUpTo`, `WeightedSat.Dimacs.NoClauseOpen` — what is read of the first lines
  of a text, and where no clause is open;
* `WeightedSat.Dimacs.Edit` — **one edit of the layout**;
* `WeightedSat.Dimacs.Relaid` — texts that edits turn into each other.

Main results:

* `WeightedSat.Dimacs.lineStep_iff_run` — a line of clauses is read word by word;
* `WeightedSat.Dimacs.Edit.run_iff` — what one edit keeps;
* `WeightedSat.Dimacs.parse_eq_ok_of_relaid` — **a text in another layout is read as the same
  formula**.
-/

set_option relaxedAutoImplicit false
set_option autoImplicit false

namespace WeightedSat.Dimacs

/-! ### Edits -/

/-- Characters that are part of no word. -/
def AreBlanks (blanks : List Char) : Prop :=
  ∀ b ∈ blanks, Text.isBlank b = true

/-- Whole lines, each with its feed. -/
def AreLines (text : List Char) : Prop :=
  ∀ a ∈ text.getLast?, a = '\n'

/-- What follows the last character of a line: its feed, or nothing. -/
def FollowsLine (text : List Char) : Prop :=
  ∀ a ∈ text.head?, a = '\n'

instance (blanks : List Char) : Decidable (AreBlanks blanks) :=
  decidable_of_iff (blanks.all Text.isBlank = true) List.all_eq_true

instance (text : List Char) : Decidable (AreLines text) :=
  decidable_of_iff (text.getLast?.all (· = '\n') = true) (by simp [AreLines, Option.all_eq_true])

instance (text : List Char) : Decidable (FollowsLine text) :=
  decidable_of_iff (text.head?.all (· = '\n') = true) (by simp [FollowsLine, Option.all_eq_true])

/-- The words of a line that has none, or is neither a comment nor a problem line. -/
def IsUnmarked (line : List (List Char)) : Prop :=
  ∀ first ∈ line.head?, ∀ a, IsMark a → first.head? ≠ some a

/-- The beginning of a line of clauses, with a word on it. -/
structure StartsClauseLine (line : List Char) : Prop where
  feed_notMem : '\n' ∉ line
  ne_nil : wordsOf line ≠ []
  unmarked : IsUnmarked (wordsOf line)

/-- A text that starts with a word of a clause. -/
def StartsWord (text : List Char) : Prop :=
  ∃ a rest, text = a :: rest ∧ Text.isBlank a = false ∧ ¬ IsMark a

/-- What is read of the lines of a text. -/
def readUpTo (text : List Char) : Except Error Progress :=
  (((Text.lines text).map .ok).zipIdx 1).foldlM (fun p line => Progress.line p line.1 line.2)
    Progress.start

/-- The lines of a text are read, and no clause is open behind them. -/
def NoClauseOpen (text : List Char) : Prop :=
  ∃ p, readUpTo text = .ok p ∧ p.pending = none

/-- **One edit of the layout.** -/
inductive Edit : List Char → List Char → Prop
  /-- The blanks between two words of clauses become other ones.  Either of them may hold line
  feeds, so that lines are broken and joined. -/
  | respace (before line gap gap' after : List Char) (hbefore : AreLines before)
      (hline : StartsClauseLine line) (hgap : gap ≠ [] ∧ AreBlanks gap)
      (hgap' : gap' ≠ [] ∧ AreBlanks gap') (hafter : StartsWord after) :
      Edit (before ++ line ++ gap ++ after) (before ++ line ++ gap' ++ after)
  /-- Blanks are added at the beginning or at the end of a line, and with feeds among them blank
  lines. -/
  | pad (before blanks after : List Char) (hedge : AreLines before ∨ FollowsLine after)
      (hblanks : AreBlanks blanks) : Edit (before ++ after) (before ++ blanks ++ after)
  /-- A comment is put in where no clause is open. -/
  | comment (before line after : List Char) (hbefore : AreLines before)
      (hclosed : NoClauseOpen before) (hfeed : '\n' ∉ line)
      (hcomment : isComment (wordsOf line) = true) :
      Edit (before ++ after) (before ++ line ++ '\n' :: after)

/-- **Texts that edits turn into each other**, made or undone one after the other. -/
def Relaid : List Char → List Char → Prop :=
  Relation.EqvGen Edit

/-! ### The first and the last line of a text -/

/-- Whatever stands in front of a text, it is cut at the end of the first line. -/
theorem exists_firstLine (text : List Char) :
    ∃ line rest, '\n' ∉ line ∧ (text.head? ≠ some '\n' → line.head? = text.head?) ∧
      ∀ xs, wordLines (xs ++ text) = wordLines (xs ++ line) ++ wordLines rest := by
  induction text with
  | nil => exact ⟨[], [], by simp, fun _ => rfl, by simp⟩
  | cons a text ih =>
      by_cases ha : a = '\n'
      · subst ha
        refine ⟨[], text, by simp, fun h => absurd rfl h, fun xs => ?_⟩
        rw [wordLines_append_feed, List.append_nil]
      · obtain ⟨line, rest, hfeed, -, hcut⟩ := ih
        refine ⟨a :: line, rest, by simp [Ne.symm ha, hfeed], fun _ => rfl, fun xs => ?_⟩
        have hcut' := hcut (xs ++ [a])
        rwa [List.append_assoc, List.append_assoc] at hcut'

/-- Whatever stands behind a text, it is cut at the beginning of the last line. -/
theorem exists_lastLine (text : List Char) :
    ∃ done line, '\n' ∉ line ∧
      ∀ ys, wordLines (text ++ ys) = wordLines done ++ wordLines (line ++ ys) := by
  induction text using List.reverseRecOn with
  | nil => exact ⟨[], [], by simp, by simp⟩
  | append_singleton text a ih =>
      by_cases ha : a = '\n'
      · subst ha
        refine ⟨text, [], by simp, fun ys => ?_⟩
        rw [List.append_assoc, List.singleton_append, wordLines_append_feed, List.nil_append]
      · obtain ⟨done, line, hfeed, hcut⟩ := ih
        refine ⟨done, line ++ [a], by simp [Ne.symm ha, hfeed], fun ys => ?_⟩
        rw [List.append_assoc, hcut, List.append_assoc]

theorem wordLines_of_notMem {line : List Char} (h : '\n' ∉ line) :
    wordLines line = [wordsOf line].filter (!·.isEmpty) := by
  rw [wordLines, List.splitOn_eq_singleton h]
  rfl

/-- Whole lines are cut off in front of any text. -/
theorem AreLines.wordLines_append {before : List Char} (h : AreLines before) (ys : List Char) :
    wordLines (before ++ ys) = wordLines before ++ wordLines ys := by
  rcases List.eq_nil_or_concat before with rfl | ⟨lines, a, rfl⟩
  · rfl
  · obtain rfl : a = '\n' := h a (by simp)
    rw [List.concat_eq_append, List.append_assoc, List.singleton_append, wordLines_append_feed,
      wordLines_append_feed, wordLines_nil, List.append_nil]

/-- What follows a line is cut off behind any text. -/
theorem FollowsLine.wordLines_append {after : List Char} (h : FollowsLine after)
    (xs : List Char) : wordLines (xs ++ after) = wordLines xs ++ wordLines after := by
  cases after with
  | nil => simp
  | cons a after =>
      obtain rfl : a = '\n' := h a rfl
      rw [wordLines_append_feed, ← List.nil_append ('\n' :: after), wordLines_append_feed,
        wordLines_nil, List.nil_append]

/-! ### Blanks around lines -/

theorem wordLines_cons_blank {b : Char} (hb : Text.isBlank b = true) (ys : List Char) :
    wordLines (b :: ys) = wordLines ys := by
  by_cases hfeed : b = '\n'
  · subst hfeed
    exact wordLines_append_feed [] ys
  · obtain ⟨line, rest, hline, -, hcut⟩ := exists_firstLine ys
    have hcut₀ := hcut []
    have hcut₁ := hcut [b]
    rw [List.singleton_append, List.singleton_append] at hcut₁
    have hpadded : '\n' ∉ b :: line := by simp [Ne.symm hfeed, hline]
    rw [hcut₁, ← List.nil_append ys, hcut₀, List.nil_append, wordLines_of_notMem hline,
      wordLines_of_notMem hpadded, wordsOf_cons_blank hb]

theorem wordLines_concat_blank {b : Char} (hb : Text.isBlank b = true) (xs : List Char) :
    wordLines (xs ++ [b]) = wordLines xs := by
  by_cases hfeed : b = '\n'
  · subst hfeed
    rw [wordLines_append_feed, wordLines_nil, List.append_nil]
  · obtain ⟨done, line, hline, hcut⟩ := exists_lastLine xs
    have hcut₀ := hcut []
    rw [List.append_nil, List.append_nil] at hcut₀
    have hpadded : '\n' ∉ line ++ [b] := by simp [Ne.symm hfeed, hline]
    rw [hcut, hcut₀, wordLines_of_notMem hline, wordLines_of_notMem hpadded,
      wordsOf_append_blank hb, wordsOf_nil, List.append_nil]

/-- Blanks in front of a text mean nothing. -/
theorem AreBlanks.wordLines_append {blanks : List Char} (h : AreBlanks blanks) (ys : List Char) :
    wordLines (blanks ++ ys) = wordLines ys := by
  induction blanks with
  | nil => rfl
  | cons b blanks ih =>
      obtain ⟨hb, hblanks⟩ := List.forall_mem_cons.1 h
      rw [List.cons_append, wordLines_cons_blank hb, ih hblanks]

/-- Blanks behind a text mean nothing. -/
theorem AreBlanks.append_wordLines {blanks : List Char} (h : AreBlanks blanks) (xs : List Char) :
    wordLines (xs ++ blanks) = wordLines xs := by
  induction blanks generalizing xs with
  | nil => rw [List.append_nil]
  | cons b blanks ih =>
      obtain ⟨hb, hblanks⟩ := List.forall_mem_cons.1 h
      rw [← List.singleton_append, ← List.append_assoc, ih hblanks, wordLines_concat_blank hb]

/-- Blanks at the beginning or at the end of a line mean nothing. -/
theorem wordLines_pad {before blanks after : List Char}
    (hedge : AreLines before ∨ FollowsLine after) (hblanks : AreBlanks blanks) :
    wordLines (before ++ blanks ++ after) = wordLines (before ++ after) := by
  rcases hedge with hbefore | hafter
  · rw [List.append_assoc, hbefore.wordLines_append, hblanks.wordLines_append,
      hbefore.wordLines_append]
  · rw [hafter.wordLines_append, hblanks.append_wordLines, hafter.wordLines_append]

/-! ### Lines that are broken and joined -/

/-- A word starts with the first character that is no blank. -/
theorem exists_wordsOf_eq_cons {a : Char} (ha : Text.isBlank a = false) (rest : List Char) :
    ∃ w ws, wordsOf (a :: rest) = (a :: w) :: ws := by
  obtain ⟨w, hw⟩ : ∃ w, rest.takeWhile (!Text.isBlank ·) = w := ⟨_, rfl⟩
  have hword : ∀ c ∈ a :: w, Text.isBlank c = false := by
    refine List.forall_mem_cons.2 ⟨ha, fun c hc => ?_⟩
    rw [← hw] at hc
    simpa using List.mem_takeWhile_imp hc
  have hsplit := rest.takeWhile_append_dropWhile (p := (!Text.isBlank ·))
  rw [hw] at hsplit
  cases hdrop : rest.dropWhile (!Text.isBlank ·) with
  | nil =>
      rw [hdrop, List.append_nil] at hsplit
      subst hsplit
      exact ⟨w, [], wordsOf_word (List.cons_ne_nil a w) hword⟩
  | cons b ys =>
      have hb : Text.isBlank b = true := by
        have hhead := List.head?_dropWhile_not (!Text.isBlank ·) rest
        rw [hdrop] at hhead
        simpa using hhead
      rw [hdrop] at hsplit
      subst hsplit
      exact ⟨w, wordsOf ys, wordsOf_word_append (List.cons_ne_nil a w) hword hb ys⟩

/-- Blanks between two parts of a line leave it as it is, or break it. -/
theorem wordLines_gap {line gap rest : List Char} (hline : '\n' ∉ line) (hrest : '\n' ∉ rest)
    (hne : wordsOf line ≠ []) (hne' : wordsOf rest ≠ []) (hgap : gap ≠ [])
    (hblanks : AreBlanks gap) :
    wordLines (line ++ gap ++ rest) = [wordsOf line ++ wordsOf rest] ∨
      wordLines (line ++ gap ++ rest) = [wordsOf line, wordsOf rest] := by
  by_cases hfeed : '\n' ∈ gap
  · right
    obtain ⟨left, right, rfl⟩ := List.append_of_mem hfeed
    obtain ⟨hleft, hright⟩ := List.forall_mem_append.1 hblanks
    rw [← List.append_assoc, List.append_assoc, List.cons_append, wordLines_append_feed,
      AreBlanks.append_wordLines hleft,
      AreBlanks.wordLines_append fun b hb => hright b (List.mem_cons_of_mem _ hb),
      wordLines_line hline hne, wordLines_line hrest hne', List.singleton_append]
  · left
    obtain ⟨b, blanks, rfl⟩ := List.exists_cons_of_ne_nil hgap
    obtain ⟨hb, hblanks⟩ := List.forall_mem_cons.1 hblanks
    have hwords : wordsOf (line ++ b :: blanks ++ rest) = wordsOf line ++ wordsOf rest := by
      rw [List.append_assoc, List.cons_append, wordsOf_append_blank hb,
        wordsOf_blanks_append hblanks]
    rw [wordLines_line (by simp_all) (by rw [hwords]; simp [hne]), hwords]

/-- **A line of clauses is read word by word.** -/
theorem lineStep_iff_run {r r' : Reading} {line : List (List Char)} (h : IsUnmarked line) :
    LineStep r line r' ↔ Run WordStep r line r' := by
  constructor
  · intro hstep
    cases hstep with
    | comment _ hfirst => exact absurd hfirst (h _ rfl 'c' (Or.inl rfl))
    | problem _ _ hline => exact absurd rfl (h _ hline.head?_eq 'p' (Or.inr rfl))
    | words _ hwords => exact hwords
  · exact .words fun _ => h

theorem run_append_iff {σ α : Type} {step : σ → α → σ → Prop} {s u : σ} {as bs : List α} :
    Run step s (as ++ bs) u ↔ ∃ t, Run step s as t ∧ Run step t bs u :=
  ⟨Run.split, fun ⟨_, hleft, hright⟩ => hleft.append hright⟩

theorem run_singleton_iff {σ α : Type} {step : σ → α → σ → Prop} {s t : σ} {a : α} :
    Run step s [a] t ↔ step s a t := by
  constructor
  · intro h
    cases h with
    | cons hstep hrest =>
        cases hrest
        exact hstep
  · exact fun h => .cons h (.nil t)

/-- A line of clauses may be broken, and joined with the next one. -/
theorem run_joined_iff {r r' : Reading} {line rest : List (List Char)} (hne : line ≠ [])
    (hline : IsUnmarked line) (hrest : IsUnmarked rest) :
    Run LineStep r [line ++ rest] r' ↔ Run LineStep r [line, rest] r' := by
  have hjoined : IsUnmarked (line ++ rest) := by
    rw [IsUnmarked, List.head?_append_of_ne_nil _ hne]
    exact hline
  have hbroken : [line, rest] = [line] ++ [rest] := rfl
  rw [hbroken, run_append_iff]
  simp only [run_singleton_iff, lineStep_iff_run hline, lineStep_iff_run hrest,
    lineStep_iff_run hjoined, run_append_iff]

/-- A text that starts with a word of a clause starts with a line of clauses. -/
theorem StartsWord.exists_firstLine {text : List Char} (h : StartsWord text) :
    ∃ line rest, StartsClauseLine line ∧
      ∀ xs, wordLines (xs ++ text) = wordLines (xs ++ line) ++ wordLines rest := by
  obtain ⟨a, tail, rfl, hblank, hmark⟩ := h
  obtain ⟨line, rest, hfeed, hhead, hcut⟩ := Dimacs.exists_firstLine (a :: tail)
  -- the first character is no feed, so the first line starts with it
  have hne : a ≠ '\n' := by
    rintro rfl
    exact absurd hblank (by decide)
  obtain ⟨line, rfl⟩ := List.head?_eq_some_iff.1 (hhead (by simpa using hne))
  obtain ⟨w, ws, hwords⟩ := exists_wordsOf_eq_cons hblank line
  refine ⟨a :: line, rest, ⟨hfeed, by rw [hwords]; exact List.cons_ne_nil _ _, ?_⟩, hcut⟩
  rw [hwords]
  rintro _ ⟨⟩ b hb ⟨⟩
  exact hmark hb

/-- The blanks between two words of clauses do not matter. -/
theorem run_gap_iff {line gap rest : List Char} (hline : StartsClauseLine line)
    (hgap : gap ≠ [] ∧ AreBlanks gap) (hrest : StartsClauseLine rest) {r r' : Reading} :
    Run LineStep r (wordLines (line ++ gap ++ rest)) r' ↔
      Run LineStep r [wordsOf line, wordsOf rest] r' := by
  rcases wordLines_gap hline.feed_notMem hrest.feed_notMem hline.ne_nil hrest.ne_nil hgap.1 hgap.2
    with h | h
  · rw [h]
    exact run_joined_iff hline.ne_nil hline.unmarked hrest.unmarked
  · rw [h]

/-! ### Comments -/

/-- What is read of a text, without places. -/
theorem exists_readUpTo_iff {text : List Char} {r : Reading} :
    (∃ p, readUpTo text = .ok p ∧ p.reading = r) ↔
      Run LineStep Progress.start.reading (wordLines text) r := by
  rw [wordLines_eq_lines]
  exact exists_foldlM_line_iff

theorem NoClauseOpen.pending_eq_none {text : List Char} (h : NoClauseOpen text) {r : Reading}
    (hrun : Run LineStep Progress.start.reading (wordLines text) r) : r.pending = none := by
  obtain ⟨p, hp, hnone⟩ := h
  obtain ⟨q, hq, rfl⟩ := exists_readUpTo_iff.2 hrun
  rw [hp] at hq
  cases hq
  exact hnone

/-- Where no clause is open, a comment does nothing. -/
theorem lineStep_comment_iff {r r' : Reading} {line : List (List Char)}
    (hpending : r.pending = none) (h : isComment line = true) :
    LineStep r line r' ↔ r' = r := by
  cases line with
  | nil => cases h
  | cons first words =>
      have hfirst : first.head? = some 'c' := by simpa [isComment] using h
      constructor
      · intro hstep
        cases hstep with
        | comment => rfl
        | problem _ _ hline =>
            obtain rfl : first = ['p'] := Option.some_inj.1 hline.head?_eq
            cases hfirst
        | words hunmarked =>
            exact absurd hfirst (hunmarked hpending first rfl 'c' (Or.inl rfl))
      · rintro rfl
        exact .comment hpending hfirst

/-- A comment may be put in, and taken out, where no clause is open. -/
theorem run_comment_iff {before line : List Char} (hbefore : AreLines before)
    (hclosed : NoClauseOpen before) (hfeed : '\n' ∉ line)
    (hcomment : isComment (wordsOf line) = true) (after : List Char) {r : Reading} :
    Run LineStep Progress.start.reading (wordLines (before ++ line ++ '\n' :: after)) r ↔
      Run LineStep Progress.start.reading (wordLines (before ++ after)) r := by
  have hne : wordsOf line ≠ [] := by
    intro hnil
    rw [hnil] at hcomment
    cases hcomment
  rw [wordLines_append_feed, hbefore.wordLines_append, hbefore.wordLines_append,
    wordLines_line hfeed hne, run_append_iff, run_append_iff]
  constructor
  · rintro ⟨s, hrun, hafter⟩
    obtain ⟨t, ht, hline⟩ := run_append_iff.1 hrun
    rw [run_singleton_iff, lineStep_comment_iff (hclosed.pending_eq_none ht) hcomment] at hline
    exact ⟨t, ht, hline ▸ hafter⟩
  · rintro ⟨t, ht, hafter⟩
    have hline := (lineStep_comment_iff (hclosed.pending_eq_none ht) hcomment).2 rfl
    exact ⟨t, ht.append (run_singleton_iff.2 hline), hafter⟩

/-! ### What edits keep -/

/-- **What one edit keeps**: all that is read of a text. -/
theorem Edit.run_iff {text text' : List Char} (h : Edit text text') {r : Reading} :
    Run LineStep Progress.start.reading (wordLines text) r ↔
      Run LineStep Progress.start.reading (wordLines text') r := by
  cases h with
  | respace before line gap gap' after hbefore hline hgap hgap' hafter =>
      obtain ⟨first, rest, hfirst, hcut⟩ := hafter.exists_firstLine
      -- with either gap, the words left and right of it are read one after the other
      have hread : ∀ gap, gap ≠ [] ∧ AreBlanks gap →
          (Run LineStep Progress.start.reading (wordLines (before ++ line ++ gap ++ after)) r ↔
            Run LineStep Progress.start.reading
              (wordLines before ++ ([wordsOf line, wordsOf first] ++ wordLines rest)) r) := by
        intro gap hgap
        rw [hcut, List.append_assoc before, List.append_assoc before, hbefore.wordLines_append,
          List.append_assoc]
        simp only [run_append_iff, run_gap_iff hline hgap hfirst]
      exact (hread gap hgap).trans (hread gap' hgap').symm
  | pad before blanks after hedge hblanks => rw [wordLines_pad hedge hblanks]
  | comment before line after hbefore hclosed hfeed hcomment =>
      exact (run_comment_iff hbefore hclosed hfeed hcomment after).symm

/-- Whether a text is read, and as which formula, depends on what is read of it without places. -/
theorem parseChars_eq_ok_iff_run {text : List Char} {f : Formula} :
    parseChars text = .ok f ↔
      ∃ r, Run LineStep Progress.start.reading (wordLines text) r ∧
        (r.progress ⟨1, 1⟩).finish = .ok f := by
  have hplaces : ∀ p : Progress, p.finish = .ok f ↔ (p.reading.progress ⟨1, 1⟩).finish = .ok f := by
    intro p
    rw [finish_eq_ok_iff, finish_eq_ok_iff]
    rfl
  rw [parseChars, parseLines, bind_eq_ok_iff]
  constructor
  · rintro ⟨p, hread, hfinish⟩
    exact ⟨p.reading, exists_readUpTo_iff.1 ⟨p, hread, rfl⟩, (hplaces p).1 hfinish⟩
  · rintro ⟨r, hrun, hfinish⟩
    obtain ⟨p, hread, rfl⟩ := exists_readUpTo_iff.2 hrun
    exact ⟨p, hread, (hplaces p).2 hfinish⟩

theorem Edit.parseChars_eq_ok_iff {text text' : List Char} (h : Edit text text') {f : Formula} :
    parseChars text = .ok f ↔ parseChars text' = .ok f := by
  simp only [parseChars_eq_ok_iff_run, h.run_iff]

/-- **What all edits keep.** -/
theorem Relaid.parseChars_eq_ok_iff {text text' : List Char} (h : Relaid text text')
    {f : Formula} : parseChars text = .ok f ↔ parseChars text' = .ok f := by
  induction h with
  | rel _ _ hedit => exact hedit.parseChars_eq_ok_iff
  | refl => exact Iff.rfl
  | symm _ _ _ ih => exact ih.symm
  | trans _ _ _ _ _ ih ih' => exact ih.trans ih'

/-- **The layout of clauses is irrelevant**: a text that is read is read as the same formula in
every other layout. -/
theorem parse_eq_ok_of_relaid {text text' : String} {f : Formula} (h : parse text = .ok f)
    (hrelaid : Relaid text.toList text'.toList) : parse text' = .ok f :=
  hrelaid.parseChars_eq_ok_iff.1 h

/-- A line broken behind a weight, two lines joined by an ideographic space, a comment, and blanks
behind the last line. -/
theorem parse_eq_ok_of_relaid_sample :
    ∃ f, parse "p wcnf 2 2\n3 1 -2 0\n5 2 0\n" = .ok f ∧
      parse "p wcnf 2 2\nc two\n3\r\n1 -2 0\u30005 2 0\n\t\n" = .ok f := by
  have hbroken : Edit "p wcnf 2 2\n3 1 -2 0\n5 2 0\n".toList
      "p wcnf 2 2\n3\r\n1 -2 0\n5 2 0\n".toList := by
    have hedit := Edit.respace "p wcnf 2 2\n".toList "3".toList " ".toList "\r\n".toList
      "1 -2 0\n5 2 0\n".toList (by decide)
      ⟨by decide, by decide, by rintro _ ⟨⟩ _ (rfl | rfl) ⟨⟩⟩ (by decide) (by decide)
      ⟨'1', _, rfl, by decide, by rintro (⟨⟨⟩⟩ | ⟨⟨⟩⟩)⟩
    simpa using hedit
  have hjoined : Edit "p wcnf 2 2\n3\r\n1 -2 0\n5 2 0\n".toList
      "p wcnf 2 2\n3\r\n1 -2 0\u30005 2 0\n".toList := by
    have hedit := Edit.respace "p wcnf 2 2\n3\r\n".toList "1 -2 0".toList "\n".toList
      "\u3000".toList "5 2 0\n".toList (by decide)
      ⟨by decide, by decide, by rintro _ ⟨⟩ _ (rfl | rfl) ⟨⟩⟩ (by decide) (by decide)
      ⟨'5', _, rfl, by decide, by rintro (⟨⟨⟩⟩ | ⟨⟨⟩⟩)⟩
    simpa using hedit
  have hcomment : Edit "p wcnf 2 2\n3\r\n1 -2 0\u30005 2 0\n".toList
      "p wcnf 2 2\nc two\n3\r\n1 -2 0\u30005 2 0\n".toList := by
    have hedit := Edit.comment "p wcnf 2 2\n".toList "c two".toList
      "3\r\n1 -2 0\u30005 2 0\n".toList (by decide) ⟨_, rfl, rfl⟩ (by decide) (by decide)
    simpa using hedit
  have hpadded : Edit "p wcnf 2 2\nc two\n3\r\n1 -2 0\u30005 2 0\n".toList
      "p wcnf 2 2\nc two\n3\r\n1 -2 0\u30005 2 0\n\t\n".toList := by
    have hedit := Edit.pad "p wcnf 2 2\nc two\n3\r\n1 -2 0\u30005 2 0\n".toList "\t\n".toList []
      (Or.inr (by decide)) (by decide)
    simpa using hedit
  obtain ⟨f, hf⟩ : ∃ f, parse "p wcnf 2 2\n3 1 -2 0\n5 2 0\n" = .ok f := ⟨_, rfl⟩
  exact ⟨f, hf, parse_eq_ok_of_relaid hf (.trans _ _ _ (.rel _ _ hbroken)
    (.trans _ _ _ (.rel _ _ hjoined) (.trans _ _ _ (.rel _ _ hcomment) (.rel _ _ hpadded))))⟩

end WeightedSat.Dimacs
