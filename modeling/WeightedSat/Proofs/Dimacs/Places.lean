import WeightedSat.Proofs.Dimacs.Steps
import WeightedSat.Proofs.Dimacs.Spans
import WeightedSat.Proofs.Failures

/-!
**Where a malformed clause file is reported.**

A defect is reported at a word of a line, whose column is counted in characters, or, where something
is missing, behind the end of a line.  The column behind the end is one more than the number of
*bytes* of the line.  So it is the column behind the last character only in a line of characters of
one byte each; in other lines it lies outside the line.

Main definitions:

* `WeightedSat.Dimacs.Defect.isAtLineEnd` — the defects that are reported behind the end of a line;
* `WeightedSat.Dimacs.IsPlaced` — **the columns of a line that a defect is reported in**;
* `WeightedSat.Dimacs.LineError` — the errors of one line.

Main results:

* `WeightedSat.Dimacs.exists_of_mem_tokens` — a word stands where its column says;
* `WeightedSat.Dimacs.IsPlaced.column_le_iff` — **which columns lie in the line**;
* `WeightedSat.Dimacs.failsOnly_words` — what a line with a word on it fails with;
* `WeightedSat.Dimacs.place_of_parse_eq_error` — **every place that is reported is one of a line of
  the text**;
* `WeightedSat.Dimacs.exists_column_outside` — a column that lies outside its line.
-/

set_option relaxedAutoImplicit false
set_option autoImplicit false

namespace WeightedSat.Dimacs

/-! ### Columns -/

/-- Something is missing, which is reported behind the end of a line. -/
def Defect.isAtLineEnd : Defect → Bool
  | .missingField _ | .unterminatedClause => true
  | _ => false

/-- **The columns of a line that a defect is reported in.** -/
inductive IsPlaced (line : List Char) (defect : Defect) : Nat → Prop
  | word {t : Token} (ht : t ∈ tokens line) (hdefect : defect.isAtLineEnd = false) :
      IsPlaced line defect t.column
  | ending (hdefect : defect.isAtLineEnd = true) :
      IsPlaced line defect (Text.byteSize line + 1)

/-- **A word stands where its column says.** -/
theorem exists_of_mem_tokens {line : List Char} {t : Token} (h : t ∈ tokens line) :
    ∃ before after, line = before ++ t.text ++ after ∧ t.text ≠ [] ∧
      t.column = before.length + 1 := by
  obtain ⟨before, after, hline, hrun, hcolumn⟩ := (cut_tokens line).mem_iff.1 h
  exact ⟨before, after, hline, hrun.plain.ne_nil, by omega⟩

theorem IsPlaced.one_le {line : List Char} {defect : Defect} {column : Nat}
    (h : IsPlaced line defect column) : 1 ≤ column := by
  cases h with
  | word ht =>
      obtain ⟨before, -, -, -, hcolumn⟩ := exists_of_mem_tokens ht
      omega
  | ending => omega

/-- **Which columns lie in the line**, or right behind it: those of words, and those behind the end
of a line of characters of one byte each. -/
theorem IsPlaced.column_le_iff {line : List Char} {defect : Defect} {column : Nat}
    (h : IsPlaced line defect column) :
    column ≤ line.length + 1 ↔
      (defect.isAtLineEnd = true → ∀ c ∈ line, c.utf8Size = 1) := by
  cases h with
  | word ht hdefect =>
      obtain ⟨before, after, hline, -, hcolumn⟩ := exists_of_mem_tokens ht
      have hlength := congrArg List.length hline
      rw [List.length_append, List.length_append] at hlength
      rw [hdefect]
      exact ⟨nofun, fun _ => by omega⟩
  | ending hdefect =>
      rw [← (Text.length_le_byteSize line).2]
      simp only [hdefect, forall_const]
      omega

/-! ### What a word fails with -/

/-- The errors of a line, given by its number and its characters. -/
inductive LineError (n : Nat) (line : List Char) : Error → Prop
  | mk {column : Nat} {defect : Defect} (h : IsPlaced line defect column) :
      LineError n line (.dimacs ⟨n, column⟩ defect)

section
variable {n : Nat} {line : List Char} {t : Token}

theorem failsOnly_fail {α : Type} (ht : t ∈ tokens line) {defect : Defect}
    (hdefect : defect.isAtLineEnd = false) :
    FailsOnly (LineError n line) (t.fail n defect : Except Error α) :=
  failsOnly_error (.mk (.word ht hdefect))

theorem failsOnly_count (ht : t ∈ tokens line) : FailsOnly (LineError n line) (t.count n) := by
  rw [Token.count]
  split
  · exact failsOnly_fail ht rfl
  · split
    · exact failsOnly_ok _
    · exact failsOnly_fail ht rfl

theorem failsOnly_dialect (ht : t ∈ tokens line) :
    FailsOnly (LineError n line) (t.dialect n) := by
  rw [Token.dialect]
  split
  · exact failsOnly_ok _
  · split
    · exact failsOnly_ok _
    · exact failsOnly_fail ht rfl

theorem failsOnly_float (ht : t ∈ tokens line) : FailsOnly (LineError n line) (t.float n) := by
  rw [Token.float]
  split
  · exact failsOnly_fail ht rfl
  · exact failsOnly_ok _

theorem failsOnly_readTop {dialect : Dialect} {ts : List Token} (hts : ∀ t ∈ ts, t ∈ tokens line) :
    FailsOnly (LineError n line) (readTop n dialect ts) := by
  cases dialect with
  | plain => exact failsOnly_ok _
  | weighted =>
      cases ts with
      | nil => exact failsOnly_ok _
      | cons t ts =>
          exact (failsOnly_float (hts t List.mem_cons_self)).bind fun _ _ => failsOnly_ok _

theorem mem_of_readTop {dialect : Dialect} {ts rest : List Token} {top : Option Float}
    (h : readTop n dialect ts = .ok (top, t :: rest)) : t ∈ ts := by
  cases dialect with
  | plain =>
      cases h
      exact List.mem_cons_self
  | weighted =>
      cases ts with
      | nil => cases h
      | cons u us =>
          obtain ⟨x, -, h⟩ := bind_eq_ok_iff.1 h
          cases h
          exact List.mem_cons_of_mem u List.mem_cons_self

theorem failsOnly_missing {α : Type} (field : Field) :
    FailsOnly (LineError n line)
      (.error (.dimacs ⟨n, Text.byteSize line + 1⟩ (.missingField field)) : Except Error α) :=
  failsOnly_error (.mk (.ending rfl))

/-- What the problem line fails with. -/
theorem failsOnly_readHeader {mark : Token} {fields : List Token} (hmark : mark ∈ tokens line)
    (hfields : ∀ t ∈ fields, t ∈ tokens line) :
    FailsOnly (LineError n line) (readHeader n (Text.byteSize line) mark fields) := by
  rw [readHeader]
  split
  · exact failsOnly_fail hmark rfl
  · cases fields with
    | nil => exact failsOnly_missing .dialect
    | cons kind fields =>
        obtain ⟨hkind, hfields⟩ := List.forall_mem_cons.1 hfields
        refine (failsOnly_dialect hkind).bind fun dialect _ => ?_
        cases fields with
        | nil => exact failsOnly_missing .variableCount
        | cons names fields =>
            obtain ⟨hnames, hfields⟩ := List.forall_mem_cons.1 hfields
            refine (failsOnly_count hnames).bind fun _ _ => ?_
            cases fields with
            | nil => exact failsOnly_missing .clauseCount
            | cons clauses fields =>
                obtain ⟨hclauses, hfields⟩ := List.forall_mem_cons.1 hfields
                refine (failsOnly_count hclauses).bind fun _ _ => ?_
                refine (failsOnly_readTop hfields).bind ?_
                -- a surplus word is one of those behind the counts
                rintro ⟨top, rest⟩ htop
                cases rest with
                | nil => exact failsOnly_ok _
                | cons t rest => exact failsOnly_fail (hfields t (mem_of_readTop htop)) rfl

/-- What a word of a clause fails with. -/
theorem failsOnly_word (p : Progress) (ht : t ∈ tokens line) :
    FailsOnly (LineError n line) (Progress.word n p t) := by
  rw [Progress.word]
  split
  · refine (failsOnly_float ht).bind fun w _ => ?_
    split
    · exact failsOnly_ok _
    · exact failsOnly_fail ht rfl
  · split
    · exact failsOnly_fail ht rfl
    · split
      · simp only [Progress.closeClause]
        split
        · exact failsOnly_fail ht rfl
        · exact failsOnly_ok _
      · simp only [Progress.addLiteral]
        split
        · exact failsOnly_fail ht rfl
        · split
          · exact failsOnly_fail ht rfl
          · exact failsOnly_ok _

/-! ### What a line fails with -/

/-- **What a line with a word on it fails with.** -/
theorem failsOnly_words (p : Progress) {first : Token} {rest : List Token}
    (h : ∀ t ∈ first :: rest, t ∈ tokens line) :
    FailsOnly (LineError n line) (p.words n (Text.byteSize line) first rest) := by
  obtain ⟨hfirst, hrest⟩ := List.forall_mem_cons.1 h
  rw [Progress.words]
  split
  · exact failsOnly_ok _
  · split
    · split
      · exact failsOnly_fail hfirst rfl
      · exact (failsOnly_readHeader hfirst hrest).bind fun _ _ => failsOnly_ok _
    · exact .foldlM fun t ht p => failsOnly_word p (h t ht)

/-- What a line fails with. -/
theorem failsOnly_line (p : Progress) : FailsOnly (LineError n line) (p.line (.ok line) n) := by
  rw [Progress.line]
  cases htokens : tokens line with
  | nil => exact failsOnly_ok p
  | cons first rest => exact failsOnly_words _ fun t ht => htokens ▸ ht

/-- A line without a word changes nothing, and the end of any other line is remembered. -/
theorem eq_or_lastEnd_eq_of_line {p q : Progress} (h : p.line (.ok line) n = .ok q) :
    q = p ∨ q.lastEnd = ⟨n, Text.byteSize line + 1⟩ := by
  rw [Progress.line] at h
  cases htokens : tokens line with
  | nil =>
      simp only [htokens] at h
      exact .inl (Except.ok.inj h).symm
  | cons first rest =>
      simp only [htokens] at h
      obtain ⟨r, rfl, -⟩ := (words_eq_ok_iff (r := p.reading)).1 h
      exact .inr rfl

end

/-! ### What a text fails with -/

/-- The errors of the lines of a text. -/
def TextError (lines : List (List Char)) (e : Error) : Prop :=
  ∃ n line, lines[n]? = some line ∧ LineError (n + 1) line e

/-- Where a clause is open, the end of a line is remembered. -/
def RemembersEnd (lines : List (List Char)) (p : Progress) : Prop :=
  p.pending ≠ none → ∃ n line, lines[n]? = some line ∧
    p.lastEnd = ⟨n + 1, Text.byteSize line + 1⟩

/-- The lines of a text with their numbers. -/
theorem exists_of_mem_zipIdx {lines : List (List Char)}
    {numbered : Except File.Fault (List Char) × Nat}
    (h : numbered ∈ (lines.map Except.ok).zipIdx 1) :
    ∃ n line, lines[n]? = some line ∧ numbered = (.ok line, n + 1) := by
  obtain ⟨text, number⟩ := numbered
  obtain ⟨hle, hget⟩ := List.mk_mem_zipIdx_iff_le_and_getElem?_sub.1 h
  rw [List.getElem?_map, Option.map_eq_some_iff] at hget
  obtain ⟨line, hline, rfl⟩ := hget
  obtain ⟨n, rfl⟩ := Nat.exists_eq_add_of_le' hle
  exact ⟨n, line, hline, rfl⟩

/-- **What the lines of a text fail with**, one after the other. -/
theorem failsOnly_lines (lines : List (List Char)) :
    FailsOnly (TextError lines) (((lines.map .ok).zipIdx 1).foldlM
      (fun p line => Progress.line p line.1 line.2) Progress.start) := by
  refine .foldlM ?_
  intro numbered hnumbered p e he
  obtain ⟨n, line, hline, rfl⟩ := exists_of_mem_zipIdx hnumbered
  exact ⟨n, line, hline, failsOnly_line p e he⟩

/-- **Where a clause is open behind lines, the end of one of them is remembered.** -/
theorem remembersEnd_lines {lines : List (List Char)} {p : Progress}
    (h : ((lines.map .ok).zipIdx 1).foldlM (fun p line => Progress.line p line.1 line.2)
      Progress.start = .ok p) : RemembersEnd lines p := by
  refine foldlM_invariant (I := RemembersEnd lines) ?_ (fun hopen => absurd rfl hopen) h
  intro numbered hnumbered p q hp hq
  obtain ⟨n, line, hline, rfl⟩ := exists_of_mem_zipIdx hnumbered
  rcases eq_or_lastEnd_eq_of_line hq with rfl | hend
  · exact hp
  · exact fun _ => ⟨n, line, hline, hend⟩

/-- What is wrong behind the last line is no defect of a line, unless a clause is open. -/
theorem failsOnly_finish {lines : List (List Char)} {p : Progress} (h : RemembersEnd lines p) :
    FailsOnly (fun e => e.kind = .parsing → TextError lines e) p.finish := by
  rw [Progress.finish]
  split
  · rename_i hopen
    have hne : p.pending ≠ none := by
      intro hnone
      rw [hnone] at hopen
      cases hopen
    obtain ⟨n, line, hline, hend⟩ := h hne
    rw [hend]
    exact failsOnly_error fun _ => ⟨n, line, hline, .mk (.ending rfl)⟩
  · split
    · dsimp only
      split
      · exact failsOnly_error_bind (by rintro ⟨⟩) _
      · split
        · exact failsOnly_error_bind (by rintro ⟨⟩) _
        · exact failsOnly_ok _
    · exact failsOnly_error (by rintro ⟨⟩)

/-- **Every place that is reported is one of a line of the text.**  Its column lies in the line, or
right behind it, unless something is missing behind a line with a character of several bytes. -/
theorem place_of_parse_eq_error {text : String} {e : Error} (h : parse text = .error e)
    (hkind : e.kind = .parsing) :
    ∃ place defect line, e = .dimacs place defect ∧
      1 ≤ place.line ∧ place.line ≤ (Text.lines text.toList).length ∧
      (Text.lines text.toList)[place.line - 1]? = some line ∧
      1 ≤ place.column ∧ IsPlaced line defect place.column ∧
      (place.column ≤ line.length + 1 ↔
        (defect.isAtLineEnd = true → ∀ c ∈ line, c.utf8Size = 1)) := by
  have hfails : FailsOnly (fun e => e.kind = .parsing → TextError (Text.lines text.toList) e)
      (parse text) :=
    .bind (fun e he _ => failsOnly_lines _ e he) fun p hp =>
      failsOnly_finish (remembersEnd_lines hp)
  obtain ⟨n, line, hline, ⟨hplaced⟩⟩ := hfails e h hkind
  obtain ⟨hlt, -⟩ := List.getElem?_eq_some_iff.1 hline
  exact ⟨_, _, line, rfl, Nat.succ_pos n, hlt, hline, hplaced.one_le, hplaced,
    hplaced.column_le_iff⟩

/-- A literal that is no number, behind a character of three bytes. -/
theorem place_of_parse_eq_error_sample :
    ∃ place defect line, parse "p cnf 1 1\n1\u3000x 0\n" = .error (.dimacs place defect) ∧
      place = ⟨2, 3⟩ ∧
      (Text.lines "p cnf 1 1\n1\u3000x 0\n".toList)[place.line - 1]? = some line ∧
      place.column ≤ line.length + 1 := by
  have h : parse "p cnf 1 1\n1\u3000x 0\n" = .error (.dimacs ⟨2, 3⟩ (.notNumber "x")) := rfl
  obtain ⟨place, defect, line, he, -, -, hline, -, -, hcolumn⟩ := place_of_parse_eq_error h rfl
  cases he
  exact ⟨_, _, line, h, rfl, hline, hcolumn.2 nofun⟩

/-- **A column outside its line.**  The line has five characters and six bytes; what is missing
behind it is reported in column seven. -/
theorem exists_column_outside :
    ∃ text e place line, parse text = .error e ∧ e.kind = .parsing ∧ e.position? = some place ∧
      (Text.lines text.toList)[place.line - 1]? = some line ∧
      place.column = 7 ∧ ¬ place.column ≤ line.length + 1 :=
  ⟨"p\u00a0cnf", .dimacs ⟨1, 7⟩ (.missingField .variableCount), ⟨1, 7⟩, "p\u00a0cnf".toList, rfl,
    rfl, rfl, by decide, rfl, by decide⟩

end WeightedSat.Dimacs
