import WeightedSat.Proofs.Dimacs.Grammar
import WeightedSat.Proofs.Results

/-!
**What reading a word and reading a line can do.**

The reader of clause files reports where a text is malformed; whether it succeeds, and with what,
does not depend on any place.  This module says once, without places, what one word and one line can
do to what has been read.  The theory of the reader is then about these two relations and about runs
of them.

Main definitions:

* `WeightedSat.Dimacs.Reading` — what has been read, without places;
* `WeightedSat.Dimacs.WordStep`, `WeightedSat.Dimacs.LineStep` — **what one word and one line do**;
* `WeightedSat.Dimacs.Run` — steps one after the other.

Main results:

* `WeightedSat.Dimacs.WordStep.of_word`, `WeightedSat.Dimacs.WordStep.word_eq_ok` — a word is read
  exactly as `WordStep` says;
* `WeightedSat.Dimacs.readHeader_eq_ok_iff` — the problem line is read exactly as the grammar says;
* `WeightedSat.Dimacs.exists_foldlM_line_iff` — **lines are read exactly as `LineStep` says**;
* `WeightedSat.Dimacs.finish_eq_ok_iff` — the formula after the last line.
-/

set_option relaxedAutoImplicit false
set_option autoImplicit false

namespace WeightedSat.Dimacs

/-! ### Runs -/

/-- Steps one after the other, each of which takes an input. -/
inductive Run {σ α : Type} (step : σ → α → σ → Prop) : σ → List α → σ → Prop
  | nil (s : σ) : Run step s [] s
  | cons {s t u : σ} {a : α} {as : List α} (h : step s a t) (hrest : Run step t as u) :
      Run step s (a :: as) u

theorem Run.append {σ α : Type} {step : σ → α → σ → Prop} {s t u : σ} {as bs : List α}
    (h : Run step s as t) (hrest : Run step t bs u) : Run step s (as ++ bs) u := by
  induction h with
  | nil => exact hrest
  | cons hstep _ ih => exact .cons hstep (ih hrest)

theorem Run.split {σ α : Type} {step : σ → α → σ → Prop} {s u : σ} {as bs : List α}
    (h : Run step s (as ++ bs) u) : ∃ t, Run step s as t ∧ Run step t bs u := by
  induction as generalizing s with
  | nil => exact ⟨s, .nil s, h⟩
  | cons a as ih =>
      cases h with
      | cons hstep hrest =>
          obtain ⟨t, hleft, hright⟩ := ih hrest
          exact ⟨t, .cons hstep hleft, hright⟩

/-! ### What one word does -/

/-- What has been read: the problem line, the clauses that have ended, the last one first, and the
open clause. -/
structure Reading where
  header : Option Header
  clauses : List Clause
  pending : Option Pending

/-- What has been read, without places. -/
def Progress.reading (p : Progress) : Reading := ⟨p.header, p.clauses, p.pending⟩

/-- What has been read, with the end of the last line with a word on it. -/
def Reading.progress (r : Reading) (lastEnd : Text.Position) : Progress :=
  ⟨r.header, r.clauses, r.pending, lastEnd⟩

namespace Reading

/-- Whether clauses start with a weight. -/
def isWeighted (r : Reading) : Bool :=
  r.header.any fun h => h.dialect = .weighted

/-- The open clause, or one that has nothing yet. -/
def current (r : Reading) : Pending :=
  r.pending.getD .unit

@[simp] theorem progress_reading (p : Progress) : p.reading.progress p.lastEnd = p := rfl

end Reading

/-- **What one word does**: it is a weight, which opens a clause, the end of a clause, or a literal
with a name that the clause does not have yet. -/
inductive WordStep (r : Reading) : List Char → Reading → Prop
  | weight {word : List Char} {w : Float} (hweighted : r.isWeighted = true)
      (hpending : r.pending = none) (hread : Decimal.readFloat? word = some w)
      (hfinite : w.isFinite = true) (hpos : 0.0 < w) :
      WordStep r word { r with pending := some ⟨w, [], ∅⟩ }
  | close {word : List Char} (hopen : r.isWeighted = true → r.pending ≠ none)
      (hword : IsEnd word) (hne : r.current.literals ≠ []) :
      WordStep r word
        ⟨r.header, ⟨r.current.weight, r.current.literals.reverse⟩ :: r.clauses, none⟩
  | literal {word : List Char} {l : Literal} (hopen : r.isWeighted = true → r.pending ≠ none)
      (hword : IsLiteral word l) (hnew : l ∉ r.current.seen) (hneg : l.negate ∉ r.current.seen) :
      WordStep r word { r with
        pending := some ⟨r.current.weight, l :: r.current.literals, r.current.seen.insert l⟩ }

theorem isLiteral_iff {word : List Char} {l : Literal} :
    IsLiteral word l ↔
      ∃ x, Text.readSigned? 32 word = some x ∧ Literal.ofSigned? x = some l := by
  simp only [Literal.ofSigned?_eq_some_iff]
  rfl

/-- A word that is read does what the relation says. -/
theorem WordStep.of_word {line : Nat} {p q : Progress} {t : Token}
    (h : Progress.word line p t = .ok q) :
    q.lastEnd = p.lastEnd ∧ WordStep p.reading t.text q.reading := by
  rw [Progress.word] at h
  split at h
  · rename_i hawaits
    obtain ⟨hweighted, hnone⟩ := Bool.and_eq_true_iff.1 hawaits
    rw [Progress.readWeight, bind_eq_ok_iff] at h
    obtain ⟨w, hfloat, h⟩ := h
    have hread : Decimal.readFloat? t.text = some w := by
      rw [Token.float] at hfloat
      split at hfloat
      · cases hfloat
      · rename_i hread
        cases hfloat
        exact hread
    split at h
    · rename_i hadmitted
      obtain ⟨hfinite, hpos⟩ := Bool.and_eq_true_iff.1 hadmitted
      cases h
      exact ⟨rfl, .weight hweighted (Option.isNone_iff_eq_none.1 hnone) hread hfinite
        (of_decide_eq_true hpos)⟩
    · cases h
  · rename_i hawaits
    have hopen : p.reading.isWeighted = true → p.reading.pending ≠ none := by
      intro hweighted hnone
      refine hawaits (Bool.and_eq_true_iff.2 ⟨hweighted, ?_⟩)
      exact Option.isNone_iff_eq_none.2 hnone
    split at h
    · cases h
    · rename_i x hread
      split at h
      · rename_i hzero
        obtain rfl := Literal.ofSigned?_eq_none_iff.1 hzero
        simp only [Progress.closeClause] at h
        split at h
        · cases h
        · rename_i hne
          cases h
          exact ⟨rfl, .close hopen hread (mt List.isEmpty_iff.2 hne)⟩
      · rename_i l hl
        simp only [Progress.addLiteral] at h
        split at h
        · cases h
        · rename_i hnew
          split at h
          · cases h
          · rename_i hneg
            cases h
            exact ⟨rfl, .literal hopen (isLiteral_iff.2 ⟨x, hread, hl⟩) hnew hneg⟩

/-- A word that the relation admits is read. -/
theorem WordStep.word_eq_ok {r r' : Reading} {t : Token} (h : WordStep r t.text r') (line : Nat)
    (lastEnd : Text.Position) :
    Progress.word line (r.progress lastEnd) t = .ok (r'.progress lastEnd) := by
  have hawaits : ((r.progress lastEnd).isWeighted && (r.progress lastEnd).pending.isNone) = true ↔
      r.isWeighted = true ∧ r.pending = none := by
    rw [Bool.and_eq_true_iff, Option.isNone_iff_eq_none]
    exact Iff.rfl
  cases h with
  | @weight w hweighted hpending hread hfinite hpos =>
      have hadmitted : (w.isFinite && decide (0.0 < w)) = true :=
        Bool.and_eq_true_iff.2 ⟨hfinite, decide_eq_true hpos⟩
      have hfloat : t.float line = .ok w := by rw [Token.float, hread]
      rw [Progress.word, if_pos (hawaits.2 ⟨hweighted, hpending⟩), Progress.readWeight,
        bind_eq_ok_iff]
      exact ⟨w, hfloat, if_pos hadmitted⟩
  | close hopen hword hne =>
      have hnot := mt hawaits.1 fun h => hopen h.1 h.2
      have hempty : ¬ r.current.literals.isEmpty = true := mt List.isEmpty_iff.1 hne
      rw [IsEnd] at hword
      rw [Progress.word, if_neg hnot, hword]
      exact if_neg hempty
  | literal hopen hword hnew hneg =>
      have hnot := mt hawaits.1 fun h => hopen h.1 h.2
      obtain ⟨x, hread, hl⟩ := isLiteral_iff.1 hword
      rw [Progress.word, if_neg hnot, hread]
      simp only [hl]
      rw [Progress.addLiteral]
      exact (if_neg hnew).trans (if_neg hneg)

/-- **Words are read exactly as the relation says.** -/
theorem foldlM_word_eq_ok_iff {line : Nat} {lastEnd : Text.Position} {r : Reading} {q : Progress}
    {ts : List Token} :
    ts.foldlM (Progress.word line) (r.progress lastEnd) = .ok q ↔
      ∃ r', q = r'.progress lastEnd ∧ Run WordStep r (ts.map (·.text)) r' := by
  induction ts generalizing r with
  | nil =>
      constructor
      · intro h
        cases h
        exact ⟨r, rfl, .nil r⟩
      · rintro ⟨r', rfl, h⟩
        cases h
        rfl
  | cons t ts ih =>
      rw [foldlM_cons_eq_ok_iff]
      constructor
      · rintro ⟨p, hword, hrest⟩
        obtain ⟨hend, hstep⟩ := WordStep.of_word hword
        have hp : p = p.reading.progress lastEnd := by
          change p.lastEnd = lastEnd at hend
          rw [← hend, Reading.progress_reading]
        rw [hp, ih] at hrest
        obtain ⟨r', rfl, hrun⟩ := hrest
        exact ⟨r', rfl, .cons hstep hrun⟩
      · rintro ⟨r', rfl, h⟩
        cases h with
        | cons hstep hrun => exact ⟨_, hstep.word_eq_ok line lastEnd, ih.2 ⟨r', rfl, hrun⟩⟩

/-! ### The problem line -/

theorem count_eq_ok_iff {t : Token} {line n : Nat} : t.count line = .ok n ↔ IsCount t.text n := by
  have hlimit : (wordCount 32 : Int) = 4294967296 := by decide
  rw [Token.count, IsCount]
  constructor
  · intro h
    split at h
    · cases h
    · rename_i x hread
      split at h
      · rename_i hrange
        cases h
        have hx : (x.toNat : Int) = x := by omega
        rw [hx]
        exact ⟨readInt?_of_readSigned? hread, by omega, by omega⟩
      · cases h
  · rintro ⟨hread, hpos, hle⟩
    have hfits : FitsSigned 64 (n : Int) := fitsSigned_sixtyFour.2 (by omega)
    have hsigned : Text.readSigned? 64 t.text = some (n : Int) :=
      Option.filter_eq_some_iff.2 ⟨hread, decide_eq_true hfits⟩
    rw [hsigned]
    exact if_pos ⟨by omega, by omega⟩

theorem dialect_eq_ok_iff {t : Token} {line : Nat} {dialect : Dialect} :
    t.dialect line = .ok dialect ↔ t.text = dialect.keyword.toList := by
  rw [Token.dialect]
  constructor
  · intro h
    split at h
    · cases h
      assumption
    · split at h
      · cases h
        assumption
      · cases h
  · intro h
    rw [h]
    cases dialect <;> rfl

theorem float_eq_ok_iff {t : Token} {line : Nat} {x : Float} :
    t.float line = .ok x ↔ Decimal.readFloat? t.text = some x := by
  rw [Token.float]
  cases Decimal.readFloat? t.text with
  | none => simp [Token.fail]
  | some y => simp

theorem readTop_eq_ok_iff {line : Nat} {dialect : Dialect} {ts : List Token} {top : Option Float} :
    readTop line dialect ts = .ok (top, []) ↔ IsTop dialect (ts.map (·.text)) top := by
  constructor
  · intro h
    cases dialect with
    | plain =>
        cases h
        exact .absent .plain
    | weighted =>
        cases ts with
        | nil =>
            cases h
            exact .absent .weighted
        | cons t ts =>
            obtain ⟨x, hx, h⟩ := bind_eq_ok_iff.1 h
            cases h
            exact .given (float_eq_ok_iff.1 hx)
  · intro h
    generalize hws : ts.map (·.text) = ws at h
    cases h with
    | absent =>
        obtain rfl := List.map_eq_nil_iff.1 hws
        cases dialect <;> rfl
    | given hread =>
        obtain ⟨t, rfl, rfl⟩ := List.map_eq_singleton_iff.1 hws
        exact bind_eq_ok_iff.2 ⟨_, float_eq_ok_iff.2 hread, rfl⟩

/-- **The problem line is read exactly as the grammar says.** -/
theorem readHeader_eq_ok_iff {line size : Nat} {mark : Token} {fields : List Token}
    {header : Header} :
    readHeader line size mark fields = .ok header ↔
      IsProblemLine (mark.text :: fields.map (·.text)) header := by
  constructor
  · intro h
    rw [readHeader] at h
    split at h
    · cases h
    · rename_i hmark
      have hmark' : mark.text = "p".toList := not_not.1 hmark
      match fields, h with
      | [], h => cases h
      | [kind], h =>
          obtain ⟨dialect, -, h⟩ := bind_eq_ok_iff.1 h
          cases h
      | [kind, names], h =>
          obtain ⟨dialect, -, h⟩ := bind_eq_ok_iff.1 h
          obtain ⟨variableCount, -, h⟩ := bind_eq_ok_iff.1 h
          cases h
      | kind :: names :: clauses :: fields, h =>
          obtain ⟨dialect, hdialect, h⟩ := bind_eq_ok_iff.1 h
          obtain ⟨variableCount, hnames, h⟩ := bind_eq_ok_iff.1 h
          obtain ⟨clauseCount, hclauses, h⟩ := bind_eq_ok_iff.1 h
          obtain ⟨⟨top, rest⟩, htop, h⟩ := bind_eq_ok_iff.1 h
          cases rest with
          | cons t ts => cases h
          | nil =>
              cases h
              rw [List.map_cons, List.map_cons, List.map_cons, hmark', dialect_eq_ok_iff.1 hdialect]
              exact @IsProblemLine.mk _ _ _ ⟨dialect, variableCount, clauseCount, top⟩
                (count_eq_ok_iff.1 hnames) (count_eq_ok_iff.1 hclauses) (readTop_eq_ok_iff.1 htop)
  · intro h
    generalize hws : mark.text :: fields.map (·.text) = ws at h
    cases h with
    | mk hnames hclauses htop =>
        obtain ⟨hmark, hfields⟩ := List.cons.inj hws
        have hmark' : mark.text = ['p'] := hmark
        obtain ⟨kind, fields, rfl, hkind, hcounts⟩ := List.map_eq_cons_iff.1 hfields
        obtain ⟨names, fields, rfl, rfl, hrest⟩ := List.map_eq_cons_iff.1 hcounts
        obtain ⟨clauses, fields, rfl, rfl, rfl⟩ := List.map_eq_cons_iff.1 hrest
        rw [readHeader, if_neg (not_not_intro hmark')]
        refine bind_eq_ok_iff.2 ⟨_, dialect_eq_ok_iff.2 hkind, ?_⟩
        refine bind_eq_ok_iff.2 ⟨_, count_eq_ok_iff.2 hnames, ?_⟩
        refine bind_eq_ok_iff.2 ⟨_, count_eq_ok_iff.2 hclauses, ?_⟩
        exact bind_eq_ok_iff.2 ⟨_, readTop_eq_ok_iff.2 htop, rfl⟩

/-! ### What one line does -/

/-- **What one line does**, given by its words: while no clause is open, it may be a comment or the
first problem line; otherwise its words are words of clauses. -/
inductive LineStep (r : Reading) : List (List Char) → Reading → Prop
  | comment {first : List Char} {words : List (List Char)} (hpending : r.pending = none)
      (hfirst : first.head? = some 'c') : LineStep r (first :: words) r
  | problem {line : List (List Char)} {header : Header} (hpending : r.pending = none)
      (hheader : r.header = none) (hline : IsProblemLine line header) :
      LineStep r line { r with header := some header }
  | words {line : List (List Char)} {r' : Reading}
      (hfirst : r.pending = none →
        ∀ first ∈ line.head?, ∀ a, IsMark a → first.head? ≠ some a)
      (hwords : Run WordStep r line r') : LineStep r line r'

theorem IsProblemLine.head?_eq {line : List (List Char)} {header : Header}
    (h : IsProblemLine line header) : line.head? = some ['p'] := by
  cases h
  rfl

/-- **A line with a word is read exactly as the relation says.** -/
theorem words_eq_ok_iff {line size : Nat} {lastEnd : Text.Position} {r : Reading} {q : Progress}
    {first : Token} {rest : List Token} :
    Progress.words (r.progress lastEnd) line size first rest = .ok q ↔
      ∃ r', q = r'.progress lastEnd ∧ LineStep r (first.text :: rest.map (·.text)) r' := by
  have hmark : ∀ a, ((r.progress lastEnd).pending.isNone && first.startsWith a) = true ↔
      r.pending = none ∧ first.text.head? = some a := by
    intro a
    rw [Bool.and_eq_true_iff, Option.isNone_iff_eq_none, Token.startsWith, decide_eq_true_iff]
    exact Iff.rfl
  rw [Progress.words]
  constructor
  · intro h
    split at h
    · rename_i hcomment
      obtain ⟨hpending, hfirst⟩ := (hmark 'c').1 hcomment
      cases h
      exact ⟨r, rfl, .comment hpending hfirst⟩
    · rename_i hcomment
      split at h
      · rename_i hproblem
        split at h
        · cases h
        · rename_i hheader
          obtain ⟨header, hread, h⟩ := bind_eq_ok_iff.1 h
          cases h
          exact ⟨{ r with header := some header }, rfl,
            .problem ((hmark 'p').1 hproblem).1 hheader (readHeader_eq_ok_iff.1 hread)⟩
      · rename_i hproblem
        obtain ⟨r', rfl, hrun⟩ := foldlM_word_eq_ok_iff.1 h
        refine ⟨r', rfl, .words ?_ hrun⟩
        rintro hpending _ ⟨⟩ a (rfl | rfl) hhead
        · exact hcomment ((hmark 'c').2 ⟨hpending, hhead⟩)
        · exact hproblem ((hmark 'p').2 ⟨hpending, hhead⟩)
  · rintro ⟨r', rfl, h⟩
    generalize hws : first.text :: rest.map (·.text) = ws at h
    cases h with
    | comment hpending hfirst =>
        obtain ⟨rfl, -⟩ := List.cons.inj hws
        rw [if_pos ((hmark 'c').2 ⟨hpending, hfirst⟩)]
    | problem hpending hheader hline =>
        subst hws
        have hfirst : first.text = ['p'] := Option.some_inj.1 hline.head?_eq
        have hcomment : ¬ (r.pending = none ∧ first.text.head? = some 'c') := by simp [hfirst]
        have hproblem : r.pending = none ∧ first.text.head? = some 'p' :=
          ⟨hpending, by rw [hfirst]; rfl⟩
        rw [if_neg (mt (hmark 'c').1 hcomment), if_pos ((hmark 'p').2 hproblem)]
        have hnone : (r.progress lastEnd).header = none := hheader
        rw [hnone]
        exact bind_eq_ok_iff.2 ⟨_, readHeader_eq_ok_iff.2 hline, rfl⟩
    | words hfirst hrun =>
        subst hws
        have hne : ∀ a, IsMark a → ¬ (r.pending = none ∧ first.text.head? = some a) :=
          fun a ha h => hfirst h.1 first.text rfl a ha h.2
        rw [if_neg (mt (hmark 'c').1 (hne 'c' (Or.inl rfl))),
          if_neg (mt (hmark 'p').1 (hne 'p' (Or.inr rfl)))]
        exact foldlM_word_eq_ok_iff.2 ⟨r', rfl, hrun⟩

/-! ### What lines do -/

/-- **Lines are read exactly as the relation says**; those without a word are passed over. -/
theorem exists_foldlM_line_iff {lines : List (List Char)} {first : Nat} {p : Progress}
    {r : Reading} :
    (∃ q, ((lines.map Except.ok).zipIdx first).foldlM
        (fun p line => Progress.line p line.1 line.2) p = .ok q ∧ q.reading = r) ↔
      Run LineStep p.reading ((lines.map wordsOf).filter (!·.isEmpty)) r := by
  induction lines generalizing first p with
  | nil =>
      constructor
      · rintro ⟨q, h, rfl⟩
        cases h
        exact .nil _
      · intro h
        cases h
        exact ⟨p, rfl, rfl⟩
  | cons text lines ih =>
      simp only [List.map_cons, List.zipIdx_cons, foldlM_cons_eq_ok_iff]
      rw [← map_text_tokens]
      cases htokens : tokens text with
      | nil =>
          have hline : Progress.line p (.ok text) first = .ok p := by
            rw [Progress.line]
            simp only [htokens]
          rw [List.map_nil, List.filter_cons_of_neg (by simp), ← @ih (first + 1)]
          simp only [hline, Except.ok.injEq, exists_eq_left']
      | cons t ts =>
          have hline : Progress.line p (.ok text) first =
              Progress.words (p.reading.progress ⟨first, Text.byteSize text + 1⟩) first
                (Text.byteSize text) t ts := by
            rw [Progress.line]
            simp only [htokens]
            rfl
          rw [List.map_cons, List.filter_cons_of_pos (by simp)]
          constructor
          · rintro ⟨q, ⟨p', hp', hrest⟩, hq⟩
            rw [hline, words_eq_ok_iff] at hp'
            obtain ⟨r', rfl, hstep⟩ := hp'
            exact .cons hstep (ih.1 ⟨q, hrest, hq⟩)
          · intro h
            cases h with
            | @cons _ r' _ _ _ hstep hrest =>
                obtain ⟨q, hfold, hq⟩ :=
                  (ih (p := r'.progress ⟨first, Text.byteSize text + 1⟩)).2 hrest
                exact ⟨q, ⟨_, hline.trans (words_eq_ok_iff.2 ⟨r', rfl, hstep⟩), hfold⟩, hq⟩

/-! ### The end of the text -/

/-- **The formula after the last line.** -/
theorem finish_eq_ok_iff {p : Progress} {f : Formula} :
    p.finish = .ok f ↔
      p.pending = none ∧ ∃ header, p.header = some header ∧
        p.clauses.length = header.clauseCount ∧
        (distinctNames p.clauses.reverse).length = header.variableCount ∧
        f = Formula.ofClauses header.dialect header.top p.clauses.reverse := by
  rw [Progress.finish]
  cases hpending : p.pending with
  | some c => simp [throw, throwThe, MonadExceptOf.throw, bind, Except.bind]
  | none =>
      cases hheader : p.header with
      | none => simp [throw, throwThe, MonadExceptOf.throw]
      | some header =>
          by_cases hcount : p.clauses.length = header.clauseCount
          · by_cases hnames : (distinctNames p.clauses.reverse).length = header.variableCount
            · simp [hcount, hnames, Formula.names, Formula.ofClauses, pure, Except.pure, eq_comm]
            · simp [hcount, hnames, Formula.names, Formula.ofClauses, throw, throwThe,
                MonadExceptOf.throw, bind, Except.bind]
          · simp [hcount, throw, throwThe, MonadExceptOf.throw, bind, Except.bind]

end WeightedSat.Dimacs
