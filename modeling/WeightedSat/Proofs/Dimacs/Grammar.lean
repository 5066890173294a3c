import Mathlib.Algebra.Group.Nat.Defs
import Mathlib.Data.Finset.Card
import Mathlib.Data.List.Forall2
import Mathlib.Order.Bounds.Basic
import WeightedSat.Dimacs.Reader
import WeightedSat.Proofs.Dimacs.Words

/-!
**The grammar of clause files.**

A clause file is described here by what it consists of, not by how it is read.  Its lines with a
word on them are a section of lines, the problem line, and another section.  A section consists of
comments and of groups of lines whose words, line ends left aside, split completely into clauses; so
a comment or the problem line can only stand where no clause is open.

Main definitions:

* `WeightedSat.Dimacs.IsClause` — the words of a clause: its weight, its literals and a zero;
* `WeightedSat.Dimacs.AreClauses` — words that split completely into clauses;
* `WeightedSat.Dimacs.IsSection` — comments and groups of clause lines;
* `WeightedSat.Dimacs.IsProblemLine` — the problem line;
* `WeightedSat.Dimacs.Denotes` — **the formula that a text denotes**;
* `WeightedSat.Dimacs.isComment` — which lines of a section belong to no clause.

Main results:

* `WeightedSat.Dimacs.AreClauses.append`, `WeightedSat.Dimacs.IsSection.append` — clauses and
  sections one after the other;
* `WeightedSat.Dimacs.AreClauses.head?_ne` — no word of a clause looks like a comment or a problem
  line;
* `WeightedSat.Dimacs.IsSection.areClauses_filter` — what is left of a section without its comments.
-/

set_option relaxedAutoImplicit false
set_option autoImplicit false

namespace WeightedSat.Dimacs

/-! ### Clauses -/

/-- A word that stands for a literal: a signed number of thirty-two bits other than zero. -/
def IsLiteral (word : List Char) (l : Literal) : Prop :=
  ∃ x : Int, Text.readSigned? 32 word = some x ∧ x ≠ 0 ∧ l = ⟨x.natAbs, 0 < x⟩

/-- A word that ends a clause: a zero. -/
def IsEnd (word : List Char) : Prop :=
  Text.readSigned? 32 word = some 0

/-- What stands in front of the literals: a finite positive weight where clauses are weighted,
nothing where each weighs one. -/
inductive IsWeight : Bool → List (List Char) → Float → Prop
  | unit : IsWeight false [] 1.0
  | given {word : List Char} {w : Float} (hread : Decimal.readFloat? word = some w)
      (hfinite : w.isFinite = true) (hpos : 0.0 < w) : IsWeight true [word] w

/-- **The words of a clause**: the weight, one or more literals of distinct names, and a zero. -/
inductive IsClause (weighted : Bool) : List (List Char) → Clause → Prop
  | mk {front body : List (List Char)} {last : List Char} {w : Float} {literals : List Literal}
      (hweight : IsWeight weighted front w) (hbody : List.Forall₂ IsLiteral body literals)
      (hne : literals ≠ []) (hdistinct : (literals.map (·.name)).Nodup) (hlast : IsEnd last) :
      IsClause weighted (front ++ body ++ [last]) ⟨w, literals⟩

/-- **Words that split completely into clauses.** -/
inductive AreClauses (weighted : Bool) : List (List Char) → List Clause → Prop
  | nil : AreClauses weighted [] []
  | cons {words rest : List (List Char)} {c : Clause} {cs : List Clause}
      (hc : IsClause weighted words c) (hrest : AreClauses weighted rest cs) :
      AreClauses weighted (words ++ rest) (c :: cs)

/-! ### Lines -/

/-- **Lines without problem line**: comments, and groups of lines whose words split completely into
clauses. -/
inductive IsSection (weighted : Bool) : List (List (List Char)) → List Clause → Prop
  | nil : IsSection weighted [] []
  | comment {first : List Char} {words : List (List Char)} {lines : List (List (List Char))}
      {cs : List Clause} (hfirst : first.head? = some 'c') (hrest : IsSection weighted lines cs) :
      IsSection weighted ((first :: words) :: lines) cs
  | clauses {group lines : List (List (List Char))} {cs ds : List Clause}
      (hgroup : AreClauses weighted group.flatten cs) (hrest : IsSection weighted lines ds) :
      IsSection weighted (group ++ lines) (cs ++ ds)

/-- A word that stands for a count: a positive number of thirty-two bits. -/
def IsCount (word : List Char) (n : Nat) : Prop :=
  Text.readInt? word = some (n : Int) ∧ 1 ≤ n ∧ n ≤ 2 ^ 32 - 1

/-- What stands behind the counts: nothing, or the threshold of a weighted problem. -/
inductive IsTop : Dialect → List (List Char) → Option Float → Prop
  | absent (dialect : Dialect) : IsTop dialect [] none
  | given {word : List Char} {x : Float} (hread : Decimal.readFloat? word = some x) :
      IsTop .weighted [word] (some x)

/-- **The problem line**: its mark, the dialect, the two counts and the threshold. -/
inductive IsProblemLine : List (List Char) → Header → Prop
  | mk {names clauses : List Char} {rest : List (List Char)} {header : Header}
      (hnames : IsCount names header.variableCount)
      (hclauses : IsCount clauses header.clauseCount)
      (htop : IsTop header.dialect rest header.top) :
      IsProblemLine
        ("p".toList :: header.dialect.keyword.toList :: names :: clauses :: rest) header

/-- **The formula that a text denotes.**  Only behind a weighted problem line do clauses have their
weight in front.  The problem line counts the clauses and the distinct names. -/
inductive Denotes (text : List Char) (f : Formula) : Prop
  | mk {before after : List (List (List Char))} {line : List (List Char)} {header : Header}
      {cs ds : List Clause} (hlines : wordLines text = before ++ line :: after)
      (hline : IsProblemLine line header) (hbefore : IsSection false before cs)
      (hafter : IsSection (header.dialect = .weighted) after ds)
      (hdialect : f.dialect = header.dialect) (htop : f.top = header.top)
      (hclauses : f.clauses = cs ++ ds) (hcount : f.clauses.length = header.clauseCount)
      (hnames : (f.clauses.flatMap Clause.names).toFinset.card = header.variableCount)
      (hlargest : IsGreatest { name | name ∈ f.clauses.flatMap Clause.names } f.largestName)

/-! ### One after the other -/

theorem AreClauses.append {weighted : Bool} {words rest : List (List Char)} {cs ds : List Clause}
    (h : AreClauses weighted words cs) (hrest : AreClauses weighted rest ds) :
    AreClauses weighted (words ++ rest) (cs ++ ds) := by
  induction h with
  | nil => exact hrest
  | cons hc _ ih =>
      rw [List.append_assoc]
      exact .cons hc ih

theorem AreClauses.concat {weighted : Bool} {words rest : List (List Char)} {cs : List Clause}
    {c : Clause} (h : AreClauses weighted words cs) (hc : IsClause weighted rest c) :
    AreClauses weighted (words ++ rest) (cs ++ [c]) := by
  have hone : AreClauses weighted (rest ++ []) [c] := .cons hc .nil
  rw [List.append_nil] at hone
  exact h.append hone

/-- Clauses on a line each. -/
theorem AreClauses.of_forall₂ {weighted : Bool} {lines : List (List (List Char))}
    {cs : List Clause} (h : List.Forall₂ (IsClause weighted) lines cs) :
    AreClauses weighted lines.flatten cs := by
  induction h with
  | nil => exact .nil
  | cons hc _ ih => exact .cons hc ih

theorem IsSection.append {weighted : Bool} {lines rest : List (List (List Char))}
    {cs ds : List Clause} (h : IsSection weighted lines cs) (hrest : IsSection weighted rest ds) :
    IsSection weighted (lines ++ rest) (cs ++ ds) := by
  induction h with
  | nil => exact hrest
  | comment hfirst _ ih => exact .comment hfirst ih
  | clauses hgroup _ ih =>
      rw [List.append_assoc, List.append_assoc]
      exact .clauses hgroup ih

/-- A group of lines at the end of a section. -/
theorem IsSection.append_group {weighted : Bool} {lines group : List (List (List Char))}
    {cs ds : List Clause} (h : IsSection weighted lines cs)
    (hgroup : AreClauses weighted group.flatten ds) :
    IsSection weighted (lines ++ group) (cs ++ ds) := by
  have hlast : IsSection weighted (group ++ []) (ds ++ []) := .clauses hgroup .nil
  rw [List.append_nil, List.append_nil] at hlast
  exact h.append hlast

/-! ### Clause by clause -/

theorem AreClauses.exists_isClause {weighted : Bool} {words : List (List Char)}
    {cs : List Clause} (h : AreClauses weighted words cs) :
    ∀ c ∈ cs, ∃ part, IsClause weighted part c := by
  induction h with
  | nil => simp
  | cons hc _ ih => exact List.forall_mem_cons.2 ⟨⟨_, hc⟩, ih⟩

/-- Every clause of a section has its words. -/
theorem IsSection.exists_isClause {weighted : Bool} {lines : List (List (List Char))}
    {cs : List Clause} (h : IsSection weighted lines cs) :
    ∀ c ∈ cs, ∃ part, IsClause weighted part c := by
  induction h with
  | nil => simp
  | comment _ _ ih => exact ih
  | clauses hgroup _ ih => exact List.forall_mem_append.2 ⟨hgroup.exists_isClause, ih⟩

/-! ### Words of clauses are numbers -/

/-- The first character of a comment or of a problem line. -/
def IsMark (a : Char) : Prop :=
  a = 'c' ∨ a = 'p'

theorem readInt?_mark {a : Char} (ha : IsMark a) (rest : List Char) :
    Text.readInt? (a :: rest) = none := by
  rcases ha with rfl | rfl <;> simp [Text.readInt?, Text.readDigits?, Text.isDigit]

theorem readFloat?_mark {a : Char} (ha : IsMark a) (rest : List Char) :
    Decimal.readFloat? (a :: rest) = none := by
  rcases ha with rfl | rfl <;>
    simp [Decimal.readFloat?, Decimal.readUnsigned?, Decimal.read?, Decimal.spanDigits,
      Decimal.spanFraction, Text.isDigit]

/-- A signed number of a width is an integer. -/
theorem readInt?_of_readSigned? {bits : Nat} {word : List Char} {x : Int}
    (h : Text.readSigned? bits word = some x) : Text.readInt? word = some x :=
  (Option.filter_eq_some_iff.1 h).1

theorem head?_ne_of_readSigned? {bits : Nat} {word : List Char} {x : Int}
    (h : Text.readSigned? bits word = some x) {a : Char} (ha : IsMark a) :
    word.head? ≠ some a := by
  intro hhead
  obtain ⟨rest, rfl⟩ := List.head?_eq_some_iff.1 hhead
  have hint := readInt?_of_readSigned? h
  rw [readInt?_mark ha] at hint
  cases hint

theorem IsWeight.head?_ne {weighted : Bool} {front : List (List Char)} {w : Float}
    (h : IsWeight weighted front w) {a : Char} (ha : IsMark a) :
    ∀ word ∈ front, word.head? ≠ some a := by
  cases h with
  | unit => simp
  | given hread _ _ =>
      intro word hword hhead
      obtain rfl := List.mem_singleton.1 hword
      obtain ⟨rest, rfl⟩ := List.head?_eq_some_iff.1 hhead
      rw [readFloat?_mark ha] at hread
      cases hread

theorem IsClause.head?_ne {weighted : Bool} {words : List (List Char)} {c : Clause}
    (h : IsClause weighted words c) {a : Char} (ha : IsMark a) :
    ∀ word ∈ words, word.head? ≠ some a := by
  cases h with
  | mk hweight hbody _ _ hlast =>
      intro word hword
      rcases List.mem_append.1 hword with hword | hword
      · rcases List.mem_append.1 hword with hword | hword
        · exact hweight.head?_ne ha word hword
        · obtain ⟨i, hi, rfl⟩ := List.getElem_of_mem hword
          obtain ⟨x, hread, -⟩ := hbody.get hi (hbody.length_eq ▸ hi)
          exact head?_ne_of_readSigned? hread ha
      · obtain rfl := List.mem_singleton.1 hword
        exact head?_ne_of_readSigned? hlast ha

/-- **No word of a clause looks like a comment or a problem line.** -/
theorem AreClauses.head?_ne {weighted : Bool} {words : List (List Char)} {cs : List Clause}
    (h : AreClauses weighted words cs) {a : Char} (ha : IsMark a) :
    ∀ word ∈ words, word.head? ≠ some a := by
  induction h with
  | nil => simp
  | cons hc _ ih =>
      intro word hword
      rcases List.mem_append.1 hword with hword | hword
      · exact hc.head?_ne ha word hword
      · exact ih word hword

/-- **No line of a section looks like a problem line.** -/
theorem IsSection.head?_ne {weighted : Bool} {lines : List (List (List Char))} {cs : List Clause}
    (h : IsSection weighted lines cs) :
    ∀ line ∈ lines, ∀ first ∈ line.head?, first.head? ≠ some 'p' := by
  induction h with
  | nil => simp
  | comment hfirst _ ih =>
      rw [List.forall_mem_cons]
      refine ⟨?_, ih⟩
      rintro first ⟨⟩ hhead
      rw [hfirst] at hhead
      cases hhead
  | clauses hgroup _ ih =>
      refine List.forall_mem_append.2 ⟨?_, ih⟩
      intro line hline first hfirst
      exact hgroup.head?_ne (Or.inr rfl) first
        (List.mem_flatten_of_mem hline (List.mem_of_mem_head? hfirst))

/-! ### Comments left out -/

/-- Whether a line starts like a comment. -/
def isComment (line : List (List Char)) : Bool :=
  line.head?.any fun first => first.head? = some 'c'

theorem isComment_eq_false {line : List (List Char)}
    (h : ∀ first ∈ line.head?, first.head? ≠ some 'c') : isComment line = false := by
  rw [isComment]
  cases line with
  | nil => rfl
  | cons first words => simpa using h first rfl

/-- The lines of a section that are no comments are clauses, one after the other. -/
theorem IsSection.areClauses_filter {weighted : Bool} {lines : List (List (List Char))}
    {cs : List Clause} (h : IsSection weighted lines cs) :
    AreClauses weighted (lines.filter (!isComment ·)).flatten cs := by
  induction h with
  | nil => exact .nil
  | @comment first words _ _ hfirst _ ih =>
      have hcomment : isComment (first :: words) = true := by simp [isComment, hfirst]
      rwa [List.filter_cons_of_neg (by simp [hcomment])]
  | @clauses group _ _ _ hgroup _ ih =>
      have hall : group.filter (!isComment ·) = group := by
        refine List.filter_eq_self.2 ?_
        intro line hline
        rw [isComment_eq_false, Bool.not_false]
        intro first hfirst
        exact hgroup.head?_ne (Or.inl rfl) first
          (List.mem_flatten_of_mem hline (List.mem_of_mem_head? hfirst))
      rw [List.filter_append, hall, List.flatten_append]
      exact hgroup.append ih

/-- A section without comments is a group of clauses. -/
theorem IsSection.areClauses {weighted : Bool} {lines : List (List (List Char))} {cs : List Clause}
    (h : IsSection weighted lines cs)
    (hlines : ∀ line ∈ lines, ∀ first ∈ line.head?, first.head? ≠ some 'c') :
    AreClauses weighted lines.flatten cs := by
  have hall : lines.filter (!isComment ·) = lines := by
    refine List.filter_eq_self.2 ?_
    intro line hline
    rw [isComment_eq_false (hlines line hline), Bool.not_false]
  have hclauses := h.areClauses_filter
  rwa [hall] at hclauses

end WeightedSat.Dimacs
