import Mathlib.Data.List.TakeWhile
import WeightedSat.Proofs.Dimacs.Acceptance

/-!
**Where the weights of a clause file stand.**

In a weighted file the first word of a clause is its weight, and the words from there to the closing
zero are its literals.  But it is the problem line that says whether a file is weighted.  A clause
before the problem line has no weight in front: it weighs one, and its first word is a literal like
the others, even if the problem line then turns out to be a weighted one.  So a weighted file can be
relied on exactly when its problem line is in front of all clauses.

Main definitions:

* `WeightedSat.Dimacs.wordsOfClauses` — the words of the lines that are neither comments nor the
  problem line;
* `WeightedSat.Dimacs.WeighsInFront`, `WeightedSat.Dimacs.EachWeighsInFront` — **a clause, or each
  clause of a file, has its weight in front**;
* `WeightedSat.Dimacs.ProblemLineFirst` — only comments stand before the problem line.

Main results:

* `WeightedSat.Dimacs.Denotes.exists_words` — the words of the clauses before and behind the problem
  line;
* `WeightedSat.Dimacs.Denotes.eachWeighsInFront_iff` — **weights are in front exactly when the
  problem line is**;
* `WeightedSat.Dimacs.weights_of_parse` — the same of what is read.
-/

set_option relaxedAutoImplicit false
set_option autoImplicit false

namespace WeightedSat.Dimacs

/-! ### Weights in front -/

/-- Whether a line starts like a problem line. -/
def isProblem (line : List (List Char)) : Bool :=
  line.head?.any fun first => first.head? = some 'p'

/-- The words of the lines that are neither comments nor problem lines. -/
def wordsOfClauses (lines : List (List (List Char))) : List (List Char) :=
  (lines.filter fun line => !isComment line && !isProblem line).flatten

/-- **The words of a clause with its weight in front**: the weight, the literals and a zero. -/
def WeighsInFront (words : List (List Char)) (c : Clause) : Prop :=
  ∃ weight body last, words = weight :: body ++ [last] ∧
    Decimal.readFloat? weight = some c.weight ∧ List.Forall₂ IsLiteral body c.literals ∧ IsEnd last

/-- **Each clause has its weight in front**: the words of the clauses, cut into as many parts. -/
def EachWeighsInFront (lines : List (List (List Char))) (cs : List Clause) : Prop :=
  ∃ parts, parts.flatten = wordsOfClauses lines ∧ List.Forall₂ WeighsInFront parts cs

/-- The lines before the problem line. -/
def linesBefore (lines : List (List (List Char))) : List (List (List Char)) :=
  lines.takeWhile (!isProblem ·)

/-- The problem line and the lines behind it. -/
def linesFrom (lines : List (List (List Char))) : List (List (List Char)) :=
  lines.dropWhile (!isProblem ·)

/-- Only comments stand before the problem line. -/
def ProblemLineFirst (lines : List (List (List Char))) : Prop :=
  ∀ line ∈ linesBefore lines, isComment line = true

/-! ### The words of clauses -/

theorem AreClauses.exists_parts {weighted : Bool} {words : List (List Char)} {cs : List Clause}
    (h : AreClauses weighted words cs) :
    ∃ parts, parts.flatten = words ∧ List.Forall₂ (IsClause weighted) parts cs := by
  induction h with
  | nil => exact ⟨[], rfl, .nil⟩
  | cons hc _ ih =>
      obtain ⟨parts, rfl, hparts⟩ := ih
      exact ⟨_ :: parts, rfl, .cons hc hparts⟩

theorem IsClause.weighsInFront {words : List (List Char)} {c : Clause} (h : IsClause true words c) :
    WeighsInFront words c := by
  cases h with
  | mk hweight hbody _ _ hlast =>
      cases hweight with
      | given hread _ _ => exact ⟨_, _, _, rfl, hread, hbody, hlast⟩

/-- A clause with its weight in front has two words more than literals. -/
theorem WeighsInFront.length_eq {words : List (List Char)} {c : Clause}
    (h : WeighsInFront words c) : words.length = c.literals.length + 2 := by
  obtain ⟨weight, body, last, rfl, -, hbody, -⟩ := h
  simp [hbody.length_eq]

/-- A clause without one has only one more. -/
theorem IsClause.length_eq {words : List (List Char)} {c : Clause} (h : IsClause false words c) :
    words.length = c.literals.length + 1 := by
  cases h with
  | mk hweight hbody _ _ _ =>
      cases hweight
      simp [hbody.length_eq]

/-- The number of words of clauses that each have the same number of words beside the literals. -/
theorem length_flatten_of_forall₂ {R : List (List Char) → Clause → Prop} {k : Nat}
    (hR : ∀ words c, R words c → words.length = c.literals.length + k)
    {parts : List (List (List Char))} {cs : List Clause} (h : List.Forall₂ R parts cs) :
    parts.flatten.length = (cs.flatMap Clause.literals).length + k * cs.length := by
  induction h with
  | nil => rfl
  | cons hc _ ih =>
      rw [List.flatten_cons, List.length_append, hR _ _ hc, ih, List.flatMap_cons,
        List.length_append, List.length_cons, Nat.mul_succ]
      omega

/-! ### Before and behind the problem line -/

theorem isProblem_eq_false {line : List (List Char)}
    (h : ∀ first ∈ line.head?, first.head? ≠ some 'p') : isProblem line = false := by
  rw [isProblem]
  cases line with
  | nil => rfl
  | cons first words => simpa using h first rfl

theorem IsProblemLine.isProblem_eq {line : List (List Char)} {header : Header}
    (h : IsProblemLine line header) : isProblem line = true := by
  cases h
  rfl

/-- The words of a section that belong to its clauses. -/
theorem IsSection.areClauses_wordsOfClauses {weighted : Bool} {lines : List (List (List Char))}
    {cs : List Clause} (h : IsSection weighted lines cs) :
    AreClauses weighted (wordsOfClauses lines) cs := by
  have hfilter : lines.filter (fun line => !isComment line && !isProblem line) =
      lines.filter (!isComment ·) := by
    refine List.filter_congr ?_
    intro line hline
    rw [isProblem_eq_false (h.head?_ne line hline), Bool.not_false, Bool.and_true]
  rw [wordsOfClauses, hfilter]
  exact h.areClauses_filter

variable {text : List Char} {f : Formula}

/-- **The words of the clauses** of a weighted file: those before the problem line have no weight in
front and weigh one, those behind it have one. -/
theorem Denotes.exists_words (h : Denotes text f) (hweighted : f.dialect = .weighted) :
    ∃ cs ds, f.clauses = cs ++ ds ∧
      AreClauses false (wordsOfClauses (linesBefore (wordLines text))) cs ∧
      AreClauses true (wordsOfClauses (linesFrom (wordLines text))) ds ∧
      wordsOfClauses (wordLines text) = wordsOfClauses (linesBefore (wordLines text)) ++
        wordsOfClauses (linesFrom (wordLines text)) := by
  cases h with
  | @mk before after line header cs ds hlines hline hbefore hafter hdialect _ hclauses _ _ _ =>
      have hproblem := hline.isProblem_eq
      have hnone : ∀ l ∈ before, (!isProblem l) = true := by
        intro l hl
        rw [isProblem_eq_false (hbefore.head?_ne l hl), Bool.not_false]
      have htake : linesBefore (wordLines text) = before := by
        rw [linesBefore, hlines, List.takeWhile_append_of_pos hnone,
          List.takeWhile_cons_of_neg (by simp [hproblem]), List.append_nil]
      have hdrop : linesFrom (wordLines text) = line :: after := by
        rw [linesFrom, hlines, List.dropWhile_append_of_pos hnone,
          List.dropWhile_cons_of_neg (by simp [hproblem])]
      have hskip : wordsOfClauses (line :: after) = wordsOfClauses after := by
        rw [wordsOfClauses, List.filter_cons_of_neg (by simp [hproblem]), wordsOfClauses]
      rw [← hdialect, hweighted] at hafter
      refine ⟨cs, ds, hclauses, ?_, ?_, ?_⟩
      · rw [htake]
        exact hbefore.areClauses_wordsOfClauses
      · rw [hdrop, hskip]
        exact hafter.areClauses_wordsOfClauses
      · rw [htake, hdrop, hlines, wordsOfClauses, List.filter_append, List.flatten_append]
        rfl

/-- No clause stands before the problem line exactly when only comments do. -/
theorem problemLineFirst_iff {cs : List Clause}
    (h : AreClauses false (wordsOfClauses (linesBefore (wordLines text))) cs) :
    ProblemLineFirst (wordLines text) ↔ cs = [] := by
  obtain ⟨parts, hparts, hclauses⟩ := h.exists_parts
  have hlength := length_flatten_of_forall₂ (fun _ _ => IsClause.length_eq) hclauses
  rw [hparts] at hlength
  constructor
  · intro hfirst
    have hnone : wordsOfClauses (linesBefore (wordLines text)) = [] := by
      rw [wordsOfClauses, List.filter_eq_nil_iff.2, List.flatten_nil]
      intro line hline
      simp [hfirst line hline]
    rw [hnone, List.length_nil] at hlength
    exact List.length_eq_zero_iff.1 (by omega)
  · rintro rfl line hline
    by_contra hcomment
    -- a line without a word would be the only way not to see it among the words
    have hmem : line ∈ wordLines text := List.takeWhile_subset _ hline
    have hproblem : isProblem line = false := by
      simpa using List.mem_takeWhile_imp hline
    have hne : line ≠ [] := by
      have hword := (List.mem_filter.1 hmem).2
      simpa using hword
    obtain ⟨word, hword⟩ := List.exists_mem_of_ne_nil line hne
    have hin : word ∈ wordsOfClauses (linesBefore (wordLines text)) := by
      refine List.mem_flatten_of_mem (List.mem_filter.2 ⟨hline, ?_⟩) hword
      rw [Bool.not_eq_true] at hcomment
      rw [hcomment, hproblem]
      rfl
    have hpos := List.length_pos_of_mem hin
    rw [hlength] at hpos
    simp at hpos

/-- **Weights are in front exactly when the problem line is.**  Cut differently, the words would not
be enough: each clause before the problem line has one word too few. -/
theorem Denotes.eachWeighsInFront_iff (h : Denotes text f) (hweighted : f.dialect = .weighted) :
    EachWeighsInFront (wordLines text) f.clauses ↔ ProblemLineFirst (wordLines text) := by
  obtain ⟨cs, ds, hclauses, hbefore, hafter, hwords⟩ := h.exists_words hweighted
  rw [problemLineFirst_iff hbefore]
  obtain ⟨front, hfront, hcs⟩ := hbefore.exists_parts
  obtain ⟨back, hback, hds⟩ := hafter.exists_parts
  have hback' : List.Forall₂ WeighsInFront back ds := hds.imp fun _ _ => IsClause.weighsInFront
  constructor
  · rintro ⟨parts, hparts, hall⟩
    have hlength := length_flatten_of_forall₂ (fun _ _ => WeighsInFront.length_eq) hall
    have hlengthFront := length_flatten_of_forall₂ (fun _ _ => IsClause.length_eq) hcs
    have hlengthBack := length_flatten_of_forall₂ (fun _ _ => WeighsInFront.length_eq) hback'
    rw [hparts, hwords, ← hfront, ← hback, List.length_append, hlengthFront, hlengthBack, hclauses,
      List.flatMap_append, List.length_append, List.length_append] at hlength
    exact List.length_eq_zero_iff.1 (by omega)
  · rintro rfl
    cases hcs
    refine ⟨back, ?_, ?_⟩
    · rw [hwords, ← hfront, hback]
      rfl
    · rw [hclauses]
      exact hback'

/-! ### What is read -/

/-- **Where the weights of a weighted file stand.**  The clauses that are read are those before the
problem line, each of weight one with all its words as literals, and those behind it, each with its
weight in front; and all clauses of the file have their weight in front exactly when the problem
line is before all of them. -/
theorem weights_of_parse {text : String} {f : Formula} (h : parse text = .ok f)
    (hweighted : f.dialect = .weighted) :
    (EachWeighsInFront (wordLines text.toList) f.clauses ↔
        ProblemLineFirst (wordLines text.toList)) ∧
      ∃ cs ds front back, f.clauses = cs ++ ds ∧
        front.flatten = wordsOfClauses (linesBefore (wordLines text.toList)) ∧
        back.flatten = wordsOfClauses (linesFrom (wordLines text.toList)) ∧
        wordsOfClauses (wordLines text.toList) = front.flatten ++ back.flatten ∧
        List.Forall₂ (IsClause false) front cs ∧ List.Forall₂ WeighsInFront back ds := by
  have hdenotes := Denotes.of_parseChars h
  refine ⟨hdenotes.eachWeighsInFront_iff hweighted, ?_⟩
  obtain ⟨cs, ds, hclauses, hbefore, hafter, hwords⟩ := hdenotes.exists_words hweighted
  obtain ⟨front, hfront, hcs⟩ := hbefore.exists_parts
  obtain ⟨back, hback, hds⟩ := hafter.exists_parts
  refine ⟨cs, ds, front, back, hclauses, hfront, hback, ?_, hcs, ?_⟩
  · rw [hwords, hfront, hback]
  · exact hds.imp fun _ _ => IsClause.weighsInFront

/-- Two clauses on three lines, behind a comment and the problem line. -/
theorem weights_of_parse_sample :
    ∃ f, parse "c first\np wcnf 3 2\n2.5 1\n-2 0 4 3\n0\n" = .ok f ∧ f.dialect = .weighted ∧
      EachWeighsInFront (wordLines "c first\np wcnf 3 2\n2.5 1\n-2 0 4 3\n0\n".toList)
        f.clauses := by
  obtain ⟨f, hf, hweighted⟩ : ∃ f, parse "c first\np wcnf 3 2\n2.5 1\n-2 0 4 3\n0\n" = .ok f ∧
      f.dialect = .weighted := ⟨_, rfl, rfl⟩
  obtain ⟨hiff, -⟩ := weights_of_parse hf hweighted
  refine ⟨f, hf, hweighted, hiff.2 ?_⟩
  unfold ProblemLineFirst
  decide

/-- **A weight before the problem line is taken for a literal**: the two clauses of this file weigh
one each and have two literals, although they are written with the weights two and one. -/
theorem exists_weight_read_as_literal :
    ∃ f, parse "2 1 0\n1 2 0\np wcnf 2 2\n" = .ok f ∧ f.dialect = .weighted ∧
      f.clauses.map (·.literals.map Literal.toSigned) = [[2, 1], [1, 2]] ∧
      ¬ EachWeighsInFront (wordLines "2 1 0\n1 2 0\np wcnf 2 2\n".toList) f.clauses := by
  obtain ⟨f, hf, hweighted, hliterals⟩ : ∃ f, parse "2 1 0\n1 2 0\np wcnf 2 2\n" = .ok f ∧
      f.dialect = .weighted ∧ f.clauses.map (·.literals.map Literal.toSigned) = [[2, 1], [1, 2]] :=
    ⟨_, rfl, rfl, rfl⟩
  refine ⟨f, hf, hweighted, hliterals, ?_⟩
  rw [(Denotes.of_parseChars hf).eachWeighsInFront_iff hweighted]
  unfold ProblemLineFirst
  decide

end WeightedSat.Dimacs
