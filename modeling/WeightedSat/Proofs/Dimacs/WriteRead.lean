import WeightedSat.Dimacs.Writer
import WeightedSat.Proofs.Decimal.ReadBack
import WeightedSat.Proofs.Dimacs.Acceptance

/-!
**Which formulas survive being written and read.**

Any formula can be written, also one that no file holds: a clause without literals, a name twice in
a clause, a weight that is no number.  This module says exactly which formulas are read back as they
were written.  One direction follows the words that are written; for the other, everything that is
read has the form the grammar gives it, and equality of formulas carries that form over.

Main definitions:

* `WeightedSat.Dimacs.IsWritableClause`, `WeightedSat.Dimacs.Writable` — **the formulas that clause
  files hold**;
* `WeightedSat.Dimacs.Expressible` — the same, but for a threshold that is no number.

Main results:

* `WeightedSat.Dimacs.wordLines_renderChars` — the words of a written formula;
* `WeightedSat.Dimacs.Denotes.isWritableClause` — what is read has the form of the grammar;
* `WeightedSat.Dimacs.exists_parse_render_iff` — **a formula is read back exactly when it is
  writable**.
-/

set_option relaxedAutoImplicit false
set_option autoImplicit false

namespace WeightedSat.Dimacs

/-! ### The formulas that clause files hold -/

/-- A literal whose signed form is a number of thirty-two bits other than zero: there is one more
negative number than there are positive ones. -/
def IsWritableLiteral (l : Literal) : Prop :=
  (1 ≤ l.name ∧ l.name ≤ 2 ^ 31 - 1) ∨ l = ⟨2 ^ 31, false⟩

/-- A weight that the dialect can express. -/
def IsWritableWeight : Dialect → Float → Prop
  | .plain, w => (w == 1.0) = true
  | .weighted, w => w.isFinite = true ∧ 0.0 < w

/-- A threshold that the dialect can express, and that is equal to itself. -/
def IsWritableTop : Dialect → Option Float → Prop
  | .plain, top => top = none
  | .weighted, top => ∀ x ∈ top, x.isNaN = false

/-- A clause that a file can hold. -/
structure IsWritableClause (dialect : Dialect) (c : Clause) : Prop where
  ne_nil : c.literals ≠ []
  distinct : c.names.Nodup
  literals : ∀ l ∈ c.literals, IsWritableLiteral l
  weight : IsWritableWeight dialect c.weight

/-- **The formulas that clause files hold.** -/
structure Writable (f : Formula) : Prop where
  one_le : 1 ≤ f.clauses.length
  le : f.clauses.length ≤ 2 ^ 32 - 1
  clauses : ∀ c ∈ f.clauses, IsWritableClause f.dialect c
  largest : IsGreatest { name | name ∈ f.clauses.flatMap Clause.names } f.largestName
  top : IsWritableTop f.dialect f.top

/-- The formulas that can be written so that they are read: a threshold that is no number is one
again, although it is not equal to itself. -/
structure Expressible (f : Formula) : Prop where
  one_le : 1 ≤ f.clauses.length
  le : f.clauses.length ≤ 2 ^ 32 - 1
  clauses : ∀ c ∈ f.clauses, IsWritableClause f.dialect c
  largest : IsGreatest { name | name ∈ f.clauses.flatMap Clause.names } f.largestName
  top : f.dialect = .plain → f.top = none

theorem Writable.expressible {f : Formula} (h : Writable f) : Expressible f := by
  refine ⟨h.one_le, h.le, h.clauses, h.largest, ?_⟩
  intro hdialect
  have htop := h.top
  rwa [hdialect] at htop

/-! ### The words of a written formula -/

theorem isPlainWord_digits (n : Nat) : IsPlainWord (Text.digits n) :=
  ⟨Text.digits_ne_nil n, fun _ => Text.isBlank_of_mem_digits⟩

theorem isPlainWord_signedDigits (x : Int) : IsPlainWord (Text.signedDigits x) :=
  ⟨Text.signedDigits_ne_nil x, fun _ => Text.isBlank_of_mem_signedDigits⟩

theorem isPlainWord_write (x : Float) : IsPlainWord (Decimal.Layout.plain.write x) :=
  ⟨Decimal.write_ne_nil x, fun _ => Decimal.isBlank_of_mem_write⟩

/-- The words of a threshold. -/
def topWords : Dialect → Option Float → List (List Char)
  | .weighted, some top => [Decimal.Layout.plain.write top]
  | _, _ => []

/-- The words of a problem line. -/
def headerWords (f : Formula) : List (List Char) :=
  "p".toList :: f.dialect.keyword.toList :: Text.digits f.names.length ::
    Text.digits f.clauses.length :: topWords f.dialect f.top

/-- The words of a weight. -/
def weightWords : Dialect → Float → List (List Char)
  | .weighted, w => [Decimal.Layout.plain.write w]
  | .plain, _ => []

/-- The words of the literals of a clause. -/
def literalWords (c : Clause) : List (List Char) :=
  c.literals.map fun l => Text.signedDigits l.toSigned

/-- The words of a clause. -/
def clauseWords (dialect : Dialect) (c : Clause) : List (List Char) :=
  weightWords dialect c.weight ++ literalWords c ++ [['0']]

theorem wordLines_headerChars (f : Formula) (rest : List Char) :
    wordLines (headerChars f ++ rest) = headerWords f :: wordLines rest := by
  have hmark : IsPlainWord "p".toList := by decide
  have hkeyword : IsPlainWord f.dialect.keyword.toList := by
    cases f.dialect <;> decide
  have hnames := isPlainWord_digits f.names.length
  have hclauses := isPlainWord_digits f.clauses.length
  -- the last word of the line is the threshold where there is one
  have hwords : ∀ w ∈ ["p".toList, f.dialect.keyword.toList, Text.digits f.names.length],
      IsPlainWord w := by simpa using ⟨hmark, hkeyword, hnames⟩
  have hwords' : ∀ w ∈ ["p".toList, f.dialect.keyword.toList, Text.digits f.names.length,
      Text.digits f.clauses.length], IsPlainWord w := by
    simpa using ⟨hmark, hkeyword, hnames, hclauses⟩
  have hbare := wordLines_spaced hwords hclauses rest
  have hgiven := fun top => wordLines_spaced hwords' (isPlainWord_write top) rest
  cases hdialect : f.dialect with
  | plain => simpa [headerChars, headerWords, topChars, topWords, hdialect] using hbare
  | weighted =>
      cases htop : f.top with
      | none => simpa [headerChars, headerWords, topChars, topWords, hdialect, htop] using hbare
      | some top =>
          simpa [headerChars, headerWords, topChars, topWords, hdialect, htop] using hgiven top

theorem wordLines_clauseChars (dialect : Dialect) (c : Clause) (rest : List Char) :
    wordLines (clauseChars dialect c ++ rest) = clauseWords dialect c :: wordLines rest := by
  have hweight : ∀ w ∈ weightWords dialect c.weight, IsPlainWord w := by
    cases dialect with
    | plain => simp [weightWords]
    | weighted => simpa [weightWords] using isPlainWord_write c.weight
  have hliterals : ∀ w ∈ literalWords c, IsPlainWord w := by
    intro w hw
    obtain ⟨l, -, rfl⟩ := List.mem_map.1 hw
    exact isPlainWord_signedDigits l.toSigned
  have hend : IsPlainWord ['0'] := by decide
  have hwords := wordLines_spaced (List.forall_mem_append.2 ⟨hweight, hliterals⟩) hend rest
  have hfront : weightChars dialect c.weight =
      (weightWords dialect c.weight).flatMap (· ++ [' ']) := by
    cases dialect with
    | plain => rfl
    | weighted => simp [weightChars, weightWords]
  rw [clauseWords, ← hwords, clauseChars, hfront, literalWords]
  simp [List.flatMap_map]

/-- **The words of a written formula.** -/
theorem wordLines_renderChars (f : Formula) :
    wordLines (renderChars f) = headerWords f :: f.clauses.map (clauseWords f.dialect) := by
  have hclauses : ∀ cs : List Clause, wordLines (cs.flatMap (clauseChars f.dialect)) =
      cs.map (clauseWords f.dialect) := by
    intro cs
    induction cs with
    | nil => rfl
    | cons c cs ih => rw [List.flatMap_cons, wordLines_clauseChars, ih, List.map_cons]
  rw [renderChars, wordLines_headerChars, hclauses]

/-! ### What is written is read -/

/-- What is read of a written clause: the plain dialect has no place for its weight. -/
def readBack : Dialect → Clause → Clause
  | .plain, c => ⟨1.0, c.literals⟩
  | .weighted, c => c

@[simp] theorem literals_readBack (dialect : Dialect) (c : Clause) :
    (readBack dialect c).literals = c.literals := by
  cases dialect <;> rfl

theorem names_readBack (dialect : Dialect) (cs : List Clause) :
    (cs.map (readBack dialect)).flatMap Clause.names = cs.flatMap Clause.names := by
  rw [List.flatMap_map]
  refine congrArg (cs.flatMap ·) (funext fun c => ?_)
  rw [Clause.names, literals_readBack, Clause.names]

theorem IsWritableLiteral.bounds {l : Literal} (h : IsWritableLiteral l) :
    1 ≤ l.name ∧ l.name ≤ 2 ^ 31 := by
  rcases h with h | rfl
  · omega
  · decide

theorem IsWritableLiteral.isLiteral {l : Literal} (h : IsWritableLiteral l) :
    IsLiteral (Text.signedDigits l.toSigned) l := by
  have hbounds := h.bounds
  have hfits : FitsSigned 32 l.toSigned := by
    rw [fitsSigned_thirtyTwo, Literal.toSigned]
    rcases h with h | rfl
    · split <;> omega
    · decide
  exact isLiteral_iff.2 ⟨l.toSigned, Text.readSigned?_signedDigits hfits,
    Literal.ofSigned?_toSigned (by omega)⟩

theorem IsWritableWeight.isWeight {dialect : Dialect} {c : Clause}
    (h : IsWritableWeight dialect c.weight) :
    IsWeight (dialect = .weighted) (weightWords dialect c.weight) (readBack dialect c).weight := by
  cases dialect with
  | plain => exact .unit
  | weighted => exact .given (Decimal.readFloat?_write c.weight) h.1 h.2

theorem isEnd_zero : IsEnd ['0'] := by
  have hzero : Text.signedDigits 0 = ['0'] := by decide
  rw [IsEnd, ← hzero]
  exact Text.readSigned?_signedDigits (by decide)

/-- **A written clause is a clause.** -/
theorem IsWritableClause.isClause {dialect : Dialect} {c : Clause}
    (h : IsWritableClause dialect c) :
    IsClause (dialect = .weighted) (clauseWords dialect c) (readBack dialect c) := by
  have hliterals : List.Forall₂ IsLiteral (literalWords c) c.literals := by
    rw [literalWords, List.forall₂_map_left_iff, List.forall₂_same]
    exact fun l hl => (h.literals l hl).isLiteral
  have hclause := IsClause.mk h.weight.isWeight hliterals h.ne_nil h.distinct isEnd_zero
  rwa [← literals_readBack dialect c] at hclause

theorem areClauses_of_isWritableClause {dialect : Dialect} {cs : List Clause}
    (h : ∀ c ∈ cs, IsWritableClause dialect c) :
    AreClauses (dialect = .weighted) (cs.map (clauseWords dialect)).flatten
      (cs.map (readBack dialect)) := by
  refine .of_forall₂ ?_
  rw [List.forall₂_map_left_iff, List.forall₂_map_right_iff, List.forall₂_same]
  exact fun c hc => (h c hc).isClause

theorem isCount_digits {n : Nat} (hpos : 1 ≤ n) (hle : n ≤ 2 ^ 32 - 1) :
    IsCount (Text.digits n) n :=
  ⟨Text.readInt?_digits n, hpos, hle⟩

/-- The number of names of a formula that can be written, none of which exceeds `2 ^ 31`. -/
theorem Expressible.isCount_names {f : Formula} (h : Expressible f) :
    IsCount (Text.digits f.names.length) f.names.length := by
  have hbounds : ∀ name ∈ f.clauses.flatMap Clause.names, 1 ≤ name ∧ name ≤ 2 ^ 31 := by
    intro name hname
    obtain ⟨c, hc, hname⟩ := List.mem_flatMap.1 hname
    obtain ⟨l, hl, rfl⟩ := List.mem_map.1 hname
    exact ((h.clauses c hc).literals l hl).bounds
  have hcard := length_distinctNames f.clauses
  have hle : (f.clauses.flatMap Clause.names).toFinset.card ≤ (Finset.Icc 1 (2 ^ 31)).card := by
    refine Finset.card_le_card ?_
    intro name hname
    exact Finset.mem_Icc.2 (hbounds name (List.mem_toFinset.1 hname))
  have hpos : 0 < (f.clauses.flatMap Clause.names).toFinset.card :=
    Finset.card_pos.2 ⟨f.largestName, List.mem_toFinset.2 h.largest.1⟩
  rw [Nat.card_Icc] at hle
  rw [Formula.names, hcard]
  exact isCount_digits hpos (by omega)

/-- **A written formula denotes what is read of it.** -/
theorem Expressible.denotes {f : Formula} (h : Expressible f) :
    Denotes (renderChars f) { f with clauses := f.clauses.map (readBack f.dialect) } := by
  have htop : IsTop f.dialect (topWords f.dialect f.top) f.top := by
    have htop := h.top
    revert htop
    cases f.dialect with
    | plain =>
        intro htop
        rw [htop rfl]
        exact .absent .plain
    | weighted =>
        intro _
        cases f.top with
        | none => exact .absent .weighted
        | some top => exact .given (Decimal.readFloat?_write top)
  have hsection := IsSection.nil.append_group (areClauses_of_isWritableClause h.clauses)
  rw [List.nil_append, List.nil_append] at hsection
  have hline : IsProblemLine (headerWords f)
      ⟨f.dialect, f.names.length, f.clauses.length, f.top⟩ := by
    rw [headerWords]
    exact @IsProblemLine.mk _ _ _ ⟨f.dialect, _, _, f.top⟩ h.isCount_names
      (isCount_digits h.one_le h.le) htop
  refine .mk (wordLines_renderChars f) hline .nil hsection rfl rfl rfl ?_ ?_ ?_
  · exact List.length_map _
  · rw [names_readBack]
    exact (length_distinctNames f.clauses).symm
  · rw [names_readBack]
    exact h.largest

theorem parse_render (f : Formula) : parse (render f) = parseChars (renderChars f) := by
  rw [parse, render, String.toList_ofList]

/-! ### Equality of formulas -/

theorem clause_beq_iff {c d : Clause} :
    (c == d) = true ↔ (c.weight == d.weight) = true ∧ c.literals = d.literals := by
  change ((c.weight == d.weight) && (c.literals == d.literals)) = true ↔ _
  rw [Bool.and_eq_true_iff, beq_iff_eq (a := c.literals)]

theorem clauses_beq_iff {cs ds : List Clause} :
    (cs == ds) = true ↔ List.Forall₂ (fun c d => (c == d) = true) cs ds := by
  induction cs generalizing ds with
  | nil => cases ds <;> simp
  | cons c cs ih =>
      cases ds with
      | nil => simp
      | cons d ds => rw [List.cons_beq_cons, Bool.and_eq_true_iff, List.forall₂_cons, ih]

theorem formula_beq_iff {f g : Formula} :
    (g == f) = true ↔ g.dialect = f.dialect ∧ g.largestName = f.largestName ∧
      (g.top == f.top) = true ∧ List.Forall₂ (fun c d => (c == d) = true) g.clauses f.clauses := by
  change ((g.dialect == f.dialect) && ((g.largestName == f.largestName) &&
    ((g.top == f.top) && (g.clauses == f.clauses)))) = true ↔ _
  rw [Bool.and_eq_true_iff, Bool.and_eq_true_iff, Bool.and_eq_true_iff, beq_iff_eq, beq_iff_eq,
    clauses_beq_iff]

/-- **What is read of a written formula is equal to it.** -/
theorem Writable.readBack_beq {f : Formula} (h : Writable f) :
    ({ f with clauses := f.clauses.map (readBack f.dialect) } == f) = true := by
  refine formula_beq_iff.2 ⟨rfl, rfl, ?_, ?_⟩
  · have htop := h.top
    revert htop
    cases f.dialect with
    | plain =>
        rintro (htop : f.top = none)
        rw [htop]
        rfl
    | weighted =>
        intro htop
        cases hf : f.top with
        | none => rfl
        | some x => exact Binary64.beq_self_iff.2 (htop x hf)
  · rw [List.forall₂_map_left_iff, List.forall₂_same]
    intro c hc
    have hweight := (h.clauses c hc).weight
    refine clause_beq_iff.2 ⟨?_, literals_readBack f.dialect c⟩
    revert hweight
    cases f.dialect with
    | plain => exact Binary64.beq_symm
    | weighted => exact fun hweight => (Binary64.beq_iff hweight.1 hweight.1).2 rfl

/-! ### What is read has the form of the grammar -/

theorem IsLiteral.isWritable {word : List Char} {l : Literal} (h : IsLiteral word l) :
    IsWritableLiteral l := by
  obtain ⟨x, hread, hne, rfl⟩ := h
  have hfits := of_decide_eq_true (Option.filter_eq_some_iff.1 hread).2
  rw [fitsSigned_thirtyTwo] at hfits
  rcases eq_or_ne x (-2147483648) with rfl | hleast
  · exact Or.inr rfl
  · refine Or.inl ⟨?_, ?_⟩ <;> simp only <;> omega

theorem IsWeight.isWritable {weighted : Bool} {front : List (List Char)} {w : Float}
    (h : IsWeight weighted front w) {dialect : Dialect}
    (hplain : dialect = .plain → weighted = false) : IsWritableWeight dialect w := by
  cases h with
  | unit =>
      cases dialect with
      | plain => exact (rfl : ((1.0 : Float) == 1.0) = true)
      | weighted => exact ⟨rfl, by decide⟩
  | given hread hfinite hpos =>
      cases dialect with
      | plain => cases hplain rfl
      | weighted => exact ⟨hfinite, hpos⟩

theorem IsClause.isWritable {weighted : Bool} {words : List (List Char)} {c : Clause}
    (h : IsClause weighted words c) {dialect : Dialect}
    (hplain : dialect = .plain → weighted = false) : IsWritableClause dialect c := by
  cases h with
  | mk hweight hbody hne hdistinct _ =>
      refine ⟨hne, hdistinct, ?_, hweight.isWritable hplain⟩
      intro l hl
      obtain ⟨i, hi, rfl⟩ := List.getElem_of_mem hl
      exact (hbody.get (hbody.length_eq ▸ hi) hi).isWritable

/-- **The clauses that are read have the form of the grammar.** -/
theorem Denotes.isWritableClause {text : List Char} {f : Formula} (h : Denotes text f) :
    ∀ c ∈ f.clauses, IsWritableClause f.dialect c := by
  cases h with
  | @mk _ _ _ header _ _ _ _ hbefore hafter hdialect _ hclauses _ _ _ =>
      rw [hclauses, hdialect, List.forall_mem_append]
      constructor
      · intro c hc
        obtain ⟨part, hpart⟩ := hbefore.exists_isClause c hc
        exact hpart.isWritable fun _ => rfl
      · intro c hc
        obtain ⟨part, hpart⟩ := hafter.exists_isClause c hc
        refine hpart.isWritable ?_
        intro hplain
        rw [hplain]
        rfl

/-! ### Equality carries the form over -/

theorem IsWritableWeight.of_beq {dialect : Dialect} {x y : Float} (h : IsWritableWeight dialect x)
    (hxy : (x == y) = true) : IsWritableWeight dialect y := by
  cases dialect with
  | plain =>
      have hx : x.isFinite = true := Binary64.isFinite_of_beq rfl (Binary64.beq_symm h)
      have hy := Binary64.isFinite_of_beq hx hxy
      refine (Binary64.beq_iff hy rfl).2 ?_
      rw [← (Binary64.beq_iff hx hy).1 hxy]
      exact (Binary64.beq_iff hx rfl).1 h
  | weighted =>
      obtain ⟨hx, hpos⟩ := h
      have hy := Binary64.isFinite_of_beq hx hxy
      refine ⟨hy, (Binary64.lt_iff rfl hy).2 ?_⟩
      rw [← (Binary64.beq_iff hx hy).1 hxy]
      exact (Binary64.lt_iff rfl hx).1 hpos

theorem IsWritableClause.of_beq {dialect : Dialect} {c d : Clause} (h : IsWritableClause dialect c)
    (hcd : (c == d) = true) : IsWritableClause dialect d := by
  obtain ⟨hweight, hliterals⟩ := clause_beq_iff.1 hcd
  have hne := h.ne_nil
  have hdistinct := h.distinct
  have hfit := h.literals
  rw [Clause.names] at hdistinct
  rw [hliterals] at hne hdistinct hfit
  exact ⟨hne, hdistinct, hfit, h.weight.of_beq hweight⟩

theorem IsTop.isWritable_of_beq {dialect : Dialect} {words : List (List Char)}
    {top top' : Option Float} (h : IsTop dialect words top) (hbeq : (top == top') = true) :
    IsWritableTop dialect top' := by
  cases h with
  | absent =>
      cases top' with
      | some y => cases hbeq
      | none =>
          cases dialect with
          | plain => rfl
          | weighted => exact fun y hy => nomatch hy
  | given _ =>
      intro y hy
      obtain rfl : top' = some y := hy
      exact Binary64.isNaN_of_beq hbeq

/-- Equal lists of clauses have the same names. -/
theorem names_eq_of_beq {cs ds : List Clause}
    (h : List.Forall₂ (fun c d => (c == d) = true) cs ds) :
    cs.flatMap Clause.names = ds.flatMap Clause.names := by
  induction h with
  | nil => rfl
  | cons hcd _ ih =>
      rw [List.flatMap_cons, List.flatMap_cons, ih, Clause.names, (clause_beq_iff.1 hcd).2,
        Clause.names]

/-- **A formula equal to one that is read is writable.** -/
theorem Denotes.writable_of_beq {text : List Char} {f g : Formula} (h : Denotes text g)
    (hgf : (g == f) = true) : Writable f := by
  obtain ⟨hdialect, hlargest, htop, hclauses⟩ := formula_beq_iff.1 hgf
  have hwritable := h.isWritableClause
  have hlength := hclauses.length_eq
  cases h with
  | @mk before after line header cs ds _ hline _ _ hdialect' htop' _ hcount _ hgreatest =>
      cases hline with
      | mk _ hcounted hthreshold =>
          obtain ⟨-, hpos, hle⟩ := hcounted
          rw [← hcount, hlength] at hpos hle
          rw [names_eq_of_beq hclauses, hlargest] at hgreatest
          refine ⟨hpos, hle, ?_, hgreatest, ?_⟩
          · intro d hd
            obtain ⟨i, hi, rfl⟩ := List.getElem_of_mem hd
            have hi' : i < g.clauses.length := hlength ▸ hi
            rw [← hdialect]
            exact (hwritable _ (List.getElem_mem hi')).of_beq (hclauses.get hi' hi)
          · rw [← htop', ← hdialect', hdialect] at hthreshold
            exact hthreshold.isWritable_of_beq htop

/-- **A formula survives being written and read** exactly when it is one that clause files hold. -/
theorem exists_parse_render_iff (f : Formula) :
    (∃ g, parse (render f) = .ok g ∧ (g == f) = true) ↔ Writable f := by
  rw [parse_render]
  constructor
  · rintro ⟨g, hread, hgf⟩
    exact (Denotes.of_parseChars hread).writable_of_beq hgf
  · intro h
    exact ⟨_, h.expressible.denotes.parseChars_eq_ok, h.readBack_beq⟩

end WeightedSat.Dimacs
