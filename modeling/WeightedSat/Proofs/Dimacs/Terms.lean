import WeightedSat.Proofs.Dimacs.WriteRead
import WeightedSat.Proofs.Terms

/-!
**Terms in a clause file.**

Each term stands on a line of its own, with its weight in front and a zero behind.  A zero among the
literals of a term ends a clause early, and all words after it are taken for something else.  That
this cannot go unnoticed is a matter of counting: every clause of the file ends in a zero and has no
other, so a file with as many clauses as it has terms has no zero but those at the ends of lines.

Main definitions:

* `WeightedSat.Dimacs.wholeText` — a clause file with one term on each line.

Main results:

* `WeightedSat.Dimacs.AreClauses.count_zero` — **there are as many zeros as clauses**;
* `WeightedSat.Dimacs.AreClauses.forall₂` — lines that end in their only zeros are clauses;
* `WeightedSat.Dimacs.parse_wholeText_eq_ok` — a clause file of terms is read;
* `WeightedSat.Dimacs.describes_of_parse` — **what is read are the clauses that the terms
  describe**.
-/

set_option relaxedAutoImplicit false
set_option autoImplicit false

namespace WeightedSat.Dimacs

/-! ### The text -/

/-- The line of a term with its end. -/
def wholeLine (t : WholeTerm) : List Char :=
  Text.digits t.weight ++ ' ' :: t.ids.flatMap (fun x => Text.signedDigits x ++ [' ']) ++
    ['0', '\n']

/-- The number of distinct names of terms. -/
def nameCount (terms : List WholeTerm) : Nat :=
  (((terms.flatMap (·.ids)).filter (· ≠ 0)).map Int.natAbs).toFinset.card

/-- **A clause file with one term on each line.** -/
def wholeText (terms : List WholeTerm) : String :=
  String.ofList ("p wcnf ".toList ++ Text.digits (nameCount terms) ++
    ' ' :: Text.digits terms.length ++ '\n' :: terms.flatMap wholeLine)

/-- The words of a term. -/
def wholeWords (t : WholeTerm) : List (List Char) :=
  Text.digits t.weight :: t.ids.map Text.signedDigits ++ [['0']]

theorem wordLines_wholeLine (t : WholeTerm) (rest : List Char) :
    wordLines (wholeLine t ++ rest) = wholeWords t :: wordLines rest := by
  have hids : ∀ w ∈ t.ids.map Text.signedDigits, IsPlainWord w := by
    intro w hw
    obtain ⟨x, -, rfl⟩ := List.mem_map.1 hw
    exact isPlainWord_signedDigits x
  have hend : IsPlainWord ['0'] := by decide
  have hwords :=
    wordLines_spaced (List.forall_mem_cons.2 ⟨isPlainWord_digits t.weight, hids⟩) hend rest
  rw [wholeWords, ← hwords, wholeLine]
  simp [List.flatMap_map]

/-- **The words of a clause file of terms.** -/
theorem wordLines_wholeText (terms : List WholeTerm) :
    wordLines (wholeText terms).toList =
      ["p".toList, "wcnf".toList, Text.digits (nameCount terms), Text.digits terms.length] ::
        terms.map wholeWords := by
  have hlines : wordLines (terms.flatMap wholeLine) = terms.map wholeWords := by
    induction terms with
    | nil => rfl
    | cons t ts ih => rw [List.flatMap_cons, wordLines_wholeLine, ih, List.map_cons]
  have hmark : "p wcnf ".toList = "p".toList ++ [' '] ++ ("wcnf".toList ++ [' ']) := by decide
  have hplain : ∀ w ∈ ["p".toList, "wcnf".toList, Text.digits (nameCount terms)],
      IsPlainWord w := by
    intro w hw
    simp only [List.mem_cons, List.not_mem_nil, or_false] at hw
    rcases hw with rfl | rfl | rfl
    · decide
    · decide
    · exact isPlainWord_digits _
  have hheader := wordLines_spaced hplain (isPlainWord_digits terms.length)
    (terms.flatMap wholeLine)
  rw [hlines] at hheader
  have htext : (wholeText terms).toList = "p wcnf ".toList ++ Text.digits (nameCount terms) ++
      ' ' :: Text.digits terms.length ++ '\n' :: terms.flatMap wholeLine :=
    String.toList_ofList
  rw [htext, hmark]
  simp only [List.flatMap_cons, List.flatMap_nil, List.append_assoc, List.cons_append,
    List.nil_append, List.append_nil] at hheader ⊢
  exact hheader

example : wholeText [⟨3, [1, -2]⟩, ⟨5, []⟩] = "p wcnf 2 2\n3 1 -2 0\n5 0\n" := by decide

/-! ### Numerals as words -/

/-- A word that is a written integer. -/
def IsNumeral (word : List Char) : Prop :=
  ∃ x : Int, word = Text.signedDigits x

theorem signedDigits_zero : Text.signedDigits 0 = ['0'] := by decide

theorem signedDigits_natCast (n : Nat) : Text.signedDigits (n : Int) = Text.digits n := by
  rw [Text.signedDigits, if_neg (by omega), Int.natAbs_natCast]

theorem signedDigits_injective : Function.Injective Text.signedDigits := by
  intro x y h
  have hx := Text.readInt?_signedDigits x
  rw [h, Text.readInt?_signedDigits] at hx
  exact (Option.some_inj.1 hx).symm

theorem isNumeral_of_mem_wholeWords {t : WholeTerm} :
    ∀ word ∈ wholeWords t, IsNumeral word := by
  intro word hword
  rcases List.mem_append.1 hword with hword | hword
  · rcases List.mem_cons.1 hword with rfl | hword
    · exact ⟨t.weight, (signedDigits_natCast t.weight).symm⟩
    · obtain ⟨x, -, rfl⟩ := List.mem_map.1 hword
      exact ⟨x, rfl⟩
  · obtain rfl := List.mem_singleton.1 hword
    exact ⟨0, signedDigits_zero.symm⟩

/-- An integer stands for the literal that it is the signed form of. -/
theorem isLiteral_signedDigits_iff {x : Int} (hx : FitsSigned 32 x) {l : Literal} :
    IsLiteral (Text.signedDigits x) l ↔ Literal.ofSigned? x = some l := by
  rw [isLiteral_iff, Text.readSigned?_signedDigits hx]
  simp

theorem IsEnd.eq_zero {word : List Char} (h : IsEnd word) (hword : IsNumeral word) :
    word = ['0'] := by
  obtain ⟨x, rfl⟩ := hword
  have hread := readInt?_of_readSigned? h
  rw [Text.readInt?_signedDigits] at hread
  rw [Option.some_inj.1 hread, signedDigits_zero]

theorem IsLiteral.ne_zero {word : List Char} {l : Literal} (h : IsLiteral word l) :
    word ≠ ['0'] := by
  rintro rfl
  obtain ⟨x, hread, hne, -⟩ := h
  have hzero := isEnd_zero
  rw [IsEnd, hread] at hzero
  exact hne (Option.some_inj.1 hzero)

/-- A zero is no weight. -/
theorem IsWeight.ne_zero {weighted : Bool} {front : List (List Char)} {w : Float}
    (h : IsWeight weighted front w) : ['0'] ∉ front := by
  cases h with
  | unit => simp
  | given hread _ hpos =>
      intro hmem
      obtain rfl := List.mem_singleton.1 hmem
      have hzero : Decimal.readFloat? ['0'] = some 0.0 := by decide
      rw [hzero] at hread
      obtain rfl := Option.some_inj.1 hread
      exact absurd hpos (by decide)

/-! ### Counting zeros -/

/-- **A clause ends in its only zero.** -/
theorem IsClause.exists_eq_append {weighted : Bool} {words : List (List Char)} {c : Clause}
    (h : IsClause weighted words c) (hwords : ∀ word ∈ words, IsNumeral word) :
    ∃ front, words = front ++ [['0']] ∧ ['0'] ∉ front := by
  cases h with
  | @mk front body last w literals hweight hbody _ _ hlast =>
      have hend := hlast.eq_zero (hwords last (by simp))
      refine ⟨front ++ body, by rw [hend], ?_⟩
      intro hmem
      rcases List.mem_append.1 hmem with hmem | hmem
      · exact hweight.ne_zero hmem
      · obtain ⟨i, hi, hzero⟩ := List.getElem_of_mem hmem
        exact (hbody.get hi (hbody.length_eq ▸ hi)).ne_zero hzero

/-- **There are as many zeros as clauses.** -/
theorem AreClauses.count_zero {weighted : Bool} {words : List (List Char)} {cs : List Clause}
    (h : AreClauses weighted words cs) (hwords : ∀ word ∈ words, IsNumeral word) :
    words.count ['0'] = cs.length := by
  induction h with
  | nil => rfl
  | @cons words rest c cs hc _ ih =>
      obtain ⟨hfirst, hrest⟩ := List.forall_mem_append.1 hwords
      obtain ⟨front, rfl, hfront⟩ := hc.exists_eq_append hfirst
      rw [List.count_append, List.count_append, List.count_eq_zero_of_not_mem hfront,
        List.count_singleton_self, ih hrest, List.length_cons]
      omega

/-- Two ways to cut at the first zero. -/
theorem append_zero_inj {α : Type} {z : α} {front front' rest rest' : List α} (h : z ∉ front)
    (h' : z ∉ front') (heq : front ++ z :: rest = front' ++ z :: rest') :
    front = front' ∧ rest = rest' := by
  induction front generalizing front' with
  | nil =>
      cases front' with
      | nil => exact ⟨rfl, (List.cons.inj heq).2⟩
      | cons a front' =>
          obtain ⟨rfl, -⟩ := List.cons.inj heq
          exact absurd List.mem_cons_self h'
  | cons a front ih =>
      cases front' with
      | nil =>
          obtain ⟨rfl, -⟩ := List.cons.inj heq
          exact absurd List.mem_cons_self h
      | cons b front' =>
          obtain ⟨rfl, htail⟩ := List.cons.inj heq
          obtain ⟨hfront, hrest⟩ := ih (List.not_mem_of_not_mem_cons h)
            (List.not_mem_of_not_mem_cons h') htail
          exact ⟨congrArg (a :: ·) hfront, hrest⟩

/-- **Lines that end in their only zeros are clauses**, one each. -/
theorem AreClauses.forall₂ {weighted : Bool} {lines : List (List (List Char))} {cs : List Clause}
    (h : AreClauses weighted lines.flatten cs)
    (hwords : ∀ line ∈ lines, ∀ word ∈ line, IsNumeral word)
    (hlines : ∀ line ∈ lines, ∃ front, line = front ++ [['0']] ∧ ['0'] ∉ front) :
    List.Forall₂ (IsClause weighted) lines cs := by
  induction lines generalizing cs with
  | nil =>
      have hcount := h.count_zero (by simp)
      obtain rfl := List.length_eq_zero_iff.1 hcount.symm
      exact .nil
  | cons line lines ih =>
      obtain ⟨front, rfl, hfront⟩ := hlines line List.mem_cons_self
      generalize hwhole : ((front ++ [['0']]) :: lines).flatten = words at h
      cases h with
      | nil => simp at hwhole
      | @cons words rest c cs hc hrest =>
          have hnumeral : ∀ word ∈ words, IsNumeral word := by
            intro word hword
            have hmem : word ∈ ((front ++ [['0']]) :: lines).flatten :=
              hwhole ▸ List.mem_append_left rest hword
            obtain ⟨line, hline, hword⟩ := List.mem_flatten.1 hmem
            exact hwords line hline word hword
          obtain ⟨front', rfl, hfront'⟩ := hc.exists_eq_append hnumeral
          rw [List.flatten_cons, List.append_assoc, List.append_assoc, List.singleton_append,
            List.singleton_append] at hwhole
          obtain ⟨rfl, rfl⟩ := append_zero_inj hfront hfront' hwhole
          exact .cons hc (ih hrest (fun l hl => hwords l (List.mem_cons_of_mem _ hl))
            fun l hl => hlines l (List.mem_cons_of_mem _ hl))

/-! ### What a clause file of terms denotes -/

/-- The words of a term that are a clause are those of the clause it describes. -/
theorem IsClause.of_wholeWords {t : WholeTerm} {c : Clause} (h : IsClause true (wholeWords t) c)
    (ht : t.Fits) :
    c.weight = Decimal.toFloat ⟨t.weight, 0⟩ ∧
      List.Forall₂ (fun x l => Literal.ofSigned? x = some l) t.ids c.literals := by
  generalize hwords : wholeWords t = words at h
  cases h with
  | @mk front body last w literals hweight hbody _ _ _ =>
      cases hweight with
      | @given word _ hread _ _ =>
          rw [wholeWords] at hwords
          obtain ⟨hfront, -⟩ := List.append_inj' hwords rfl
          obtain ⟨rfl, rfl⟩ := List.cons.inj hfront
          rw [Decimal.readFloat?_digits] at hread
          rw [List.forall₂_map_left_iff] at hbody
          refine ⟨(Option.some_inj.1 hread).symm, ?_⟩
          have hfits := (List.forall₂_and_left t.ids literals).2 ⟨ht.ids, hbody⟩
          exact hfits.imp fun x l hxl => (isLiteral_signedDigits_iff hxl.1).1 hxl.2

theorem digits_weight_ne {t : WholeTerm} (h : t.Fits) : Text.digits t.weight ≠ ['0'] := by
  rw [← signedDigits_natCast, ← signedDigits_zero]
  intro heq
  have hzero := signedDigits_injective heq
  have hpos := h.one_le
  omega

/-- The zeros of a clause file of terms: one at the end of each line, and those among the
literals. -/
theorem count_zero_wholeWords {terms : List WholeTerm} (h : ∀ t ∈ terms, t.Fits) :
    (terms.map wholeWords).flatten.count ['0'] =
      terms.length + (terms.flatMap (·.ids)).count 0 := by
  induction terms with
  | nil => rfl
  | cons t ts ih =>
      have hweight := digits_weight_ne (h t List.mem_cons_self)
      have hids := List.count_map_of_injective t.ids Text.signedDigits signedDigits_injective 0
      rw [signedDigits_zero] at hids
      rw [List.map_cons, List.flatten_cons, List.count_append,
        ih fun s hs => h s (List.mem_cons_of_mem t hs), wholeWords, List.cons_append,
        List.count_cons_of_ne hweight, List.count_append, hids, List.count_singleton_self,
        List.flatMap_cons, List.count_append, List.length_cons]
      omega

theorem head?_wholeWords_ne (t : WholeTerm) :
    ∀ first ∈ (wholeWords t).head?, first.head? ≠ some 'c' := by
  rintro first ⟨⟩ hhead
  obtain ⟨c, ds, hcons, hc⟩ := Text.exists_digits_eq_cons t.weight
  rw [hcons] at hhead
  cases hhead
  cases hc

/-- What the problem line of a weighted clause file says. -/
theorem IsProblemLine.of_digits {names : List Char} {n : Nat} {header : Header}
    (h : IsProblemLine ["p".toList, "wcnf".toList, names, Text.digits n] header) :
    header.dialect = .weighted ∧ header.clauseCount = n ∧ 1 ≤ n := by
  generalize hwords : ["p".toList, "wcnf".toList, names, Text.digits n] = words at h
  cases h with
  | mk _ hclauses _ =>
      obtain ⟨-, hwords⟩ := List.cons.inj hwords
      obtain ⟨hkeyword, hwords⟩ := List.cons.inj hwords
      obtain ⟨-, hwords⟩ := List.cons.inj hwords
      obtain ⟨rfl, -⟩ := List.cons.inj hwords
      obtain ⟨hread, hpos, -⟩ := hclauses
      rw [Text.readInt?_digits, Option.some_inj, Int.natCast_inj] at hread
      refine ⟨?_, hread.symm, by omega⟩
      cases hdialect : header.dialect with
      | weighted => rfl
      | plain =>
          rw [hdialect] at hkeyword
          exact absurd hkeyword (by decide)

/-- The clauses that are read, before anything is known of where they end. -/
theorem Denotes.areClauses_of_wholeText {terms : List WholeTerm} {f : Formula}
    (h : Denotes (wholeText terms).toList f) :
    AreClauses true (terms.map wholeWords).flatten f.clauses ∧
      f.clauses.length = terms.length ∧ terms ≠ [] := by
  cases h with
  | @mk before after line header cs ds hlines hline hbefore hafter _ _ hclauses hcount _ _ =>
      rw [wordLines_wholeText] at hlines
      cases before with
      | cons first before =>
          obtain ⟨rfl, -⟩ := List.cons.inj hlines
          exact absurd rfl (hbefore.head?_ne _ List.mem_cons_self _ rfl)
      | nil =>
          obtain ⟨rfl, rfl⟩ := List.cons.inj hlines
          obtain ⟨hdialect, hterms, hpos⟩ := hline.of_digits
          have hnone : cs = [] :=
            List.length_eq_zero_iff.1 ((hbefore.areClauses (by simp)).count_zero (by simp)).symm
          have hgroup := hafter.areClauses (by
            intro line hline
            obtain ⟨t, -, rfl⟩ := List.mem_map.1 hline
            exact head?_wholeWords_ne t)
          rw [hclauses, hnone, List.nil_append] at hcount ⊢
          rw [hdialect] at hgroup
          refine ⟨hgroup, hcount.trans hterms, ?_⟩
          rintro rfl
          exact absurd hpos (by decide)

/-- **What is read of a clause file of terms are the clauses that they describe**, if these can be
encoded. -/
theorem describes_of_parse {terms : List WholeTerm} (h : ∀ t ∈ terms, t.Fits) {f : Formula}
    (hread : parse (wholeText terms) = .ok f)
    (hadmitted : ∀ c ∈ f.clauses, ∀ l ∈ c.literals, Clause.admitsName l.name = true) :
    terms ≠ [] ∧ List.Forall₂ WholeTerm.Describes terms f.clauses := by
  have hdenotes := Denotes.of_parseChars hread
  obtain ⟨hclauses, hlength, hne⟩ := hdenotes.areClauses_of_wholeText
  refine ⟨hne, ?_⟩
  have hnumerals : ∀ line ∈ terms.map wholeWords, ∀ word ∈ line, IsNumeral word := by
    intro line hline
    obtain ⟨t, -, rfl⟩ := List.mem_map.1 hline
    exact isNumeral_of_mem_wholeWords
  -- as many clauses as terms: there is no zero but at the ends of the lines
  have hcount := hclauses.count_zero (by
    intro word hword
    obtain ⟨line, hline, hword⟩ := List.mem_flatten.1 hword
    exact hnumerals line hline word hword)
  rw [count_zero_wholeWords h, hlength] at hcount
  have hzero : (0 : Int) ∉ terms.flatMap (·.ids) := List.count_eq_zero.1 (by omega)
  have hsplit := hclauses.forall₂ hnumerals (by
    intro line hline
    obtain ⟨t, ht, rfl⟩ := List.mem_map.1 hline
    refine ⟨_, rfl, ?_⟩
    intro hmem
    rcases List.mem_cons.1 hmem with heq | hmem
    · exact digits_weight_ne (h t ht) heq.symm
    · obtain ⟨x, hx, heq⟩ := List.mem_map.1 hmem
      rw [← signedDigits_zero] at heq
      exact hzero (List.mem_flatMap.2 ⟨t, ht, signedDigits_injective heq ▸ hx⟩))
  rw [List.forall₂_map_left_iff] at hsplit
  have hfits := (List.forall₂_and_left terms f.clauses).2 ⟨h, hsplit⟩
  have hboth := (List.forall₂_and_left f.clauses terms).2 ⟨hadmitted, hfits.flip⟩
  refine hboth.flip.imp ?_
  rintro t c ⟨hnames, ht, hclause⟩
  obtain ⟨hweight, hliterals⟩ := hclause.of_wholeWords ht
  have hform : IsWritableClause .weighted c := hclause.isWritable nofun
  exact ⟨hweight, hliterals, hform.ne_nil, hform.distinct, hnames⟩

/-! ### Described clauses are read -/

/-- The names of the literals that signed numbers stand for. -/
theorem names_of_ofSigned? {ids : List Int} {literals : List Literal}
    (h : List.Forall₂ (fun x l => Literal.ofSigned? x = some l) ids literals) :
    (ids.filter (· ≠ 0)).map Int.natAbs = literals.map (·.name) := by
  induction h with
  | nil => rfl
  | @cons x l ids literals hxl _ ih =>
      obtain ⟨hx, rfl⟩ := Literal.ofSigned?_eq_some_iff.1 hxl
      rw [List.filter_cons_of_pos (by simpa using hx), List.map_cons, List.map_cons, ih]

theorem names_of_describes {terms : List WholeTerm} {cs : List Clause}
    (h : List.Forall₂ WholeTerm.Describes terms cs) :
    ((terms.flatMap (·.ids)).filter (· ≠ 0)).map Int.natAbs = cs.flatMap Clause.names := by
  induction h with
  | nil => rfl
  | cons hc _ ih =>
      rw [List.flatMap_cons, List.filter_append, List.map_append, ih,
        names_of_ofSigned? hc.literals, List.flatMap_cons, Clause.names]

/-- The words of a term are a clause where its weight is finite and positive. -/
theorem isClause_of_describes {t : WholeTerm} {c : Clause} (h : t.Describes c) (ht : t.Fits)
    (hfinite : c.weight.isFinite = true) (hpos : 0.0 < c.weight) :
    IsClause true (wholeWords t) c := by
  have hread := Decimal.readFloat?_digits t.weight
  rw [← h.weight_eq] at hread
  have hbody : List.Forall₂ IsLiteral (t.ids.map Text.signedDigits) c.literals := by
    rw [List.forall₂_map_left_iff]
    refine ((List.forall₂_and_left t.ids c.literals).2 ⟨ht.ids, h.literals⟩).imp ?_
    exact fun x l hxl => (isLiteral_signedDigits_iff hxl.1).2 hxl.2
  exact .mk (.given hread hfinite hpos) hbody h.ne_nil h.distinct isEnd_zero

/-- **A clause file of terms is read** where the clauses that they describe can be written. -/
theorem parse_wholeText_eq_ok {terms : List WholeTerm} (h : ∀ t ∈ terms, t.Fits)
    {cs : List Clause} (hcs : List.Forall₂ WholeTerm.Describes terms cs)
    (hwritable : Writable (Formula.ofClauses .weighted none cs)) :
    parse (wholeText terms) = .ok (Formula.ofClauses .weighted none cs) := by
  have hcounted : (Formula.ofClauses .weighted none cs).names.length = nameCount terms := by
    rw [nameCount, names_of_describes hcs]
    exact length_distinctNames cs
  have hnames := hwritable.expressible.isCount_names
  rw [hcounted] at hnames
  have hcount : cs.length = terms.length := hcs.length_eq.symm
  have hclauses : IsCount (Text.digits terms.length) terms.length := by
    rw [← hcount]
    exact isCount_digits hwritable.one_le hwritable.le
  have hline : IsProblemLine
      ["p".toList, "wcnf".toList, Text.digits (nameCount terms), Text.digits terms.length]
      ⟨.weighted, nameCount terms, terms.length, none⟩ :=
    @IsProblemLine.mk _ _ _ ⟨.weighted, nameCount terms, terms.length, none⟩ hnames hclauses
      (.absent _)
  -- each line is the clause that its term describes
  have hlines : List.Forall₂ (IsClause true) (terms.map wholeWords) cs := by
    rw [List.forall₂_map_left_iff]
    have hfits := (List.forall₂_and_left terms cs).2 ⟨h, hcs⟩
    have hboth := (List.forall₂_and_left cs terms).2 ⟨hwritable.clauses, hfits.flip⟩
    refine hboth.flip.imp ?_
    rintro t c ⟨hc, ht, htc⟩
    exact isClause_of_describes htc ht hc.weight.1 hc.weight.2
  have hsection := IsSection.nil.append_group (AreClauses.of_forall₂ hlines)
  have hdenotes : Denotes (wholeText terms).toList (Formula.ofClauses .weighted none cs) :=
    .mk (wordLines_wholeText terms) hline .nil hsection rfl rfl rfl hcount
      (by rw [nameCount, names_of_describes hcs]; rfl) hwritable.largest
  exact hdenotes.parseChars_eq_ok

end WeightedSat.Dimacs
