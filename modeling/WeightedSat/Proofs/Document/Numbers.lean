import WeightedSat.Proofs.Document.Scalars

/-!
**Reading the numbers of a document.**

A number is digits around a point, with or without a power of ten.  It is read in one piece whatever
follows it, so that what is read of it depends on its text alone.

Main definitions:

* `WeightedSat.Document.IsWhole`, `WeightedSat.Document.IsFraction`,
  `WeightedSat.Document.IsPower` — **the parts of a number**;
* `WeightedSat.Document.number?` — what is read of a number, by its parts.

Main results:

* `WeightedSat.Document.answers_readNumber` — **a number is read whatever follows it**;
* `WeightedSat.Document.reads_readInteger`, `WeightedSat.Document.reads_readFloat` — written whole
  numbers.
-/

set_option relaxedAutoImplicit false
set_option autoImplicit false

namespace WeightedSat.Document

/-! ### The grammar of numbers -/

/-- No digit stands at the front. -/
theorem Delimited.not_digit {rest : List Char} (h : Delimited rest) :
    ∀ c ∈ rest.head?, Text.isDigit c = false := by
  have hdelimiters : ∀ c ∈ delimiters, Text.isDigit c = false := by
    simp [delimiters, Text.isDigit]
  exact fun c hc => hdelimiters c (h c hc)

/-- The digits before a point: a single zero, or digits of which the first is another one. -/
structure IsWhole (ds : List Char) : Prop where
  ne_nil : ds ≠ []
  digits : ∀ c ∈ ds, Text.isDigit c = true
  zero : ds.head? = some '0' → ds = ['0']

theorem isWhole_digits (n : Nat) : IsWhole (Text.digits n) := by
  refine ⟨Text.digits_ne_nil n, fun _ => Text.isDigit_of_mem_digits, ?_⟩
  intro hzero
  rcases Nat.eq_zero_or_pos n with rfl | hn
  · decide
  · exact absurd hzero (Text.head?_digits_ne (Nat.ne_of_gt hn))

/-- The power of ten of a number, which may be left out. -/
inductive IsPower : List Char → Prop
  | none : IsPower []
  | some {sign : Char} {ds : List Char} (hsign : sign = '+' ∨ sign = '-') (hne : ds ≠ [])
      (hds : ∀ c ∈ ds, Text.isDigit c = true) : IsPower ('e' :: sign :: ds)

/-- What follows digits does not go on with them. -/
theorem IsPower.not_digit {power rest : List Char} (h : IsPower power) (hrest : Delimited rest) :
    ∀ c ∈ (power ++ rest).head?, Text.isDigit c = false := by
  cases h with
  | none => exact hrest.not_digit
  | some =>
      rintro c ⟨⟩
      rfl

/-- The fraction of a number, which may be left out. -/
inductive IsFraction : List Char → Prop
  | none : IsFraction []
  | some {ds : List Char} (hne : ds ≠ []) (hds : ∀ c ∈ ds, Text.isDigit c = true) :
      IsFraction ('.' :: ds)

/-! ### Digits -/

/-- Digits are taken up to what follows them. -/
theorem takeDigits_append {ds : List Char} (h : ∀ c ∈ ds, Text.isDigit c = true) {rest : List Char}
    (hrest : ∀ c ∈ rest.head?, Text.isDigit c = false) (offset : Nat) :
    takeDigits ⟨ds ++ rest, offset⟩ = .ok (ds, ⟨rest, offset + ds.length⟩) := by
  obtain ⟨htake, hdrop⟩ := Text.span_isDigit_append h hrest
  simp only [takeDigits, htake, hdrop]

/-- The digits before a point are read up to what follows them. -/
theorem readWhole_append {ds : List Char} (h : IsWhole ds) {rest : List Char}
    (hrest : ∀ c ∈ rest.head?, Text.isDigit c = false) (offset : Nat) :
    ∃ offset', readWhole ⟨ds ++ rest, offset⟩ = .ok (ds, ⟨rest, offset'⟩) := by
  obtain ⟨c, cs, rfl⟩ := List.exists_cons_of_ne_nil h.ne_nil
  have hc : Text.isDigit c = true := h.digits c List.mem_cons_self
  have hpeek : peek ⟨c :: cs ++ rest, offset⟩ = .ok (some c, ⟨c :: cs ++ rest, offset⟩) := rfl
  rw [readWhole, bind_apply hpeek]
  by_cases hzero : c = '0'
  · -- a zero stands alone
    obtain rfl : c = '0' := hzero
    obtain rfl : cs = [] := (List.cons.inj (h.zero rfl)).2
    have hnot : ((rest.head?.map Text.isDigit).getD false) = false := by
      cases hhead : rest.head? with
      | none => rfl
      | some c => exact hrest c hhead
    have hadvance : advance ⟨['0'] ++ rest, offset⟩ = .ok ((), ⟨rest, offset + 1⟩) := rfl
    have hpeek' : peek ⟨rest, offset + 1⟩ = .ok (rest.head?, ⟨rest, offset + 1⟩) := rfl
    refine ⟨offset + 1, ?_⟩
    simp only
    rw [bind_apply hadvance, bind_apply hpeek']
    simp only [hnot]
    rfl
  · refine ⟨offset + (c :: cs).length, ?_⟩
    simp only [hc, if_true]
    exact takeDigits_append h.digits hrest offset

/-- Digits are gathered to the end where the number they denote is within the limit. -/
theorem gather_eq {limit n : Nat} {ds : List Char} (h : Nat.ofDigitChars 10 ds n ≤ limit) :
    gather limit n ds = (Nat.ofDigitChars 10 ds n, []) := by
  induction ds generalizing n with
  | nil => rw [gather, Nat.ofDigitChars_nil]
  | cons d ds ih =>
      rw [Nat.ofDigitChars_cons] at h ⊢
      have hnext := Nat.le_trans (Text.le_ofDigitChars ds _) h
      rw [gather]
      exact (if_neg (Nat.not_lt.2 hnext)).trans (ih h)

/-! ### Reading a number -/

variable {negative : Bool} {significand : Nat} {power : Int}

/-- The number with a significand and a power of ten; nothing beyond the range. -/
def scaled? (negative : Bool) (significand : Nat) (power : Int) : Option Number :=
  (scale? (floatOfNat significand) power).map fun x => .float (withSign negative x)

theorem ends_finishFloat (rest : List Char) (offset : Nat) :
    Ends (finishFloat negative significand power) ⟨rest, offset⟩ rest
      (scaled? negative significand power) := by
  rw [finishFloat, scaled?]
  cases scale? (floatOfNat significand) power with
  | none => exact .failure rfl
  | some x => exact .value rfl

/-- What is read of a number from the digits of its power on. -/
def powered? (negative : Bool) (significand : Nat) (power : Int) (down : Bool) (ds : List Char) :
    Option Number :=
  if (gather powerLimit 0 ds).2.isEmpty then
    scaled? negative significand
      (if down then power - (gather powerLimit 0 ds).1 else power + (gather powerLimit 0 ds).1)
  else if significand ≠ 0 ∧ !down then none
  else some (.float (withSign negative 0.0))

/-- A power of ten is read whatever follows it. -/
theorem answers_readPower {sign : Char} {ds : List Char} (hsign : sign = '+' ∨ sign = '-')
    (hne : ds ≠ []) (hds : ∀ c ∈ ds, Text.isDigit c = true) :
    Answers (readPower negative significand power) ('e' :: sign :: ds)
      (powered? negative significand power (sign == '-') ds) := by
  obtain ⟨d, ds, rfl⟩ := List.exists_cons_of_ne_nil hne
  intro rest offset hrest
  have hadvance : advance ⟨'e' :: sign :: (d :: ds) ++ rest, offset⟩ =
      .ok ((), ⟨sign :: (d :: ds ++ rest), offset + 1⟩) := rfl
  have hpeek : peek ⟨sign :: (d :: ds ++ rest), offset + 1⟩ =
      .ok (some sign, ⟨sign :: (d :: ds ++ rest), offset + 1⟩) := rfl
  have hpass : advance ⟨sign :: (d :: ds ++ rest), offset + 1⟩ =
      .ok ((), ⟨d :: ds ++ rest, offset + 1 + sign.utf8Size⟩) := rfl
  have hmark : (some sign == some '-' || some sign == some '+') = true := by
    rcases hsign with rfl | rfl <;> rfl
  have hdigits := takeDigits_append hds hrest.not_digit (offset + 1 + sign.utf8Size)
  rw [readPower]
  refine .of_eq (bind_apply hadvance _) ?_
  refine .of_eq (bind_apply hpeek _) ?_
  refine .of_eq (bind_apply hpeek _) ?_
  rw [if_pos hmark]
  refine .of_eq (bind_apply hpass _) ?_
  refine .of_eq (bind_apply rfl _) ?_
  refine .of_eq (bind_apply hdigits _) ?_
  dsimp only
  rw [powered?, Option.some_beq_some]
  by_cases hleft : (gather powerLimit 0 (d :: ds)).2.isEmpty = true
  · simp only [hleft, if_true]
    exact ends_finishFloat rest _
  · rw [if_neg hleft, if_neg hleft]
    by_cases hout : significand ≠ 0 ∧ (!sign == '-') = true
    · rw [if_pos hout, if_pos hout]
      exact .failure rfl
    · rw [if_neg hout, if_neg hout]
      exact .value rfl

/-- What is read of a number from its power on, where it has one. -/
def finished? (negative : Bool) (significand : Nat) (power : Int) : List Char → Option Number
  | 'e' :: sign :: ds => powered? negative significand power (sign == '-') ds
  | _ => scaled? negative significand power

/-- What may follow a number is neither a point nor the mark of a power. -/
theorem Delimited.ends_peek {α : Type} {rest : List Char} (h : Delimited rest)
    {next : Option Char → Reader α} {other : Reader α} {offset : Nat} {answer : Option α}
    (hnext : ∀ c?, c? ≠ some '.' → c? ≠ some 'e' → c? ≠ some 'E' → next c? = other)
    (hother : Ends other ⟨rest, offset⟩ rest answer) :
    Ends (peek >>= next) ⟨rest, offset⟩ rest answer := by
  have hpeek : peek ⟨rest, offset⟩ = .ok (rest.head?, ⟨rest, offset⟩) := rfl
  have hmarks : '.' ∉ delimiters ∧ 'e' ∉ delimiters ∧ 'E' ∉ delimiters := by decide
  obtain ⟨hpoint, hlower, hupper⟩ := hmarks
  refine .of_eq (bind_apply hpeek _) ?_
  rwa [hnext rest.head? (fun hc => hpoint (h _ hc)) (fun hc => hlower (h _ hc))
    fun hc => hupper (h _ hc)]

/-- What is read of a number from its fraction on. -/
def fractioned? (negative : Bool) (significand power : Nat) (ds text : List Char) : Option Number :=
  let (significand, left) := gather wordLimit significand ds
  finished? negative significand (power - (ds.length - left.length : Nat)) text

/-- A fraction is read whatever follows it. -/
theorem answers_readFraction {power : Nat} {ds text : List Char} (hne : ds ≠ [])
    (hds : ∀ c ∈ ds, Text.isDigit c = true) (htext : IsPower text) :
    Answers (readFraction negative significand power) ('.' :: ds ++ text)
      (fractioned? negative significand power ds text) := by
  obtain ⟨d, ds, rfl⟩ := List.exists_cons_of_ne_nil hne
  intro rest offset hrest
  have hadvance : advance ⟨'.' :: (d :: ds) ++ text ++ rest, offset⟩ =
      .ok ((), ⟨d :: ds ++ (text ++ rest), offset + 1⟩) := by
    rw [List.append_assoc]
    rfl
  have hdigits := takeDigits_append hds (htext.not_digit hrest) (offset + 1)
  rw [readFraction, fractioned?]
  refine .of_eq (bind_apply hadvance _) ?_
  refine .of_eq (bind_apply hdigits _) ?_
  dsimp only
  generalize gather wordLimit significand (d :: ds) = gathered
  obtain ⟨significand, left⟩ := gathered
  cases htext with
  | none =>
      refine hrest.ends_peek ?_ (ends_finishFloat rest _)
      intro c? _ hlower hupper
      split
      · exact absurd rfl hlower
      · exact absurd rfl hupper
      · rfl
  | @some sign ds hsign hne hds =>
      have hpeek : ∀ offset, peek ⟨'e' :: sign :: ds ++ rest, offset⟩ =
          .ok (some 'e', ⟨'e' :: sign :: ds ++ rest, offset⟩) := fun _ => rfl
      refine .of_eq (bind_apply (hpeek _) _) ?_
      exact answers_readPower hsign hne hds rest _ hrest

/-- What is read of a number, by its parts. -/
def number? (negative : Bool) (whole fraction power : List Char) : Option Number :=
  let (significand, left) := gather wordLimit 0 whole
  match fraction, power with
  | '.' :: ds, power => fractioned? negative significand left.length ds power
  | _, 'e' :: sign :: ds => powered? negative significand left.length (sign == '-') ds
  | _, _ =>
      if left.isEmpty then some (wholeNumber negative significand)
      else scaled? negative significand left.length

/-- **A number is read whatever follows it.** -/
theorem answers_readNumber {whole fraction power : List Char} (hwhole : IsWhole whole)
    (hfraction : IsFraction fraction) (hpower : IsPower power) (negative : Bool) :
    Answers (readNumber negative) (whole ++ fraction ++ power)
      (number? negative whole fraction power) := by
  intro rest offset hrest
  have hnot : ∀ c ∈ (fraction ++ (power ++ rest)).head?, Text.isDigit c = false := by
    cases hfraction with
    | none => exact hpower.not_digit hrest
    | some =>
        rintro c ⟨⟩
        rfl
  obtain ⟨offset', hread⟩ := readWhole_append hwhole hnot offset
  rw [List.append_assoc, List.append_assoc, readNumber, number?]
  refine .of_eq (bind_apply hread _) ?_
  clear hread hnot
  generalize gather wordLimit 0 whole = gathered
  obtain ⟨significand, left⟩ := gathered
  dsimp only
  cases hfraction with
  | @some ds hne hds =>
      have hpeek : peek ⟨'.' :: ds ++ (power ++ rest), offset'⟩ = .ok (some '.', _) := rfl
      have hend : Ends (readFraction negative significand left.length) _ _ _ :=
        answers_readFraction hne hds hpower rest offset' hrest
      rw [List.append_assoc] at hend
      exact .of_eq (bind_apply hpeek _) hend
  | none =>
      cases hpower with
      | @some sign ds hsign hne hds =>
          have hpeek : peek ⟨'e' :: sign :: ds ++ rest, offset'⟩ = .ok (some 'e', _) := rfl
          exact .of_eq (bind_apply hpeek _) (answers_readPower hsign hne hds rest offset' hrest)
      | none =>
          have hplain : Ends (if left.isEmpty then return wholeNumber negative significand
              else finishFloat negative significand left.length) ⟨rest, offset'⟩ rest
                (if left.isEmpty then some (wholeNumber negative significand)
                  else scaled? negative significand left.length) := by
            split
            · exact .value rfl
            · exact ends_finishFloat rest offset'
          refine hrest.ends_peek ?_ hplain
          intro c? hpoint hlower hupper
          split
          · exact absurd rfl hpoint
          · exact absurd rfl hlower
          · exact absurd rfl hupper
          · rfl

/-! ### Signs -/

theorem isSpace_of_isDigit {c : Char} (h : Text.isDigit c = true) : Cursor.isSpace c = false := by
  rw [Bool.eq_false_iff]
  intro hspace
  simp only [Cursor.isSpace, Bool.or_eq_true, decide_eq_true_eq] at hspace
  rcases hspace with ((rfl | rfl) | rfl) | rfl <;> cases h

theorem IsWhole.exists_eq_cons {whole : List Char} (h : IsWhole whole) :
    ∃ c cs, whole = c :: cs ∧ Text.isDigit c = true := by
  obtain ⟨c, cs, rfl⟩ := List.exists_cons_of_ne_nil h.ne_nil
  exact ⟨c, cs, rfl, h.digits c List.mem_cons_self⟩

section Signs

variable {whole fraction power : List Char} (hwhole : IsWhole whole)
  (hfraction : IsFraction fraction) (hpower : IsPower power) (expected : Expected)

include hwhole hfraction hpower

/-- A number without a sign. -/
theorem answers_readAnyNumber :
    Answers (readAnyNumber expected) (whole ++ fraction ++ power)
      (number? false whole fraction power) := by
  intro rest offset hrest
  have hend := answers_readNumber hwhole hfraction hpower false rest offset hrest
  obtain ⟨c, cs, rfl, hc⟩ := hwhole.exists_eq_cons
  have hminus : c ≠ '-' := by
    rintro rfl
    cases hc
  refine .of_eq (bind_apply (peekNext_cons (isSpace_of_isDigit hc) _ _) _) ?_
  simp only [hc, if_true]
  exact hend

/-- A number with a minus sign. -/
theorem answers_readAnyNumber_minus :
    Answers (readAnyNumber expected) ('-' :: (whole ++ fraction ++ power))
      (number? true whole fraction power) := by
  intro rest offset hrest
  have hend := answers_readNumber hwhole hfraction hpower true rest (offset + 1) hrest
  refine .of_eq (bind_apply (peekNext_cons (by decide) _ _) _) ?_
  exact .of_eq (bind_apply rfl _) hend

end Signs

/-! ### Whole numbers -/

/-- **A number of sixty-four bits is read as a whole number.** -/
theorem number?_digits {n : Nat} (hn : n ≤ wordLimit) (negative : Bool) :
    number? negative (Text.digits n) [] [] = some (wholeNumber negative n) := by
  have hvalue : Nat.ofDigitChars 10 (Text.digits n) 0 = n := Nat.ofDigitChars_ten_toDigits
  have hgather : gather wordLimit 0 (Text.digits n) = (n, []) := by
    rw [gather_eq (by rwa [hvalue]), hvalue]
  rw [number?, hgather]
  rfl

/-- A natural number is read as a whole number. -/
theorem reads_readAnyNumber_digits {n : Nat} (hn : n ≤ wordLimit) (expected : Expected) :
    Reads (readAnyNumber expected) (Text.digits n) (.integer n) := by
  have hanswers := answers_readAnyNumber (isWhole_digits n) .none .none expected
  rw [List.append_nil, List.append_nil, number?_digits hn] at hanswers
  exact answers_some_iff.1 hanswers

/-- **An integer is read as a whole number.** -/
theorem reads_readAnyNumber {x : Int} (hx : FitsSigned 32 x) (expected : Expected) :
    Reads (readAnyNumber expected) (Text.signedDigits x) (.integer x) := by
  rw [fitsSigned_thirtyTwo] at hx
  have hlimit : x.natAbs ≤ wordLimit := by
    have : wordLimit = 18446744073709551615 := by decide
    omega
  rw [Text.signedDigits]
  split
  · rename_i hneg
    have hwhole : wholeNumber true x.natAbs = .integer x := by
      have hcount : wordCount 63 = 9223372036854775808 := by decide
      have hrange : ¬ (x.natAbs = 0 ∨ wordCount 63 < x.natAbs) := by omega
      have hvalue : -(x.natAbs : Int) = x := by omega
      rw [wholeNumber]
      simp only [Bool.not_true, Bool.false_eq_true, if_false, if_neg hrange, hvalue]
    have hanswers := answers_readAnyNumber_minus (isWhole_digits x.natAbs) .none .none expected
    rw [List.append_nil, List.append_nil, number?_digits hlimit, hwhole] at hanswers
    exact answers_some_iff.1 hanswers
  · rename_i hpos
    have hvalue : (x.natAbs : Int) = x := by omega
    have hread := reads_readAnyNumber_digits hlimit expected
    rwa [hvalue] at hread

theorem skipsSpace_readAnyNumber (expected : Expected) : SkipsSpace (readAnyNumber expected) :=
  skipsSpace_peekNext.bind _

/-- **A weight is read** as the nearest floating-point number. -/
theorem reads_readFloat {n : Nat} (hn : n ≤ wordLimit) :
    Reads readFloat (Text.digits n) (floatOfNat n) :=
  (reads_readAnyNumber_digits hn .number).map Number.toFloat

theorem skipsSpace_readFloat : SkipsSpace readFloat :=
  (skipsSpace_readAnyNumber .number).bind _

/-- **A signed literal is read.** -/
theorem reads_readInteger {x : Int} (hx : FitsSigned 32 x) :
    Reads readInteger (Text.signedDigits x) x := by
  intro rest offset hrest
  obtain ⟨offset', hread⟩ := reads_readAnyNumber hx .integer rest offset hrest
  refine ⟨offset', ?_⟩
  rw [readInteger, bind_apply hread]
  simp only [hx, if_true]
  rfl

end WeightedSat.Document
