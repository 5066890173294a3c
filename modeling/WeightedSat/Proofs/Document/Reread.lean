import WeightedSat.Proofs.Decimal.ReadBack
import WeightedSat.Proofs.Document.Numbers

/-!
**Reading the floating-point numbers that documents write.**

Documents write the fewest digits that are read back by correct rounding.  But they are not read by
correct rounding: the digits make up one significand, which is rounded before the power of ten is
applied and rounded again behind it.  So what is read of a written number can be another one.

Main definitions:

* `WeightedSat.Document.reread?` — **what is read of a written number**.

Main results:

* `WeightedSat.Document.answers_readFloat_write` — a written number is read as `reread?` says,
  wherever it stands;
* `WeightedSat.Document.reread?_ne_self` — **a number that is not read back**.
-/

set_option relaxedAutoImplicit false
set_option autoImplicit false

namespace WeightedSat.Document

open Decimal

/-- **What is read of a written number**, nothing where it is refused. -/
def reread? (x : Float) : Option Float :=
  match readFloat ⟨numberLayout.write x, 0⟩ with
  | .ok (y, _) => some y
  | .error _ => none

/-! ### The parts of a written number -/

/-- The text of a number without its sign. -/
def IsNumber (text : List Char) : Prop :=
  ∃ whole fraction power, text = whole ++ fraction ++ power ∧
    IsWhole whole ∧ IsFraction fraction ∧ IsPower power

theorem IsWhole.append {ds zeros : List Char} (h : IsWhole ds) (hne : ds.head? ≠ some '0')
    (hzeros : ∀ c ∈ zeros, Text.isDigit c = true) : IsWhole (ds ++ zeros) := by
  obtain ⟨c, cs, rfl, hc⟩ := h.exists_eq_cons
  refine ⟨by simp, ?_, fun hzero => absurd hzero hne⟩
  intro a ha
  rcases List.mem_append.1 ha with ha | ha
  · exact h.digits a ha
  · exact hzeros a ha

/-- The first digits of a number. -/
theorem IsWhole.take {ds : List Char} (h : IsWhole ds) (hne : ds.head? ≠ some '0') {k : Nat}
    (hk : 0 < k) : IsWhole (ds.take k) := by
  obtain ⟨c, cs, rfl, hc⟩ := h.exists_eq_cons
  obtain ⟨k, rfl⟩ := Nat.exists_eq_succ_of_ne_zero hk.ne'
  refine ⟨by simp, ?_, fun hzero => absurd hzero hne⟩
  exact fun a ha => h.digits a (List.mem_of_mem_take ha)

theorem isDigit_of_mem_replicate {k : Nat} {c : Char} (h : c ∈ List.replicate k '0') :
    Text.isDigit c = true := by
  rw [List.eq_of_mem_replicate h]
  rfl

/-- Digits around a point. -/
theorem isNumber_writePositional {d : Decimal} (hd : d.digits ≠ 0) :
    IsNumber (numberLayout.writePositional d) := by
  have hwhole := isWhole_digits d.digits
  have hne := Text.head?_digits_ne hd
  rw [Layout.writePositional]
  split
  · have hzero : ∀ c ∈ ['0'], Text.isDigit c = true := by simp [Text.isDigit]
    refine ⟨_, '.' :: ['0'], [], (List.append_nil _).symm, ?_, .some (by simp) hzero, .none⟩
    exact hwhole.append hne fun _ => isDigit_of_mem_replicate
  · rename_i hexponent
    simp only
    generalize hplaces : (-d.exponent).toNat = places
    split
    · -- the point stands between two digits
      rename_i hlt
      refine ⟨_, _, [], (List.append_nil _).symm, hwhole.take hne (Nat.sub_pos_of_lt hlt),
        .some ?_ fun c hc => hwhole.digits c (List.mem_of_mem_drop hc), .none⟩
      rw [Ne, List.drop_eq_nil_iff]
      omega
    · -- zeros stand between the point and the digits
      refine ⟨['0'], '.' :: (List.replicate _ '0' ++ Text.digits d.digits), [],
        (List.append_nil _).symm, isWhole_digits 0, .some ?_ ?_, .none⟩
      · simp [hwhole.ne_nil]
      · intro c hc
        rcases List.mem_append.1 hc with hc | hc
        · exact isDigit_of_mem_replicate hc
        · exact hwhole.digits c hc

/-- One digit before the point, and a power of ten. -/
theorem isNumber_writeScientific {d : Decimal} (hd : d.digits ≠ 0) (leading : Int) :
    IsNumber (Layout.writeScientific d leading) := by
  have hwhole := isWhole_digits d.digits
  have hne := Text.head?_digits_ne hd
  have hpower : IsPower
      ('e' :: (if leading < 0 then '-' else '+') :: Text.digits leading.natAbs) := by
    refine .some ?_ (Text.digits_ne_nil _) fun _ => Text.isDigit_of_mem_digits
    split
    · exact Or.inr rfl
    · exact Or.inl rfl
  refine ⟨_, _, _, rfl, hwhole.take hne Nat.one_pos, ?_, hpower⟩
  split
  · exact .none
  · rename_i hlength
    have hpos := List.length_pos_iff.2 hwhole.ne_nil
    refine .some ?_ fun c hc => hwhole.digits c (List.mem_of_mem_drop hc)
    rw [Ne, List.drop_eq_nil_iff]
    omega

theorem isNumber_writeDecimal {d : Decimal} (hd : d.digits ≠ 0) :
    IsNumber (numberLayout.writeDecimal d) := by
  rw [Layout.writeDecimal]
  split
  · exact isNumber_writePositional hd
  · exact isNumber_writeScientific hd _

/-- The shortest decimal of a positive number has a digit that is no zero. -/
theorem digits_shortest_ne {tie : Tie} {x : Float} {m : Nat} {q : Int} {hm : 0 < m}
    (hx : x.toModel.unpack = .finite .positive m q hm) :
    (shortest tie x (ofBinary m q)).digits ≠ 0 := by
  intro hzero
  have hfloat := toFloat_shortest tie (toFloat_ofBinary hx)
  generalize shortest tie x (ofBinary m q) = d at hzero hfloat
  obtain ⟨_, e⟩ := d
  obtain rfl := hzero
  have hmodel : x = Float.ofModel (.pack (.zero .positive)) := by
    rw [← hfloat]
    simp [toFloat, Float.Model.ofScientific, Float.Model.UnpackedFloat.ofScientific]
  rw [hmodel] at hx
  cases hx

/-! ### Reading it -/

/-- A number is read whatever its sign is and whatever follows it. -/
theorem IsNumber.exists_answers {text : List Char} (h : IsNumber text)
    (sign : Float.Model.UnpackedFloat.Sign) :
    ∃ answer, Answers readFloat (Layout.signMark sign ++ text) answer := by
  obtain ⟨whole, fraction, power, rfl, hwhole, hfraction, hpower⟩ := h
  cases sign with
  | positive => exact ⟨_, (answers_readAnyNumber hwhole hfraction hpower .number).map _⟩
  | negative => exact ⟨_, (answers_readAnyNumber_minus hwhole hfraction hpower .number).map _⟩

theorem isNumber_zero : IsNumber ('0' :: numberLayout.wholeTail) := by
  have hzero : ∀ c ∈ ['0'], Text.isDigit c = true := by simp [Text.isDigit]
  exact ⟨['0'], '.' :: ['0'], [], rfl, isWhole_digits 0, .some (by simp) hzero, .none⟩

/-- What is no finite number is refused. -/
theorem answers_readFloat_null : Answers readFloat "null".toList none :=
  fun _ _ _ => .failure rfl

theorem exists_answers_readFloat_write (x : Float) :
    ∃ answer, Answers readFloat (numberLayout.write x) answer := by
  rw [Layout.write]
  cases hu : x.toModel.unpack with
  | notANumber => exact ⟨_, answers_readFloat_null⟩
  | infinity s =>
      cases s with
      | positive => exact ⟨_, answers_readFloat_null⟩
      | negative => exact ⟨_, answers_readFloat_null⟩
  | zero s => exact isNumber_zero.exists_answers s
  | finite s m q hm =>
      cases s with
      | positive => exact (isNumber_writeDecimal (digits_shortest_ne hu)).exists_answers .positive
      | negative =>
          have hneg : (-x).toModel.unpack = .finite .positive m q hm := by
            rw [Binary64.unpack_neg, hu]
            rfl
          exact (isNumber_writeDecimal (digits_shortest_ne hneg)).exists_answers .negative

theorem reread?_eq {x : Float} {answer : Option Float}
    (h : Answers readFloat (numberLayout.write x) answer) : reread? x = answer := by
  have hend := h [] 0 (by simp [Delimited])
  rw [List.append_nil] at hend
  cases hend with
  | value hread => rw [reread?, hread]
  | failure hfail => rw [reread?, hfail]

/-- **A written number is read as `reread?` says**, wherever it stands. -/
theorem answers_readFloat_write (x : Float) :
    Answers readFloat (numberLayout.write x) (reread? x) := by
  obtain ⟨answer, hanswer⟩ := exists_answers_readFloat_write x
  rwa [reread?_eq hanswer]

/-- **A number that is not read back**: with the zero behind the point, its digits make up a
significand that no floating-point number is equal to. -/
theorem reread?_ne_self : reread? 9007199254740991.0 = some 9007199254740990.0 := by
  decide +kernel

end WeightedSat.Document
