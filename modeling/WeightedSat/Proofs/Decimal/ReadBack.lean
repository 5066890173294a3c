import WeightedSat.Decimal.Layout
import WeightedSat.Decimal.Reader
import WeightedSat.Proofs.Binary64.Exact
import WeightedSat.Proofs.Text.Numerals

/-!
**Written floating-point numbers are read back.**

The decimal expansion of a floating-point number is that number exactly, so rounding it changes
nothing: a tie or a halfway case never comes up.  The search for fewer digits only takes a decimal
that rounds to the number.  So whatever digits are written, reading them gives the number, its sign
and the values that are no numbers included.

Main results:

* `WeightedSat.Decimal.denotes_toFloat` — a whole decimal up to `2 ^ 53` is its nearest number;
* `WeightedSat.Decimal.toFloat_ofBinary` — **the expansion of a number rounds to it**;
* `WeightedSat.Decimal.toFloat_shortest` — so does the shortest decimal;
* `WeightedSat.Decimal.read?_writePositional` — the digits around a point are read back;
* `WeightedSat.Decimal.readFloat?_write` — **a written number is read back**.
-/

set_option relaxedAutoImplicit false
set_option autoImplicit false

namespace WeightedSat.Decimal

open Float.Model Float.Model.UnpackedFloat
open Binary64

/-! ### Expansions are exact -/

/-- A whole decimal within the range is rounded from one product. -/
theorem ofScientific_whole {m : ℕ} (hm : m ≠ 0) {k : ℕ} (hk : k ≤ 2048) :
    UnpackedFloat.ofScientific Format.binary64 m k =
      UnpackedFloat.roundWithAccuracy Format.binary64 .positive (m * 10 ^ k * 2 ^ 53) (-53)
        .exact := by
  have hlarge : ¬ (k : ℤ) > 2 ^ Format.binary64.exponentBits := by
    change ¬ (k : ℤ) > 2048
    omega
  have hsmall : ¬ (k : ℤ) < -((2 ^ Format.binary64.exponentBits : ℤ) + m.log2) := by
    change ¬ (k : ℤ) < -(2048 + (m.log2 : ℤ))
    omega
  have hproduct : m <<< 53 * 10 ^ k = m * 10 ^ k * 2 ^ 53 := by
    rw [Nat.shiftLeft_eq]
    ring
  rw [UnpackedFloat.ofScientific, dif_neg hm, if_neg hlarge, if_neg hsmall,
    if_pos (Int.natCast_nonneg k), ← hproduct]
  rfl

/-- Zeros at the end of a whole number are a power of ten. -/
theorem toFloat_zeros {m k : ℕ} (hk : k ≤ 2048) :
    toFloat ⟨m * 10 ^ k, 0⟩ = toFloat ⟨m, k⟩ := by
  rcases eq_or_ne m 0 with rfl | hm
  · rw [Nat.zero_mul]
    simp [toFloat, Float.Model.ofScientific, UnpackedFloat.ofScientific]
  · have hzero := ofScientific_whole (m := m * 10 ^ k) (by positivity) (k := 0) (by omega)
    rw [pow_zero, Nat.mul_one, Nat.cast_zero, ← ofScientific_whole hm hk] at hzero
    rw [toFloat, toFloat, Float.Model.ofScientific, Float.Model.ofScientific, hzero]

/-- **A whole decimal up to `2 ^ 53` is its nearest floating-point number.** -/
theorem denotes_toFloat {m k : ℕ} (h : m * 10 ^ k ≤ 2 ^ 53) :
    Denotes (toFloat ⟨m, k⟩) (m * 10 ^ k : ℕ) := by
  rcases Nat.eq_zero_or_pos m with rfl | hm
  · have hzero : toFloat ⟨0, k⟩ = Float.ofModel (.pack (.zero .positive)) := by
      simp [toFloat, Float.Model.ofScientific, UnpackedFloat.ofScientific]
    rw [hzero, Nat.zero_mul]
    exact ⟨rfl, rfl⟩
  · have hpos : 0 < m * 10 ^ k := by positivity
    have hk : k ≤ 16 := by
      refine (Nat.pow_le_pow_iff_right (by decide : 1 < 10)).1 ?_
      calc 10 ^ k ≤ m * 10 ^ k := Nat.le_mul_of_pos_left _ hm
        _ ≤ 2 ^ 53 := h
        _ ≤ 10 ^ 16 := by decide
    obtain ⟨n, f, hn, hf, hvalue⟩ := exists_canonical hpos h
    -- the exponent the product is rounded from is not above that of the word
    have hexponent : -53 ≤ f := by
      have hone : (2 : ℚ) ^ (0 : ℤ) < (2 : ℚ) ^ totalExponent n f := by
        refine lt_of_le_of_lt ?_ (magnitude_bounds hn.pos f).2
        rw [hvalue, zpow_zero]
        exact_mod_cast hpos
      have htotal := (zpow_lt_zpow_iff_right₀ (by norm_num)).1 hone
      have htarget := hn.targetExponent
      rw [targetExponent_eq] at htarget
      omega
    obtain ⟨j, rfl⟩ := Int.le.dest hexponent
    have hproduct : m * 10 ^ k * 2 ^ 53 = n * 2 ^ j := by
      refine eq_mul_two_pow (e := -53) ?_
      rw [hvalue, Nat.cast_mul _ (2 ^ 53), natCast_two_pow, mul_assoc, ← zpow_add₀ (by norm_num)]
      norm_num
    have hwhole := ofScientific_whole hm.ne' (hk.trans (by decide : 16 ≤ 2048))
    rw [hproduct, hn.roundWithAccuracy] at hwhole
    rw [toFloat, Float.Model.ofScientific, hwhole]
    refine UnpackedDenotes.pack ⟨⟨hn, hf⟩, rfl, ?_⟩
    rw [unpackedValue_positive, hvalue]

/-- The expansion of a binary fraction is a quotient without remainder. -/
theorem divCore_expansion {m k : ℕ} (h : Canonical m (-k)) :
    ∃ j : ℕ, divCore Format.binary64 (m * 5 ^ k) 0 (10 ^ k) 0 =
      (m * 2 ^ j, -(k : ℤ) - j, .exact) := by
  have hpos := h.pos
  refine divCore_exact (by positivity) (by positivity) h ?_
  rw [show (10 : ℕ) = 5 * 2 by rfl, Nat.mul_pow, zpow_neg, zpow_natCast]
  push_cast
  field_simp

theorem ofScientific_ofBinary {m : ℕ} {q : ℤ} (h : Canonical m q) :
    UnpackedFloat.ofScientific Format.binary64 (ofBinary m q).digits (ofBinary m q).exponent =
      .finite .positive m q h.pos := by
  have hm : m ≠ 0 := h.pos.ne'
  rw [ofBinary]
  split
  · rename_i hq
    obtain ⟨k, rfl⟩ := Int.eq_ofNat_of_zero_le hq
    have hexponent : (-53 + (k + 53 : ℕ) : ℤ) = k := by omega
    have hround := Canonical.roundWithAccuracy (s := .positive) (hexponent.symm ▸ h)
    have hwhole := ofScientific_whole (m := m * 2 ^ k) (by positivity) (k := 0) (by omega)
    rw [pow_zero, Nat.mul_one, Nat.mul_assoc, ← pow_add, hround] at hwhole
    simp only [hexponent] at hwhole
    exact hwhole
  · rename_i hq
    obtain ⟨k, rfl⟩ : ∃ k : ℕ, q = -k := ⟨(-q).toNat, by omega⟩
    have hle := h.le
    have hk : (- -(k : ℤ)).toNat = k := by omega
    have hsmall : ¬ -(k : ℤ) < -((2 ^ Format.binary64.exponentBits : ℤ) + (m * 5 ^ k).log2) := by
      change ¬ -(k : ℤ) < -(2048 + ((m * 5 ^ k).log2 : ℤ))
      omega
    have hlarge : ¬ -(k : ℤ) > 2 ^ Format.binary64.exponentBits := by
      change ¬ -(k : ℤ) > 2048
      omega
    obtain ⟨j, hdiv⟩ := divCore_expansion h
    have hexponent : (-(k : ℤ) - j + (j : ℕ)) = -k := by omega
    have hround := Canonical.roundWithAccuracy (s := .positive) (hexponent.symm ▸ h)
    simp only [hexponent] at hround
    have hne : m * 5 ^ k ≠ 0 := by positivity
    simp only [hk]
    change UnpackedFloat.ofScientific Format.binary64 (m * 5 ^ k) (-k) = _
    rw [UnpackedFloat.ofScientific, dif_neg hne, if_neg hlarge, if_neg hsmall, if_neg hq]
    simp only [hk, UnpackedFloat.div, hdiv]
    exact hround

/-- **The expansion of a number rounds to it.** -/
theorem toFloat_ofBinary {x : Float} {m : ℕ} {q : ℤ} {hm : 0 < m}
    (hx : x.toModel.unpack = .finite .positive m q hm) : (ofBinary m q).toFloat = x := by
  have hfits := fits_model x
  rw [hx] at hfits
  rw [toFloat, Float.Model.ofScientific, ofScientific_ofBinary hfits.1, ← hx, ofModel_pack_unpack]

/-- **The shortest decimal rounds to the number** that it was sought for. -/
theorem toFloat_shortest (tie : Tie) {x : Float} {d : Decimal} (h : d.toFloat = x) :
    (shortest tie x d).toFloat = x := by
  rw [shortest]
  cases hfound : (List.range' 1 17).findSome? (reading? tie x d) with
  | none => exact h
  | some e =>
      obtain ⟨n, -, hread⟩ := List.exists_of_findSome?_eq_some hfound
      exact toFloat_of_reading hread

/-! ### Digits around a point -/

/-- What is read of digits that were written around a point: the power of ten, where it is not
negative, has become zeros. -/
def unscaled (d : Decimal) : Decimal :=
  if 0 ≤ d.exponent then ⟨d.digits * 10 ^ d.exponent.toNat, 0⟩ else d

/-- Writing the zeros out changes no finite number. -/
theorem toFloat_unscaled {d : Decimal} (h : d.toFloat.isFinite = true) :
    d.unscaled.toFloat = d.toFloat := by
  rw [unscaled]
  split
  · rename_i hexponent
    obtain ⟨digits, exponent⟩ := d
    obtain ⟨k, rfl⟩ := Int.eq_ofNat_of_zero_le hexponent
    rcases Nat.lt_or_ge 2048 k with hk | hk
    · -- beyond the range there is nothing but zero and infinity
      rcases eq_or_ne digits 0 with rfl | hne
      · simp [toFloat, Float.Model.ofScientific, UnpackedFloat.ofScientific]
      · have hlarge : (k : ℤ) > 2 ^ Format.binary64.exponentBits := by
          change (k : ℤ) > 2048
          omega
        rw [toFloat, Float.Model.ofScientific, UnpackedFloat.ofScientific, dif_neg hne,
          if_pos hlarge] at h
        cases h
    · exact toFloat_zeros hk
  · rfl

theorem spanDigits_append {ds : List Char} (hds : ∀ c ∈ ds, Text.isDigit c = true)
    (text : List Char) (htext : ∀ c ∈ text.head?, Text.isDigit c = false) :
    spanDigits (ds ++ text) = (ds, text) := by
  obtain ⟨htake, hdrop⟩ := Text.span_isDigit_append hds htext
  rw [spanDigits, htake, hdrop]

theorem read?_whole {ds : List Char} (hne : ds ≠ []) (hds : ∀ c ∈ ds, Text.isDigit c = true) :
    read? ds = some ⟨Text.natValue ds, 0⟩ := by
  have hspan := spanDigits_append hds [] (by simp)
  rw [List.append_nil] at hspan
  simp [read?, hspan, spanFraction, readPower?, hne]

theorem read?_fraction {whole fraction : List Char} (hne : whole ≠ [])
    (hwhole : ∀ c ∈ whole, Text.isDigit c = true)
    (hfraction : ∀ c ∈ fraction, Text.isDigit c = true) :
    read? (whole ++ '.' :: fraction) =
      some ⟨Text.natValue (whole ++ fraction), -fraction.length⟩ := by
  have hspan := spanDigits_append hwhole ('.' :: fraction) (by simp [Text.isDigit])
  have hspan' := spanDigits_append hfraction [] (by simp)
  rw [List.append_nil] at hspan'
  simp [read?, hspan, hspan', spanFraction, readPower?, hne]

/-- **Digits written around a point are read back.** -/
theorem read?_writePositional (d : Decimal) :
    read? (Layout.plain.writePositional d) = some d.unscaled := by
  have hne := Text.digits_ne_nil d.digits
  have hdigits : ∀ c ∈ Text.digits d.digits, Text.isDigit c = true := fun _ =>
    Text.isDigit_of_mem_digits
  have hzeros : ∀ k, ∀ c ∈ List.replicate k '0', Text.isDigit c = true := by
    intro k c hc
    rw [List.eq_of_mem_replicate hc]
    rfl
  rw [Layout.writePositional, unscaled]
  split
  · -- a whole number, with its zeros
    rw [show Layout.plain.wholeTail = [] from rfl, List.append_nil, read?_whole (by simp [hne])]
    · rw [Text.natValue_append_zeros, Text.natValue_digits]
    · intro c hc
      rcases List.mem_append.1 hc with hc | hc
      · exact hdigits c hc
      · exact hzeros _ c hc
  · rename_i hexponent
    simp only
    generalize hplaces : (-d.exponent).toNat = places
    have hexponent' : d.exponent = -places := by omega
    split
    · -- the point stands between two digits
      rename_i hlt
      have hlength : (Text.digits d.digits).length - ((Text.digits d.digits).length - places) =
          places := by omega
      rw [read?_fraction, List.take_append_drop, Text.natValue_digits, List.length_drop, hlength,
        ← hexponent']
      · intro htake
        have hzero := congrArg List.length htake
        rw [List.length_take, List.length_nil] at hzero
        omega
      · exact fun c hc => hdigits c (List.mem_of_mem_take hc)
      · exact fun c hc => hdigits c (List.mem_of_mem_drop hc)
    · -- zeros stand between the point and the digits
      rename_i hge
      have hlength : places - (Text.digits d.digits).length + (Text.digits d.digits).length =
          places := by omega
      change read? (['0'] ++ '.' :: (List.replicate _ '0' ++ Text.digits d.digits)) = _
      rw [read?_fraction (by simp) (by simp [Text.isDigit])]
      · rw [← List.append_assoc, show ['0'] = List.replicate 1 '0' from rfl,
          List.replicate_append_replicate, Text.natValue_zeros_append, Text.natValue_digits,
          List.length_append, List.length_replicate, hlength, ← hexponent']
      · intro c hc
        rcases List.mem_append.1 hc with hc | hc
        · exact hzeros _ c hc
        · exact hdigits c hc

/-! ### Numbers -/

/-- A text that starts with a digit is no word for infinity and the like. -/
theorem readUnsigned?_of_read? {c : Char} {text : List Char} {d : Decimal}
    (hc : Text.isDigit c = true) (hread : read? (c :: text) = some d) :
    readUnsigned? (c :: text) = some d.toFloat := by
  have hlower : c.toLower = c := by
    have hrange := Text.isDigit_iff.1 hc
    rw [Char.toLower, dif_neg]
    rintro ⟨hupper, -⟩
    have hupper' : 65 ≤ c.toNat := hupper
    omega
  have hword : ∀ a word, Text.isDigit a = false → (c :: text).map Char.toLower ≠ a :: word := by
    rintro a word ha hword
    rw [List.map_cons, hlower] at hword
    rw [(List.cons.inj hword).1, ha] at hc
    cases hc
  have hinfinity : ¬ ((c :: text).map Char.toLower = "inf".toList ∨
      (c :: text).map Char.toLower = "infinity".toList) := by
    rintro (h | h)
    · exact hword 'i' _ rfl h
    · exact hword 'i' _ rfl h
  have hnan : ¬ (c :: text).map Char.toLower = "nan".toList := hword 'n' _ rfl
  rw [readUnsigned?, if_neg hinfinity, if_neg hnan, hread, Option.map_some]

/-- A text that starts with a digit has no sign. -/
theorem readFloat?_eq_readUnsigned? {c : Char} (hc : Text.isDigit c = true) (text : List Char) :
    readFloat? (c :: text) = readUnsigned? (c :: text) := by
  have hminus : c ≠ '-' := by
    rintro rfl
    cases hc
  have hplus : c ≠ '+' := by
    rintro rfl
    cases hc
  simp [readFloat?, hminus, hplus]

/-- **A written whole number is read** as the nearest floating-point number. -/
theorem readFloat?_digits (n : ℕ) : readFloat? (Text.digits n) = some (toFloat ⟨n, 0⟩) := by
  have hread := read?_whole (Text.digits_ne_nil n) fun _ => Text.isDigit_of_mem_digits
  rw [Text.natValue_digits] at hread
  obtain ⟨c, ds, hcons, hc⟩ := Text.exists_digits_eq_cons n
  rw [hcons] at hread ⊢
  rw [readFloat?_eq_readUnsigned? hc, readUnsigned?_of_read? hc hread]

/-- A digit in front. -/
theorem exists_writePositional_eq_cons (d : Decimal) :
    ∃ c text, Layout.plain.writePositional d = c :: text ∧ Text.isDigit c = true := by
  obtain ⟨c, ds, hcons, hc⟩ := Text.exists_digits_eq_cons d.digits
  rw [Layout.writePositional, hcons]
  split
  · exact ⟨c, _, rfl, hc⟩
  · simp only
    split
    · rename_i hlt
      obtain ⟨k, hk⟩ := Nat.exists_eq_add_of_lt hlt
      rw [show (c :: ds).length - (-d.exponent).toNat = k + 1 by omega]
      exact ⟨c, _, rfl, hc⟩
    · exact ⟨'0', _, rfl, rfl⟩

/-- The shortest decimal of a positive number is read back. -/
theorem readUnsigned?_shortest {x : Float} {m : ℕ} {q : ℤ} {hm : 0 < m}
    (hx : x.toModel.unpack = .finite .positive m q hm) :
    readUnsigned? (Layout.plain.writeDecimal (shortest .up x (ofBinary m q))) = some x := by
  have hfloat := toFloat_shortest .up (toFloat_ofBinary hx)
  have hfinite : x.isFinite = true := by
    change x.toModel.unpack.isFinite = true
    rw [hx]
    rfl
  change readUnsigned? (Layout.plain.writePositional _) = _
  have hread := read?_writePositional (shortest .up x (ofBinary m q))
  obtain ⟨c, text, hcons, hc⟩ := exists_writePositional_eq_cons (shortest .up x (ofBinary m q))
  rw [hcons] at hread ⊢
  rw [readUnsigned?_of_read? hc hread, toFloat_unscaled (hfloat.symm ▸ hfinite), hfloat]

/-- **A written number is read back**, whatever the number is. -/
theorem readFloat?_write (x : Float) : readFloat? (Layout.plain.write x) = some x := by
  have hx := ofModel_pack_unpack x
  rw [Layout.write]
  cases hu : x.toModel.unpack with
  | notANumber =>
      rw [hu] at hx
      rw [← hx]
      rfl
  | infinity s =>
      rw [hu] at hx
      rw [← hx]
      cases s <;> rfl
  | zero s =>
      rw [hu] at hx
      rw [← hx]
      cases s <;> rfl
  | finite s m q hm =>
      cases s with
      | positive =>
          have hread := readUnsigned?_shortest hu
          obtain ⟨c, text, hcons, hc⟩ :=
            exists_writePositional_eq_cons (shortest .up x (ofBinary m q))
          change readFloat? (Layout.plain.writePositional (shortest .up x (ofBinary m q))) = _
          change readUnsigned? (Layout.plain.writePositional _) = _ at hread
          rw [hcons] at hread ⊢
          rw [readFloat?_eq_readUnsigned? hc, hread]
      | negative =>
          have hneg : (-x).toModel.unpack = .finite .positive m q hm := by
            rw [unpack_neg, hu]
            rfl
          change (readUnsigned? (Layout.plain.writeDecimal _)).map _ = _
          rw [show Layout.plain.tie = .up from rfl, readUnsigned?_shortest hneg, Option.map_some,
            neg_neg_word]

/-! ### Words -/

theorem isBlank_of_mem_writePositional {d : Decimal} {c : Char}
    (h : c ∈ Layout.plain.writePositional d) : Text.isBlank c = false := by
  have hzero : ∀ k, c ∈ List.replicate k '0' → Text.isBlank c = false := by
    intro k hc
    rw [List.eq_of_mem_replicate hc]
    decide
  rw [Layout.writePositional] at h
  split at h
  · rw [show Layout.plain.wholeTail = [] from rfl, List.append_nil] at h
    rcases List.mem_append.1 h with h | h
    · exact Text.isBlank_of_mem_digits h
    · exact hzero _ h
  · simp only at h
    split at h
    · rcases List.mem_append.1 h with h | h
      · exact Text.isBlank_of_mem_digits (List.mem_of_mem_take h)
      · rcases List.mem_cons.1 h with rfl | h
        · decide
        · exact Text.isBlank_of_mem_digits (List.mem_of_mem_drop h)
    · rcases List.mem_append.1 h with h | h
      · rcases List.mem_append.1 h with h | h
        · rcases List.mem_cons.1 h with rfl | h
          · decide
          · obtain rfl := List.mem_singleton.1 h
            decide
        · exact hzero _ h
      · exact Text.isBlank_of_mem_digits h

/-- A written number is a word. -/
theorem isBlank_of_mem_write {x : Float} {c : Char} (h : c ∈ Layout.plain.write x) :
    Text.isBlank c = false := by
  have hfixed : ∀ text : List Char, text.all (!Text.isBlank ·) = true → c ∈ text →
      Text.isBlank c = false := by
    intro text hall hc
    simpa using List.all_eq_true.1 hall c hc
  rw [Layout.write] at h
  split at h
  · exact hfixed _ (by decide) h
  · exact hfixed _ (by decide) h
  · exact hfixed _ (by decide) h
  · rename_i s _
    cases s <;> exact hfixed _ (by decide) h
  · rename_i s m q hm _
    rcases List.mem_append.1 h with h | h
    · cases s <;> exact hfixed _ (by decide) h
    · exact isBlank_of_mem_writePositional h

theorem write_ne_nil (x : Float) : Layout.plain.write x ≠ [] := by
  intro hnil
  have hread := readFloat?_write x
  rw [hnil] at hread
  cases hread

end WeightedSat.Decimal
