import Mathlib

/-!
**What a floating-point word holds.**

A finite number other than zero is a sign, a significand and a power of two.  Of the many ways to
write it, a word uses one: the significand fills its fifty-three bits, or the exponent is the least
there is.  This module says which pairs those are, that reading a word gives such a pair, and that
writing such a pair into a word and reading it back changes nothing.

Main definitions:

* `WeightedSat.Binary64.Canonical` — the pairs that words use;
* `WeightedSat.Binary64.Fits` — what a word can hold.

Main results:

* `WeightedSat.Binary64.fits_unpack` — what is read from a word fits;
* `WeightedSat.Binary64.unpack_pack` — **what fits survives being written**;
* `WeightedSat.Binary64.ofModel_pack_unpack` — **a word is determined by what it holds**.
-/

set_option relaxedAutoImplicit false
set_option autoImplicit false

namespace WeightedSat.Binary64

open Float.Model Float.Model.UnpackedFloat

/-! ### Canonical pairs -/

/-- A significand and an exponent as a word holds them: fifty-three bits, the first of them set
unless the exponent is the least. -/
structure Canonical (m : Nat) (e : Int) : Prop where
  pos : 0 < m
  lt : m < 2 ^ 53
  le : -1074 ≤ e
  full : 2 ^ 52 ≤ m ∨ e = -1074

/-- What a word can hold: above the exponent 971 there are only the infinities. -/
def Fits : UnpackedFloat → Prop
  | .finite _ m e _ => Canonical m e ∧ e ≤ 971
  | _ => True

theorem targetExponent_eq (total : Int) :
    Format.binary64.targetExponent total = max (total - 53) (-1074) := rfl

/-- A canonical pair has the exponent that rounding aims at. -/
theorem Canonical.targetExponent {m : Nat} {e : Int} (h : Canonical m e) :
    Format.binary64.targetExponent (totalExponent m e) = e := by
  have hlog : m.log2 < 53 := (Nat.log2_lt h.pos.ne').2 h.lt
  rw [targetExponent_eq, totalExponent]
  rcases h.full with hfull | rfl
  · have hlog' : 52 ≤ m.log2 := (Nat.le_log2 h.pos.ne').2 hfull
    have hle := h.le
    omega
  · omega

/-! ### Reading a word -/

theorem bias_eq : ((Format.binary64.exponentBias : Int) + (52 : Nat)) = 1075 := by decide

theorem biased_exponent_eq (e : Int) :
    e + Format.binary64.exponentBias + Format.binary64.mantissaBitsWithoutImplicit = e + 1075 := by
  rw [Int.add_assoc]
  exact congrArg (e + ·) bias_eq

/-- The leading bit, which a word does not store, put back. -/
theorem toNat_leadingBit (b : BitVec 52) : (1#1 ++ b).toNat = 2 ^ 52 + b.toNat := by
  have hor : 2 ^ 52 * 1 + b.toNat = 2 ^ 52 * 1 ||| b.toNat := Nat.two_pow_add_eq_or_of_lt b.isLt 1
  rw [Nat.mul_one] at hor
  rw [BitVec.toNat_append, hor]
  rfl

/-- **What is read from a word fits.** -/
theorem fits_unpack (b : BitVec Format.binary64.numBits) :
    Fits (UnpackedFloat.unpack Format.binary64 b) := by
  have hm : (unpackMantissa b).toNat < 2 ^ 52 := (unpackMantissa b).isLt
  have he : (unpackExponent b).toNat < 2 ^ 11 := (unpackExponent b).isLt
  have hbias := bias_eq
  unfold UnpackedFloat.unpack
  dsimp only
  split
  · split <;> trivial
  · rename_i hmax
    -- the greatest exponent is that of the infinities
    have hmax' : (unpackExponent b).toNat ≠ 2047 := fun h => hmax (BitVec.eq_of_toNat_eq h)
    split
    · rename_i hzero
      split
      · trivial
      · rename_i hmantissa
        have hpos : (unpackMantissa b).toNat ≠ 0 := fun h => hmantissa (BitVec.eq_of_toNat_eq h)
        rw [hzero]
        refine ⟨⟨by omega, by omega, ?_, Or.inr ?_⟩, ?_⟩ <;>
          simp only [BitVec.toNat_ofNat] <;> omega
    · rename_i hzero
      have hzero' : (unpackExponent b).toNat ≠ 0 := fun h => hzero (BitVec.eq_of_toNat_eq h)
      have hlead := toNat_leadingBit (unpackMantissa b)
      refine ⟨⟨by omega, by omega, by omega, Or.inl (by omega)⟩, by omega⟩

/-! ### Writing a word -/

/-- The reading of a word from its three parts. -/
theorem unpack_packComponents (s : Sign) (e : BitVec 11) (m : BitVec 52) (he : e ≠ -1#11) :
    UnpackedFloat.unpack Format.binary64 (packComponents Format.binary64 s e m) =
      if e = 0#11 then
        if h : m = 0#52 then .zero s
        else .finite s m.toNat (-1074) (by
          have hne : m.toNat ≠ 0 := fun h0 => h (BitVec.eq_of_toNat_eq h0)
          omega)
      else .finite s (2 ^ 52 + m.toNat) (e.toNat - 1075) (by omega) := by
  unfold UnpackedFloat.unpack
  simp only [unpackMantissa_packComponents, unpackExponent_packComponents,
    unpackSign_packComponents, Sign.ofBitVec_toBitVec]
  rw [if_neg he]
  by_cases hzero : e = 0#11
  · subst hzero
    rfl
  · rw [if_neg hzero, if_neg hzero]
    simp only [toNat_leadingBit]
    rfl

/-- The word of a finite number that fits: only a full significand has its leading bit dropped. -/
theorem pack_finite {s : Sign} {m : Nat} {e : Int} {hpos : 0 < m} (hc : Canonical m e)
    (hmax : e ≤ 971) :
    UnpackedFloat.pack Format.binary64 (.finite s m e hpos) =
      packComponents Format.binary64 s
        (BitVec.ofNat 11 (if 2 ^ 52 ≤ m then (e + 1075).toNat else 0)) (BitVec.ofNat 52 m) := by
  have hbiased := biased_exponent_eq e
  have hlog : m.log2 < 53 := (Nat.log2_lt hc.pos.ne').2 hc.lt
  have hfinite : ¬ 2 ^ Format.binary64.exponentBits ≤ (e + 1075).toNat + 1 := by
    change ¬ 2 ^ 11 ≤ (e + 1075).toNat + 1
    omega
  simp only [UnpackedFloat.pack, hbiased, if_neg hfinite]
  by_cases hfull : 2 ^ 52 ≤ m
  · have hlog' : 52 ≤ m.log2 := (Nat.le_log2 hc.pos.ne').2 hfull
    have hbits : m.log2 + 1 = Format.binary64.mantissaBits := by
      change m.log2 + 1 = 53
      omega
    rw [if_pos hbits, if_pos hfull]
  · have hbits : ¬ m.log2 + 1 = Format.binary64.mantissaBits := by
      intro hbits
      change m.log2 + 1 = 53 at hbits
      exact hfull ((Nat.le_log2 hc.pos.ne').1 (by omega))
    rw [if_neg hbits, if_neg hfull]

/-- **What fits survives being written.** -/
theorem unpack_pack {u : UnpackedFloat} (h : Fits u) :
    UnpackedFloat.unpack Format.binary64 (UnpackedFloat.pack Format.binary64 u) = u := by
  cases u with
  | notANumber => rfl
  | infinity s => cases s <;> rfl
  | zero s => cases s <;> rfl
  | finite s m e hpos =>
      obtain ⟨hc, hmax⟩ := h
      have hle := hc.le
      have hlt := hc.lt
      have hexp : ∀ k < 2047, BitVec.ofNat 11 k ≠ -1#11 := by
        intro k hk heq
        have hval := congrArg BitVec.toNat heq
        rw [BitVec.toNat_ofNat] at hval
        change k % 2048 = 2047 at hval
        omega
      rw [pack_finite hc hmax]
      by_cases hfull : 2 ^ 52 ≤ m
      · have hne : BitVec.ofNat 11 (e + 1075).toNat ≠ 0#11 := by
          intro heq
          have hval := congrArg BitVec.toNat heq
          rw [BitVec.toNat_ofNat] at hval
          change (e + 1075).toNat % 2048 = 0 at hval
          omega
        rw [if_pos hfull, unpack_packComponents _ _ _ (hexp _ (by omega)), if_neg hne]
        simp only [BitVec.toNat_ofNat, finite.injEq, true_and]
        omega
      · have he : e = -1074 := hc.full.resolve_left hfull
        have hne : BitVec.ofNat 52 m ≠ 0#52 := by
          intro heq
          have hval := congrArg BitVec.toNat heq
          rw [BitVec.toNat_ofNat] at hval
          change m % 2 ^ 52 = 0 at hval
          omega
        rw [if_neg hfull, unpack_packComponents _ _ _ (hexp _ (by omega)), if_pos rfl, dif_neg hne]
        simp only [BitVec.toNat_ofNat, finite.injEq, true_and]
        omega

/-! ### Words -/

/-- A word consists of its three parts. -/
theorem packComponents_unpack (b : BitVec Format.binary64.numBits) :
    packComponents Format.binary64 (.ofBitVec (unpackSign b)) (unpackExponent b)
      (unpackMantissa b) = b := by
  have hsign : ∀ s : BitVec 1, (Sign.ofBitVec s).toBitVec = s := by decide
  rw [packComponents, hsign]
  refine BitVec.eq_of_getLsbD_eq ?_
  intro i hi
  change i < 64 at hi
  rw [BitVec.getLsbD_append, BitVec.getLsbD_append]
  simp only [unpackMantissa, unpackExponent, unpackSign, BitVec.getLsbD_cast,
    BitVec.getLsbD_extractLsb]
  split
  · rw [decide_eq_true (by omega), Bool.true_and, Nat.zero_add]
  · split
    · rw [decide_eq_true (by omega), Bool.true_and, show 52 + (i - 52) = i by omega]
    · rw [decide_eq_true (by omega), Bool.true_and, show 52 + 11 + (i - 52 - 11) = i by omega]

/-- **What is read from a valid word is written as that word.** -/
theorem pack_unpack {b : BitVec Format.binary64.numBits} (h : Format.binary64.Valid b) :
    UnpackedFloat.pack Format.binary64 (UnpackedFloat.unpack Format.binary64 b) = b := by
  have hb := packComponents_unpack b
  have hm : (unpackMantissa b).toNat < 2 ^ 52 := (unpackMantissa b).isLt
  have he : (unpackExponent b).toNat < 2 ^ 11 := (unpackExponent b).isLt
  have hfits := fits_unpack b
  unfold UnpackedFloat.unpack at hfits ⊢
  dsimp only at hfits ⊢
  split
  · rename_i hmax
    split
    · rename_i hzero
      rw [hmax, hzero] at hb
      exact hb
    · rename_i hne
      exact (h.eq_packedNaN hmax hne).symm
  · rename_i hmax
    rw [if_neg hmax] at hfits
    split
    · rename_i hexp
      rw [if_pos hexp] at hfits
      split
      · rename_i hzero
        rw [hexp, hzero] at hb
        exact hb
      · rename_i hne
        rw [dif_neg hne] at hfits
        have hsmall : ¬ 2 ^ 52 ≤ (unpackMantissa b).toNat := by omega
        rw [pack_finite hfits.1 hfits.2, if_neg hsmall, BitVec.ofNat_toNat, BitVec.setWidth_eq]
        rw [hexp] at hb
        exact hb
    · rename_i hexp
      rw [if_neg hexp] at hfits
      have hlead := toNat_leadingBit (unpackMantissa b)
      have hfull : 2 ^ 52 ≤ (1#1 ++ unpackMantissa b).toNat := by omega
      have hbias := bias_eq
      rw [pack_finite hfits.1 hfits.2, if_pos hfull]
      have hexponent : ((unpackExponent b).toNat -
          ((Format.binary64.exponentBias : Int) + (52 : Nat)) + 1075).toNat =
            (unpackExponent b).toNat := by omega
      have hmantissa : BitVec.ofNat 52 (1#1 ++ unpackMantissa b).toNat = unpackMantissa b := by
        refine BitVec.eq_of_toNat_eq ?_
        rw [BitVec.toNat_ofNat, hlead]
        omega
      refine Eq.trans ?_ hb
      congr 1
      rw [hexponent, BitVec.ofNat_toNat, BitVec.setWidth_eq]

/-- **A word is determined by what it holds.** -/
theorem ofModel_pack_unpack (x : Float) : Float.ofModel (.pack x.toModel.unpack) = x := by
  obtain ⟨⟨bits, hvalid⟩⟩ := x
  have hbits := pack_unpack hvalid
  rw [Float.Model.pack, Float.Model.unpack]
  simp only [hbits]

theorem unpack_neg (x : Float) : (-x).toModel.unpack = x.toModel.unpack.neg := by
  have hfits : Fits x.toModel.unpack.neg := by
    have hx : Fits x.toModel.unpack := fits_unpack x.toModel.toBits.toBitVec
    cases hu : x.toModel.unpack with
    | finite s m e hm =>
        rw [hu] at hx
        exact hx
    | _ => trivial
  exact unpack_pack hfits

theorem neg_neg_word (x : Float) : - -x = x := by
  have hneg : ∀ u : UnpackedFloat, u.neg.neg = u := by
    intro u
    cases u with
    | notANumber => rfl
    | infinity s => cases s <;> rfl
    | zero s => cases s <;> rfl
    | finite s m e hm => cases s <;> rfl
  rw [← ofModel_pack_unpack (- -x), unpack_neg, unpack_neg, hneg, ofModel_pack_unpack]

end WeightedSat.Binary64
