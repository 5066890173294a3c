import WeightedSat.Proofs.Binary64.Unsigned
import WeightedSat.Proofs.Document.ReadBack
import WeightedSat.Proofs.Document.WholeWeights

/-!
**Documents that are read back as they were written.**

The texts of a configuration may hold any characters, and its terms any literals; both are always
read back.  So a written document is read as the same configuration exactly when each weight is read
back, and whole weights are, the two zeros among them.

Main results:

* `WeightedSat.Configuration.reread?_eq_self_iff`,
  `WeightedSat.Document.parse_render_eq_ok_iff` — a configuration is read back exactly when its
  weights are;
* `WeightedSat.Document.reread?_of_denotes` — numbers that stand for whole ones are read back;
* `WeightedSat.Document.parse_render_eq_ok_of_whole` — **configurations with whole weights are read
  back**.
-/

set_option relaxedAutoImplicit false
set_option autoImplicit false

namespace WeightedSat

theorem Term.reread?_eq_self_iff {t : Term} :
    t.reread? = some t ↔ Document.reread? t.weight = some t.weight := by
  obtain ⟨weight, ids⟩ := t
  rw [reread?, Option.map_eq_some_iff]
  constructor
  · rintro ⟨w, hw, heq⟩
    cases heq
    exact hw
  · exact fun hw => ⟨weight, hw, rfl⟩

/-- A configuration is read back exactly when its weights are. -/
theorem Configuration.reread?_eq_self_iff {cfg : Configuration} :
    cfg.reread? = some cfg ↔ ∀ t ∈ cfg.terms, Document.reread? t.weight = some t.weight := by
  obtain ⟨kind, version, terms⟩ := cfg
  have hterms : terms.mapM Term.reread? = some terms ↔
      ∀ t ∈ terms, Document.reread? t.weight = some t.weight := by
    rw [mapM_eq_some_iff, List.forall₂_same]
    simp only [Term.reread?_eq_self_iff]
  rw [reread?, ← hterms, Option.map_eq_some_iff]
  constructor
  · rintro ⟨ts, hts, heq⟩
    cases heq
    exact hts
  · exact fun hts => ⟨terms, hts, rfl⟩

namespace Document

open Binary64

/-! ### Weights -/

/-- A word that stands for zero is one of the two zeros. -/
theorem eq_zero_of_denotes {x : Float} (h : Denotes x 0) : x = 0.0 ∨ x = -0.0 := by
  obtain ⟨s, hs⟩ := exists_zero_of_value_eq h.isFinite h.value_eq
  rw [← ofModel_pack_unpack x, hs]
  cases s with
  | positive => exact Or.inl rfl
  | negative => exact Or.inr rfl

/-- **Numbers that stand for whole ones are read back**, up to a tenth of `2 ^ 53`. -/
theorem reread?_of_denotes {x : Float} {n : ℕ} (h : 10 * n ≤ 2 ^ 53) (hx : Denotes x n) :
    reread? x = some x := by
  rcases Nat.eq_zero_or_pos n with rfl | hn
  · rw [Nat.cast_zero] at hx
    rcases eq_zero_of_denotes hx with rfl | rfl
    · decide +kernel
    · decide +kernel
  · have hwhole : x = floatOfNat n :=
      hx.eq_of_pos (denotes_floatOfNat (by omega)) (Nat.cast_pos.2 hn)
    rw [hwhole]
    exact reread?_floatOfNat h

/-! ### Documents -/

/-- **A written document is read as the same configuration exactly when each weight is read back**,
whatever blanks follow it. -/
theorem parse_render_eq_ok_iff {cfg : Configuration} (hids : cfg.Fits) {blanks : String}
    (hblanks : AreBlank blanks.toList) :
    parse (render cfg ++ blanks) = .ok cfg ↔
      ∀ t ∈ cfg.terms, reread? t.weight = some t.weight := by
  rw [← toOption_eq_some_iff, parse_render hids hblanks, Configuration.reread?_eq_self_iff]

/-- **Configurations with whole weights are read back.**  Their texts may hold any characters, and
their terms any signed numbers of thirty-two bits. -/
theorem parse_render_eq_ok_of_whole {cfg : Configuration} (hids : cfg.Fits)
    (hweights : ∀ t ∈ cfg.terms, ∃ n : ℕ, 10 * n ≤ 2 ^ 53 ∧ Denotes t.weight n) :
    parse (render cfg) = .ok cfg := by
  have hread := (@parse_render_eq_ok_iff cfg hids "" areBlank_nil).2
  rw [String.append_empty] at hread
  refine hread fun t ht => ?_
  obtain ⟨n, hn, hdenotes⟩ := hweights t ht
  exact reread?_of_denotes hn hdenotes

/-- Escapes in both texts, a term without literals, the least literal, a zero and a repetition; the
two zeros and the greatest admitted weight. -/
theorem parse_render_eq_ok_of_whole_sample :
    parse (render ⟨"max\"\\\x01\n\u007fß😀", "", [⟨0.0, []⟩, ⟨-0.0, [-2147483648, 0, 0]⟩,
        ⟨900719925474099.0, [2147483647]⟩]⟩) =
      .ok ⟨"max\"\\\x01\n\u007fß😀", "", [⟨0.0, []⟩, ⟨-0.0, [-2147483648, 0, 0]⟩,
        ⟨900719925474099.0, [2147483647]⟩]⟩ := by
  have hgreatest : (900719925474099.0 : Float) = floatOfNat 900719925474099 := by decide +kernel
  refine parse_render_eq_ok_of_whole ?_ ?_
  · simp [Configuration.Fits, fitsSigned_thirtyTwo]
  · simp only [List.forall_mem_cons, hgreatest]
    exact ⟨⟨0, by decide, denotes_zero⟩, ⟨0, by decide, denotes_negativeZero⟩,
      ⟨900719925474099, by decide, denotes_floatOfNat (by decide)⟩, List.forall_mem_nil _⟩

end Document

end WeightedSat
