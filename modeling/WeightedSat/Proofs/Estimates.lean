import WeightedSat.Proofs.Cancellation
import WeightedSat.Proofs.FlipPrices

/-!
**The two estimates, and the greatest weight between them.**

A schedule for local search starts from the largest change of price that a flip can cause and ends
at the smallest.  In rounded arithmetic, with arbitrary weights, the two are in order and the
greatest weight stands between them.  What cancelling leaves is never zero and never more than what
was there, so the smallest change is positive and no greater than the greatest weight; and a clause
of the greatest weight adds at least that much to the side of each of its variables.

Main results:

* `WeightedSat.Model.Encodes.exists_minDifference` — the smallest change of all is that of some
  variable;
* `WeightedSat.Model.minDifference_le_maxDifference` — **the estimates are in order**, positive and
  with the greatest weight between them.
-/

set_option relaxedAutoImplicit false
set_option autoImplicit false

namespace WeightedSat

open Binary64

/-! ### The sides of a variable -/

/-- Nothing above the finite numbers bounds the weights of clauses any further. -/
theorem AreWeighted.isWeight {active : List Clause} (hactive : AreWeighted active) {c : Clause}
    (hc : c ∈ active) : IsWeight limit c.weight :=
  ⟨hactive.isFinite_eq c hc, hactive.pos c hc,
    (le_abs_self _).trans (abs_value_lt_limit (hactive.isFinite_eq c hc)).le⟩

theorem mem_sideWeights {clauses : List Clause} {name : Nat} {positive : Bool} {w : Float} :
    w ∈ sideWeights clauses name positive ↔
      ∃ c ∈ clauses, c.polarities[name]? = some positive ∧ c.weight = w := by
  simp only [sideWeights, List.mem_filterMap, Clause.sideWeight?, Option.ite_none_right_eq_some,
    Option.some_inj]

/-- What a variable meets are weights of clauses that hold it. -/
theorem exists_clause_of_mem_sidesOf {clauses : List Clause} {name : Nat} {w : Float}
    (h : w ∈ (sidesOf clauses name).positive ++ (sidesOf clauses name).negative) :
    ∃ c ∈ clauses, name ∈ c.names ∧ c.weight = w := by
  have hside : ∀ positive, w ∈ sideWeights clauses name positive →
      ∃ c ∈ clauses, name ∈ c.names ∧ c.weight = w := by
    intro positive h
    obtain ⟨c, hc, hpolarity, hw⟩ := mem_sideWeights.1 h
    refine ⟨c, hc, ?_, hw⟩
    by_contra hname
    rw [Clause.polarities_eq_none_iff.2 hname] at hpolarity
    cases hpolarity
  exact (List.mem_append.1 h).elim (hside true) (hside false)

/-- A clause adds its weight to a side of each of its variables. -/
theorem exists_mem_sideWeights {clauses : List Clause} {c : Clause} (hc : c ∈ clauses) {name : Nat}
    (hname : name ∈ c.names) :
    ∃ positive, c.polarities[name]? = some positive ∧
      c.weight ∈ sideWeights clauses name positive := by
  obtain ⟨positive, hpositive⟩ := Clause.exists_polarity hname
  exact ⟨positive, hpositive, mem_sideWeights.2 ⟨c, hc, hpositive, rfl⟩⟩

/-- A variable meets some weight. -/
theorem sidesOf_ne_nil {clauses : List Clause} {name : Nat} (h : name ∈ distinctNames clauses) :
    (sidesOf clauses name).positive ++ (sidesOf clauses name).negative ≠ [] := by
  obtain ⟨c, hc, hname⟩ := mem_distinctNames.1 h
  obtain ⟨positive, -, hmem⟩ := exists_mem_sideWeights hc hname
  cases positive with
  | true => exact List.ne_nil_of_mem (List.mem_append_left _ hmem)
  | false => exact List.ne_nil_of_mem (List.mem_append_right _ hmem)

section Weights

variable {active : List Clause} {bound : ℚ} {name : Nat}
  (hweight : ∀ c ∈ active, name ∈ c.names → IsWeight bound c.weight)

include hweight

theorem isWeight_of_mem_sidesOf {w : Float}
    (hw : w ∈ (sidesOf active name).positive ++ (sidesOf active name).negative) :
    IsWeight bound w := by
  obtain ⟨c, hc, hname, rfl⟩ := exists_clause_of_mem_sidesOf hw
  exact hweight c hc hname

/-- **The smallest change of a variable** is positive, and no greater than the weights it meets. -/
theorem isWeight_smallest_sidesOf (hname : name ∈ distinctNames active) :
    IsWeight bound (sidesOf active name).smallest :=
  Bounds.Sides.isWeight_smallest (sidesOf_ne_nil hname) fun _ => isWeight_of_mem_sidesOf hweight

end Weights

namespace Model

variable {m : Model} {active clauses : List Clause}

/-- **The smallest change of all** is that of some variable, if there is one. -/
theorem Encodes.exists_minDifference (he : m.Encodes active) (hvars : 0 < m.variableCount)
    {bound : ℚ} (hweight : ∀ c ∈ active, IsWeight bound c.weight) :
    ∃ name ∈ distinctNames active, m.minDifference = .ok (sidesOf active name).smallest ∧
      IsWeight bound (sidesOf active name).smallest := by
  have hsmallest : ∀ name ∈ distinctNames active,
      IsWeight bound (sidesOf active name).smallest :=
    fun _ hname => isWeight_smallest_sidesOf (fun c hc _ => hweight c hc) hname
  have hne : (distinctNames active).map (fun name => (sidesOf active name).smallest) ≠ [] := by
    rw [he.variableCount_eq] at hvars
    exact mt List.map_eq_nil_iff.1 (List.ne_nil_of_length_pos hvars)
  have hmem := Weight.foldl_smaller_infinity_mem hne
    (List.forall_mem_map.2 fun name hname => (hsmallest name hname).isFinite)
  obtain ⟨name, hname, hleast⟩ := List.mem_map.1 hmem
  refine ⟨name, hname, ?_, hsmallest name hname⟩
  rw [he.minDifference_eq, ← hleast]
  simp only [(hsmallest name hname).isFinite, if_true]

theorem Configured.maxWeight_eq (hm : m.Configured clauses) :
    m.encoding.maxWeight =
      Encoding.greatest ((Encoding.activeClauses clauses).map (·.weight)) := by
  rw [hm.encoding_eq]
  rfl

/-- Some active clause has the greatest weight, and all weights are positive up to that. -/
theorem Configured.exists_greatest (hm : m.Configured clauses) (hvars : 0 < m.variableCount) :
    ∃ c ∈ Encoding.activeClauses clauses, c.weight = m.encoding.maxWeight ∧
      ∀ d ∈ Encoding.activeClauses clauses, IsWeight (Binary64.value c.weight) d.weight := by
  have hactive := hm.areWeighted
  have hne : Encoding.activeClauses clauses ≠ [] := by
    intro hnil
    rw [hm.encodes.variableCount_eq, hnil] at hvars
    exact absurd hvars (by decide)
  obtain ⟨c, hc, hweight, hgreatest⟩ := Encoding.exists_greatest hne hactive.isFinite_eq
  refine ⟨c, hc, hweight.trans hm.maxWeight_eq.symm, ?_⟩
  intro d hd
  refine ⟨hactive.isFinite_eq d hd, hactive.pos d hd, ?_⟩
  exact ((isAt_value (hactive.isFinite_eq d hd)).le_iff (isAt_value (hactive.isFinite_eq c hc))).1
    (hgreatest d hd)

/-- Every clause has a variable. -/
theorem Configured.exists_mem_names (hm : m.Configured clauses) {c : Clause} (hc : c ∈ clauses) :
    ∃ name, name ∈ c.names := by
  obtain ⟨e, hbuild, -⟩ := hm.encoding?_eq
  obtain ⟨l, hl⟩ := List.exists_mem_of_ne_nil _ (Encoding.admitted_of_build hbuild hc).1
  exact ⟨l.name, List.mem_map_of_mem hl⟩

/-- **A clause adds its weight to the largest change** of each of its variables. -/
theorem value_le_sidePlace (hactive : AreWeighted active) {c : Clause} (hc : c ∈ active)
    {name : Nat} (hname : name ∈ c.names) :
    Binary64.value c.weight ≤ max (sidePlace active name true) (sidePlace active name false) := by
  obtain ⟨positive, hpositive, -⟩ := exists_mem_sideWeights hc hname
  have hweight : c.sideWeight? name positive = some c.weight := if_pos hpositive
  have hside : Binary64.value c.weight ≤ sidePlace active name positive :=
    value_le_sumRounded hc hweight (hactive.isFinite_eq c hc) fun d hd =>
      Clause.share_sideWeight?_nonneg (hactive.pos d hd).le name positive
  cases positive with
  | true => exact hside.trans (le_max_left _ _)
  | false => exact hside.trans (le_max_right _ _)

/-- **The estimates are in order.**  For every configured model with a variable, the smallest change
is a positive number no greater than the greatest weight, and the largest change is no less. -/
theorem minDifference_le_maxDifference (hm : m.Configured clauses) (hvars : 0 < m.variableCount) :
    ∃ least largest, m.minDifference = .ok least ∧ m.maxDifference = .ok largest ∧
      least.isFinite = true ∧ 0.0 < least ∧ least ≤ m.encoding.maxWeight ∧
      m.encoding.maxWeight ≤ largest := by
  have he := hm.encodes
  have hactive := hm.areWeighted
  obtain ⟨c, hc, hweight, hbound⟩ := hm.exists_greatest hvars
  have hgreatest := isAt_value (hactive.isFinite_eq c hc)
  rw [← hweight]
  obtain ⟨name, -, hmin, hleast⟩ := he.exists_minDifference hvars hbound
  obtain ⟨largest, r, hmax, hr, hsides⟩ := he.exists_maxDifference hactive
  obtain ⟨other, hother⟩ := hm.exists_mem_names (Encoding.mem_activeClauses.1 hc).1
  have hlarge := (value_le_sidePlace hactive hc hother).trans
    (hsides other (names_subset_distinctNames hc hother))
  refine ⟨_, largest, hmin, hmax, hleast.isFinite, ?_, ?_, ?_⟩
  · rw [isAt_zero.lt_iff (isAt_value hleast.isFinite)]
    exact hleast.pos
  · rw [(isAt_value hleast.isFinite).le_iff hgreatest]
    exact hleast.le
  · rw [hgreatest.le_iff hr]
    exact hlarge

/-- For three clauses, of weights one and three where they are active. -/
theorem minDifference_le_maxDifference_sample :
    ∃ least largest, 0 < sampleModel.variableCount ∧ sampleModel.minDifference = .ok least ∧
      sampleModel.maxDifference = .ok largest ∧ least.isFinite = true ∧ 0.0 < least ∧
      least ≤ sampleModel.encoding.maxWeight ∧ sampleModel.encoding.maxWeight ≤ largest := by
  have hvars : 0 < sampleModel.variableCount := by decide
  obtain ⟨least, largest, hmin, hmax, hestimates⟩ :=
    minDifference_le_maxDifference sampleModel_configured hvars
  exact ⟨least, largest, hvars, hmin, hmax, hestimates⟩

end Model

end WeightedSat
