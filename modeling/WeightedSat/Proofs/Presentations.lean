import WeightedSat.Proofs.Contents
import WeightedSat.Proofs.Schedules

/-!
**The smallest change does not depend on how the clauses are presented.**

Clauses can be written in another order, with their literals in another order or repeated, and with
other names for the variables.  The cancellation then meets the same weights, but in another order,
and the variables are gone through in another order too.  Nothing of this can be seen in what comes
out: the weights of a side are sorted before they meet, in an order that tells every two of them
apart, and the smallest of many words that are told apart by their places is the same however they
are arranged.  So the smallest change is the same, bit for bit.

Main definitions:

* `WeightedSat.Content.rename` — what a clause says, under other names;
* `WeightedSat.Presents` — **clauses that differ from others in their presentation** and in names.

Main results:

* `WeightedSat.Weight.descending_eq_of_perm` — sorting makes the order of weights disappear;
* `WeightedSat.Bounds.Sides.smallest_eq_of_perm` — **the smallest change of a variable** depends
  only on which weights are on its sides;
* `WeightedSat.Presents.perm_names`, `WeightedSat.Presents.perm_sideWeights` — variables correspond,
  and meet the same weights;
* `WeightedSat.Model.minDifference_eq_of_presents` — **the smallest change of all**.
-/

set_option relaxedAutoImplicit false
set_option autoImplicit false

namespace WeightedSat

open Binary64

/-! ### Sorted weights -/

namespace Weight

/-- The place of a weight as a number: in the upper half without a minus sign, in the lower half
with one. -/
theorem toNat_rank (x : Float) :
    (rank x).toNat =
      if x.toBits.toNat < 2 ^ 63 then x.toBits.toNat + 2 ^ 63 else 2 ^ 64 - 1 - x.toBits.toNat := by
  have hlt : x.toBits < signBit ↔ x.toBits.toNat < 2 ^ 63 := UInt64.lt_iff_toNat_lt
  simp only [rank, hlt]
  split
  · rename_i hsmall
    rw [UInt64.toNat_add, Nat.mod_eq_of_lt]
    · rfl
    · change x.toBits.toNat + 2 ^ 63 < 2 ^ 64
      omega
  · exact UInt64.toNat_not _

/-- The places of the total order tell any two weights apart. -/
theorem rank_injective : Function.Injective rank := by
  intro x y h
  refine Float.toBits_inj.1 (UInt64.toNat_inj.1 ?_)
  have hx := x.toBits.toNat_lt
  have hy := y.toBits.toNat_lt
  have hnat := congrArg UInt64.toNat h
  rw [toNat_rank, toNat_rank] at hnat
  split at hnat <;> split at hnat <;> omega

theorem pairwise_insertDescending {x : Float} {ys : List Float}
    (h : ys.Pairwise fun y z => rank z ≤ rank y) :
    (insertDescending x ys).Pairwise fun y z => rank z ≤ rank y := by
  induction ys with
  | nil => exact List.pairwise_singleton _ _
  | cons y ys ih =>
      obtain ⟨hy, hys⟩ := List.pairwise_cons.1 h
      rw [insertDescending]
      split
      · rename_i hlt
        refine List.pairwise_cons.2 ⟨?_, ih hys⟩
        intro z hz
        rcases mem_insertDescending.1 hz with rfl | hz
        · exact UInt64.le_of_lt hlt
        · exact hy z hz
      · rename_i hnot
        have hle := UInt64.not_lt.1 hnot
        refine List.pairwise_cons.2 ⟨?_, h⟩
        intro z hz
        rcases List.mem_cons.1 hz with rfl | hz
        · exact hle
        · exact UInt64.le_trans (hy z hz) hle

theorem pairwise_descending (weights : List Float) :
    (descending weights).Pairwise fun y z => rank z ≤ rank y := by
  induction weights with
  | nil => exact .nil
  | cons w ws ih => exact pairwise_insertDescending ih

/-- **Sorting makes the order of weights disappear.** -/
theorem descending_eq_of_perm {ws vs : List Float} (h : ws.Perm vs) :
    descending ws = descending vs := by
  refine List.Perm.eq_of_pairwise ?_ (pairwise_descending ws) (pairwise_descending vs)
    ((perm_descending ws).trans (h.trans (perm_descending vs).symm))
  intro x y _ _ hxy hyx
  exact rank_injective (UInt64.le_antisymm hyx hxy)

end Weight

namespace Bounds

/-- **The smallest change of a variable** depends only on which weights are on its two sides. -/
theorem Sides.smallest_eq_of_perm {s t : Sides} {bound : ℚ}
    (hpositive : s.positive.Perm t.positive) (hnegative : s.negative.Perm t.negative)
    (hs : ∀ w ∈ s.positive ++ s.negative, IsWeight bound w) : s.smallest = t.smallest := by
  have hall := hpositive.append hnegative
  have ht : ∀ w ∈ t.positive ++ t.negative, IsWeight bound w := fun w hw =>
    hs w (hall.mem_iff.2 hw)
  have hfold : (s.positive ++ s.negative).foldl Weight.smaller Decimal.infinity =
      (t.positive ++ t.negative).foldl Weight.smaller Decimal.infinity :=
    choosesBy_smaller.foldl_eq_of_perm isUnsigned_infinity (fun w hw => (hs w hw).isUnsigned) hall
  by_cases hnil : s.positive = [] ∨ s.negative = []
  · have hnil' : t.positive = [] ∨ t.negative = [] :=
      hnil.imp (fun h => (h ▸ hpositive).symm.eq_nil) fun h => (h ▸ hnegative).symm.eq_nil
    rw [smallest_of_nil hnil fun w hw => (hs w hw).isFinite,
      smallest_of_nil hnil' fun w hw => (ht w hw).isFinite, hfold]
  · -- the weights meet in descending order, so the two cancellations are one and the same
    obtain ⟨hpos, hneg⟩ := not_or.1 hnil
    have hpos' : t.positive ≠ [] := mt (fun h => (h ▸ hpositive).eq_nil) hpos
    have hneg' : t.negative ≠ [] := mt (fun h => (h ▸ hnegative).eq_nil) hneg
    simp only [smallest, leastDifference?, List.isEmpty_iff, hpos, hneg, hpos', hneg', if_false,
      hfold, hpositive.length_eq, hnegative.length_eq, Weight.descending_eq_of_perm hpositive,
      Weight.descending_eq_of_perm hnegative]

end Bounds

/-! ### Other names -/

namespace Content

/-- What a clause says, under other names. -/
def rename (f : Nat → Nat) (k : Content) : Content :=
  ⟨k.weight, k.literals.image fun l => ⟨f l.name, l.positive⟩⟩

/-- The weight of a clause that says the name with the given polarity. -/
def sideWeight? (name : Nat) (positive : Bool) (k : Content) : Option Float :=
  if k.polarity? name = some positive then some k.weight else none

variable {k : Content} {f : Nat → Nat} {names : Set Nat}

theorem names_rename : (k.rename f).names = k.names.image f := by
  rw [names, names, rename, Finset.image_image, Finset.image_image]
  rfl

/-- Under names that stay apart, a literal is held exactly when it was held before. -/
theorem mem_literals_rename (hf : Set.InjOn f names) (hk : ↑k.names ⊆ names) {name : Nat}
    (hname : name ∈ names) {positive : Bool} :
    ⟨f name, positive⟩ ∈ (k.rename f).literals ↔ ⟨name, positive⟩ ∈ k.literals := by
  rw [rename, Finset.mem_image]
  constructor
  · rintro ⟨⟨other, positive'⟩, hl, heq⟩
    obtain ⟨hf', rfl⟩ := Literal.mk.inj heq
    have hother : other ∈ names := hk (mem_names.2 ⟨_, hl⟩)
    rwa [hf hother hname hf'] at hl
  · intro hl
    exact ⟨_, hl, rfl⟩

theorem isConsistent_rename (hf : Set.InjOn f names) (hk : ↑k.names ⊆ names) :
    (k.rename f).IsConsistent ↔ k.IsConsistent := by
  have hmem : ∀ l ∈ k.literals, ∀ positive,
      ⟨f l.name, positive⟩ ∈ (k.rename f).literals ↔ ⟨l.name, positive⟩ ∈ k.literals :=
    fun l hl _ => mem_literals_rename hf hk (hk (mem_names.2 ⟨l.positive, hl⟩))
  constructor
  · intro h l hl hneg
    exact h _ ((hmem l hl l.positive).2 hl) ((hmem l hl _).2 hneg)
  · intro h l' hl'
    obtain ⟨l, hl, rfl⟩ := Finset.mem_image.1 hl'
    exact mt (hmem l hl _).1 (h l hl)

theorem sideWeight?_rename (hf : Set.InjOn f names) (hk : ↑k.names ⊆ names) {name : Nat}
    (hname : name ∈ names) (positive : Bool) :
    (k.rename f).sideWeight? (f name) positive = k.sideWeight? name positive := by
  simp only [sideWeight?, polarity?, mem_literals_rename hf hk hname]
  rfl

end Content

/-- The weights on one side of a variable, from what the clauses say. -/
theorem sideWeights_activeClauses (clauses : List Clause) (name : Nat) (positive : Bool) :
    sideWeights (Encoding.activeClauses clauses) name positive =
      (activeContents clauses).filterMap (Content.sideWeight? name positive) := by
  rw [sideWeights, activeContents_eq, List.filterMap_map]
  refine List.filterMap_congr fun c hc => ?_
  rw [Clause.sideWeight?, Clause.polarities_eq_polarity? (Encoding.mem_activeClauses.1 hc).2]
  rfl

/-- What the active clauses say, out of what all clauses say. -/
theorem activeContents_eq_filter (clauses : List Clause) :
    activeContents clauses =
      (clauses.map Clause.content).filter fun k => decide k.IsConsistent := by
  rw [activeContents_eq, Encoding.activeClauses, List.filter_map]
  refine congrArg _ (List.filter_congr fun c _ => ?_)
  rw [Function.comp_apply, Bool.eq_iff_iff, decide_eq_true_iff, Clause.isConsistent_content_iff,
    Bool.not_eq_true']

/-! ### Presentations -/

/-- **Clauses that differ from others in their presentation**: under other names, which stay apart,
the ones say what the others say, in any order. -/
structure Presents (f : Nat → Nat) (clauses clauses' : List Clause) : Prop where
  injOn : Set.InjOn f {name | ∃ c ∈ clauses, name ∈ c.names}
  perm : (clauses'.map Clause.content).Perm (clauses.map fun c => c.content.rename f)

namespace Presents

variable {f : Nat → Nat} {clauses clauses' : List Clause}

theorem names_subset {k : Content} (hk : k ∈ clauses.map Clause.content) :
    (k.names : Set Nat) ⊆ {name | ∃ c ∈ clauses, name ∈ c.names} := by
  obtain ⟨c, hc, rfl⟩ := List.mem_map.1 hk
  intro name hname
  rw [Clause.names_content, Finset.mem_coe, List.mem_toFinset] at hname
  exact ⟨c, hc, hname⟩

theorem names_subset_of_active {k : Content} (hk : k ∈ activeContents clauses) :
    (k.names : Set Nat) ⊆ {name | ∃ c ∈ clauses, name ∈ c.names} := by
  rw [activeContents_eq_filter] at hk
  exact names_subset (List.mem_of_mem_filter hk)

/-- The active clauses say the same, under other names and in another order. -/
theorem perm_activeContents (h : Presents f clauses clauses') :
    (activeContents clauses').Perm ((activeContents clauses).map (Content.rename f)) := by
  have hrename : (clauses.map fun c => c.content.rename f) =
      (clauses.map Clause.content).map (Content.rename f) := by
    rw [List.map_map]
    rfl
  have hperm := h.perm.filter fun k => decide k.IsConsistent
  rw [← activeContents_eq_filter, hrename, List.filter_map] at hperm
  rw [activeContents_eq_filter clauses]
  refine hperm.trans (.of_eq (congrArg _ (List.filter_congr fun k hk => ?_)))
  rw [Function.comp_apply, decide_eq_decide]
  exact Content.isConsistent_rename h.injOn (names_subset hk)

/-- **The variables correspond.** -/
theorem perm_names (h : Presents f clauses clauses') :
    (distinctNames (Encoding.activeClauses clauses')).Perm
      ((distinctNames (Encoding.activeClauses clauses)).map f) := by
  have hoccurs : ∀ name ∈ distinctNames (Encoding.activeClauses clauses),
      ∃ c ∈ clauses, name ∈ c.names := by
    intro name hname
    obtain ⟨k, hk, hname⟩ := mem_distinctNames_activeClauses.1 hname
    exact names_subset_of_active hk hname
  have hnodup : ((distinctNames (Encoding.activeClauses clauses)).map f).Nodup :=
    (nodup_distinctNames _).map_on fun name hname other hother =>
      h.injOn (hoccurs name hname) (hoccurs other hother)
  rw [List.perm_ext_iff_of_nodup (nodup_distinctNames _) hnodup]
  intro name
  simp only [mem_distinctNames_activeClauses, h.perm_activeContents.mem_iff, List.mem_map,
    exists_exists_and_eq_and, Content.names_rename, Finset.mem_image]
  constructor
  · rintro ⟨k, hk, old, hold, rfl⟩
    exact ⟨old, ⟨k, hk, hold⟩, rfl⟩
  · rintro ⟨old, ⟨k, hk, hold⟩, rfl⟩
    exact ⟨k, hk, old, hold, rfl⟩

/-- **Variables that correspond meet the same weights**, in another order. -/
theorem perm_sideWeights (h : Presents f clauses clauses') {name : Nat}
    (hname : name ∈ distinctNames (Encoding.activeClauses clauses)) (positive : Bool) :
    (sideWeights (Encoding.activeClauses clauses') (f name) positive).Perm
      (sideWeights (Encoding.activeClauses clauses) name positive) := by
  obtain ⟨k, hk, hmem⟩ := mem_distinctNames_activeClauses.1 hname
  have hoccurs := names_subset_of_active hk hmem
  rw [sideWeights_activeClauses, sideWeights_activeClauses]
  refine (h.perm_activeContents.filterMap _).trans (.of_eq ?_)
  rw [List.filterMap_map]
  refine List.filterMap_congr fun k hk => ?_
  exact Content.sideWeight?_rename h.injOn (names_subset_of_active hk) hoccurs positive

end Presents

namespace Model

variable {m m' : Model} {f : Nat → Nat} {clauses clauses' : List Clause}

/-- **The smallest change does not depend on how the clauses are presented.**  Two models whose
clauses differ only in their order, in the order and repetition of literals and in the names of the
variables have the same smallest change, bit for bit. -/
theorem minDifference_eq_of_presents (hm : m.Configured clauses) (hm' : m'.Configured clauses')
    (h : Presents f clauses clauses') :
    ∃ least, m.minDifference = .ok least ∧ m'.minDifference = .ok least := by
  have hactive := hm.areWeighted
  have hsmallest : ∀ name ∈ distinctNames (Encoding.activeClauses clauses),
      IsWeight limit (sidesOf (Encoding.activeClauses clauses) name).smallest :=
    fun _ hname => isWeight_smallest_sidesOf (fun _ hc _ => hactive.isWeight hc) hname
  have hsame : ∀ name ∈ distinctNames (Encoding.activeClauses clauses),
      (sidesOf (Encoding.activeClauses clauses') (f name)).smallest =
        (sidesOf (Encoding.activeClauses clauses) name).smallest := by
    intro name hname
    exact (Bounds.Sides.smallest_eq_of_perm (h.perm_sideWeights hname true).symm
      (h.perm_sideWeights hname false).symm
      fun _ => isWeight_of_mem_sidesOf fun _ hc _ => hactive.isWeight hc).symm
  have hperm : ((distinctNames (Encoding.activeClauses clauses)).map fun name =>
        (sidesOf (Encoding.activeClauses clauses) name).smallest).Perm
      ((distinctNames (Encoding.activeClauses clauses')).map fun name =>
        (sidesOf (Encoding.activeClauses clauses') name).smallest) := by
    refine (List.Perm.of_eq ?_).trans (h.perm_names.map _).symm
    rw [List.map_map]
    exact List.map_congr_left fun name hname => (hsame name hname).symm
  have hleast := choosesBy_smaller.foldl_eq_of_perm isUnsigned_infinity
    (List.forall_mem_map.2 fun name hname => (hsmallest name hname).isUnsigned) hperm
  refine ⟨_, hm.encodes.minDifference_eq, ?_⟩
  rw [hm'.encodes.minDifference_eq, hleast]

/-- The three clauses of the sample, from the last to the first, with their literals in another
order and repeated, and with every name taken from ten. -/
def renamedClauses : List Clause :=
  [⟨3.0, [⟨7, true⟩, ⟨9, false⟩]⟩, ⟨2.0, [⟨6, false⟩, ⟨6, true⟩]⟩,
    ⟨1.0, [⟨8, false⟩, ⟨9, true⟩, ⟨8, false⟩]⟩]

theorem presents_renamedClauses : Presents (10 - ·) sampleClauses renamedClauses := by
  constructor
  · have hnames : ∀ c ∈ sampleClauses, ∀ name ∈ c.names, name ≤ 4 := by decide
    rintro name ⟨c, hc, hname⟩ other ⟨d, hd, hother⟩ heq
    have hle := hnames c hc name hname
    have hle' := hnames d hd other hother
    simp only at heq
    omega
  · have hliterals : renamedClauses.map (·.content.literals) =
        sampleClauses.reverse.map fun c => (c.content.rename (10 - ·)).literals := by decide
    have hcontents : renamedClauses.map Clause.content =
        (sampleClauses.map fun c => c.content.rename (10 - ·)).reverse :=
      congrArg (List.zipWith Content.mk [3.0, 2.0, 1.0]) hliterals
    rw [hcontents]
    exact List.reverse_perm _

/-- The three clauses of the sample in another presentation have the same smallest change. -/
theorem minDifference_eq_of_presents_sample :
    ∃ (m' : Model) (least : Float), (unconfigured .eight).configure renamedClauses = .ok m' ∧
      Presents (10 - ·) sampleClauses renamedClauses ∧
      sampleModel.minDifference = .ok least ∧ m'.minDifference = .ok least := by
  obtain ⟨m', hm'⟩ : ∃ m', (unconfigured .eight).configure renamedClauses = .ok m' := ⟨_, rfl⟩
  obtain ⟨least, hleast, hleast'⟩ := minDifference_eq_of_presents sampleModel_configured
    (.configure hm') presents_renamedClauses
  exact ⟨m', least, hm', presents_renamedClauses, hleast, hleast'⟩

end Model

end WeightedSat
