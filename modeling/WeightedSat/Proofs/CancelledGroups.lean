import Mathlib.Data.Multiset.Powerset
import WeightedSat.Proofs.Estimates

/-!
**What the remainders of a cancellation stand for.**

A remainder goes back among the weights and may meet other weights later, so a weight that is left
after some rounds stands for many clauses at once: it is the difference between the weights of a
group of clauses on its own side and those of a group on the other.  With integer weights no
difference is rounded, and the groups can be accounted for.  The invariant of the rounds is that the
groups of all weights that are left, on both sides together, use no clause twice.  A round joins the
groups of the two weights that meet, or drops those of one of them, so it is kept; and therefore the
smallest remainder is a difference that some choice of clauses of the variable really has.

Main definitions:

* `WeightedSat.groupUnits` — the weight of a group of clauses;
* `WeightedSat.Backed` — **the weights on one side, with the groups they stand for**;
* `WeightedSat.Bounds.Cancellation.Accounted` — the invariant of the rounds;
* `WeightedSat.IsSideDifference` — a difference between clauses of both sides of a variable.

Main results:

* `WeightedSat.Backed.remainder` — the remainder of two weights stands for their joint groups;
* `WeightedSat.Bounds.Cancellation.Accounted.swap` — the invariant does not prefer a side;
* `WeightedSat.Bounds.Cancellation.Step.accounted`, `WeightedSat.Bounds.Cancellation.Accounted.run`
  — **a round, and a run, use no clause twice**;
* `WeightedSat.isSideDifference_smallest` — the smallest change of one variable;
* `WeightedSat.Model.minDifference_isSideDifference` — **the smallest change of all is a difference
  of clause weights other than zero**.
-/

set_option relaxedAutoImplicit false
set_option autoImplicit false

namespace WeightedSat

open Binary64

/-! ### Groups of clauses -/

/-- The weight of a group of clauses, as an integer. -/
def groupUnits (group : Multiset Clause) : ℤ := (group.map Clause.units).sum

theorem groupUnits_add (g h : Multiset Clause) :
    groupUnits (g + h) = groupUnits g + groupUnits h := by
  rw [groupUnits, Multiset.map_add, Multiset.sum_add, groupUnits, groupUnits]

/-- A weight stands for its own clause. -/
theorem Clause.HasUnits.denotes_groupUnits {c : Clause} (h : c.HasUnits) :
    Denotes c.weight (groupUnits {c} - groupUnits 0 : ℤ) := by
  simpa [groupUnits] using h.denotes

/-- **Weights on one side, with what they stand for**: each is the difference between a group of
clauses of its own side and one of the other side.  All the groups of the one kind together make up
`own`, and all those of the other kind `other`. -/
inductive Backed : List Float → Multiset Clause → Multiset Clause → Prop
  /-- No weights stand for no clauses. -/
  | nil : Backed [] 0 0
  /-- A weight stands for clauses that no other weight stands for. -/
  | cons {w : Float} {ws : List Float} {g h own other : Multiset Clause}
      (hw : Denotes w (groupUnits g - groupUnits h : ℤ)) (hws : Backed ws own other) :
      Backed (w :: ws) (g + own) (h + other)

namespace Backed

variable {ws vs : List Float} {w : Float} {own other own' other' : Multiset Clause}

/-- The order of the weights does not matter. -/
theorem perm (h : Backed ws own other) (hperm : ws.Perm vs) : Backed vs own other := by
  induction hperm generalizing own other with
  | nil => exact h
  | cons x _ ih =>
      cases h with
      | cons hw hws => exact .cons hw (ih hws)
  | swap x y xs =>
      cases h with
      | @cons _ _ g k _ _ hy hrest =>
          cases hrest with
          | @cons _ _ g' k' _ _ hx hxs =>
              rw [add_left_comm g, add_left_comm k]
              exact .cons hx (.cons hy hxs)
  | trans _ _ ih ih' => exact ih' (ih h)

/-- A weight that is dropped frees its groups. -/
theorem tail (h : Backed (w :: ws) own other) :
    ∃ p q, p ≤ own ∧ q ≤ other ∧ Backed ws p q := by
  cases h with
  | cons hw hws => exact ⟨_, _, Multiset.le_add_left _ _, Multiset.le_add_left _ _, hws⟩

/-- At first every weight stands for its own clause. -/
theorem ofClauses {clauses : List Clause} (h : ∀ c ∈ clauses, c.HasUnits) :
    Backed (clauses.map (·.weight)) clauses 0 := by
  induction clauses with
  | nil => exact .nil
  | cons c cs ih =>
      have hrest := ih fun d hd => h d (List.mem_cons_of_mem c hd)
      have hcons := Backed.cons (h c List.mem_cons_self).denotes_groupUnits hrest
      rwa [zero_add, Multiset.singleton_add, Multiset.cons_coe] at hcons

/-- **A remainder stands for the joint groups** of the two weights that have met. -/
theorem remainder {x y : Float} {xs ys : List Float} (hx : Backed (x :: xs) own other)
    (hy : Backed (y :: ys) other' own') (hwx : IsWeight (2 ^ 53) x) (hwy : IsWeight (2 ^ 53) y)
    (h : value y < value x) :
    ∃ g k p q p' q', Denotes (x - y) (groupUnits g - groupUnits k : ℤ) ∧
      Backed (Weight.insertDescending (x - y) xs) (g + p) (k + q) ∧ Backed ys q' p' ∧
      g + p + p' = own + own' ∧ k + q + q' = other + other' := by
  cases hx with
  | @cons _ _ g k p q hx hxs =>
      cases hy with
      | @cons _ _ k' g' q' p' hy hys =>
          have hunits : groupUnits g - groupUnits k - (groupUnits k' - groupUnits g') =
              groupUnits (g + g') - groupUnits (k + k') := by
            rw [groupUnits_add, groupUnits_add]
            ring
          have hsub : Denotes (x - y) (groupUnits (g + g') - groupUnits (k + k') : ℤ) := by
            rw [← hunits]
            refine hx.subInt hy ?_
            -- both weights are positive, so their difference is no more than the greater one
            have hpos := hwy.pos
            have hle := hwx.le
            rw [hx.value_eq] at h hle
            rw [hy.value_eq] at h hpos
            norm_cast at h hle hpos
            rw [abs_le]
            omega
          refine ⟨g + g', k + k', p, q, p', q', hsub, ?_, hys, ?_, ?_⟩
          · exact (Backed.cons hsub hxs).perm (Weight.perm_insertDescending _ _).symm
          · abel
          · abel

end Backed

namespace Bounds

/-! ### Rounds -/

section Groups

variable {pos neg : Multiset Clause} {w : Float}

/-- A remainder that is the difference between groups out of given clauses. -/
def IsGroupDifference (pos neg : Multiset Clause) (w : Float) : Prop :=
  ∃ g ≤ pos, ∃ k ≤ neg, value w = |((groupUnits g - groupUnits k : ℤ) : ℚ)|

/-- A difference is the same from both sides. -/
theorem IsGroupDifference.symm (h : IsGroupDifference neg pos w) :
    IsGroupDifference pos neg w := by
  obtain ⟨g, hg, k, hk, hvalue⟩ := h
  refine ⟨k, hk, g, hg, ?_⟩
  rw [hvalue, Int.cast_sub, Int.cast_sub, abs_sub_comm]

theorem isGroupDifference_of_denotes {g k : Multiset Clause}
    (hw : Denotes w (groupUnits g - groupUnits k : ℤ)) (hpos : 0 < value w) (hg : g ≤ pos)
    (hk : k ≤ neg) : IsGroupDifference pos neg w := by
  refine ⟨g, hg, k, hk, ?_⟩
  rw [← hw.value_eq, abs_of_pos hpos]

end Groups

namespace Cancellation

variable {s t : Cancellation} {pos neg : Multiset Clause}

/-- **The invariant of the rounds**: what is left on both sides stands for groups of clauses that
use no clause twice, and the smallest remainder so far is a difference between such groups. -/
structure Accounted (pos neg : Multiset Clause) (t : Cancellation) : Prop where
  backed : ∃ p q p' q', Backed t.positive p q ∧ Backed t.negative q' p' ∧
    p + p' ≤ pos ∧ q + q' ≤ neg
  best : ∀ w ∈ t.best, IsGroupDifference pos neg w

/-- What is left, seen from the other side. -/
def swap (t : Cancellation) : Cancellation :=
  ⟨t.negative, t.positive, t.best⟩

namespace Accounted

variable {x y : Float} {xs ys : List Float} {best : Option Float}

/-- The invariant does not prefer a side. -/
theorem swap (h : t.Accounted pos neg) : t.swap.Accounted neg pos := by
  obtain ⟨⟨p, q, p', q', hp, hq, hpos, hneg⟩, hbest⟩ := h
  refine ⟨⟨q', p', q, p, hq, hp, ?_, ?_⟩, fun w hw => (hbest w hw).symm⟩
  · rwa [add_comm]
  · rwa [add_comm]

/-- Unequal weights meet: their groups are joined, and stand behind the remainder. -/
theorem remainder (hs : Accounted pos neg ⟨x :: xs, y :: ys, best⟩) (hx : IsWeight (2 ^ 53) x)
    (hy : IsWeight (2 ^ 53) y) (h : value y < value x) :
    Accounted pos neg ⟨Weight.insertDescending (x - y) xs, ys, improve best (x - y)⟩ := by
  obtain ⟨⟨p, q, p', q', hp, hq, hpos, hneg⟩, hbest⟩ := hs
  obtain ⟨g, k, p₁, q₁, p₂, q₂, hsub, hxs, hys, hown, hother⟩ := hp.remainder hq hx hy h
  have hg : g + p₁ + p₂ ≤ pos := hown.trans_le hpos
  have hk : k + q₁ + q₂ ≤ neg := hother.trans_le hneg
  refine ⟨⟨g + p₁, k + q₁, p₂, q₂, hxs, hys, hg, hk⟩, forall_mem_improve hbest ?_⟩
  rw [add_assoc] at hg hk
  exact isGroupDifference_of_denotes hsub (hx.sub hy h).pos
    ((Multiset.le_add_right _ _).trans hg) ((Multiset.le_add_right _ _).trans hk)

/-- Equal weights meet: the groups of the one that does not go back are free. -/
theorem keep (hs : Accounted pos neg ⟨x :: xs, y :: ys, best⟩) :
    Accounted pos neg ⟨Weight.insertDescending x xs, ys, best⟩ := by
  obtain ⟨⟨p, q, p', q', hp, hq, hpos, hneg⟩, hbest⟩ := hs
  obtain ⟨q₁, p₁, hq₁, hp₁, hys⟩ := hq.tail
  refine ⟨⟨p, q, p₁, q₁, hp.perm (Weight.perm_insertDescending _ _).symm, hys, ?_, ?_⟩, hbest⟩
  · exact (add_le_add_right hp₁ p).trans hpos
  · exact (add_le_add_right hq₁ q).trans hneg

end Accounted

/-- **A round uses no clause twice.** -/
theorem Step.accounted (h : Step s t) (hw : s.Within (2 ^ 53)) (hs : s.Accounted pos neg) :
    t.Accounted pos neg := by
  -- where the negative side gets a weight back, the round is seen from that side
  cases h with
  | toPositive h =>
      exact hs.remainder (hw.positive _ List.mem_cons_self) (hw.negative _ List.mem_cons_self) h
  | toNegative h =>
      have hx := hw.positive _ List.mem_cons_self
      have hy := hw.negative _ List.mem_cons_self
      exact (hs.swap.remainder hy hx h).swap
  | keepPositive => exact hs.keep
  | keepNegative => exact hs.swap.keep.swap

/-- **A run uses no clause twice.** -/
theorem Accounted.run (hs : s.Accounted pos neg) (hw : s.Within (2 ^ 53)) (h : Run s t) :
    t.Accounted pos neg := by
  induction h with
  | refl => exact hs
  | tail hrun hstep ih => exact hstep.accounted (hw.run hrun) ih

end Cancellation

/-- The weights of clauses, as two sides. -/
def Sides.ofClauses (pos neg : List Clause) : Sides :=
  ⟨pos.map (·.weight), neg.map (·.weight)⟩

theorem Sides.append_ofClauses (pos neg : List Clause) :
    (ofClauses pos neg).positive ++ (ofClauses pos neg).negative =
      (pos ++ neg).map (·.weight) :=
  List.map_append.symm

/-- **The smallest change is a difference between groups** of the clauses of both sides. -/
theorem Sides.isGroupDifference_smallest {pos neg : List Clause} (hne : pos ++ neg ≠ [])
    (hunits : ∀ c ∈ pos ++ neg, c.HasUnits)
    (hweight : ∀ c ∈ pos ++ neg, IsWeight (2 ^ 53) c.weight) :
    IsGroupDifference pos neg (ofClauses pos neg).smallest := by
  have hmap : (ofClauses pos neg).positive ++ (ofClauses pos neg).negative ≠ [] := by
    rw [append_ofClauses]
    exact mt List.map_eq_nil_iff.1 hne
  have hweights : ∀ w ∈ (ofClauses pos neg).positive ++ (ofClauses pos neg).negative,
      IsWeight (2 ^ 53) w := by
    rw [append_ofClauses, List.forall_mem_map]
    exact hweight
  have hone : ∀ c ∈ pos ++ neg, Denotes c.weight (groupUnits {c} - groupUnits 0 : ℤ) :=
    fun c hc => (hunits c hc).denotes_groupUnits
  rcases smallest_cases hmap hweights with hmem | ⟨t, hrun, -, hbest⟩
  · -- one weight is the difference between its clause and nothing
    rcases List.mem_append.1 hmem with hmem | hmem
    · obtain ⟨c, hc, hw⟩ := List.mem_map.1 hmem
      have hc' := List.mem_append_left neg hc
      rw [← hw]
      exact isGroupDifference_of_denotes (hone c hc') (hweight c hc').pos
        (Multiset.singleton_le.2 hc) (Multiset.zero_le _)
    · obtain ⟨c, hc, hw⟩ := List.mem_map.1 hmem
      have hc' := List.mem_append_right pos hc
      rw [← hw]
      exact (isGroupDifference_of_denotes (hone c hc') (hweight c hc').pos
        (Multiset.singleton_le.2 hc) (Multiset.zero_le _)).symm
  · obtain ⟨hpos, hneg⟩ := List.forall_mem_append.1 hunits
    have hstart : (ofClauses pos neg).start.Accounted pos neg := by
      refine ⟨⟨pos, 0, 0, neg, ?_, ?_, ?_, ?_⟩, by simp [start]⟩
      · exact (Backed.ofClauses hpos).perm (Weight.perm_descending _).symm
      · exact (Backed.ofClauses hneg).perm (Weight.perm_descending _).symm
      · rw [add_zero]
      · rw [zero_add]
    exact (hstart.run (within_start hweights) hrun).best _ hbest

end Bounds

/-! ### The differences of a variable -/

/-- The weight of clauses, as a number. -/
def totalWeight (clauses : List Clause) : ℚ :=
  (clauses.map fun c => Binary64.value c.weight).sum

/-- **A difference between the two sides of a variable**: between the weight of some clauses in
which the variable occurs as itself and that of some in which it is negated. -/
def IsSideDifference (active : List Clause) (name : Nat) (q : ℚ) : Prop :=
  ∃ gained lost : List Clause, gained.Sublist active ∧ lost.Sublist active ∧
    (∀ c ∈ gained, ⟨name, true⟩ ∈ c.literals) ∧ (∀ c ∈ lost, ⟨name, false⟩ ∈ c.literals) ∧
    q = |totalWeight gained - totalWeight lost|

/-- The clauses in which a variable has the given polarity. -/
def sideClauses (clauses : List Clause) (name : Nat) (positive : Bool) : List Clause :=
  clauses.filter fun c => c.polarities[name]? = some positive

theorem sideWeights_eq (clauses : List Clause) (name : Nat) (positive : Bool) :
    sideWeights clauses name positive =
      (sideClauses clauses name positive).map (·.weight) := by
  rw [sideWeights, sideClauses]
  induction clauses with
  | nil => rfl
  | cons c cs ih =>
      rw [List.filterMap_cons, List.filter_cons, Clause.sideWeight?]
      by_cases h : c.polarities[name]? = some positive
      · simpa [h] using ih
      · simpa [h] using ih

/-- A part of the clauses of a list is a sublist in some order. -/
theorem exists_sublist_of_le {group : Multiset Clause} {clauses : List Clause}
    (h : group ≤ clauses) :
    ∃ cs : List Clause, cs.Sublist clauses ∧ (cs : Multiset Clause) = group := by
  rw [← Multiset.mem_powerset, Multiset.powerset_coe] at h
  obtain ⟨cs, hcs, heq⟩ := List.mem_map.1 (Multiset.mem_coe.1 h)
  exact ⟨cs, List.mem_sublists.1 hcs, heq⟩

theorem groupUnits_coe {clauses : List Clause} (h : ∀ c ∈ clauses, c.HasUnits) :
    ((groupUnits clauses : ℤ) : ℚ) = totalWeight clauses := by
  rw [groupUnits, totalWeight, Multiset.map_coe, Multiset.sum_coe, Int.cast_list_sum, List.map_map]
  congr 1
  exact List.map_congr_left fun c hc => (h c hc).denotes.value_eq.symm

theorem isSideDifference_of_isGroupDifference {active : List Clause} {name : Nat} {w : Float}
    (htaut : ∀ c ∈ active, c.isTautology = false) (hunits : ∀ c ∈ active, c.HasUnits)
    (h : Bounds.IsGroupDifference (sideClauses active name true)
      (sideClauses active name false) w) :
    IsSideDifference active name (Binary64.value w) := by
  obtain ⟨g, hg, k, hk, hvalue⟩ := h
  obtain ⟨gained, hgained, rfl⟩ := exists_sublist_of_le hg
  obtain ⟨lost, hlost, rfl⟩ := exists_sublist_of_le hk
  have hside : ∀ positive, ∀ c ∈ sideClauses active name positive,
      c ∈ active ∧ ⟨name, positive⟩ ∈ c.literals := by
    intro positive c hc
    obtain ⟨hmem, hpolarity⟩ := List.mem_filter.1 hc
    exact ⟨hmem, (Clause.polarities_eq_some_iff (htaut c hmem)).1 (of_decide_eq_true hpolarity)⟩
  refine ⟨gained, lost, hgained.trans List.filter_sublist, hlost.trans List.filter_sublist,
    fun c hc => (hside true c (hgained.subset hc)).2,
    fun c hc => (hside false c (hlost.subset hc)).2, ?_⟩
  rw [hvalue, Int.cast_sub,
    groupUnits_coe fun c hc => hunits c (hside true c (hgained.subset hc)).1,
    groupUnits_coe fun c hc => hunits c (hside false c (hlost.subset hc)).1]

/-- **The smallest change of a variable** is a difference between its two sides. -/
theorem isSideDifference_smallest {active : List Clause}
    (htaut : ∀ c ∈ active, c.isTautology = false)
    (hunits : ∀ c ∈ active, c.HasUnits) (hweight : ∀ c ∈ active, IsWeight (2 ^ 53) c.weight)
    {name : Nat} (hname : name ∈ distinctNames active) :
    IsSideDifference active name (Binary64.value (sidesOf active name).smallest) := by
  have hsides : sidesOf active name = Bounds.Sides.ofClauses (sideClauses active name true)
      (sideClauses active name false) := by
    rw [sidesOf, sideWeights_eq, sideWeights_eq, Bounds.Sides.ofClauses]
  have hne := sidesOf_ne_nil hname
  have hactive : ∀ c ∈ sideClauses active name true ++ sideClauses active name false,
      c ∈ active := by
    intro c hc
    rcases List.mem_append.1 hc with hc | hc <;> exact List.mem_of_mem_filter hc
  rw [hsides, Bounds.Sides.append_ofClauses] at hne
  rw [hsides]
  exact isSideDifference_of_isGroupDifference htaut hunits
    (Bounds.Sides.isGroupDifference_smallest (mt List.map_eq_nil_iff.2 hne)
      (fun c hc => hunits c (hactive c hc)) fun c hc => hweight c (hactive c hc))

namespace Model

variable {m : Model} {clauses : List Clause}

/-- **The smallest change of all is a difference of clause weights other than zero**: with integer
weights up to `2 ^ 53` there are a variable, clauses in which it occurs as itself and clauses in
which it is negated, whose weights differ by exactly that much.  So it is no less than the least
difference of this kind. -/
theorem minDifference_isSideDifference (hm : m.Configured clauses) (hvars : 0 < m.variableCount)
    (hweights : ∀ w ∈ m.encoding.weights.toList.drop 1,
      ∃ n : ℤ, 1 ≤ n ∧ n ≤ 2 ^ 53 ∧ Binary64.value w = n) :
    ∃ least, m.minDifference = .ok least ∧ least.isFinite = true ∧ Binary64.value least ≠ 0 ∧
      (∃ i name : Nat, m.encoding.names[i]? = some name ∧
        IsSideDifference (Encoding.activeClauses clauses) name (Binary64.value least)) ∧
      ∀ bound, (∀ (i name : Nat) (q : ℚ), m.encoding.names[i]? = some name →
          IsSideDifference (Encoding.activeClauses clauses) name q → q ≠ 0 → bound ≤ q) →
        bound ≤ Binary64.value least := by
  have he := hm.encodes
  have hactive := hm.areWeighted
  have hunits : ∀ c ∈ Encoding.activeClauses clauses, c.HasUnits := fun c hc =>
    hm.hasUnits (fun w hw => (hweights w hw).imp fun n hn => hn.2.2) hc
  have hweight : ∀ c ∈ Encoding.activeClauses clauses, IsWeight (2 ^ 53) c.weight := by
    intro c hc
    rw [hm.drop_weights] at hweights
    obtain ⟨n, -, hle, hn⟩ := hweights c.weight (List.mem_map_of_mem hc)
    refine ⟨hactive.isFinite_eq c hc, hactive.pos c hc, ?_⟩
    rw [hn]
    exact_mod_cast hle
  obtain ⟨name, hname, hmin, hleast⟩ := he.exists_minDifference hvars hweight
  have hdifference := isSideDifference_smallest he.isTautology_eq hunits hweight hname
  obtain ⟨i, hi⟩ := List.mem_iff_getElem?.1 hname
  rw [← he.getElem?_names] at hi
  refine ⟨_, hmin, hleast.isFinite, hleast.pos.ne', ⟨i, name, hi, hdifference⟩, ?_⟩
  intro bound hbound
  exact hbound i name _ hi hdifference hleast.pos.ne'

/-- One variable: the weight five on one side meets three and one on the other. -/
def cancellingClauses : List Clause :=
  [⟨5.0, [⟨1, true⟩]⟩, ⟨3.0, [⟨1, false⟩]⟩, ⟨1.0, [⟨1, false⟩]⟩]

/-- What is left of five and three meets one, so the smallest change stands for all clauses. -/
theorem minDifference_isSideDifference_sample :
    ∃ (m : Model) (least : Float) (i name : Nat),
      (unconfigured .eight).configure cancellingClauses = .ok m ∧ 0 < m.variableCount ∧
      m.minDifference = .ok least ∧ Binary64.value least = 1 ∧
      m.encoding.names[i]? = some name ∧
      IsSideDifference cancellingClauses name (Binary64.value least) := by
  obtain ⟨m, hm⟩ : ∃ m, (unconfigured .eight).configure cancellingClauses = .ok m := ⟨_, rfl⟩
  have hactive : Encoding.activeClauses cancellingClauses = cancellingClauses := rfl
  have hconfigured := Configured.configure hm
  have hvars : 0 < m.variableCount := by
    rw [hconfigured.encodes.variableCount_eq, hactive]
    decide
  have hone : Binary64.value 1.0 = (1 : ℤ) := by
    rw [value_of_unpack (m := 2 ^ 52) (e := -52) (h := by decide) rfl]
    norm_num
  have hthree : Binary64.value 3.0 = (3 : ℤ) := by
    rw [value_of_unpack (m := 3 * 2 ^ 51) (e := -51) (h := by decide) rfl]
    norm_num
  have hfive : Binary64.value 5.0 = (5 : ℤ) := by
    rw [value_of_unpack (m := 5 * 2 ^ 50) (e := -50) (h := by decide) rfl]
    norm_num
  have hweights : ∀ w ∈ m.encoding.weights.toList.drop 1,
      ∃ n : ℤ, 1 ≤ n ∧ n ≤ 2 ^ 53 ∧ Binary64.value w = n := by
    rw [hconfigured.drop_weights, hactive, cancellingClauses]
    simp only [List.map_cons, List.map_nil, List.forall_mem_cons]
    exact ⟨⟨5, by norm_num, by norm_num, hfive⟩, ⟨3, by norm_num, by norm_num, hthree⟩,
      ⟨1, by norm_num, by norm_num, hone⟩, by simp⟩
  obtain ⟨least, hmin, -, -, ⟨i, name, hi, hdifference⟩, -⟩ :=
    minDifference_isSideDifference hconfigured hvars hweights
  have hleast : m.minDifference = .ok 1.0 := by
    cases hm
    rfl
  obtain rfl : 1.0 = least := Except.ok.inj (hleast.symm.trans hmin)
  rw [hactive] at hdifference
  exact ⟨m, 1.0, i, name, hm, hvars, hmin, by rw [hone, Int.cast_one], hi, hdifference⟩

end Model

end WeightedSat
