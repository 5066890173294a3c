import WeightedSat.Proofs.Binary64.Unsigned
import WeightedSat.Proofs.Estimates

/-!
**The two estimates, worked out in parallel.**

The estimates go through all variables, compute a number for each and keep the largest or the
smallest.  This can be shared out: the variables are split into contiguous pieces, every piece is
gone through on its own, and what comes out of neighbouring pieces is put together, in any shape of
binary tree.  Adding numbers in this way would be rounded differently each time; choosing between
them is not, because the numbers that occur are none of them negative zero and all of them numbers
or infinities.  So the estimates come out bit for bit as if one worker had gone through all
variables from the first to the last.

Main definitions:

* `WeightedSat.Schedule` — **a way to split the work**;
* `WeightedSat.Schedule.reduce` — what the workers make of it;
* `WeightedSat.IsMonoidOn` — an operation that may be grouped at will, on some of its values;
* `WeightedSat.Bounds.maxDifferenceBy`, `WeightedSat.Bounds.minDifferenceBy` — the estimates by a
  schedule.

Main results:

* `WeightedSat.Schedule.reduce_eq_ok` — **an operation that may be grouped at will** gives what one
  worker gets;
* `WeightedSat.Model.differencesBy_eq` — **the estimates do not depend on the schedule**.
-/

set_option relaxedAutoImplicit false
set_option autoImplicit false

namespace WeightedSat

open Binary64

variable {α β : Type}

/-! ### Schedules -/

/-- **A way to split the work** on a list: into contiguous pieces, whose results are put together
two at a time. -/
inductive Schedule (α : Type) where
  /-- A piece that one worker goes through; a seeded one starts from the identity, any other from
  its first item. -/
  | piece (seeded : Bool) (items : List α)
  /-- Two parts, the one behind the other. -/
  | join (left right : Schedule α)

namespace Schedule

/-- The items of all pieces, in order. -/
def items : Schedule α → List α
  | piece _ items => items
  | join left right => left.items ++ right.items

/-- What a worker makes of the values of a piece; nothing gives the identity. -/
def fold (combine : β → β → β) (identity : β) (seeded : Bool) : List β → β
  | [] => identity
  | v :: vs => vs.foldl combine (if seeded then combine identity v else v)

/-- **What the workers make of a list**: a value is computed for every item, the values of each
piece are combined, and then the results of neighbours. -/
def reduce (combine : β → β → β) (identity : β) (f : α → Except Fault β) :
    Schedule α → Except Fault β
  | piece seeded items => do return fold combine identity seeded (← items.mapM f)
  | join left right => do
      let x ← left.reduce combine identity f
      let y ← right.reduce combine identity f
      return combine x y

end Schedule

/-! ### Grouping at will -/

/-- **An operation that may be grouped at will**, on the values that have a given property. -/
structure IsMonoidOn (P : β → Prop) (combine : β → β → β) (identity : β) : Prop where
  of_identity : P identity
  closed : ∀ {x y}, P x → P y → P (combine x y)
  assoc : ∀ {x y z}, P x → P y → P z → combine (combine x y) z = combine x (combine y z)
  identity_left : ∀ {x}, P x → combine identity x = x
  identity_right : ∀ {x}, P x → combine x identity = x

namespace IsMonoidOn

variable {P : β → Prop} {combine : β → β → β} {identity x y : β}

theorem foldl (h : IsMonoidOn P combine identity) {vs : List β} (hvs : ∀ v ∈ vs, P v) (hx : P x) :
    P (vs.foldl combine x) := by
  induction vs generalizing x with
  | nil => exact hx
  | cons v vs ih =>
      obtain ⟨hv, hrest⟩ := List.forall_mem_cons.1 hvs
      exact ih hrest (h.closed hx hv)

/-- What stands in front of all values can be combined with the result. -/
theorem combine_foldl (h : IsMonoidOn P combine identity) {vs : List β} (hvs : ∀ v ∈ vs, P v)
    (hx : P x) (hy : P y) :
    combine x (vs.foldl combine y) = vs.foldl combine (combine x y) := by
  induction vs generalizing y with
  | nil => rfl
  | cons v vs ih =>
      obtain ⟨hv, hrest⟩ := List.forall_mem_cons.1 hvs
      rw [List.foldl_cons, List.foldl_cons, h.assoc hx hy hv]
      exact ih hrest (h.closed hy hv)

/-- A piece gives the same whether it is seeded or not. -/
theorem fold_eq (h : IsMonoidOn P combine identity) (seeded : Bool) {vs : List β}
    (hvs : ∀ v ∈ vs, P v) :
    Schedule.fold combine identity seeded vs = vs.foldl combine identity := by
  cases vs with
  | nil => rfl
  | cons v vs =>
      rw [Schedule.fold, List.foldl_cons, h.identity_left (hvs v List.mem_cons_self), ite_self]

end IsMonoidOn

/-- A value for each item, where there is one for every item. -/
theorem exists_mapM_eq_ok {P : β → Prop} {f : α → Except Fault β} {items : List α}
    (hf : ∀ a ∈ items, ∃ v, f a = .ok v ∧ P v) :
    ∃ vs, items.mapM f = .ok vs ∧ ∀ v ∈ vs, P v := by
  induction items with
  | nil => exact ⟨[], rfl, by simp⟩
  | cons a items ih =>
      obtain ⟨⟨v, hv, hvP⟩, hrest⟩ := List.forall_mem_cons.1 hf
      obtain ⟨vs, hvs, hvsP⟩ := ih hrest
      refine ⟨v :: vs, ?_, List.forall_mem_cons.2 ⟨hvP, hvsP⟩⟩
      rw [List.mapM_cons, hv, hvs]
      rfl

/-- **Workers who group at will get what one worker gets**, who goes through all items from the
identity on. -/
theorem Schedule.reduce_eq_ok {P : β → Prop} {combine : β → β → β} {identity : β}
    (h : IsMonoidOn P combine identity) {f : α → Except Fault β} (t : Schedule α)
    (hf : ∀ a ∈ t.items, ∃ v, f a = .ok v ∧ P v) :
    ∃ vs, t.items.mapM f = .ok vs ∧ (∀ v ∈ vs, P v) ∧
      t.reduce combine identity f = .ok (vs.foldl combine identity) := by
  induction t with
  | piece seeded work =>
      obtain ⟨vs, hvs, hvsP⟩ := exists_mapM_eq_ok hf
      refine ⟨vs, hvs, hvsP, ?_⟩
      change work.mapM f = .ok vs at hvs
      rw [reduce, hvs, ← h.fold_eq seeded hvsP]
      rfl
  | join left right ihleft ihright =>
      obtain ⟨hleft, hright⟩ := List.forall_mem_append.1 hf
      obtain ⟨vs, hvs, hvsP, hx⟩ := ihleft hleft
      obtain ⟨ws, hws, hwsP, hy⟩ := ihright hright
      have hxP := h.foldl hvsP h.of_identity
      refine ⟨vs ++ ws, ?_, List.forall_mem_append.2 ⟨hvsP, hwsP⟩, ?_⟩
      · rw [items, List.mapM_append, hvs, hws]
        rfl
      · rw [reduce, hx, hy, List.foldl_append]
        refine congrArg Except.ok ?_
        rw [h.combine_foldl hwsP hxP h.of_identity, h.identity_right hxP]

/-! ### The estimates by a schedule -/

namespace Bounds

/-- The largest change of price that a flip can cause, by a schedule for the variables. -/
def maxDifferenceBy (t : Schedule (List Occurrence)) (weights : Array Float) :
    Except Fault Float :=
  t.reduce Weight.larger 0.0 fun occurrences => do return (← sides weights occurrences).largest

/-- The smallest change of price that a flip is expected to cause, by a schedule for the variables.
-/
def minDifferenceBy (t : Schedule (List Occurrence)) (weights : Array Float) :
    Except Fault Float := do
  let least ← t.reduce Weight.smaller Decimal.infinity fun occurrences => do
    return (← sides weights occurrences).smallest
  return if least.isFinite then least else 0.0

end Bounds

theorem isMonoidOn_larger : IsMonoidOn IsUnsigned Weight.larger 0.0 where
  of_identity := isUnsigned_zero
  closed := choosesBy_larger.isUnsigned
  assoc := choosesBy_larger.assoc
  identity_left hx := hx.larger_zero.2
  identity_right hx := hx.larger_zero.1

theorem isMonoidOn_smaller : IsMonoidOn IsUnsigned Weight.smaller Decimal.infinity where
  of_identity := isUnsigned_infinity
  closed := choosesBy_smaller.isUnsigned
  assoc := choosesBy_smaller.assoc
  identity_left hx := hx.smaller_infinity.2
  identity_right hx := hx.smaller_infinity.1

/-- The largest change of a variable is no negative zero, and not without a place. -/
theorem isUnsigned_largest {active : List Clause} (hactive : AreWeighted active) (name : Nat) :
    IsUnsigned (sidesOf active name).largest := by
  have hside : ∀ positive, IsUnsigned (Weight.total (sideWeights active name positive)) := by
    intro positive
    refine isUnsigned_total fun w hw => ?_
    obtain ⟨c, hc, -, rfl⟩ := mem_sideWeights.1 hw
    exact ⟨hactive.isFinite_eq c hc, hactive.pos c hc⟩
  exact choosesBy_larger.isUnsigned (hside true) (hside false)

namespace Model

variable {m : Model} {active clauses : List Clause}

/-- What is computed for each variable, as the workers meet them. -/
theorem Encodes.exists_of_mem_affected (he : m.Encodes active) {P : Float → Prop}
    {g : Bounds.Sides → Float} (hg : ∀ name ∈ distinctNames active, P (g (sidesOf active name))) :
    ∀ occurrences ∈ m.encoding.affected.toList,
      ∃ v, (do return g (← Bounds.sides m.encoding.weights occurrences)) = Except.ok v ∧ P v := by
  rw [he.affected_eq]
  intro occurrences h
  obtain ⟨name, hname, rfl⟩ := List.mem_map.1 h
  exact ⟨_, by rw [he.sides_eq_ok name]; rfl, hg name hname⟩

/-- **The estimates do not depend on the schedule.**  However the variables of a configured model
are split, the two estimates succeed, and come out bit for bit as if one worker had gone through all
variables. -/
theorem differencesBy_eq (hm : m.Configured clauses) :
    ∃ largest least, m.maxDifference = .ok largest ∧ m.minDifference = .ok least ∧
      ∀ t : Schedule (List Occurrence), t.items = m.encoding.affected.toList →
        Bounds.maxDifferenceBy t m.encoding.weights = .ok largest ∧
          Bounds.minDifferenceBy t m.encoding.weights = .ok least := by
  have he := hm.encodes
  have hactive := hm.areWeighted
  have hlargest := he.exists_of_mem_affected fun name _ => isUnsigned_largest hactive name
  have hsmallest := he.exists_of_mem_affected fun name hname =>
    (isWeight_smallest_sidesOf (fun _ hc _ => hactive.isWeight hc) hname).isUnsigned
  -- one worker is the schedule of a single piece
  obtain ⟨vs, hvs, -⟩ := exists_mapM_eq_ok hlargest
  obtain ⟨ws, hws, -⟩ := exists_mapM_eq_ok hsmallest
  refine ⟨_, _, by rw [maxDifference, Bounds.maxDifference, hvs]; rfl,
    by rw [minDifference, Bounds.minDifference, hws]; rfl, ?_⟩
  intro t ht
  rw [← ht] at hlargest hsmallest hvs hws
  obtain ⟨vs', hvs', -, hmax⟩ := t.reduce_eq_ok isMonoidOn_larger hlargest
  obtain ⟨ws', hws', -, hmin⟩ := t.reduce_eq_ok isMonoidOn_smaller hsmallest
  obtain rfl := Except.ok.inj (hvs.symm.trans hvs')
  obtain rfl := Except.ok.inj (hws.symm.trans hws')
  refine ⟨hmax, ?_⟩
  rw [Bounds.minDifferenceBy, hmin]
  rfl

/-- Three workers for three variables: one of them has a variable to start from, one has none at
all. -/
theorem differencesBy_eq_sample :
    ∃ (t : Schedule (List Occurrence)) (largest least : Float),
      t.items = sampleModel.encoding.affected.toList ∧
      sampleModel.maxDifference = .ok largest ∧ sampleModel.minDifference = .ok least ∧
      Bounds.maxDifferenceBy t sampleModel.encoding.weights = .ok largest ∧
      Bounds.minDifferenceBy t sampleModel.encoding.weights = .ok least := by
  obtain ⟨largest, least, hmax, hmin, hschedules⟩ := differencesBy_eq sampleModel_configured
  have hitems : (Schedule.join (.piece false (sampleModel.encoding.affected.toList.take 1))
      (.join (.piece true []) (.piece true (sampleModel.encoding.affected.toList.drop 1)))).items =
        sampleModel.encoding.affected.toList := rfl
  obtain ⟨hmax', hmin'⟩ := hschedules _ hitems
  exact ⟨_, largest, least, hitems, hmax, hmin, hmax', hmin'⟩

end Model

end WeightedSat
