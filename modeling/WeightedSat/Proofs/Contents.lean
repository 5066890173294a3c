import Mathlib.Data.List.Sort
import WeightedSat.Proofs.Names

/-!
**What clauses say, however they are written.**

The order of the literals of a clause does not matter, nor does it matter how often one of them is
repeated: what a clause says is its weight and the set of its literals.  A clause that holds a
literal beside its negation says nothing.  This module reads the tables of an encoding off what the
clauses say: the weights, the recorded polarities and the widths of the active clauses are functions
of it, one clause at a time, and so are the names.  Two lists of clauses that say the same thus have
the same tables, whatever clauses that say nothing stand between the others; only their names are
kept, as free ones.

Main definitions:

* `WeightedSat.Content`, `WeightedSat.Clause.content` — **what a clause says**;
* `WeightedSat.Content.IsConsistent` — no literal stands beside its negation;
* `WeightedSat.activeContents` — what the clauses of a list say, apart from those that say nothing;
* `WeightedSat.idleNames` — the names in the clauses that say nothing.

Main results:

* `WeightedSat.map_activeClauses` — what depends on one clause alone, for all active clauses;
* `WeightedSat.Clause.polarities_eq_polarity?` — the recorded polarities;
* `WeightedSat.Encoding.ofActive_eq_of_activeContents_eq` — **clauses that say the same have the
  same tables**;
* `WeightedSat.Encoding.build_eq_of_activeContents_eq` — **the encoding depends only on sets of
  literals, and on clauses that say nothing only through their names**.
-/

set_option relaxedAutoImplicit false
set_option autoImplicit false

namespace WeightedSat

/-! ### What a clause says -/

/-- **What a clause says**: its weight, and which literals it holds. -/
structure Content where
  /-- The price of leaving the clause unsatisfied. -/
  weight : Float
  /-- The literals, without order or repetition. -/
  literals : Finset Literal
deriving DecidableEq

namespace Content

/-- No literal stands beside its negation. -/
def IsConsistent (k : Content) : Prop :=
  ∀ l ∈ k.literals, l.negate ∉ k.literals

instance : DecidablePred IsConsistent := fun k =>
  inferInstanceAs (Decidable (∀ l ∈ k.literals, l.negate ∉ k.literals))

/-- The names of the literals. -/
def names (k : Content) : Finset Nat :=
  k.literals.image (·.name)

/-- The polarity with which a name is held. -/
def polarity? (k : Content) (name : Nat) : Option Bool :=
  if ⟨name, true⟩ ∈ k.literals then some true
  else if ⟨name, false⟩ ∈ k.literals then some false
  else none

theorem mem_names {k : Content} {name : Nat} :
    name ∈ k.names ↔ ∃ positive, ⟨name, positive⟩ ∈ k.literals := by
  rw [names, Finset.mem_image]
  constructor
  · rintro ⟨l, hl, rfl⟩
    exact ⟨l.positive, hl⟩
  · rintro ⟨positive, h⟩
    exact ⟨_, h, rfl⟩

/-- Where no literal stands beside its negation, a name is held with one polarity. -/
theorem polarity?_eq_some_iff {k : Content} (hk : k.IsConsistent) {name : Nat} {positive : Bool} :
    k.polarity? name = some positive ↔ ⟨name, positive⟩ ∈ k.literals := by
  rw [polarity?]
  by_cases htrue : ⟨name, true⟩ ∈ k.literals
  · have hfalse : ⟨name, false⟩ ∉ k.literals := hk _ htrue
    rw [if_pos htrue]
    cases positive <;> simp [htrue, hfalse]
  · rw [if_neg htrue]
    cases positive <;> simp [htrue]

end Content

namespace Clause

/-- What the clause says. -/
def content (c : Clause) : Content :=
  ⟨c.weight, c.literals.toFinset⟩

variable {c : Clause}

theorem mem_literals_content {l : Literal} : l ∈ c.content.literals ↔ l ∈ c.literals :=
  List.mem_toFinset

/-- Clauses say the same when they have the same weight and hold the same literals. -/
theorem content_eq_iff {d : Clause} :
    c.content = d.content ↔ c.weight = d.weight ∧ ∀ l, l ∈ c.literals ↔ l ∈ d.literals := by
  rw [content, content, Content.mk.injEq, Finset.ext_iff]
  simp only [List.mem_toFinset]

theorem isConsistent_content_iff : c.content.IsConsistent ↔ c.isTautology = false := by
  rw [← Bool.not_eq_true, isTautology_eq_true_iff]
  simp only [Content.IsConsistent, mem_literals_content]
  push Not
  rfl

theorem names_content : c.content.names = c.names.toFinset := by
  ext name
  simp only [Content.mem_names, mem_literals_content, List.mem_toFinset, mem_names]

/-- **The recorded polarities** are those of what the clause says. -/
theorem polarities_eq_polarity? (hc : c.isTautology = false) (name : Nat) :
    c.polarities[name]? = c.content.polarity? name := by
  refine Option.ext fun positive => ?_
  rw [polarities_eq_some_iff hc,
    Content.polarity?_eq_some_iff (isConsistent_content_iff.2 hc), mem_literals_content]

end Clause

/-! ### What the clauses of a list say -/

/-- **What the clauses of a list say**, in their order: those that hold a literal beside its
negation are left out. -/
def activeContents (clauses : List Clause) : List Content :=
  (clauses.filter fun c => ∀ l ∈ c.literals, l.negate ∉ c.literals).map Clause.content

/-- The names in the clauses that hold a literal beside its negation. -/
def idleNames (clauses : List Clause) : Finset Nat :=
  ((clauses.filter fun c => ∃ l ∈ c.literals, l.negate ∈ c.literals).flatMap Clause.names).toFinset

theorem activeContents_eq (clauses : List Clause) :
    activeContents clauses = (Encoding.activeClauses clauses).map Clause.content := by
  rw [activeContents, Encoding.activeClauses_eq]

theorem mem_idleNames {clauses : List Clause} {name : Nat} :
    name ∈ idleNames clauses ↔ ∃ c ∈ clauses, c.isTautology = true ∧ name ∈ c.names := by
  simp only [idleNames, List.mem_toFinset, List.mem_flatMap, List.mem_filter, decide_eq_true_iff,
    and_assoc, Clause.isTautology_eq_true_iff]

/-- **What depends on one clause alone**, for all active clauses: it is enough to know it as a
function of what a clause says. -/
theorem map_activeClauses {β : Type} {g : Clause → β} {f : Content → β}
    (h : ∀ c, c.isTautology = false → g c = f c.content) (clauses : List Clause) :
    (Encoding.activeClauses clauses).map g = (activeContents clauses).map f := by
  rw [activeContents_eq, List.map_map]
  exact List.map_congr_left fun c hc => h c (Encoding.mem_activeClauses.1 hc).2

theorem mem_distinctNames_activeClauses {clauses : List Clause} {name : Nat} :
    name ∈ distinctNames (Encoding.activeClauses clauses) ↔
      ∃ k ∈ activeContents clauses, name ∈ k.names := by
  rw [mem_distinctNames, activeContents_eq]
  constructor
  · rintro ⟨c, hc, hname⟩
    refine ⟨c.content, List.mem_map_of_mem hc, ?_⟩
    rwa [Clause.names_content, List.mem_toFinset]
  · rintro ⟨k, hk, hname⟩
    obtain ⟨c, hc, rfl⟩ := List.mem_map.1 hk
    rw [Clause.names_content, List.mem_toFinset] at hname
    exact ⟨c, hc, hname⟩

/-- The occurrences of a name, from the polarities that the clauses record under it. -/
theorem occurrencesFrom_eq (first : Nat) (clauses : List Clause) (name : Nat) :
    occurrencesFrom first clauses name =
      ((clauses.map (·.polarities[name]?)).zipIdx first).filterMap
        fun (positive?, number) => positive?.map (⟨number, ·⟩) := by
  rw [occurrencesFrom, List.zipIdx_map, List.filterMap_map]
  rfl

namespace Encoding

variable {clauses clauses' : List Clause}

/-- **Clauses that say the same have the same tables.** -/
theorem ofActive_eq_of_activeContents_eq (h : activeContents clauses = activeContents clauses')
    (freeNames : List Nat) :
    ofActive (activeClauses clauses) freeNames = ofActive (activeClauses clauses') freeNames := by
  have hmap : ∀ {β : Type} {g : Clause → β} {f : Content → β},
      (∀ c, c.isTautology = false → g c = f c.content) →
        (activeClauses clauses).map g = (activeClauses clauses').map g := by
    intro β g f hg
    rw [map_activeClauses hg, map_activeClauses hg, h]
  have hnames : distinctNames (activeClauses clauses) = distinctNames (activeClauses clauses') := by
    refine (pairwise_distinctNames _).eq_of_mem_iff (pairwise_distinctNames _) ?_
    intro name
    rw [mem_distinctNames_activeClauses, mem_distinctNames_activeClauses, h]
  have hweights : (activeClauses clauses).map (·.weight) =
      (activeClauses clauses').map (·.weight) :=
    hmap (f := Content.weight) fun _ _ => rfl
  have hwidths : (activeClauses clauses).map (·.width) = (activeClauses clauses').map (·.width) :=
    hmap (f := fun k => k.names.card) fun c _ => by rw [Clause.width_eq_card, Clause.names_content]
  have hoccurrences : occurrencesFrom 1 (activeClauses clauses) =
      occurrencesFrom 1 (activeClauses clauses') := by
    funext name
    rw [occurrencesFrom_eq, occurrencesFrom_eq,
      hmap (f := fun k => k.polarity? name) fun c hc => Clause.polarities_eq_polarity? hc name]
  have haffected := affected_ofActive (activeClauses clauses) freeNames
  rw [hnames, hoccurrences, ← affected_ofActive (activeClauses clauses') freeNames] at haffected
  simp only [ofActive, hnames, hweights, hwidths] at haffected ⊢
  rw [haffected]

/-- The free names are the idle ones that no active clause holds. -/
theorem mem_freeNamesOf_iff_idleNames {name : Nat} :
    name ∈ freeNamesOf clauses ↔
      name ∈ idleNames clauses ∧ name ∉ distinctNames (activeClauses clauses) := by
  rw [mem_freeNamesOf, mem_idleNames, mem_distinctNames]
  refine and_congr_left fun hnot => ?_
  constructor
  · rintro ⟨c, hc, hname⟩
    refine ⟨c, hc, ?_, hname⟩
    by_contra htaut
    refine hnot (mem_distinctNames.2 ⟨c, mem_activeClauses.2 ⟨hc, ?_⟩, hname⟩)
    exact Bool.eq_false_iff.2 htaut
  · rintro ⟨c, hc, -, hname⟩
    exact ⟨c, hc, hname⟩

/-- **The encoding depends only on sets of literals.**  Two lists of clauses that are encoded and
say the same, in the same order, have the same tables; if the clauses that say nothing hold the same
names on both sides, the free names are the same too. -/
theorem build_eq_of_activeContents_eq {e e' : Encoding} (hbuild : build clauses = .ok e)
    (hbuild' : build clauses' = .ok e') (h : activeContents clauses = activeContents clauses') :
    e.weights = e'.weights ∧ e.affected = e'.affected ∧ e.names = e'.names ∧
      e.maxWeight = e'.maxWeight ∧ e.maxWidth = e'.maxWidth ∧
      (idleNames clauses = idleNames clauses' → e.freeNames = e'.freeNames) := by
  obtain ⟨-, -, rfl⟩ := build_eq_ok_iff.1 hbuild
  obtain ⟨-, -, rfl⟩ := build_eq_ok_iff.1 hbuild'
  have htables : ofActive (activeClauses clauses) (freeNamesOf clauses) =
      { ofActive (activeClauses clauses') (freeNamesOf clauses') with
        freeNames := freeNamesOf clauses } :=
    ofActive_eq_of_activeContents_eq h (freeNamesOf clauses)
  refine ⟨by rw [htables], by rw [htables], by rw [htables], by rw [htables], by rw [htables], ?_⟩
  intro hidle
  rw [freeNames_ofActive, freeNames_ofActive]
  refine (pairwise_freeNamesOf _).eq_of_mem_iff (pairwise_freeNamesOf _) fun name => ?_
  rw [mem_freeNamesOf_iff_idleNames, mem_freeNamesOf_iff_idleNames,
    mem_distinctNames_activeClauses, mem_distinctNames_activeClauses, hidle, h]

/-- The three clauses of the sample, with the literals in another order and the one that says
nothing in front, with another weight. -/
def rewrittenClauses : List Clause :=
  [⟨7.0, [⟨4, false⟩, ⟨4, true⟩, ⟨4, false⟩]⟩, ⟨1.0, [⟨2, false⟩, ⟨1, true⟩, ⟨2, false⟩]⟩,
    ⟨3.0, [⟨3, true⟩, ⟨1, false⟩]⟩]

/-- Both ways to write the three clauses have one encoding. -/
theorem build_eq_of_activeContents_eq_sample :
    ∃ e e', build Model.sampleClauses = .ok e ∧ build rewrittenClauses = .ok e' ∧
      activeContents Model.sampleClauses = activeContents rewrittenClauses ∧
      idleNames Model.sampleClauses = idleNames rewrittenClauses ∧
      e.affected = e'.affected ∧ e.freeNames = e'.freeNames := by
  have hbuild : build Model.sampleClauses = .ok (ofActive (activeClauses Model.sampleClauses)
    (freeNamesOf Model.sampleClauses)) := rfl
  have hbuild' : build rewrittenClauses = .ok (ofActive (activeClauses rewrittenClauses)
    (freeNamesOf rewrittenClauses)) := rfl
  have hsame : activeContents Model.sampleClauses = activeContents rewrittenClauses := by
    have hfirst : (⟨1.0, [⟨1, true⟩, ⟨2, false⟩]⟩ : Clause).content =
        (⟨1.0, [⟨2, false⟩, ⟨1, true⟩, ⟨2, false⟩]⟩ : Clause).content := by
      rw [Clause.content_eq_iff]
      simp [or_comm]
    have hsecond : (⟨3.0, [⟨1, false⟩, ⟨1, false⟩, ⟨3, true⟩]⟩ : Clause).content =
        (⟨3.0, [⟨3, true⟩, ⟨1, false⟩]⟩ : Clause).content := by
      rw [Clause.content_eq_iff]
      simp [or_comm]
    exact congrArg₂ (fun k k' => [k, k']) hfirst hsecond
  have hidle : idleNames Model.sampleClauses = idleNames rewrittenClauses := by
    change [4, 4].toFinset = [4, 4, 4].toFinset
    decide
  obtain ⟨-, haffected, -, -, -, hfree⟩ := build_eq_of_activeContents_eq hbuild hbuild' hsame
  exact ⟨_, _, hbuild, hbuild', hsame, hidle, haffected, hfree hidle⟩

end Encoding

end WeightedSat
