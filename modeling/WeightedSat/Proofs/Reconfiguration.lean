import WeightedSat.Proofs.Loading
import WeightedSat.Proofs.Terms

/-!
**Configuring a model again and again.**

One model may be configured many times, for clauses or from documents.  A request that is refused,
at whatever point, leaves the model as it was; one that is granted leaves nothing of what the model
was before.  So a history of requests ends in the model of the last one that was granted.

Whether a request is granted does not depend on the history either, and this module says exactly
when it is, without reference to how the tables of a model are built.

Main definitions:

* `WeightedSat.Request` — what a model can be asked for;
* `WeightedSat.Model.respond`, `WeightedSat.Model.after`, `WeightedSat.Model.afterAll` — the answer
  to a request, and the model behind one request or many;
* `WeightedSat.Clause.HasComplement`, `WeightedSat.Configurable` — **the clauses that a model can be
  configured for**.

Main results:

* `WeightedSat.Model.exists_configure_eq_ok_iff` — when clauses configure a model;
* `WeightedSat.Model.respond_congr` — the answer to a request depends on the width alone;
* `WeightedSat.Model.IsLatest.concat` — what one more request does to the latest model;
* `WeightedSat.Model.afterAll_all_or_nothing` — **a history ends in the model of the last request
  that was granted**, and which are granted.
-/

set_option relaxedAutoImplicit false
set_option autoImplicit false

namespace WeightedSat

/-! ### Requests -/

/-- What a model can be asked to be configured for. -/
inductive Request where
  /-- Clauses. -/
  | ofClauses (clauses : List Clause)
  /-- The clauses that a document describes. -/
  | ofDocument (cfg : Configuration)

/-- The clauses of a request, where it describes any. -/
def Request.described : Request → Except Error (List Clause)
  | .ofClauses clauses => .ok clauses
  | .ofDocument cfg => cfg.clauses

namespace Model

/-- The answer to a request: the model it asks for, or why there is none. -/
def respond (m : Model) : Request → Except Error Model
  | .ofClauses clauses => m.configure clauses
  | .ofDocument cfg => m.configureFrom cfg

/-- **The model behind a request**: the one it asks for, or the same one where it is refused. -/
def after (m : Model) (r : Request) : Model :=
  match m.respond r with
  | .ok m' => m'
  | .error _ => m

/-- The model behind several requests, one after the other. -/
def afterAll (m : Model) (requests : List Request) : Model :=
  requests.foldl after m

/-- A request is granted. -/
def Grants (m : Model) (r : Request) : Prop :=
  ∃ m', m.respond r = .ok m'

/-- Of requests made one after the other, none is granted. -/
def RefusesAll (m : Model) (requests : List Request) : Prop :=
  ∀ earlier r later, requests = earlier ++ r :: later → ¬ (m.afterAll earlier).Grants r

theorem refusesAll_nil (m : Model) : m.RefusesAll [] := by
  intro earlier r later hsplit
  simp at hsplit

theorem afterAll_append (m : Model) (requests later : List Request) :
    m.afterAll (requests ++ later) = (m.afterAll requests).afterAll later :=
  List.foldl_append

theorem after_of_respond {m m' : Model} {r : Request} (h : m.respond r = .ok m') :
    m.after r = m' := by
  rw [after, h]

theorem after_of_not_grants {m : Model} {r : Request} (h : ¬ m.Grants r) : m.after r = m := by
  rw [after]
  cases hrespond : m.respond r with
  | ok m' => exact absurd ⟨m', hrespond⟩ h
  | error _ => rfl

end Model

/-! ### The clauses a model can be configured for -/

/-- A clause with some literal beside its negation. -/
def Clause.HasComplement (c : Clause) : Prop :=
  ∃ l ∈ c.literals, l.negate ∈ c.literals

instance (c : Clause) : Decidable c.HasComplement :=
  inferInstanceAs (Decidable (∃ l ∈ c.literals, _))

/-- **The clauses that a model can be configured for.**  Every clause needs a literal, a finite
positive weight and admitted names; those that are not always true must be few enough to be
numbered, and have few enough variables to be counted. -/
structure Configurable (width : CounterWidth) (clauses : List Clause) : Prop where
  ne_nil : ∀ c ∈ clauses, c.literals ≠ []
  weight : ∀ c ∈ clauses, c.weight.isFinite = true ∧ 0.0 < c.weight
  names : ∀ c ∈ clauses, ∀ name ∈ c.names, 1 ≤ name ∧ name ≤ 2 ^ 31 - 1
  count : (clauses.filter fun c => ¬ c.HasComplement).length ≤ 2 ^ 31 - 1
  width : ∀ c ∈ clauses, ¬ c.HasComplement → c.names.toFinset.card ≤ 2 ^ width.bits - 1

theorem Encoding.activeClauses_eq_filter (clauses : List Clause) :
    activeClauses clauses = clauses.filter fun c => ¬ c.HasComplement := by
  rw [activeClauses_eq]
  refine List.filter_congr ?_
  intro c _
  simp only [Clause.HasComplement, not_exists, not_and]

theorem Clause.checkAdmitted_eq_ok_iff_names {c : Clause} :
    c.checkAdmitted = .ok () ↔
      c.literals ≠ [] ∧ (c.weight.isFinite = true ∧ 0.0 < c.weight) ∧
        ∀ name ∈ c.names, 1 ≤ name ∧ name ≤ 2 ^ 31 - 1 := by
  have hmax : maxName = 2 ^ 31 - 1 := by decide
  rw [Clause.checkAdmitted_eq_ok_iff, Clause.names, List.forall_mem_map]
  simp only [Clause.admitsName, Bool.and_eq_true, decide_eq_true_iff, hmax, Nat.lt_iff_add_one_le,
    Nat.zero_add]

namespace Model

variable {m : Model} {width : CounterWidth}

/-- **When clauses configure a model.** -/
theorem exists_configure_eq_ok_iff {clauses : List Clause} :
    (∃ m', m.configure clauses = .ok m') ↔ Configurable m.width clauses := by
  have hadmitted : (∀ c ∈ clauses, c.checkAdmitted = .ok ()) ↔
      (∀ c ∈ clauses, c.literals ≠ []) ∧
        (∀ c ∈ clauses, c.weight.isFinite = true ∧ 0.0 < c.weight) ∧
        ∀ c ∈ clauses, ∀ name ∈ c.names, 1 ≤ name ∧ name ≤ 2 ^ 31 - 1 := by
    simp only [Clause.checkAdmitted_eq_ok_iff_names, forall_and]
  have hcount : Encoding.maxClauses = 2 ^ 31 - 1 := by decide
  have hcapacity : m.width.capacity = 2 ^ m.width.bits - 1 := rfl
  have hwidth : (∀ c ∈ Encoding.activeClauses clauses, c.width ≤ m.width.capacity) ↔
      ∀ c ∈ clauses, ¬ c.HasComplement → c.names.toFinset.card ≤ 2 ^ m.width.bits - 1 := by
    simp only [Encoding.activeClauses_eq_filter, List.mem_filter, decide_eq_true_iff,
      Clause.width_eq_card, hcapacity, and_imp]
  simp only [configure_eq_ok_iff, Encoding.build_eq_ok_iff, hcount]
  constructor
  · rintro ⟨m', e, ⟨hclauses, hlength, rfl⟩, hmax, -⟩
    obtain ⟨hne, hweight, hnames⟩ := hadmitted.1 hclauses
    rw [Encoding.activeClauses_eq_filter] at hlength
    exact ⟨hne, hweight, hnames, hlength, hwidth.1 (Encoding.maxWidth_le_iff.1 hmax)⟩
  · intro h
    refine ⟨_, _, ⟨hadmitted.2 ⟨h.ne_nil, h.weight, h.names⟩, ?_, rfl⟩, ?_, rfl⟩
    · rw [Encoding.activeClauses_eq_filter]
      exact h.count
    · exact Encoding.maxWidth_le_iff.2 (hwidth.2 h.width)

/-- **When a document configures a model.** -/
theorem exists_configureFrom_eq_ok_iff {cfg : Configuration} :
    (∃ m', m.configureFrom cfg = .ok m') ↔
      cfg.kind = identifier ∧ cfg.version = version ∧ cfg.terms ≠ [] ∧
        (∀ t ∈ cfg.terms, t.IsStrict) ∧ Configurable m.width (cfg.terms.map Term.clause) := by
  simp only [configureFrom_eq_ok_iff, Configuration.clauses_eq_ok_iff, ← exists_configure_eq_ok_iff]
  constructor
  · rintro ⟨m', hkind, hversion, hne, _, ⟨hstrict, rfl⟩, hm⟩
    exact ⟨hkind, hversion, hne, hstrict, m', hm⟩
  · rintro ⟨hkind, hversion, hne, hstrict, m', hm⟩
    exact ⟨m', hkind, hversion, hne, _, ⟨hstrict, rfl⟩, hm⟩

/-! ### What one request does -/

/-- **The answer to a request depends on the width alone**: nothing is left of what the model was
configured for before. -/
theorem respond_congr {m' : Model} (h : m.width = m'.width) (r : Request) :
    m.respond r = m'.respond r := by
  have hconfigure : ∀ clauses, m.configure clauses = m'.configure clauses := by
    intro clauses
    rw [configure, configure, h]
  cases r with
  | ofClauses clauses => exact hconfigure clauses
  | ofDocument cfg => simp only [respond, configureFrom, hconfigure]

/-- A granted request gives the model of its clauses. -/
theorem exists_described_of_respond {m' : Model} {r : Request} (h : m.respond r = .ok m') :
    ∃ clauses, r.described = .ok clauses ∧ ofClauses m.width clauses = .ok m' := by
  cases r with
  | ofClauses clauses => exact ⟨clauses, rfl, h⟩
  | ofDocument cfg =>
      obtain ⟨-, -, -, clauses, hclauses, hm⟩ := configureFrom_eq_ok_iff.1 h
      exact ⟨clauses, hclauses, hm⟩

theorem width_after (m : Model) (r : Request) : (m.after r).width = m.width := by
  rw [after]
  cases hrespond : m.respond r with
  | error _ => rfl
  | ok m' =>
      obtain ⟨clauses, -, hm⟩ := exists_described_of_respond hrespond
      obtain ⟨e, -, -, rfl⟩ := configure_eq_ok_iff.1 hm
      rfl

theorem width_afterAll (m : Model) (requests : List Request) :
    (m.afterAll requests).width = m.width := by
  induction requests generalizing m with
  | nil => rfl
  | cons r requests ih => exact (ih (m.after r)).trans (width_after m r)

/-! ### What a history does -/

/-- **The model of the last request that was granted**, of the requests made of a new model; the new
model itself where none was. -/
inductive IsLatest (width : CounterWidth) (requests : List Request) (m : Model) : Prop
  | new (hrefused : (unconfigured width).RefusesAll requests) (hm : m = unconfigured width)
  | granted {earlier later : List Request} {r : Request} {clauses : List Clause}
      (hrequests : requests = earlier ++ r :: later)
      (hgranted : ((unconfigured width).afterAll earlier).Grants r)
      (hrefused : ((unconfigured width).afterAll (earlier ++ [r])).RefusesAll later)
      (hdescribed : r.described = .ok clauses) (hm : ofClauses width clauses = .ok m)

theorem RefusesAll.concat {requests : List Request} (h : m.RefusesAll requests) {r : Request}
    (hr : ¬ (m.afterAll requests).Grants r) : m.RefusesAll (requests ++ [r]) := by
  intro earlier q later hsplit
  -- the request in question is the last one, or one of those before it
  rcases List.eq_nil_or_concat later with rfl | ⟨later, last, rfl⟩
  · obtain ⟨rfl, hq⟩ := List.append_inj' hsplit rfl
    obtain rfl : r = q := (List.cons.inj hq).1
    exact hr
  · rw [List.concat_eq_append, ← List.cons_append, ← List.append_assoc] at hsplit
    exact h earlier q later (List.append_inj' hsplit rfl).1

/-- What one more request does to the latest model. -/
theorem IsLatest.concat {requests : List Request} (h : IsLatest width requests m)
    (hm : (unconfigured width).afterAll requests = m) (r : Request) :
    IsLatest width (requests ++ [r]) (m.after r) := by
  by_cases hgrants : m.Grants r
  · obtain ⟨m', hrespond⟩ := hgrants
    have hwidth : m.width = width := by
      rw [← hm, width_afterAll]
      rfl
    obtain ⟨clauses, hdescribed, hclauses⟩ := exists_described_of_respond hrespond
    rw [hwidth] at hclauses
    rw [after_of_respond hrespond]
    exact .granted rfl (hm.symm ▸ ⟨m', hrespond⟩) (refusesAll_nil _) hdescribed hclauses
  · rw [after_of_not_grants hgrants]
    cases h with
    | new hrefused hnew => exact .new (hrefused.concat (hm.symm ▸ hgrants)) hnew
    | @granted earlier later q clauses hrequests hgranted hrefused hdescribed hclauses =>
        subst hrequests
        have hlater : ((unconfigured width).afterAll (earlier ++ [q])).afterAll later = m := by
          rw [← afterAll_append, List.append_assoc, List.singleton_append, hm]
        refine .granted ?_ hgranted (hrefused.concat (hlater.symm ▸ hgrants)) hdescribed hclauses
        rw [List.append_assoc, List.cons_append]

/-- A history ends in the model of the last request that was granted. -/
theorem isLatest_afterAll (width : CounterWidth) (requests : List Request) :
    IsLatest width requests ((unconfigured width).afterAll requests) := by
  induction requests using List.reverseRecOn with
  | nil => exact .new (refusesAll_nil _) rfl
  | append_singleton requests r ih =>
      rw [afterAll_append]
      exact ih.concat rfl r

/-- **Configuring is all or nothing.**  A history of requests made of a new model ends in the model
of the last one that was granted, or in the new model; and at every point of a history it depends on
the request alone whether it is granted. -/
theorem afterAll_all_or_nothing (width : CounterWidth) (requests : List Request) :
    IsLatest width requests ((unconfigured width).afterAll requests) ∧
      (∀ clauses, ((unconfigured width).afterAll requests).Grants (.ofClauses clauses) ↔
        Configurable width clauses) ∧
      ∀ cfg : Configuration, ((unconfigured width).afterAll requests).Grants (.ofDocument cfg) ↔
        cfg.kind = "maxsat" ∧ cfg.version = "1.0" ∧ cfg.terms ≠ [] ∧
          (∀ t ∈ cfg.terms, t.IsStrict) ∧
          ((unconfigured width).afterAll requests).Grants
            (.ofClauses (cfg.terms.map Term.clause)) := by
  -- whatever has been asked for before, a request is granted as by the new model
  have hnew : ∀ r, ((unconfigured width).afterAll requests).Grants r ↔
      (unconfigured width).Grants r := by
    intro r
    rw [Grants, Grants, respond_congr (width_afterAll _ requests)]
  have hclauses : ∀ clauses, ((unconfigured width).afterAll requests).Grants (.ofClauses clauses) ↔
      Configurable width clauses := fun clauses => (hnew _).trans exists_configure_eq_ok_iff
  refine ⟨isLatest_afterAll width requests, hclauses, ?_⟩
  intro cfg
  rw [hclauses]
  exact (hnew _).trans exists_configureFrom_eq_ok_iff

end Model

end WeightedSat
