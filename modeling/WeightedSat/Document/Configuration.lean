import WeightedSat.Model

/-!
**Configurations: what a model document describes.**

A configuration names the kind and the version of the model it is for and lists its terms, which
are clauses with signed literals.

Main definitions:

* `WeightedSat.Term`, `WeightedSat.Configuration` — the contents of a document;
* `WeightedSat.Term.toClause`, `WeightedSat.Configuration.clauses` — the clauses it describes;
* `WeightedSat.Configuration.ofClauses` — the description of clauses;
* `WeightedSat.Model.configureFrom` — configuring a model from a document.
-/

set_option relaxedAutoImplicit false
set_option autoImplicit false

namespace WeightedSat

/-- A clause as a document describes it. -/
structure Term where
  /-- The weight. -/
  weight : Float
  /-- The signed literals. -/
  ids : List Int
deriving DecidableEq

/-- The contents of a document. -/
structure Configuration where
  /-- The kind of model. -/
  kind : String
  /-- The version of the model. -/
  version : String
  /-- The terms in order. -/
  terms : List Term
deriving DecidableEq

/-- The clause of a term, which names each variable at most once. -/
def Term.toClause (t : Term) : Except Error Clause := do
  let c ← Clause.ofSigned t.weight t.ids
  c.checkNames
  return c

/-- A literal as a signed number of thirty-two bits. -/
def Literal.toId (l : Literal) : Except Error Int :=
  if FitsSigned 32 l.toSigned then .ok l.toSigned
  else .error (.unnegatableName l.name)

/-- The term that describes a clause. -/
def Term.ofClause (c : Clause) : Except Error Term := do
  return ⟨c.weight, ← c.literals.mapM Literal.toId⟩

namespace Configuration

/-- The clauses that a configuration describes. -/
def clauses (cfg : Configuration) : Except Error (List Clause) :=
  cfg.terms.mapM Term.toClause

/-- The configuration that describes clauses. -/
def ofClauses (clauses : List Clause) : Except Error Configuration := do
  return ⟨Model.identifier, Model.version, ← clauses.mapM Term.ofClause⟩

end Configuration

/-- **Configures a model from a document** that is meant for it. -/
def Model.configureFrom (m : Model) (cfg : Configuration) : Except Error Model := do
  if cfg.kind ≠ Model.identifier then throw (.wrongKind Model.identifier cfg.kind)
  if cfg.version ≠ Model.version then
    throw (.wrongVersion cfg.kind cfg.version Model.version)
  if cfg.terms.isEmpty then throw .noTerms
  m.configure (← cfg.clauses)

end WeightedSat
