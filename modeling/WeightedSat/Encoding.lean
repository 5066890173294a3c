import WeightedSat.Formula
import WeightedSat.Occurrence
import WeightedSat.Weight

/-!
**The encoding of clauses for local search.**

Clauses that are always true are left out; the others, the active ones, are numbered from one in
their order.  The variables of active clauses are simulated: they are numbered from zero in the
order of their names, and each has the list of its occurrences.  A variable that occurs in no
active clause is free.

Main definitions:

* `WeightedSat.Clause.checkAdmitted` — what a clause needs to be encoded;
* `WeightedSat.occurrences` — every variable of every active clause;
* `WeightedSat.Encoding` — the tables of local search;
* `WeightedSat.Encoding.build` — the encoding of a list of clauses.

Main results:

* `WeightedSat.getD_groupByName` — the table of occurrences holds, for every name, the occurrences
  under that name in their order.
-/

set_option relaxedAutoImplicit false
set_option autoImplicit false

namespace WeightedSat

/-- A clause that can be encoded has a literal, a finite positive weight, and names with literals
of both polarities. -/
def Clause.checkAdmitted (c : Clause) : Except Error Unit :=
  if c.literals.isEmpty then .error .emptyClause
  else if !(c.weight.isFinite && 0.0 < c.weight) then .error (.badWeight c.weight)
  else
    match c.literals.find? fun l => !Clause.admitsName l.name with
    | some l => .error (.unnegatableName l.name)
    | none => .ok ()

/-! ### Occurrences -/

/-- Every variable of every active clause, by name, in the order of the clauses. -/
def occurrences (active : List Clause) : List (Nat × Occurrence) :=
  (active.zipIdx 1).flatMap fun (c, number) =>
    c.polarities.toList.map fun (name, positive) => (name, ⟨number, positive⟩)

/-- Pairs grouped by their name. -/
def groupByName (pairs : List (Nat × Occurrence)) : Std.TreeMap Nat (List Occurrence) :=
  pairs.foldr (fun p table => table.alter p.1 fun os => some (p.2 :: os.getD [])) ∅

/-- The table holds, for every name, what was paired with it, in order. -/
theorem getD_groupByName (pairs : List (Nat × Occurrence)) (name : Nat) :
    (groupByName pairs).getD name [] = (pairs.filter (·.1 = name)).map (·.2) := by
  induction pairs with
  | nil => simp [groupByName]
  | cons p ps ih =>
      have hstep : groupByName (p :: ps) =
          (groupByName ps).alter p.1 fun os => some (p.2 :: os.getD []) := rfl
      rw [hstep, Std.TreeMap.getD_alter, List.filter_cons]
      by_cases h : p.1 = name
      · subst h
        simp [← ih, Std.TreeMap.getD_eq_getD_getElem?]
      · simp [h, ih]

/-! ### The tables -/

/-- The tables of local search. -/
structure Encoding where
  /-- The weights of the active clauses by number; the slot zero is not used. -/
  weights : Array Float
  /-- The occurrences of the simulated variables, by clause number. -/
  affected : Array (List Occurrence)
  /-- The names of the simulated variables, ascending. -/
  names : Array Nat
  /-- The names of the free variables, ascending. -/
  freeNames : List Nat
  /-- The greatest weight of an active clause, zero if there is none. -/
  maxWeight : Float
  /-- The greatest number of variables of an active clause, zero if there is none. -/
  maxWidth : Nat
deriving DecidableEq

namespace Encoding

/-- The encoding of no clauses. -/
def empty : Encoding := ⟨#[0.0], #[], #[], [], 0.0, 0⟩

/-- The greatest of a list of weights, zero if there is none. -/
def greatest : List Float → Float
  | [] => 0.0
  | w :: ws => ws.foldl Weight.larger w

/-- The encoding of active clauses, with the free names. -/
def ofActive (active : List Clause) (freeNames : List Nat) : Encoding :=
  let names := distinctNames active
  let table := groupByName (occurrences active)
  { weights := (0.0 :: active.map (·.weight)).toArray
    affected := (names.map fun name => table.getD name []).toArray
    names := names.toArray
    freeNames
    maxWeight := greatest (active.map (·.weight))
    maxWidth := (active.map (·.width)).foldl max 0 }

/-- The clauses that are not always true. -/
def activeClauses (clauses : List Clause) : List Clause :=
  clauses.filter (!·.isTautology)

/-- The names that occur in clauses that are always true, and in no others. -/
def freeNamesOf (clauses : List Clause) : List Nat :=
  let used := Std.TreeSet.ofList ((activeClauses clauses).flatMap Clause.names) compare
  (distinctNames (clauses.filter (·.isTautology))).filter (!used.contains ·)

/-- The greatest number a clause can have. -/
def maxClauses : Nat := wordCount 31 - 1

/-- **The encoding of a list of clauses.** -/
def build (clauses : List Clause) : Except Error Encoding := do
  clauses.forM Clause.checkAdmitted
  let active := activeClauses clauses
  if maxClauses < active.length then throw (.tooManyClauses active.length)
  return ofActive active (freeNamesOf clauses)

/-- The number of simulated variables. -/
def variableCount (e : Encoding) : Nat :=
  e.affected.size

/-- The number of active clauses. -/
def clauseCount (e : Encoding) : Nat :=
  e.weights.size - 1

/-- The index of the simulated variable with a given name. -/
def index? (e : Encoding) (name : Nat) : Option Nat :=
  e.names.toList.findIdx? (· = name)

end Encoding

end WeightedSat
