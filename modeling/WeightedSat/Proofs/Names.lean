import WeightedSat.Proofs.Price
import WeightedSat.Proofs.Text.Numerals

/-!
**The names of a model, and of its renderings.**

The names that occur in the clauses fall into two kinds: those of variables that are simulated,
because they occur in an active clause, and free ones, which occur only where it does not matter
what they are.  Both are listed in ascending order and no name is in both lists, so a rendering,
which goes through the one and then through the other, lists every name exactly once.  Names are
written as numerals, and different names have different numerals: where a rendering is entered line
by line into a table under these, no line replaces another.

Main definitions:

* `WeightedSat.Model.PartitionsNames` — **the two kinds of names**, and how variables are found;
* `WeightedSat.Model.enter` — one line of a table in which a key is found once;
* `WeightedSat.Model.RendersNames` — **what a rendering lists**.

Main results:

* `WeightedSat.pairwise_distinctNames` — names are listed in ascending order;
* `WeightedSat.Model.Configured.partitionsNames`, `WeightedSat.Model.Configured.rendersNames` — the
  names of a configured model and of its renderings;
* `WeightedSat.Model.partition_and_render_names` — **names are partitioned, and rendered without
  loss**.
-/

set_option relaxedAutoImplicit false
set_option autoImplicit false

namespace WeightedSat

/-! ### Names in order -/

/-- **Names are listed in ascending order.** -/
theorem pairwise_distinctNames (clauses : List Clause) :
    (distinctNames clauses).Pairwise (· < ·) := by
  refine List.Pairwise.imp ?_ Std.TreeSet.ordered_toList
  intro a b h
  exact Nat.compare_eq_lt.1 h

theorem Encoding.pairwise_freeNamesOf (clauses : List Clause) :
    (freeNamesOf clauses).Pairwise (· < ·) :=
  (pairwise_distinctNames _).filter _

/-- **A name is free exactly when it occurs only in clauses that are always true.** -/
theorem Encoding.mem_freeNamesOf_iff {clauses : List Clause} {name : Nat} :
    name ∈ freeNamesOf clauses ↔
      (∃ c ∈ clauses, name ∈ c.names) ∧
        ∀ c ∈ clauses, name ∈ c.names → ∃ l ∈ c.literals, l.negate ∈ c.literals := by
  rw [mem_freeNamesOf, mem_distinctNames, mem_distinctNames]
  refine and_congr_right fun _ => ⟨?_, ?_⟩
  · intro hnot c hc hname
    rw [← Clause.isTautology_eq_true_iff]
    by_contra htaut
    exact hnot ⟨c, mem_activeClauses.2 ⟨hc, by simpa using htaut⟩, hname⟩
  · rintro htaut ⟨c, hc, hname⟩
    obtain ⟨hmem, hactive⟩ := mem_activeClauses.1 hc
    rw [(Clause.isTautology_eq_true_iff c).2 (htaut c hmem hname)] at hactive
    cases hactive

theorem Text.ofNat_injective : Function.Injective Text.ofNat := by
  intro m n h
  have hdigits : digits m = digits n := String.ofList_injective h
  rw [← natValue_digits m, hdigits, natValue_digits]

namespace Model

/-! ### The two kinds of names -/

/-- **The two kinds of names**: those of the simulated variables, by which variables are found, and
the free ones. -/
structure PartitionsNames (m : Model) (clauses : List Clause) : Prop where
  names_ascending : m.encoding.names.toList.Pairwise (· < ·)
  freeNames_ascending : m.encoding.freeNames.Pairwise (· < ·)
  disjoint : ∀ name ∈ m.encoding.names.toList, name ∉ m.encoding.freeNames
  /-- Together they are the names that occur. -/
  mem_iff : ∀ name, name ∈ m.encoding.names.toList ∨ name ∈ m.encoding.freeNames ↔
    ∃ c ∈ clauses, name ∈ c.names
  /-- Free names are those that occur only in clauses with a literal beside its negation. -/
  free_iff : ∀ name, name ∈ m.encoding.freeNames ↔
    (∃ c ∈ clauses, name ∈ c.names) ∧
      ∀ c ∈ clauses, name ∈ c.names → ∃ l ∈ c.literals, l.negate ∈ c.literals
  index_eq_some_iff : ∀ name i, m.encoding.index? name = some i ↔
    m.encoding.names[i]? = some name
  index_eq_none_iff : ∀ name, m.encoding.index? name = none ↔
    name ∉ m.encoding.names.toList

variable {m : Model} {clauses : List Clause} {s : State}

/-- A name that occurs in an active clause occurs. -/
private theorem exists_of_mem_active {name : Nat}
    (h : name ∈ distinctNames (Encoding.activeClauses clauses)) :
    ∃ c ∈ clauses, name ∈ c.names := by
  obtain ⟨c, hc, hname⟩ := mem_distinctNames.1 h
  exact ⟨c, (Encoding.mem_activeClauses.1 hc).1, hname⟩

/-- **The names of a configured model.** -/
theorem Configured.partitionsNames (hm : m.Configured clauses) : m.PartitionsNames clauses := by
  have he := hm.encodes
  have hnames : m.encoding.names.toList = distinctNames (Encoding.activeClauses clauses) := by
    rw [he.names_eq]
  exact {
    names_ascending := by
      rw [hnames]
      exact pairwise_distinctNames _
    freeNames_ascending := by
      rw [hm.freeNames_eq]
      exact Encoding.pairwise_freeNamesOf _
    disjoint := by
      intro name hname hfree
      rw [hm.freeNames_eq, Encoding.mem_freeNamesOf, ← hnames] at hfree
      exact hfree.2 hname
    mem_iff := by
      intro name
      rw [hm.freeNames_eq, Encoding.mem_freeNamesOf, ← hnames, mem_distinctNames, or_and_left,
        and_iff_left (Classical.em _), or_iff_right_iff_imp, hnames]
      exact exists_of_mem_active
    free_iff := by
      intro name
      rw [hm.freeNames_eq]
      exact Encoding.mem_freeNamesOf_iff
    index_eq_some_iff := by
      intro name i
      refine ⟨fun h => ?_, he.index?_eq_some⟩
      obtain ⟨hlt, hname, -⟩ := List.findIdx?_eq_some_iff_getElem.1 h
      rw [← Array.getElem?_toList, List.getElem?_eq_getElem hlt, of_decide_eq_true hname]
    index_eq_none_iff := by
      intro name
      rw [Encoding.index?, List.findIdx?_eq_none_iff]
      simp only [decide_eq_false_iff_not]
      exact ⟨fun h hname => h name hname rfl, fun h x hx heq => h (heq ▸ hx)⟩ }

/-! ### Renderings -/

/-- One line entered into a table in which a key is found once: a key that is there already keeps
its place and loses its value. -/
def enter (table : List (String × Bool)) (line : String × Bool) : List (String × Bool) :=
  if line.1 ∈ table.map (·.1) then table.map fun other => if other.1 = line.1 then line else other
  else table ++ [line]

/-- **Lines with different keys replace none.** -/
theorem foldl_enter {table lines : List (String × Bool)}
    (h : ((table ++ lines).map (·.1)).Nodup) : lines.foldl enter table = table ++ lines := by
  induction lines generalizing table with
  | nil => rw [List.foldl_nil, List.append_nil]
  | cons line lines ih =>
      have hnext : table ++ line :: lines = table ++ [line] ++ lines := by simp
      have hnew : line.1 ∉ table.map (·.1) := by
        intro hmem
        rw [List.map_append, List.nodup_append] at h
        exact h.2.2 _ hmem _ (List.mem_map_of_mem List.mem_cons_self) rfl
      rw [hnext] at h ⊢
      rw [List.foldl_cons, enter, if_neg hnew]
      exact ih h

/-- **What a rendering lists**: every name once, those of the variables first. -/
structure RendersNames (m : Model) (clauses : List Clause) (s : State)
    (rendered : List (Nat × Bool)) : Prop where
  names_eq : rendered.map (·.1) = m.encoding.names.toList ++ m.encoding.freeNames
  nodup : (rendered.map (·.1)).Nodup
  mem_iff : ∀ name, name ∈ rendered.map (·.1) ↔ ∃ c ∈ clauses, name ∈ c.names
  /-- A variable has the value of the state. -/
  variable_eq : ∀ i name : Nat, m.encoding.names[i]? = some name →
    ∃ b, s.value i = .ok b ∧ rendered[i]? = some (name, b)
  /-- Free names are true. -/
  free_mem : ∀ name ∈ m.encoding.freeNames, (name, true) ∈ rendered
  /-- Entered under the numerals of the names, no line replaces another. -/
  table_eq : (rendered.map fun line => (Text.ofNat line.1, line.2)).foldl enter [] =
    rendered.map fun line => (Text.ofNat line.1, line.2)

/-- **The rendering of a state.** -/
theorem Configured.rendersNames (hm : m.Configured clauses)
    (hsize : s.assignment.size = m.variableCount) :
    ∃ rendered, m.render s = .ok rendered ∧ m.RendersNames clauses s rendered := by
  have hnames := hm.partitionsNames
  have hlength : s.assignment.size = m.encoding.names.size := by
    rw [hsize, hm.encodes.variableCount_eq, hm.encodes.names_eq, List.size_toArray]
  have hkeys : (m.encoding.names.toList.zip s.assignment.toList ++
      m.encoding.freeNames.map (·, true)).map (·.1) =
        m.encoding.names.toList ++ m.encoding.freeNames := by
    rw [List.map_append, List.map_fst_zip (by simp [hlength]), List.map_map]
    exact congrArg _ (List.map_id _)
  have hnodup : (m.encoding.names.toList ++ m.encoding.freeNames).Nodup := by
    rw [List.nodup_append]
    refine ⟨hnames.names_ascending.imp Nat.ne_of_lt,
      hnames.freeNames_ascending.imp Nat.ne_of_lt, ?_⟩
    rintro name hname other hother rfl
    exact hnames.disjoint name hname hother
  refine ⟨_, if_neg (not_not_intro hlength), ?_⟩
  exact {
    names_eq := hkeys
    nodup := by rwa [hkeys]
    mem_iff := by
      intro name
      rw [hkeys, List.mem_append]
      exact hnames.mem_iff name
    variable_eq := by
      intro i name hname
      have hi : i < s.assignment.size := hlength ▸ (Array.getElem?_eq_some_iff.1 hname).1
      have hvalue := Array.getElem?_eq_getElem hi
      refine ⟨s.assignment[i], by rw [State.value, hvalue], ?_⟩
      have hzip : i < (m.encoding.names.toList.zip s.assignment.toList).length := by
        simpa [hlength] using hi
      rw [List.getElem?_append_left hzip, List.getElem?_zip_eq_some, Array.getElem?_toList,
        Array.getElem?_toList]
      exact ⟨hname, hvalue⟩
    free_mem := by
      intro name hname
      exact List.mem_append_right _ (List.mem_map_of_mem hname)
    table_eq := by
      refine foldl_enter ?_
      rw [List.nil_append, List.map_map]
      have hnumerals := hnodup.map Text.ofNat_injective
      rwa [← hkeys, List.map_map] at hnumerals }

/-- **Names are partitioned, and rendered without loss.** The names of a configured model are those
of its variables and the free ones, and in every reachable state a rendering lists each of them
once: the variables with their values, the free names as true. -/
theorem partition_and_render_names (hm : m.Configured clauses) :
    m.PartitionsNames clauses ∧
      ∀ s, m.Reachable s → ∃ rendered, m.render s = .ok rendered ∧
        m.RendersNames clauses s rendered :=
  ⟨hm.partitionsNames, fun _ hs => hm.rendersNames (hs.counts hm.encodes).assignment_size⟩

/-- On three clauses with all variables false: the name of the second is free. -/
theorem partition_and_render_names_sample :
    ∃ s rendered, sampleModel.start = .ok s ∧ sampleModel.render s = .ok rendered ∧
      sampleModel.PartitionsNames sampleClauses ∧
      sampleModel.RendersNames sampleClauses s rendered ∧
      rendered = [(1, false), (2, false), (3, false), (4, true)] := by
  have hs : sampleModel.start = .ok ⟨#[false, false, false], #[0, 1, 1]⟩ := rfl
  obtain ⟨hnames, hrenders⟩ := partition_and_render_names sampleModel_configured
  obtain ⟨rendered, hrender, hlists⟩ := hrenders _ (.start (.start hs))
  refine ⟨_, rendered, hs, hrender, hnames, hlists, ?_⟩
  cases hrender
  rfl

end Model

end WeightedSat
