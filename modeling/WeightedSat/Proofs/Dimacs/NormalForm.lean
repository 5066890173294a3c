import WeightedSat.Proofs.Dimacs.WriteRead

/-!
**Rewriting a clause file.**

A file may write its numbers with signs and zeros in front, spread its clauses over lines, leave
gaps between the names, put clauses before the problem line or give a threshold that is no number.
All that is read of it can be written again, and what is written is read as the same formula: so a
file that was rewritten once does not change any more, and files of different formulas do not become
the same.

Main results:

* `WeightedSat.Dimacs.Denotes.expressible` — what is read can be written;
* `WeightedSat.Dimacs.Denotes.readBack_eq` — and loses no weight;
* `WeightedSat.Dimacs.parse_render_of_parse` — **what was read is written in a normal form**.
-/

set_option relaxedAutoImplicit false
set_option autoImplicit false

namespace WeightedSat.Dimacs

variable {text : List Char} {f : Formula}

/-- **What is read can be written.** -/
theorem Denotes.expressible (h : Denotes text f) : Expressible f := by
  have hclauses := h.isWritableClause
  cases h with
  | mk _ hline _ _ hdialect htop _ hcount _ hlargest =>
      cases hline with
      | mk _ hcounted hthreshold =>
          obtain ⟨-, hpos, hle⟩ := hcounted
          rw [← hcount] at hpos hle
          rw [← hdialect, ← htop] at hthreshold
          refine ⟨hpos, hle, hclauses, hlargest, ?_⟩
          -- only a weighted problem line has a threshold
          intro hplain
          rw [hplain] at hthreshold
          generalize f.top = top at hthreshold
          cases hthreshold
          rfl

/-- Without weights in front, each clause weighs one. -/
theorem IsClause.weight_eq_one {words : List (List Char)} {c : Clause}
    (h : IsClause false words c) : c.weight = 1.0 := by
  cases h with
  | mk hweight _ _ _ _ =>
      cases hweight
      rfl

/-- **Writing loses no weight of what is read**: those that are not written are one. -/
theorem Denotes.readBack_eq (h : Denotes text f) :
    f.clauses.map (readBack f.dialect) = f.clauses := by
  have hplain : f.dialect = .plain → ∀ c ∈ f.clauses, c.weight = 1.0 := by
    cases h with
    | mk _ _ hbefore hafter hdialect _ hclauses _ _ _ =>
        intro hplain
        rw [← hdialect, hplain] at hafter
        rw [hclauses, List.forall_mem_append]
        constructor
        · intro c hc
          obtain ⟨part, hpart⟩ := hbefore.exists_isClause c hc
          exact hpart.weight_eq_one
        · intro c hc
          obtain ⟨part, hpart⟩ := hafter.exists_isClause c hc
          exact hpart.weight_eq_one
  cases hdialect : f.dialect with
  | weighted => exact List.map_id' f.clauses
  | plain =>
      have hsame : ∀ c ∈ f.clauses, readBack .plain c = c := by
        intro c hc
        rw [readBack, ← hplain hdialect c hc]
      rw [List.map_congr_left hsame, List.map_id']

/-- **What was read is read again** from the text it is written as. -/
theorem Denotes.parse_render_eq_ok (h : Denotes text f) : parse (render f) = .ok f := by
  have hread := h.expressible.denotes.parseChars_eq_ok
  rwa [h.readBack_eq, ← parse_render] at hread

/-- **What was read is written in a normal form.**  The written text is read as a formula with the
same dialect, greatest name and clauses, their literals in order and their weights to the last bit,
and with the same threshold, be it a number or not; it is written as the same text; and what any
other file holds is written as another text, unless it is the same formula. -/
theorem parse_render_of_parse {text : String} {f : Formula} (h : parse text = .ok f) :
    ∃ g, parse (render f) = .ok g ∧ g.dialect = f.dialect ∧ g.largestName = f.largestName ∧
      g.clauses = f.clauses ∧ g.top = f.top ∧ render g = render f ∧
      ∀ other f', parse other = .ok f' → render f' = render f → f' = g := by
  have hread := (Denotes.of_parseChars h).parse_render_eq_ok
  refine ⟨f, hread, rfl, rfl, rfl, rfl, rfl, ?_⟩
  intro other f' hother hsame
  have hread' := (Denotes.of_parseChars hother).parse_render_eq_ok
  rw [hsame, hread] at hread'
  exact (Except.ok.inj hread').symm

/-- A clause before the problem line, signs and zeros in front of numbers, the least literal and a
threshold that is no number. -/
theorem parse_render_of_parse_sample :
    ∃ f, parse "-2147483648 +3 0\np wcnf 03 2 nan\n.5 7\n3 00\n" = .ok f ∧
      parse (render f) = .ok f := by
  obtain ⟨f, hf⟩ : ∃ f, parse "-2147483648 +3 0\np wcnf 03 2 nan\n.5 7\n3 00\n" = .ok f :=
    ⟨_, rfl⟩
  obtain ⟨g, hg, -, -, -, -, -, hunique⟩ := parse_render_of_parse hf
  obtain rfl := hunique _ f hf rfl
  exact ⟨f, hf, hg⟩

end WeightedSat.Dimacs
