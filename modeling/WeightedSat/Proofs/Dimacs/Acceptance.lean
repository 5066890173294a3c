import WeightedSat.Proofs.Dimacs.Steps
import WeightedSat.Proofs.Encoding

/-!
**The reader accepts exactly the grammar.**

The reader goes through a text line by line and word by word, with an open clause in its state.  The
grammar speaks about the text as a whole.  Read forwards, an invariant says which part of the
grammar the lines so far make up: a section that may end inside a clause, before or behind the
problem line.  Read backwards, each part of the grammar is a run of the reader.

Main definitions:

* `WeightedSat.Dimacs.IsOpen`, `WeightedSat.Dimacs.Split`, `WeightedSat.Dimacs.InSection` — words
  and lines that may end inside a clause;
* `WeightedSat.Dimacs.ReadSoFar` — **the invariant of the reader**.

Main results:

* `WeightedSat.Dimacs.WordStep.split`, `WeightedSat.Dimacs.LineStep.readSoFar` — a word and a line
  keep the invariant;
* `WeightedSat.Dimacs.AreClauses.run`, `WeightedSat.Dimacs.IsSection.run` — clauses and sections are
  read;
* `WeightedSat.Dimacs.Denotes.of_parseChars`, `WeightedSat.Dimacs.Denotes.parseChars_eq_ok` —
  soundness and completeness;
* `WeightedSat.Dimacs.parse_eq_ok_iff_denotes` — **the reader accepts exactly the grammar**, and
  returns what the text denotes.
-/

set_option relaxedAutoImplicit false
set_option autoImplicit false

namespace WeightedSat.Dimacs

/-! ### Words that may end inside a clause -/

/-- The words of a clause that has not ended. -/
inductive IsOpen (weighted : Bool) : List (List Char) → Option Pending → Prop
  | none : IsOpen weighted [] none
  | some {front body : List (List Char)} {c : Pending} (hweight : IsWeight weighted front c.weight)
      (hbody : List.Forall₂ IsLiteral body c.literals.reverse)
      (hdistinct : (c.literals.map (·.name)).Nodup)
      (hseen : ∀ l, l ∈ c.seen ↔ l ∈ c.literals) : IsOpen weighted (front ++ body) (some c)

/-- Words that split into clauses, and an open clause behind them. -/
def Split (weighted : Bool) (words : List (List Char)) (cs : List Clause)
    (pending : Option Pending) : Prop :=
  ∃ closed opened, words = closed ++ opened ∧ AreClauses weighted closed cs ∧
    IsOpen weighted opened pending

/-- An open clause that awaits no weight, or a new one of weight one. -/
theorem IsOpen.current {weighted : Bool} {words : List (List Char)} {pending : Option Pending}
    (h : IsOpen weighted words pending) (hopen : weighted = true → pending ≠ .none) :
    IsOpen weighted words (.some (pending.getD .unit)) := by
  cases h with
  | some hweight hbody hdistinct hseen => exact .some hweight hbody hdistinct hseen
  | none =>
      cases weighted with
      | true => exact absurd rfl (hopen rfl)
      | false => exact @IsOpen.some _ [] [] _ .unit .nil .nil (by simp [Pending.unit])

/-- **What one word keeps**: the words so far split into clauses, up to the open one. -/
theorem WordStep.split {r r' : Reading} {word : List Char} (h : WordStep r word r')
    {words : List (List Char)} {ds : List Clause} (hsplit : Split r.isWeighted words ds r.pending) :
    r'.header = r.header ∧ ∃ es, r'.clauses = es.reverse ++ r.clauses ∧
      Split r.isWeighted (words ++ [word]) (ds ++ es) r'.pending := by
  obtain ⟨closed, opened, rfl, hclosed, hopened⟩ := hsplit
  cases h with
  | weight hweighted hpending hread hfinite hpos =>
      rw [hpending] at hopened
      cases hopened
      refine ⟨rfl, [], rfl, closed, [word], by simp, by simpa using hclosed, ?_⟩
      rw [hweighted]
      exact @IsOpen.some _ [word] [] _ (.given hread hfinite hpos) .nil .nil (by simp)
  | close hopen hword hne =>
      have hcurrent := hopened.current hopen
      refine ⟨rfl, [⟨r.current.weight, r.current.literals.reverse⟩], rfl,
        closed ++ (opened ++ [word]), [], by simp, ?_, .none⟩
      refine hclosed.concat ?_
      cases hcurrent with
      | some hweight hbody hdistinct _ =>
          refine .mk hweight hbody (by simpa using hne) ?_ hword
          rw [List.map_reverse]
          exact List.nodup_reverse.2 hdistinct
  | @literal l hopen hword hnew hneg =>
      have hcurrent := hopened.current hopen
      refine ⟨rfl, [], rfl, closed, opened ++ [word], by simp, by simpa using hclosed, ?_⟩
      cases hcurrent with
      | some hweight hbody hdistinct hseen =>
          have hname : l.name ∉ r.current.literals.map (·.name) :=
            Literal.name_notMem_iff.2 ⟨mt (hseen l).2 hnew, mt (hseen l.negate).2 hneg⟩
          rw [List.append_assoc]
          refine .some hweight ?_ (List.nodup_cons.2 ⟨hname, hdistinct⟩) ?_
          · rw [List.reverse_cons]
            exact List.rel_append hbody (.cons hword .nil)
          · intro k
            rw [Literal.mem_insert_iff, List.mem_cons]
            exact or_congr_right (hseen k)

/-- **What a run of words keeps.** -/
theorem Split.of_run {r r' : Reading} {ws : List (List Char)} (h : Run WordStep r ws r')
    {words : List (List Char)} {ds : List Clause} (hsplit : Split r.isWeighted words ds r.pending) :
    r'.header = r.header ∧ ∃ es, r'.clauses = es.reverse ++ r.clauses ∧
      Split r.isWeighted (words ++ ws) (ds ++ es) r'.pending := by
  induction h generalizing words ds with
  | nil => exact ⟨rfl, [], rfl, by simpa using hsplit⟩
  | @cons r s r' word ws hstep _ ih =>
      obtain ⟨hheader, es, hclauses, hnext⟩ := hstep.split hsplit
      have hweighted : s.isWeighted = r.isWeighted := by
        rw [Reading.isWeighted, hheader, Reading.isWeighted]
      rw [← hweighted] at hnext
      obtain ⟨hheader', fs, hclauses', hlast⟩ := ih hnext
      refine ⟨hheader'.trans hheader, es ++ fs, ?_, ?_⟩
      · rw [hclauses', hclauses, List.reverse_append, List.append_assoc]
      · rw [← hweighted]
        simpa using hlast

/-! ### Lines that may end inside a clause -/

/-- Lines of a section that may end inside a clause. -/
def InSection (weighted : Bool) (lines : List (List (List Char))) (cs : List Clause)
    (pending : Option Pending) : Prop :=
  ∃ done group cs' ds, lines = done ++ group ∧ IsSection weighted done cs' ∧
    Split weighted group.flatten ds pending ∧ cs = cs' ++ ds

theorem inSection_nil (weighted : Bool) : InSection weighted [] [] none :=
  ⟨[], [], [], [], rfl, .nil, ⟨[], [], rfl, .nil, .none⟩, rfl⟩

/-- Where no clause is open, the lines make up a section. -/
theorem InSection.closed {weighted : Bool} {lines : List (List (List Char))} {cs : List Clause}
    (h : InSection weighted lines cs none) : IsSection weighted lines cs := by
  obtain ⟨done, group, cs', ds, rfl, hdone, ⟨closed, opened, hgroup, hclosed, hopened⟩, rfl⟩ := h
  cases hopened
  rw [List.append_nil] at hgroup
  refine hdone.append_group ?_
  rwa [hgroup]

/-- A comment where no clause is open. -/
theorem InSection.comment {weighted : Bool} {lines : List (List (List Char))} {cs : List Clause}
    (h : InSection weighted lines cs none) {first : List Char} (hfirst : first.head? = some 'c')
    (words : List (List Char)) : InSection weighted (lines ++ [first :: words]) cs none := by
  have hcomment : IsSection weighted [first :: words] [] := .comment hfirst .nil
  have hsection := h.closed.append hcomment
  rw [List.append_nil] at hsection
  exact ⟨_, [], cs, [], (List.append_nil _).symm, hsection, ⟨[], [], rfl, .nil, .none⟩,
    (List.append_nil cs).symm⟩

/-- A line of words. -/
theorem InSection.words {r r' : Reading} {lines : List (List (List Char))} {cs : List Clause}
    (h : InSection r.isWeighted lines cs r.pending) {line : List (List Char)}
    (hline : Run WordStep r line r') :
    r'.header = r.header ∧ ∃ es, r'.clauses = es.reverse ++ r.clauses ∧
      InSection r.isWeighted (lines ++ [line]) (cs ++ es) r'.pending := by
  obtain ⟨done, group, cs', ds, rfl, hdone, hsplit, rfl⟩ := h
  obtain ⟨hheader, es, hclauses, hnext⟩ := Split.of_run hline hsplit
  refine ⟨hheader, es, hclauses, done, group ++ [line], cs', ds ++ es, ?_, hdone, ?_, ?_⟩
  · rw [List.append_assoc]
  · simpa using hnext
  · rw [List.append_assoc]

/-- **What the lines so far are**: a section before the problem line, or the problem line between
two sections, the last of which may end inside a clause. -/
inductive ReadSoFar (lines : List (List (List Char))) (r : Reading) : Prop
  | before (hheader : r.header = none) (h : InSection false lines r.clauses.reverse r.pending)
  | after {before after : List (List (List Char))} {line : List (List Char)} {header : Header}
      {cs ds : List Clause} (hheader : r.header = some header)
      (hlines : lines = before ++ line :: after) (hline : IsProblemLine line header)
      (hbefore : IsSection false before cs)
      (hafter : InSection (header.dialect = .weighted) after ds r.pending)
      (hclauses : r.clauses.reverse = cs ++ ds)

/-- **What one line keeps.** -/
theorem LineStep.readSoFar {r r' : Reading} {line : List (List Char)} (h : LineStep r line r')
    {lines : List (List (List Char))} (hlines : ReadSoFar lines r) :
    ReadSoFar (lines ++ [line]) r' := by
  cases hlines with
  | before hheader hsection =>
      have hweighted : r.isWeighted = false := by rw [Reading.isWeighted, hheader]; rfl
      cases h with
      | comment hpending hfirst =>
          rw [hpending] at hsection
          exact .before hheader (by rw [hpending]; exact hsection.comment hfirst _)
      | problem hpending _ hline =>
          rw [hpending] at hsection
          exact .after rfl rfl hline hsection.closed
            (by rw [hpending]; exact inSection_nil _) (List.append_nil _).symm
      | words _ hwords =>
          rw [← hweighted] at hsection
          obtain ⟨hheader', es, hclauses, hnext⟩ := hsection.words hwords
          rw [hweighted] at hnext
          refine .before (hheader'.trans hheader) ?_
          rwa [hclauses, List.reverse_append, List.reverse_reverse]
  | @after before after problem header cs ds hheader hlines hproblem hbefore hafter hclauses =>
      subst hlines
      have hweighted : r.isWeighted = decide (header.dialect = .weighted) := by
        rw [Reading.isWeighted, hheader]
        rfl
      cases h with
      | @comment _ words hpending hfirst =>
          rw [hpending] at hafter
          have hnext := hafter.comment hfirst words
          rw [← hpending] at hnext
          exact .after hheader (by simp) hproblem hbefore hnext hclauses
      | problem _ hnone _ =>
          rw [hheader] at hnone
          cases hnone
      | words _ hwords =>
          rw [← hweighted] at hafter
          obtain ⟨hheader', es, hes, hnext⟩ := hafter.words hwords
          rw [hweighted] at hnext
          refine .after (hheader'.trans hheader) (by simp) hproblem hbefore hnext ?_
          rw [hes, List.reverse_append, List.reverse_reverse, hclauses, List.append_assoc]

/-- **What a run of lines keeps.** -/
theorem ReadSoFar.of_run {r r' : Reading} {rest : List (List (List Char))}
    (h : Run LineStep r rest r') {lines : List (List (List Char))} (hlines : ReadSoFar lines r) :
    ReadSoFar (lines ++ rest) r' := by
  induction h generalizing lines with
  | nil => rwa [List.append_nil]
  | cons hstep _ ih =>
      have hnext := ih (hstep.readSoFar hlines)
      rwa [List.append_assoc] at hnext

/-! ### Clauses are read -/

/-- What reading a clause needs: it awaits no weight, and the open clause, or a new one, has the
given weight and literals. -/
structure Holds (r : Reading) (w : Float) (literals : List Literal) : Prop where
  open_ : r.isWeighted = true → r.pending ≠ none
  weight_eq : r.current.weight = w
  literals_eq : r.current.literals = literals
  seen_iff : ∀ l, l ∈ r.current.seen ↔ l ∈ literals

/-- A weight is read, and opens a clause where it is given. -/
theorem IsWeight.run {weighted : Bool} {front : List (List Char)} {w : Float}
    (h : IsWeight weighted front w) {r : Reading} (hweighted : r.isWeighted = weighted)
    (hpending : r.pending = none) :
    ∃ s, Run WordStep r front s ∧ s.header = r.header ∧ s.clauses = r.clauses ∧ Holds s w [] := by
  cases h with
  | unit =>
      refine ⟨r, .nil r, rfl, rfl, ?_, ?_, ?_, ?_⟩
      · intro htrue
        rw [hweighted] at htrue
        cases htrue
      all_goals simp [Reading.current, hpending, Pending.unit]
  | given hread hfinite hpos =>
      refine ⟨_, .cons (.weight hweighted hpending hread hfinite hpos) (.nil _), rfl, rfl, ?_⟩
      refine ⟨?_, rfl, rfl, ?_⟩
      · intro _ hnone
        cases hnone
      · simp [Reading.current]

/-- Literals of distinct new names are read. -/
theorem Holds.run_literals {r : Reading} {w : Float} {literals : List Literal}
    (h : Holds r w literals) {body : List (List Char)} {more : List Literal}
    (hbody : List.Forall₂ IsLiteral body more)
    (hdistinct : (more.map (·.name)).Nodup)
    (hnew : ∀ l ∈ more, l.name ∉ literals.map (·.name)) :
    ∃ s, Run WordStep r body s ∧ s.header = r.header ∧ s.clauses = r.clauses ∧
      Holds s w (more.reverse ++ literals) := by
  induction hbody generalizing r literals with
  | nil => exact ⟨r, .nil r, rfl, rfl, by simpa using h⟩
  | @cons word l body more hword _ ih =>
      obtain ⟨hl, hnodup⟩ := List.nodup_cons.1 hdistinct
      obtain ⟨hmem, hneg⟩ := Literal.name_notMem_iff.1 (hnew l List.mem_cons_self)
      have hstep : WordStep r word _ := .literal h.open_ hword (mt (h.seen_iff l).1 hmem)
        (mt (h.seen_iff l.negate).1 hneg)
      have hnext : Holds { r with
          pending := some ⟨r.current.weight, l :: r.current.literals, r.current.seen.insert l⟩ }
          w (l :: literals) := by
        refine ⟨?_, h.weight_eq, ?_, ?_⟩
        · intro _ hnone
          cases hnone
        · rw [← h.literals_eq]
          rfl
        · intro k
          rw [List.mem_cons, ← h.seen_iff k]
          exact Literal.mem_insert_iff
      obtain ⟨s, hrun, hheader, hclauses, hs⟩ := ih hnext hnodup (by
        intro k hk hname
        rcases List.mem_cons.1 hname with heq | hname
        · exact hl (heq ▸ List.mem_map_of_mem hk)
        · exact hnew k (List.mem_cons_of_mem l hk) hname)
      refine ⟨s, .cons hstep hrun, hheader, hclauses, ?_⟩
      rwa [List.reverse_cons, List.append_assoc, List.singleton_append]

/-- **A clause is read** where no clause is open. -/
theorem IsClause.run {weighted : Bool} {words : List (List Char)} {c : Clause}
    (h : IsClause weighted words c) {r : Reading} (hweighted : r.isWeighted = weighted)
    (hpending : r.pending = none) :
    Run WordStep r words ⟨r.header, c :: r.clauses, none⟩ := by
  cases h with
  | @mk front body last w literals hweight hbody hne hdistinct hlast =>
      obtain ⟨s, hfront, hheader, hclauses, hs⟩ := hweight.run hweighted hpending
      obtain ⟨t, hliterals, hheader', hclauses', ht⟩ :=
        hs.run_literals hbody hdistinct (by simp)
      rw [List.append_nil] at ht
      have hclose : WordStep t last _ :=
        .close ht.open_ hlast (by rw [ht.literals_eq]; simpa using hne)
      rw [ht.weight_eq, ht.literals_eq, List.reverse_reverse, hheader', hheader, hclauses',
        hclauses] at hclose
      exact (hfront.append hliterals).append (.cons hclose (.nil _))

/-- **Clauses are read**, one after the other. -/
theorem AreClauses.run {weighted : Bool} {words : List (List Char)} {cs : List Clause}
    (h : AreClauses weighted words cs) {r : Reading} (hweighted : r.isWeighted = weighted)
    (hpending : r.pending = none) :
    Run WordStep r words ⟨r.header, cs.reverse ++ r.clauses, none⟩ := by
  induction h generalizing r with
  | nil =>
      have hr : r = ⟨r.header, [].reverse ++ r.clauses, none⟩ := by
        rw [← hpending]
        rfl
      rw [← hr]
      exact .nil r
  | @cons words rest c cs hc _ ih =>
      have hrest := ih (r := ⟨r.header, c :: r.clauses, none⟩) hweighted rfl
      rw [List.reverse_cons, List.append_assoc]
      exact (hc.run hweighted hpending).append hrest

/-! ### Sections are read -/

/-- A run of words, cut into lines none of which looks like a comment or a problem line. -/
theorem run_lines_of_run_words {r r' : Reading} {group : List (List (List Char))}
    (h : Run WordStep r group.flatten r')
    (hmarks : ∀ word ∈ group.flatten, ∀ a, IsMark a → word.head? ≠ some a) :
    Run LineStep r group r' := by
  induction group generalizing r with
  | nil =>
      cases h
      exact .nil _
  | cons line group ih =>
      rw [List.flatten_cons] at h hmarks
      obtain ⟨s, hline, hrest⟩ := h.split
      refine .cons (.words ?_ hline) (ih hrest ?_)
      · intro _ first hfirst
        exact hmarks first (List.mem_append_left _ (List.mem_of_mem_head? hfirst))
      · intro word hword
        exact hmarks word (List.mem_append_right _ hword)

/-- **A section is read** where no clause is open. -/
theorem IsSection.run {weighted : Bool} {lines : List (List (List Char))} {cs : List Clause}
    (h : IsSection weighted lines cs) {r : Reading} (hweighted : r.isWeighted = weighted)
    (hpending : r.pending = none) :
    Run LineStep r lines ⟨r.header, cs.reverse ++ r.clauses, none⟩ := by
  induction h generalizing r with
  | nil =>
      have hr : r = ⟨r.header, [].reverse ++ r.clauses, none⟩ := by
        rw [← hpending]
        rfl
      rw [← hr]
      exact .nil r
  | comment hfirst _ ih => exact .cons (.comment hpending hfirst) (ih hweighted hpending)
  | @clauses group lines cs ds hgroup _ ih =>
      have hlines := run_lines_of_run_words (hgroup.run hweighted hpending) fun word hword a ha =>
        hgroup.head?_ne ha word hword
      have hrest := ih (r := ⟨r.header, cs.reverse ++ r.clauses, none⟩) hweighted rfl
      rw [List.reverse_append, List.append_assoc]
      exact hlines.append hrest

/-! ### The grammar -/

/-- The number of distinct names, two ways. -/
theorem length_distinctNames (clauses : List Clause) :
    (distinctNames clauses).length = (clauses.flatMap Clause.names).toFinset.card := by
  rw [← List.toFinset_card_of_nodup (nodup_distinctNames clauses)]
  congr 1
  ext name
  rw [List.mem_toFinset, List.mem_toFinset, mem_distinctNames, List.mem_flatMap]

/-- The greatest of a list of numbers, counted from a bound. -/
theorem isGreatest_foldl_max (n : Nat) (names : List Nat) :
    IsGreatest { m | m ∈ n :: names } (names.foldl max n) := by
  induction names generalizing n with
  | nil => simp [IsGreatest, upperBounds]
  | cons m names ih =>
      obtain ⟨hmem, hbound⟩ := ih (max n m)
      rw [List.foldl_cons]
      refine ⟨?_, ?_⟩
      · have hcases : max n m = n ∨ max n m = m := by omega
        rcases List.mem_cons.1 hmem with heq | hmem
        · rw [Set.mem_ofPred_eq, heq]
          rcases hcases with h | h <;> rw [h] <;> simp
        · exact List.mem_cons_of_mem n (List.mem_cons_of_mem m hmem)
      · intro k hk
        have hmax : max n m ≤ names.foldl max (max n m) := hbound List.mem_cons_self
        rcases List.mem_cons.1 hk with rfl | hk
        · omega
        · rcases List.mem_cons.1 hk with rfl | hk
          · omega
          · exact hbound (List.mem_cons_of_mem _ hk)

/-- The greatest name of clauses, two ways. -/
theorem isGreatest_largestNameOf {clauses : List Clause}
    (h : clauses.flatMap Clause.names ≠ []) :
    IsGreatest { name | name ∈ clauses.flatMap Clause.names } (Formula.largestNameOf clauses) := by
  obtain ⟨hmem, hbound⟩ := isGreatest_foldl_max 0 (clauses.flatMap Clause.names)
  refine ⟨?_, fun name hname => hbound (List.mem_cons_of_mem 0 hname)⟩
  rcases List.mem_cons.1 hmem with hzero | hmem
  · -- no name exceeds zero, so zero is the only one
    obtain ⟨name, hname⟩ := List.exists_mem_of_ne_nil _ h
    have hle := hbound (List.mem_cons_of_mem 0 hname)
    rw [hzero, Nat.le_zero] at hle
    rw [Set.mem_ofPred_eq, Formula.largestNameOf, hzero]
    exact hle ▸ hname
  · exact hmem

/-- **Soundness**: what is read is what the text denotes. -/
theorem Denotes.of_parseChars {text : List Char} {f : Formula} (h : parseChars text = .ok f) :
    Denotes text f := by
  rw [parseChars, parseLines, bind_eq_ok_iff] at h
  obtain ⟨p, hfold, hfinish⟩ := h
  obtain ⟨hpending, header, hheader, hcount, hnames, rfl⟩ := finish_eq_ok_iff.1 hfinish
  have hrun := exists_foldlM_line_iff.1 ⟨p, hfold, rfl⟩
  rw [← wordLines_eq_lines] at hrun
  rw [length_distinctNames] at hnames
  have hstart : ReadSoFar [] Progress.start.reading := .before rfl (inSection_nil _)
  have hread := ReadSoFar.of_run hrun hstart
  cases hread with
  | before hnone _ =>
      rw [show p.header = none from hnone] at hheader
      cases hheader
  | @after before after line header' cs ds hheader' hlines hline hbefore hafter hclauses =>
      obtain rfl : header' = header := Option.some_inj.1 (hheader'.symm.trans hheader)
      rw [show p.reading.pending = none from hpending] at hafter
      refine .mk hlines hline hbefore hafter.closed rfl rfl hclauses ?_ hnames ?_
      · rw [← hcount]
        exact List.length_reverse
      · refine isGreatest_largestNameOf ?_
        -- the problem line announces at least one name
        rintro (hnil : p.clauses.reverse.flatMap Clause.names = [])
        cases hline with
        | mk hcounted _ _ =>
            rw [← hnames, hnil] at hcounted
            exact absurd hcounted.2.1 (by decide)

/-- **Completeness**: a text of the grammar is read. -/
theorem Denotes.parseChars_eq_ok {text : List Char} {f : Formula} (h : Denotes text f) :
    parseChars text = .ok f := by
  cases h with
  | @mk before after line header cs ds hlines hline hbefore hafter hdialect htop hclauses hcount
      hnames hlargest =>
      have hrun : Run LineStep Progress.start.reading (wordLines text)
          ⟨some header, ds.reverse ++ (cs.reverse ++ []), none⟩ := by
        rw [hlines]
        exact (hbefore.run rfl rfl).append (.cons (.problem rfl rfl hline) (hafter.run rfl rfl))
      rw [wordLines_eq_lines] at hrun
      obtain ⟨p, hfold, hp⟩ := exists_foldlM_line_iff.2 hrun
      rw [parseChars, parseLines, bind_eq_ok_iff]
      refine ⟨p, hfold, finish_eq_ok_iff.2 ?_⟩
      have hread : p.clauses.reverse = f.clauses := by
        rw [show p.clauses = _ from congrArg Reading.clauses hp, hclauses]
        simp
      refine ⟨congrArg Reading.pending hp, header, congrArg Reading.header hp, ?_, ?_, ?_⟩
      · rw [← hcount, ← hread, List.length_reverse]
      · rw [hread, length_distinctNames, hnames]
      · have hne : f.clauses.flatMap Clause.names ≠ [] := List.ne_nil_of_mem hlargest.1
        have hgreatest := (isGreatest_largestNameOf hne).unique hlargest
        obtain ⟨dialect, largestName, top, clauses⟩ := f
        simp only at hdialect htop hread hgreatest
        rw [hread, Formula.ofClauses, hgreatest, hdialect, htop]

/-- **The reader accepts exactly the texts of the grammar**, and returns the formula that the text
denotes. -/
theorem parse_eq_ok_iff_denotes (text : String) (f : Formula) :
    parse text = .ok f ↔ Denotes text.toList f :=
  ⟨Denotes.of_parseChars, Denotes.parseChars_eq_ok⟩

end WeightedSat.Dimacs
