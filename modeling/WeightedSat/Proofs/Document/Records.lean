import WeightedSat.Document.Writer
import WeightedSat.Proofs.Document.Scalars

/-!
**Reading the arrays and records of a document.**

An array is read as the list of what its elements are read as, and refused where one of them is.  An
object is read member by member, each into the field of its key; what is read of a record follows
from what its members do to the fields.  Blanks between the parts change nothing, so that a document
on one line is read like one with a line for each element.

Main definitions:

* `WeightedSat.Document.Spacing`, `WeightedSat.Document.arranged` — **elements between brackets**;
* `WeightedSat.Document.inline` — elements between brackets on one line;
* `WeightedSat.Document.MemberAnswers`, `WeightedSat.Document.MembersRead` — **what a member, or the
  members of an object, do to the fields**.

Main results:

* `WeightedSat.Document.answers_readList` — arrays;
* `WeightedSat.Document.MembersRead.answers` — **records written as objects**.
-/

set_option relaxedAutoImplicit false
set_option autoImplicit false

namespace WeightedSat.Document

variable {α β δ : Type}

/-! ### Elements between brackets -/

/-- The elements after the first one, on the same line. -/
def trailing (items : List (List Char)) : List Char :=
  items.flatMap fun item => ',' :: ' ' :: item

/-- Elements between brackets on one line. -/
def inline (opening closing : Char) : List (List Char) → List Char
  | [] => [opening, closing]
  | item :: items => opening :: item ++ trailing items ++ [closing]

/-- The blanks between brackets: in front of the first element, behind each comma and behind the
last element. -/
structure Spacing where
  /-- In front of the first element. -/
  lead : List Char
  /-- Behind each comma. -/
  gap : List Char
  /-- Behind the last element. -/
  tail : List Char
  lead_blank : AreBlank lead
  gap_blank : AreBlank gap
  tail_blank : AreBlank tail

theorem areBlank_nil : AreBlank [] := by simp [AreBlank]

theorem areBlank_indent (depth : Nat) : AreBlank (indent depth) := by
  rw [indent, AreBlank, List.forall_mem_cons]
  refine ⟨rfl, ?_⟩
  intro a ha
  rw [List.eq_of_mem_replicate ha]
  rfl

/-- All elements on one line. -/
def Spacing.oneLine : Spacing :=
  ⟨[], [' '], [], areBlank_nil, by simp [AreBlank, Cursor.isSpace], areBlank_nil⟩

/-- A line for each element; `depth` is that of the brackets. -/
def Spacing.lines (depth : Nat) : Spacing :=
  ⟨indent (depth + 1), indent (depth + 1), indent depth, areBlank_indent _, areBlank_indent _,
    areBlank_indent _⟩

/-- The elements after the first one, each behind a comma. -/
def separated (gap : List Char) (items : List (List Char)) : List Char :=
  items.flatMap fun item => ',' :: gap ++ item

/-- What stands between the brackets, and the closing one. -/
def inside (closing : Char) (s : Spacing) : List (List Char) → List Char
  | [] => [closing]
  | item :: items => s.lead ++ item ++ separated s.gap items ++ s.tail ++ [closing]

/-- **Elements between brackets.** -/
def arranged (opening closing : Char) (s : Spacing) (items : List (List Char)) : List Char :=
  opening :: inside closing s items

theorem inline_eq_arranged (opening closing : Char) (items : List (List Char)) :
    inline opening closing items = arranged opening closing .oneLine items := by
  cases items with
  | nil => rfl
  | cons item items => simp [inline, arranged, inside, Spacing.oneLine, trailing, separated]

theorem bracketed_eq_arranged (depth : Nat) (opening closing : Char) (items : List (List Char)) :
    bracketed depth opening closing items = arranged opening closing (.lines depth) items := by
  cases items with
  | nil => rfl
  | cons item items => rfl

/-- What stands behind an element. -/
theorem delimited_separated (s : Spacing) (items : List (List Char)) (closing : Char)
    (hclosing : closing ∈ delimiters) (rest : List Char) :
    Delimited (separated s.gap items ++ (s.tail ++ closing :: rest)) := by
  intro c hc
  cases items with
  | cons item items =>
      cases hc
      decide
  | nil =>
      cases htail : s.tail with
      | nil =>
          rw [htail] at hc
          cases hc
          exact hclosing
      | cons a tail =>
          rw [htail] at hc
          cases hc
          exact mem_delimiters_of_isSpace (s.tail_blank c (htail ▸ List.mem_cons_self))

theorem length_le_separated (gap : List Char) (items : List (List Char)) :
    items.length ≤ (separated gap items).length := by
  induction items with
  | nil => exact Nat.le_refl 0
  | cons item items ih =>
      have hcons : separated gap (item :: items) = ',' :: gap ++ item ++ separated gap items := rfl
      rw [hcons, List.length_append, List.length_append, List.length_cons, List.length_cons]
      omega

theorem settle_close (bracket : Bracket) (a : α) (rest : List Char) (offset : Nat) :
    settle bracket (.ok a) ⟨bracket.closing :: rest, offset⟩ = .ok (a, ⟨rest, offset + 1⟩) := by
  cases bracket <;> rfl

/-! ### Arrays -/

/-- The text of an element: it starts with neither a blank nor the end of the array. -/
def StartsElement (item : List Char) : Prop :=
  ∃ a text, item = a :: text ∧ Cursor.isSpace a = false ∧ a ≠ ']'

theorem nextElement_first {item : List Char} (h : StartsElement item) {blanks : List Char}
    (hblanks : AreBlank blanks) (rest : List Char) (offset : Nat) :
    ∃ offset', nextElement true ⟨blanks ++ (item ++ rest), offset⟩ =
      .ok (true, ⟨item ++ rest, offset'⟩) := by
  obtain ⟨a, text, rfl, ha, hne⟩ := h
  obtain ⟨offset', hpeek⟩ := skipsSpace_peekNext.blanks hblanks (a :: text ++ rest) offset
  refine ⟨offset', ?_⟩
  rw [nextElement, bind_apply (hpeek.trans (peekNext_cons ha _ _))]
  simp only [if_true]
  rfl

theorem nextElement_comma {item : List Char} (h : StartsElement item) {blanks : List Char}
    (hblanks : AreBlank blanks) (rest : List Char) (offset : Nat) :
    ∃ offset', nextElement false ⟨',' :: (blanks ++ (item ++ rest)), offset⟩ =
      .ok (true, ⟨item ++ rest, offset'⟩) := by
  obtain ⟨a, text, rfl, ha, hne⟩ := h
  obtain ⟨offset', hpeek⟩ := skipsSpace_peekNext.blanks hblanks (a :: text ++ rest) (offset + 1)
  refine ⟨offset', ?_⟩
  have hadvance : advance ⟨',' :: (blanks ++ (a :: text ++ rest)), offset⟩ =
      .ok ((), ⟨blanks ++ (a :: text ++ rest), offset + 1⟩) := rfl
  rw [nextElement, bind_apply (peekNext_cons (by decide) _ _)]
  refine (bind_apply hadvance _).trans ?_
  rw [bind_apply (hpeek.trans (peekNext_cons ha _ _))]
  simp only
  rfl

theorem nextElement_close (first : Bool) {blanks : List Char} (hblanks : AreBlank blanks)
    (rest : List Char) (offset : Nat) :
    ∃ offset', nextElement first ⟨blanks ++ ']' :: rest, offset⟩ =
      .ok (false, ⟨']' :: rest, offset'⟩) := by
  obtain ⟨offset', hpeek⟩ := skipsSpace_peekNext.blanks hblanks (']' :: rest) offset
  refine ⟨offset', ?_⟩
  rw [nextElement, bind_apply (hpeek.trans (peekNext_cons (by decide) _ _))]
  rfl

section Array

variable {element : Reader α} {write : β → List Char} {answer : β → Option α} {s : Spacing}

/-- One more element. -/
theorem ends_listStep_more {item : List Char} {answer : Option α} (h : Answers element item answer)
    {read : List α} {c : Cursor} {rest : List Char} {offset : Nat} (hrest : Delimited rest)
    (hnext : nextElement read.isEmpty c = .ok (true, ⟨item ++ rest, offset⟩)) :
    Ends (listStep element read) c rest (answer.map fun a => Sum.inl (a :: read)) := by
  rw [listStep]
  refine .of_eq (bind_apply hnext _) ?_
  rw [if_pos rfl]
  exact (h rest offset hrest).map fun a => Sum.inl (a :: read)

/-- The end of an array. -/
theorem ends_listStep_done {read : List α} {c : Cursor} {rest : List Char} {offset : Nat}
    (hnext : nextElement read.isEmpty c = .ok (false, ⟨rest, offset⟩)) :
    Ends (listStep element read) c rest (some (.inr read.reverse)) := by
  rw [listStep]
  exact .value (bind_apply hnext _)

/-- One more element, and then the others. -/
theorem ends_loopWithin_listStep_cons {x : β} {xs : List β} {read : List α} {c : Cursor}
    {rest last : List Char} {n : Nat}
    (hstep : Ends (listStep element read) c rest ((answer x).map fun a => Sum.inl (a :: read)))
    (hlater : ∀ a offset, Ends (loopWithin (listStep element) n (a :: read)) ⟨rest, offset⟩ last
      ((xs.mapM answer).map ((a :: read).reverse ++ ·))) :
    Ends (loopWithin (listStep element) (n + 1) read) c last
      (((x :: xs).mapM answer).map (read.reverse ++ ·)) := by
  rw [List.mapM_cons]
  cases hanswer : answer x with
  | none =>
      rw [hanswer] at hstep
      exact hstep.loopWithin_failed n last
  | some a =>
      rw [hanswer] at hstep
      refine hstep.loopWithin_next fun offset => ?_
      have hend := hlater a offset
      cases hvalues : xs.mapM answer with
      | none => simpa [hvalues] using hend
      | some values => simpa [hvalues] using hend

/-- The elements after the first one. -/
theorem ends_loopWithin_listStep {xs : List β}
    (h : ∀ x ∈ xs, StartsElement (write x) ∧ Answers element (write x) (answer x))
    {read : List α} (hread : read ≠ []) (rest : List Char) (offset : Nat) {n : Nat}
    (hn : xs.length < n) :
    Ends (loopWithin (listStep element) n read)
      ⟨separated s.gap (xs.map write) ++ (s.tail ++ ']' :: rest), offset⟩ (']' :: rest)
      ((xs.mapM answer).map (read.reverse ++ ·)) := by
  obtain ⟨n, rfl⟩ : ∃ m, n = m + 1 := ⟨n - 1, by omega⟩
  induction xs generalizing read offset n with
  | nil =>
      obtain ⟨_, hnext⟩ := nextElement_close read.isEmpty s.tail_blank rest offset
      rw [List.mapM_nil, Option.pure_def, Option.map_some, List.append_nil]
      exact (ends_listStep_done hnext).loopWithin_done n
  | cons x xs ih =>
      obtain ⟨⟨hstarts, hanswers⟩, hothers⟩ := List.forall_mem_cons.1 h
      rw [List.length_cons] at hn
      obtain ⟨n, rfl⟩ : ∃ m, n = m + 1 := ⟨n - 1, by omega⟩
      have htext : separated s.gap ((x :: xs).map write) ++ (s.tail ++ ']' :: rest) =
          ',' :: (s.gap ++ (write x ++ (separated s.gap (xs.map write) ++
            (s.tail ++ ']' :: rest)))) := by
        simp [separated]
      obtain ⟨_, hnext⟩ := nextElement_comma hstarts s.gap_blank
        (separated s.gap (xs.map write) ++ (s.tail ++ ']' :: rest)) offset
      have hfirst : read.isEmpty = false := by simpa using hread
      have hdelimited := delimited_separated s (xs.map write) ']' (by decide) rest
      rw [htext]
      refine ends_loopWithin_listStep_cons
        (ends_listStep_more hanswers hdelimited (hfirst.symm ▸ hnext)) fun a offset' => ?_
      exact ih hothers (List.cons_ne_nil a read) offset' n (by omega)

/-- The elements of an array. -/
theorem ends_loop_listStep {xs : List β}
    (h : ∀ x ∈ xs, StartsElement (write x) ∧ Answers element (write x) (answer x))
    (rest : List Char) (offset : Nat) :
    Ends (loop (listStep element) []) ⟨inside ']' s (xs.map write) ++ rest, offset⟩ (']' :: rest)
      (xs.mapM answer) := by
  refine .of_eq (y := loopWithin (listStep element) _ []) rfl ?_
  cases xs with
  | nil =>
      obtain ⟨_, hnext⟩ := nextElement_close true areBlank_nil rest offset
      have hstep : Ends (listStep element []) _ _ _ := ends_listStep_done hnext
      exact hstep.loopWithin_done _
  | cons x xs =>
      obtain ⟨⟨hstarts, hanswers⟩, hothers⟩ := List.forall_mem_cons.1 h
      have htext : inside ']' s ((x :: xs).map write) ++ rest =
          s.lead ++ (write x ++ (separated s.gap (xs.map write) ++ (s.tail ++ ']' :: rest))) := by
        simp [inside]
      obtain ⟨_, hnext⟩ := nextElement_first hstarts s.lead_blank
        (separated s.gap (xs.map write) ++ (s.tail ++ ']' :: rest)) offset
      have hdelimited := delimited_separated s (xs.map write) ']' (by decide) rest
      have hstep : Ends (listStep element []) _ _ _ :=
        ends_listStep_more hanswers hdelimited hnext
      have hlength := length_le_separated s.gap (xs.map write)
      rw [List.length_map] at hlength
      rw [htext]
      have hend := ends_loopWithin_listStep_cons hstep fun a offset' =>
        ends_loopWithin_listStep hothers (List.cons_ne_nil a []) rest offset'
          (show xs.length < (s.lead ++ (write x ++ (separated s.gap (xs.map write) ++
            (s.tail ++ ']' :: rest)))).length by
              simp only [List.length_append, List.length_cons]; omega)
      simpa using hend

/-- **An array is read** as what its elements are read as, and refused where one of them is. -/
theorem answers_readList {xs : List β}
    (h : ∀ x ∈ xs, StartsElement (write x) ∧ Answers element (write x) (answer x)) :
    Answers (readList element) (arranged '[' ']' s (xs.map write)) (xs.mapM answer) := by
  intro rest offset _
  have hadvance : advance ⟨arranged '[' ']' s (xs.map write) ++ rest, offset⟩ =
      .ok ((), ⟨inside ']' s (xs.map write) ++ rest, offset + 1⟩) := rfl
  rw [← Option.bind_fun_some (xs.mapM answer)]
  refine .of_eq (bind_apply (peekNext_cons (by decide) _ _) _) ?_
  refine .of_eq (bind_apply hadvance _) ?_
  refine (ends_loop_listStep h rest (offset + 1)).bind ?_
  exact fun values offset' _ => .value (settle_close .list values rest offset')

theorem skipsSpace_readList (element : Reader α) : SkipsSpace (readList element) :=
  skipsSpace_peekNext.bind _

end Array

/-! ### Records -/

/-- A member of an object. -/
def inlineMember (member : List Char × List Char) : List Char :=
  quoted member.1 ++ ':' :: ' ' :: member.2

theorem nextKey_first {blanks : List Char} (hblanks : AreBlank blanks) (rest : List Char)
    (offset : Nat) :
    ∃ offset', nextKey true ⟨blanks ++ '"' :: rest, offset⟩ = .ok (true, ⟨rest, offset'⟩) := by
  obtain ⟨offset', hpeek⟩ := skipsSpace_peekNext.blanks hblanks ('"' :: rest) offset
  refine ⟨offset' + 1, ?_⟩
  rw [nextKey, bind_apply (hpeek.trans (peekNext_cons (by decide) _ _))]
  rfl

theorem nextKey_comma {blanks : List Char} (hblanks : AreBlank blanks) (rest : List Char)
    (offset : Nat) :
    ∃ offset', nextKey false ⟨',' :: (blanks ++ '"' :: rest), offset⟩ =
      .ok (true, ⟨rest, offset'⟩) := by
  obtain ⟨offset', hpeek⟩ := skipsSpace_peekNext.blanks hblanks ('"' :: rest) (offset + 1)
  have hadvance : advance ⟨',' :: (blanks ++ '"' :: rest), offset⟩ =
      .ok ((), ⟨blanks ++ '"' :: rest, offset + 1⟩) := rfl
  refine ⟨offset' + 1, ?_⟩
  rw [nextKey, bind_apply (peekNext_cons (by decide) _ _)]
  refine (bind_apply hadvance _).trans ?_
  rw [bind_apply (hpeek.trans (peekNext_cons (by decide) _ _))]
  rfl

theorem nextKey_close (first : Bool) {blanks : List Char} (hblanks : AreBlank blanks)
    (rest : List Char) (offset : Nat) :
    ∃ offset', nextKey first ⟨blanks ++ '\x7d' :: rest, offset⟩ =
      .ok (false, ⟨'\x7d' :: rest, offset'⟩) := by
  obtain ⟨offset', hpeek⟩ := skipsSpace_peekNext.blanks hblanks ('\x7d' :: rest) offset
  refine ⟨offset', ?_⟩
  rw [nextKey, bind_apply (hpeek.trans (peekNext_cons (by decide) _ _))]
  rfl

theorem readColon_eq (rest : List Char) (offset : Nat) :
    readColon ⟨':' :: rest, offset⟩ = .ok ((), ⟨rest, offset + 1⟩) := by
  rw [readColon, bind_apply (peekNext_cons (by decide) _ _)]
  rfl

/-- What a member does to the fields: it is read into the field of its key, which has not been read
before. -/
structure MemberAnswers (field? : List Char → Option (FieldReader δ)) (fields : δ)
    (member : List Char × List Char) (answer : Option δ) : Prop where
  plain : ArePlain member.1
  answers : ∃ f, field? member.1 = some f ∧ f.isRead fields = false ∧
    Answers (f.read fields) (' ' :: member.2) answer

/-- **What the members of an object do to the fields**, up to one that is refused. -/
inductive MembersRead (field? : List Char → Option (FieldReader δ)) :
    δ → List (List Char × List Char) → Option δ → Prop
  | nil (fields : δ) : MembersRead field? fields [] (some fields)
  | cons {fields next : δ} {last : Option δ} {member : List Char × List Char}
      {members : List (List Char × List Char)}
      (hmember : MemberAnswers field? fields member (some next))
      (hrest : MembersRead field? next members last) :
      MembersRead field? fields (member :: members) last
  | refused {fields : δ} {member : List Char × List Char} {members : List (List Char × List Char)}
      (hmember : MemberAnswers field? fields member none) :
      MembersRead field? fields (member :: members) none

section Object

variable {field? : List Char → Option (FieldReader δ)} {s : Spacing}

/-- A member whose value is read into a field of its own. -/
theorem MemberAnswers.of_value {γ : Type} {fields : δ} {f : FieldReader δ} {key value : List Char}
    {reader : Reader γ} {set : γ → δ} {answer : Option γ} (hplain : ArePlain key)
    (hfield : field? key = some f) (hnew : f.isRead fields = false)
    (hread : f.read fields = do return set (← reader)) (hvalue : Answers reader value answer)
    (hskip : SkipsSpace reader) :
    MemberAnswers field? fields (key, value) (answer.map set) := by
  refine ⟨hplain, f, hfield, hnew, ?_⟩
  rw [hread]
  exact (hvalue.map set).space (hskip.bind _)

/-- After the last member there is nothing left to read. -/
theorem MemberAnswers.membersRead {fields : δ} {member : List Char × List Char}
    {answer : Option δ} (h : MemberAnswers field? fields member answer) :
    MembersRead field? fields [member] answer := by
  cases answer with
  | none => exact .refused h
  | some next => exact .cons h (.nil next)

/-- One more member, from its key on. -/
theorem MemberAnswers.ends_memberStep {fields : δ} {answer : Option δ} {key value : List Char}
    (h : MemberAnswers field? fields (key, value) answer) {first : Bool} {c : Cursor}
    {rest : List Char} {offset : Nat} (hrest : Delimited rest)
    (hnext : nextKey first c =
      .ok (true, ⟨key ++ '"' :: ':' :: (' ' :: value ++ rest), offset⟩)) :
    Ends (memberStep field? (first, fields)) c rest
      ((answer.map fun next => (false, next)).map Sum.inl) := by
  obtain ⟨f, hfield, hnew, hread⟩ := h.answers
  obtain ⟨offset₁, hstring⟩ := readString_plain h.plain (':' :: (' ' :: value ++ rest)) offset
  rw [memberStep, Option.map_map]
  refine .of_eq (bind_apply hnext _) ?_
  rw [if_pos rfl]
  refine .of_eq (bind_apply hstring _) ?_
  rw [hfield]
  simp only [hnew, Bool.false_eq_true, if_false]
  refine .of_eq (bind_apply (readColon_eq _ _) _) ?_
  exact (hread rest (offset₁ + 1) hrest).map fun next => Sum.inl (false, next)

/-- A member in its text. -/
theorem inlineMember_append (key value rest : List Char) :
    inlineMember (key, value) ++ rest =
      '"' :: (key ++ '"' :: ':' :: (' ' :: value ++ rest)) := by
  simp [inlineMember, quoted]

/-- The first member. -/
theorem MemberAnswers.ends_first {fields : δ} {member : List Char × List Char} {answer : Option δ}
    (h : MemberAnswers field? fields member answer) {rest : List Char} (hrest : Delimited rest)
    (offset : Nat) :
    Ends (memberStep field? (true, fields)) ⟨s.lead ++ (inlineMember member ++ rest), offset⟩ rest
      ((answer.map fun next => (false, next)).map Sum.inl) := by
  obtain ⟨key, value⟩ := member
  rw [inlineMember_append]
  obtain ⟨_, hnext⟩ := nextKey_first s.lead_blank
    (key ++ '"' :: ':' :: (' ' :: value ++ rest)) offset
  exact h.ends_memberStep hrest hnext

/-- A member after another one. -/
theorem MemberAnswers.ends_comma {fields : δ} {member : List Char × List Char} {answer : Option δ}
    (h : MemberAnswers field? fields member answer) {rest : List Char} (hrest : Delimited rest)
    (offset : Nat) :
    Ends (memberStep field? (false, fields))
      ⟨',' :: (s.gap ++ (inlineMember member ++ rest)), offset⟩ rest
      ((answer.map fun next => (false, next)).map Sum.inl) := by
  obtain ⟨key, value⟩ := member
  rw [inlineMember_append]
  obtain ⟨_, hnext⟩ := nextKey_comma s.gap_blank
    (key ++ '"' :: ':' :: (' ' :: value ++ rest)) offset
  exact h.ends_memberStep hrest hnext

/-- The end of an object. -/
theorem ends_memberStep_done {first : Bool} {fields : δ} {c : Cursor} {rest : List Char}
    {offset : Nat} (hnext : nextKey first c = .ok (false, ⟨rest, offset⟩)) :
    Ends (memberStep field? (first, fields)) c rest (some (.inr (.ok fields))) := by
  rw [memberStep]
  exact .value (bind_apply hnext _)

/-- The members after the first one. -/
theorem MembersRead.ends_loopWithin {fields : δ} {last : Option δ}
    {members : List (List Char × List Char)} (h : MembersRead field? fields members last)
    (rest : List Char) (offset : Nat) {n : Nat} (hn : members.length < n) :
    Ends (loopWithin (memberStep field?) n (false, fields))
      ⟨separated s.gap (members.map inlineMember) ++ (s.tail ++ '\x7d' :: rest), offset⟩
      ('\x7d' :: rest) (last.map .ok) := by
  obtain ⟨n, rfl⟩ : ∃ m, n = m + 1 := ⟨n - 1, by omega⟩
  have htext : ∀ member (members : List (List Char × List Char)),
      separated s.gap ((member :: members).map inlineMember) ++ (s.tail ++ '\x7d' :: rest) =
        ',' :: (s.gap ++ (inlineMember member ++
          (separated s.gap (members.map inlineMember) ++ (s.tail ++ '\x7d' :: rest)))) := by
    intro member members
    simp [separated]
  have hdelimited := fun members : List (List Char × List Char) =>
    delimited_separated s (members.map inlineMember) '\x7d' (by decide) rest
  induction h generalizing offset n with
  | nil fields =>
      obtain ⟨_, hnext⟩ := nextKey_close false s.tail_blank rest offset
      exact (ends_memberStep_done hnext).loopWithin_done n
  | cons hmember _ ih =>
      rw [List.length_cons] at hn
      obtain ⟨n, rfl⟩ : ∃ m, n = m + 1 := ⟨n - 1, by omega⟩
      rw [htext]
      refine (hmember.ends_comma (hdelimited _) offset).loopWithin_next fun offset' => ?_
      exact ih offset' n (by omega)
  | refused hmember =>
      rw [htext]
      exact (hmember.ends_comma (hdelimited _) offset).loopWithin_failed n _

/-- The members of an object. -/
theorem MembersRead.ends_loop {fields : δ} {last : Option δ}
    {members : List (List Char × List Char)} (h : MembersRead field? fields members last)
    (rest : List Char) (offset : Nat) :
    Ends (loop (memberStep field?) (true, fields))
      ⟨inside '\x7d' s (members.map inlineMember) ++ rest, offset⟩ ('\x7d' :: rest)
      (last.map .ok) := by
  refine .of_eq (y := loopWithin (memberStep field?) _ (true, fields)) rfl ?_
  have htext : ∀ member (members : List (List Char × List Char)),
      inside '\x7d' s ((member :: members).map inlineMember) ++ rest =
        s.lead ++ (inlineMember member ++
          (separated s.gap (members.map inlineMember) ++ (s.tail ++ '\x7d' :: rest))) := by
    intro member members
    simp [inside]
  have hdelimited := fun members : List (List Char × List Char) =>
    delimited_separated s (members.map inlineMember) '\x7d' (by decide) rest
  cases h with
  | nil =>
      obtain ⟨_, hnext⟩ := nextKey_close true areBlank_nil rest offset
      exact (ends_memberStep_done hnext).loopWithin_done _
  | @cons _ _ _ _ members hmember hrest =>
      have hlength := length_le_separated s.gap (members.map inlineMember)
      rw [List.length_map] at hlength
      rw [htext]
      refine (hmember.ends_first (hdelimited _) offset).loopWithin_next fun offset' => ?_
      refine hrest.ends_loopWithin rest offset' ?_
      simp only [List.length_append, List.length_cons]
      omega
  | refused hmember =>
      rw [htext]
      exact (hmember.ends_first (hdelimited _) offset).loopWithin_failed _ _

/-- **A record written as an object is read** where its members give all its fields. -/
theorem MembersRead.answers {record : RecordReader δ α} {members : List (List Char × List Char)}
    {fields? : Option δ} (h : MembersRead record.field? record.none members fields?) :
    Answers record.read (arranged '\x7b' '\x7d' s (members.map inlineMember))
      (fields?.bind fun fields => (record.finish fields).toOption) := by
  intro rest offset _
  have hadvance : advance ⟨arranged '\x7b' '\x7d' s (members.map inlineMember) ++ rest, offset⟩ =
      .ok ((), ⟨inside '\x7d' s (members.map inlineMember) ++ rest, offset + 1⟩) := rfl
  have hanswer : (fields?.bind fun fields => (record.finish fields).toOption) =
      (fields?.map Except.ok).bind fun fields => (fields.bind record.finish).toOption := by
    cases fields? <;> rfl
  rw [hanswer]
  refine .of_eq (bind_apply (peekNext_cons (by decide) _ _) _) ?_
  refine .of_eq (bind_apply hadvance _) ?_
  refine (h.ends_loop rest (offset + 1)).bind fun fields offset' _ => ?_
  cases hfinish : fields.bind record.finish with
  | ok a => exact .value (settle_close .object a rest offset')
  | error defect => exact .failure rfl

theorem skipsSpace_record (record : RecordReader δ α) : SkipsSpace record.read :=
  skipsSpace_peekNext.bind _

end Object

end WeightedSat.Document
