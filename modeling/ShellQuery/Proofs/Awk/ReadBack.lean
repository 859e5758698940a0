import Mathlib.Tactic.NormNum
import ShellQuery.Proofs.Awk.Reader
import ShellQuery.Proofs.Table.Rows

/-!
# A filter step says what its condition says

The text of a condition in a filter step, read by awk, is the condition again: the same comparisons
between the fields at the positions of its columns and the values of its literals, combined in the
same way.

Reading back goes through the lexemes of an expression. `spells_text` says that they are the ones of
the text, whatever the strings in it contain; `readTest_lexemes` that they are read as the expression,
as every conjunction and every disjunction in it has parentheses and two parts at least
(`Formula.Compact`).
-/

namespace ShellQuery

/-! ### What a condition says in awk -/

namespace Awk

/-- What awk compares: the text of a field, or a constant. -/
inductive Value where
  | field (text : String)
  | constant (value : Constant)

/-- The value of one side of a comparison on a row. -/
def Primary.value (row : Row) : Primary → Value
  | field p => .field (row.field p)
  | constant k => .constant k

/-- Whether a row passes a condition, given how values compare. -/
def Expression.holds (compare : Operator → Value → Value → Bool) (row : Row) (e : Expression) :
    Bool :=
  Formula.holds (fun r => compare r.operator (r.left.value row) (r.right.value row)) e

end Awk

variable {ε : Type}

/-- An operand with its column replaced by a position and its literal by a value. -/
def Operand.primary (position : ColumnName → Except ε Nat) (value : String → Awk.Constant) :
    Operand → Except ε Awk.Primary
  | column n => (position n).map .field
  | literal l => .ok (.constant (value l))

/-- The value of an operand on a row. A column without a position has no field. -/
def Operand.value (position : ColumnName → Except ε Nat) (value : String → Awk.Constant)
    (row : Row) : Operand → Awk.Value
  | column n =>
    match position n with
    | .ok p => .field (row.field p)
    | .error _ => .field ""
  | literal l => .constant (value l)

/-- A comparison with its columns replaced by positions and its literals by values. -/
def Comparison.relational (position : ColumnName → Except ε Nat) (value : String → Awk.Constant)
    (c : Comparison) : Except ε Awk.Relational := do
  let left ← c.left.primary position value
  let right ← c.right.primary position value
  return ⟨left, c.operator, right⟩

namespace Condition

/-- A condition with its columns replaced by positions and its literals by values. -/
def expression (position : ColumnName → Except ε Nat) (value : String → Awk.Constant)
    (c : Condition) : Except ε Awk.Expression :=
  Formula.mapM (Comparison.relational position value) c

/-- Whether a row passes a condition, given how values compare. -/
def holdsAt (compare : Operator → Awk.Value → Awk.Value → Bool)
    (position : ColumnName → Except ε Nat) (value : String → Awk.Constant) (row : Row)
    (c : Condition) : Bool :=
  Formula.holds (fun a => compare a.operator (a.left.value position value row)
    (a.right.value position value row)) c

end Condition

variable {position : ColumnName → Except ε Nat} {value : String → Awk.Constant}

/-- A comparison is read side by side with its operator. -/
theorem Comparison.relational_ok_iff {c : Comparison} {r : Awk.Relational} :
    c.relational position value = .ok r ↔ c.left.primary position value = .ok r.left ∧
      c.operator = r.operator ∧ c.right.primary position value = .ok r.right := by
  rw [relational, bind_ok_iff]
  constructor
  · rintro ⟨x, hx, h⟩
    obtain ⟨y, hy, h⟩ := bind_ok_iff.1 h
    obtain rfl := pure_ok_iff.1 h
    exact ⟨hx, rfl, hy⟩
  · rintro ⟨hx, ho, hy⟩
    exact ⟨_, hx, bind_ok_iff.2 ⟨_, hy, by rw [ho]; rfl⟩⟩

/-- What an operand is read as has the value of the operand in every row. -/
theorem Operand.value_of_primary {x : Operand} {p : Awk.Primary}
    (h : x.primary position value = .ok p) (row : Row) :
    p.value row = x.value position value row := by
  cases x with
  | column n =>
    obtain ⟨i, hi, rfl⟩ := map_ok_iff.1 h
    simp [Operand.value, Awk.Primary.value, hi]
  | literal l =>
    obtain rfl := Except.ok.inj h
    rfl

/-- The expression of a condition has its value on every row. -/
theorem Condition.holds_of_expression {c : Condition} {e : Awk.Expression}
    (h : c.expression position value = .ok e)
    (compare : Operator → Awk.Value → Awk.Value → Bool) (row : Row) :
    e.holds compare row = c.holdsAt compare position value row := by
  refine Formula.holds_of_mapM h fun a _ r hr => ?_
  obtain ⟨hl, ho, hr⟩ := Comparison.relational_ok_iff.1 hr
  simp only [Operand.value_of_primary hl, Operand.value_of_primary hr, ho]

/-! ### The lexemes of an expression -/

namespace Awk

mutual

/-- The lexemes of an expression: every conjunction and disjunction stands in parentheses. -/
def lexemes : Expression → List Lexeme
  | .atom r => [.primary r.left, .operator r.operator, .primary r.right]
  | .all es => .openParen :: ([.and].intercalate (lexemesList es) ++ [.closeParen])
  | .any es => .openParen :: ([.or].intercalate (lexemesList es) ++ [.closeParen])

/-- The lexemes of some expressions. -/
def lexemesList : List Expression → List (List Lexeme)
  | [] => []
  | e :: es => lexemes e :: lexemesList es

end

theorem lexemesList_eq (es : List Expression) : lexemesList es = es.map lexemes := by
  induction es with
  | nil => rfl
  | cons e es ih => rw [lexemesList, ih, List.map_cons]

/-- A text spells some lexemes: they are read off it, whatever follows it in a condition. -/
def Spells (text : List Char) (ls : List Lexeme) : Prop :=
  ∀ rest, Ends rest → lex (text ++ rest) = (lex rest).map (ls ++ ·)

theorem ends_blank (rest : List Char) : Ends (' ' :: rest) := rfl

/-- A text between parentheses is read between parentheses. -/
theorem spells_parenthesized {text : String} {ls : List Lexeme} (h : Spells text.toList ls) :
    Spells ("(" ++ text ++ ")").toList (.openParen :: (ls ++ [.closeParen])) := by
  intro rest hrest
  have htext : ("(" ++ text ++ ")").toList ++ rest = '(' :: (text.toList ++ ')' :: rest) := by simp
  rw [htext, lex_of_next rfl rfl, h (')' :: rest) rfl, lex_of_next rfl rfl]
  simp [Option.map_map, Function.comp_def]

/-- Texts with a connective between them spell lexemes with the connective between them. -/
theorem spells_intercalate (sep : String) {s : Lexeme} (hends : ∀ rest, Ends (sep.toList ++ rest))
    (hsep : ∀ rest, lex (sep.toList ++ rest) = (lex rest).map (s :: ·)) {texts : List String}
    {lss : List (List Lexeme)} (h : List.Forall₂ (fun text ls => Spells text.toList ls) texts lss) :
    Spells (sep.intercalate texts).toList ([s].intercalate lss) := by
  intro rest hrest
  induction h with
  | nil => simp
  | @cons text ls texts lss hhead htail ih =>
    cases htail with
    | nil => simpa using hhead rest hrest
    | @cons text' ls' texts lss hhead' htail =>
      rw [String.intercalate_cons_cons, String.toList_append, String.toList_append,
        List.append_assoc, List.append_assoc, hhead _ (hends _), hsep, ih]
      simp [List.intercalate, Option.map_map, Function.comp_def]

variable {texts : List String} {lss : List (List Lexeme)}

/-- Texts with conjunctions between them are read with conjunctions between them. -/
theorem spells_conjunction
    (h : List.Forall₂ (fun text ls => Spells text.toList ls) texts lss) :
    Spells (" && ".intercalate texts).toList ([.and].intercalate lss) := by
  refine spells_intercalate " && " (fun rest => ends_blank _) (fun rest => ?_) h
  show lex (' ' :: '&' :: '&' :: ' ' :: rest) = _
  rw [lex_gap rfl, lex_of_next rfl rfl, lex_gap rfl]

/-- Texts with disjunctions between them are read with disjunctions between them. -/
theorem spells_disjunction
    (h : List.Forall₂ (fun text ls => Spells text.toList ls) texts lss) :
    Spells (" || ".intercalate texts).toList ([.or].intercalate lss) := by
  refine spells_intercalate " || " (fun rest => ends_blank _) (fun rest => ?_) h
  show lex (' ' :: '|' :: '|' :: ' ' :: rest) = _
  rw [lex_gap rfl, lex_of_next rfl rfl, lex_gap rfl]

/-! ### The lexemes of a text -/

/-- An operand is read as a single lexeme. -/
theorem spells_operand {x : Operand} {y : FieldOperand} {p : Primary}
    (hy : Condition.resolveOperand position x = .ok y) (hp : x.primary position value = .ok p)
    (hx : ∀ l, x = .literal l → Denotes l (value l) ∧ '\n' ∉ l.toList) :
    Spells y.text.toList [.primary p] := by
  intro rest hrest
  cases x with
  | column n =>
    obtain ⟨i, hi, rfl⟩ := map_ok_iff.1 hy
    obtain ⟨j, hj, rfl⟩ := map_ok_iff.1 hp
    obtain rfl := Except.ok.inj (hi.symm.trans hj)
    exact lex_fieldRef hrest i
  | literal l =>
    obtain rfl := Except.ok.inj hy
    obtain rfl := Except.ok.inj hp
    exact (hx l rfl).1.lex_literal (hx l rfl).2 hrest

/-- A comparison is read as its two sides with the operator between them. -/
theorem spells_comparison {c : Comparison} {test : FieldTest} {r : Relational}
    (htest : Condition.resolveComparison position c = .ok test)
    (hr : c.relational position value = .ok r)
    (hc : ∀ l ∈ c.literals, Denotes l (value l) ∧ '\n' ∉ l.toList) :
    Spells test.text.toList (lexemes (.atom r)) := by
  obtain ⟨x, y, hx, hy, rfl⟩ := Condition.resolveComparison_ok_iff.1 htest
  obtain ⟨hleft, ho, hright⟩ := Comparison.relational_ok_iff.1 hr
  have hspellsLeft := spells_operand hx hleft fun l hl =>
    hc l (Comparison.mem_literals_iff.2 (.inl hl))
  have hspellsRight := spells_operand hy hright fun l hl =>
    hc l (Comparison.mem_literals_iff.2 (.inr hl))
  intro rest hrest
  have htext : (FieldTest.compare x c.operator y).text.toList ++ rest =
      x.text.toList ++ (' ' :: (c.operator.symbol.toList ++ ' ' :: (y.text.toList ++ rest))) := by
    simp [FieldTest.text]
  rw [htext, hspellsLeft _ (ends_blank _), lex_gap rfl, lex_symbol, hspellsRight rest hrest, ho]
  simp [lexemes, Option.map_map, Function.comp_def]

/-- The text of a condition spells the lexemes of its expression. -/
theorem spells_text {c : Condition} {test : RowTest} {e : Expression}
    (htest : Condition.resolve position c = .ok test) (he : c.expression position value = .ok e)
    (hc : ∀ a ∈ Formula.atoms c, ∀ l ∈ a.literals, Denotes l (value l) ∧ '\n' ∉ l.toList) :
    Spells test.text.toList (lexemes e) := by
  -- the parts of a conjunction or disjunction are spelled one by one
  have hparts : ∀ {ps : List Condition} {tests : List RowTest} {es : List Expression},
      (∀ p ∈ ps, ∀ {test : RowTest} {e : Expression}, Condition.resolve position p = .ok test →
        Condition.expression position value p = .ok e →
        (∀ a ∈ Formula.atoms p, ∀ l ∈ a.literals, Denotes l (value l) ∧ '\n' ∉ l.toList) →
        Spells test.text.toList (lexemes e)) →
      ps.mapM (Formula.mapM (Condition.resolveComparison position)) = .ok tests →
      ps.mapM (Formula.mapM (Comparison.relational position value)) = .ok es →
      (∀ a ∈ ps.flatMap Formula.atoms, ∀ l ∈ a.literals,
        Denotes l (value l) ∧ '\n' ∉ l.toList) →
      List.Forall₂ (fun text ls => Spells text.toList ls) (Formula.textList wording tests)
        (lexemesList es) := by
    intro ps tests es ih htests hes hps
    rw [Formula.textList_eq, lexemesList_eq, List.forall₂_map_left_iff,
      List.forall₂_map_right_iff]
    refine (forall₂_of_common (mapM_ok_iff.1 htests) (mapM_ok_iff.1 hes)).imp ?_
    rintro test e ⟨p, hp, htest, he⟩
    exact ih p hp htest he fun a ha => hps a (List.mem_flatMap.2 ⟨p, hp, ha⟩)
  induction c using Formula.inductionOn generalizing test e with
  | atom a =>
    obtain ⟨t, ht, rfl⟩ := map_ok_iff.1 ((Formula.mapM_atom _ a).symm.trans htest)
    obtain ⟨r, hr, rfl⟩ := map_ok_iff.1 ((Formula.mapM_atom _ a).symm.trans he)
    rw [RowTest.text, Formula.text]
    exact spells_comparison ht hr (hc a (by simp))
  | all ps ih =>
    obtain ⟨tests, htests, rfl⟩ := map_ok_iff.1 ((Formula.mapM_all _ ps).symm.trans htest)
    obtain ⟨es, hes, rfl⟩ := map_ok_iff.1 ((Formula.mapM_all _ ps).symm.trans he)
    rw [RowTest.text, Formula.text, lexemes]
    rw [Formula.atoms_all] at hc
    exact spells_parenthesized (spells_conjunction (hparts ih htests hes hc))
  | any ps ih =>
    obtain ⟨tests, htests, rfl⟩ := map_ok_iff.1 ((Formula.mapM_any _ ps).symm.trans htest)
    obtain ⟨es, hes, rfl⟩ := map_ok_iff.1 ((Formula.mapM_any _ ps).symm.trans he)
    rw [RowTest.text, Formula.text, lexemes]
    rw [Formula.atoms_any] at hc
    exact spells_parenthesized (spells_disjunction (hparts ih htests hes hc))

/-! ### Reading the lexemes of an expression -/

/-- An expression is read as one part of a condition, whatever was read before it and whatever
follows it. -/
def IsRead (e : Expression) : Prop :=
  ∀ outer frame ls, readTest outer frame (lexemes e ++ ls) = readConnective outer (frame.add e) ls

theorem intercalate_cons_cons (s : Lexeme) (ls ls' : List Lexeme) (lss : List (List Lexeme)) :
    [s].intercalate (ls :: ls' :: lss) = ls ++ s :: [s].intercalate (ls' :: lss) := by
  simp [List.intercalate]

/-- A conjunction is read into the run that has begun. -/
theorem readTest_conjunction {es : List Expression} (hne : es ≠ []) (h : ∀ e ∈ es, IsRead e)
    (outer : List Frame) (frame : Frame) (ls : List Lexeme) :
    readTest outer frame ([Lexeme.and].intercalate (es.map lexemes) ++ ls) =
      readConnective outer ⟨frame.runs, frame.run ++ es⟩ ls := by
  induction es generalizing frame with
  | nil => exact absurd rfl hne
  | cons e es ih =>
    have he := h e List.mem_cons_self
    cases es with
    | nil => simpa [List.intercalate, Frame.add] using he outer frame ls
    | cons e' es =>
      rw [List.map_cons, List.map_cons, intercalate_cons_cons, ← List.map_cons, List.append_assoc,
        he, List.cons_append, readConnective,
        ih (List.cons_ne_nil _ _) fun e he => h e (List.mem_cons_of_mem _ he)]
      simp [Frame.add]

/-- The parts of a disjunction are runs of one expression each. -/
theorem readTest_disjunction {es : List Expression} (hne : es ≠ []) (h : ∀ e ∈ es, IsRead e)
    (outer : List Frame) (runs : List (List Expression)) (ls : List Lexeme) :
    ∃ frame : Frame, frame.runs ++ [frame.run] = runs ++ es.map ([·]) ∧
      readTest outer ⟨runs, []⟩ ([Lexeme.or].intercalate (es.map lexemes) ++ ls) =
        readConnective outer frame ls := by
  -- every test but the last completes a run of its own
  induction es generalizing runs with
  | nil => exact absurd rfl hne
  | cons e es ih =>
    have he := h e List.mem_cons_self
    cases es with
    | nil =>
      refine ⟨⟨runs, [e]⟩, rfl, ?_⟩
      simpa [List.intercalate, Frame.add] using he outer ⟨runs, []⟩ ls
    | cons e' es =>
      obtain ⟨frame, hframe, hread⟩ := ih (List.cons_ne_nil _ _)
        (fun e he => h e (List.mem_cons_of_mem _ he)) (runs ++ [[e]])
      refine ⟨frame, by simpa using hframe, ?_⟩
      rw [List.map_cons, List.map_cons, intercalate_cons_cons, ← List.map_cons, List.append_assoc,
        he, List.cons_append, readConnective]
      exact hread

/-- A compact expression is read as it was meant: its parentheses keep apart what is read inside of
them. -/
theorem isRead_of_compact {e : Expression} (h : Formula.Compact e) : IsRead e := by
  -- on the expression: both connectives open a frame, which the closing parenthesis completes
  induction h with
  | atom r => exact fun _ _ _ => rfl
  | all es hlength _ ih =>
    intro outer frame ls
    have hne : es ≠ [] := List.ne_nil_of_length_pos (by omega)
    have hexpression : Frame.expression ⟨[], es⟩ = .all es := by
      match es, hlength with
      | _ :: _ :: _, _ => rfl
    rw [lexemes, lexemesList_eq, List.cons_append, List.append_assoc, readTest,
      readTest_conjunction hne ih]
    simp [readConnective, Frame.start, hexpression]
  | any es hlength _ ih =>
    intro outer frame ls
    have hne : es ≠ [] := List.ne_nil_of_length_pos (by omega)
    obtain ⟨inner, hruns, hread⟩ := readTest_disjunction hne ih (frame :: outer) []
      ([.closeParen] ++ ls)
    have hsingle : (es.map ([·])).map Formula.ofConjuncts = es := by
      rw [List.map_map]
      exact List.map_id'' (fun _ => rfl) es
    have hexpression : inner.expression = .any es := by
      rw [Frame.expression, hruns, List.nil_append, hsingle]
      match es, hlength with
      | _ :: _ :: _, _ => rfl
    rw [lexemes, lexemesList_eq, List.cons_append, List.append_assoc, readTest, Frame.start, hread]
    simp [readConnective, hexpression]

/-- Compact expressions with `&&` between them are read as their conjunction. -/
theorem Expression.ofText_conjunction {es : List Expression} (hne : es ≠ [])
    (hcompact : ∀ e ∈ es, Formula.Compact e)
    (h : List.Forall₂ (fun text e => Spells text.toList (lexemes e)) texts es) :
    ofText (" && ".intercalate texts) = some (Formula.ofConjuncts es) := by
  have hlex := spells_conjunction (List.forall₂_map_right_iff.2 h) [] rfl
  have hread := readTest_conjunction hne (fun e he => isRead_of_compact (hcompact e he)) []
    .start []
  rw [List.append_nil] at hlex hread
  rw [ofText, hlex, lex_nil, Option.map_some, Option.bind_some, List.append_nil, hread]
  rfl

end Awk

/-! ### Reading a condition back -/

namespace Condition

/-- A condition that has positions for its columns is an expression at these positions. -/
theorem exists_expression {c : Condition} {test : Awk.RowTest} (h : c.resolve position = .ok test)
    (value : String → Awk.Constant) : ∃ e, c.expression position value = .ok e := by
  have hside : ∀ {x : Operand} {y : Awk.FieldOperand}, resolveOperand position x = .ok y →
      ∃ p, x.primary position value = .ok p := by
    intro x y hxy
    cases x with
    | column n =>
      obtain ⟨p, hp, -⟩ := map_ok_iff.1 hxy
      exact ⟨.field p, map_ok_iff.2 ⟨p, hp, rfl⟩⟩
    | literal l => exact ⟨_, rfl⟩
  refine Formula.exists_mapM_ok_iff.2 fun a ha => ?_
  obtain ⟨b, hb⟩ := Formula.exists_mapM_ok_iff.1 ⟨test, h⟩ a ha
  obtain ⟨x, y, hx, hy, -⟩ := resolveComparison_ok_iff.1 hb
  obtain ⟨l, hl⟩ := hside hx
  obtain ⟨r, hr⟩ := hside hy
  exact ⟨⟨l, a.operator, r⟩, Comparison.relational_ok_iff.2 ⟨hl, rfl, hr⟩⟩

/-- The text of some conditions that must all hold is read exactly when no literal has a line end in
it, and then as their conjunction. -/
theorem ofText_conjunctionText {cs : List Condition} {tests : List Awk.RowTest} (hne : cs ≠ [])
    (hcompact : ∀ c ∈ cs, Formula.Compact c)
    (htests : List.Forall₂ (fun c test => resolve position c = .ok test) cs tests)
    (hvalue : ∀ c ∈ cs, ∀ l ∈ literals c, Awk.Denotes l (value l)) :
    ((∃ e, Awk.Expression.ofText (Awk.RowTest.conjunctionText tests) = some e) ↔
      ∀ c ∈ cs, ∀ l ∈ literals c, '\n' ∉ l.toList) ∧
    ∀ e, Awk.Expression.ofText (Awk.RowTest.conjunctionText tests) = some e →
      expression position value (Formula.ofConjuncts cs) = .ok e := by
  -- a line end in the program can come from a literal only
  have hnewline : '\n' ∈ (Awk.RowTest.conjunctionText tests).toList ↔
      ∃ c ∈ cs, ∃ l ∈ literals c, '\n' ∈ l.toList := by
    rw [Awk.Foreign.mem_conjunctionText_iff (.inr rfl) htests]
    refine exists_congr fun c => and_congr_right fun hc => exists_congr fun l => ?_
    exact and_congr_right fun hl => (hvalue c hc l hl).newline_mem_literal_iff
  by_cases hend : '\n' ∈ (Awk.RowTest.conjunctionText tests).toList
  · -- a line end inside a string ends the reading
    have hnone := Awk.Expression.ofText_eq_none_of_newline hend
    obtain ⟨c, hc, l, hl, hmem⟩ := hnewline.1 hend
    rw [hnone]
    exact ⟨⟨nofun, fun h => absurd hmem (h c hc l hl)⟩, nofun⟩
  · have hfree : ∀ c ∈ cs, ∀ l ∈ literals c, '\n' ∉ l.toList :=
      fun c hc l hl hmem => hend (hnewline.2 ⟨c, hc, l, hl, hmem⟩)
    obtain ⟨es, hes⟩ : ∃ es, cs.mapM (expression position value) = .ok es := by
      refine exists_mapM_ok fun c hc => ?_
      obtain ⟨test, -, htest⟩ := exists_right_of_forall₂ htests hc
      exact exists_expression htest value
    have hexpressions := mapM_ok_iff.1 hes
    have hread : Awk.Expression.ofText (Awk.RowTest.conjunctionText tests) =
        some (Formula.ofConjuncts es) := by
      refine Awk.Expression.ofText_conjunction ?_ ?_ (List.forall₂_map_left_iff.2 ?_)
      · rintro rfl
        exact hne (List.forall₂_nil_right_iff.1 hexpressions)
      · intro e he
        obtain ⟨c, hc, hce⟩ := exists_left_of_forall₂ hexpressions he
        exact (hcompact c hc).of_mapM hce
      · refine (forall₂_of_common htests hexpressions).imp ?_
        rintro test e ⟨c, hc, htest, he⟩
        refine Awk.spells_text htest he fun a ha l hl => ?_
        have hl' := mem_literals_iff.2 ⟨a, ha, hl⟩
        exact ⟨hvalue c hc l hl', hfree c hc l hl'⟩
    refine ⟨⟨fun _ => hfree, fun _ => ⟨_, hread⟩⟩, fun e he => ?_⟩
    obtain rfl := Option.some.inj (hread.symm.trans he)
    exact Formula.mapM_ofConjuncts hexpressions

/-- A table finds identical columns at one place, so they have the same value. -/
theorem value_column_congr {t : Table} {m n : ColumnName} (h : m.identical n = true)
    (value : String → Awk.Constant) (row : Row) :
    (Operand.column m).value t.resolve value row = (Operand.column n).value t.resolve value row := by
  have h' : n.identical m = true := by rwa [ColumnName.identical_comm]
  cases hm : t.resolve m with
  | ok p => simp only [Operand.value, hm, Table.resolve_ok_of_identical h hm]
  | error e =>
    cases hn : t.resolve n with
    | ok p => cases hm.symm.trans (Table.resolve_ok_of_identical h' hn)
    | error e' => simp only [Operand.value, hm, hn]

/-- Equal comparisons have the same value, so the normal form has the value of the condition. -/
theorem holdsAt_toCnf (compare : Operator → Awk.Value → Awk.Value → Bool) (t : Table)
    (value : String → Awk.Constant) (row : Row) (c : Condition) :
    holdsAt compare t.resolve value row (Formula.toCnf c) =
      holdsAt compare t.resolve value row c := by
  -- equal operands have equal values in every row, so the normal form may drop one of them
  have hside : ∀ {x y : Operand}, (x == y) = true →
      x.value t.resolve value row = y.value t.resolve value row := fun hxy =>
    Operand.congr_of_beq hxy fun hmn => value_column_congr hmn value row
  calc holdsAt compare t.resolve value row (Formula.toCnf c)
      = (cnf c).all (holdsAt compare t.resolve value row) := Formula.holds_ofConjuncts _ _
    _ = holdsAt compare t.resolve value row c := by
      refine holds_cnf (fun a b hab => ?_) c
      obtain ⟨hl, ho, hr⟩ := Comparison.beq_iff.1 hab
      rw [hside hl, ho, hside hr]

/-- awk reads a text as a condition at positions exactly when no literal of `c` has a line end in
it. What it reads are the comparisons of `shape`, combined as there, and it has the value of `c` on
every row. -/
structure ReadBackAs (text : String) (position : ColumnName → Except ε Nat)
    (value : String → Awk.Constant) (c shape : Condition) : Prop where
  readable_iff : (∃ e, Awk.Expression.ofText text = some e) ↔ ∀ l ∈ c.literals, '\n' ∉ l.toList
  expression_eq : ∀ e, Awk.Expression.ofText text = some e →
    shape.expression position value = .ok e
  holds_eq : ∀ e, Awk.Expression.ofText text = some e → ∀ compare row,
    e.holds compare row = c.holdsAt compare position value row

/-- The text of a condition says what the condition says. This goes for the condition as it was
read, and for the conjuncts of its normal form, which a filter step puts one after the other. -/
theorem readBackAs_of_ofTerms {terms : List Term} {c : Condition} {value : String → Awk.Constant}
    (hc : ofTerms terms = .ok (some c)) (hvalue : ∀ l ∈ c.literals, Awk.Denotes l (value l)) :
    (∀ {ε : Type} (position : ColumnName → Except ε Nat) (test : Awk.RowTest),
      c.resolve position = .ok test → ReadBackAs test.text position value c c) ∧
    ∀ t t' : Table, t.filterRows c.cnf = .ok t' → ∃ tests positions,
      t'.steps = t.steps ++ [.filter tests positions] ∧
      ReadBackAs (Awk.RowTest.conjunctionText tests) t.resolve value c (Formula.toCnf c) := by
  have hsolid := solid_of_ofTerms hc
  constructor
  · intro ε position test htest
    -- a condition on its own is the case of a single conjunct
    have htext : Awk.RowTest.conjunctionText [test] = test.text := by
      simp [Awk.RowTest.conjunctionText]
    have htests : List.Forall₂ (fun c test => resolve position c = .ok test) [c] [test] :=
      .cons htest .nil
    obtain ⟨hiff, hexpression⟩ := ofText_conjunctionText (List.cons_ne_nil c [])
      (by simpa using compact_of_ofTerms hc) htests (by simpa using hvalue)
    rw [htext] at hiff hexpression
    refine ⟨by simpa using hiff, hexpression, fun e he compare row => ?_⟩
    exact holds_of_expression (hexpression e he) compare row
  · intro t t' ht
    obtain ⟨tests, htests, rfl⟩ := Table.filterRows_ok_iff.1 ht
    obtain ⟨hiff, hexpression⟩ := ofText_conjunctionText (cnf_ne_nil hsolid)
      (fun d hd => compact_of_mem_cnf hsolid hd) htests
      (fun d hd l hl => hvalue l ((exists_mem_cnf_literals_iff hsolid).1 ⟨d, hd, hl⟩))
    have htestsne : tests ≠ [] := by
      rintro rfl
      exact cnf_ne_nil hsolid (List.forall₂_nil_right_iff.1 htests)
    refine ⟨tests, List.range t.columns.length, ?_, hiff.trans ?_, hexpression, ?_⟩
    · rw [Table.filterBy, if_neg (by simpa using htestsne)]
      rfl
    · -- the conjuncts have the literals of the condition
      constructor
      · intro h l hl
        obtain ⟨d, hd, hl⟩ := (exists_mem_cnf_literals_iff hsolid).2 hl
        exact h d hd l hl
      · exact fun h d hd l hl => h l ((exists_mem_cnf_literals_iff hsolid).1 ⟨d, hd, hl⟩)
    · intro e he compare row
      rw [← holdsAt_toCnf]
      exact holds_of_expression (hexpression e he) compare row

/-- What the literals of `readBackAs_connectives` denote. -/
def connectiveValues (l : String) : Awk.Constant :=
  if l = "' || '" then .string " || "
  else if l = "') it''s'" then .string ") it's"
  else .number (-5 / 2)

/-- A connective, a parenthesis and a quote inside of strings are text. -/
theorem readBackAs_connectives : ∃ c t t' tests positions e,
    ofTerms [.comparison "x" "=" "' || '", .and, .group [.comparison "y" "<" "-2.5", .or,
      .comparison "x" "!=" "') it''s'"]] = .ok (some c) ∧
    (∀ l ∈ c.literals, Awk.Denotes l (connectiveValues l)) ∧
    Table.ofFile "a.txt" none ',' (.ofList [("a.txt", ["x", "y"])]) = .ok t ∧
    t.filterRows c.cnf = .ok t' ∧ t'.steps = t.steps ++ [.filter tests positions] ∧
    Awk.Expression.ofText (Awk.RowTest.conjunctionText tests) = some e ∧
    expression t.resolve connectiveValues (Formula.toCnf c) = .ok e := by
  obtain ⟨c, t, t', hc, ht, hfilter, hliterals⟩ : ∃ c t t',
      ofTerms [.comparison "x" "=" "' || '", .and, .group [.comparison "y" "<" "-2.5", .or,
        .comparison "x" "!=" "') it''s'"]] = .ok (some c) ∧
      Table.ofFile "a.txt" none ',' (.ofList [("a.txt", ["x", "y"])]) = .ok t ∧
      t.filterRows c.cnf = .ok t' ∧ c.literals = ["' || '", "-2.5", "') it''s'"] :=
    ⟨_, _, _, rfl, rfl, rfl, rfl⟩
  have hor : Awk.Denotes "' || '" (.string " || ") := .string " || "
  have hparen : Awk.Denotes "') it''s'" (.string ") it's") := .string ") it's"
  -- the number is written with a sign and a fraction
  have hnumber : Awk.Denotes "-2.5" (.number (-5 / 2)) := by
    have hdecimal : Awk.Numeral (['2'] ++ '.' :: ['5']) (25 / 10 ^ 1) :=
      .decimal (by decide) (List.all_eq_true.1 rfl)
    have hhalf : (-5 / 2 : ℚ) = -(25 / 10 ^ 1) := by norm_num
    exact hhalf ▸ .negative hdecimal
  have hvalue : ∀ l ∈ c.literals, Awk.Denotes l (connectiveValues l) := by
    rw [hliterals]
    simpa [connectiveValues] using ⟨hor, hnumber, hparen⟩
  obtain ⟨tests, positions, hsteps, hread⟩ := (readBackAs_of_ofTerms hc hvalue).2 t t' hfilter
  obtain ⟨e, he⟩ := hread.readable_iff.2 (by rw [hliterals]; decide)
  exact ⟨c, t, t', tests, positions, e, hc, hvalue, ht, hfilter, hsteps, he,
    hread.expression_eq e he⟩

/-- A string with a line end in it is written with the line end, and awk cannot read the condition:
a string constant has to end on its line. -/
theorem not_readable_lineEnd : ∃ c t t' test tests positions,
    ofTerms [.comparison "x" "=" "'a\nb'"] = .ok (some c) ∧
    (∀ l ∈ c.literals, Awk.Denotes l (.string "a\nb")) ∧
    Table.ofFile "a.txt" none ',' (.ofList [("a.txt", ["x"])]) = .ok t ∧
    resolve t.resolve c = .ok test ∧ Awk.Expression.ofText test.text = none ∧
    t.filterRows c.cnf = .ok t' ∧ t'.steps = t.steps ++ [.filter tests positions] ∧
    Awk.Expression.ofText (Awk.RowTest.conjunctionText tests) = none := by
  have hstring : Awk.Denotes "'a\nb'" (.string "a\nb") := .string "a\nb"
  refine ⟨_, _, _, _, [.atom (.compare (.field 0) .eq (.constant "'a\nb'"))], [0], rfl, ?_, rfl, rfl,
    ?_, rfl, rfl, ?_⟩
  · intro l hl
    obtain rfl : l = "'a\nb'" := List.mem_singleton.1 hl
    exact hstring
  · exact Awk.Expression.ofText_eq_none_of_newline (by decide)
  · exact Awk.Expression.ofText_eq_none_of_newline (by decide)

end Condition

end ShellQuery
