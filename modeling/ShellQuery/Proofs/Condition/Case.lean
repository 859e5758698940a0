import ShellQuery.Proofs.Column.Case
import ShellQuery.Proofs.Formula.Map

/-!
# The case of conditions

The case of a condition is that of the column names in it. `Condition.caseless` forgets it, and
`Term.caseless` puts into lower case what it is read from: the words of operators and the operands
that are column names.

* `Condition.ofTerms_caseless`: terms in lower case are read as the terms are, but for the case;
* `Condition.cnf_caseless`, `Condition.classify_caseless`: the normal form of a condition and its
  parting into joins and filters do not look at the case.
-/

namespace ShellQuery

/-! ### Comparisons -/

/-- The operand without the case of its name; a literal has no case to forget. -/
def Operand.caseless : Operand → Operand
  | column name => column name.caseless
  | literal text => literal text

/-- The comparison without the case of its names. -/
def Comparison.caseless (c : Comparison) : Comparison :=
  ⟨c.left.caseless, c.operator, c.right.caseless⟩

theorem Operand.beq_caseless (x y : Operand) : (x.caseless == y.caseless) = (x == y) := by
  cases x <;> cases y <;> rfl

namespace Comparison

theorem beq_caseless (c d : Comparison) : (c.caseless == d.caseless) = (c == d) := by
  show same c.caseless d.caseless = same c d
  rw [same, caseless, caseless, Operand.beq_caseless, Operand.beq_caseless, same]

theorem columns_caseless (c : Comparison) :
    c.caseless.columns = c.columns.map ColumnName.caseless := by
  have htoList : ∀ x : Operand, x.caseless.column?.toList =
      x.column?.toList.map ColumnName.caseless := by
    intro x
    cases x <;> rfl
  rw [columns, caseless, htoList, htoList, columns, List.map_append]

theorem canJoin_caseless (c : Comparison) : c.caseless.canJoin = c.canJoin := by
  obtain ⟨l, o, r⟩ := c
  cases l <;> cases r <;> rfl

end Comparison

/-! ### Conditions -/

namespace Condition

/-- The condition without the case of its names. -/
def caseless (c : Condition) : Condition :=
  Formula.map Comparison.caseless c

theorem map_caseless_atom (cs : List Comparison) :
    (cs.map Formula.atom).map caseless = (cs.map Comparison.caseless).map Formula.atom := by
  rw [List.map_map, List.map_map]
  exact List.map_congr_left fun c _ => Formula.map_atom Comparison.caseless c

theorem columns_caseless (c : Condition) :
    c.caseless.columns = c.columns.map ColumnName.caseless := by
  rw [columns, caseless, Formula.atoms_map, List.flatMap_map, columns, List.map_flatMap]
  exact List.flatMap_congr fun a _ => a.columns_caseless

theorem cnf_caseless (c : Condition) : c.caseless.cnf = c.cnf.map caseless := by
  rw [cnf, caseless, Formula.clauses_map, Formula.distinctClauses_map Comparison.beq_caseless, cnf,
    List.map_map, List.map_map]
  exact List.map_congr_left fun d _ => Formula.ofClause_map Comparison.caseless d

theorem join?_caseless (c : Condition) : c.caseless.join? = c.join?.map Comparison.caseless := by
  rw [join?, caseless, Formula.atom?_map, join?]
  cases Formula.atom? c with
  | none => rfl
  | some a =>
    rw [Option.map_some, Option.filter_some, Option.filter_some, a.canJoin_caseless]
    split
    · rfl
    · rfl

theorem classify_caseless (cs : List Condition) : classify (cs.map caseless) =
    ((classify cs).1.map Comparison.caseless, (classify cs).2.map caseless) := by
  have hjoin : join? ∘ caseless = Option.map Comparison.caseless ∘ join? := funext join?_caseless
  rw [classify, List.filterMap_map, hjoin, classify, List.map_filterMap, List.filter_map]
  congr 2
  exact List.filter_congr fun c _ => by simp only [Function.comp, join?_caseless, Option.isNone_map]

/-- Positions that do not look at the case give the same test. -/
theorem resolve_caseless {ε : Type} {position : ColumnName → Except ε Nat}
    (h : ∀ n : ColumnName, position n.caseless = position n) (c : Condition) :
    resolve position c.caseless = resolve position c := by
  have hside : ∀ x : Operand, resolveOperand position x.caseless = resolveOperand position x := by
    intro x
    cases x with
    | column n => rw [Operand.caseless, resolveOperand, h, resolveOperand]
    | literal text => rfl
  rw [resolve, caseless, Formula.mapM_map, resolve]
  refine Formula.mapM_congr fun a _ => ?_
  rw [resolveComparison, Comparison.caseless, hside, hside, resolveComparison]

/-- Names that replace others without looking at the case give conditions that differ in it only. -/
theorem mapColumnsM_caseless {ε : Type} {f : ColumnName → Except ε ColumnName}
    (h : ∀ n : ColumnName, f n.caseless = (f n).map ColumnName.caseless) (c : Condition) :
    mapColumnsM f c.caseless = (mapColumnsM f c).map caseless := by
  -- side by side, then for a comparison, then for the whole tree
  have hside : ∀ x : Operand, x.caseless.mapColumnM f = (x.mapColumnM f).map Operand.caseless := by
    intro x
    cases x with
    | column n =>
      rw [Operand.caseless, Operand.mapColumnM, h, Operand.mapColumnM]
      cases f n with
      | error e => rfl
      | ok m => rfl
    | literal text => rfl
  have hcomparison : ∀ a : Comparison,
      a.caseless.mapColumnsM f = (a.mapColumnsM f).map Comparison.caseless := by
    intro a
    rw [Comparison.mapColumnsM, Comparison.caseless, hside, hside, Comparison.mapColumnsM]
    cases a.left.mapColumnM f with
    | error e => rfl
    | ok l =>
      cases a.right.mapColumnM f with
      | error e => rfl
      | ok r => rfl
  show Formula.mapM _ (Formula.map _ c) = (Formula.mapM _ c).map (Formula.map _)
  rw [Formula.mapM_map, Formula.map_mapM]
  exact Formula.mapM_congr fun a _ => hcomparison a

/-- Runs of conditions make the same tree in lower case. -/
theorem ofRuns_caseless (runs : List (List Condition)) :
    ofRuns (runs.map (List.map caseless)) = (ofRuns runs).caseless := by
  have hparts : (runs.map (List.map caseless)).map Formula.ofConjuncts =
      (runs.map Formula.ofConjuncts).map caseless := by
    rw [List.map_map, List.map_map]
    exact List.map_congr_left fun run _ => Formula.ofConjuncts_map Comparison.caseless run
  rw [ofRuns, hparts, ofRuns]
  match runs.map Formula.ofConjuncts with
  | [] => exact (Formula.map_any Comparison.caseless []).symm
  | [p] => rfl
  | p :: q :: ps => exact (Formula.map_any Comparison.caseless (p :: q :: ps)).symm

end Condition

/-! ### Terms -/

/-- The text of an operand, in lower case if it is a column name. -/
def caselessOperand (text : String) : String :=
  match Operand.ofText text with
  | .column _ => Text.lower text
  | .literal _ => text

mutual

/-- The term with its operators and column names in lower case. -/
def Term.caseless : Term → Term
  | .comparison left operator right =>
    .comparison (caselessOperand left) (Text.lower operator) (caselessOperand right)
  | .and => .and
  | .or => .or
  | .group terms => .group (caselessList terms)

/-- Some terms with their operators and column names in lower case. -/
def Term.caselessList : List Term → List Term
  | [] => []
  | t :: ts => t.caseless :: caselessList ts

end

theorem Term.caselessList_eq (ts : List Term) : caselessList ts = ts.map caseless := by
  induction ts with
  | nil => rw [caselessList, List.map_nil]
  | cons t ts ih => rw [caselessList, ih, List.map_cons]

/-- An operand in lower case is read as the operand is. -/
theorem Operand.ofText_caselessOperand (text : String) :
    ofText (caselessOperand text) = (ofText text).caseless := by
  unfold caselessOperand
  cases hname : ColumnName.ofText (Text.trim text) with
  | error e =>
    have hliteral : ofText text = literal (Text.trim text) := by rw [ofText, hname]
    rw [hliteral]
    exact hliteral
  | ok n =>
    have hcolumn : ofText text = column n := by rw [ofText, hname]
    have hlower : ColumnName.ofText (Text.trim (Text.lower text)) = .ok n.caseless := by
      rw [Text.trim_lower, ColumnName.ofText_lower, hname, withoutCase_ok]
    rw [hcolumn]
    show ofText (Text.lower text) = column n.caseless
    rw [ofText, hlower]

theorem Operator.ofText_lower (text : String) :
    ofText (Text.lower text) = withoutCase id (ofText text) := by
  rw [ofText, Text.trim_lower, Text.lower_lower, ofText]
  cases ofWord? (Text.lower (Text.trim text)) with
  | none => rfl
  | some o => rfl

/-- A comparison in lower case is read as the comparison in lower case. -/
theorem Comparison.ofTexts_caseless (left operator right : String) :
    ofTexts (caselessOperand left) (Text.lower operator) (caselessOperand right) =
      withoutCase caseless (ofTexts left operator right) := by
  rw [ofTexts, Operator.ofText_lower, Operand.ofText_caselessOperand,
    Operand.ofText_caselessOperand, ofTexts]
  generalize Operand.ofText left = l
  generalize Operand.ofText right = r
  cases Operator.ofText operator with
  | error e => rfl
  | ok o => rfl

namespace Condition

/-- Terms in lower case are read as the terms are. The induction is on the reader itself: from where
a condition begins, from where one has ended, and on a single term. -/
theorem readTerm_caseless (runs : List (List Condition)) (run : List Condition)
    (ts : List Term) :
    readTerm (runs.map (List.map caseless)) (run.map caseless) (ts.map Term.caseless) =
      withoutCase caseless (readTerm runs run ts) := by
  refine @readTerm.induct
    (fun runs run ts =>
      readTerm (runs.map (List.map caseless)) (run.map caseless) (ts.map Term.caseless) =
        withoutCase caseless (readTerm runs run ts))
    (fun runs run ts =>
      readConnective (runs.map (List.map caseless)) (run.map caseless) (ts.map Term.caseless) =
        withoutCase caseless (readConnective runs run ts))
    (fun t => ofTerm t.caseless = withoutCase caseless (ofTerm t))
    ?_ ?_ ?_ ?_ ?_ ?_ ?_ ?_ ?_ ?_ ?_ ?_ runs run ts
  · -- a comparison
    intro l o r
    rw [Term.caseless, ofTerm, Comparison.ofTexts_caseless, ofTerm]
    cases Comparison.ofTexts l o r with
    | error e => rfl
    | ok a => exact congrArg Except.ok (Formula.map_atom Comparison.caseless a).symm
  · -- a connective where a condition should stand
    rfl
  · rfl
  · -- an empty group
    intro ts hts
    rw [Term.caseless, ofTerm, Term.caselessList_eq, List.isEmpty_map, ofTerm,
      if_pos hts, if_pos hts]
    rfl
  · -- a group is read on its own
    intro ts hts ih
    rw [Term.caseless, ofTerm, Term.caselessList_eq, List.isEmpty_map, ofTerm,
      if_neg hts, if_neg hts]
    exact ih
  · -- the terms end where a condition should stand
    intro runs run
    rfl
  · -- one more condition of the run
    intro runs run t ts iht ih
    rw [List.map_cons, readTerm, iht, readTerm]
    cases hc : ofTerm t with
    | error e => rfl
    | ok c =>
      have hrest := ih c
      rw [List.map_append] at hrest
      exact hrest
  · -- the end completes the last run
    intro runs run
    have hruns := ofRuns_caseless (runs ++ [run])
    rw [List.map_append] at hruns
    exact congrArg Except.ok hruns
  · -- `and` goes on with the run
    intro runs run ts ih
    exact ih
  · -- `or` completes it
    intro runs run ts ih
    rw [List.map_append] at ih
    exact ih
  · -- two conditions with no connective between them
    intro runs run l o r ts
    rfl
  · intro runs run us ts
    rfl

/-- Terms in lower case are read as the condition in lower case. -/
theorem ofTerms_caseless (ts : List Term) :
    ofTerms (ts.map Term.caseless) = withoutCase (Option.map caseless) (ofTerms ts) := by
  rw [ofTerms, List.isEmpty_map, ofTerms]
  split
  · rfl
  · have hread := readTerm_caseless [] [] ts
    rw [List.map_nil, List.map_nil] at hread
    rw [hread]
    cases readTerm [] [] ts with
    | error e => rfl
    | ok c => rfl

end Condition

end ShellQuery
