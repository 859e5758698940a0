import ShellQuery.Proofs.Formula.Cnf
import ShellQuery.Proofs.Statement.Grammar

/-!
# What the conditions of a statement say

The condition of a statement is written as terms with `AND` and `OR` between them. `AND` binds
tighter, so the `OR`s part the terms into stretches, and the condition holds if all the terms of one
stretch do (`ConditionTree.holds`). The planner reads the sequence of terms once more, from left to
right, and builds a formula.

* `ConditionTree.ofTerms_terms`, `ofTerms_conjunction`: it can read the terms of every tree, alone
  or as one of several conditions;
* `ConditionTree.holds_condition`: the formula has the value of the tree;
* `holds_chain`: conditions in parentheses with `AND`s between them hold if each of them does;
* `SelectTree.conditions_eq_nil_iff`: a statement is without a condition exactly when it has neither
  of the words that a condition follows.
-/

namespace ShellQuery.Statement

variable {α β : Type}

/-- Puts some elements in front of the first of some lists. -/
def prepend (as : List α) : List (List α) → List (List α)
  | [] => [as]
  | l :: ls => (as ++ l) :: ls

theorem prepend_prepend (as bs : List α) (ls : List (List α)) :
    prepend as (prepend bs ls) = prepend (as ++ bs) ls := by
  cases ls with
  | nil => rfl
  | cons l ls => rw [prepend, prepend, prepend, List.append_assoc]

theorem prepend_nil {ls : List (List α)} (h : ls ≠ []) : prepend [] ls = ls := by
  cases ls with
  | nil => exact absurd rfl h
  | cons l ls => rfl

theorem prepend_ne_nil (as : List α) (ls : List (List α)) : prepend as ls ≠ [] := by
  cases ls with
  | nil => exact List.cons_ne_nil _ _
  | cons l ls => exact List.cons_ne_nil _ _

theorem map_prepend (f : α → β) (as : List α) (ls : List (List α)) :
    (prepend as ls).map (List.map f) = prepend (as.map f) (ls.map (List.map f)) := by
  cases ls with
  | nil => rfl
  | cons l ls => rw [prepend, List.map_cons, List.map_append, List.map_cons, prepend]

/-! ### The value of a tree -/

/-- The comparison that two operands and the operator between them denote. -/
def comparisonOf (l : OperandTree) (o : OperatorTree) (r : OperandTree) : Comparison :=
  ⟨.ofText l.text, o.operator, .ofText r.text⟩

mutual

/-- The values of the terms of a condition, in one list for each stretch between two `OR`s. -/
def ConditionTree.values (v : Comparison → Bool) : ConditionTree → List (List Bool)
  | .last t => [[t.holds v]]
  | .more t .and c => prepend [t.holds v] (c.values v)
  | .more t .or c => [t.holds v] :: c.values v

/-- The value of a term: a condition in parentheses is read by itself. -/
def TermTree.holds (v : Comparison → Bool) : TermTree → Bool
  | .group c => (c.values v).any (·.all id)
  | .comparison l o r => v (comparisonOf l o r)

end

/-- The value of a condition, given those of the comparisons: in one of its stretches all terms
hold. -/
def ConditionTree.holds (v : Comparison → Bool) (c : ConditionTree) : Bool :=
  (c.values v).any (·.all id)

/-! ### The formula of a tree -/

mutual

/-- The formulas of the terms of a condition, in one list for each stretch between two `OR`s. -/
def ConditionTree.runs : ConditionTree → List (List Condition)
  | .last t => [[t.condition]]
  | .more t .and c => prepend [t.condition] c.runs
  | .more t .or c => [t.condition] :: c.runs

/-- The formula of a term. -/
def TermTree.condition : TermTree → Condition
  | .group c => Condition.ofRuns c.runs
  | .comparison l o r => .atom (comparisonOf l o r)

end

/-- The formula of a condition. -/
def ConditionTree.condition (c : ConditionTree) : Condition :=
  Condition.ofRuns c.runs

/-- A condition has a stretch, even without an `OR`. -/
theorem ConditionTree.runs_ne_nil (c : ConditionTree) : c.runs ≠ [] := by
  cases c with
  | last t =>
    rw [runs]
    exact List.cons_ne_nil _ _
  | more t k c =>
    cases k with
    | and =>
      rw [runs]
      exact prepend_ne_nil _ _
    | or =>
      rw [runs]
      exact List.cons_ne_nil _ _

theorem ConditionTree.terms_ne_nil (c : ConditionTree) : c.terms ≠ [] := by
  cases c with
  | last t =>
    rw [terms]
    exact List.cons_ne_nil _ _
  | more t k c =>
    rw [terms]
    exact List.cons_ne_nil _ _

theorem ofText_operatorText (o : Operator) : Operator.ofText (operatorText o) = .ok o := by
  cases o <;> decide

mutual

/-- What is read of the terms of a condition: the terms since the last `OR` go in front of its first
stretch. -/
theorem ConditionTree.readTerm_terms : ∀ (c : ConditionTree) (runs : List (List Condition))
    (run : List Condition), Condition.readTerm runs run c.terms =
      .ok (Condition.ofRuns (runs ++ prepend run c.runs))
  | .last t, runs, run => by
    rw [ConditionTree.terms, Condition.readTerm, t.ofTerm_term, ConditionTree.runs]
    rfl
  | .more t .and c, runs, run => by
    rw [ConditionTree.terms, Condition.readTerm, t.ofTerm_term, ConditionTree.runs, prepend_prepend]
    exact c.readTerm_terms runs (run ++ [t.condition])
  | .more t .or c, runs, run => by
    rw [ConditionTree.terms, Condition.readTerm, t.ofTerm_term, ConditionTree.runs]
    -- at an `OR` the stretch is complete, and the next one begins empty
    have hrest := c.readTerm_terms (runs ++ [run ++ [t.condition]]) []
    rw [prepend_nil c.runs_ne_nil, List.append_assoc] at hrest
    exact hrest

/-- A group is read by a call of its own, from empty stretches; a comparison by its operator. -/
theorem TermTree.ofTerm_term : ∀ t : TermTree, Condition.ofTerm t.term = .ok t.condition
  | .group c => by
    have hne : ¬c.terms.isEmpty = true := fun h => c.terms_ne_nil (List.isEmpty_iff.1 h)
    rw [TermTree.term, Condition.ofTerm, if_neg hne, c.readTerm_terms,
      prepend_nil c.runs_ne_nil, TermTree.condition]
    rfl
  | .comparison l o r => by
    rw [TermTree.term, Condition.ofTerm, Comparison.ofTexts, ofText_operatorText,
      TermTree.condition]
    rfl

end

/-- The planner reads the terms of every condition. -/
theorem ConditionTree.ofTerms_terms (c : ConditionTree) :
    Condition.ofTerms c.terms = .ok (some c.condition) := by
  have hne : ¬c.terms.isEmpty = true := fun h => c.terms_ne_nil (List.isEmpty_iff.1 h)
  rw [Condition.ofTerms, if_neg hne, c.readTerm_terms,
    prepend_nil c.runs_ne_nil]
  rfl

/-! ### The value of the formula -/

/-- Stretches hold if all the formulas of one of them do. -/
theorem holds_ofRuns (v : Comparison → Bool) (runs : List (List Condition)) :
    (Condition.ofRuns runs).holds v = runs.any (·.all (Formula.holds v)) := by
  have hparts : runs.any (·.all (Formula.holds v)) =
      (runs.map Formula.ofConjuncts).any (Formula.holds v) := by
    rw [List.any_map]
    exact List.any_congr rfl fun ps => (Formula.holds_ofConjuncts v ps).symm
  rw [hparts]
  unfold Condition.ofRuns
  split
  · next p heq => rw [heq, List.any_cons, List.any_nil, Bool.or_false]
  · rw [Formula.holds_any]

mutual

/-- The formulas of the terms have the values of the terms. -/
theorem ConditionTree.map_holds_runs (v : Comparison → Bool) : ∀ c : ConditionTree,
    c.runs.map (List.map (Formula.holds v)) = c.values v
  | .last t => by
    rw [ConditionTree.runs, ConditionTree.values, ← t.holds_condition v]
    rfl
  | .more t .and c => by
    rw [ConditionTree.runs, ConditionTree.values, map_prepend, c.map_holds_runs v,
      ← t.holds_condition v]
    rfl
  | .more t .or c => by
    rw [ConditionTree.runs, ConditionTree.values, List.map_cons, c.map_holds_runs v,
      ← t.holds_condition v]
    rfl

/-- The formula of a term has the value of the term. -/
theorem TermTree.holds_condition (v : Comparison → Bool) : ∀ t : TermTree,
    t.condition.holds v = t.holds v
  | .group c => by
    calc (TermTree.group c).condition.holds v = c.runs.any (·.all (Formula.holds v)) := by
          rw [TermTree.condition, holds_ofRuns]
      _ = (c.runs.map (List.map (Formula.holds v))).any (·.all id) := by
          simp only [List.any_map, Function.comp_def, List.all_map, id_eq]
      _ = (c.values v).any (·.all id) := by rw [c.map_holds_runs v]
      _ = (TermTree.group c).holds v := by rw [TermTree.holds]
  | .comparison l o r => by rw [TermTree.condition, TermTree.holds, Formula.holds_atom]

end

/-- The formula of a condition has the value of the condition. -/
theorem ConditionTree.holds_condition (v : Comparison → Bool) (c : ConditionTree) :
    c.condition.holds v = c.holds v := by
  have hgroup := TermTree.holds_condition v (.group c)
  rw [TermTree.condition, TermTree.holds] at hgroup
  exact hgroup

/-! ### Several conditions -/

/-- Conditions in parentheses, with `AND`s between them. -/
def chain : ConditionTree → List ConditionTree → ConditionTree
  | c, [] => .last (.group c)
  | c, d :: ds => .more (.group c) .and (chain d ds)

/-- The sequence that the parser makes of several conditions is that of a tree. -/
theorem terms_chain (c : ConditionTree) (cs : List ConditionTree) :
    (chain c cs).terms = .group c.terms :: cs.flatMap fun d => [.and, .group d.terms] := by
  induction cs generalizing c with
  | nil => rw [chain, ConditionTree.terms, TermTree.term, List.flatMap_nil]
  | cons d ds ih =>
    rw [chain, ConditionTree.terms, TermTree.term, ih, List.flatMap_cons]
    rfl

/-- A condition in parentheses is read as the condition. -/
theorem condition_chain_nil (c : ConditionTree) : (chain c []).condition = c.condition := by
  rw [ConditionTree.condition, chain, ConditionTree.runs, TermTree.condition]
  rfl

/-- The planner reads the conditions of a statement as their conjunction. -/
theorem ofTerms_conjunction (cs : List ConditionTree) :
    Condition.ofTerms (conjunction cs) =
      .ok (cs.head?.map fun c => (chain c cs.tail).condition) := by
  match cs with
  | [] => rfl
  | [c] =>
    rw [conjunction, c.ofTerms_terms, List.head?_cons, List.tail_cons, Option.map_some,
      condition_chain_nil]
  | c :: d :: cs =>
    rw [conjunction, ← terms_chain, ConditionTree.ofTerms_terms]
    · rfl
    · simp

/-- Without an `OR` between them, conditions in parentheses are one stretch. -/
theorem values_chain (v : Comparison → Bool) (c : ConditionTree) (cs : List ConditionTree) :
    (chain c cs).values v = [(c :: cs).map (·.holds v)] := by
  induction cs generalizing c with
  | nil =>
    rw [chain, ConditionTree.values, TermTree.holds]
    rfl
  | cons d ds ih =>
    rw [chain, ConditionTree.values, TermTree.holds, ih]
    rfl

/-- Conditions in parentheses with `AND`s between them hold if each of them does. -/
theorem holds_chain (v : Comparison → Bool) (c : ConditionTree) (cs : List ConditionTree) :
    (chain c cs).holds v = (c :: cs).all (·.holds v) := by
  calc (chain c cs).holds v = [(c :: cs).map (·.holds v)].any (·.all id) := by
        rw [ConditionTree.holds, values_chain]
    _ = ((c :: cs).map (·.holds v)).all id := by rw [List.any_cons, List.any_nil, Bool.or_false]
    _ = (c :: cs).all (·.holds v) := by rw [List.all_map, Function.id_comp]

/-! ### Where conditions stand -/

/-- Whether a token is one of the two words that a condition follows. -/
def announcesCondition (t : Token) : Bool :=
  t == .keyword .WHERE || t == .keyword .ON

theorem announcesCondition_iff {t : Token} :
    announcesCondition t = true ↔ t = .keyword .WHERE ∨ t = .keyword .ON := by
  rw [announcesCondition, Bool.or_eq_true, beq_iff_eq, beq_iff_eq]

theorem ItemTree.any_tokens (i : ItemTree) : i.tokens.any announcesCondition = false := by
  cases i <;> rfl

theorem RelationTree.any_tokens (r : RelationTree) : r.tokens.any announcesCondition = false := by
  rcases r with ⟨path, l⟩ | ⟨path, l⟩ <;> cases l <;> rfl

theorem OperandTree.announcesCondition_token (x : OperandTree) :
    announcesCondition x.token = false := by
  cases x <;> rfl

theorem OperatorTree.announcesCondition_token (o : OperatorTree) :
    announcesCondition o.token = false := by
  cases o <;> rfl

mutual

/-- A condition has none of these words either, so each of them stands in front of a condition of
the statement. -/
theorem ConditionTree.any_tokens : ∀ c : ConditionTree, c.tokens.any announcesCondition = false
  | .last t => by rw [ConditionTree.tokens, t.any_tokens]
  | .more t k c => by
    rw [ConditionTree.tokens, List.any_append, List.any_cons, t.any_tokens, c.any_tokens]
    cases k <;> rfl

theorem TermTree.any_tokens : ∀ t : TermTree, t.tokens.any announcesCondition = false
  | .group c => by
    rw [TermTree.tokens, List.cons_append, List.any_cons, List.any_append, c.any_tokens]
    rfl
  | .comparison l o r => by
    rw [TermTree.tokens, List.any_cons, List.any_cons, List.any_cons, l.announcesCondition_token,
      o.announcesCondition_token, r.announcesCondition_token]
    rfl

end

/-- A join has the word ON exactly when it is made on a condition. -/
theorem JoinTree.any_tokens (j : JoinTree) :
    j.tokens.any announcesCondition = j.condition?.isSome := by
  cases j with
  | comma r =>
    rw [tokens, List.any_cons, r.any_tokens]
    rfl
  | join r c =>
    rw [tokens, List.any_cons, List.any_append, List.any_cons, r.any_tokens, c.any_tokens]
    rfl
  | innerJoin r c =>
    rw [tokens, List.any_cons, List.any_cons, List.any_append, List.any_cons, r.any_tokens,
      c.any_tokens]
    rfl

namespace SelectTree

/-- A statement has a word that a condition follows exactly when it has a condition. -/
theorem any_tokens (d : SelectTree) :
    d.tokens.any announcesCondition = !d.conditions.isEmpty := by
  -- part by part; only joins and the filter bring a word in
  have hitems : (d.items.flatMap (.comma :: ·.tokens)).any announcesCondition = false := by
    rw [List.any_flatMap, List.any_eq_false]
    intro i _
    rw [List.any_cons, i.any_tokens]
    decide
  have hjoins : (d.joins.flatMap JoinTree.tokens).any announcesCondition =
      !(d.joins.filterMap JoinTree.condition?).isEmpty := by
    rw [List.any_flatMap]
    induction d.joins with
    | nil => rfl
    | cons j js ih =>
      rw [List.any_cons, ih, j.any_tokens, List.filterMap_cons]
      cases j.condition? <;> rfl
  have hfilter : (filterTokens d.filter).any announcesCondition = d.filter.isSome := by
    cases d.filter <;> rfl
  have htail : d.tail.any announcesCondition = d.filter.isSome := by
    rw [tail, List.any_append, List.any_append, hfilter]
    cases d.sample <;> cases d.semicolon <;> simp [sampleTokens, endTokens, announcesCondition]
  have hselect : announcesCondition (.keyword .SELECT) = false := rfl
  have hfrom : announcesCondition (.keyword .FROM) = false := rfl
  rw [tokens, List.any_cons, List.any_append, List.any_append, List.any_cons, List.any_append,
    List.any_append, hselect, d.item.any_tokens, hitems, hfrom, d.relation.any_tokens, hjoins,
    htail, conditions]
  cases d.filter <;> simp

/-- A statement has no condition exactly when neither word is among its tokens. -/
theorem conditions_eq_nil_iff (d : SelectTree) :
    d.conditions = [] ↔ .keyword .WHERE ∉ d.tokens ∧ .keyword .ON ∉ d.tokens := by
  have hany := d.any_tokens
  constructor
  · intro hnil
    rw [hnil, List.isEmpty_nil, Bool.not_true, List.any_eq_false] at hany
    exact ⟨fun hmem => hany _ hmem rfl, fun hmem => hany _ hmem rfl⟩
  · rintro ⟨hwhere, hon⟩
    have hnone : d.tokens.any announcesCondition = false := by
      refine List.any_eq_false.2 fun t ht hann => ?_
      rcases announcesCondition_iff.1 hann with rfl | rfl
      · exact hwhere ht
      · exact hon ht
    rw [hnone] at hany
    simpa using hany

end SelectTree

end ShellQuery.Statement
