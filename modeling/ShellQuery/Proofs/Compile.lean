import ShellQuery.Compile
import ShellQuery.Proofs.Query.Failures
import ShellQuery.Proofs.Statement.Parsing
import ShellQuery.Proofs.Statement.Precedence

/-!
# What the text of a statement asks for

A text whose tokens are those of a `SelectTree` has the plan of the statement that the tree denotes
(`compile_of_tokens`). So what the tree says about the conditions decides:

* `condition_of_ofText`: the conditions of a text that is a statement can always be read, and they
  say what their trees say, all together;
* `compile_withoutOn`: it makes no difference whether relations are joined on conditions or listed,
  the conditions standing in parentheses behind the word WHERE.
-/

namespace ShellQuery

open Statement

variable {text text' : String} {config : Config} {catalog : Catalog}

/-! ### From a tree to a plan -/

theorem ofText_of_tokens {d : SelectTree} (h : Token.ofText text = .ok d.tokens) :
    Statement.ofText text = .ok d.statement := by
  rw [Statement.ofText, h]
  show (ofTokens d.tokens).mapError ReadError.malformed = .ok d.statement
  rw [ofTokens_tokens]
  rfl

theorem exists_tree_of_ofText {s : Statement} (h : Statement.ofText text = .ok s) :
    ∃ d : SelectTree, Token.ofText text = .ok d.tokens ∧ d.statement = s := by
  obtain ⟨tokens, htokens, h⟩ := bind_ok_iff.1 h
  have hok : ofTokens tokens = .ok s := by
    cases hread : ofTokens tokens with
    | error e =>
      rw [hread] at h
      cases h
    | ok s' =>
      rw [hread] at h
      exact congrArg _ (Except.ok.inj h)
  obtain ⟨d, rfl, hd⟩ := exists_tree_of_ofTokens hok
  exact ⟨d, htokens, hd⟩

/-- The plan of a text is that of the statement its tree denotes. -/
theorem compile_of_tokens {d : SelectTree} (h : Token.ofText text = .ok d.tokens) :
    compile text config catalog = (Query.plan d.statement config catalog).mapError .plan := by
  rw [compile, ofText_of_tokens h]
  rfl

/-! ### The conditions of a text -/

/-- The planner reads the conditions of a tree, and they hold if each of them does. -/
theorem Statement.SelectTree.exists_ofTerms (d : SelectTree) : ∃ condition,
    Condition.ofTerms d.statement.conditions = .ok condition ∧
    (condition = none ↔ d.conditions = []) ∧
    ∀ v, condition.elim true (Formula.holds v) = d.conditions.all (·.holds v) := by
  refine ⟨_, ofTerms_conjunction d.conditions, ?_, fun v => ?_⟩
  · cases d.conditions <;> simp
  · cases d.conditions with
    | nil => rfl
    | cons c cs =>
      rw [List.head?_cons, Option.map_some, Option.elim_some, List.tail_cons,
        ConditionTree.holds_condition, holds_chain]

/-- If a text is a statement, its conditions can be read. There are none exactly if the text has
neither of the words WHERE and ON, and no plan fails for them. Their value is that of all the
conditions in the text together: in each, `AND` binds tighter than `OR`, and parentheses group. -/
theorem condition_of_ofText {s : Statement} (h : Statement.ofText text = .ok s) :
    ∃ (d : SelectTree) (condition : Option Condition),
      Token.ofText text = .ok d.tokens ∧ d.statement = s ∧
      Condition.ofTerms s.conditions = .ok condition ∧
      (condition = none ↔ .keyword .WHERE ∉ d.tokens ∧ .keyword .ON ∉ d.tokens) ∧
      (∀ v, condition.elim true (Formula.holds v) = d.conditions.all (·.holds v)) ∧
      ∀ config catalog,
        (∀ fault, compile text config catalog ≠ .error (.plan (.malformedCondition fault))) ∧
        ∀ word, compile text config catalog ≠ .error (.plan (.invalidOperator word)) := by
  obtain ⟨d, htokens, rfl⟩ := exists_tree_of_ofText h
  obtain ⟨condition, hread, hnone, hholds⟩ := d.exists_ofTerms
  refine ⟨d, condition, htokens, rfl, hread, hnone.trans d.conditions_eq_nil_iff, hholds,
    fun config catalog => ?_⟩
  -- an error of the plan is one of the table
  have hblameless : ∀ e, compile text config catalog = .error (.plan e) →
      e.blamesCondition = false := by
    intro e he
    rw [compile_of_tokens htokens, Query.plan] at he
    cases htable : Query.table d.statement config catalog with
    | ok t =>
      rw [htable] at he
      cases he
    | error e' =>
      rw [htable] at he
      obtain rfl : e' = e := QueryError.plan.inj (Except.error.inj he)
      exact Query.blameless_table hread config catalog e' htable
  exact ⟨fun fault he => Bool.noConfusion (hblameless _ he),
    fun word he => Bool.noConfusion (hblameless _ he)⟩

/-- A join on a disjunction; the condition of the statement is one too. -/
def disjunctiveJoin : SelectTree where
  item := .column "x"
  items := []
  relation := .plain "t" .none
  joins := [.innerJoin (.plain "u" .none)
    (.more (.comparison (.name "t.k") (.symbol .eq) (.name "u.k")) .and
      (.more (.comparison (.name "a") (.symbol .eq) (.integer 1)) .or
        (.more (.comparison (.name "t.k") (.symbol .eq) (.name "u.k")) .and
          (.last (.comparison (.name "b") (.symbol .eq) (.integer 2))))))]
  filter := some (.more (.comparison (.name "x") (.symbol .gt) (.integer 3)) .or
    (.last (.group (.last (.comparison (.name "a") (.word .lt "lt" rfl) (.integer 4))))))
  sample := some 5
  semicolon := true

def disjunctiveJoinText : String :=
  "select x from t inner join u on t.k = u.k and a = 1 or t.k = u.k and b = 2 " ++
    "where x > 3 or (a lt 4) tablesample (5);"

theorem ofText_disjunctiveJoin : Token.ofText disjunctiveJoinText = .ok disjunctiveJoin.tokens :=
  toOption_eq_some_iff.1 (by decide +kernel)

/-- Each of the two conditions keeps its `OR` to itself. -/
theorem condition_disjunctiveJoin : ∃ s c,
    Statement.ofText disjunctiveJoinText = .ok s ∧
    Condition.ofTerms s.conditions = .ok (some c) ∧
    ∀ v, c.holds v =
      ((v (comparisonOf (.name "t.k") (.symbol .eq) (.name "u.k")) &&
          v (comparisonOf (.name "a") (.symbol .eq) (.integer 1)) ||
        v (comparisonOf (.name "t.k") (.symbol .eq) (.name "u.k")) &&
          v (comparisonOf (.name "b") (.symbol .eq) (.integer 2))) &&
      (v (comparisonOf (.name "x") (.symbol .gt) (.integer 3)) ||
        v (comparisonOf (.name "a") (.word .lt "lt" rfl) (.integer 4)))) := by
  have hs := ofText_of_tokens ofText_disjunctiveJoin
  obtain ⟨d, condition, htokens, -, hread, hnone, hholds, -⟩ := condition_of_ofText hs
  obtain rfl := SelectTree.tokens_injective
    (Except.ok.inj (htokens.symm.trans ofText_disjunctiveJoin))
  -- the statement has a `where`, so there is a condition
  cases condition with
  | none =>
    have hmem : .keyword .WHERE ∈ disjunctiveJoin.tokens := by decide
    exact absurd hmem (hnone.1 rfl).1
  | some c =>
    refine ⟨_, c, hs, hread, fun v => (hholds v).trans ?_⟩
    simp [disjunctiveJoin, SelectTree.conditions, JoinTree.condition?, ConditionTree.holds,
      ConditionTree.values, TermTree.holds, prepend]

/-! ### Joins without ON -/

namespace Query

/-- Of the conditions of a statement only matters what they are read as. -/
theorem table_congr {s s' : Statement} (hcolumns : s.columns = s'.columns)
    (hrelations : s.relations = s'.relations) (hsample : s.sample = s'.sample)
    (hconditions : Condition.ofTerms s.conditions = Condition.ofTerms s'.conditions) :
    table s config catalog = table s' config catalog := by
  have hclassify : ∀ tables, classifyTerms tables s.conditions =
      classifyTerms tables s'.conditions := by
    intro tables
    rw [classifyTerms, classifyTerms, hconditions]
  unfold table
  rw [hcolumns, hrelations, hsample]
  simp only [hclassify]

end Query

namespace Statement

/-- The relation behind a comma or a join. -/
def JoinTree.right : JoinTree → RelationTree
  | comma r => r
  | join r _ => r
  | innerJoin r _ => r

/-- The statement that lists the relations of another one. All conditions of that statement stand
behind the word WHERE, each in parentheses, with `AND`s between them. -/
def SelectTree.withoutOn (d : SelectTree) : SelectTree :=
  { d with
    joins := d.joins.map fun j => .comma j.right
    filter := d.conditions.head?.map fun c => chain c d.conditions.tail }

namespace SelectTree

variable (d : SelectTree)

theorem relations_withoutOn : d.withoutOn.statement.relations = d.statement.relations := by
  have hright : ∀ j : JoinTree, (JoinTree.comma j.right).relation = j.relation := by
    intro j
    cases j <;> rfl
  rw [statement, statement, withoutOn, List.map_map]
  exact congrArg (d.relation.relation :: ·) (List.map_congr_left fun j _ => hright j)

theorem conditions_withoutOn : d.withoutOn.conditions =
    (d.conditions.head?.map fun c => chain c d.conditions.tail).toList := by
  have hcommas : (d.joins.map fun j => JoinTree.comma j.right).filterMap JoinTree.condition? =
      [] := by
    rw [List.filterMap_map]
    exact List.filterMap_eq_nil_iff.2 fun j _ => rfl
  rw [conditions, withoutOn, hcommas, List.nil_append]

/-- Both statements have the same condition. -/
theorem ofTerms_withoutOn : Condition.ofTerms d.withoutOn.statement.conditions =
    Condition.ofTerms d.statement.conditions := by
  rw [statement, statement, ofTerms_conjunction, ofTerms_conjunction, conditions_withoutOn]
  cases d.conditions with
  | nil => rfl
  | cons c cs =>
    rw [List.head?_cons, Option.map_some, Option.toList_some, List.head?_cons, Option.map_some,
      List.tail_cons, List.tail_cons, condition_chain_nil, Option.map_some]

end SelectTree

end Statement

/-- Joining relations on conditions gives the same plan, or the same error, as listing them with the
conditions behind the word WHERE. -/
theorem compile_withoutOn (d : SelectTree) (h : Token.ofText text = .ok d.tokens)
    (h' : Token.ofText text' = .ok d.withoutOn.tokens) :
    compile text config catalog = compile text' config catalog := by
  have htable : Query.table d.statement config catalog =
      Query.table d.withoutOn.statement config catalog :=
    Query.table_congr rfl d.relations_withoutOn.symm rfl d.ofTerms_withoutOn.symm
  rw [compile_of_tokens h, compile_of_tokens h', Query.plan, Query.plan, htable]

/-- The same relations, listed, and the same conditions in parentheses. -/
def listedJoinText : String :=
  "select x from t, u where (t.k = u.k and a = 1 or t.k = u.k and b = 2) " ++
    "and (x > 3 or (a lt 4)) tablesample (5);"

def disjunctiveJoinCatalog : Catalog :=
  .ofList [("t", ["k", "a", "x"]), ("u", ["k", "b"])]

theorem compile_listedJoin :
    (compile disjunctiveJoinText {} disjunctiveJoinCatalog).isOk ∧
    compile disjunctiveJoinText {} disjunctiveJoinCatalog =
      compile listedJoinText {} disjunctiveJoinCatalog := by
  have hlisted : Token.ofText listedJoinText = .ok disjunctiveJoin.withoutOn.tokens :=
    toOption_eq_some_iff.1 (by decide +kernel)
  refine ⟨?_, compile_withoutOn disjunctiveJoin ofText_disjunctiveJoin hlisted⟩
  rw [compile_of_tokens ofText_disjunctiveJoin]
  decide +kernel

end ShellQuery
