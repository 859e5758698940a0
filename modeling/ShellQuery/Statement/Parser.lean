import ShellQuery.Statement.Basic
import ShellQuery.Text.Split
import ShellQuery.Token.Lexer

/-!
# From tokens to a statement

The grammar, with optional parts in brackets and repeated ones in braces:

    statement := SELECT item {, item} FROM relation {join} [WHERE condition]
                 [TABLESAMPLE ( integer )] [;]
    item      := * | name | COUNT ( * ) | COUNT ( name )
    relation  := (name | string) [[AS] name]
    join      := , relation | [INNER] JOIN relation ON condition
    condition := term {(AND | OR) term}
    term      := ( condition ) | operand operator operand

Every function below takes the tokens from where its part begins and gives the ones behind it.
-/

namespace ShellQuery.Statement

/-- Takes a keyword. -/
def expectKeyword (k : Keyword) (ts : List Token) : Except SyntaxError (List Token) :=
  match ts with
  | .keyword k' :: rest =>
    if k' = k then .ok rest else .error (.expected (.keyword k) (some (.keyword k')))
  | ts => .error (.expected (.keyword k) ts.head?)

/-! ### The select list -/

/-- The error of a count whose parentheses or argument are wrong, from behind the word COUNT. -/
def countError : List Token → SyntaxError
  | .openParen :: .asterisk :: ts => .expected .countClose ts.head?
  | .openParen :: .name _ :: ts => .expected .countClose ts.head?
  | .openParen :: t :: _ => .badCountArgument t
  | [.openParen] => .expected .countArgument none
  | ts => .expected .countOpen ts.head?

mutual

/-- Reads the select list from where an item has to begin. -/
def readItem (items : List String) : List Token → Except SyntaxError (List String × List Token)
  | .asterisk :: ts => readComma (items ++ ["*"]) ts
  | .name n :: ts => readComma (items ++ [n]) ts
  | .keyword .COUNT :: .openParen :: .asterisk :: .closeParen :: ts =>
    readComma (items ++ ["count(*)"]) ts
  | .keyword .COUNT :: .openParen :: .name n :: .closeParen :: ts =>
    readComma (items ++ ["count(" ++ n ++ ")"]) ts
  | .keyword .COUNT :: ts => .error (countError ts)
  | ts => .error (.expected .selectItem ts.head?)

/-- Reads the select list from where an item has ended. -/
def readComma (items : List String) : List Token → Except SyntaxError (List String × List Token)
  | .comma :: ts => readItem items ts
  | ts => .ok (items, ts)

end

/-! ### Relations -/

/-- Reads the alias of a relation, if there is one. -/
def readLabel : List Token → Except SyntaxError (Option String × List Token)
  | .keyword .AS :: .name label :: ts => .ok (some label, ts)
  | .keyword .AS :: ts => .error (.expected .label ts.head?)
  | .name label :: ts => .ok (some label, ts)
  | ts => .ok (none, ts)

/-- Reads a relation: its path, plain or as a string, and its alias. -/
def readRelation : List Token → Except SyntaxError (Relation × List Token)
  | .name path :: ts => (readLabel ts).map fun r => (⟨path, r.1⟩, r.2)
  | .string path :: ts => (readLabel ts).map fun r => (⟨path, r.1⟩, r.2)
  | ts => .error (.expected .relationPath ts.head?)

/-! ### Conditions -/

/-- Numbers in operands are written in full, whole ones without a point. -/
def operandNumbers : NumberLayout :=
  ⟨none, ""⟩

/-- The text of an operand. A string keeps its quotes, which tell it from a column. -/
def operandText? : Token → Option String
  | .name n => some n
  | .integer n => some (toString n)
  | .float x => some (operandNumbers.text x)
  | .string s => some (String.ofList ('\'' :: Text.double '\'' s.toList ++ ['\'']))
  | _ => none

/-- The text of an operator in a statement. -/
def operatorText : Operator → String
  | .eq => "="
  | .ne => "!="
  | .lt => "<"
  | .le => "<="
  | .gt => ">"
  | .ge => ">="

/-- The operator that a word of two letters names, whatever its case. -/
def operatorOfWord? (word : String) : Option Operator :=
  let w := Text.lower word
  if w = "eq" then some .eq
  else if w = "ne" then some .ne
  else if w = "lt" then some .lt
  else if w = "le" then some .le
  else if w = "gt" then some .gt
  else if w = "ge" then some .ge
  else none

/-- The operator that a token stands for: a symbol or a word. -/
def operatorOf? : Token → Option Operator
  | .operator o => some o
  | .name w => operatorOfWord? w
  | _ => none

/-- The comparison that three tokens are. -/
def comparison? (left operator right : Token) : Option Term := do
  let l ← operandText? left
  let o ← operatorOf? operator
  let r ← operandText? right
  return .comparison l (operatorText o) r

/-- The error of tokens that begin with no comparison. -/
def comparisonError : List Token → SyntaxError
  | [] => .expected .operand none
  | left :: ts =>
    if (operandText? left).isNone then .expected .operand (some left)
    else
      match ts with
      | [] => .expected .comparisonOperator none
      | operator :: ts =>
        if (operatorOf? operator).isSome then .expected .operand ts.head?
        else
          match operator with
          | .name w => .badOperatorWord w
          | t => .expected .comparisonOperator (some t)

mutual

/-- Reads a condition from where a term has to begin. The terms before it are in `terms`, and those
before each open parenthesis, the innermost first, in `outer`. -/
def readTerm (outer : List (List Term)) (terms : List Term) :
    List Token → Except SyntaxError (List Term × List Token)
  | .openParen :: ts => readTerm (terms :: outer) [] ts
  | .keyword .NOT :: _ => .error .negation
  | left :: operator :: right :: ts =>
    match comparison? left operator right with
    | some c => readConnective outer (terms ++ [c]) ts
    | none => .error (comparisonError (left :: operator :: right :: ts))
  | ts => .error (comparisonError ts)

/-- Reads a condition from where a term has ended. -/
def readConnective (outer : List (List Term)) (terms : List Term) :
    List Token → Except SyntaxError (List Term × List Token)
  | .keyword .AND :: ts => readTerm outer (terms ++ [.and]) ts
  | .keyword .OR :: ts => readTerm outer (terms ++ [.or]) ts
  | .closeParen :: ts =>
    match outer with
    | [] => .ok (terms, .closeParen :: ts)
    | before :: outer => readConnective outer (before ++ [.group terms]) ts
  | ts =>
    match outer with
    | [] => .ok (terms, ts)
    | _ :: _ => .error (.expected .closeParen ts.head?)

end

/-- Reads a condition. -/
def readCondition (ts : List Token) : Except SyntaxError (List Term × List Token) :=
  readTerm [] [] ts

/-! ### Joins -/

/-- Reads a relation and the condition it is joined on. -/
def readJoined (ts : List Token) : Except SyntaxError (Relation × List Term × List Token) := do
  let (relation, ts) ← readRelation ts
  let ts ← expectKeyword .ON ts
  let (terms, ts) ← readCondition ts
  return (relation, terms, ts)

theorem length_of_expectKeyword {k : Keyword} {ts rest : List Token}
    (h : expectKeyword k ts = .ok rest) : rest.length < ts.length := by
  unfold expectKeyword at h
  split at h
  · split at h <;> simp_all
  · simp at h

theorem length_of_readLabel {ts rest : List Token} {label : Option String}
    (h : readLabel ts = .ok (label, rest)) : rest.length ≤ ts.length := by
  unfold readLabel at h
  split at h
  · obtain ⟨-, rfl⟩ := Prod.mk.inj (Except.ok.inj h)
    simp only [List.length_cons]
    omega
  · cases h
  · obtain ⟨-, rfl⟩ := Prod.mk.inj (Except.ok.inj h)
    simp only [List.length_cons]
    omega
  · obtain ⟨-, rfl⟩ := Prod.mk.inj (Except.ok.inj h)
    exact Nat.le_refl _

theorem length_of_readRelation {ts rest : List Token} {r : Relation}
    (h : readRelation ts = .ok (r, rest)) : rest.length < ts.length := by
  unfold readRelation at h
  split at h
  case h_3 => simp at h
  all_goals
    rename_i ts'
    cases hl : readLabel ts' with
    | error e => simp [hl, Except.map] at h
    | ok l =>
      simp only [hl, Except.map, Except.ok.injEq, Prod.mk.injEq] at h
      obtain ⟨-, rfl⟩ := h
      have := length_of_readLabel hl
      simp only [List.length_cons]
      omega

theorem length_of_readTerm_and_readConnective :
    (∀ (outer : List (List Term)) (terms : List Term) (ts : List Token),
      ∀ result rest, readTerm outer terms ts = .ok (result, rest) → rest.length ≤ ts.length) ∧
    (∀ (outer : List (List Term)) (terms : List Term) (ts : List Token),
      ∀ result rest, readConnective outer terms ts = .ok (result, rest) →
        rest.length ≤ ts.length) := by
  apply readTerm.mutual_induct
  case case1 =>
    intro outer terms ts ih result rest h
    have := ih result rest (by simpa [readTerm] using h)
    simp only [List.length_cons]
    omega
  case case3 =>
    intro outer terms left operator right ts h₁ h₂ c hc ih result rest h
    have := ih result rest (by simpa [readTerm, hc] using h)
    simp only [List.length_cons]
    omega
  case case6 =>
    intro outer terms ts ih result rest h
    have := ih result rest (by simpa [readConnective] using h)
    simp only [List.length_cons]
    omega
  case case7 =>
    intro outer terms ts ih result rest h
    have := ih result rest (by simpa [readConnective] using h)
    simp only [List.length_cons]
    omega
  case case9 =>
    intro terms ts before outer ih result rest h
    have := ih result rest (by simpa [readConnective] using h)
    simp only [List.length_cons]
    omega
  case case2 => simp [readTerm]
  case case4 => simp_all [readTerm]
  case case5 =>
    intro outer terms ts h₁ h₂ h₃ result rest h
    simp_all [readTerm]
  case case8 => simp +contextual [readConnective]
  case case10 =>
    intro terms ts h₁ h₂ h₃ result rest h
    simp_all [readConnective]
  case case11 =>
    intro terms ts h₁ h₂ h₃ before outer result rest h
    simp_all [readConnective]

theorem length_of_readJoined {ts rest : List Token} {r : Relation} {terms : List Term}
    (h : readJoined ts = .ok (r, terms, rest)) : rest.length < ts.length := by
  simp only [readJoined] at h
  cases hr : readRelation ts with
  | error e => simp [hr, bind, Except.bind] at h
  | ok p =>
    obtain ⟨r', ts₁⟩ := p
    simp only [hr, bind, Except.bind] at h
    cases hk : expectKeyword .ON ts₁ with
    | error e => simp [hk] at h
    | ok ts₂ =>
      simp only [hk] at h
      cases hc : readCondition ts₂ with
      | error e => simp [hc] at h
      | ok q =>
        obtain ⟨c, ts₃⟩ := q
        simp only [hc, pure, Except.pure, Except.ok.injEq, Prod.mk.injEq] at h
        obtain ⟨-, -, rfl⟩ := h
        have := length_of_readRelation hr
        have := length_of_expectKeyword hk
        have := length_of_readTerm_and_readConnective.1 _ _ _ _ _ hc
        omega

/-- A relation of the statement behind the first one, with the condition it is joined on. -/
abbrev Joined := Relation × Option (List Term)

/-- Reads the relations behind the first one. -/
def readJoins : List Token → Except SyntaxError (List Joined × List Token)
  | .comma :: ts =>
    match _h : readRelation ts with
    | .error e => .error e
    | .ok (r, rest) => (readJoins rest).map fun js => ((r, none) :: js.1, js.2)
  | .keyword .LEFT :: _ => .error .outerJoin
  | .keyword .RIGHT :: _ => .error .outerJoin
  | .keyword .FULL :: _ => .error .outerJoin
  | .keyword .INNER :: .keyword .JOIN :: ts =>
    match _h : readJoined ts with
    | .error e => .error e
    | .ok (r, terms, rest) => (readJoins rest).map fun js => ((r, some terms) :: js.1, js.2)
  | .keyword .INNER :: ts => .error (.expected (.keyword .JOIN) ts.head?)
  | .keyword .JOIN :: ts =>
    match _h : readJoined ts with
    | .error e => .error e
    | .ok (r, terms, rest) => (readJoins rest).map fun js => ((r, some terms) :: js.1, js.2)
  | ts => .ok ([], ts)
termination_by ts => ts.length
decreasing_by
  · have := length_of_readRelation _h
    simp only [List.length_cons]
    omega
  · have := length_of_readJoined _h
    simp only [List.length_cons]
    omega
  · have := length_of_readJoined _h
    simp only [List.length_cons]
    omega

/-! ### The statement -/

/-- Reads the condition behind the word WHERE, if there is one. -/
def readWhere : List Token → Except SyntaxError (Option (List Term) × List Token)
  | .keyword .WHERE :: ts => (readCondition ts).map fun r => (some r.1, r.2)
  | ts => .ok (none, ts)

/-- The error of a sample whose parentheses or size are wrong, from behind the word TABLESAMPLE. -/
def sampleError : List Token → SyntaxError
  | .openParen :: .integer n :: ts =>
    if 0 ≤ n then .expected .closeParen ts.head? else .badSampleSize (.integer n)
  | .openParen :: t :: _ => .badSampleSize t
  | [.openParen] => .expected .rowCount none
  | ts => .expected .openParen ts.head?

/-- Reads the size of the sample, if one is asked for. -/
def readSample : List Token → Except SyntaxError (Option Nat × List Token)
  | .keyword .TABLESAMPLE :: .openParen :: .integer (.ofNat n) :: .closeParen :: ts =>
    .ok (some n, ts)
  | .keyword .TABLESAMPLE :: ts => .error (sampleError ts)
  | ts => .ok (none, ts)

/-- Takes a semicolon, if there is one, and the end of the text. -/
def readEnd : List Token → Except SyntaxError Unit
  | [] => .ok ()
  | [.semicolon] => .ok ()
  | .semicolon :: t :: _ => .error (.trailing t)
  | t :: _ => .error (.trailing t)

/-- Puts conditions together, each in its own parentheses; a single one stands for itself. -/
def combine : List (List Term) → List Term
  | [terms] => terms
  | conditions => (conditions.map Term.group).intersperse .and

/-- The statement that a list of tokens is. -/
def ofTokens (ts : List Token) : Except SyntaxError Statement := do
  let ts ← expectKeyword .SELECT ts
  let (columns, ts) ← readItem [] ts
  let ts ← expectKeyword .FROM ts
  let (first, ts) ← readRelation ts
  let (joins, ts) ← readJoins ts
  let (condition, ts) ← readWhere ts
  let (sample, ts) ← readSample ts
  readEnd ts
  return {
    columns := columns
    relations := first :: joins.map (·.1)
    conditions := combine (joins.filterMap (·.2) ++ condition.toList)
    sample := sample }

/-- The statement that a text is. -/
def ofText (text : String) : Except ReadError Statement := do
  let tokens ← Token.ofText text
  (ofTokens tokens).mapError .malformed

end ShellQuery.Statement
