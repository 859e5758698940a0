import ShellQuery.Proofs.Outcome
import ShellQuery.Proofs.Statement.Grammar

/-!
# Parsing accepts exactly the grammar

A function that reads one symbol of the grammar is right if it succeeds only on tokens that some
tree of the symbol derives, with what the tree denotes, and does succeed on the tokens of every
tree, whatever comes next that does not continue them (`Reads`). There is one such statement for
every symbol, and from them follows the one for whole statements (`ofTokens_ok_iff_tree`).

A condition is read without recursion into its parentheses: the terms before each open one wait on
a stack. What the stack holds and what was read so far do not matter for the tokens that come next
(`readTerm_condition`, `exists_condition_of_readTerm`).
-/

namespace ShellQuery.Statement

/-- A function reads the trees of a type, each with its value. The tokens behind a tree are such
that they do not continue it. -/
structure Reads {T α : Type} (read : List Token → Except SyntaxError (α × List Token))
    (tokens : T → List Token) (value : T → α) (follows : List Token → Prop) : Prop where
  sound : ∀ {ts rest : List Token} {a : α}, read ts = .ok (a, rest) →
    ∃ x, tokens x ++ rest = ts ∧ value x = a
  complete : ∀ (x : T) (rest : List Token), follows rest →
    read (tokens x ++ rest) = .ok (value x, rest)

/-- A keyword is expected exactly where it stands. -/
theorem expectKeyword_ok_iff {k : Keyword} {ts rest : List Token} :
    expectKeyword k ts = .ok rest ↔ ts = .keyword k :: rest := by
  unfold expectKeyword
  split
  · rename_i k' us
    by_cases h : k' = k
    · simp [h]
    · simp [h]
  · rename_i hts
    constructor
    · intro h
      cases h
    · intro h
      exact absurd h (hts k rest)

/-! ### Comparisons -/

/-- The tokens that can be compared are those of the operand trees. -/
theorem operandText?_eq_some_iff {t : Token} {x : String} :
    operandText? t = some x ↔ ∃ a : OperandTree, a.token = t ∧ a.text = x := by
  constructor
  · intro h
    cases t with
    | name n => exact ⟨.name n, rfl, Option.some.inj h⟩
    | integer n => exact ⟨.integer n, rfl, Option.some.inj h⟩
    | float y => exact ⟨.float y, rfl, Option.some.inj h⟩
    | string s => exact ⟨.string s, rfl, Option.some.inj h⟩
    | _ => cases h
  · rintro ⟨a, rfl, rfl⟩
    cases a <;> rfl

theorem operatorOfWord?_operatorWord (o : Operator) :
    operatorOfWord? (operatorWord o) = some o := by
  cases o <;> decide

/-- An operator is read from the spellings of its word, and from no other text. -/
theorem operatorOfWord?_eq_some_iff {w : String} {o : Operator} :
    operatorOfWord? w = some o ↔ Text.sameIgnoringCase w (operatorWord o) = true := by
  have hlower : ∀ v : String, operatorOfWord? v = operatorOfWord? (Text.lower v) := by
    intro v
    simp only [operatorOfWord?, Text.lower_lower]
  constructor
  · intro h
    rw [Text.sameIgnoringCase, beq_iff_eq, lower_operatorWord]
    simp only [operatorOfWord?] at h
    -- six words are tried, and each test is the one of the word
    split_ifs at h with h₁ h₂ h₃ h₄ h₅ h₆ <;> obtain rfl := Option.some.inj h <;> assumption
  · intro h
    rw [hlower, OperatorTree.lower_of_spelled h]
    exact operatorOfWord?_operatorWord o

/-- The tokens that compare are those of the operator trees. -/
theorem operatorOf?_eq_some_iff {t : Token} {o : Operator} :
    operatorOf? t = some o ↔ ∃ s : OperatorTree, s.token = t ∧ s.operator = o := by
  constructor
  · intro h
    cases t with
    | operator o' => exact ⟨.symbol o', rfl, Option.some.inj h⟩
    | name w => exact ⟨.word o w (operatorOfWord?_eq_some_iff.1 h), rfl, rfl⟩
    | _ => cases h
  · rintro ⟨s, rfl, rfl⟩
    cases s with
    | symbol o' => rfl
    | word o' w hw => exact operatorOfWord?_eq_some_iff.2 hw

/-- Three tokens are a comparison exactly if they are those of a comparison tree, and they mean what
it denotes. -/
theorem comparison?_eq_some_iff {left operator right : Token} {c : Term} :
    comparison? left operator right = some c ↔
      ∃ l o r, [left, operator, right] = (TermTree.comparison l o r).tokens ∧
        (TermTree.comparison l o r).term = c := by
  simp only [comparison?, Option.bind_eq_bind, Option.bind_eq_some_iff, Option.pure_def,
    Option.some.injEq, operandText?_eq_some_iff, operatorOf?_eq_some_iff, TermTree.tokens,
    TermTree.term, List.cons.injEq, and_true]
  constructor
  · rintro ⟨_, ⟨l, rfl, rfl⟩, _, ⟨o, rfl, rfl⟩, _, ⟨r, rfl, rfl⟩, rfl⟩
    exact ⟨l, o, r, ⟨rfl, rfl, rfl⟩, rfl⟩
  · rintro ⟨l, o, r, ⟨rfl, rfl, rfl⟩, rfl⟩
    exact ⟨_, ⟨l, rfl, rfl⟩, _, ⟨o, rfl, rfl⟩, _, ⟨r, rfl, rfl⟩, rfl⟩

/-! ### Conditions -/

/-- A comparison is read at once, as no operand begins like a parenthesis. -/
theorem readTerm_comparison (outer : List (List Term)) (terms : List Term) (l : OperandTree)
    (o : OperatorTree) (r : OperandTree) (ts : List Token) :
    readTerm outer terms ((TermTree.comparison l o r).tokens ++ ts) =
      readConnective outer (terms ++ [(TermTree.comparison l o r).term]) ts := by
  have hc : comparison? l.token o.token r.token = some (TermTree.comparison l o r).term :=
    comparison?_eq_some_iff.2 ⟨l, o, r, rfl, rfl⟩
  simp only [TermTree.tokens, List.cons_append, List.nil_append]
  rw [readTerm]
  · rw [hc]
  · cases l <;> simp [OperandTree.token]
  · cases l <;> simp [OperandTree.token]

theorem readConnective_token (outer : List (List Term)) (terms : List Term) (k : Connective)
    (ts : List Token) :
    readConnective outer terms (k.token :: ts) = readTerm outer (terms ++ [k.term]) ts := by
  cases k <;> simp [Connective.token, Connective.term, readConnective]

mutual

/-- The tokens of a condition add its terms to those before it. -/
theorem readTerm_condition : ∀ (c : ConditionTree) (outer : List (List Term)) (terms : List Term)
    (ts : List Token),
    readTerm outer terms (c.tokens ++ ts) = readConnective outer (terms ++ c.terms) ts
  | .last t, outer, terms, ts => readTerm_term t outer terms ts
  | .more t k c, outer, terms, ts => by
    calc readTerm outer terms ((ConditionTree.more t k c).tokens ++ ts)
        = readTerm outer terms (t.tokens ++ k.token :: (c.tokens ++ ts)) := by
          rw [ConditionTree.tokens, List.append_assoc, List.cons_append]
      _ = readConnective outer (terms ++ [t.term]) (k.token :: (c.tokens ++ ts)) :=
          readTerm_term t _ _ _
      _ = readTerm outer (terms ++ [t.term] ++ [k.term]) (c.tokens ++ ts) :=
          readConnective_token _ _ _ _
      _ = readConnective outer (terms ++ [t.term] ++ [k.term] ++ c.terms) ts :=
          readTerm_condition c _ _ _
      _ = readConnective outer (terms ++ (ConditionTree.more t k c).terms) ts := by
          simp [ConditionTree.terms]

/-- The tokens of a term add it to the terms before it. Those of a group are read on a stack that is
higher by one, and its closing parenthesis brings the stack back. -/
theorem readTerm_term : ∀ (t : TermTree) (outer : List (List Term)) (terms : List Term)
    (ts : List Token),
    readTerm outer terms (t.tokens ++ ts) = readConnective outer (terms ++ [t.term]) ts
  | .group c, outer, terms, ts => by
    calc readTerm outer terms ((TermTree.group c).tokens ++ ts)
        = readTerm (terms :: outer) [] (c.tokens ++ .closeParen :: ts) := by
          rw [TermTree.tokens, List.append_assoc, List.cons_append, readTerm, List.singleton_append]
      _ = readConnective (terms :: outer) ([] ++ c.terms) (.closeParen :: ts) :=
          readTerm_condition c _ _ _
      _ = readConnective outer (terms ++ [(TermTree.group c).term]) ts := by
          simp [readConnective, TermTree.term]
  | .comparison l o r, outer, terms, ts => readTerm_comparison outer terms l o r ts

end

variable {outer : List (List Term)} {terms : List Term} {ts : List Token}
  {result : List Term × List Token}

/-- Where a term has to begin, there is a parenthesis or a comparison. -/
theorem readTerm_ok_cases (h : readTerm outer terms ts = .ok result) :
    (∃ us, ts = .openParen :: us ∧ readTerm (terms :: outer) [] us = .ok result) ∨
    ∃ l o r us, ts = (TermTree.comparison l o r).tokens ++ us ∧
      readConnective outer (terms ++ [(TermTree.comparison l o r).term]) us = .ok result := by
  unfold readTerm at h
  split at h
  · exact Or.inl ⟨_, rfl, h⟩
  · cases h
  · rename_i left operator right us _ _
    split at h
    · rename_i c hc
      obtain ⟨l, o, r, htokens, rfl⟩ := comparison?_eq_some_iff.1 hc
      refine Or.inr ⟨l, o, r, us, ?_, h⟩
      rw [← htokens]
      rfl
    · cases h
  · cases h

/-- Where a term has ended, there is a connective, or the condition ends: for good or, inside
parentheses, with the one that closes it. -/
theorem readConnective_ok_cases (h : readConnective outer terms ts = .ok result) :
    (∃ k us, ts = Connective.token k :: us ∧
      readTerm outer (terms ++ [k.term]) us = .ok result) ∨
    Ends continuesCondition ts ∧
      (outer = [] ∧ result = (terms, ts) ∨
        ∃ before outer' us, outer = before :: outer' ∧ ts = .closeParen :: us ∧
          readConnective outer' (before ++ [.group terms]) us = .ok result) := by
  unfold readConnective at h
  split at h
  · exact Or.inl ⟨.and, _, rfl, h⟩
  · exact Or.inl ⟨.or, _, rfl, h⟩
  · refine Or.inr ⟨rfl, ?_⟩
    split at h
    · exact Or.inl ⟨rfl, (Except.ok.inj h).symm⟩
    · exact Or.inr ⟨_, _, _, rfl, rfl, h⟩
  · rename_i hand hor _
    -- neither connective begins the text
    have hts : Ends continuesCondition ts := by
      cases ts with
      | nil => rfl
      | cons t us =>
        rw [ends_cons]
        unfold continuesCondition
        split
        · exact absurd rfl (hand us)
        · exact absurd rfl (hor us)
        · rfl
    refine Or.inr ⟨hts, ?_⟩
    split at h
    · exact Or.inl ⟨rfl, (Except.ok.inj h).symm⟩
    · cases h

/-- Tokens that can be read from where a term has to begin start with a whole condition, however
deep in parentheses that is. -/
theorem exists_condition_of_readTerm (h : readTerm outer terms ts = .ok result) :
    ∃ c us, ts = ConditionTree.tokens c ++ us ∧ Ends continuesCondition us ∧
      readConnective outer (terms ++ c.terms) us = .ok result := by
  -- the tokens behind a closing parenthesis are no part of the call that read it, so the induction
  -- is on their number
  induction hn : ts.length using Nat.strongRecOn generalizing outer terms ts with
  | ind n ih =>
  have hterm : ∃ t us, ts = TermTree.tokens t ++ us ∧
      readConnective outer (terms ++ [t.term]) us = .ok result := by
    rcases readTerm_ok_cases h with ⟨us, rfl, hgroup⟩ | ⟨l, o, r, us, rfl, hrest⟩
    · obtain ⟨c, vs, rfl, hvs, hrest⟩ := ih us.length (by rw [← hn]; simp) hgroup rfl
      rcases readConnective_ok_cases hrest with ⟨k, ws, rfl, _⟩ | ⟨_, hend⟩
      · simp at hvs
      · rcases hend with ⟨hnil, _⟩ | ⟨before, outer', ws, houter, rfl, hrest⟩
        · cases hnil
        · obtain ⟨rfl, rfl⟩ := List.cons.inj houter
          refine ⟨.group c, ws, ?_, hrest⟩
          simp [TermTree.tokens]
    · exact ⟨_, us, rfl, hrest⟩
  obtain ⟨t, us, rfl, hrest⟩ := hterm
  rcases readConnective_ok_cases hrest with ⟨k, vs, rfl, hnext⟩ | ⟨hus, _⟩
  · have hlt : vs.length < n := by
      rw [← hn, List.length_append, List.length_cons]
      omega
    obtain ⟨c, ws, rfl, hws, hrest⟩ := ih vs.length hlt hnext rfl
    refine ⟨.more t k c, ws, ?_, hws, ?_⟩
    · simp [ConditionTree.tokens]
    · simpa [ConditionTree.terms] using hrest
  · exact ⟨.last t, us, rfl, hus, hrest⟩

/-- Outside of parentheses a condition ends where no connective follows. -/
theorem readConnective_of_ends (h : Ends continuesCondition ts) :
    readConnective [] terms ts = .ok (terms, ts) := by
  unfold readConnective
  split
  · cases h
  · cases h
  · rfl
  · rfl

/-- The reader of conditions is right: outside of parentheses nothing waits on its stack. -/
theorem reads_condition :
    Reads readCondition ConditionTree.tokens ConditionTree.terms (Ends continuesCondition) where
  sound := by
    intro ts rest terms h
    obtain ⟨c, us, rfl, hus, hrest⟩ := exists_condition_of_readTerm h
    rw [readConnective_of_ends hus] at hrest
    obtain ⟨rfl, rfl⟩ := Prod.mk.inj (Except.ok.inj hrest)
    exact ⟨c, rfl, rfl⟩
  complete := by
    intro c rest hrest
    rw [readCondition, readTerm_condition, readConnective_of_ends hrest]
    rfl

/-! ### The select list -/

theorem readItem_tokens (i : ItemTree) (items : List String) (ts : List Token) :
    readItem items (i.tokens ++ ts) = readComma (items ++ [i.text]) ts := by
  cases i <;> simp [ItemTree.tokens, ItemTree.text, readItem]

/-- What is read as an item are the tokens of one. -/
theorem exists_item_of_readItem {items : List String} {ts : List Token}
    {result : List String × List Token} (h : readItem items ts = .ok result) :
    ∃ i us, ts = ItemTree.tokens i ++ us ∧ readComma (items ++ [i.text]) us = .ok result := by
  unfold readItem at h
  split at h
  · exact ⟨.all, _, rfl, h⟩
  · exact ⟨.column _, _, rfl, h⟩
  · exact ⟨.countAll, _, rfl, h⟩
  · exact ⟨.countColumn _, _, rfl, h⟩
  · cases h
  · cases h

/-- The tokens that continue the select list. -/
def continuesItems : Token → Bool
  | .comma => true
  | _ => false

theorem readComma_of_ends {items : List String} {ts : List Token} (h : Ends continuesItems ts) :
    readComma items ts = .ok (items, ts) := by
  unfold readComma
  split
  · cases h
  · rfl

/-- The items behind the first one are read one by one, behind those that were read. -/
theorem readComma_tokens (is : List ItemTree) {rest : List Token}
    (h : Ends continuesItems rest) (items : List String) :
    readComma items (is.flatMap (.comma :: ·.tokens) ++ rest) =
      .ok (items ++ is.map ItemTree.text, rest) := by
  induction is generalizing items with
  | nil => simpa using readComma_of_ends h
  | cons i is ih =>
    rw [List.flatMap_cons, List.append_assoc, List.cons_append, readComma, readItem_tokens, ih]
    simp

/-- What is read behind an item are further items, each with its comma. -/
theorem exists_items_of_readComma {items : List String} {ts rest : List Token}
    {columns : List String} (h : readComma items ts = .ok (columns, rest)) :
    ∃ is : List ItemTree, is.flatMap (.comma :: ·.tokens) ++ rest = ts ∧
      items ++ is.map ItemTree.text = columns := by
  -- each item takes at least its comma
  induction hn : ts.length using Nat.strongRecOn generalizing items ts with
  | ind n ih =>
  unfold readComma at h
  split at h
  · obtain ⟨i, us, rfl, hrest⟩ := exists_item_of_readItem h
    have hlt : us.length < n := by
      rw [← hn, List.length_cons, List.length_append]
      omega
    obtain ⟨is, rfl, rfl⟩ := ih us.length hlt hrest rfl
    exact ⟨i :: is, by simp, by simp⟩
  · obtain ⟨rfl, rfl⟩ := Prod.mk.inj (Except.ok.inj h)
    exact ⟨[], rfl, by simp⟩

/-- The reader of select lists is right. -/
theorem reads_items :
    Reads (readItem []) (fun x : ItemTree × List ItemTree =>
        x.1.tokens ++ x.2.flatMap (.comma :: ·.tokens))
      (fun x => (x.1 :: x.2).map ItemTree.text) (Ends continuesItems) where
  sound := by
    intro ts rest columns h
    obtain ⟨i, us, rfl, hrest⟩ := exists_item_of_readItem h
    obtain ⟨is, rfl, rfl⟩ := exists_items_of_readComma hrest
    exact ⟨(i, is), by simp, rfl⟩
  complete := by
    intro x rest hrest
    rw [List.append_assoc, readItem_tokens, readComma_tokens x.2 hrest]
    rfl

/-! ### Relations -/

/-- The reader of aliases is right: without the word AS only a name is one. -/
theorem reads_label :
    Reads readLabel LabelTree.tokens LabelTree.label? (Ends continuesRelation) where
  sound := by
    intro ts rest label h
    unfold readLabel at h
    split at h
    · obtain ⟨rfl, rfl⟩ := Prod.mk.inj (Except.ok.inj h)
      exact ⟨.withAs _, rfl, rfl⟩
    · cases h
    · obtain ⟨rfl, rfl⟩ := Prod.mk.inj (Except.ok.inj h)
      exact ⟨.bare _, rfl, rfl⟩
    · obtain ⟨rfl, rfl⟩ := Prod.mk.inj (Except.ok.inj h)
      exact ⟨.none, rfl, rfl⟩
  -- a label that is left out is read as none only where no other form begins
  complete := by
    intro l rest hrest
    cases l with
    | none =>
      show readLabel rest = .ok (none, rest)
      unfold readLabel
      split
      · cases hrest
      · cases hrest
      · cases hrest
      · rfl
    | withAs label => rfl
    | bare label => rfl

/-- The reader of relations is right. -/
theorem reads_relation :
    Reads readRelation RelationTree.tokens RelationTree.relation (Ends continuesRelation) where
  sound := by
    intro ts rest r h
    unfold readRelation at h
    split at h
    · obtain ⟨⟨label, us⟩, hlabel, hr⟩ := map_ok_iff.1 h
      obtain ⟨rfl, rfl⟩ := Prod.mk.inj hr
      obtain ⟨l, rfl, rfl⟩ := reads_label.sound hlabel
      exact ⟨.plain _ l, rfl, rfl⟩
    · obtain ⟨⟨label, us⟩, hlabel, hr⟩ := map_ok_iff.1 h
      obtain ⟨rfl, rfl⟩ := Prod.mk.inj hr
      obtain ⟨l, rfl, rfl⟩ := reads_label.sound hlabel
      exact ⟨.quoted _ l, rfl, rfl⟩
    · cases h
  complete := by
    intro r rest hrest
    cases r with
    | plain path l => exact map_ok_iff.2 ⟨_, reads_label.complete l _ hrest, rfl⟩
    | quoted path l => exact map_ok_iff.2 ⟨_, reads_label.complete l _ hrest, rfl⟩

/-! ### Joins -/

/-- A relation that is joined on a condition is read part by part. -/
theorem exists_of_readJoined {ts rest : List Token} {relation : Relation} {terms : List Term}
    (h : readJoined ts = .ok (relation, terms, rest)) :
    ∃ (r : RelationTree) (c : ConditionTree), r.tokens ++ .keyword .ON :: (c.tokens ++ rest) = ts ∧
      r.relation = relation ∧ c.terms = terms := by
  obtain ⟨⟨relation', us⟩, hr, h⟩ := bind_ok_iff.1 h
  obtain ⟨vs, hon, h⟩ := bind_ok_iff.1 h
  obtain ⟨⟨terms', ws⟩, hc, h⟩ := bind_ok_iff.1 h
  cases pure_ok_iff.1 h
  obtain ⟨r, rfl, rfl⟩ := reads_relation.sound hr
  obtain rfl := expectKeyword_ok_iff.1 hon
  obtain ⟨c, rfl, rfl⟩ := reads_condition.sound hc
  exact ⟨r, c, rfl, rfl, rfl⟩

/-- Such a relation is read back, as the word ON ends it and what follows does not continue its
condition. -/
theorem readJoined_tokens (r : RelationTree) (c : ConditionTree) {rest : List Token}
    (h : Ends continuesCondition rest) :
    readJoined (r.tokens ++ .keyword .ON :: (c.tokens ++ rest)) =
      .ok (r.relation, c.terms, rest) := by
  have hr := reads_relation.complete r (.keyword .ON :: (c.tokens ++ rest)) rfl
  have hon := expectKeyword_ok_iff.2 (Eq.refl (Token.keyword .ON :: (c.tokens ++ rest)))
  exact bind_ok_iff.2 ⟨_, hr, bind_ok_iff.2 ⟨_, hon,
    bind_ok_iff.2 ⟨_, reads_condition.complete c _ h, rfl⟩⟩⟩

/-- What a join adds to a statement. -/
def JoinTree.joined (j : JoinTree) : Joined :=
  (j.relation, j.condition?.map ConditionTree.terms)

/-- The tokens of a join are read as one relation more. -/
theorem readJoins_tokens (j : JoinTree) {ts : List Token} (h : EndsJoin ts) :
    readJoins (j.tokens ++ ts) = (readJoins ts).map fun js => (j.joined :: js.1, js.2) := by
  -- each form of join begins with its own words
  cases j with
  | comma r =>
    have hr := reads_relation.complete r _ h.relation
    simp only [JoinTree.tokens, List.cons_append, readJoins]
    split <;> rename_i hread <;> cases hr.symm.trans hread
    rfl
  | join r c =>
    have hr := readJoined_tokens r c h.condition
    simp only [JoinTree.tokens, List.cons_append, List.append_assoc, readJoins]
    split <;> rename_i hread <;> cases hr.symm.trans hread
    rfl
  | innerJoin r c =>
    have hr := readJoined_tokens r c h.condition
    simp only [JoinTree.tokens, List.cons_append, List.append_assoc, readJoins]
    split <;> rename_i hread <;> cases hr.symm.trans hread
    rfl

theorem readJoins_of_ends {ts : List Token} (h : Ends beginsJoin ts) :
    readJoins ts = .ok ([], ts) := by
  unfold readJoins
  split
  case h_8 => rfl
  all_goals cases h

/-- Where a relation has ended, there is a join, or the relations end. -/
theorem readJoins_ok_cases {ts rest : List Token} {js : List Joined}
    (h : readJoins ts = .ok (js, rest)) :
    (js = [] ∧ rest = ts) ∨ ∃ j us js', ts = JoinTree.tokens j ++ us ∧ js = j.joined :: js' ∧
      readJoins us = .ok (js', rest) := by
  -- eight arms: a comma, the two joins that are read, the refused ones, and the end
  unfold readJoins at h
  split at h
  · split at h
    · cases h
    · rename_i hr
      obtain ⟨⟨js', _⟩, hjs, hres⟩ := map_ok_iff.1 h
      cases hres
      obtain ⟨r, rfl, rfl⟩ := reads_relation.sound hr
      exact Or.inr ⟨.comma r, _, js', rfl, rfl, hjs⟩
  · cases h
  · cases h
  · cases h
  · split at h
    · cases h
    · rename_i hr
      obtain ⟨⟨js', _⟩, hjs, hres⟩ := map_ok_iff.1 h
      cases hres
      obtain ⟨r, c, rfl, rfl, rfl⟩ := exists_of_readJoined hr
      exact Or.inr ⟨.innerJoin r c, _, js', by simp [JoinTree.tokens], rfl, hjs⟩
  · cases h
  · split at h
    · cases h
    · rename_i hr
      obtain ⟨⟨js', _⟩, hjs, hres⟩ := map_ok_iff.1 h
      cases hres
      obtain ⟨r, c, rfl, rfl, rfl⟩ := exists_of_readJoined hr
      exact Or.inr ⟨.join r c, _, js', by simp [JoinTree.tokens], rfl, hjs⟩
  · obtain ⟨rfl, rfl⟩ := Prod.mk.inj (Except.ok.inj h)
    exact Or.inl ⟨rfl, rfl⟩

/-- The reader of joins is right. -/
theorem reads_joins :
    Reads readJoins (List.flatMap JoinTree.tokens) (List.map JoinTree.joined)
      (fun ts => EndsJoin ts ∧ Ends beginsJoin ts) where
  sound := by
    intro ts rest js h
    -- the reader calls itself behind a whole join, not behind one token
    induction hn : ts.length using Nat.strongRecOn generalizing ts js with
    | ind n ih =>
    rcases readJoins_ok_cases h with ⟨rfl, rfl⟩ | ⟨j, us, js', rfl, rfl, hrest⟩
    · exact ⟨[], rfl, rfl⟩
    · have hlt : us.length < n := by
        rw [← hn]
        cases j <;> simp only [JoinTree.tokens, List.length_append, List.length_cons] <;> omega
      obtain ⟨trees, rfl, rfl⟩ := ih us.length hlt hrest rfl
      exact ⟨j :: trees, by simp, rfl⟩
  complete := by
    intro trees rest hrest
    induction trees with
    | nil => exact readJoins_of_ends hrest.2
    | cons j trees ih =>
      rw [List.flatMap_cons, List.append_assoc,
        readJoins_tokens j (endsJoin_joins_append trees hrest.1), ih]
      rfl

/-! ### The last parts -/

/-- The reader of filters is right. Where there is none, the word WHERE must not follow. -/
theorem reads_where :
    Reads readWhere filterTokens (·.map ConditionTree.terms)
      (fun ts => Ends continuesCondition ts ∧ Ends (· == .keyword .WHERE) ts) where
  sound := by
    intro ts rest condition h
    unfold readWhere at h
    split at h
    · obtain ⟨⟨terms, us⟩, hc, hres⟩ := map_ok_iff.1 h
      cases hres
      obtain ⟨c, rfl, rfl⟩ := reads_condition.sound hc
      exact ⟨some c, rfl, rfl⟩
    · obtain ⟨rfl, rfl⟩ := Prod.mk.inj (Except.ok.inj h)
      exact ⟨none, rfl, rfl⟩
  complete := by
    intro filter rest hrest
    cases filter with
    | none =>
      show readWhere rest = .ok (none, rest)
      unfold readWhere
      split
      · exact absurd rfl (ne_cons_of_ends hrest.2 rfl)
      · rfl
    | some c => exact map_ok_iff.2 ⟨_, reads_condition.complete c _ hrest.1, rfl⟩

/-- The reader of samples is right; a negative number is no sample. -/
theorem reads_sample :
    Reads readSample sampleTokens id (Ends (· == .keyword .TABLESAMPLE)) where
  sound := by
    intro ts rest sample h
    unfold readSample at h
    split at h
    · obtain ⟨rfl, rfl⟩ := Prod.mk.inj (Except.ok.inj h)
      exact ⟨some _, rfl, rfl⟩
    · cases h
    · obtain ⟨rfl, rfl⟩ := Prod.mk.inj (Except.ok.inj h)
      exact ⟨none, rfl, rfl⟩
  complete := by
    intro sample rest hrest
    cases sample with
    | none =>
      show readSample rest = .ok (none, rest)
      unfold readSample
      split
      · exact absurd rfl (ne_cons_of_ends hrest rfl)
      · exact absurd rfl (ne_cons_of_ends hrest rfl)
      · rfl
    | some n => rfl

/-- A statement ends with its tokens or with one semicolon. -/
theorem readEnd_ok_iff {ts : List Token} : readEnd ts = .ok () ↔ ∃ e, endTokens e = ts := by
  constructor
  · intro h
    unfold readEnd at h
    split at h
    · exact ⟨false, rfl⟩
    · exact ⟨true, rfl⟩
    · cases h
    · cases h
  · rintro ⟨e, rfl⟩
    cases e <;> rfl

/-! ### Statements -/

/-- Groups with the word AND between them, seen from the first one. -/
theorem intersperse_and (terms : List Term) (conditions : List (List Term)) :
    ((terms :: conditions).map Term.group).intersperse .and =
      .group terms :: conditions.flatMap fun ts => [.and, .group ts] := by
  induction conditions generalizing terms with
  | nil => rfl
  | cons ts conditions ih =>
    rw [List.map_cons, List.map_cons, List.intersperse_cons_cons, ← List.map_cons, ih]
    rfl

/-- Conditions are combined into their conjunction: none and a single one stay as they are. -/
theorem combine_eq_conjunction (cs : List ConditionTree) :
    combine (cs.map ConditionTree.terms) = conjunction cs := by
  match cs with
  | [] => rfl
  | [c] => rfl
  | c :: d :: cs =>
    show ((c.terms :: (d :: cs).map ConditionTree.terms).map Term.group).intersperse .and = _
    rw [intersperse_and, List.flatMap_map]
    rfl

/-- What a tree denotes, from what is read of its parts. -/
theorem SelectTree.statement_eq (d : SelectTree) :
    d.statement =
      { columns := (d.item :: d.items).map ItemTree.text
        relations := d.relation.relation :: (d.joins.map JoinTree.joined).map (·.1)
        conditions := combine ((d.joins.map JoinTree.joined).filterMap (·.2) ++
          (d.filter.map ConditionTree.terms).toList)
        sample := d.sample } := by
  have hconditions : (d.joins.map JoinTree.joined).filterMap (·.2) ++
      (d.filter.map ConditionTree.terms).toList = d.conditions.map ConditionTree.terms := by
    rw [SelectTree.conditions, List.map_append, List.filterMap_map, List.map_filterMap]
    cases d.filter <;> rfl
  rw [hconditions, combine_eq_conjunction, List.map_map]
  rfl

/-- What is read as a statement is derived by a tree that denotes it: the tree is put together from
those of the parts. -/
theorem exists_tree_of_ofTokens {ts : List Token} {s : Statement} (h : ofTokens ts = .ok s) :
    ∃ d : SelectTree, d.tokens = ts ∧ d.statement = s := by
  obtain ⟨ts₁, hselect, h⟩ := bind_ok_iff.1 h
  obtain ⟨⟨columns, ts₂⟩, hitems, h⟩ := bind_ok_iff.1 h
  obtain ⟨ts₃, hfrom, h⟩ := bind_ok_iff.1 h
  obtain ⟨⟨first, ts₄⟩, hrelation, h⟩ := bind_ok_iff.1 h
  obtain ⟨⟨joins, ts₅⟩, hjoins, h⟩ := bind_ok_iff.1 h
  obtain ⟨⟨condition, ts₆⟩, hwhere, h⟩ := bind_ok_iff.1 h
  obtain ⟨⟨sample, ts₇⟩, hsample, h⟩ := bind_ok_iff.1 h
  obtain ⟨_, hend, h⟩ := bind_ok_iff.1 h
  obtain rfl := pure_ok_iff.1 h
  -- the parts in the order in which they are read, each with what it took
  obtain rfl := expectKeyword_ok_iff.1 hselect
  obtain ⟨⟨i, is⟩, rfl, rfl⟩ := reads_items.sound hitems
  obtain rfl := expectKeyword_ok_iff.1 hfrom
  obtain ⟨r, rfl, rfl⟩ := reads_relation.sound hrelation
  obtain ⟨js, rfl, rfl⟩ := reads_joins.sound hjoins
  obtain ⟨f, rfl, rfl⟩ := reads_where.sound hwhere
  obtain ⟨n, rfl, rfl⟩ := reads_sample.sound hsample
  obtain ⟨e, rfl⟩ := readEnd_ok_iff.1 hend
  refine ⟨⟨i, is, r, js, f, n, e⟩, ?_, ?_⟩
  · rw [SelectTree.tokens, SelectTree.tail, List.append_assoc]
  · rw [SelectTree.statement_eq]
    rfl

/-- The tokens of a tree are read as what it denotes. -/
theorem ofTokens_tokens (d : SelectTree) : ofTokens d.tokens = .ok d.statement := by
  have hselect : expectKeyword .SELECT d.tokens = .ok _ := expectKeyword_ok_iff.2 rfl
  -- each part is followed by one that does not continue it
  have hitems := reads_items.complete (d.item, d.items)
    (.keyword .FROM :: (d.relation.tokens ++ (d.joins.flatMap JoinTree.tokens ++ d.tail))) rfl
  have hfrom := expectKeyword_ok_iff.2 (Eq.refl (Token.keyword .FROM ::
    (d.relation.tokens ++ (d.joins.flatMap JoinTree.tokens ++ d.tail))))
  have hrelation := reads_relation.complete d.relation (d.joins.flatMap JoinTree.tokens ++ d.tail)
    (endsJoin_joins_append d.joins d.endsJoin_tail).relation
  have hjoins := reads_joins.complete d.joins d.tail ⟨d.endsJoin_tail, d.ends_tail rfl rfl rfl⟩
  have hwhere := reads_where.complete d.filter (sampleTokens d.sample ++ endTokens d.semicolon)
    ⟨ends_sampleTokens_append _ _ rfl rfl, ends_sampleTokens_append _ _ rfl rfl⟩
  have hsample := reads_sample.complete d.sample (endTokens d.semicolon)
    (by cases d.semicolon <;> rfl)
  have hend := readEnd_ok_iff.2 ⟨d.semicolon, rfl⟩
  rw [List.append_assoc] at hitems
  rw [SelectTree.statement_eq]
  exact bind_ok_iff.2 ⟨_, hselect, bind_ok_iff.2 ⟨_, hitems, bind_ok_iff.2 ⟨_, hfrom,
    bind_ok_iff.2 ⟨_, hrelation, bind_ok_iff.2 ⟨_, hjoins, bind_ok_iff.2 ⟨_, hwhere,
    bind_ok_iff.2 ⟨_, hsample, bind_ok_iff.2 ⟨_, hend, rfl⟩⟩⟩⟩⟩⟩⟩⟩

/-- No list of tokens is derived by two trees, and a list is read as a statement exactly if a tree
derives it and denotes the statement. -/
theorem ofTokens_ok_iff_tree : Function.Injective SelectTree.tokens ∧
    ∀ (ts : List Token) (s : Statement),
      ofTokens ts = .ok s ↔ ∃ d : SelectTree, d.tokens = ts ∧ d.statement = s := by
  refine ⟨SelectTree.tokens_injective, fun ts s => ⟨exists_tree_of_ofTokens, ?_⟩⟩
  rintro ⟨d, rfl, rfl⟩
  exact ofTokens_tokens d

end ShellQuery.Statement
