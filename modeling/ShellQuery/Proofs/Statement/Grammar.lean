import Mathlib.Logic.Function.Defs
import ShellQuery.Statement.Parser

/-!
# The grammar of statements

One type of trees for every symbol of the grammar, one constructor for every way to derive it. A
tree has the tokens it derives and what these denote:

    SelectTree    := SELECT ItemTree {, ItemTree} FROM RelationTree {JoinTree}
                     [WHERE ConditionTree] [TABLESAMPLE ( natural number )] [;]
    ItemTree      := * | name | COUNT ( * ) | COUNT ( name )
    RelationTree  := (name | string) LabelTree
    LabelTree     := nothing | AS name | name
    JoinTree      := , RelationTree | [INNER] JOIN RelationTree ON ConditionTree
    ConditionTree := TermTree | TermTree (AND | OR) ConditionTree
    TermTree      := ( ConditionTree ) | OperandTree OperatorTree OperandTree
    OperandTree   := name | integer | float | string
    OperatorTree  := a symbol | a name that is the word of an operator, in any case

Main statement: no list of tokens has two trees (`SelectTree.tokens_injective`). A symbol whose
trees can be continued is unambiguous only in front of tokens that do not continue them, and each
lemma says which these are (`Ends`).
-/

namespace ShellQuery.Statement

/-! ### Conditions -/

/-- What is compared: a column or a literal. -/
inductive OperandTree where
  | name (n : String)
  | integer (n : Int)
  | float (x : Binary64)
  | string (s : String)

namespace OperandTree

def token : OperandTree → Token
  | name n => .name n
  | integer n => .integer n
  | float x => .float x
  | string s => .string s

/-- The text of the operand. A string stands in quotes, with the quotes in it doubled. -/
def text : OperandTree → String
  | name n => n
  | integer n => toString n
  | float x => operandNumbers.text x
  | string s => String.ofList ('\'' :: Text.double '\'' s.toList ++ ['\''])

theorem token_injective : Function.Injective token := by
  intro a b h
  cases a <;> cases b <;> simp_all [token]

end OperandTree

/-- The word of two letters for an operator. -/
def operatorWord : Operator → String
  | .eq => "eq"
  | .ne => "ne"
  | .lt => "lt"
  | .le => "le"
  | .gt => "gt"
  | .ge => "ge"

/-- The words are written in lower case. -/
theorem lower_operatorWord (o : Operator) : Text.lower (operatorWord o) = operatorWord o := by
  cases o <;> decide

/-- No two operators share a word. -/
theorem operatorWord_injective : Function.Injective operatorWord := by
  intro o p h
  cases o <;> cases p <;> simp_all [operatorWord]

/-- How operands are compared. -/
inductive OperatorTree where
  | symbol (o : Operator)
  | word (o : Operator) (w : String) (spelled : Text.sameIgnoringCase w (operatorWord o) = true)

namespace OperatorTree

def token : OperatorTree → Token
  | symbol o => .operator o
  | word _ w _ => .name w

def operator : OperatorTree → Operator
  | symbol o => o
  | word o _ _ => o

/-- A word that is spelled in any case is, in lower case, the word of its operator. -/
theorem lower_of_spelled {o : Operator} {w : String}
    (h : Text.sameIgnoringCase w (operatorWord o) = true) : Text.lower w = operatorWord o := by
  rw [← lower_operatorWord o]
  exact beq_iff_eq.1 h

theorem token_injective : Function.Injective token := by
  intro a b h
  cases a with
  | symbol o => cases b <;> simp_all [token]
  | word o w hw =>
    cases b with
    | symbol p => simp [token] at h
    | word p v hv =>
      obtain rfl : w = v := Token.name.inj h
      have hop : operatorWord o = operatorWord p :=
        (lower_of_spelled hw).symm.trans (lower_of_spelled hv)
      obtain rfl := operatorWord_injective hop
      rfl

end OperatorTree

/-- How terms are connected. -/
inductive Connective where
  | and
  | or

namespace Connective

def token : Connective → Token
  | and => .keyword .AND
  | or => .keyword .OR

def term : Connective → Term
  | and => .and
  | or => .or

theorem token_injective : Function.Injective token := by
  intro a b h
  cases a <;> cases b <;> simp_all [token]

end Connective

mutual

/-- Terms, connected from left to right. -/
inductive ConditionTree where
  | last (t : TermTree)
  | more (t : TermTree) (k : Connective) (c : ConditionTree)

/-- A condition in parentheses or a comparison. -/
inductive TermTree where
  | group (c : ConditionTree)
  | comparison (left : OperandTree) (o : OperatorTree) (right : OperandTree)

end

mutual

def ConditionTree.tokens : ConditionTree → List Token
  | .last t => t.tokens
  | .more t k c => t.tokens ++ k.token :: c.tokens

def TermTree.tokens : TermTree → List Token
  | .group c => .openParen :: c.tokens ++ [.closeParen]
  | .comparison l o r => [l.token, o.token, r.token]

end

mutual

/-- The sequence that a condition denotes. -/
def ConditionTree.terms : ConditionTree → List Term
  | .last t => [t.term]
  | .more t k c => t.term :: k.term :: c.terms

def TermTree.term : TermTree → Term
  | .group c => .group c.terms
  | .comparison l o r => .comparison l.text (operatorText o.operator) r.text

end

/-! ### The parts of a statement -/

/-- An item of the select list. -/
inductive ItemTree where
  | all
  | column (n : String)
  | countAll
  | countColumn (n : String)

namespace ItemTree

def tokens : ItemTree → List Token
  | all => [.asterisk]
  | column n => [.name n]
  | countAll => [.keyword .COUNT, .openParen, .asterisk, .closeParen]
  | countColumn n => [.keyword .COUNT, .openParen, .name n, .closeParen]

def text : ItemTree → String
  | all => "*"
  | column n => n
  | countAll => "count(*)"
  | countColumn n => "count(" ++ n ++ ")"

end ItemTree

/-- The alias of a relation, if it has one. -/
inductive LabelTree where
  | none
  | withAs (label : String)
  | bare (label : String)

namespace LabelTree

def tokens : LabelTree → List Token
  | none => []
  | withAs label => [.keyword .AS, .name label]
  | bare label => [.name label]

def label? : LabelTree → Option String
  | none => .none
  | withAs label => some label
  | bare label => some label

end LabelTree

/-- A path, plain or as a string, and an alias. -/
inductive RelationTree where
  | plain (path : String) (l : LabelTree)
  | quoted (path : String) (l : LabelTree)

namespace RelationTree

def tokens : RelationTree → List Token
  | plain path l => .name path :: l.tokens
  | quoted path l => .string path :: l.tokens

def relation : RelationTree → Relation
  | plain path l => ⟨path, l.label?⟩
  | quoted path l => ⟨path, l.label?⟩

end RelationTree

/-- A relation behind the first one. -/
inductive JoinTree where
  | comma (r : RelationTree)
  | join (r : RelationTree) (c : ConditionTree)
  | innerJoin (r : RelationTree) (c : ConditionTree)

namespace JoinTree

def tokens : JoinTree → List Token
  | comma r => .comma :: r.tokens
  | join r c => .keyword .JOIN :: (r.tokens ++ .keyword .ON :: c.tokens)
  | innerJoin r c => .keyword .INNER :: .keyword .JOIN :: (r.tokens ++ .keyword .ON :: c.tokens)

def relation : JoinTree → Relation
  | comma r => r.relation
  | join r _ => r.relation
  | innerJoin r _ => r.relation

/-- What the relation is joined on. -/
def condition? : JoinTree → Option ConditionTree
  | comma _ => none
  | join _ c => some c
  | innerJoin _ c => some c

end JoinTree

/-- A statement. -/
structure SelectTree where
  item : ItemTree
  items : List ItemTree
  relation : RelationTree
  joins : List JoinTree
  filter : Option ConditionTree
  sample : Option Nat
  semicolon : Bool

def filterTokens : Option ConditionTree → List Token
  | none => []
  | some c => .keyword .WHERE :: c.tokens

def sampleTokens : Option Nat → List Token
  | none => []
  | some n => [.keyword .TABLESAMPLE, .openParen, .integer n, .closeParen]

def endTokens : Bool → List Token
  | false => []
  | true => [.semicolon]

/-- The conjunction of conditions: each in its own group, but a single one as it is. -/
def conjunction : List ConditionTree → List Term
  | [] => []
  | [c] => c.terms
  | c :: cs => .group c.terms :: cs.flatMap fun d => [.and, .group d.terms]

namespace SelectTree

/-- The tokens behind the relations. -/
def tail (d : SelectTree) : List Token :=
  filterTokens d.filter ++ (sampleTokens d.sample ++ endTokens d.semicolon)

def tokens (d : SelectTree) : List Token :=
  .keyword .SELECT :: (d.item.tokens ++ (d.items.flatMap (.comma :: ·.tokens) ++
    .keyword .FROM :: (d.relation.tokens ++ (d.joins.flatMap JoinTree.tokens ++ d.tail))))

/-- The conditions of the statement: those that relations are joined on, then its own. -/
def conditions (d : SelectTree) : List ConditionTree :=
  d.joins.filterMap JoinTree.condition? ++ d.filter.toList

/-- The statement that a tree denotes. -/
def statement (d : SelectTree) : Statement where
  columns := (d.item :: d.items).map ItemTree.text
  relations := d.relation.relation :: d.joins.map JoinTree.relation
  conditions := conjunction d.conditions
  sample := d.sample

end SelectTree

/-! ### What can come next -/

/-- Tokens that are at their end or do not go on with one of a class. -/
def Ends (goesOn : Token → Bool) (ts : List Token) : Prop :=
  ts.head?.any goesOn = false

variable {p : Token → Bool}

/-- Only the first token is looked at. -/
@[simp]
theorem ends_cons {t : Token} {ts : List Token} : Ends p (t :: ts) ↔ p t = false := Iff.rfl

/-- What has ended does not go on with a token of the class. -/
theorem ne_cons_of_ends {t : Token} {ts us : List Token} (h : Ends p ts) (ht : p t = true) :
    ts ≠ t :: us := by
  rintro rfl
  rw [ends_cons, ht] at h
  cases h

/-- The tokens that continue a condition. -/
def continuesCondition : Token → Bool
  | .keyword .AND => true
  | .keyword .OR => true
  | _ => false

/-- The tokens that continue a relation. -/
def continuesRelation : Token → Bool
  | .keyword .AS => true
  | .name _ => true
  | _ => false

/-- The tokens that begin a join, those of the joins that are refused included. -/
def beginsJoin : Token → Bool
  | .comma => true
  | .keyword .INNER => true
  | .keyword .JOIN => true
  | .keyword .LEFT => true
  | .keyword .RIGHT => true
  | .keyword .FULL => true
  | _ => false

/-- A connective is what continues a condition. -/
@[simp]
theorem continuesCondition_token (k : Connective) : continuesCondition k.token = true := by
  cases k <;> rfl

/-- Tokens that neither the last relation nor its condition goes on with. -/
structure EndsJoin (ts : List Token) : Prop where
  relation : Ends continuesRelation ts
  condition : Ends continuesCondition ts

/-- No join begins with a token that continues a relation or a condition. -/
theorem endsJoin_tokens_append (j : JoinTree) (ts : List Token) : EndsJoin (j.tokens ++ ts) := by
  cases j <;> exact ⟨rfl, rfl⟩

/-- So the relation in front of a row of joins ends there, with or without joins. -/
theorem endsJoin_joins_append (js : List JoinTree) {ts : List Token} (h : EndsJoin ts) :
    EndsJoin (js.flatMap JoinTree.tokens ++ ts) := by
  cases js with
  | nil => exact h
  | cons j js =>
    rw [List.flatMap_cons, List.append_assoc]
    exact endsJoin_tokens_append j _

/-- Where no join begins, none is read. -/
theorem ne_tokens_append_of_ends {ts : List Token} (h : Ends beginsJoin ts) (j : JoinTree)
    (us : List Token) : ts ≠ j.tokens ++ us := by
  cases j <;> exact ne_cons_of_ends h rfl

/-- The last parts of a statement begin with the word WHERE, the word TABLESAMPLE or a semicolon. -/
theorem ends_sampleTokens_append (sample : Option Nat) (semicolon : Bool)
    (hs : p (.keyword .TABLESAMPLE) = false) (he : p .semicolon = false) :
    Ends p (sampleTokens sample ++ endTokens semicolon) := by
  cases sample with
  | none =>
    cases semicolon with
    | false => rfl
    | true => exact he
  | some n => exact hs

/-- What follows the relations begins with one of three tokens, or is nothing. -/
theorem SelectTree.ends_tail (d : SelectTree) (hw : p (.keyword .WHERE) = false)
    (hs : p (.keyword .TABLESAMPLE) = false) (he : p .semicolon = false) : Ends p d.tail := by
  unfold SelectTree.tail
  cases d.filter with
  | none => exact ends_sampleTokens_append d.sample d.semicolon hs he
  | some c => exact hw

theorem SelectTree.endsJoin_tail (d : SelectTree) : EndsJoin d.tail :=
  ⟨d.ends_tail rfl rfl rfl, d.ends_tail rfl rfl rfl⟩

/-! ### Unambiguity -/

mutual

/-- Conditions are unambiguous in front of tokens that do not continue them. -/
theorem ConditionTree.eq_of_tokens_append : ∀ (c c' : ConditionTree) {ts ts' : List Token},
    Ends continuesCondition ts → Ends continuesCondition ts' → c.tokens ++ ts = c'.tokens ++ ts' →
    c = c' ∧ ts = ts' := by
  intro c c' ts ts' hts hts' h
  -- by recursion over both trees; a condition that ends earlier is followed by a connective,
  -- against the assumption on what follows
  match c, c' with
  | .last t, .last t' =>
    obtain ⟨rfl, rfl⟩ := TermTree.eq_of_tokens_append t t' h
    exact ⟨rfl, rfl⟩
  | .last t, .more t' k c =>
    rw [ConditionTree.tokens, ConditionTree.tokens, List.append_assoc] at h
    obtain ⟨-, rfl⟩ := TermTree.eq_of_tokens_append t t' h
    simp at hts
  | .more t k c, .last t' =>
    rw [ConditionTree.tokens, ConditionTree.tokens, List.append_assoc] at h
    obtain ⟨-, rfl⟩ := TermTree.eq_of_tokens_append t t' h
    simp at hts'
  | .more t k c, .more t' k' c' =>
    rw [ConditionTree.tokens, ConditionTree.tokens, List.append_assoc, List.append_assoc] at h
    obtain ⟨rfl, hrest⟩ := TermTree.eq_of_tokens_append t t' h
    obtain ⟨hk, hnext⟩ := List.cons.inj hrest
    obtain rfl := Connective.token_injective hk
    obtain ⟨rfl, rfl⟩ := ConditionTree.eq_of_tokens_append c c' hts hts' hnext
    exact ⟨rfl, rfl⟩

/-- Terms are unambiguous in front of all tokens. -/
theorem TermTree.eq_of_tokens_append : ∀ (t t' : TermTree) {ts ts' : List Token},
    t.tokens ++ ts = t'.tokens ++ ts' → t = t' ∧ ts = ts' := by
  intro t t' ts ts' h
  -- a group and a comparison differ in their first token already
  match t, t' with
  | .group c, .group c' =>
    rw [TermTree.tokens, TermTree.tokens, List.append_assoc, List.append_assoc] at h
    obtain ⟨rfl, hrest⟩ := ConditionTree.eq_of_tokens_append c c' (ends_cons.2 rfl)
      (ends_cons.2 rfl) (List.cons.inj h).2
    exact ⟨rfl, (List.cons.inj hrest).2⟩
  | .group c, .comparison l o r =>
    cases l <;> simp [TermTree.tokens, OperandTree.token] at h
  | .comparison l o r, .group c =>
    cases l <;> simp [TermTree.tokens, OperandTree.token] at h
  | .comparison l o r, .comparison l' o' r' =>
    simp only [TermTree.tokens, List.cons_append, List.nil_append, List.cons.injEq] at h
    obtain ⟨hl, ho, hr, rfl⟩ := h
    rw [OperandTree.token_injective hl, OperatorTree.token_injective ho,
      OperandTree.token_injective hr]
    exact ⟨rfl, rfl⟩

end

/-- Items have a fixed length once their first tokens are known, so anything can follow them. -/
theorem ItemTree.eq_of_tokens_append {i i' : ItemTree} {ts ts' : List Token}
    (h : i.tokens ++ ts = i'.tokens ++ ts') : i = i' ∧ ts = ts' := by
  cases i <;> cases i' <;> simp_all [ItemTree.tokens]

/-- An alias begins with a token that continues the relation, so one tree cannot have it and
another not. -/
theorem LabelTree.eq_of_tokens_append {l l' : LabelTree} {ts ts' : List Token}
    (hts : Ends continuesRelation ts) (hts' : Ends continuesRelation ts')
    (h : l.tokens ++ ts = l'.tokens ++ ts') : l = l' ∧ ts = ts' := by
  cases l with
  | none =>
    cases l' with
    | none => exact ⟨rfl, h⟩
    | withAs a => exact absurd h (ne_cons_of_ends hts rfl)
    | bare a => exact absurd h (ne_cons_of_ends hts rfl)
  | withAs a =>
    cases l' with
    | none => exact absurd h.symm (ne_cons_of_ends hts' rfl)
    | withAs b => simp_all [LabelTree.tokens]
    | bare b => simp [LabelTree.tokens] at h
  | bare a =>
    cases l' with
    | none => exact absurd h.symm (ne_cons_of_ends hts' rfl)
    | withAs b => simp [LabelTree.tokens] at h
    | bare b => simp_all [LabelTree.tokens]

/-- A path is one token, and the alias behind it is unambiguous where the relation ends. -/
theorem RelationTree.eq_of_tokens_append {r r' : RelationTree} {ts ts' : List Token}
    (hts : Ends continuesRelation ts) (hts' : Ends continuesRelation ts')
    (h : r.tokens ++ ts = r'.tokens ++ ts') : r = r' ∧ ts = ts' := by
  cases r <;> cases r' <;> simp only [RelationTree.tokens, List.cons_append, List.cons.injEq,
    Token.name.injEq, Token.string.injEq, reduceCtorEq, false_and] at h
  all_goals
    obtain ⟨rfl, h⟩ := h
    obtain ⟨rfl, rfl⟩ := LabelTree.eq_of_tokens_append hts hts' h
    exact ⟨rfl, rfl⟩

/-- A relation and the condition behind it. -/
theorem eq_of_on_append {r r' : RelationTree} {c c' : ConditionTree} {ts ts' : List Token}
    (hts : Ends continuesCondition ts) (hts' : Ends continuesCondition ts')
    (h : r.tokens ++ .keyword .ON :: (c.tokens ++ ts) =
      r'.tokens ++ .keyword .ON :: (c'.tokens ++ ts')) : r = r' ∧ c = c' ∧ ts = ts' := by
  obtain ⟨rfl, hrest⟩ := RelationTree.eq_of_tokens_append (ends_cons.2 rfl) (ends_cons.2 rfl) h
  exact ⟨rfl, ConditionTree.eq_of_tokens_append c c' hts hts' (List.cons.inj hrest).2⟩

/-- The first tokens tell the kind of a join. The relation of a plain one ends where the join does,
that of the others in front of the word ON. -/
theorem JoinTree.eq_of_tokens_append {j j' : JoinTree} {ts ts' : List Token}
    (hts : EndsJoin ts) (hts' : EndsJoin ts') (h : j.tokens ++ ts = j'.tokens ++ ts') :
    j = j' ∧ ts = ts' := by
  cases j <;> cases j' <;> simp only [JoinTree.tokens, List.cons_append, List.append_assoc,
    List.cons.injEq, Token.keyword.injEq, reduceCtorEq, false_and, true_and] at h
  case comma.comma r r' =>
    obtain ⟨rfl, rfl⟩ := RelationTree.eq_of_tokens_append hts.relation hts'.relation h
    exact ⟨rfl, rfl⟩
  all_goals
    obtain ⟨rfl, rfl, rfl⟩ := eq_of_on_append hts.condition hts'.condition h
    exact ⟨rfl, rfl⟩

/-- Trees in a row are unambiguous if each is, and if none begins where the row ends. -/
theorem eq_of_flatMap_append {α : Type} {tokens : α → List Token} {F : List Token → Prop}
    (hone : ∀ {a b : α} {us us' : List Token}, F us → F us' → tokens a ++ us = tokens b ++ us' →
      a = b ∧ us = us')
    (hF : ∀ a us, F (tokens a ++ us)) {ts ts' : List Token} (hts : F ts) (hts' : F ts')
    (hstop : ∀ a us, ts ≠ tokens a ++ us) (hstop' : ∀ a us, ts' ≠ tokens a ++ us)
    {as bs : List α} (h : as.flatMap tokens ++ ts = bs.flatMap tokens ++ ts') :
    as = bs ∧ ts = ts' := by
  have hrow : ∀ as : List α, F (as.flatMap tokens ++ ts) ∧ F (as.flatMap tokens ++ ts') := by
    intro as
    cases as with
    | nil => exact ⟨hts, hts'⟩
    | cons a as =>
      rw [List.flatMap_cons, List.append_assoc, List.append_assoc]
      exact ⟨hF a _, hF a _⟩
  -- one row cannot stop before the other: where it stops, no further tree begins
  induction as generalizing bs with
  | nil =>
    cases bs with
    | nil => exact ⟨rfl, h⟩
    | cons b bs =>
      rw [List.flatMap_cons, List.append_assoc] at h
      exact absurd h (hstop b _)
  | cons a as ih =>
    cases bs with
    | nil =>
      rw [List.flatMap_cons, List.append_assoc] at h
      exact absurd h.symm (hstop' a _)
    | cons b bs =>
      rw [List.flatMap_cons, List.flatMap_cons, List.append_assoc, List.append_assoc] at h
      obtain ⟨rfl, hrest⟩ := hone (hrow as).1 (hrow bs).2 h
      obtain ⟨rfl, rfl⟩ := ih hrest
      exact ⟨rfl, rfl⟩

/-- The semicolon shows whether it is there. -/
theorem endTokens_injective : Function.Injective endTokens := by
  intro e e' h
  cases e <;> cases e' <;> simp_all [endTokens]

/-- The end of a statement begins with the word TABLESAMPLE exactly when it samples. -/
theorem eq_of_sampleTokens_append {s s' : Option Nat} {e e' : Bool}
    (h : sampleTokens s ++ endTokens e = sampleTokens s' ++ endTokens e') : s = s' ∧ e = e' := by
  cases s with
  | none =>
    cases s' with
    | none => exact ⟨rfl, endTokens_injective h⟩
    | some n => cases e <;> cases h
  | some n =>
    cases s' with
    | none => cases e' <;> cases h
    | some n' =>
      simp only [sampleTokens, List.cons_append, List.nil_append, List.cons.injEq, true_and] at h
      obtain rfl := Int.ofNat.inj (Token.integer.inj h.1)
      exact ⟨rfl, endTokens_injective h.2⟩

/-- What follows the relations begins with the word WHERE exactly when there is a filter. -/
theorem eq_of_tail_eq {f f' : Option ConditionTree} {s s' : Option Nat} {e e' : Bool}
    (h : filterTokens f ++ (sampleTokens s ++ endTokens e) =
      filterTokens f' ++ (sampleTokens s' ++ endTokens e')) : f = f' ∧ s = s' ∧ e = e' := by
  -- the parts behind the filter never begin like it
  have hwhere : ∀ (s : Option Nat) (e : Bool) (ts : List Token),
      sampleTokens s ++ endTokens e ≠ .keyword .WHERE :: ts := by
    intro s e ts
    apply ne_cons_of_ends (p := (· == .keyword .WHERE)) _ rfl
    exact ends_sampleTokens_append s e rfl rfl
  cases f with
  | none =>
    cases f' with
    | none => exact ⟨rfl, eq_of_sampleTokens_append h⟩
    | some c => exact absurd h (hwhere s e _)
  | some c =>
    cases f' with
    | none => exact absurd h.symm (hwhere s' e' _)
    | some c' =>
      obtain ⟨rfl, hrest⟩ := ConditionTree.eq_of_tokens_append c c'
        (ends_sampleTokens_append s e rfl rfl) (ends_sampleTokens_append s' e' rfl rfl)
        (List.cons.inj h).2
      exact ⟨rfl, eq_of_sampleTokens_append hrest⟩

/-- A list of tokens is the list of at most one tree: read part by part from the left, each part
ends where the next one begins. -/
theorem SelectTree.tokens_injective : Function.Injective SelectTree.tokens := by
  intro d d' h
  -- from left to right: each part ends where a token comes that cannot continue it
  obtain ⟨hitem, h⟩ := ItemTree.eq_of_tokens_append (List.cons.inj h).2
  obtain ⟨hitems, h⟩ := eq_of_flatMap_append (F := fun _ => True)
    (fun _ _ h => ItemTree.eq_of_tokens_append (List.cons.inj h).2) (fun _ _ => trivial) trivial
    trivial (by simp) (by simp) h
  obtain ⟨hrelation, h⟩ := RelationTree.eq_of_tokens_append
    (endsJoin_joins_append d.joins d.endsJoin_tail).relation
    (endsJoin_joins_append d'.joins d'.endsJoin_tail).relation (List.cons.inj h).2
  obtain ⟨hjoins, h⟩ := eq_of_flatMap_append JoinTree.eq_of_tokens_append endsJoin_tokens_append
    d.endsJoin_tail d'.endsJoin_tail (ne_tokens_append_of_ends (d.ends_tail rfl rfl rfl))
    (ne_tokens_append_of_ends (d'.ends_tail rfl rfl rfl)) h
  obtain ⟨hfilter, hsample, hend⟩ := eq_of_tail_eq h
  cases d
  cases d'
  simp_all

end ShellQuery.Statement
