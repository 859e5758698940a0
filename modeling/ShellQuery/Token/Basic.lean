import ShellQuery.Comparison.Operator
import ShellQuery.Decimal.Layout
import ShellQuery.Text.Quoted

/-!
# Tokens of a statement

The words, literals, operators and punctuation that the text of a statement consists of, and how a
message shows them.
-/

namespace ShellQuery

/-- The words with a meaning of their own. -/
inductive Keyword where
  | SELECT
  | FROM
  | WHERE
  | AND
  | OR
  | NOT
  | AS
  | JOIN
  | INNER
  | LEFT
  | RIGHT
  | FULL
  | OUTER
  | ON
  | COUNT
  | TABLESAMPLE
deriving DecidableEq, Repr

namespace Keyword

/-- All keywords. -/
def all : List Keyword :=
  [SELECT, FROM, WHERE, AND, OR, NOT, AS, JOIN, INNER, LEFT, RIGHT, FULL, OUTER, ON, COUNT,
    TABLESAMPLE]

/-- The keyword with a capital letter. -/
def title : Keyword → String
  | SELECT => "Select"
  | FROM => "From"
  | WHERE => "Where"
  | AND => "And"
  | OR => "Or"
  | NOT => "Not"
  | AS => "As"
  | JOIN => "Join"
  | INNER => "Inner"
  | LEFT => "Left"
  | RIGHT => "Right"
  | FULL => "Full"
  | OUTER => "Outer"
  | ON => "On"
  | COUNT => "Count"
  | TABLESAMPLE => "Tablesample"

/-- The keyword in capitals. -/
def word (k : Keyword) : String :=
  Text.upper k.title

/-- The keyword that a word is, whatever its case. -/
def ofWord? (w : String) : Option Keyword :=
  all.find? fun k => k.word == Text.upper w

end Keyword

/-- A token of a statement. -/
inductive Token where
  | keyword (k : Keyword)
  /-- A column, a path, an alias or a qualified wildcard. -/
  | name (text : String)
  /-- A numeral without a fraction; its value fits in 64 bits. -/
  | integer (value : Int)
  /-- A numeral with a fraction. -/
  | float (value : Binary64)
  /-- A string, without its quotes. -/
  | string (text : String)
  | operator (o : Operator)
  | asterisk
  | comma
  | semicolon
  | openParen
  | closeParen
deriving DecidableEq, Repr

namespace Token

/-- Numbers in messages have a fraction, and an exponent from `10 ^ 16` on and below `10 ^ -4`. -/
def messageNumbers : NumberLayout :=
  ⟨some (-3, 16), ".0"⟩

/-- What messages call an operator. -/
def operatorTitle : Operator → String
  | .eq => "Eq"
  | .ne => "NotEq"
  | .lt => "Lt"
  | .le => "LtEq"
  | .gt => "Gt"
  | .ge => "GtEq"

/-- A token as messages show it. -/
def describe : Token → String
  | keyword k => "Keyword(" ++ k.title ++ ")"
  | name text => "Ident(" ++ Text.quoted text ++ ")"
  | integer value => "Integer(" ++ toString value ++ ")"
  | float value => "Float(" ++ messageNumbers.text value ++ ")"
  | string text => "StringLit(" ++ Text.quoted text ++ ")"
  | operator o => operatorTitle o
  | asterisk => "Asterisk"
  | comma => "Comma"
  | semicolon => "Semicolon"
  | openParen => "OpenParen"
  | closeParen => "CloseParen"

end Token

end ShellQuery
