import ShellQuery.Token.Basic

/-!
# Why a text is no statement
-/

namespace ShellQuery

/-- What the grammar of statements asks for at a place. -/
inductive Expected where
  | keyword (k : Keyword)
  | selectItem
  /-- The parenthesis behind the word COUNT. -/
  | countOpen
  | countArgument
  /-- The parenthesis behind what is counted. -/
  | countClose
  | relationPath
  /-- The alias behind the word AS. -/
  | label
  | operand
  | comparisonOperator
  | openParen
  | closeParen
  | rowCount
deriving DecidableEq, Repr

namespace Expected

/-- What is asked for, in words. -/
def describe : Expected → String
  | keyword k => k.word
  | selectItem => "a select item"
  | countOpen => "'(' after COUNT"
  | countArgument => "'*' or a column"
  | countClose => "')' after COUNT argument"
  | relationPath => "a relation path"
  | label => "an alias after AS"
  | operand => "a column or literal"
  | comparisonOperator => "a comparison operator"
  | openParen => "'('"
  | closeParen => "')'"
  | rowCount => "a row count"

end Expected

/-- Why a text is no statement. -/
inductive SyntaxError where
  /-- No token begins with a character. -/
  | unexpectedCharacter (c : Char) (position : Nat)
  | unterminatedString
  | unterminatedName
  /-- A numeral is above `2 ^ 63 - 1`. -/
  | integerTooLarge
  /-- A numeral is below `-2 ^ 63`. -/
  | integerTooSmall
  /-- The grammar asks for something else than the next token, or than the end. -/
  | expected (what : Expected) (found : Option Token)
  /-- Something else than `*` or a column is counted. -/
  | badCountArgument (found : Token)
  /-- A word stands where an operator should. -/
  | badOperatorWord (word : String)
  /-- A sample has no size. -/
  | badSampleSize (found : Token)
  | outerJoin
  | negation
  /-- The statement has ended and the text has not. -/
  | trailing (found : Token)
deriving DecidableEq, Repr

namespace SyntaxError

/-- The error in words. -/
def reason : SyntaxError → String
  | unexpectedCharacter c position =>
    "unexpected character '" ++ String.ofList [c] ++ "' at position " ++ toString position
  | unterminatedString => "unterminated string literal"
  | unterminatedName => "unterminated quoted name"
  | integerTooLarge => "invalid integer: number too large to fit in target type"
  | integerTooSmall => "invalid integer: number too small to fit in target type"
  | expected what (some token) => "expected " ++ what.describe ++ ", found " ++ token.describe
  | expected what none => "expected " ++ what.describe ++ ", found end of input"
  | badCountArgument found => "COUNT expects '*' or a column, found " ++ found.describe
  | badOperatorWord word => "expected a comparison operator, found '" ++ word ++ "'"
  | badSampleSize found =>
    "TABLESAMPLE expects a non-negative row count, found " ++ found.describe
  | outerJoin => "outer joins are not supported"
  | negation => "NOT is not supported, negate the comparison instead"
  | trailing found => "unexpected " ++ found.describe ++ " after end of statement"

/-- The error as it is reported. -/
def message (e : SyntaxError) : String :=
  "syntax error: " ++ e.reason

end SyntaxError

/-- Why no statement can be read from a text. -/
inductive ReadError where
  /-- The text breaks a rule. -/
  | malformed (error : SyntaxError)
  /-- A tilde begins a word that has no characters, so that reading makes no headway. There is no
  message for it. -/
  | emptyWord
deriving DecidableEq, Repr

end ShellQuery
