import Mathlib.Algebra.Ring.Parity
import ShellQuery.Proofs.Awk.Quoting
import ShellQuery.Proofs.Schema
import ShellQuery.Proofs.Token.Spelling
import ShellQuery.Statement.Parser

/-!
# Strings on their way into an awk program

A string of a statement is written four times: between single quotes in the statement, bare in its
token, between single quotes again as an operand, and with escapes between double quotes in the awk
program. `string_roundtrip` follows an arbitrary string through all four.

The reading of an awk string constant is given in two parts. `untilQuote` finds where it ends,
`unescape` says what stands between the quotes. A code in octal takes three digits at most, so the
digits of the string itself never become part of the code of a single quote before them.
-/

namespace ShellQuery

/-! ### Doubled quotes -/

namespace Text

variable {c : Char}

theorem undouble_cons_of_ne {x : Char} (h : x ≠ c) (cs : List Char) :
    undouble c (x :: cs) = x :: undouble c cs := by
  cases cs with
  | nil => rfl
  | cons y cs => rw [undouble, if_neg fun hxy => h hxy.1]

/-- Pairs are counted from the left, so a row of doubled characters falls into its own pairs. -/
theorem undouble_double (c : Char) (cs : List Char) : undouble c (double c cs) = cs := by
  induction cs with
  | nil => rfl
  | cons x cs ih =>
    rw [double, List.flatMap_cons, ← double]
    by_cases hx : x = c
    · rw [if_pos hx, List.cons_append, List.singleton_append, undouble, if_pos ⟨rfl, rfl⟩, ih, hx]
    · rw [if_neg hx, List.singleton_append, undouble_cons_of_ne hx, ih]

end Text

/-! ### No column name ends in a quote -/

/-- A text that ends in a single quote is no column. -/
theorem Operand.ofText_quoted (cs : List Char) :
    ofText (String.ofList ('\'' :: cs ++ ['\''])) =
      literal (String.ofList ('\'' :: cs ++ ['\''])) := by
  rw [ofText, Text.trim_delimited (by decide) (by decide)]
  split
  · next n h => exact absurd (ColumnName.isIdentifierPart_of_ofText h) (by decide)
  · rfl

/-! ### Reading a string constant -/

namespace Awk

/-- The characters that a backslash and one more character stand for. -/
def escapes : List (Char × Char) :=
  [('"', '"'), ('\\', '\\'), ('/', '/'), ('a', '\x07'), ('b', '\x08'), ('f', '\x0c'), ('n', '\n'),
    ('r', '\r'), ('t', '\t'), ('v', '\x0b')]

/-- The digits of a code in octal: one to three of them. -/
def octalDigits (cs : List Char) : List Char :=
  (cs.take 3).takeWhile fun c => '0' ≤ c && c ≤ '7'

/-- What follows a backslash: the character it stands for, and the rest of the text. -/
def escape? : List Char → Option (Char × List Char)
  | [] => none
  | c :: cs =>
    match escapes.lookup c, octalDigits (c :: cs) with
    | some d, _ => some (d, cs)
    | none, [] => none
    | none, _ :: digits =>
      some (Char.ofNat (Nat.ofDigitChars 8 (c :: digits) 0), cs.drop digits.length)

/-- An escape takes a character at least. -/
theorem length_lt_of_escape? {cs rest : List Char} {c : Char} (h : escape? cs = some (c, rest)) :
    rest.length < cs.length := by
  unfold escape? at h
  split at h
  · cases h
  · split at h
    · cases h
      simp
    · cases h
    · cases h
      simp only [List.length_drop, List.length_cons]
      omega

/-- What the text between the quotes of a string constant says. -/
def unescape (cs : List Char) : Option (List Char) :=
  match cs with
  | [] => some []
  | c :: cs =>
    if c = '\\' then
      match h : escape? cs with
      | some (d, rest) =>
        have : rest.length < cs.length := length_lt_of_escape? h
        (unescape rest).map (d :: ·)
      | none => none
    else (unescape cs).map (c :: ·)
termination_by cs.length

/-- The text up to the first double quote that no backslash escapes, and what follows the quote. -/
def untilQuote : List Char → Option (List Char × List Char)
  | [] => none
  | '"' :: rest => some ([], rest)
  | '\\' :: c :: rest => (untilQuote rest).map fun r => ('\\' :: c :: r.1, r.2)
  | c :: rest => (untilQuote rest).map fun r => (c :: r.1, r.2)

/-- Whether the character behind the given ones is escaped: backslashes pair up from the left, and
one is left over. -/
def Escaped (before : List Char) : Prop :=
  Odd (before.reverse.takeWhile (· = '\\')).length

theorem unescape_escape {cs rest : List Char} {c : Char} (h : escape? cs = some (c, rest)) :
    unescape ('\\' :: cs) = (unescape rest).map (c :: ·) := by
  rw [unescape, if_pos rfl]
  split
  · next hsome =>
    obtain ⟨rfl, rfl⟩ := Prod.mk.inj (Option.some.inj (hsome.symm.trans h))
    rfl
  · next hnone => cases hnone.symm.trans h

/-- One character of a string is read back from its form, whatever comes next. -/
theorem unescape_stringChar_append (c : Char) (rest : List Char) :
    unescape (stringChar c ++ rest) = (unescape rest).map (c :: ·) := by
  unfold stringChar
  split
  · next hc =>
    subst hc
    exact unescape_escape rfl
  · split
    · next hc =>
      subst hc
      exact unescape_escape rfl
    · split
      · next hc =>
        subst hc
        exact unescape_escape rfl
      · next hc _ _ => rw [List.singleton_append, unescape, if_neg hc]

/-- What is written for some characters is read as these characters. -/
theorem unescape_flatMap_stringChar (cs : List Char) :
    unescape (cs.flatMap stringChar) = some cs := by
  induction cs with
  | nil => rw [List.flatMap_nil, unescape]
  | cons c cs ih =>
    rw [List.flatMap_cons, unescape_stringChar_append, ih]
    rfl

/-- What is written for a character does not close the string. -/
theorem untilQuote_stringChar_append (c : Char) (rest : List Char) :
    untilQuote (stringChar c ++ rest) =
      (untilQuote rest).map fun r => (stringChar c ++ r.1, r.2) := by
  unfold stringChar
  split
  · rfl
  · split
    · rfl
    · split
      · cases h : untilQuote rest <;> simp [untilQuote, h]
      · next hb hq _ => rw [List.singleton_append, untilQuote] <;> simp_all

/-- A string constant ends where it was meant to. -/
theorem untilQuote_flatMap_stringChar (cs rest : List Char) :
    untilQuote (cs.flatMap stringChar ++ '"' :: rest) = some (cs.flatMap stringChar, rest) := by
  induction cs with
  | nil => rfl
  | cons c cs ih =>
    rw [List.flatMap_cons, List.append_assoc, untilQuote_stringChar_append, ih]
    rfl

/-! ### The double quotes in a string constant -/

theorem escaped_append_backslash {before : List Char} :
    Escaped (before ++ ['\\']) ↔ ¬Escaped before := by
  simp [Escaped, Nat.odd_add_one]

theorem not_escaped_append {c : Char} (hc : c ≠ '\\') (before : List Char) :
    ¬Escaped (before ++ [c]) := by
  simp [Escaped, hc]

/-- The form of a character leaves no backslash over. -/
theorem not_escaped_append_stringChar {before : List Char} (h : ¬Escaped before) (c : Char) :
    ¬Escaped (before ++ stringChar c) := by
  unfold stringChar
  split
  · rw [List.append_cons, escaped_append_backslash, escaped_append_backslash, not_not]
    exact h
  · split
    · simpa using not_escaped_append (c := '"') (by decide) (before ++ ['\\'])
    · split
      · simpa using not_escaped_append (c := '7') (by decide) (before ++ ['\\', '0', '4'])
      · next hc _ _ => exact not_escaped_append hc before

/-- A double quote is written behind a single backslash. -/
theorem eq_singleton_of_quote_in_stringChar {c : Char} {before after : List Char}
    (h : stringChar c = before ++ '"' :: after) : before = ['\\'] := by
  unfold stringChar at h
  split at h
  · exact absurd (h ▸ by simp : '"' ∈ ['\\', '\\']) (by decide)
  · split at h
    · match before with
      | [] => cases h
      | [d] => rw [(List.cons.inj h).1]
      | _ :: _ :: _ => simp at h
    · split at h
      · exact absurd (h ▸ by simp : '"' ∈ ['\\', '0', '4', '7']) (by decide)
      · next hq _ => exact absurd (List.mem_singleton.1 (h ▸ by simp : '"' ∈ [c])).symm hq

/-- Every double quote in the text of a string is escaped. The induction takes the characters from
the left, behind a text `start` that leaves no backslash over. -/
theorem escaped_of_quote_in_flatMap {start : List Char} (hstart : ¬Escaped start)
    {cs before after : List Char} (h : cs.flatMap stringChar = before ++ '"' :: after) :
    Escaped (start ++ before) := by
  induction cs generalizing start before with
  | nil => simp at h
  | cons c cs ih =>
    have hnext := not_escaped_append_stringChar hstart c
    rw [List.flatMap_cons, List.append_eq_append_iff] at h
    rcases h with ⟨before', rfl, h⟩ | ⟨after', hchar, h⟩
    · rw [← List.append_assoc]
      exact ih hnext h
    · cases after' with
      | nil =>
        -- the quote is the first character after the form of `c`
        have hquote : Escaped (start ++ stringChar c ++ []) := ih hnext h.symm
        rwa [hchar, List.append_nil, List.append_nil] at hquote
      | cons d after' =>
        obtain ⟨rfl, -⟩ := List.cons.inj h
        rw [eq_singleton_of_quote_in_stringChar hchar, escaped_append_backslash]
        exact hstart

end Awk

/-! ### From the statement to the program -/

/-- A string between single quotes, with those in it doubled. -/
def sqlString (s : String) : String :=
  String.ofList ('\'' :: Text.double '\'' s.toList ++ ['\''])

namespace Awk

/-- A quoted string is written for awk character by character. -/
theorem literal_sqlString (s : String) :
    literal (sqlString s) = String.ofList ('"' :: s.toList.flatMap stringChar ++ ['"']) := by
  have hbody : stringBody? (sqlString s).toList = some (Text.double '\'' s.toList) := by
    rw [stringBody?, sqlString, String.toList_ofList, List.cons_append,
      Text.stripFirst_eq_some_iff.2 rfl]
    exact Text.stripLast_eq_some_iff.2 rfl
  rw [literal, hbody]
  simp only [Text.undouble_double, string]

/-- Every string survives the way from a statement into an awk program. The statement writes it
between single quotes and gets it back as one token. The operand that the token becomes is a
literal, never a column. The program writes this literal between double quotes, without a single
quote and with no double quote that is not escaped, and what stands between them says the string. -/
theorem string_roundtrip (s : String) :
    Token.ofText (sqlString s) = .ok [.string s] ∧
    ∃ text, Statement.operandText? (.string s) = some text ∧
      Operand.ofText text = .literal text ∧
      ∃ body, (literal text).toList = '"' :: body ++ ['"'] ∧ '\'' ∉ body ∧
        (∀ before after, body = before ++ '"' :: after → Escaped before) ∧
        (∀ rest, untilQuote (body ++ '"' :: rest) = some (body, rest)) ∧
        unescape body = some s.toList := by
  refine ⟨Token.lex_written ?_ _, sqlString s, rfl, Operand.ofText_quoted _,
    s.toList.flatMap stringChar, ?_, ?_, ?_, untilQuote_flatMap_stringChar s.toList,
    unescape_flatMap_stringChar s.toList⟩
  · rw [sqlString, String.toList_ofList]
    have hwritten : Token.Written [.string s] ([] ++ (_ ++ [])) :=
      .cons rfl (.string s) rfl (.nil rfl)
    rwa [List.nil_append, List.append_nil] at hwritten
  · rw [literal_sqlString, String.toList_ofList]
  · simp [notMem_stringChar]
  -- at the beginning of the string nothing is escaped
  · intro before after h
    have hstart : ¬Escaped [] := by simp [Escaped]
    exact escaped_of_quote_in_flatMap hstart h

example : literal (sqlString "'7\\\"") = "\"\\0477\\\\\\\"\"" := by decide

end Awk

end ShellQuery
