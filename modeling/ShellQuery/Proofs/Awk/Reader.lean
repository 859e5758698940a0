import Mathlib.Algebra.Field.Rat
import ShellQuery.Proofs.Awk.Strings

/-!
# The conditions of awk

awk's own reading of a condition, as far as filter steps use it: comparisons of fields and
constants, `&&`, which binds tighter than `||`, and parentheses. `Expression.ofText` refuses all
other texts, among them those with a line end inside a string constant, which awk does not read
either.

* `Expression.ofText_eq_none_of_newline`: a text with a line end in it is not read;
* `lex_fieldRef`, `lex_symbol`, `Denotes.lex_literal`: the words of a filter step are read as what
  they are meant to be, whatever follows them in a condition (`Ends`).
-/

namespace ShellQuery.Awk

/-! ### Expressions -/

/-- A constant of a program. -/
inductive Constant where
  | number (value : ℚ)
  | string (text : String)
deriving DecidableEq

/-- One side of a comparison. -/
inductive Primary where
  /-- The field at a position, which counts from zero. -/
  | field (position : Nat)
  | constant (value : Constant)
deriving DecidableEq

/-- A comparison. -/
structure Relational where
  left : Primary
  operator : Operator
  right : Primary
deriving DecidableEq

/-- A condition: a row of comparisons with `&&` between them is one conjunction, and one with `||`
between them is one disjunction. -/
abbrev Expression := Formula Relational

/-! ### Words -/

/-- The smallest parts of a condition. A numeral takes the sign in front of it. -/
inductive Lexeme where
  | primary (p : Primary)
  | operator (o : Operator)
  | and
  | or
  | openParen
  | closeParen
deriving DecidableEq

/-- Space and tab. -/
def isGap (c : Char) : Bool :=
  c == ' ' || c == '\t'

/-- A character of a numeral without a sign. -/
def isNumeralChar (c : Char) : Bool :=
  c.isDigit || c == '.'

/-- The value of the digits before and behind a decimal point. -/
def decimalValue (whole fraction : List Char) : ℚ :=
  Text.digitsValue (whole ++ fraction) / 10 ^ fraction.length

/-- The value of a row of digits with at most one point in it. -/
def decimal? (cs : List Char) : Option ℚ :=
  let whole := cs.takeWhile Char.isDigit
  let fraction := (cs.dropWhile Char.isDigit).drop 1
  if (whole ++ fraction).isEmpty || !fraction.all Char.isDigit then none
  else some (decimalValue whole fraction)

/-- Reads a number that is negative or not. -/
def number? (negative : Bool) (cs : List Char) : Option (Lexeme × List Char) :=
  (decimal? (cs.takeWhile isNumeralChar)).map fun q =>
    (.primary (.constant (.number (if negative then -q else q))), cs.dropWhile isNumeralChar)

/-- Reads the number of a field. The zeroth field is the row as a whole, which no condition uses. -/
def field? (cs : List Char) : Option (Lexeme × List Char) :=
  match Text.digitsValue (cs.takeWhile Char.isDigit) with
  | 0 => none
  | p + 1 => some (.primary (.field p), cs.dropWhile Char.isDigit)

/-- Reads a string constant behind its opening quote. It has to end on its line. -/
def string? (cs : List Char) : Option (Lexeme × List Char) :=
  match untilQuote cs with
  | none => none
  | some (body, rest) =>
    if '\n' ∈ body then none
    else (unescape body).map fun s => (.primary (.constant (.string (String.ofList s))), rest)

/-- Reads an operator from its first character on. -/
def operator? (c : Char) (cs : List Char) : Option (Operator × List Char) :=
  match c, Text.stripFirst '=' cs with
  | '=', some rest => some (.eq, rest)
  | '!', some rest => some (.ne, rest)
  | '<', some rest => some (.le, rest)
  | '<', none => some (.lt, cs)
  | '>', some rest => some (.ge, rest)
  | '>', none => some (.gt, cs)
  | _, _ => none

/-- Reads a lexeme from its first character on. -/
def next (c : Char) (cs : List Char) : Option (Lexeme × List Char) :=
  if c = '(' then some (.openParen, cs)
  else if c = ')' then some (.closeParen, cs)
  else if c = '&' then (Text.stripFirst '&' cs).map fun rest => (.and, rest)
  else if c = '|' then (Text.stripFirst '|' cs).map fun rest => (.or, rest)
  else if c = '$' then field? cs
  else if c = '"' then string? cs
  else if c = '+' then number? false cs
  else if c = '-' then number? true cs
  else if isNumeralChar c then number? false (c :: cs)
  else (operator? c cs).map fun r => (.operator r.1, r.2)

/-! ### What a lexeme takes -/

/-- The rest of a text behind some characters, none of them a line end. -/
def Takes (cs rest : List Char) : Prop :=
  ∃ taken, cs = taken ++ rest ∧ '\n' ∉ taken

theorem takes_refl (cs : List Char) : Takes cs cs :=
  ⟨[], rfl, List.not_mem_nil⟩

/-- One more character that is no line end can be taken first. -/
theorem Takes.cons {c : Char} {cs rest : List Char} (hc : c ≠ '\n') (h : Takes cs rest) :
    Takes (c :: cs) rest := by
  obtain ⟨taken, rfl, htaken⟩ := h
  exact ⟨c :: taken, rfl, by simp [hc.symm, htaken]⟩

/-- A class without the line end takes none. -/
theorem takes_dropWhile {p : Char → Bool} (hp : p '\n' = false) (cs : List Char) :
    Takes cs (cs.dropWhile p) := by
  refine ⟨cs.takeWhile p, List.takeWhile_append_dropWhile.symm, fun h => ?_⟩
  rw [List.mem_takeWhile_imp h] at hp
  cases hp

/-- A character that is stripped is taken. -/
theorem takes_of_stripFirst {c : Char} {cs rest : List Char} (hc : c ≠ '\n')
    (h : Text.stripFirst c cs = some rest) : Takes cs rest := by
  rw [Text.stripFirst_eq_some_iff.1 h]
  exact (takes_refl rest).cons hc

/-- The body of a string constant ends in front of a double quote, and nothing is lost around it. -/
theorem append_of_untilQuote {cs body rest : List Char} (h : untilQuote cs = some (body, rest)) :
    cs = body ++ '"' :: rest := by
  fun_induction untilQuote cs generalizing body with
  | case1 => cases h
  | case2 cs =>
    cases h
    rfl
  | case3 c cs ih =>
    obtain ⟨⟨body', rest'⟩, hr, heq⟩ := Option.map_eq_some_iff.1 h
    cases heq
    rw [ih hr]
    rfl
  | case4 c cs _ _ ih =>
    obtain ⟨⟨body', rest'⟩, hr, heq⟩ := Option.map_eq_some_iff.1 h
    cases heq
    rw [ih hr]
    rfl

variable {c : Char} {cs rest : List Char} {l : Lexeme}

theorem takes_of_number? {negative : Bool} (h : number? negative cs = some (l, rest)) :
    Takes cs rest := by
  obtain ⟨q, -, heq⟩ := Option.map_eq_some_iff.1 h
  cases heq
  exact takes_dropWhile rfl cs

theorem takes_of_field? (h : field? cs = some (l, rest)) : Takes cs rest := by
  unfold field? at h
  split at h
  · cases h
  · cases h
    exact takes_dropWhile rfl cs

/-- A string constant is refused for a line end in its body, so it takes none. -/
theorem takes_of_string? (h : string? cs = some (l, rest)) : Takes cs rest := by
  unfold string? at h
  split at h
  · cases h
  · next body rest' huntil =>
    split at h
    · cases h
    · next hbody =>
      obtain ⟨s, -, heq⟩ := Option.map_eq_some_iff.1 h
      cases heq
      exact ⟨body ++ ['"'], by simp [append_of_untilQuote huntil], by simp [hbody]⟩

theorem takes_of_operator? {o : Operator} (h : operator? c cs = some (o, rest)) :
    c ≠ '\n' ∧ Takes cs rest := by
  unfold operator? at h
  split at h
  -- six operators are left; an equals sign behind the first character is stripped where there is
  -- one
  all_goals try cases h
  all_goals refine ⟨by decide, ?_⟩
  all_goals first
    | exact takes_refl _
    | next hstrip => exact takes_of_stripFirst (by decide) hstrip

/-- A lexeme begins with a character that is no line end, and takes none behind it: each branch of
the reader hands over to one of the readers above. -/
theorem takes_of_next (h : next c cs = some (l, rest)) : c ≠ '\n' ∧ Takes cs rest := by
  have hne : ∀ {d : Char}, c = d → d ≠ '\n' → c ≠ '\n' := fun hcd hd => hcd ▸ hd
  unfold next at h
  split_ifs at h with hopen hclose hand hor hfield hstring hplus hminus hnumeral
  · cases h
    exact ⟨hne hopen (by decide), takes_refl _⟩
  · cases h
    exact ⟨hne hclose (by decide), takes_refl _⟩
  · obtain ⟨rest', hstrip, heq⟩ := Option.map_eq_some_iff.1 h
    cases heq
    exact ⟨hne hand (by decide), takes_of_stripFirst (by decide) hstrip⟩
  · obtain ⟨rest', hstrip, heq⟩ := Option.map_eq_some_iff.1 h
    cases heq
    exact ⟨hne hor (by decide), takes_of_stripFirst (by decide) hstrip⟩
  · exact ⟨hne hfield (by decide), takes_of_field? h⟩
  · exact ⟨hne hstring (by decide), takes_of_string? h⟩
  · exact ⟨hne hplus (by decide), takes_of_number? h⟩
  · exact ⟨hne hminus (by decide), takes_of_number? h⟩
  · -- the numeral goes on behind its first character
    obtain ⟨q, -, heq⟩ := Option.map_eq_some_iff.1 h
    cases heq
    rw [List.dropWhile_cons_of_pos hnumeral]
    refine ⟨?_, takes_dropWhile rfl cs⟩
    rintro rfl
    cases hnumeral
  · obtain ⟨⟨o, rest'⟩, ho, heq⟩ := Option.map_eq_some_iff.1 h
    cases heq
    exact takes_of_operator? ho

/-- This is why `lex` ends. -/
theorem length_le_of_next (h : next c cs = some (l, rest)) : rest.length ≤ cs.length := by
  obtain ⟨-, taken, rfl, -⟩ := takes_of_next h
  rw [List.length_append]
  exact Nat.le_add_left _ _

/-- The lexemes of a text. -/
def lex (cs : List Char) : Option (List Lexeme) :=
  match cs with
  | [] => some []
  | c :: cs =>
    if isGap c then lex cs
    else
      match h : next c cs with
      | none => none
      | some (l, rest) =>
        have : rest.length ≤ cs.length := length_le_of_next h
        (lex rest).map (l :: ·)
termination_by cs.length

theorem lex_nil : lex [] = some [] := by
  rw [lex]

theorem lex_gap (h : isGap c = true) (cs : List Char) : lex (c :: cs) = lex cs := by
  rw [lex, if_pos h]

/-- Outside of gaps a text is read lexeme by lexeme. -/
theorem lex_of_next (hgap : isGap c = false) (h : next c cs = some (l, rest)) :
    lex (c :: cs) = (lex rest).map (l :: ·) := by
  rw [lex, if_neg (by simp [hgap])]
  split
  · next hnone => cases hnone.symm.trans h
  · next hsome =>
    cases hsome.symm.trans h
    rfl

/-- What lexemes a text has depends on all of it, and none of them has a line end in it. -/
theorem newline_notMem_of_lex {ls : List Lexeme} (h : lex cs = some ls) : '\n' ∉ cs := by
  -- a lexeme can take any number of characters, so the induction is on the length
  induction hn : cs.length using Nat.strongRecOn generalizing cs ls with
  | _ n ih =>
  subst hn
  cases cs with
  | nil => exact List.not_mem_nil
  | cons c cs =>
    by_cases hgap : isGap c = true
    · rw [lex_gap hgap] at h
      have hc : c ≠ '\n' := by
        rintro rfl
        cases hgap
      simp [hc.symm, ih cs.length (by simp) h rfl]
    · cases hnext : next c cs with
      | none =>
        rw [lex, if_neg hgap] at h
        split at h
        · cases h
        · next hsome => cases hnext.symm.trans hsome
      | some r =>
        obtain ⟨l, rest⟩ := r
        rw [lex_of_next (by simpa using hgap) hnext] at h
        obtain ⟨ls', hls, -⟩ := Option.map_eq_some_iff.1 h
        obtain ⟨hc, taken, rfl, htaken⟩ := takes_of_next hnext
        have hshorter : rest.length < (c :: (taken ++ rest)).length := by
          simp only [List.length_cons, List.length_append]
          omega
        have hrest := ih rest.length hshorter hls rfl
        simp [hc.symm, htaken, hrest]

/-! ### Conditions -/

/-- A list of disjuncts as a formula; a single disjunct stands for itself. -/
def ofDisjuncts : List Expression → Expression
  | [e] => e
  | es => .any es

/-- What was read since a parenthesis was opened: the conjunctions before the last `||`, by their
parts, and the parts behind it. -/
structure Frame where
  runs : List (List Expression)
  run : List Expression

namespace Frame

/-- Nothing was read. -/
def start : Frame :=
  ⟨[], []⟩

/-- One more part was read. -/
def add (f : Frame) (e : Expression) : Frame :=
  ⟨f.runs, f.run ++ [e]⟩

/-- An `||` was read. -/
def split (f : Frame) : Frame :=
  ⟨f.runs ++ [f.run], []⟩

/-- The condition that was read. -/
def expression (f : Frame) : Expression :=
  ofDisjuncts ((f.runs ++ [f.run]).map Formula.ofConjuncts)

end Frame

mutual

/-- Reads a condition from where a comparison or a parenthesis has to begin. The frames of the
parentheses that are still open, the innermost first, are in `outer`. -/
def readTest (outer : List Frame) (frame : Frame) : List Lexeme → Option Expression
  | .openParen :: ls => readTest (frame :: outer) .start ls
  | .primary l :: .operator o :: .primary r :: ls =>
    readConnective outer (frame.add (.atom ⟨l, o, r⟩)) ls
  | _ => none

/-- Reads a condition from where a comparison or a parenthesis has ended. -/
def readConnective (outer : List Frame) (frame : Frame) : List Lexeme → Option Expression
  | .and :: ls => readTest outer frame ls
  | .or :: ls => readTest outer frame.split ls
  | .closeParen :: ls =>
    match outer with
    | [] => none
    | before :: outer => readConnective outer (before.add frame.expression) ls
  | [] =>
    match outer with
    | [] => some frame.expression
    | _ :: _ => none
  | _ => none

end

/-- Reads a condition. -/
def Expression.ofText (text : String) : Option Expression :=
  (lex text.toList).bind (readTest [] .start)

example : Expression.ofText "$1 < $2 || $2 == $3 && ($3 > $1)" =
    some (.any [.atom ⟨.field 0, .lt, .field 1⟩,
      .all [.atom ⟨.field 1, .eq, .field 2⟩, .atom ⟨.field 2, .gt, .field 0⟩]]) := by
  cbv

/-- awk does not go on in the next line, neither between lexemes nor in a string constant. -/
theorem Expression.ofText_eq_none_of_newline {text : String} (h : '\n' ∈ text.toList) :
    ofText text = none := by
  cases hlex : lex text.toList with
  | none => rw [ofText, hlex, Option.bind_none]
  | some ls => exact absurd h (newline_notMem_of_lex hlex)

/-! ### The words of a filter step -/

/-- A text that is at its end or goes on with a blank or a closing parenthesis, as it does behind an
operand. -/
def Ends (rest : List Char) : Prop :=
  rest.head?.all (fun c => c == ' ' || c == ')') = true

/-- No numeral goes on behind an operand. -/
theorem Ends.takeWhile_append {p : Char → Bool} (hrest : Ends rest) (hblank : p ' ' = false)
    (hclose : p ')' = false) (hcs : ∀ c ∈ cs, p c = true) :
    (cs ++ rest).takeWhile p = cs ∧ (cs ++ rest).dropWhile p = rest := by
  refine Token.takeWhile_append_of_all hcs fun c hc => ?_
  have hor : c = ' ' ∨ c = ')' := by
    simpa using (Option.all_eq_true _ _).1 hrest c hc
  rcases hor with rfl | rfl <;> assumption

/-- The digits of a position end where a blank or a parenthesis stands, and the position counts from
one there. -/
theorem lex_fieldRef (hrest : Ends rest) (p : Nat) :
    lex ((fieldRef p).toList ++ rest) = (lex rest).map (.primary (.field p) :: ·) := by
  have htext : (fieldRef p).toList ++ rest = '$' :: (Nat.toDigits 10 (p + 1) ++ rest) := by
    simp [fieldRef]
  have hdigits : ∀ c ∈ Nat.toDigits 10 (p + 1), c.isDigit = true :=
    fun c hc => Nat.isDigit_of_mem_toDigits (by decide) (by decide) hc
  -- whatever follows an operand, no digit does
  obtain ⟨htake, hdrop⟩ := hrest.takeWhile_append rfl rfl hdigits
  have hnext : next '$' (Nat.toDigits 10 (p + 1) ++ rest) = some (.primary (.field p), rest) := by
    show field? _ = _
    rw [field?, htake, hdrop, Token.digitsValue_toDigits]
  rw [htext, lex_of_next rfl hnext]

/-- An operator is read off by the blank behind it, so `<` is not taken for the start of `<=`. -/
theorem lex_symbol (o : Operator) (rest : List Char) :
    lex (o.symbol.toList ++ ' ' :: rest) = (lex rest).map (.operator o :: ·) := by
  have hnext : ∃ c cs, o.symbol.toList ++ ' ' :: rest = c :: cs ∧ isGap c = false ∧
      next c cs = some (.operator o, ' ' :: rest) := by
    cases o <;> exact ⟨_, _, rfl, rfl, rfl⟩
  obtain ⟨c, cs, hcs, hgap, hnext⟩ := hnext
  rw [hcs, lex_of_next hgap hnext, lex_gap rfl]

/-! ### Literals -/

/-- The decimal numerals without a sign, and their values. There is a digit on one side of the point,
if there is a point. -/
inductive Numeral : List Char → ℚ → Prop
  | whole {digits : List Char} (hne : digits ≠ []) (hdigits : ∀ d ∈ digits, d.isDigit = true) :
    Numeral digits (Text.digitsValue digits)
  | decimal {digits fraction : List Char} (hne : digits ++ fraction ≠ [])
    (hdigits : ∀ d ∈ digits ++ fraction, d.isDigit = true) :
    Numeral (digits ++ '.' :: fraction)
      (Text.digitsValue (digits ++ fraction) / 10 ^ fraction.length)

/-- The literals of a statement that are numerals or strings, and what they denote. -/
inductive Denotes : String → Constant → Prop
  | string (s : String) : Denotes (sqlString s) (.string s)
  | numeral {cs : List Char} {q : ℚ} (h : Numeral cs q) : Denotes (String.ofList cs) (.number q)
  | positive {cs : List Char} {q : ℚ} (h : Numeral cs q) :
    Denotes (String.ofList ('+' :: cs)) (.number q)
  | negative {cs : List Char} {q : ℚ} (h : Numeral cs q) :
    Denotes (String.ofList ('-' :: cs)) (.number (-q))

variable {q : ℚ}

/-- A numeral is made of digits and a point. -/
theorem Numeral.isNumeralChar_of_mem (h : Numeral cs q) (hc : c ∈ cs) : isNumeralChar c = true := by
  have hdigit : ∀ {d : Char}, d.isDigit = true → isNumeralChar d = true := by
    intro d hd
    simp [isNumeralChar, hd]
  cases h with
  | whole _ hdigits => exact hdigit (hdigits c hc)
  | @decimal digits fraction _ hdigits =>
    rcases List.mem_append.1 hc with hc | hc
    · exact hdigit (hdigits c (List.mem_append_left _ hc))
    · rcases List.mem_cons.1 hc with rfl | hc
      · rfl
      · exact hdigit (hdigits c (List.mem_append_right _ hc))

theorem Numeral.ne_nil (h : Numeral cs q) : cs ≠ [] := by
  cases h with
  | whole hne _ => exact hne
  | decimal _ _ => simp

/-- A numeral has the value that awk reads: the digits before the first character that is none, and
those behind it. -/
theorem Numeral.decimal?_eq (h : Numeral cs q) : decimal? cs = some q := by
  cases h with
  | whole hne hdigits =>
    have htake : cs.takeWhile Char.isDigit = cs := List.takeWhile_eq_self_iff.2 hdigits
    have hdrop : cs.dropWhile Char.isDigit = [] := List.dropWhile_eq_nil_iff.2 hdigits
    simp [decimal?, htake, hdrop, hne, decimalValue]
  | @decimal digits fraction hne hdigits =>
    obtain ⟨htake, hdrop⟩ := Token.takeWhile_append_of_all
      (fun d hd => hdigits d (List.mem_append_left fraction hd))
      (z := '.' :: fraction) (by rintro d ⟨⟩; rfl)
    have hall : fraction.all Char.isDigit = true :=
      List.all_eq_true.2 fun d hd => hdigits d (List.mem_append_right _ hd)
    have hne' : (digits ++ fraction).isEmpty = false := by simpa [List.isEmpty_eq_false_iff] using hne
    rw [decimal?, htake, hdrop]
    simp [hall, hne', decimalValue]

/-- A numeral is read as a whole in front of what can follow an operand. -/
theorem Numeral.number?_append (h : Numeral cs q) (hrest : Ends rest) (negative : Bool) :
    number? negative (cs ++ rest) =
      some (.primary (.constant (.number (if negative then -q else q))), rest) := by
  obtain ⟨htake, hdrop⟩ :=
    hrest.takeWhile_append rfl rfl fun c hc => h.isNumeralChar_of_mem hc
  rw [number?, htake, hdrop, h.decimal?_eq]
  rfl

theorem ne_of_isNumeralChar (h : isNumeralChar c = true) {d : Char}
    (hd : isNumeralChar d = false) : c ≠ d := by
  rintro rfl
  cases hd.symm.trans h

/-- No other lexeme begins like a numeral. -/
theorem next_of_isNumeralChar (h : isNumeralChar c = true) (cs : List Char) :
    next c cs = number? false (c :: cs) := by
  have hne : ∀ d, isNumeralChar d = false → c ≠ d := fun _ => ne_of_isNumeralChar h
  rw [next, if_neg (hne '(' rfl), if_neg (hne ')' rfl), if_neg (hne '&' rfl), if_neg (hne '|' rfl),
    if_neg (hne '$' rfl), if_neg (hne '"' rfl), if_neg (hne '+' rfl), if_neg (hne '-' rfl),
    if_pos h]

/-- A literal that does not begin with a quote is written as it stands. -/
theorem literal_ofList_cons (hc : c ≠ '\'') (cs : List Char) :
    literal (String.ofList (c :: cs)) = String.ofList (c :: cs) := by
  simp [literal, stringBody?, Text.stripFirst, hc]

/-- The escapes of a string constant bring no line end in; one in the string stays as it is. -/
theorem newline_mem_stringChar_iff : '\n' ∈ stringChar c ↔ c = '\n' := by
  unfold stringChar
  split_ifs with hb hq hs
  · simp [hb]
  · simp [hq]
  · simp [hs]
  · simp [eq_comm]

/-- Doubling quotes brings no line end in either. -/
theorem newline_mem_sqlString_iff (s : String) : '\n' ∈ (sqlString s).toList ↔ '\n' ∈ s.toList := by
  have hdouble : ∀ c, '\n' ∈ (if c = '\'' then ['\'', '\''] else [c]) ↔ c = '\n' := by
    intro c
    split_ifs with hc
    · simp [hc]
    · simp [eq_comm]
  simp [sqlString, Text.double, hdouble]

/-- A literal brings a line end into the program exactly when there is one in it. -/
theorem Denotes.newline_mem_literal_iff {l : String} {k : Constant} (h : Denotes l k) :
    '\n' ∈ (literal l).toList ↔ '\n' ∈ l.toList := by
  -- a string is written anew, and the numerals stay as they stand
  cases h with
  | string s =>
    rw [literal_sqlString, newline_mem_sqlString_iff]
    simp [newline_mem_stringChar_iff]
  | @numeral cs q h =>
    obtain ⟨c, cs, rfl⟩ := List.exists_cons_of_ne_nil h.ne_nil
    have hc := h.isNumeralChar_of_mem List.mem_cons_self
    rw [literal_ofList_cons (ne_of_isNumeralChar hc rfl)]
  | positive h => rw [literal_ofList_cons (by decide)]
  | negative h => rw [literal_ofList_cons (by decide)]

/-- A literal is read as the constant that it denotes, if it is free of line ends. -/
theorem Denotes.lex_literal {l : String} {k : Constant} (h : Denotes l k)
    (hend : '\n' ∉ l.toList) (hrest : Ends rest) :
    lex ((literal l).toList ++ rest) = (lex rest).map (.primary (.constant k) :: ·) := by
  -- a string is read up to its closing quote, a numeral up to where the operand ends
  cases h with
  | string s =>
    have hbody : '\n' ∉ s.toList.flatMap stringChar := by
      simpa [newline_mem_stringChar_iff] using mt (newline_mem_sqlString_iff s).2 hend
    have hnext : next '"' (s.toList.flatMap stringChar ++ '"' :: rest) =
        some (.primary (.constant (.string s)), rest) := by
      show string? _ = _
      rw [string?, untilQuote_flatMap_stringChar]
      simp [hbody, unescape_flatMap_stringChar]
    have htext : (literal (sqlString s)).toList ++ rest =
        '"' :: (s.toList.flatMap stringChar ++ '"' :: rest) := by
      simp [literal_sqlString]
    rw [htext, lex_of_next rfl hnext]
  | @numeral cs q h =>
    obtain ⟨c, cs, rfl⟩ := List.exists_cons_of_ne_nil h.ne_nil
    have hc := h.isNumeralChar_of_mem List.mem_cons_self
    have hgap : isGap c = false := by
      rw [isGap, Bool.or_eq_false_iff, beq_eq_false_iff_ne, beq_eq_false_iff_ne]
      exact ⟨ne_of_isNumeralChar hc rfl, ne_of_isNumeralChar hc rfl⟩
    rw [literal_ofList_cons (ne_of_isNumeralChar hc rfl), String.toList_ofList, List.cons_append]
    refine lex_of_next hgap ?_
    rw [next_of_isNumeralChar hc, ← List.cons_append, h.number?_append hrest]
    rfl
  | @positive cs q h =>
    rw [literal_ofList_cons (by decide), String.toList_ofList, List.cons_append]
    exact lex_of_next rfl (h.number?_append hrest false)
  | @negative cs q h =>
    rw [literal_ofList_cons (by decide), String.toList_ofList, List.cons_append]
    exact lex_of_next rfl (h.number?_append hrest true)

end ShellQuery.Awk
