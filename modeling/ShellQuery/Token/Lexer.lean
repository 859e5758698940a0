import ShellQuery.Token.Error

/-!
# From text to tokens

Spacing and comments, which run from `--` to the end of the line, part tokens and are dropped. The
token at the start of what remains is read by `next`, which always takes at least one character.
-/

namespace ShellQuery.Token

/-! ### The kinds of tokens -/

/-- The token that a character is on its own. -/
def punctuation? (c : Char) : Option Token :=
  if c = '*' then some asterisk
  else if c = ',' then some comma
  else if c = ';' then some semicolon
  else if c = '(' then some openParen
  else if c = ')' then some closeParen
  else none

/-- The operator that begins with a character, and what follows it. -/
def operator? (c : Char) (cs : List Char) : Option (Operator × List Char) :=
  match c, cs with
  | '=', '=' :: rest => some (.eq, rest)
  | '=', rest => some (.eq, rest)
  | '<', '=' :: rest => some (.le, rest)
  | '<', '>' :: rest => some (.ne, rest)
  | '<', rest => some (.lt, rest)
  | '>', '=' :: rest => some (.ge, rest)
  | '>', rest => some (.gt, rest)
  | '!', '=' :: rest => some (.ne, rest)
  | _, _ => none

/-- The content of a string up to its closing quote, and what follows. A doubled quote stands for
one quote of the content. -/
def stringBody : List Char → Option (List Char × List Char)
  | [] => none
  | '\'' :: '\'' :: rest => (stringBody rest).map fun r => ('\'' :: r.1, r.2)
  | '\'' :: rest => some ([], rest)
  | c :: rest => (stringBody rest).map fun r => (c :: r.1, r.2)

/-- A character that is no double quote. -/
def isNameChar (c : Char) : Bool :=
  c != '"'

/-- The content of a quoted name up to its closing quote, and what follows. -/
def quotedName (cs : List Char) : Option (List Char × List Char) :=
  match cs.dropWhile isNameChar with
  | [] => none
  | _ :: rest => some (cs.takeWhile isNameChar, rest)

/-- The token of a whole number. -/
def ofInteger (negative : Bool) (digits : List Char) : Except SyntaxError Token :=
  let n := Text.digitsValue digits
  if negative then
    if Text.signedBound < n then .error .integerTooSmall else .ok (integer (-n))
  else if Text.signedBound ≤ n then .error .integerTooLarge
  else .ok (integer n)

/-- The number that begins with a digit, and what follows it. A point belongs to it only if a digit
comes next. -/
def number (negative : Bool) (cs : List Char) : Except SyntaxError (Token × List Char) :=
  let whole := cs.takeWhile Char.isDigit
  let rest := cs.dropWhile Char.isDigit
  let fraction :=
    match rest with
    | '.' :: cs => cs.takeWhile Char.isDigit
    | _ => []
  if fraction.isEmpty then (ofInteger negative whole).map fun t => (t, rest)
  else .ok (float (Binary64.ofDecimal negative whole fraction), rest.drop (fraction.length + 1))

/-- A character that a name can start with. -/
def startsWord (c : Char) : Bool :=
  c.isAlpha || c == '_' || c == '.' || c == '/' || c == '~'

/-- A character that a name can go on with. -/
def continuesWord (c : Char) : Bool :=
  c.isAlphanum || c == '_' || c == '.' || c == '/' || c == '-'

/-- The token of a word. -/
def ofWord (w : List Char) : Token :=
  match Keyword.ofWord? (String.ofList w) with
  | some k => keyword k
  | none => name (String.ofList w)

/-- The word at the start of a text, and what follows it. An asterisk behind a final dot belongs to
the word, which is then a qualified wildcard. -/
def word (cs : List Char) : List Char × List Char :=
  let w := cs.takeWhile continuesWord
  match cs.dropWhile continuesWord with
  | '*' :: rest => if w.getLast? = some '.' then (w ++ ['*'], rest) else (w, '*' :: rest)
  | rest => (w, rest)

/-! ### One token -/

/-- The token at the start of the text `c :: cs`, and what follows it. The text is the end of one
with `size` characters. -/
def next (size : Nat) (c : Char) (cs : List Char) : Except ReadError (Token × List Char) :=
  match punctuation? c with
  | some t => .ok (t, cs)
  | none =>
    match operator? c cs with
    | some (o, rest) => .ok (operator o, rest)
    | none =>
      if c = '\'' then
        match stringBody cs with
        | some (body, rest) => .ok (string (String.ofList body), rest)
        | none => .error (.malformed .unterminatedString)
      else if c = '"' then
        match quotedName cs with
        | some (body, rest) => .ok (name (String.ofList body), rest)
        | none => .error (.malformed .unterminatedName)
      else if c.isDigit then (number false (c :: cs)).mapError .malformed
      else if c = '-' ∧ cs.head?.any Char.isDigit then (number true cs).mapError .malformed
      else if startsWord c then
        if continuesWord c then .ok (ofWord (word (c :: cs)).1, (word (c :: cs)).2)
        else .error .emptyWord
      else .error (.malformed (.unexpectedCharacter c (size - (cs.length + 1))))

/-! ### Every token takes a character -/

theorem length_of_operator? {c : Char} {cs rest : List Char} {o : Operator}
    (h : operator? c cs = some (o, rest)) : rest.length ≤ cs.length := by
  unfold operator? at h
  split at h <;> simp_all

theorem length_of_stringBody {cs body rest : List Char}
    (h : stringBody cs = some (body, rest)) : rest.length ≤ cs.length := by
  fun_induction stringBody cs generalizing body with
  | case1 => simp at h
  | case2 cs ih =>
    obtain ⟨r, hr, hb⟩ := Option.map_eq_some_iff.1 h
    obtain ⟨-, rfl⟩ := Prod.mk.inj hb
    have := ih hr
    simp only [List.length_cons]
    omega
  | case3 cs => simp_all
  | case4 c cs _ _ ih =>
    obtain ⟨r, hr, hb⟩ := Option.map_eq_some_iff.1 h
    obtain ⟨-, rfl⟩ := Prod.mk.inj hb
    have := ih hr
    simp only [List.length_cons]
    omega

theorem length_dropWhile_le (p : Char → Bool) (cs : List Char) :
    (cs.dropWhile p).length ≤ cs.length :=
  (List.dropWhile_suffix p).length_le

theorem length_of_quotedName {cs body rest : List Char}
    (h : quotedName cs = some (body, rest)) : rest.length ≤ cs.length := by
  unfold quotedName at h
  have hle := length_dropWhile_le isNameChar cs
  split at h
  · simp at h
  · rename_i x xs hx
    simp only [Option.some.injEq, Prod.mk.injEq] at h
    obtain ⟨-, rfl⟩ := h
    rw [hx, List.length_cons] at hle
    omega

theorem length_of_number {negative : Bool} {cs rest : List Char} {t : Token}
    (h : number negative cs = .ok (t, rest)) :
    rest.length ≤ (cs.dropWhile Char.isDigit).length := by
  simp only [number] at h
  generalize cs.dropWhile Char.isDigit = tail at *
  generalize hf : (match tail with
    | '.' :: cs => cs.takeWhile Char.isDigit
    | _ => ([] : List Char)) = fraction at h
  split at h
  · cases hi : ofInteger negative (cs.takeWhile Char.isDigit) with
    | error e => simp [hi, Except.map] at h
    | ok t' =>
      simp only [hi, Except.map, Except.ok.injEq, Prod.mk.injEq] at h
      obtain ⟨-, rfl⟩ := h
      exact Nat.le_refl _
  · simp only [Except.ok.injEq, Prod.mk.injEq] at h
    obtain ⟨-, rfl⟩ := h
    rw [List.length_drop]
    omega

theorem length_word_le (cs : List Char) :
    (word cs).2.length ≤ (cs.dropWhile continuesWord).length := by
  unfold word
  split
  · rename_i rest h
    rw [h]
    dsimp only
    split <;> simp
  · exact Nat.le_refl _

theorem length_of_next {size : Nat} {c : Char} {cs rest : List Char} {t : Token}
    (h : next size c cs = .ok (t, rest)) : rest.length ≤ cs.length := by
  unfold next at h
  split at h
  · simp_all
  split at h
  · rename_i o r ho
    simp only [Except.ok.injEq, Prod.mk.injEq] at h
    obtain ⟨-, rfl⟩ := h
    exact length_of_operator? ho
  split at h
  · split at h
    · rename_i b r hb
      simp only [Except.ok.injEq, Prod.mk.injEq] at h
      obtain ⟨-, rfl⟩ := h
      exact length_of_stringBody hb
    · simp at h
  split at h
  · split at h
    · rename_i b r hb
      simp only [Except.ok.injEq, Prod.mk.injEq] at h
      obtain ⟨-, rfl⟩ := h
      exact length_of_quotedName hb
    · simp at h
  split at h
  · rename_i hd
    cases hn : number false (c :: cs) with
    | error e =>
      rw [hn] at h
      cases h
    | ok r =>
      rw [hn] at h
      cases h
      have := length_of_number hn
      rw [List.dropWhile_cons_of_pos hd] at this
      have := length_dropWhile_le Char.isDigit cs
      omega
  split at h
  · cases hn : number true cs with
    | error e =>
      rw [hn] at h
      cases h
    | ok r =>
      rw [hn] at h
      cases h
      have := length_of_number hn
      have := length_dropWhile_le Char.isDigit cs
      omega
  split at h
  · split at h
    · rename_i hc
      simp only [Except.ok.injEq, Prod.mk.injEq] at h
      obtain ⟨-, rfl⟩ := h
      have := length_word_le (c :: cs)
      rw [List.dropWhile_cons_of_pos hc] at this
      have := length_dropWhile_le continuesWord cs
      omega
    · simp at h
  · simp at h

/-! ### All tokens -/

/-- A character before the end of a line. -/
def isLineChar (c : Char) : Bool :=
  c != '\n'

/-- The tokens of the end of a text with `size` characters. -/
def lex (size : Nat) : List Char → Except ReadError (List Token)
  | [] => .ok []
  | c :: cs =>
    if Text.isSpacing c then lex size cs
    else if c = '-' ∧ cs.head? = some '-' then lex size (cs.dropWhile isLineChar)
    else
      match _h : next size c cs with
      | .error e => .error e
      | .ok (t, rest) => (lex size rest).map (t :: ·)
termination_by cs => cs.length
decreasing_by
  · simp
  · have := length_dropWhile_le isLineChar cs
    simp only [List.length_cons]
    omega
  · have := length_of_next _h
    simp only [List.length_cons]
    omega

/-- The tokens of a text. -/
def ofText (text : String) : Except ReadError (List Token) :=
  lex text.toList.length text.toList

end ShellQuery.Token
