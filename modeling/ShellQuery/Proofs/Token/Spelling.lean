import Mathlib.Data.List.TakeWhile
import ShellQuery.Text.Split
import ShellQuery.Token.Lexer

/-!
# Reading undoes spelling

How tokens are spelled (`Spells`), how a text spells a list of them with spacing between neighbours
(`Written`), and the main statement: the tokens of such a text are the ones it spells
(`ofText_of_written`).

The spacing behind a token is where its spelling ends, whatever the token is (`Parted`): no word or
number goes on with it, no operator gets longer and no closing quote is doubled.
-/

namespace ShellQuery.Token

/-! ### Spellings -/

/-- The symbols that stand for an operator. -/
def symbols : Operator → List (List Char)
  | .eq => [['='], ['=', '=']]
  | .ne => [['<', '>'], ['!', '=']]
  | .lt => [['<']]
  | .le => [['<', '=']]
  | .gt => [['>']]
  | .ge => [['>', '=']]

/-- How a token is spelled: a keyword by its word in any case, a name between double quotes, a
whole number of 64 bits in decimal, a string between quotes with those in it doubled, and the rest
by symbols. -/
inductive Spells : Token → List Char → Prop
  | keyword {k : Keyword} {w : String} (h : Text.sameIgnoringCase w k.word = true) :
    Spells (.keyword k) w.toList
  | name {n : String} (h : '"' ∉ n.toList) : Spells (.name n) ('"' :: n.toList ++ ['"'])
  | integer {n : Int} (hmin : -Text.signedBound ≤ n) (hmax : n < Text.signedBound) :
    Spells (.integer n) (toString n).toList
  | string (s : String) : Spells (.string s) ('\'' :: Text.double '\'' s.toList ++ ['\''])
  | operator {o : Operator} {cs : List Char} (h : cs ∈ symbols o) : Spells (.operator o) cs
  | asterisk : Spells .asterisk ['*']
  | comma : Spells .comma [',']
  | semicolon : Spells .semicolon [';']
  | openParen : Spells .openParen ['(']
  | closeParen : Spells .closeParen [')']

/-- A text that is at its end or goes on with spacing. -/
def Parted (cs : List Char) : Prop :=
  cs.head?.all Text.isSpacing = true

/-- The texts that spell a list of tokens. There can be spacing anywhere between them, and there is
some behind every token but the last one. -/
inductive Written : List Token → List Char → Prop
  | nil {gap : List Char} (hgap : gap.all Text.isSpacing = true) : Written [] gap
  | cons {t : Token} {ts : List Token} {gap cs rest : List Char}
    (hgap : gap.all Text.isSpacing = true) (ht : Spells t cs) (hrest : Parted rest)
    (hts : Written ts rest) : Written (t :: ts) (gap ++ (cs ++ rest))

/-! ### Runs of characters of a class -/

/-- A run of characters of a class ends where something stands that is not in the class. -/
theorem takeWhile_append_of_head {p : Char → Bool} {z : List Char}
    (hz : ∀ c ∈ z.head?, p c = false) (cs : List Char) :
    (cs ++ z).takeWhile p = cs.takeWhile p ∧
      (cs ++ z).dropWhile p = cs.dropWhile p ++ z := by
  induction cs with
  | nil =>
    cases z with
    | nil => simp
    | cons c z => simp [hz c rfl]
  | cons c cs ih =>
    cases hc : p c with
    | false => simp [hc]
    | true => simp [hc, ih]

/-- Such a run that is all of the class is taken as a whole. -/
theorem takeWhile_append_of_all {p : Char → Bool} {cs z : List Char} (hcs : ∀ c ∈ cs, p c = true)
    (hz : ∀ c ∈ z.head?, p c = false) :
    (cs ++ z).takeWhile p = cs ∧ (cs ++ z).dropWhile p = z := by
  obtain ⟨htake, hdrop⟩ := takeWhile_append_of_head hz cs
  rw [htake, hdrop, List.takeWhile_eq_self_iff.2 hcs, List.dropWhile_eq_nil_iff.2 hcs]
  exact ⟨rfl, rfl⟩

/-! ### Spacing -/

/-- The spacing characters. -/
def spaces : List Char :=
  [' ', '\t', '\n', '\x0c', '\r']

/-- Spacing is told by its codes, and these are the codes of the five characters. -/
theorem mem_spaces_of_isSpacing {c : Char} (h : Text.isSpacing c = true) : c ∈ spaces := by
  have heq : ∀ {d : Char}, c.toNat = d.toNat → c = d := Char.toNat_inj.1
  simp only [Text.isSpacing, Bool.or_eq_true, beq_iff_eq] at h
  simp only [spaces, List.mem_cons, List.not_mem_nil, or_false]
  rcases h with (((h | h) | h) | h) | h
  · exact Or.inl (heq h)
  · exact Or.inr (Or.inl (heq h))
  · exact Or.inr (Or.inr (Or.inl (heq h)))
  · exact Or.inr (Or.inr (Or.inr (Or.inl (heq h))))
  · exact Or.inr (Or.inr (Or.inr (Or.inr (heq h))))

variable {p : Char → Bool} {c : Char} {cs rest : List Char}

theorem eq_false_of_isSpacing (hp : spaces.any p = false) (hc : Text.isSpacing c = true) :
    p c = false :=
  Bool.eq_false_iff.2 (List.any_eq_false.1 hp c (mem_spaces_of_isSpacing hc))

theorem isSpacing_eq_false (hp : spaces.any p = false) (hc : p c = true) :
    Text.isSpacing c = false := by
  cases hspacing : Text.isSpacing c with
  | false => rfl
  | true =>
    rw [eq_false_of_isSpacing hp hspacing] at hc
    cases hc

theorem Parted.ne_cons (h : Parted rest) (hc : Text.isSpacing c = false) : rest ≠ c :: cs := by
  rintro rfl
  cases hc.symm.trans h

/-- A run of characters of a class that spacing is not in ends at spacing. -/
theorem Parted.takeWhile_append (h : Parted rest) (hp : spaces.any p = false)
    (hcs : ∀ c ∈ cs, p c = true) :
    (cs ++ rest).takeWhile p = cs ∧ (cs ++ rest).dropWhile p = rest :=
  takeWhile_append_of_all hcs fun c hc =>
    eq_false_of_isSpacing hp ((Option.all_eq_true _ _).1 h c hc)

theorem lex_spacing_append {gap : List Char} (hgap : gap.all Text.isSpacing = true) (size : Nat)
    (cs : List Char) : lex size (gap ++ cs) = lex size cs := by
  induction gap with
  | nil => rfl
  | cons c gap ih =>
    obtain ⟨hc, hgap⟩ := Bool.and_eq_true_iff.1 hgap
    rw [List.cons_append, lex, if_pos hc]
    exact ih hgap

/-- Where no comment begins, a text goes on with the next token. -/
theorem lex_of_next {size : Nat} {t : Token} (hspacing : Text.isSpacing c = false)
    (hcomment : ¬(c = '-' ∧ cs.head? = some '-')) (h : next size c cs = .ok (t, rest)) :
    lex size (c :: cs) = (lex size rest).map (t :: ·) := by
  rw [lex, if_neg (by simp [hspacing]), if_neg hcomment]
  split <;> rename_i hnext <;> cases h.symm.trans hnext
  rfl

/-! ### Symbols, strings and names -/

theorem exists_symbol_eq_cons {o : Operator} (h : cs ∈ symbols o) :
    ∃ d ds, cs = d :: ds ∧ d ∈ ['=', '<', '>', '!'] := by
  have hhead : ∀ cs ∈ symbols o, cs.head? ∈ ['=', '<', '>', '!'].map some := by
    cases o <;> decide
  have hcs := hhead cs h
  cases cs with
  | nil => simp at hcs
  | cons d ds => exact ⟨d, ds, rfl, by simpa using hcs⟩

/-- The first character of a symbol is neither spacing nor a token on its own, nor does it begin a
comment. -/
theorem of_mem_symbolHeads (h : c ∈ ['=', '<', '>', '!']) :
    Text.isSpacing c = false ∧ c ≠ '-' ∧ punctuation? c = none := by
  simp only [List.mem_cons, List.not_mem_nil, or_false] at h
  rcases h with rfl | rfl | rfl | rfl <;> decide

/-- No symbol gets longer by spacing. -/
theorem operator?_symbol {o : Operator} (h : c :: cs ∈ symbols o) (hrest : Parted rest) :
    operator? c (cs ++ rest) = some (o, rest) := by
  -- the rows of the match for longer symbols are out of the question
  have heq : ∀ us, rest ≠ '=' :: us := fun us => hrest.ne_cons rfl
  have hgt : ∀ us, rest ≠ '>' :: us := fun us => hrest.ne_cons rfl
  cases o <;> simp only [symbols, List.mem_cons, List.cons.injEq, List.not_mem_nil, or_false] at h
  case eq =>
    rcases h with ⟨rfl, rfl⟩ | ⟨rfl, rfl⟩
    · simp [operator?]
    · rfl
  case ne =>
    rcases h with ⟨rfl, rfl⟩ | ⟨rfl, rfl⟩ <;> rfl
  all_goals
    obtain ⟨rfl, rfl⟩ := h
    simp [operator?]

/-- The body of a string is read back from its doubled quotes, up to the quote that closes it. -/
theorem stringBody_double (s : List Char) (hrest : Parted rest) :
    stringBody (Text.double '\'' s ++ '\'' :: rest) = some (s, rest) := by
  -- the closing quote is not the first of two
  have hquote : ∀ us, rest ≠ '\'' :: us := fun us => hrest.ne_cons rfl
  induction s with
  | nil => simp [Text.double, stringBody]
  | cons c s ih =>
    rw [Text.double, List.flatMap_cons, ← Text.double, List.append_assoc]
    -- a quote in the string is spelled by two, which the reader takes at once
    by_cases hc : c = '\''
    · rw [if_pos hc, List.cons_append, List.singleton_append, stringBody, ih, hc]
      rfl
    · rw [if_neg hc, List.singleton_append, stringBody, ih]
      · rfl
      · simp [hc]
      · simp [hc]

theorem quotedName_append {n : List Char} (h : '"' ∉ n) (rest : List Char) :
    quotedName (n ++ '"' :: rest) = some (n, rest) := by
  have hn : ∀ c ∈ n, isNameChar c = true := by
    intro c hc
    simp only [isNameChar, bne_iff_ne]
    rintro rfl
    exact h hc
  rw [quotedName, List.dropWhile_append_of_pos hn, List.takeWhile_append_of_pos hn]
  simp [isNameChar]

/-! ### Numbers -/

theorem digitsValue_toDigits (n : Nat) : Text.digitsValue (Nat.toDigits 10 n) = n :=
  Nat.ofDigitChars_toDigits (by decide) (by decide)

/-- A row of digits in front of spacing is a whole number, as neither a digit nor a point comes
next. -/
theorem number_toDigits (negative : Bool) (n : Nat) (hrest : Parted rest) :
    number negative (Nat.toDigits 10 n ++ rest) =
      (ofInteger negative (Nat.toDigits 10 n)).map fun t => (t, rest) := by
  have hdigits : ∀ c ∈ Nat.toDigits 10 n, c.isDigit = true :=
    fun c hc => Nat.isDigit_of_mem_toDigits (by decide) (by decide) hc
  obtain ⟨htake, hdrop⟩ := hrest.takeWhile_append rfl hdigits
  unfold number
  rw [htake, hdrop]
  dsimp only
  split
  · exact absurd rfl (hrest.ne_cons rfl)
  · rfl

theorem number_natural {n : Nat} (hn : n < Text.signedBound) (hrest : Parted rest) :
    number false (Nat.toDigits 10 n ++ rest) = .ok (integer n, rest) := by
  have hbound : ¬Text.signedBound ≤ n := Nat.not_le.2 hn
  rw [number_toDigits false n hrest]
  simp [ofInteger, digitsValue_toDigits, hbound, Except.map]

theorem number_negative {n : Nat} (hn : n ≤ Text.signedBound) (hrest : Parted rest) :
    number true (Nat.toDigits 10 n ++ rest) = .ok (integer (-n), rest) := by
  have hbound : ¬Text.signedBound < n := Nat.not_lt.2 hn
  rw [number_toDigits true n hrest]
  simp [ofInteger, digitsValue_toDigits, hbound, Except.map]

/-! ### Words -/

/-- Texts that are the same in lower case are so in upper case, where keywords are looked up. -/
theorem upper_eq_of_sameIgnoringCase {s t : String} (h : Text.sameIgnoringCase s t = true) :
    Text.upper s = Text.upper t := by
  have hlower : ∀ u : String, Text.upper (Text.lower u) = Text.upper u := by
    intro u
    rw [Text.upper, Text.toList_lower, List.map_map, Text.upper]
    congr 2
    exact funext Text.toUpper_toLower
  calc Text.upper s = Text.upper (Text.lower s) := (hlower s).symm
    _ = Text.upper (Text.lower t) := congrArg Text.upper (beq_iff_eq.1 h)
    _ = Text.upper t := hlower t

theorem isUpper_of_mem_word {k : Keyword} (h : c ∈ k.word.toList) : c.isUpper = true := by
  have hall : k.word.toList.all Char.isUpper = true := by
    cases k <;> decide
  exact List.all_eq_true.1 hall c h

theorem upper_of_spelled {k : Keyword} {w : String}
    (h : Text.sameIgnoringCase w k.word = true) : Text.upper w = k.word := by
  rw [upper_eq_of_sameIgnoringCase h]
  cases k <;> decide

theorem isAlpha_of_mem_spelled {k : Keyword} {w : String}
    (h : Text.sameIgnoringCase w k.word = true) (hc : c ∈ w.toList) : c.isAlpha = true := by
  have hmem : c.toUpper ∈ k.word.toList := by
    rw [← upper_of_spelled h, Text.toList_upper]
    exact List.mem_map_of_mem hc
  exact Text.isAlpha_of_isUpper_toUpper (isUpper_of_mem_word hmem)

/-- No keyword is empty, so it begins with a letter. -/
theorem exists_spelled_eq_cons {k : Keyword} {w : String}
    (h : Text.sameIgnoringCase w k.word = true) :
    ∃ c cs, w.toList = c :: cs ∧ c.isAlpha = true := by
  cases hw : w.toList with
  | nil =>
    have hword : k.word.toList = [] := by
      rw [← upper_of_spelled h, Text.toList_upper, hw, List.map_nil]
    cases k <;> exact absurd hword (by decide)
  | cons c cs =>
    refine ⟨c, cs, rfl, isAlpha_of_mem_spelled h ?_⟩
    rw [hw]
    exact List.mem_cons_self

theorem ofWord?_of_upper {k : Keyword} {w : String} (h : Text.upper w = k.word) :
    Keyword.ofWord? w = some k := by
  rw [Keyword.ofWord?, h]
  cases k <;> decide

theorem word_append (hcs : ∀ c ∈ cs, continuesWord c = true) (hrest : Parted rest) :
    word (cs ++ rest) = (cs, rest) := by
  obtain ⟨htake, hdrop⟩ := hrest.takeWhile_append rfl hcs
  unfold word
  rw [htake, hdrop]
  dsimp only
  split
  · exact absurd rfl (hrest.ne_cons rfl)
  · rfl

/-! ### One token -/

theorem isAlphanum_of_isAlpha (h : c.isAlpha = true) : c.isAlphanum = true := by
  rw [Char.isAlphanum, h, Bool.true_or]

theorem isAlphanum_of_isDigit (h : c.isDigit = true) : c.isAlphanum = true := by
  rw [Char.isAlphanum, h, Bool.or_true]

/-- The characters that begin an operator, a string, a quoted name, or are a token on their own. -/
def marks : List Char :=
  ['*', ',', ';', '(', ')', '=', '<', '>', '!', '\'', '"']

/-- A character that is no mark begins a number or a word. -/
theorem next_of_not_mem_marks (h : c ∉ marks) (size : Nat) (cs : List Char) :
    next size c cs =
      if c.isDigit then (number false (c :: cs)).mapError .malformed
      else if c = '-' ∧ cs.head?.any Char.isDigit then (number true cs).mapError .malformed
      else if startsWord c then
        if continuesWord c then .ok (ofWord (word (c :: cs)).1, (word (c :: cs)).2)
        else .error .emptyWord
      else .error (.malformed (.unexpectedCharacter c (size - (cs.length + 1)))) := by
  simp only [marks, List.mem_cons, List.not_mem_nil, or_false, not_or] at h
  simp [next, punctuation?, operator?, h]

theorem not_mem_marks_of_isAlphanum (h : c.isAlphanum = true) : c ∉ marks := by
  intro hc
  have hmarks : marks.any Char.isAlphanum = false := rfl
  exact List.any_eq_false.1 hmarks c hc h

/-- The digits come before both ranges of letters. -/
theorem isDigit_eq_false_of_isAlpha (h : c.isAlpha = true) : c.isDigit = false := by
  rw [Text.isAlpha_iff] at h
  rw [Bool.eq_false_iff, Ne, Text.isDigit_iff]
  omega

/-- A keyword in any case is read as a word, and the word is that of the keyword. -/
theorem next_keyword {k : Keyword} {w : String} (h : Text.sameIgnoringCase w k.word = true)
    (hw : w.toList = c :: cs) (hrest : Parted rest) (size : Nat) :
    next size c (cs ++ rest) = .ok (keyword k, rest) := by
  have halpha : ∀ d ∈ c :: cs, d.isAlpha = true := by
    rw [← hw]
    exact fun d hd => isAlpha_of_mem_spelled h hd
  have hc : c.isAlpha = true := halpha c List.mem_cons_self
  have hcont : ∀ d ∈ c :: cs, continuesWord d = true := by
    intro d hd
    simp [continuesWord, isAlphanum_of_isAlpha (halpha d hd)]
  have hminus : c ≠ '-' := by
    rintro rfl
    cases hc
  -- all letters of the keyword are taken, and nothing that follows goes on with them
  have hword := word_append hcont hrest
  rw [List.cons_append] at hword
  rw [next_of_not_mem_marks (not_mem_marks_of_isAlphanum (isAlphanum_of_isAlpha hc)),
    isDigit_eq_false_of_isAlpha hc, hword]
  have hk : ofWord (c :: cs) = keyword k := by
    rw [ofWord, ← hw, String.ofList_toList, ofWord?_of_upper (upper_of_spelled h)]
  simp [hminus, startsWord, hc, hcont c List.mem_cons_self, hk]

theorem exists_toDigits_eq_cons (n : Nat) :
    ∃ d ds, Nat.toDigits 10 n = d :: ds ∧ d.isDigit = true := by
  cases h : Nat.toDigits 10 n with
  | nil => exact absurd h Nat.toDigits_ne_nil
  | cons d ds =>
    refine ⟨d, ds, rfl, Nat.isDigit_of_mem_toDigits (b := 10) (n := n) (by decide) (by decide) ?_⟩
    rw [h]
    exact List.mem_cons_self

/-- A row of digits is a number, whatever follows the spacing behind it. -/
theorem next_natural {n : Nat} (hn : n < Text.signedBound) (hcs : Nat.toDigits 10 n = c :: cs)
    (hc : c.isDigit = true) (hrest : Parted rest) (size : Nat) :
    next size c (cs ++ rest) = .ok (integer n, rest) := by
  have hnumber := number_natural hn hrest
  rw [hcs, List.cons_append] at hnumber
  rw [next_of_not_mem_marks (not_mem_marks_of_isAlphanum (isAlphanum_of_isDigit hc)),
    if_pos hc, hnumber]
  rfl

theorem next_negative {n : Nat} (hn : n ≤ Text.signedBound) (hrest : Parted rest) (size : Nat) :
    next size '-' (Nat.toDigits 10 n ++ rest) = .ok (integer (-n), rest) := by
  obtain ⟨d, ds, hdigits, hd⟩ := exists_toDigits_eq_cons n
  have hhead : (Nat.toDigits 10 n ++ rest).head?.any Char.isDigit = true := by
    rw [hdigits]
    exact hd
  rw [next_of_not_mem_marks (by decide), if_neg (by decide), if_pos ⟨rfl, hhead⟩,
    number_negative hn hrest]
  rfl

/-! ### All tokens -/

theorem lex_of_next_of_isAlphanum {size : Nat} {t : Token} (hc : c.isAlphanum = true)
    (h : next size c cs = .ok (t, rest)) : lex size (c :: cs) = (lex size rest).map (t :: ·) := by
  apply lex_of_next (isSpacing_eq_false rfl hc) _ h
  rintro ⟨rfl, -⟩
  cases hc

/-- Every number of 64 bits is read back from its decimal digits. -/
theorem lex_integer {n : Int} (hmin : -Text.signedBound ≤ n) (hmax : n < Text.signedBound)
    (hrest : Parted rest) (size : Nat) :
    lex size ((toString n).toList ++ rest) = (lex size rest).map (integer n :: ·) := by
  cases n with
  | ofNat m =>
    obtain ⟨d, ds, hdigits, hd⟩ := exists_toDigits_eq_cons m
    have hm : m < Text.signedBound := Int.ofNat_lt.1 hmax
    have htext : (toString (Int.ofNat m)).toList = d :: ds := by
      rw [Int.toString_eq_repr, Int.repr, Nat.toList_repr, hdigits]
    rw [htext]
    exact lex_of_next_of_isAlphanum (isAlphanum_of_isDigit hd)
      (next_natural hm hdigits hd hrest size)
  | negSucc m =>
    obtain ⟨d, ds, hdigits, hd⟩ := exists_toDigits_eq_cons (m + 1)
    have hm : m + 1 ≤ Text.signedBound := by omega
    have htext : (toString (Int.negSucc m)).toList = '-' :: Nat.toDigits 10 (m + 1) := by
      rw [Int.toString_eq_repr, Int.repr, String.toList_append, Nat.toList_repr]
      rfl
    -- a digit follows the minus, so it begins no comment
    have hcomment : (Nat.toDigits 10 (m + 1) ++ rest).head? ≠ some '-' := by
      rw [hdigits]
      rintro ⟨⟩
      cases hd
    rw [htext]
    exact lex_of_next rfl (fun h => hcomment h.2) (next_negative hm hrest size)

/-- A spelling in front of spacing is read as the token it spells. -/
theorem lex_spells {t : Token} (ht : Spells t cs) (hrest : Parted rest) (size : Nat) :
    lex size (cs ++ rest) = (lex size rest).map (t :: ·) := by
  -- one case for each way to spell a token; only its first character decides which reader is used
  cases ht with
  | @keyword k w h =>
    obtain ⟨c, cs, hw, hc⟩ := exists_spelled_eq_cons h
    rw [hw]
    exact lex_of_next_of_isAlphanum (isAlphanum_of_isAlpha hc) (next_keyword h hw hrest size)
  | @name n h =>
    apply lex_of_next rfl (by simp)
    simp [next, punctuation?, operator?, quotedName_append h]
  | @integer n hmin hmax => exact lex_integer hmin hmax hrest size
  | string s =>
    apply lex_of_next rfl (by simp)
    simp [next, punctuation?, operator?, stringBody_double s.toList hrest]
  | @operator o cs h =>
    obtain ⟨c, cs, rfl, hc⟩ := exists_symbol_eq_cons h
    obtain ⟨hspacing, hminus, hnone⟩ := of_mem_symbolHeads hc
    rw [List.cons_append]
    apply lex_of_next hspacing (fun hcomment => hminus hcomment.1)
    rw [next, hnone, operator?_symbol h hrest]
  | asterisk => exact lex_of_next rfl (by simp) rfl
  | comma => exact lex_of_next rfl (by simp) rfl
  | semicolon => exact lex_of_next rfl (by simp) rfl
  | openParen => exact lex_of_next rfl (by simp) rfl
  | closeParen => exact lex_of_next rfl (by simp) rfl

/-- All gaps are skipped and all spellings read, one after the other. -/
theorem lex_written {ts : List Token} (h : Written ts cs) (size : Nat) :
    lex size cs = .ok ts := by
  induction h with
  | @nil gap hgap =>
    have hlex := lex_spacing_append hgap size []
    rwa [List.append_nil, lex] at hlex
  | cons hgap ht hrest _ ih =>
    rw [lex_spacing_append hgap, lex_spells ht hrest, ih]
    rfl

/-- The tokens of a text that spells tokens are these. -/
theorem ofText_of_written {ts : List Token} {text : String} (h : Written ts text.toList) :
    ofText text = .ok ts := by
  unfold ofText
  exact lex_written h text.toList.length

/-- A name with a comment in it, a string with a quote and a line end, and the least number. -/
theorem ofText_leastInteger :
    ofText " sElEcT \"a -- b\" , 'it''s\n' <>\t-9223372036854775808" =
      .ok [keyword .SELECT, name "a -- b", comma, string "it's\n", operator .ne,
        integer (-9223372036854775808)] := by
  have hselect : Spells (keyword .SELECT) "sElEcT".toList := .keyword (by decide)
  have hname : Spells (name "a -- b") ('"' :: "a -- b".toList ++ ['"']) := .name (by decide)
  have hstring : Spells (string "it's\n") _ := .string "it's\n"
  have hne : Spells (operator .ne) ['<', '>'] := .operator (by decide)
  have hleast : Spells (integer (-9223372036854775808)) _ := .integer (by decide) (by decide)
  have hspace : [' '].all Text.isSpacing = true := rfl
  have htab : ['\t'].all Text.isSpacing = true := rfl
  apply ofText_of_written
  exact .cons hspace hselect rfl <| .cons hspace hname rfl <| .cons hspace .comma rfl <|
    .cons hspace hstring rfl <| .cons hspace hne rfl <| .cons htab hleast rfl <| .nil rfl

end ShellQuery.Token
