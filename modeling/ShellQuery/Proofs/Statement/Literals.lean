import ShellQuery.Proofs.Awk.Strings
import ShellQuery.Proofs.Decimal.Overflow
import ShellQuery.Proofs.Token.Runs

/-!
# Literals in comparisons

A literal of a statement reaches the planner as the text of an operand, and only its characters tell
it from a column. A string has its quotes around it. A finite number is written in digits, with a
point and a minus sign at most, while the name of a column has a letter or an underscore in it. A
number that is too large for the format is written as a word.

The main statement is `operand_literal_iff`: a literal is read back as a literal exactly when it is
not a numeral with a fraction and without a minus sign that is rounded to infinity.
-/

namespace ShellQuery

/-! ### Texts without letters -/

theorem isIdentifierStart_eq_false_of_isDigit {c : Char} (h : c.isDigit = true) :
    isIdentifierStart c = false := by
  cases hstart : isIdentifierStart c with
  | false => rfl
  | true =>
    simp only [isIdentifierStart, Bool.or_eq_true, beq_iff_eq] at hstart
    rcases hstart with halpha | rfl
    · rw [Token.isDigit_eq_false_of_isAlpha halpha] at h
      cases h
    · cases h

theorem exists_isIdentifierStart {s : String} (h : isIdentifier s = true) :
    ∃ c ∈ s.toList, isIdentifierStart c = true := by
  unfold isIdentifier at h
  split at h
  · cases h
  · next c cs hcons =>
    rw [hcons]
    exact ⟨c, List.mem_cons_self, (Bool.and_eq_true_iff.1 h).1⟩

/-- The plain name of a column brings a letter or an underscore into its text. -/
theorem ColumnName.exists_isIdentifierStart_of_ofText {s : String} {n : ColumnName}
    (h : ofText s = .ok n) : ∃ c ∈ s.toList, isIdentifierStart c = true := by
  rw [ofText] at h
  split at h
  · rw [← (make_ok_iff.1 h).1]
    exact exists_isIdentifierStart n.isIdentifier_spelling
  · cases h
  · next d before after hsplit =>
    obtain ⟨c, hc, hstart⟩ := exists_isIdentifierStart n.isIdentifier_spelling
    rw [(make_ok_iff.1 h).1, String.toList_ofList] at hc
    rw [Text.eq_of_splitLast hsplit]
    exact ⟨c, by simp [hc], hstart⟩

theorem Text.mem_of_mem_trim {s : String} {c : Char} (h : c ∈ (trim s).toList) : c ∈ s.toList := by
  rw [trim, String.toList_ofList, trimEnd, List.mem_reverse] at h
  have hstart := (List.dropWhile_suffix _).subset h
  rw [List.mem_reverse] at hstart
  exact (List.dropWhile_suffix _).subset hstart

theorem Operand.ofText_of_forall_not_start {s : String}
    (h : ∀ c ∈ s.toList, isIdentifierStart c = false) : ofText s = literal (Text.trim s) := by
  rw [ofText]
  split
  · next n hn =>
    obtain ⟨c, hc, hstart⟩ := ColumnName.exists_isIdentifierStart_of_ofText hn
    rw [h c (Text.mem_of_mem_trim hc)] at hstart
    cases hstart
  · rfl

/-! ### Numbers in digits -/

/-- The characters of numbers that are written in digits. -/
def isNumberChar (c : Char) : Bool :=
  c.isDigit || c == '.' || c == '-'

theorem isIdentifierStart_eq_false_of_isNumberChar {c : Char} (h : isNumberChar c = true) :
    isIdentifierStart c = false := by
  simp only [isNumberChar, Bool.or_eq_true, beq_iff_eq] at h
  rcases h with (h | rfl) | rfl
  · exact isIdentifierStart_eq_false_of_isDigit h
  · rfl
  · rfl

theorem isNumberChar_of_isDigit {c : Char} (h : c.isDigit = true) : isNumberChar c = true := by
  rw [isNumberChar, h]
  rfl

theorem isDigit_of_mem_toDigits {n : Nat} {c : Char} (h : c ∈ Nat.toDigits 10 n) :
    c.isDigit = true :=
  Nat.isDigit_of_mem_toDigits (by decide) (by decide) h

namespace Decimal

theorem isDigit_of_mem_ofNat {n : Nat} {k : Int} {c : Char} (h : c ∈ (ofNat n k).digits) :
    c.isDigit = true := by
  rw [ofNat, List.mem_reverse] at h
  have hmem := (List.dropWhile_suffix _).subset h
  rw [List.mem_reverse] at hmem
  exact isDigit_of_mem_toDigits hmem

/-- The shortest form of a number is searched among rows of digits. -/
theorem isDigit_of_mem_shortest {mantissa : Nat} {exponent : Int} {c : Char}
    (h : c ∈ (shortest mantissa exponent).digits) : c.isDigit = true := by
  simp only [shortest] at h
  generalize hhit : List.findSome? _ _ = hit at h
  cases hit with
  | none => cases h
  | some d =>
    obtain ⟨n, -, hn⟩ := List.exists_of_findSome?_eq_some hhit
    obtain ⟨m, -, rfl⟩ := Option.map_eq_some_iff.1 hn
    exact isDigit_of_mem_ofNat h

end Decimal

namespace NumberLayout

variable {layout : NumberLayout} {c : Char}

/-- Zeros and a point are all that is put around the digits of a number. -/
theorem isNumberChar_of_mem_positionalText {d : Decimal} (hwhole : layout.whole = "")
    (hdigits : ∀ c ∈ d.digits, c.isDigit = true) (h : c ∈ (layout.positionalText d).toList) :
    isNumberChar c = true := by
  have hzeros : ∀ n, c ∈ List.replicate n '0' → isNumberChar c = true := by
    intro n hc
    rw [(List.mem_replicate.1 hc).2]
    rfl
  have hdigit : c ∈ d.digits → isNumberChar c = true :=
    fun hc => isNumberChar_of_isDigit (hdigits c hc)
  -- the point comes before the digits, after them, or between them
  unfold positionalText at h
  dsimp only at h
  split at h
  · simp only [String.toList_append, String.toList_ofList, List.mem_append] at h
    rcases h with hc | hc | hc
    · have hpoint : "0.".toList.all isNumberChar = true := rfl
      exact List.all_eq_true.1 hpoint c hc
    · exact hzeros _ hc
    · exact hdigit hc
  split at h
  · rw [hwhole, String.append_empty, String.toList_ofList, List.mem_append] at h
    exact h.elim hdigit (hzeros _)
  · simp only [String.toList_append, String.toList_ofList, List.mem_append] at h
    rcases h with (hc | hc) | hc
    · exact hdigit (List.mem_of_mem_take hc)
    · rw [List.mem_singleton.1 hc]
      rfl
    · exact hdigit (List.mem_of_mem_drop hc)

/-- A finite number that is written positionally has no letters in it. -/
theorem isNumberChar_of_mem_text {negative : Bool} {mantissa : Nat} {exponent : Int}
    (hpositional : layout.positional = none) (hwhole : layout.whole = "")
    (h : c ∈ (layout.text ⟨negative, .finite mantissa exponent⟩).toList) :
    isNumberChar c = true := by
  rw [text, String.toList_append, List.mem_append] at h
  rcases h with hc | hc
  · cases negative with
    | false => cases hc
    | true =>
      rw [if_pos rfl] at hc
      rw [List.mem_singleton.1 hc]
      rfl
  · unfold magnitudeText at hc
    split at hc
    · contradiction
    · rw [hwhole, String.append_empty] at hc
      rw [List.mem_singleton.1 hc]
      rfl
    · rw [decimalText, hpositional] at hc
      exact isNumberChar_of_mem_positionalText hwhole
        (fun _ hd => Decimal.isDigit_of_mem_shortest hd) hc

end NumberLayout

/-- A whole number is a row of digits, behind a minus sign at most. -/
theorem isNumberChar_of_mem_toString {n : Int} {c : Char} (h : c ∈ (toString n).toList) :
    isNumberChar c = true := by
  cases n with
  | ofNat m =>
    rw [Int.toString_eq_repr, Int.repr, Nat.toList_repr] at h
    exact isNumberChar_of_isDigit (isDigit_of_mem_toDigits h)
  | negSucc m =>
    rw [Int.toString_eq_repr, Int.repr, String.toList_append, Nat.toList_repr,
      List.mem_append] at h
    rcases h with hc | hc
    · rw [List.mem_singleton.1 hc]
      rfl
    · exact isNumberChar_of_isDigit (isDigit_of_mem_toDigits hc)

/-! ### Numerals with a fraction -/

namespace Token

variable {c : Char} {cs rest whole fraction : List Char} {ts : List Token} {x : Binary64}

/-- The digits before and after the point of a numeral. -/
structure IsNumeral (whole fraction : List Char) : Prop where
  whole_ne_nil : whole ≠ []
  fraction_ne_nil : fraction ≠ []
  isDigit_whole : ∀ c ∈ whole, c.isDigit = true
  isDigit_fraction : ∀ c ∈ fraction, c.isDigit = true

theorem isDigit_of_mem_fractionDigits {tail : List Char} (h : c ∈ fractionDigits tail) :
    c.isDigit = true := by
  unfold fractionDigits at h
  split at h
  · exact List.mem_takeWhile_imp h
  · cases h

/-- A number that is no whole one is read from digits on both sides of a point. -/
theorem exists_numeral_of_number {negative : Bool} (h : number negative cs = .ok (float x, rest))
    (hcs : cs.head?.any Char.isDigit = true) :
    ∃ whole fraction, IsNumeral whole fraction ∧
      x = Binary64.ofDecimal negative whole fraction := by
  rcases (number_ok_iff rfl rfl).1 h with ⟨-, hinteger, -⟩ | ⟨hf, hx, -⟩
  -- without digits behind a point the number is an integer
  · unfold ofInteger at hinteger
    dsimp only at hinteger
    split at hinteger <;> split at hinteger <;> cases hinteger
  · refine ⟨_, _, ⟨?_, hf, fun _ => List.mem_takeWhile_imp,
      fun _ => isDigit_of_mem_fractionDigits⟩, Token.float.inj hx⟩
    cases cs with
    | nil => cases hcs
    | cons d ds =>
      have hd : d.isDigit = true := hcs
      rw [List.takeWhile_cons_of_pos hd]
      exact List.cons_ne_nil _ _

theorem ofWord_ne_float (w : List Char) (x : Binary64) : ofWord w ≠ float x := by
  unfold ofWord
  split <;> rintro ⟨⟩

theorem punctuation?_ne_float (c : Char) (x : Binary64) : punctuation? c ≠ some (float x) := by
  unfold punctuation?
  grind

/-- Only the two branches that read numbers give one with a fraction. -/
theorem Starts.exists_numeral {t : Token} (h : Starts c cs t rest) (ht : t = .float x) :
    ∃ negative whole fraction, IsNumeral whole fraction ∧
      x = Binary64.ofDecimal negative whole fraction := by
  -- only the two forms of numbers make one
  cases h with
  | punctuation h =>
    rw [ht] at h
    exact absurd h (punctuation?_ne_float c x)
  | operator => cases ht
  | string => cases ht
  | name => cases ht
  | number hc h =>
    subst ht
    exact ⟨false, exists_numeral_of_number h hc⟩
  | negative hc hd h =>
    subst ht
    exact ⟨true, exists_numeral_of_number h hd⟩
  | word => exact absurd ht (ofWord_ne_float _ x)

/-- Every number with a fraction among the tokens of a text comes from a numeral. -/
theorem Reads.exists_numeral (h : Reads cs ts rest) (hx : .float x ∈ ts) :
    ∃ negative whole fraction, IsNumeral whole fraction ∧
      x = Binary64.ofDecimal negative whole fraction := by
  induction h with
  | refl => cases hx
  | spacing _ _ ih => exact ih hx
  | comment _ _ ih => exact ih hx
  | token ht _ ih =>
    rcases List.mem_cons.1 hx with rfl | hx
    · exact ht.exists_numeral rfl
    · exact ih hx

/-- A numeral, with a minus sign in front of it or without, is read as the number it denotes. -/
theorem ofText_numeral (h : IsNumeral whole fraction) (negative : Bool) :
    ofText (String.ofList ((if negative then ['-'] else []) ++ (whole ++ '.' :: fraction))) =
      .ok [float (Binary64.ofDecimal negative whole fraction)] := by
  obtain ⟨htake, hdrop⟩ :=
    takeWhile_append_of_all h.isDigit_whole (z := '.' :: fraction) (by rintro d ⟨⟩; rfl)
  have hfraction : fractionDigits ('.' :: fraction) = fraction :=
    List.takeWhile_eq_self_iff.2 h.isDigit_fraction
  -- the digits behind the point are there, so the number is not read as an integer
  have hnumber : number negative (whole ++ '.' :: fraction) =
      .ok (float (Binary64.ofDecimal negative whole fraction), []) := by
    rw [number_ok_iff htake hdrop, hfraction]
    exact .inr ⟨h.fraction_ne_nil, rfl, by simp⟩
  obtain ⟨d, ds, rfl⟩ := List.exists_cons_of_ne_nil h.whole_ne_nil
  have hd : d.isDigit = true := h.isDigit_whole d List.mem_cons_self
  rw [ofText, lex_eq_ok_iff, String.toList_ofList]
  cases negative with
  | false => exact .token (.number hd hnumber) (.refl _)
  | true => exact .token (.negative rfl hd hnumber) (.refl _)

/-! ### Reading literals back -/

/-- Whether a token is a literal. -/
def isLiteral : Token → Bool
  | .integer _ => true
  | .float _ => true
  | .string _ => true
  | _ => false

/-- A numeral with a fraction and without a minus sign that is rounded to infinity. -/
def Overflows (t : Token) : Prop :=
  ∃ whole fraction, IsNumeral whole fraction ∧
    t = .float (Binary64.ofDecimal false whole fraction) ∧
    Binary64.overflowBound * 10 ^ fraction.length ≤ Text.digitsValue (whole ++ fraction)

/-- A numeral is rounded to infinity exactly from the bound on, which is scaled by the digits behind
its point. -/
theorem ofDecimal_eq_infinite_iff {negative : Bool} :
    Binary64.ofDecimal negative whole fraction = ⟨negative, .infinite⟩ ↔
      Binary64.overflowBound * 10 ^ fraction.length ≤ Text.digitsValue (whole ++ fraction) := by
  rw [Binary64.ofDecimal, Binary64.mk.injEq, eq_self, true_and]
  exact Binary64.nearest_eq_infinite_iff (Nat.pow_pos (by decide)).ne'

theorem Overflows.eq_infinite {t : Token} (h : t.Overflows) : t = .float ⟨false, .infinite⟩ := by
  obtain ⟨whole, fraction, -, rfl, hbound⟩ := h
  rw [ofDecimal_eq_infinite_iff.2 hbound]

/-- The infinite number among the tokens of a text comes from such a numeral: no other token is one.
-/
theorem overflows_of_reads (h : Reads cs ts rest) (ht : .float ⟨false, .infinite⟩ ∈ ts) :
    Overflows (.float ⟨false, .infinite⟩) := by
  obtain ⟨negative, whole, fraction, hnumeral, hx⟩ := h.exists_numeral ht
  obtain rfl : false = negative := congrArg Binary64.negative hx
  exact ⟨whole, fraction, hnumeral, congrArg _ hx, ofDecimal_eq_infinite_iff.1 hx.symm⟩

end Token

namespace Statement

theorem exists_operandText? {t : Token} (h : t.isLiteral = true) :
    ∃ operand, operandText? t = some operand := by
  cases t with
  | integer | float | string => exact ⟨_, rfl⟩
  | _ => cases h

/-- The operand of a literal is a literal, unless it is an infinite number without a minus sign. -/
theorem exists_literal_iff {t : Token} {operand : String} (ht : t.isLiteral = true)
    (hoperand : operandText? t = some operand) :
    (∃ l, Operand.ofText operand = .literal l) ↔ t ≠ .float ⟨false, .infinite⟩ := by
  have hdigits : (∀ c ∈ operand.toList, isNumberChar c = true) →
      ∃ l, Operand.ofText operand = .literal l := fun h =>
    ⟨_, Operand.ofText_of_forall_not_start fun c hc =>
      isIdentifierStart_eq_false_of_isNumberChar (h c hc)⟩
  cases t with
  | integer n =>
    obtain rfl := Option.some.inj hoperand
    exact iff_of_true (hdigits fun _ => isNumberChar_of_mem_toString) (by rintro ⟨⟩)
  | string s =>
    obtain rfl := Option.some.inj hoperand
    exact iff_of_true ⟨_, Operand.ofText_quoted _⟩ (by rintro ⟨⟩)
  | float x =>
    obtain rfl := Option.some.inj hoperand
    -- the word of an infinite number is a name, but for the sign in front of it
    rcases x with ⟨negative, _ | _⟩
    case finite =>
      exact iff_of_true (hdigits fun _ => NumberLayout.isNumberChar_of_mem_text rfl rfl)
        (by rintro ⟨⟩)
    case infinite =>
      cases negative with
      | true => exact iff_of_true ⟨"-inf", rfl⟩ (by rintro ⟨⟩)
      | false =>
        refine iff_of_false ?_ (fun h => h rfl)
        rintro ⟨l, hl⟩
        cases hl
  | _ => cases ht

/-- Every literal among the tokens of a text makes an operand, which is read back as a literal
exactly when the token is not a numeral that overflows. -/
theorem operand_literal_iff {text : String} {ts : List Token} {t : Token}
    (h : Token.ofText text = .ok ts) (ht : t ∈ ts) (hliteral : t.isLiteral = true) :
    ∃ operand, operandText? t = some operand ∧
      ((∃ l, Operand.ofText operand = .literal l) ↔ ¬t.Overflows) := by
  obtain ⟨operand, hoperand⟩ := exists_operandText? hliteral
  -- the value alone does not say that there was a numeral; the text does
  have hinfinite : t = .float ⟨false, .infinite⟩ ↔ t.Overflows := by
    constructor
    · rintro rfl
      exact Token.overflows_of_reads (Token.lex_eq_ok_iff.1 h) ht
    · exact Token.Overflows.eq_infinite
  refine ⟨operand, hoperand, ?_⟩
  calc (∃ l, Operand.ofText operand = .literal l)
      ↔ t ≠ .float ⟨false, .infinite⟩ := exists_literal_iff hliteral hoperand
    _ ↔ ¬t.Overflows := not_congr hinfinite

/-- The digits of `2 * 10 ^ 308`, which is above the greatest finite number. -/
def overflowDigits : List Char :=
  '2' :: List.replicate 308 '0'

/-- These digits are the whole part of a numeral. -/
theorem isNumeral_overflowDigits : Token.IsNumeral overflowDigits ['0'] where
  whole_ne_nil := List.cons_ne_nil _ _
  fraction_ne_nil := List.cons_ne_nil _ _
  isDigit_whole := by
    intro c hc
    rcases List.mem_cons.1 hc with rfl | hc
    · rfl
    · rw [List.eq_of_mem_replicate hc]
      rfl
  isDigit_fraction := by
    intro c hc
    rw [List.mem_singleton.1 hc]
    rfl

theorem ofDecimal_overflowDigits (negative : Bool) :
    Binary64.ofDecimal negative overflowDigits ['0'] = ⟨negative, .infinite⟩ := by
  rw [Token.ofDecimal_eq_infinite_iff]
  decide +kernel

/-- Behind a minus sign the word of an infinite number is no name. -/
theorem operand_literal_overflow_negative :
    Token.ofText (String.ofList ('-' :: overflowDigits ++ ['.', '0'])) =
      .ok [.float ⟨true, .infinite⟩] ∧
    ∃ operand, operandText? (.float ⟨true, .infinite⟩) = some operand ∧
      ∃ l, Operand.ofText operand = .literal l := by
  have htext := Token.ofText_numeral isNumeral_overflowDigits true
  rw [ofDecimal_overflowDigits] at htext
  obtain ⟨operand, hoperand, hiff⟩ := operand_literal_iff htext List.mem_cons_self rfl
  refine ⟨htext, operand, hoperand, hiff.2 fun h => ?_⟩
  cases h.eq_infinite

/-- Without a minus sign it is the name of a column. -/
theorem operand_column_overflow :
    Token.ofText (String.ofList (overflowDigits ++ ['.', '0'])) =
      .ok [.float ⟨false, .infinite⟩] ∧
    operandText? (.float ⟨false, .infinite⟩) = some "inf" ∧
    ∃ n, Operand.ofText "inf" = .column n := by
  have htext := Token.ofText_numeral isNumeral_overflowDigits false
  rw [ofDecimal_overflowDigits] at htext
  exact ⟨htext, rfl, _, rfl⟩

end Statement

end ShellQuery
