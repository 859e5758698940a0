import ShellQuery.Proofs.Outcome
import ShellQuery.Proofs.Token.Spelling

/-!
# Runs of the reader

What reading a text does, as relations that know nothing of the errors and of the size that they
show: `Starts` says which token a text begins with, and `Reads` which tokens are read until a given
rest is reached. A token is read exactly when the text starts with it (`next_eq_ok_iff`), and all
tokens of a text are read exactly when the rest that is reached is empty (`lex_eq_ok_iff`). What is
left is always the end of the text (`Reads.suffix`).
-/

namespace ShellQuery.Token

variable {size : Nat} {c : Char} {cs rest : List Char} {t : Token} {ts : List Token}

/-! ### Numbers -/

/-- The digits behind the point that a text begins with. -/
def fractionDigits : List Char → List Char
  | '.' :: cs => cs.takeWhile Char.isDigit
  | _ => []

theorem fractionDigits_eq_nil {tail : List Char} (h : ∀ us, tail ≠ '.' :: us) :
    fractionDigits tail = [] := by
  unfold fractionDigits
  split
  · exact absurd rfl (h _)
  · rfl

theorem number_eq (negative : Bool) (cs : List Char) :
    number negative cs =
      if (fractionDigits (cs.dropWhile Char.isDigit)).isEmpty then
        (ofInteger negative (cs.takeWhile Char.isDigit)).map fun t => (t, cs.dropWhile Char.isDigit)
      else .ok (float (Binary64.ofDecimal negative (cs.takeWhile Char.isDigit)
          (fractionDigits (cs.dropWhile Char.isDigit))),
        (cs.dropWhile Char.isDigit).drop
          ((fractionDigits (cs.dropWhile Char.isDigit)).length + 1)) := rfl

/-- A number is whole unless a point and a digit follow its digits. -/
theorem number_ok_iff {negative : Bool} {whole tail : List Char}
    (hwhole : cs.takeWhile Char.isDigit = whole) (htail : cs.dropWhile Char.isDigit = tail) :
    number negative cs = .ok (t, rest) ↔
      (fractionDigits tail = [] ∧ ofInteger negative whole = .ok t ∧ rest = tail) ∨
      (fractionDigits tail ≠ [] ∧
        t = float (Binary64.ofDecimal negative whole (fractionDigits tail)) ∧
        rest = tail.drop ((fractionDigits tail).length + 1)) := by
  subst hwhole htail
  rw [number_eq]
  generalize fractionDigits (cs.dropWhile Char.isDigit) = fraction
  -- the reader branches on whether a point and a digit follow, as the statement does
  by_cases hempty : fraction = []
  · rw [hempty, List.isEmpty_nil, if_pos rfl, map_ok_iff]
    simp [eq_comm]
  · rw [if_neg (by simpa using hempty)]
    simp [hempty, eq_comm]

/-- The point is one more character than the digits behind it. -/
theorem length_fractionDigits_lt {tail : List Char} (h : fractionDigits tail ≠ []) :
    (fractionDigits tail).length + 1 ≤ tail.length := by
  unfold fractionDigits at h ⊢
  split at h
  · next cs =>
    have := (cs.takeWhile_prefix Char.isDigit).length_le
    simp only [List.length_cons]
    omega
  · exact absurd rfl h

/-! ### One token -/

/-- The token that the text `c :: cs` begins with, and what follows it. -/
inductive Starts (c : Char) (cs : List Char) : Token → List Char → Prop
  | punctuation {t : Token} (h : punctuation? c = some t) : Starts c cs t cs
  | operator {o : Operator} {rest : List Char} (h : operator? c cs = some (o, rest)) :
    Starts c cs (.operator o) rest
  | string {body rest : List Char} (hc : c = '\'') (h : stringBody cs = some (body, rest)) :
    Starts c cs (.string (String.ofList body)) rest
  | name {body rest : List Char} (hc : c = '"') (h : quotedName cs = some (body, rest)) :
    Starts c cs (.name (String.ofList body)) rest
  | number {t : Token} {rest : List Char} (hc : c.isDigit = true)
    (h : number false (c :: cs) = .ok (t, rest)) : Starts c cs t rest
  | negative {t : Token} {rest : List Char} (hc : c = '-')
    (hd : cs.head?.any Char.isDigit = true) (h : Token.number true cs = .ok (t, rest)) :
    Starts c cs t rest
  | word (hs : startsWord c = true) (hc : continuesWord c = true) :
    Starts c cs (ofWord (Token.word (c :: cs)).1) (Token.word (c :: cs)).2

theorem mem_marks_of_punctuation? (h : punctuation? c = some t) : c ∈ marks := by
  -- every punctuation mark is one of these five
  have hmem : c ∈ ['*', ',', ';', '(', ')'] := by
    unfold punctuation? at h
    grind
  have hsub : ['*', ',', ';', '(', ')'] ⊆ marks := by decide
  exact hsub hmem

theorem mem_symbolHeads_of_operator? {r : Operator × List Char} (h : operator? c cs = some r) :
    c ∈ ['=', '<', '>', '!'] := by
  unfold operator? at h
  split at h <;> simp_all

theorem mem_marks_of_operator? {r : Operator × List Char} (h : operator? c cs = some r) :
    c ∈ marks := by
  have hsub : ['=', '<', '>', '!'] ⊆ marks := by decide
  exact hsub (mem_symbolHeads_of_operator? h)

/-- What begins a word begins nothing else. -/
theorem of_startsWord (h : startsWord c = true) :
    c ∉ marks ∧ c.isDigit = false ∧ c ≠ '-' := by
  simp only [startsWord, Bool.or_eq_true, beq_iff_eq] at h
  rcases h with (((h | rfl) | rfl) | rfl) | rfl
  · refine ⟨not_mem_marks_of_isAlphanum (isAlphanum_of_isAlpha h),
      isDigit_eq_false_of_isAlpha h, ?_⟩
    rintro rfl
    cases h
  all_goals decide

/-- A token that is read is one that the text starts with, by the branch that read it. -/
theorem starts_of_next (h : next size c cs = .ok (t, rest)) : Starts c cs t rest := by
  -- the splits follow the order in which the reader tries its branches
  unfold next at h
  split at h
  · next ht =>
    obtain ⟨rfl, rfl⟩ := Prod.mk.inj (Except.ok.inj h)
    exact .punctuation ht
  split at h
  · next ho =>
    obtain ⟨rfl, rfl⟩ := Prod.mk.inj (Except.ok.inj h)
    exact .operator ho
  split at h
  · next hc =>
    split at h
    · next hbody =>
      obtain ⟨rfl, rfl⟩ := Prod.mk.inj (Except.ok.inj h)
      exact .string hc hbody
    · cases h
  split at h
  · next hc =>
    split at h
    · next hbody =>
      obtain ⟨rfl, rfl⟩ := Prod.mk.inj (Except.ok.inj h)
      exact .name hc hbody
    · cases h
  split at h
  · next hc => exact .number hc (mapError_ok_iff.1 h)
  split at h
  · next hc => exact .negative hc.1 hc.2 (mapError_ok_iff.1 h)
  split at h
  · next hs =>
    split at h
    · next hc =>
      obtain ⟨rfl, rfl⟩ := Prod.mk.inj (Except.ok.inj h)
      exact .word hs hc
    · cases h
  · cases h

/-- A text that starts with a token has it read, whatever the size of the whole text. -/
theorem Starts.next_eq (h : Starts c cs t rest) (size : Nat) : next size c cs = .ok (t, rest) := by
  cases h with
  | punctuation h => rw [next, h]
  | operator h =>
    have hnone := (of_mem_symbolHeads (mem_symbolHeads_of_operator? h)).2.2
    rw [next, hnone, h]
  | string hc h =>
    subst hc
    simp [next, punctuation?, operator?, h]
  | name hc h =>
    subst hc
    simp [next, punctuation?, operator?, h]
  | number hc h =>
    -- no mark begins a number, so the four branches before that one are skipped
    have hmarks := not_mem_marks_of_isAlphanum (isAlphanum_of_isDigit hc)
    rw [next_of_not_mem_marks hmarks, if_pos hc, h]
    rfl
  | negative hc hd h =>
    subst hc
    rw [next_of_not_mem_marks (by decide), if_neg (by decide), if_pos ⟨rfl, hd⟩, h]
    rfl
  | word hs hc =>
    obtain ⟨hmarks, hdigit, hminus⟩ := of_startsWord hs
    rw [next_of_not_mem_marks hmarks, if_neg (by simp [hdigit]), if_neg (fun h => hminus h.1),
      if_pos hs, if_pos hc]

theorem next_eq_ok_iff : next size c cs = .ok (t, rest) ↔ Starts c cs t rest :=
  ⟨starts_of_next, fun h => h.next_eq size⟩

/-- No token begins with spacing or like a comment. -/
theorem Starts.begins (h : Starts c cs t rest) :
    Text.isSpacing c = false ∧ ¬(c = '-' ∧ cs.head? = some '-') := by
  -- the four kinds of marks have one reason in common: no mark is spacing or a dash
  have hmark : c ∈ marks → Text.isSpacing c = false ∧ ¬(c = '-' ∧ cs.head? = some '-') := by
    intro hc
    have hspacing : marks.any Text.isSpacing = false := rfl
    refine ⟨Bool.eq_false_iff.2 (List.any_eq_false.1 hspacing c hc), ?_⟩
    rintro ⟨rfl, -⟩
    exact absurd hc (by decide)
  cases h with
  | punctuation h => exact hmark (mem_marks_of_punctuation? h)
  | operator h => exact hmark (mem_marks_of_operator? h)
  | string hc h => exact hmark (by rw [hc]; decide)
  | name hc h => exact hmark (by rw [hc]; decide)
  | number hc h =>
    refine ⟨isSpacing_eq_false rfl hc, ?_⟩
    rintro ⟨rfl, -⟩
    cases hc
  | negative hc hd h =>
    subst hc
    refine ⟨rfl, ?_⟩
    rintro ⟨-, hcs⟩
    rw [hcs] at hd
    cases hd
  | word hs hc => exact ⟨isSpacing_eq_false rfl hs, fun h => (of_startsWord hs).2.2 h.1⟩

/-- What begins like a word is nothing else. -/
theorem Starts.eq_of_startsWord (h : Starts c cs t rest) (hs : startsWord c = true) :
    t = ofWord (Token.word (c :: cs)).1 ∧ rest = (Token.word (c :: cs)).2 := by
  obtain ⟨hmarks, hdigit, hminus⟩ := of_startsWord hs
  cases h with
  | punctuation h => exact absurd (mem_marks_of_punctuation? h) hmarks
  | operator h => exact absurd (mem_marks_of_operator? h) hmarks
  | string hc => exact absurd (by rw [hc]; decide) hmarks
  | name hc => exact absurd (by rw [hc]; decide) hmarks
  | number hc => cases hdigit.symm.trans hc
  | negative hc => exact absurd hc hminus
  | word => exact ⟨rfl, rfl⟩

/-! ### All tokens -/

/-- The tokens `ts` are read from the text `cs` until `rest` is reached. -/
inductive Reads : List Char → List Token → List Char → Prop
  | refl (cs : List Char) : Reads cs [] cs
  | spacing {c : Char} {cs rest : List Char} {ts : List Token} (hc : Text.isSpacing c = true)
    (h : Reads cs ts rest) : Reads (c :: cs) ts rest
  | comment {cs rest : List Char} {ts : List Token} (hcs : cs.head? = some '-')
    (h : Reads (cs.dropWhile isLineChar) ts rest) : Reads ('-' :: cs) ts rest
  | token {c : Char} {cs mid rest : List Char} {t : Token} {ts : List Token}
    (ht : Starts c cs t mid) (h : Reads mid ts rest) : Reads (c :: cs) (t :: ts) rest

/-- Reading a whole text puts what was read so far in front of what the rest reads as. -/
theorem Reads.lex_eq (h : Reads cs ts rest) (size : Nat) :
    lex size cs = (lex size rest).map (ts ++ ·) := by
  induction h with
  | refl cs => cases lex size cs <;> rfl
  | spacing hc _ ih => rw [lex, if_pos hc, ih]
  | comment hcs _ ih => rw [lex, if_neg (by decide), if_pos ⟨rfl, hcs⟩, ih]
  | @token _ _ _ rest _ _ ht _ ih =>
    obtain ⟨hspacing, hcomment⟩ := ht.begins
    rw [lex_of_next hspacing hcomment (next_eq_ok_iff.2 ht), ih]
    cases lex size rest <;> rfl

/-- All tokens of a text are read exactly when its end is reached. -/
theorem lex_eq_ok_iff : lex size cs = .ok ts ↔ Reads cs ts [] := by
  constructor
  · intro h
    -- along the reader: spacing and comments are skipped, a token is prepended
    fun_induction lex size cs generalizing ts with
    | case1 =>
      obtain rfl := Except.ok.inj h
      exact .refl []
    | case2 c cs hc ih => exact .spacing hc (ih h)
    | case3 c cs _ hcomment ih =>
      obtain ⟨rfl, hcs⟩ := hcomment
      exact .comment hcs (ih h)
    | case4 => cases h
    | case5 c cs _ _ t rest hnext ih =>
      obtain ⟨us, hrest, rfl⟩ := map_ok_iff.1 h
      exact .token (next_eq_ok_iff.1 hnext) (ih hrest)
  · intro h
    rw [h.lex_eq size, lex, Except.map, List.append_nil]

theorem Reads.trans {mid : List Char} {us : List Token} (h : Reads cs ts mid)
    (h' : Reads mid us rest) : Reads cs (ts ++ us) rest := by
  induction h with
  | refl => exact h'
  | spacing hc _ ih => exact .spacing hc (ih h')
  | comment hcs _ ih => exact .comment hcs (ih h')
  | token ht _ ih => exact .token ht (ih h')

theorem Reads.eq_nil (h : Reads [] ts rest) : ts = [] ∧ rest = [] := by
  cases h
  exact ⟨rfl, rfl⟩

theorem Reads.ne_nil (h : Reads cs ts rest) (hrest : rest ≠ []) : cs ≠ [] := by
  cases h with
  | refl => exact hrest
  | _ => exact List.cons_ne_nil _ _

/-- The tokens that are read first are the first tokens of the text. -/
theorem Reads.exists_append {us : List Token} (h : Reads cs ts rest) (h' : Reads cs us []) :
    ∃ after, us = ts ++ after := by
  have hlex : lex 0 cs = .ok us := lex_eq_ok_iff.2 h'
  rw [h.lex_eq] at hlex
  obtain ⟨after, -, rfl⟩ := map_ok_iff.1 hlex
  exact ⟨after, rfl⟩

/-! ### What is left -/

theorem suffix_of_operator? {o : Operator} (h : operator? c cs = some (o, rest)) : rest <:+ cs := by
  unfold operator? at h
  split at h <;> simp_all

/-- What follows a quoted string is the end of the text. -/
theorem suffix_of_stringBody {body : List Char} (h : stringBody cs = some (body, rest)) :
    rest <:+ cs := by
  fun_induction stringBody cs generalizing body with
  | case1 => cases h
  | case2 cs ih =>
    obtain ⟨⟨b, r⟩, hr, hb⟩ := Option.map_eq_some_iff.1 h
    obtain ⟨-, rfl⟩ := Prod.mk.inj hb
    exact ((ih hr).trans (List.suffix_cons _ _)).trans (List.suffix_cons _ _)
  | case3 cs =>
    obtain ⟨-, rfl⟩ := Prod.mk.inj (Option.some.inj h)
    exact List.suffix_cons _ _
  | case4 c cs _ _ ih =>
    obtain ⟨⟨b, r⟩, hr, hb⟩ := Option.map_eq_some_iff.1 h
    obtain ⟨-, rfl⟩ := Prod.mk.inj hb
    exact (ih hr).trans (List.suffix_cons _ _)

theorem suffix_of_quotedName {body : List Char} (h : quotedName cs = some (body, rest)) :
    rest <:+ cs := by
  unfold quotedName at h
  split at h
  · cases h
  · next hdrop =>
    obtain ⟨-, rfl⟩ := Prod.mk.inj (Option.some.inj h)
    have hsuffix := cs.dropWhile_suffix isNameChar
    rw [hdrop] at hsuffix
    exact (List.suffix_cons _ _).trans hsuffix

theorem suffix_of_number {negative : Bool} (h : number negative cs = .ok (t, rest)) :
    rest <:+ cs.dropWhile Char.isDigit := by
  rcases (number_ok_iff rfl rfl).1 h with ⟨-, -, rfl⟩ | ⟨-, -, rfl⟩
  · exact List.suffix_refl _
  · exact List.drop_suffix _ _

theorem suffix_word (cs : List Char) : (word cs).2 <:+ cs.dropWhile continuesWord := by
  unfold word
  split
  · next hdrop =>
    rw [hdrop]
    dsimp only
    split
    · exact List.suffix_cons _ _
    · exact List.suffix_refl _
  · exact List.suffix_refl _

theorem Starts.suffix (h : Starts c cs t rest) : rest <:+ cs := by
  cases h with
  | punctuation => exact List.suffix_refl _
  | operator h => exact suffix_of_operator? h
  | string _ h => exact suffix_of_stringBody h
  | name _ h => exact suffix_of_quotedName h
  -- the first character belongs to the number, so what is left is an end of `cs` itself
  | number hc h =>
    have hsuffix := suffix_of_number h
    rw [List.dropWhile_cons_of_pos hc] at hsuffix
    exact hsuffix.trans (List.dropWhile_suffix _)
  | negative _ _ h => exact (suffix_of_number h).trans (List.dropWhile_suffix _)
  | word _ hc =>
    have hsuffix := suffix_word (c :: cs)
    rw [List.dropWhile_cons_of_pos hc] at hsuffix
    exact hsuffix.trans (List.dropWhile_suffix _)

/-- Reading moves towards the end of the text and never beyond it. -/
theorem Reads.suffix (h : Reads cs ts rest) : rest <:+ cs := by
  induction h with
  | refl => exact List.suffix_refl _
  | spacing _ _ ih => exact ih.trans (List.suffix_cons _ _)
  | comment _ _ ih => exact (ih.trans (List.dropWhile_suffix _)).trans (List.suffix_cons _ _)
  | token ht _ ih => exact (ih.trans ht.suffix).trans (List.suffix_cons _ _)

end ShellQuery.Token
