import Mathlib.Data.List.Basic
import ShellQuery.Proofs.Token.Runs

/-!
# Reading with a cursor

The reader takes a text apart from its front. Here the text stays as it is and a cursor moves over
it: every character is looked up at its place, and a lookup outside the text stops the reading
(`Stop.outOfRange`). What stands at the cursor is found with lookups in front of the end and, behind
a word, with one look back.

Such a reading finds what the reader finds in the rest of the text (`Follows`), for operators,
strings, quoted names, numbers and words and so for every token (`follows_tokenAt`), except at a
tilde, which begins a word but does not go on with one.
-/

namespace ShellQuery.Cursor

open Token

/-! ### Looking characters up -/

/-- Why a pass gives up. -/
inductive Stop where
  /-- A character outside the text is looked up. -/
  | outOfRange
  /-- The text breaks a rule. -/
  | malformed (error : SyntaxError)
deriving DecidableEq, Repr

/-- The character at a place, which must be in the text. -/
def charAt (text : List Char) (i : Nat) : Except Stop Char :=
  match text[i]? with
  | some c => .ok c
  | none => .error .outOfRange

/-- The character in front of a place. There is none in front of the first one. -/
def charBefore (text : List Char) : Nat → Except Stop Char
  | 0 => .error .outOfRange
  | i + 1 => charAt text i

/-- The characters from one place up to another one, which must be in order and in the text. -/
def slice (text : List Char) (start stop : Nat) : Except Stop (List Char) :=
  if start ≤ stop ∧ stop ≤ text.length then .ok ((text.drop start).take (stop - start))
  else .error .outOfRange

/-- Whether a character of the given kind stands at a place. It is looked up in front of the end
only. -/
def holdsAt (text : List Char) (p : Char → Bool) (i : Nat) : Except Stop Bool :=
  if i < text.length then (charAt text i).map p else .ok false

/-- Moves the cursor over characters of the given kind. -/
def skip (text : List Char) (p : Char → Bool) (i : Nat) : Except Stop Nat :=
  if i < text.length then do
    if p (← charAt text i) then skip text p (i + 1) else return i
  else return i
termination_by text.length - i

/-! ### Reading with lookups -/

/-- The operator that begins with the character at a place, and where it ends. -/
def operatorAt (text : List Char) (c : Char) (i : Nat) : Except Stop (Option (Operator × Nat)) :=
  match c with
  | '=' => do
    if ← holdsAt text (· == '=') (i + 1) then return some (.eq, i + 2)
    else return some (.eq, i + 1)
  | '<' => do
    if ← holdsAt text (· == '=') (i + 1) then return some (.le, i + 2)
    else if ← holdsAt text (· == '>') (i + 1) then return some (.ne, i + 2)
    else return some (.lt, i + 1)
  | '>' => do
    if ← holdsAt text (· == '=') (i + 1) then return some (.ge, i + 2)
    else return some (.gt, i + 1)
  | '!' => do
    if ← holdsAt text (· == '=') (i + 1) then return some (.ne, i + 2)
    else .error (.malformed (.unexpectedCharacter '!' i))
  | _ => return none

/-- The content of a string from a place on, and the place of its closing quote. Where there is
none, it is the end of the text. -/
def stringFrom (text : List Char) (i : Nat) : Except Stop (List Char × Nat) :=
  if i < text.length then do
    let c ← charAt text i
    if c = '\'' then
      if ← holdsAt text (· == '\'') (i + 1) then
        let (body, stop) ← stringFrom text (i + 2)
        return ('\'' :: body, stop)
      else return ([], i)
    else
      let (body, stop) ← stringFrom text (i + 1)
      return (c :: body, stop)
  else return ([], i)
termination_by text.length - i

/-- The string whose opening quote is at a place, and where it ends. -/
def stringAt (text : List Char) (i : Nat) : Except Stop (Token × Nat) := do
  let (body, stop) ← stringFrom text (i + 1)
  if text.length ≤ stop then .error (.malformed .unterminatedString)
  else return (.string (String.ofList body), stop + 1)

/-- The quoted name whose opening quote is at a place, and where it ends. -/
def nameAt (text : List Char) (i : Nat) : Except Stop (Token × Nat) := do
  let stop ← skip text isNameChar (i + 1)
  if text.length ≤ stop then .error (.malformed .unterminatedName)
  else
    let body ← slice text (i + 1) stop
    return (.name (String.ofList body), stop + 1)

/-- The number whose digits begin at a place, and where it ends. -/
def numberAt (text : List Char) (negative : Bool) (start : Nat) : Except Stop (Token × Nat) := do
  let stop ← skip text Char.isDigit start
  let whole ← slice text start stop
  if ← holdsAt text (· == '.') stop <&&> holdsAt text Char.isDigit (stop + 1) then
    let last ← skip text Char.isDigit (stop + 1)
    let fraction ← slice text (stop + 1) last
    return (.float (Binary64.ofDecimal negative whole fraction), last)
  else
    let t ← (ofInteger negative whole).mapError .malformed
    return (t, stop)

/-- The word that begins at a place, and where it ends. The character it ends with is looked up
behind it. -/
def wordAt (text : List Char) (start : Nat) : Except Stop (Token × Nat) := do
  let stop ← skip text continuesWord start
  if ← (charBefore text stop).map (· == '.') <&&> holdsAt text (· == '*') stop then
    let w ← slice text start (stop + 1)
    return (ofWord w, stop + 1)
  else
    let w ← slice text start stop
    return (ofWord w, stop)

/-- The token that begins with the character at a place, and where it ends. -/
def tokenAt (text : List Char) (c : Char) (i : Nat) : Except Stop (Token × Nat) := do
  match punctuation? c with
  | some t => return (t, i + 1)
  | none =>
    match ← operatorAt text c i with
    | some (o, stop) => return (.operator o, stop)
    | none =>
      if c = '\'' then stringAt text i
      else if c = '"' then nameAt text i
      else
        let negative ← pure (c == '-') <&&> holdsAt text Char.isDigit (i + 1)
        if c.isDigit || negative then numberAt text negative (if negative then i + 1 else i)
        else if startsWord c then wordAt text i
        else .error (.malformed (.unexpectedCharacter c i))

variable {text cs rest : List Char} {c : Char} {i j : Nat}

/-! ### What the lookups find -/

theorem exists_drop_eq_cons (hi : i < text.length) : ∃ c cs, text.drop i = c :: cs :=
  ⟨_, _, List.drop_eq_getElem_cons hi⟩

theorem lt_of_drop (h : text.drop i = c :: cs) : i < text.length := by
  by_contra hle
  rw [List.drop_eq_nil_of_le (Nat.le_of_not_lt hle)] at h
  cases h

theorem length_of_drop (h : text.drop i = c :: cs) : text.length = i + (cs.length + 1) := by
  have hi := lt_of_drop h
  have hlength := congrArg List.length h
  rw [List.length_drop, List.length_cons] at hlength
  omega

theorem drop_succ (h : text.drop i = c :: cs) : text.drop (i + 1) = cs := by
  calc text.drop (i + 1) = (text.drop i).drop 1 := List.drop_drop.symm
    _ = cs := by rw [h, List.drop_one, List.tail_cons]

theorem getElem?_of_drop (h : text.drop i = c :: cs) : text[i]? = some c := by
  calc text[i]? = (text.drop i).head? := List.head?_drop.symm
    _ = some c := by rw [h, List.head?_cons]

theorem charAt_of_drop (h : text.drop i = c :: cs) : charAt text i = .ok c := by
  rw [charAt, getElem?_of_drop h]

/-- A test in front of the end never stops: behind the end it is false. -/
theorem holdsAt_eq (text : List Char) (p : Char → Bool) (i : Nat) :
    holdsAt text p i = .ok ((text.drop i).head?.any p) := by
  unfold holdsAt
  split
  · next hi =>
    obtain ⟨c, cs, h⟩ := exists_drop_eq_cons hi
    rw [charAt_of_drop h, h]
    rfl
  · next hi =>
    rw [List.drop_eq_nil_of_le (by omega)]
    rfl

theorem slice_eq (hij : i ≤ j) (hj : j ≤ text.length) :
    slice text i j = .ok ((text.drop i).take (j - i)) := by
  rw [slice, if_pos ⟨hij, hj⟩]

theorem ok_and (a b : Bool) : ((.ok a : Except Stop Bool) <&&> .ok b) = .ok (a && b) := by
  cases a <;> rfl

/-- The cursor skips the longest run of characters of a kind. -/
theorem skip_ok (p : Char → Bool) (hi : i ≤ text.length) :
    ∃ j, skip text p i = .ok j ∧ i ≤ j ∧ j ≤ text.length ∧
      text.drop j = (text.drop i).dropWhile p ∧
      (text.drop i).take (j - i) = (text.drop i).takeWhile p := by
  generalize h : text.drop i = cs
  -- on the characters behind the index, which the loop compares with the end of the text
  induction cs generalizing i with
  | nil =>
    have hle := List.drop_eq_nil_iff.1 h
    refine ⟨i, ?_, Nat.le_refl i, hi, by rw [h]; rfl, by rw [List.take_nil]; rfl⟩
    rw [skip, if_neg (by omega)]
    rfl
  | cons c cs ih =>
    have hlt := lt_of_drop h
    have hskip : skip text p i = if p c then skip text p (i + 1) else .ok i := by
      rw [skip, if_pos hlt, charAt_of_drop h]
      rfl
    by_cases hc : p c = true
    · obtain ⟨j, hj, hij, hle, hdrop, htake⟩ := ih hlt (drop_succ h)
      refine ⟨j, by rw [hskip, if_pos hc, hj], by omega, hle, ?_, ?_⟩
      · rw [hdrop, List.dropWhile_cons_of_pos hc]
      · rw [show j - i = j - (i + 1) + 1 by omega, List.take_succ_cons, htake,
          List.takeWhile_cons_of_pos hc]
    · refine ⟨i, by rw [hskip, if_neg hc], Nat.le_refl i, hi, ?_, ?_⟩
      · rw [h, List.dropWhile_cons_of_neg hc]
      · rw [Nat.sub_self, List.take_zero, List.takeWhile_cons_of_neg hc]

/-! ### A token with lookups is the token of the reader -/

/-- What is found at the cursor is what the reader finds there, and the cursor moves on inside the
text. -/
inductive Follows (text : List Char) (i : Nat) :
    Except ReadError (Token × List Char) → Except Stop (Token × Nat) → Prop
  | token {t : Token} {j : Nat} (hij : i < j) (hj : j ≤ text.length) :
    Follows text i (.ok (t, text.drop j)) (.ok (t, j))
  | malformed (e : SyntaxError) : Follows text i (.error (.malformed e)) (.error (.malformed e))

theorem Follows.of_drop (hij : i < j) (hj : j ≤ text.length) (hrest : text.drop j = rest)
    (t : Token) : Follows text i (.ok (t, rest)) (.ok (t, j)) := by
  subst hrest
  exact .token hij hj

theorem any_beq_iff {o : Option Char} {d : Char} : o.any (· == d) = true ↔ o = some d := by
  cases o with
  | none => simp
  | some e => simp

/-- A pattern for longer texts that does not match says so to the lookup. -/
theorem any_head?_eq_false {d : Char} (h : ∀ us, cs ≠ d :: us) :
    cs.head?.any (· == d) = false := by
  rw [Bool.eq_false_iff]
  intro hany
  obtain ⟨us, hus⟩ := List.head?_eq_some_iff.1 (any_beq_iff.1 hany)
  exact h us hus

/-- The cursor finds the operators of the reader. -/
theorem operatorAt_of_some {o : Operator} (h : text.drop i = c :: cs)
    (ho : operator? c cs = some (o, rest)) :
    ∃ j, operatorAt text c i = .ok (some (o, j)) ∧ i < j ∧ j ≤ text.length ∧
      text.drop j = rest := by
  have hlength := length_of_drop h
  have hholds : ∀ d, holdsAt text (· == d) (i + 1) = .ok (cs.head?.any (· == d)) := by
    intro d
    rw [holdsAt_eq, drop_succ h]
  -- an operator of one character leaves `cs`, one of two leaves what is behind its head
  have hone : operatorAt text c i = .ok (some (o, i + 1)) → cs = rest → ∃ j,
      operatorAt text c i = .ok (some (o, j)) ∧ i < j ∧ j ≤ text.length ∧ text.drop j = rest := by
    intro hat hcs
    exact ⟨i + 1, hat, by omega, by omega, by rw [drop_succ h, hcs]⟩
  have htwo : ∀ d, operatorAt text c i = .ok (some (o, i + 2)) → cs = d :: rest → ∃ j,
      operatorAt text c i = .ok (some (o, j)) ∧ i < j ∧ j ≤ text.length ∧ text.drop j = rest := by
    intro d hat hcs
    rw [hcs, List.length_cons] at hlength
    exact ⟨i + 2, hat, by omega, by omega, drop_succ (hcs ▸ drop_succ h)⟩
  -- eight arms: four operators of two characters, the other inequality, and those of one character
  -- with nothing to make them longer
  unfold operator? at ho
  split at ho
  all_goals simp only [Option.some.injEq, Prod.mk.injEq, reduceCtorEq] at ho
  all_goals obtain ⟨rfl, rfl⟩ := ho
  case h_1 | h_3 | h_6 | h_8 =>
    apply htwo '=' _ rfl
    simp only [operatorAt, hholds, ok_bind]
    rfl
  case h_4 =>
    apply htwo '>' _ rfl
    simp only [operatorAt, hholds, ok_bind]
    rfl
  case h_2 hne | h_7 hne =>
    apply hone _ rfl
    simp only [operatorAt, hholds, ok_bind, any_head?_eq_false hne]
    rfl
  case h_5 hne hne' =>
    apply hone _ rfl
    simp only [operatorAt, hholds, ok_bind, any_head?_eq_false hne, any_head?_eq_false hne']
    rfl

theorem operator?_ne_none (hc : c ∈ ['=', '<', '>']) : operator? c cs ≠ none := by
  intro h
  unfold operator? at h
  split at h
  all_goals simp_all

/-- Where no operator is found, an exclamation mark stands alone or nothing like an operator
begins. -/
theorem operatorAt_of_none (h : text.drop i = c :: cs) (ho : operator? c cs = none) :
    if c = '!' then operatorAt text c i = .error (.malformed (.unexpectedCharacter '!' i))
    else operatorAt text c i = .ok none := by
  have hholds : holdsAt text (· == '=') (i + 1) = .ok (cs.head?.any (· == '=')) := by
    rw [holdsAt_eq, drop_succ h]
  by_cases hc : c = '!'
  · subst hc
    have hne : ∀ us, cs ≠ '=' :: us := by
      rintro us rfl
      cases ho
    rw [if_pos rfl]
    simp only [operatorAt, hholds, ok_bind, any_head?_eq_false hne]
    rfl
  · rw [if_neg hc]
    -- the other characters that begin an operator always make one
    have hnone : ∀ d ∈ ['=', '<', '>'], c ≠ d := by
      rintro d hd rfl
      exact operator?_ne_none hd ho
    unfold operatorAt
    split
    · exact absurd rfl (hnone '=' (by decide))
    · exact absurd rfl (hnone '<' (by decide))
    · exact absurd rfl (hnone '>' (by decide))
    · exact absurd rfl hc
    · rfl

/-! ### Strings and quoted names -/

theorem stringFrom_end (h : text.drop i = []) : stringFrom text i = .ok ([], i) := by
  rw [stringFrom, if_neg (Nat.not_lt.2 (List.drop_eq_nil_iff.1 h))]
  rfl

theorem stringFrom_doubled (h : text.drop i = '\'' :: '\'' :: cs) :
    stringFrom text i = (stringFrom text (i + 2)).map fun r => ('\'' :: r.1, r.2) := by
  rw [stringFrom, if_pos (lt_of_drop h), charAt_of_drop h, ok_bind, if_pos rfl, holdsAt_eq,
    drop_succ h]
  cases stringFrom text (i + 2) <;> rfl

theorem stringFrom_closed (h : text.drop i = '\'' :: cs) (hcs : ∀ us, cs ≠ '\'' :: us) :
    stringFrom text i = .ok ([], i) := by
  rw [stringFrom, if_pos (lt_of_drop h), charAt_of_drop h, ok_bind, if_pos rfl, holdsAt_eq,
    drop_succ h, any_head?_eq_false hcs]
  rfl

theorem stringFrom_char (h : text.drop i = c :: cs) (hc : c ≠ '\'') :
    stringFrom text i = (stringFrom text (i + 1)).map fun r => (c :: r.1, r.2) := by
  rw [stringFrom, if_pos (lt_of_drop h), charAt_of_drop h, ok_bind, if_neg hc]
  cases stringFrom text (i + 1) <;> rfl

/-- The closing quote is found where the reader finds it, and the end of the text where there is
none. -/
theorem stringFrom_ok (h : text.drop i = cs) :
    ∃ body j, stringFrom text i = .ok (body, j) ∧ i ≤ j ∧
      ((stringBody cs = none ∧ text.length ≤ j) ∨
        (stringBody cs = some (body, text.drop (j + 1)) ∧ j < text.length)) := by
  -- along the reader, with the cursor at what it reads
  fun_induction stringBody cs generalizing i with
  | case1 =>
    exact ⟨[], i, stringFrom_end h, Nat.le_refl i, .inl ⟨rfl, List.drop_eq_nil_iff.1 h⟩⟩
  | case2 cs ih =>
    obtain ⟨body, j, hat, hij, hbody⟩ := ih (drop_succ (drop_succ h))
    refine ⟨'\'' :: body, j, by rw [stringFrom_doubled h, hat]; rfl, by omega, ?_⟩
    rcases hbody with ⟨hbody, hj⟩ | ⟨hbody, hj⟩
    · exact .inl ⟨by rw [hbody]; rfl, hj⟩
    · exact .inr ⟨by rw [hbody]; rfl, hj⟩
  | case3 cs hcs =>
    refine ⟨[], i, stringFrom_closed h hcs, Nat.le_refl i, .inr ⟨?_, lt_of_drop h⟩⟩
    rw [drop_succ h]
  | case4 c cs _ hc ih =>
    obtain ⟨body, j, hat, hij, hbody⟩ := ih (drop_succ h)
    refine ⟨c :: body, j, by rw [stringFrom_char h hc, hat]; rfl, by omega, ?_⟩
    rcases hbody with ⟨hbody, hj⟩ | ⟨hbody, hj⟩
    · exact .inl ⟨by rw [hbody]; rfl, hj⟩
    · exact .inr ⟨by rw [hbody]; rfl, hj⟩

/-- What the reader gives for a string from behind its opening quote on. -/
theorem follows_stringAt (h : text.drop i = '\'' :: cs) :
    Follows text i
      (match stringBody cs with
      | some (body, rest) => .ok (.string (String.ofList body), rest)
      | none => .error (.malformed .unterminatedString))
      (stringAt text i) := by
  obtain ⟨body, j, hat, hij, hbody⟩ := stringFrom_ok (drop_succ h)
  rw [stringAt, hat, ok_bind]
  rcases hbody with ⟨hbody, hj⟩ | ⟨hbody, hj⟩
  · rw [hbody]
    dsimp only
    rw [if_pos hj]
    exact .malformed _
  · rw [hbody]
    dsimp only
    rw [if_neg (by omega)]
    exact .token (by omega) (by omega)

/-- A quoted name ends at the next double quote for both. -/
theorem follows_nameAt (h : text.drop i = '"' :: cs) :
    Follows text i
      (match quotedName cs with
      | some (body, rest) => .ok (.name (String.ofList body), rest)
      | none => .error (.malformed .unterminatedName))
      (nameAt text i) := by
  have hi := lt_of_drop h
  obtain ⟨j, hskip, hij, hj, hdrop, htake⟩ := skip_ok isNameChar (i := i + 1) hi
  rw [drop_succ h] at hdrop htake
  rw [nameAt, hskip, ok_bind, quotedName, ← hdrop]
  -- the loop stops at the closing quote or at the end of the text
  by_cases hend : text.length ≤ j
  · rw [List.drop_eq_nil_of_le hend, if_pos hend]
    exact .malformed _
  · obtain ⟨d, ds, hd⟩ := exists_drop_eq_cons (Nat.lt_of_not_le hend)
    rw [hd, if_neg hend, slice_eq hij hj, drop_succ h, htake]
    exact .of_drop (by omega) (by omega) (drop_succ hd) _

/-! ### Numbers -/

/-- A number has a fraction exactly when a point and a digit are looked up behind its digits. -/
theorem any_point_digit (tail : List Char) :
    (tail.head?.any (· == '.') && (tail.drop 1).head?.any Char.isDigit) =
      !(fractionDigits tail).isEmpty := by
  cases tail with
  | nil => rfl
  | cons d ds =>
    by_cases hd : d = '.'
    · subst hd
      cases ds with
      | nil => rfl
      | cons e es =>
        by_cases he : e.isDigit = true
        · simp [fractionDigits, he]
        · simp [fractionDigits, he]
    · rw [fractionDigits_eq_nil (by simp [hd])]
      simp [hd]

theorem fractionDigits_eq {tail : List Char} (h : fractionDigits tail ≠ []) :
    fractionDigits tail = (tail.drop 1).takeWhile Char.isDigit := by
  unfold fractionDigits at h ⊢
  split
  · rfl
  · simp_all

/-- Behind a first character of a kind the cursor has moved. -/
theorem lt_of_skip {p : Char → Bool} (h : text.drop i = c :: cs) (hc : p c = true)
    (hj : j ≤ text.length) (hdrop : text.drop j = (c :: cs).dropWhile p) : i < j := by
  have hlength := length_of_drop h
  have hle := length_dropWhile_le p cs
  rw [List.dropWhile_cons_of_pos hc] at hdrop
  rw [← hdrop, List.length_drop] at hle
  omega

/-- A number is the same with lookups, whether a sign was passed in front of its digits or not. -/
theorem follows_numberAt {start : Nat} (negative : Bool) (hi : i ≤ start)
    (h : text.drop start = c :: cs) (hc : c.isDigit = true) :
    Follows text i ((number negative (c :: cs)).mapError .malformed)
      (numberAt text negative start) := by
  have hle := lt_of_drop h
  obtain ⟨stop, hskip, hstart, hstop, hdrop, htake⟩ :=
    skip_ok Char.isDigit (Nat.le_of_lt hle)
  rw [h] at hdrop htake
  have hlt : start < stop := lt_of_skip h hc hstop hdrop
  have hbehind : text.drop (stop + 1) = (text.drop stop).drop 1 := List.drop_drop.symm
  rw [numberAt, hskip, ok_bind, slice_eq hstart hstop, ok_bind, h, htake, holdsAt_eq, holdsAt_eq,
    ok_and, ok_bind, hbehind, any_point_digit, number_eq, ← hdrop]
  by_cases hfraction : fractionDigits (text.drop stop) = []
  · rw [hfraction, if_pos List.isEmpty_nil, if_neg (by decide)]
    cases ofInteger negative ((c :: cs).takeWhile Char.isDigit) with
    | error e => exact .malformed e
    | ok t => exact .token (by omega) hstop
  -- there is a fraction, so the point is in the text
  · have hstop' : stop < text.length := by
      by_contra hend
      rw [List.drop_eq_nil_of_le (Nat.le_of_not_lt hend)] at hfraction
      exact hfraction rfl
    obtain ⟨last, hskip', hlast, hle', -, htake'⟩ := skip_ok Char.isDigit (i := stop + 1) hstop'
    rw [hbehind, ← fractionDigits_eq hfraction] at htake'
    have hcount : (fractionDigits (text.drop stop)).length = last - (stop + 1) := by
      rw [← htake', List.length_take, List.length_drop, List.length_drop]
      omega
    have hempty : (fractionDigits (text.drop stop)).isEmpty = false := by
      simpa using hfraction
    rw [hempty, if_neg (by decide), if_pos Bool.not_false, hskip', ok_bind, slice_eq hlast hle',
      hbehind, htake', ok_bind, hcount, List.drop_drop]
    apply Follows.of_drop (by omega) hle'
    rw [show stop + (last - (stop + 1) + 1) = last by omega]

/-! ### Words -/

/-- Behind a run of characters the last of them is looked up. -/
theorem charBefore_ok (hij : i < j) (hj : j ≤ text.length) :
    ∃ d, charBefore text j = .ok d ∧ ((text.drop i).take (j - i)).getLast? = some d := by
  obtain ⟨k, rfl⟩ : ∃ k, j = k + 1 := ⟨j - 1, by omega⟩
  obtain ⟨d, ds, hd⟩ := exists_drop_eq_cons (Nat.lt_of_succ_le hj)
  refine ⟨d, charAt_of_drop hd, ?_⟩
  rw [List.getLast?_take, if_neg (by omega), List.getElem?_drop,
    show i + (k + 1 - i - 1) = k by omega, getElem?_of_drop hd, Option.some_or]

/-- A word that ends with a point takes an asterisk behind it. -/
theorem word_of_wildcard (hdot : (cs.takeWhile continuesWord).getLast? = some '.')
    (hrest : cs.dropWhile continuesWord = '*' :: rest) :
    word cs = (cs.takeWhile continuesWord ++ ['*'], rest) := by
  unfold word
  rw [hrest]
  exact if_pos hdot

theorem word_of_not_wildcard (h : ¬((cs.takeWhile continuesWord).getLast? = some '.' ∧
    (cs.dropWhile continuesWord).head? = some '*')) :
    word cs = (cs.takeWhile continuesWord, cs.dropWhile continuesWord) := by
  unfold word
  split
  · next rest hrest =>
    rw [hrest] at h ⊢
    rw [if_neg fun hdot => h ⟨hdot, rfl⟩]
  · rfl

/-- A word that takes at least one character is the same with lookups: the look back then stays
inside the word. -/
theorem follows_wordAt (h : text.drop i = c :: cs) (hc : continuesWord c = true) :
    Follows text i (.ok (ofWord (word (c :: cs)).1, (word (c :: cs)).2)) (wordAt text i) := by
  have hi := lt_of_drop h
  obtain ⟨stop, hskip, hstart, hstop, hdrop, htake⟩ := skip_ok continuesWord (Nat.le_of_lt hi)
  rw [h] at hdrop htake
  have hlt : i < stop := lt_of_skip h hc hstop hdrop
  obtain ⟨d, hbefore, hlast⟩ := charBefore_ok hlt hstop
  rw [h, htake] at hlast
  -- the look back finds the last character of the word
  have hwild : wordAt text i = if d = '.' ∧ (text.drop stop).head? = some '*' then
      (do let w ← slice text i (stop + 1); return (ofWord w, stop + 1))
      else (do let w ← slice text i stop; return (ofWord w, stop)) := by
    have htest : (d == '.' && (text.drop stop).head?.any (· == '*')) = true ↔
        d = '.' ∧ (text.drop stop).head? = some '*' := by
      rw [Bool.and_eq_true, beq_iff_eq, any_beq_iff]
    rw [wordAt, hskip, ok_bind, hbefore, holdsAt_eq]
    refine (congrArg (· >>= _) (ok_and _ _)).trans ?_
    simp only [ok_bind, htest]
  rw [hwild]
  by_cases hstar : d = '.' ∧ (text.drop stop).head? = some '*'
  · obtain ⟨rest, hrest⟩ := List.head?_eq_some_iff.1 hstar.2
    have hlt' := lt_of_drop hrest
    have htake' : (text.drop i).take (stop + 1 - i) =
        (c :: cs).takeWhile continuesWord ++ ['*'] := by
      calc (text.drop i).take (stop + 1 - i)
          = (text.drop i).take (stop - i) ++ (text.drop stop).take 1 := by
            rw [show stop + 1 - i = stop - i + 1 by omega, List.take_add, List.drop_drop,
              show i + (stop - i) = stop by omega]
        _ = (c :: cs).takeWhile continuesWord ++ ['*'] := by
            rw [h, htake, hrest, List.take_succ_cons, List.take_zero]
    rw [word_of_wildcard (hlast.trans (congrArg some hstar.1)) (hdrop.symm.trans hrest),
      if_pos hstar, slice_eq (by omega) hlt', htake', ok_bind]
    exact .of_drop (by omega) hlt' (drop_succ hrest) _
  · rw [word_of_not_wildcard (by rw [hlast, ← hdrop]; simpa using hstar), if_neg hstar,
      slice_eq hstart hstop, h, htake, ok_bind]
    exact .of_drop hlt hstop hdrop _

/-! ### All tokens -/

/-- A tilde is the one character that begins a word and does not go on with it. -/
theorem continuesWord_of_startsWord (hs : startsWord c = true) (hc : c ≠ '~') :
    continuesWord c = true := by
  simp only [startsWord, Bool.or_eq_true, beq_iff_eq] at hs
  rcases hs with (((hs | rfl) | rfl) | rfl) | rfl
  · simp [continuesWord, isAlphanum_of_isAlpha hs]
  · rfl
  · rfl
  · rfl
  · exact absurd rfl hc

/-- At any character but a tilde the cursor finds the token of the reader. -/
theorem follows_tokenAt (h : text.drop i = c :: cs) (hc : c ≠ '~') :
    Follows text i (next text.length c cs) (tokenAt text c i) := by
  have hlength := length_of_drop h
  have hplace : text.length - (cs.length + 1) = i := by omega
  -- both try the kinds of tokens in one order, so a case for each kind is enough
  unfold next tokenAt
  cases hp : punctuation? c with
  | some t => exact .of_drop (by omega) (by omega) (drop_succ h) t
  | none =>
    dsimp only
    cases ho : operator? c cs with
    | some r =>
      obtain ⟨o, rest⟩ := r
      obtain ⟨j, hat, hij, hj, hrest⟩ := operatorAt_of_some h ho
      rw [hat, ok_bind]
      exact .of_drop hij hj hrest _
    | none =>
      have hat := operatorAt_of_none h ho
      rw [hplace]
      by_cases hbang : c = '!'
      · rw [if_pos hbang] at hat
        rw [hat, hbang]
        exact .malformed _
      rw [if_neg hbang] at hat
      have hminus : (pure (c == '-') <&&> holdsAt text Char.isDigit (i + 1)) =
          .ok (c == '-' && cs.head?.any Char.isDigit) := by
        rw [holdsAt_eq, drop_succ h]
        exact ok_and _ _
      rw [hat, ok_bind, hminus]
      dsimp only [ok_bind]
      split
      · next hquote =>
        subst hquote
        exact follows_stringAt h
      split
      · next hquote =>
        subst hquote
        exact follows_nameAt h
      by_cases hdigit : c.isDigit = true
      · have hnot : (c == '-') = false := by
          rw [beq_eq_false_iff_ne]
          rintro rfl
          cases hdigit
        rw [hnot, hdigit]
        exact follows_numberAt false (Nat.le_refl i) h hdigit
      by_cases hnegative : c = '-' ∧ cs.head?.any Char.isDigit = true
      · obtain ⟨rfl, hany⟩ := hnegative
        rw [if_neg hdigit, if_pos ⟨rfl, hany⟩, hany]
        cases cs with
        | nil => cases hany
        | cons d ds => exact follows_numberAt true (Nat.le_succ i) (drop_succ h) hany
      · have hnot : (c == '-' && cs.head?.any Char.isDigit) = false := by
          rw [Bool.eq_false_iff]
          simpa using hnegative
        rw [if_neg hdigit, if_neg hnegative, hnot, Bool.or_false, if_neg hdigit]
        by_cases hs : startsWord c = true
        · have hgoes := continuesWord_of_startsWord hs hc
          rw [if_pos hs, if_pos hs, if_pos hgoes]
          exact follows_wordAt h hgoes
        · rw [if_neg hs, if_neg hs]
          exact .malformed _

end ShellQuery.Cursor
