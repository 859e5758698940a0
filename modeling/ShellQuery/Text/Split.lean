/-!
# Cutting texts apart

Cuts at the last occurrence of a character, at a known first or last character, and at every
occurrence of a separator, each on the list of the text's characters.
-/

namespace ShellQuery.Text

/-- What stands before and after the last `c`, or `none` in a text without `c`. -/
def splitLast (c : Char) : List Char → Option (List Char × List Char)
  | [] => none
  | x :: xs =>
    match splitLast c xs with
    | some (before, after) => some (x :: before, after)
    | none => if x = c then some ([], xs) else none

/-- What follows the first character, if that is `c`. -/
def stripFirst (c : Char) : List Char → Option (List Char)
  | [] => none
  | x :: xs => if x = c then some xs else none

/-- What precedes the last character, if that is `c`. -/
def stripLast (c : Char) (cs : List Char) : Option (List Char) :=
  (stripFirst c cs.reverse).map List.reverse

/-- Cuts at every `c`; a text with `n` of them falls into `n + 1` parts, empty ones included. -/
def splitAll (c : Char) : List Char → List (List Char)
  | [] => [[]]
  | x :: xs =>
    if x = c then [] :: splitAll c xs
    else
      match splitAll c xs with
      | [] => [[x]]
      | part :: parts => (x :: part) :: parts

/-- Writes every `c` twice. -/
def double (c : Char) (cs : List Char) : List Char :=
  cs.flatMap fun x => if x = c then [c, c] else [x]

/-- Reads each pair `cc`, from the left, as one `c`. -/
def undouble (c : Char) : List Char → List Char
  | x :: y :: rest =>
    if x = c ∧ y = c then c :: undouble c rest else x :: undouble c (y :: rest)
  | [x] => [x]
  | [] => []

theorem splitLast_eq_none_iff {c : Char} {cs : List Char} : splitLast c cs = none ↔ c ∉ cs := by
  induction cs with
  | nil => simp [splitLast]
  | cons x xs ih =>
    rw [splitLast]
    cases h : splitLast c xs with
    | some p => simp_all
    | none =>
      by_cases hx : x = c
      · simp [hx]
      · simp [hx, ih.1 h, Ne.symm hx]

theorem eq_of_splitLast {c : Char} {cs before after : List Char}
    (h : splitLast c cs = some (before, after)) : cs = before ++ c :: after := by
  induction cs generalizing before after with
  | nil => simp [splitLast] at h
  | cons x xs ih =>
    rw [splitLast] at h
    cases hs : splitLast c xs with
    | some p =>
      obtain ⟨b, a⟩ := p
      simp only [hs, Option.some.injEq, Prod.mk.injEq] at h
      obtain ⟨rfl, rfl⟩ := h
      simp [ih hs]
    | none =>
      simp only [hs] at h
      split at h
      · simp_all
      · simp at h

/-- A text is cut at a `c` that no other one follows. -/
theorem splitLast_append {c : Char} (before : List Char) {after : List Char} (h : c ∉ after) :
    splitLast c (before ++ c :: after) = some (before, after) := by
  induction before with
  | nil => simp [splitLast, splitLast_eq_none_iff.2 h]
  | cons x xs ih => rw [List.cons_append, splitLast, ih]

theorem stripFirst_eq_some_iff {c : Char} {cs rest : List Char} :
    stripFirst c cs = some rest ↔ cs = c :: rest := by
  cases cs with
  | nil => simp [stripFirst]
  | cons x xs => by_cases h : x = c <;> simp [stripFirst, h]

theorem stripLast_eq_some_iff {c : Char} {cs rest : List Char} :
    stripLast c cs = some rest ↔ cs = rest ++ [c] := by
  rw [stripLast, Option.map_eq_some_iff]
  constructor
  · rintro ⟨a, ha, rfl⟩
    rw [← List.reverse_reverse cs, stripFirst_eq_some_iff.1 ha]
    simp
  · rintro rfl
    exact ⟨rest.reverse, by simp [stripFirst], by simp⟩

end ShellQuery.Text
