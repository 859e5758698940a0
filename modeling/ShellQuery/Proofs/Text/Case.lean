import ShellQuery.Text.Ascii
import ShellQuery.Text.Blank
import ShellQuery.Text.Split

/-!
# Cutting texts apart, whatever their case

A class of characters without letters does not see the case of a text (`apply_toLower`). So a text
in lower case is trimmed and cut apart where the text itself is: `trim_lower`,
`splitLast_map_toLower`, `stripFirst_map_toLower`, `stripLast_map_toLower`.
-/

namespace ShellQuery.Text

/-! ### Characters -/

theorem isBlank_of_isAlpha {c : Char} (h : c.isAlpha = true) : isBlank c = false := by
  rw [isAlpha_iff] at h
  simp only [isBlank, Bool.or_eq_false_iff, Bool.and_eq_false_iff, decide_eq_false_iff_not,
    beq_eq_false_iff_ne]
  omega

/-- A class of characters without letters has both or neither of a character and its lower-case
form. -/
theorem apply_toLower {p : Char → Bool} (hp : ∀ c : Char, c.isAlpha = true → p c = false)
    (c : Char) : p c.toLower = p c := by
  by_cases hc : c.isUpper
  · have halpha : c.isAlpha = true := isAlpha_iff.2 (.inl (isUpper_iff.1 hc))
    rw [hp c halpha, hp c.toLower (by rwa [isAlpha_toLower])]
  · rw [toLower_of_not_isUpper hc]

theorem isBlank_toLower (c : Char) : isBlank c.toLower = isBlank c :=
  apply_toLower (fun _ => isBlank_of_isAlpha) c

/-- Only the character itself has a lower-case form that is no letter. -/
theorem toLower_eq_iff {c d : Char} (hd : d.isAlpha = false) : c.toLower = d ↔ c = d := by
  have hclass : (c.toLower == d) = (c == d) := by
    refine apply_toLower (p := (· == d)) (fun e he => beq_eq_false_iff_ne.2 ?_) c
    rintro rfl
    rw [hd] at he
    exact Bool.false_ne_true he
  rw [← beq_iff_eq, hclass, beq_iff_eq]

/-! ### Texts -/

theorem lower_ofList (cs : List Char) :
    lower (String.ofList cs) = String.ofList (cs.map Char.toLower) := by
  rw [lower, String.toList_ofList]

theorem lower_append (s t : String) : lower (s ++ t) = lower s ++ lower t := by
  rw [lower, String.toList_append, List.map_append, String.ofList_append, lower, lower]

/-- Texts with a delimiter between them are changed to lower case together with it. -/
theorem lower_intercalate (d : String) (ss : List String) :
    lower (d.intercalate ss) = (lower d).intercalate (ss.map lower) := by
  induction ss with
  | nil => rfl
  | cons s ss ih =>
    cases ss with
    | nil => rw [String.intercalate_singleton, List.map_singleton, String.intercalate_singleton]
    | cons t ss =>
      rw [String.intercalate_cons_cons, lower_append, lower_append, ih]
      simp only [List.map_cons, String.intercalate_cons_cons]

theorem sameIgnoringCase_iff {s t : String} : sameIgnoringCase s t = true ↔ lower s = lower t :=
  beq_iff_eq

theorem trimStart_map_toLower (cs : List Char) :
    trimStart (cs.map Char.toLower) = (trimStart cs).map Char.toLower := by
  have hclass : isBlank ∘ Char.toLower = isBlank := funext isBlank_toLower
  rw [trimStart, List.dropWhile_map, hclass, trimStart]

theorem trimEnd_map_toLower (cs : List Char) :
    trimEnd (cs.map Char.toLower) = (trimEnd cs).map Char.toLower := by
  have hstart := trimStart_map_toLower cs.reverse
  rw [trimEnd, ← List.map_reverse, ← trimStart, hstart, ← List.map_reverse, trimStart, trimEnd]

theorem trim_lower (s : String) : trim (lower s) = lower (trim s) := by
  rw [trim, toList_lower, trimStart_map_toLower, trimEnd_map_toLower, trim, lower_ofList]

section

variable {c : Char} (hc : c.isAlpha = false)
include hc

/-- A character that has no case splits a text alike in lower case. -/
theorem splitLast_map_toLower (cs : List Char) : splitLast c (cs.map Char.toLower) =
    (splitLast c cs).map (Prod.map (List.map Char.toLower) (List.map Char.toLower)) := by
  induction cs with
  | nil => rfl
  | cons x xs ih =>
    rw [List.map_cons, splitLast, splitLast, ih]
    cases splitLast c xs with
    | some p => rfl
    | none =>
      simp only [Option.map_none, toLower_eq_iff hc]
      split
      · rfl
      · rfl

theorem stripFirst_map_toLower (cs : List Char) :
    stripFirst c (cs.map Char.toLower) = (stripFirst c cs).map (List.map Char.toLower) := by
  cases cs with
  | nil => rfl
  | cons x xs =>
    simp only [List.map_cons, stripFirst, toLower_eq_iff hc]
    split
    · rfl
    · rfl

theorem stripLast_map_toLower (cs : List Char) :
    stripLast c (cs.map Char.toLower) = (stripLast c cs).map (List.map Char.toLower) := by
  rw [stripLast, ← List.map_reverse, stripFirst_map_toLower hc, stripLast, Option.map_map,
    Option.map_map]
  congr 1
  exact funext fun cs => List.map_reverse.symm

end

end ShellQuery.Text
