import Mathlib.Algebra.Ring.Nat
import Mathlib.Data.List.Basic
import ShellQuery.Shell.Word

/-!
# How the shell reads a simple command

`words` cuts a command line into words by the quoting rules of the shell: blanks part words outside
of quotes, all characters between single quotes stand for themselves, and a backslash takes the
meaning from the next character outside of quotes and from a few characters between double quotes.
A line with an unclosed quote, or with a character that means more than itself, is not read.

The main statement is `scan_quoted_iff`: a text between single quotes is read back as one word
exactly when it has no single quote in it.
-/

namespace ShellQuery.Shell

/-- How the reader takes the next character. -/
inductive Mode where
  | plain
  /-- Between single quotes. -/
  | single
  /-- Between double quotes. -/
  | double
deriving DecidableEq

/-- One more character in the current word, which begins with it if there is none. -/
def extend (word : Option (List Char)) (c : Char) : Option (List Char) :=
  some (word.getD [] ++ [c])

/-- The words of the rest of a line, the first of them going on with the current word. -/
def scan : Mode → Option (List Char) → List Char → Option (List (List Char))
  | .plain, word, [] => some word.toList
  | .plain, word, c :: cs =>
    if c = '\'' then scan .single (some (word.getD [])) cs
    else if c = '"' then scan .double (some (word.getD [])) cs
    else if c = '\\' then
      match cs with
      | [] => none
      | d :: ds => if d = '\n' then scan .plain word ds else scan .plain (extend word d) ds
    else if c = ' ' ∨ c = '\t' then (scan .plain none cs).map (word.toList ++ ·)
    else if isSafe c then scan .plain (extend word c) cs
    else none
  | .single, _, [] => none
  | .single, word, c :: cs =>
    if c = '\'' then scan .plain word cs else scan .single (extend word c) cs
  | .double, _, [] => none
  | .double, word, c :: cs =>
    if c = '"' then scan .plain word cs
    else if c = '$' ∨ c = '\x60' then none
    else if c = '\\' then
      match cs with
      | [] => none
      | d :: ds =>
        if d = '\n' then scan .double word ds
        else if d = '$' ∨ d = '\x60' ∨ d = '"' ∨ d = '\\' then scan .double (extend word d) ds
        else scan .double (extend (extend word c) d) ds
    else scan .double (extend word c) cs

/-- The words of a command line. -/
def words (line : String) : Option (List String) :=
  (scan .plain none line.toList).map (·.map String.ofList)

/-! ### Single characters -/

/-- A safe character goes into the current word. -/
theorem scan_safe {c : Char} (h : isSafe c = true) (word : Option (List Char)) (cs : List Char) :
    scan .plain word (c :: cs) = scan .plain (extend word c) cs := by
  have hne : ∀ x, isSafe x = false → c ≠ x := by
    rintro x hx rfl
    exact absurd h (by rw [hx]; decide)
  have hblank : ¬(c = ' ' ∨ c = '\t') := by
    rw [not_or]
    exact ⟨hne _ (by decide), hne _ (by decide)⟩
  rw [scan.eq_def]
  simp only [hne '\'' (by decide), hne '"' (by decide), hne '\\' (by decide), hblank, h, if_false,
    if_true]

theorem scan_blank (word : Option (List Char)) (cs : List Char) :
    scan .plain word (' ' :: cs) = (scan .plain none cs).map (word.toList ++ ·) := by
  rw [scan.eq_def]
  rfl

theorem scan_quote (word : Option (List Char)) (cs : List Char) :
    scan .plain word ('\'' :: cs) = scan .single (some (word.getD [])) cs := by
  rw [scan.eq_def]
  rfl

/-! ### Whole words -/

theorem length_extend (word : Option (List Char)) (c : Char) :
    ((extend word c).getD []).length = (word.getD []).length + 1 := by
  rw [extend, Option.getD_some, List.length_append, List.length_singleton]

theorem sum_length_toList (word : Option (List Char)) :
    (word.toList.map List.length).sum = (word.getD []).length := by
  cases word with
  | none => rfl
  | some w => simp

/-- Reading adds no characters, and it drops one at least where a quote is open or a single quote
is still to come. -/
theorem length_scan {mode : Mode} {word : Option (List Char)} {cs : List Char}
    {ws : List (List Char)} (h : scan mode word cs = some ws) :
    (ws.map List.length).sum ≤ (word.getD []).length + cs.length ∧
      (mode ≠ .plain ∨ '\'' ∈ cs →
        (ws.map List.length).sum < (word.getD []).length + cs.length) := by
  fun_induction scan mode word cs generalizing ws with
  | case1 word =>
    rw [← Option.some.inj h, sum_length_toList]
    simp
  | case7 word c cs hquote _ _ _ ih =>
    -- a blank ends the word and is dropped
    obtain ⟨rest, hrest, rfl⟩ := Option.map_eq_some_iff.1 h
    obtain ⟨hle, -⟩ := ih hrest
    rw [List.map_append, List.sum_append, sum_length_toList, List.length_cons]
    rw [Option.getD_none, List.length_nil] at hle
    omega
  | _ => grind [length_extend]

/-- Between single quotes everything up to the next one belongs to the word. -/
theorem scan_single {cs : List Char} (h : '\'' ∉ cs) (word rest : List Char) :
    scan .single (some word) (cs ++ '\'' :: rest) = scan .plain (some (word ++ cs)) rest := by
  induction cs generalizing word with
  | nil => rw [List.nil_append, List.append_nil, scan, if_pos rfl]
  | cons c cs ih =>
    rw [List.mem_cons, not_or] at h
    rw [List.cons_append, scan, if_neg (Ne.symm h.1), extend,
      Option.getD_some, ih h.2, List.append_assoc]
    rfl

/-- A text between single quotes is read back exactly when it has no single quote in it. -/
theorem scan_quoted_iff {cs : List Char} :
    scan .single (some []) (cs ++ ['\'']) = some [cs] ↔ '\'' ∉ cs := by
  constructor
  · intro h hmem
    obtain ⟨before, after, rfl, hbefore⟩ := List.eq_append_cons_of_mem hmem
    rw [List.append_assoc, List.cons_append, scan_single hbefore] at h
    -- the last quote is still to come, so a character is missing from the word
    have hlt := (length_scan h).2 (.inr (by simp))
    simp at hlt
  · intro h
    rw [scan_single h]
    rfl

end ShellQuery.Shell
