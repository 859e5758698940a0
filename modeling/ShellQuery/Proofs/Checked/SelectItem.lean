import Mathlib.Data.List.Basic
import ShellQuery.Proofs.Checked.Lookup
import ShellQuery.Query

/-!
# Checked select items

A text is cut by the number of its bytes, where a character of several bytes cannot be cut through.
The argument of a count begins behind five bytes. They are cut off only after they have been found
to spell a word, so the cut does not fail: `countArgument_eq`, `output_eq`.
-/

namespace ShellQuery.Checked

/-- The characters that take up the first `n` bytes of a text, and those behind them. The text must
be long enough, and no character may reach across the cut. -/
def splitBytes : Nat → List Char → Option (List Char × List Char)
  | 0, cs => some ([], cs)
  | _ + 1, [] => none
  | n + 1, c :: cs =>
    if c.utf8Size ≤ n + 1 then
      (splitBytes (n + 1 - c.utf8Size) cs).map fun s => (c :: s.1, s.2)
    else none

/-- What is behind the first `n` bytes of a text, which must be a cut. -/
def bytesFrom (cs : List Char) (n : Nat) : Except Stop (List Char) :=
  match splitBytes n cs with
  | some s => .ok s.2
  | none => .error .outOfRange

/-- The trimmed argument of a text of the form `count(…)`. -/
def countArgument (cs : List Char) : Except Stop (Option (List Char)) :=
  match splitBytes 5 cs with
  | none => .ok none
  | some (word, _) =>
    if word.map Char.toLower = ['c', 'o', 'u', 'n', 't'] then do
      let behind ← bytesFrom cs 5
      return do
        let body ← Text.stripFirst '(' (Text.trimStart behind)
        let argument ← Text.stripLast ')' body
        return Text.trimEnd (Text.trimStart argument)
    else .ok none

/-- Reads a select item, without the blanks around it. -/
def selectItem (text : String) : Except Stop SelectItem :=
  let item := Text.trim text
  if item = "*" then .ok .wildcard
  else
    match SelectItem.qualifier? item.toList with
    | some qualifier => .ok (.wildcardOf (String.ofList qualifier))
    | none => do
      match ← countArgument item.toList with
      | some ['*'] => return .count none
      | some argument =>
        lift ((ColumnName.ofText (String.ofList argument)).map fun n => .count (some n))
      | none => lift ((ColumnName.ofText item).map .column)

/-- What a statement prints. -/
def output (relations : List (Relation × Table)) (columns : List String) :
    Except Stop Output := do
  let items ← columns.mapM selectItem
  lift (Query.outputOfItems relations items)

/-! ### Cuts -/

theorem eq_append_of_splitBytes {n : Nat} {cs front behind : List Char}
    (h : splitBytes n cs = some (front, behind)) : cs = front ++ behind := by
  -- on the characters, each of which takes its bytes from the count
  induction cs generalizing n front with
  | nil =>
    cases n with
    | zero => simpa [splitBytes] using h
    | succ n => simp [splitBytes] at h
  | cons c cs ih =>
    cases n with
    | zero =>
      obtain ⟨rfl, rfl⟩ : [] = front ∧ c :: cs = behind := by simpa [splitBytes] using h
      rfl
    | succ n =>
      rw [splitBytes] at h
      split at h
      · obtain ⟨⟨front', behind'⟩, hcut, heq⟩ := Option.map_eq_some_iff.1 h
        obtain ⟨rfl, rfl⟩ := Prod.mk.inj heq
        rw [ih hcut, List.cons_append]
      · simp at h

/-- Characters of one byte each can be cut off. -/
theorem splitBytes_append {front : List Char} (h : ∀ c ∈ front, c.utf8Size = 1)
    (behind : List Char) : splitBytes front.length (front ++ behind) = some (front, behind) := by
  induction front with
  | nil =>
    unfold splitBytes
    rfl
  | cons c front ih =>
    have hsize : c.utf8Size = 1 := h c List.mem_cons_self
    have hrest := ih fun c' hc' => h c' (List.mem_cons_of_mem c hc')
    rw [List.length_cons, List.cons_append, splitBytes, hsize, Nat.add_sub_cancel, hrest]
    simp

/-- Only the letters of ASCII are lower-cased to a character of one byte. -/
theorem utf8Size_of_toLower {c : Char} (h : c.toLower.utf8Size = 1) : c.utf8Size = 1 := by
  unfold Char.toLower at h
  split at h
  · next hupper =>
    have hle : c.val ≤ 'Z'.val := hupper.2
    rw [Char.utf8Size_eq_one_iff]
    exact UInt32.le_trans hle (by decide)
  · exact h

/-! ### Counts -/

theorem splitBytes_of_count {cs : List Char}
    (h : (cs.take 5).map Char.toLower = ['c', 'o', 'u', 'n', 't']) :
    splitBytes 5 cs = some (cs.take 5, cs.drop 5) := by
  have hlength : (cs.take 5).length = 5 := by
    have := congrArg List.length h
    rwa [List.length_map] at this
  -- letters that are those of the word in lower case take one byte each
  have hsize : ∀ c ∈ cs.take 5, c.utf8Size = 1 := by
    intro c hc
    have hmem : c.toLower ∈ ['c', 'o', 'u', 'n', 't'] := h ▸ List.mem_map_of_mem hc
    simp only [List.mem_cons, List.not_mem_nil, or_false] at hmem
    apply utf8Size_of_toLower
    rcases hmem with hc | hc | hc | hc | hc
    all_goals
      rw [hc]
      rfl
  have hcut := splitBytes_append hsize (cs.drop 5)
  rwa [hlength, List.take_append_drop] at hcut

theorem countArgument_eq (cs : List Char) :
    countArgument cs = .ok (SelectItem.countArgument? cs) := by
  rw [countArgument, SelectItem.countArgument?]
  by_cases hcount : (cs.take 5).map Char.toLower = ['c', 'o', 'u', 'n', 't']
  · have hcut := splitBytes_of_count hcount
    have hbehind : bytesFrom cs 5 = .ok (cs.drop 5) := by rw [bytesFrom, hcut]
    rw [hcut, hbehind]
    simp only [hcount, ↓reduceIte]
    rfl
  · rw [if_neg hcount]
    cases hcut : splitBytes 5 cs with
    | none => rfl
    | some s =>
      obtain ⟨word, behind⟩ := s
      -- five characters that spell the word would be the first five of the text
      have hword : word.map Char.toLower ≠ ['c', 'o', 'u', 'n', 't'] := by
        intro hword
        have hlength : word.length = 5 := by
          have := congrArg List.length hword
          rwa [List.length_map] at this
        apply hcount
        rw [eq_append_of_splitBytes hcut, List.take_left' hlength, hword]
      simp only [hword, ↓reduceIte]

theorem selectItem_eq (text : String) : selectItem text = lift (SelectItem.ofText text) := by
  unfold selectItem SelectItem.ofText
  generalize Text.trim text = item
  by_cases hall : item = "*"
  · simp only [hall, ↓reduceIte]
    rfl
  · simp only [hall, ↓reduceIte, countArgument_eq, ok_bind]
    cases SelectItem.qualifier? item.toList with
    | some qualifier => rfl
    | none =>
      dsimp only
      generalize SelectItem.countArgument? item.toList = argument
      cases argument with
      | none => rfl
      | some argument =>
        by_cases hstar : argument = ['*']
        · rw [hstar]
          rfl
        · simp only

theorem output_eq (relations : List (Relation × Table)) (columns : List String) :
    output relations columns = lift (Query.output relations columns) := by
  rw [output, mapM_lift fun text _ => selectItem_eq text]
  exact bind_lift fun items _ => rfl

end ShellQuery.Checked
