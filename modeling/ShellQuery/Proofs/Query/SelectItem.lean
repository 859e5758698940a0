import Mathlib.Data.List.TakeWhile
import ShellQuery.Proofs.Schema

/-!
# How select items are written

`SelectItem.Written` says how each kind of select item is written: `*`, a qualifier in front of
`.*`, `count(…)` around a star or a column name, or a column name. `ofText_ok_iff` says that these
texts are read and no others, after the blanks at their ends are dropped.

No two kinds meet in one text: a wildcard ends in a star, a count in a parenthesis, and a column in
a character of its plain name.
-/

namespace ShellQuery.SelectItem

/-! ### The forms of a select item -/

/-- A text of the form `count(…)` around an argument: the word in any case, and blanks at most
between it and the parenthesis. -/
def IsCount (cs argument : List Char) : Prop :=
  ∃ word gap, word.map Char.toLower = ['c', 'o', 'u', 'n', 't'] ∧
    (∀ c ∈ gap, Text.isBlank c = true) ∧ cs = word ++ (gap ++ '(' :: (argument ++ [')']))

/-- How a select item is written, without blanks around it. -/
inductive Written : List Char → SelectItem → Prop where
  | wildcard : Written ['*'] .wildcard
  | wildcardOf (qualifier : List Char) :
    Written (qualifier ++ ['.', '*']) (.wildcardOf (String.ofList qualifier))
  | countAll {cs argument : List Char} (h : IsCount cs argument)
    (hargument : Text.trim (String.ofList argument) = "*") : Written cs (.count none)
  | count {cs argument : List Char} {n : ColumnName} (h : IsCount cs argument)
    (hargument : ColumnName.ofText (Text.trim (String.ofList argument)) = .ok n) :
    Written cs (.count (some n))
  | column {cs : List Char} {n : ColumnName} (h : ColumnName.ofText (String.ofList cs) = .ok n) :
    Written cs (.column n)

variable {cs argument : List Char} {n : ColumnName}

/-! ### What the parts of the reader find -/

theorem qualifier?_eq_some_iff {q : List Char} :
    qualifier? cs = some q ↔ cs = q ++ ['.', '*'] := by
  rw [qualifier?, Option.bind_eq_some_iff]
  constructor
  · rintro ⟨front, hfront, hq⟩
    rw [Text.stripLast_eq_some_iff.1 hfront, Text.stripLast_eq_some_iff.1 hq]
    simp
  · rintro rfl
    refine ⟨q ++ ['.'], ?_, ?_⟩
    · rw [Text.stripLast_eq_some_iff, List.append_assoc]
      rfl
    · rw [Text.stripLast_eq_some_iff]

/-- The argument of a count is what stands between its first and its last parenthesis. -/
theorem countArgument?_eq_some_iff {a : List Char} :
    countArgument? cs = some a ↔
      ∃ argument, IsCount cs argument ∧ Text.trimEnd (Text.trimStart argument) = a := by
  unfold countArgument?
  constructor
  · intro h
    split at h
    · next hword =>
      obtain ⟨body, hbody, h⟩ := Option.bind_eq_some_iff.1 h
      obtain ⟨argument, hargument, h⟩ := Option.bind_eq_some_iff.1 h
      rw [Text.stripFirst_eq_some_iff, Text.stripLast_eq_some_iff.1 hargument] at hbody
      refine ⟨argument, ⟨cs.take 5, (cs.drop 5).takeWhile Text.isBlank, hword, ?_, ?_⟩,
        Option.some.inj h⟩
      · exact fun c hc => List.mem_takeWhile_imp hc
      · rw [← hbody, Text.trimStart, List.takeWhile_append_dropWhile, List.take_append_drop]
    · cases h
  · rintro ⟨argument, ⟨word, gap, hword, hgap, rfl⟩, rfl⟩
    have hlength : word.length = 5 := by
      have h := congrArg List.length hword
      rwa [List.length_map] at h
    -- what follows the word is the parentheses once the blanks in front are dropped
    have hbehind : Text.trimStart (gap ++ '(' :: (argument ++ [')'])) =
        '(' :: (argument ++ [')']) := by
      rw [Text.trimStart, List.dropWhile_append_of_pos hgap, ← Text.trimStart,
        Text.trimStart_cons_of_not_isBlank (by decide)]
    rw [List.take_left' hlength, List.drop_left' hlength, if_pos hword, hbehind,
      Text.stripFirst_eq_some_iff.2 rfl]
    dsimp only [Option.bind_eq_bind, Option.bind_some]
    rw [Text.stripLast_eq_some_iff.2 rfl]
    rfl

/-! ### The last character of an item -/

theorem IsCount.exists_append (h : IsCount cs argument) : ∃ front, cs = front ++ [')'] := by
  obtain ⟨word, gap, -, -, rfl⟩ := h
  exact ⟨word ++ (gap ++ '(' :: argument), by simp⟩

theorem append_ne_star {front : List Char} {c : Char} (hc : c ≠ '*') : front ++ [c] ≠ ['*'] := by
  intro heq
  have heq' : front ++ [c] = [] ++ ['*'] := heq
  exact hc (List.singleton_inj.1 (List.append_inj' heq' rfl).2)

theorem qualifier?_eq_none {front : List Char} {c : Char} (hc : c ≠ '*') :
    qualifier? (front ++ [c]) = none := by
  refine Option.eq_none_iff_forall_ne_some.2 fun q hq => ?_
  have heq : front ++ [c] = (q ++ ['.']) ++ ['*'] := by simpa using qualifier?_eq_some_iff.1 hq
  exact hc (List.singleton_inj.1 (List.append_inj' heq rfl).2)

theorem countArgument?_eq_none {front : List Char} {c : Char} (hc : c ≠ ')') :
    countArgument? (front ++ [c]) = none := by
  refine Option.eq_none_iff_forall_ne_some.2 fun a ha => ?_
  obtain ⟨argument, hcount, -⟩ := countArgument?_eq_some_iff.1 ha
  obtain ⟨front', heq⟩ := hcount.exists_append
  exact hc (List.singleton_inj.1 (List.append_inj' heq rfl).2)

theorem exists_append_of_column (h : ColumnName.ofText (String.ofList cs) = .ok n) :
    ∃ front c, cs = front ++ [c] ∧ isIdentifierPart c = true := by
  rcases List.eq_nil_or_concat cs with rfl | ⟨front, c, rfl⟩
  · cases h
  · rw [List.concat_eq_append] at h
    exact ⟨front, c, List.concat_eq_append, ColumnName.isIdentifierPart_of_ofText h⟩

/-! ### Reading an item -/

/-- The reader on the characters of a text without the blanks at its ends. -/
theorem ofText_eq (text : String) (hcs : (Text.trim text).toList = cs) :
    ofText text =
      if cs = ['*'] then .ok wildcard
      else
        match qualifier? cs with
        | some q => .ok (wildcardOf (String.ofList q))
        | none =>
          match countArgument? cs with
          | some ['*'] => .ok (count none)
          | some a => (ColumnName.ofText (String.ofList a)).map fun n => count (some n)
          | none => (ColumnName.ofText (String.ofList cs)).map column := by
  have hitem : Text.trim text = String.ofList cs := by rw [← hcs, String.ofList_toList]
  have hstar : String.ofList cs = "*" ↔ cs = ['*'] := by
    rw [← String.toList_inj, String.toList_ofList]
    rfl
  rw [ofText, hitem, String.toList_ofList]
  exact if_congr hstar rfl rfl

theorem written_of_ofText {text : String} {item : SelectItem} (h : ofText text = .ok item) :
    Written (Text.trim text).toList item := by
  generalize hcs : (Text.trim text).toList = cs
  rw [ofText_eq text hcs] at h
  -- the readings are tried in the order of the constructors
  split at h
  · next heq =>
    rw [heq, ← Except.ok.inj h]
    exact .wildcard
  split at h
  · next q hq =>
    rw [qualifier?_eq_some_iff.1 hq, ← Except.ok.inj h]
    exact .wildcardOf q
  split at h
  · next hcount =>
    obtain ⟨argument, hcount, htrim⟩ := countArgument?_eq_some_iff.1 hcount
    rw [← Except.ok.inj h]
    refine .countAll hcount ?_
    rw [Text.trim, String.toList_ofList, htrim]
  · next a _ hcount =>
    obtain ⟨argument, hcount, htrim⟩ := countArgument?_eq_some_iff.1 hcount
    obtain ⟨n, hn, rfl⟩ := map_ok_iff.1 h
    refine .count hcount ?_
    rwa [Text.trim, String.toList_ofList, htrim]
  · obtain ⟨n, hn, rfl⟩ := map_ok_iff.1 h
    exact .column hn

theorem ofText_eq_of_written {text : String} {item : SelectItem}
    (h : Written (Text.trim text).toList item) : ofText text = .ok item := by
  generalize hcs : (Text.trim text).toList = cs at h
  rw [ofText_eq text hcs]
  cases h with
  | wildcard => rw [if_pos rfl]
  | wildcardOf q =>
    rw [if_neg (by simp [List.append_eq_cons_iff]), qualifier?_eq_some_iff.2 rfl]
  | @countAll _ argument h hargument =>
    have htrim : Text.trimEnd (Text.trimStart argument) = ['*'] := by
      rwa [Text.trim, String.toList_ofList, ← String.toList_inj, String.toList_ofList] at hargument
    have hcount := countArgument?_eq_some_iff.2 ⟨argument, h, htrim⟩
    obtain ⟨front, rfl⟩ := h.exists_append
    rw [if_neg (append_ne_star (by decide)), qualifier?_eq_none (by decide)]
    dsimp only
    rw [hcount]
    rfl
  | @count _ argument n h hargument =>
    have hcount := countArgument?_eq_some_iff.2 ⟨argument, h, rfl⟩
    rw [Text.trim, String.toList_ofList] at hargument
    obtain ⟨front, rfl⟩ := h.exists_append
    rw [if_neg (append_ne_star (by decide)), qualifier?_eq_none (by decide)]
    dsimp only
    rw [hcount]
    split
    · next hstar =>
      -- a star is no column name
      rw [Option.some.inj hstar] at hargument
      cases hargument
    · next a _ ha =>
      rw [← Option.some.inj ha, hargument]
      rfl
    · next hnone => cases hnone
  | column h =>
    obtain ⟨front, c, rfl, hc⟩ := exists_append_of_column h
    have hne : ∀ {d}, isIdentifierPart d = false → c ≠ d := by
      rintro d hd rfl
      cases hc.symm.trans hd
    rw [if_neg (append_ne_star (hne (by decide))), qualifier?_eq_none (hne (by decide))]
    dsimp only
    rw [countArgument?_eq_none (hne (by decide))]
    dsimp only
    rw [h]
    rfl

/-- A text is read as the item that it writes, apart from blanks at its ends, and no other text is
read. -/
theorem ofText_ok_iff {text : String} {item : SelectItem} :
    ofText text = .ok item ↔ Written (Text.trim text).toList item :=
  ⟨written_of_ofText, ofText_eq_of_written⟩

end ShellQuery.SelectItem
