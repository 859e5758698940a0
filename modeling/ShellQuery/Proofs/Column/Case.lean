import ShellQuery.Column.Basic
import ShellQuery.Proofs.Outcome
import ShellQuery.Proofs.Column.Matching
import ShellQuery.Proofs.Text.Case
import ShellQuery.Proofs.Token.Spelling
import ShellQuery.SelectItem

/-!
# The case of names

A column name is compared by its plain name and its qualifiers, which are in lower case; only its
spelling has the case it was written with. `ColumnName.caseless` forgets it, and
`PlanError.caseless` does so in the errors that quote a text.

Main statement: a text in lower case is read as the text itself is, but for the case. That goes for
column names (`ColumnName.ofText_lower`) and for select items (`SelectItem.ofText_lower`), and for
texts that are refused too.
-/

namespace ShellQuery

variable {α β : Type}

/-! ### Errors -/

/-- The error, with the text it quotes in lower case. The other errors show names, which are in
lower case already, or texts of the relations. -/
def PlanError.caseless : PlanError → PlanError
  | invalidColumnName name => invalidColumnName (Text.lower name)
  | unknownRelation qualifier => unknownRelation (Text.lower qualifier)
  | invalidOperator text => invalidOperator (Text.lower text)
  | e => e

theorem PlanError.code_caseless (e : PlanError) : e.caseless.code = e.code := by
  cases e <;> rfl

/-- What a step gives, without its case: `f` forgets that of a result. -/
def withoutCase (f : α → β) (step : Except PlanError α) : Except PlanError β :=
  (step.map f).mapError PlanError.caseless

@[simp]
theorem withoutCase_ok (f : α → β) (a : α) : withoutCase f (.ok a) = .ok (f a) := rfl

@[simp]
theorem withoutCase_error (f : α → β) (e : PlanError) :
    withoutCase f (.error e) = .error e.caseless := rfl

/-! ### Column names -/

theorem isIdentifierStart_toLower (c : Char) :
    isIdentifierStart c.toLower = isIdentifierStart c := by
  rw [isIdentifierStart, Text.isAlpha_toLower, isIdentifierStart, Bool.eq_iff_iff]
  simp only [Bool.or_eq_true, beq_iff_eq, Text.toLower_eq_iff (show '_'.isAlpha = false by decide)]

/-- Whether a character can stand in an identifier does not depend on case. -/
theorem isIdentifierPart_toLower (c : Char) : isIdentifierPart c.toLower = isIdentifierPart c := by
  have hdigit : c.toLower.isDigit = c.isDigit :=
    Text.apply_toLower (fun _ => Token.isDigit_eq_false_of_isAlpha) c
  rw [isIdentifierPart, Char.isAlphanum, Text.isAlpha_toLower, hdigit, isIdentifierPart,
    Char.isAlphanum, Bool.eq_iff_iff]
  simp only [Bool.or_eq_true, beq_iff_eq, Text.toLower_eq_iff (show '_'.isAlpha = false by decide)]

theorem isIdentifier_lower (s : String) : isIdentifier (Text.lower s) = isIdentifier s := by
  rw [isIdentifier, Text.toList_lower, isIdentifier]
  cases s.toList with
  | nil => rfl
  | cons c cs =>
    simp only [List.map_cons, isIdentifierStart_toLower, List.all_map, Function.comp_def,
      isIdentifierPart_toLower]

namespace ColumnName

/-- The name as it is compared. -/
def caseless (n : ColumnName) : ColumnName where
  spelling := n.plain
  plain := n.plain
  qualifiers := n.qualifiers
  isIdentifier_spelling := by rw [n.plain_eq, isIdentifier_lower, n.isIdentifier_spelling]
  plain_eq := by rw [n.plain_eq, Text.lower_lower]

/-- A name is made in lower case as it is made and then changed to lower case. -/
theorem make_lower (spelling : String) (qualifiers : List String) :
    make (Text.lower spelling) (qualifiers.map Text.lower) =
      withoutCase caseless (make spelling qualifiers) := by
  have hqualifiers : (qualifiers.map Text.lower).map Text.lower = qualifiers.map Text.lower := by
    rw [List.map_map]
    exact List.map_congr_left fun q _ => Text.lower_lower q
  unfold make
  by_cases h : isIdentifier spelling = true
  · have hlower : isIdentifier (Text.lower spelling) = true := by rwa [isIdentifier_lower]
    rw [dif_pos h, dif_pos hlower, withoutCase_ok]
    simp only [caseless, hqualifiers, Text.lower_lower]
  · have hlower : ¬isIdentifier (Text.lower spelling) = true := by rwa [isIdentifier_lower]
    rw [dif_neg h, dif_neg hlower, withoutCase_error, PlanError.caseless]

/-- A name in lower case is read as the name is. -/
theorem ofText_lower (text : String) :
    ofText (Text.lower text) = withoutCase caseless (ofText text) := by
  rw [ofText, Text.toList_lower, Text.splitLast_map_toLower (by decide), ofText]
  match Text.splitLast '.' text.toList with
  | none => exact make_lower text []
  | some ([], name) => rfl
  | some (c :: qualifier, name) =>
    have hmake := make_lower (String.ofList name) [String.ofList (c :: qualifier)]
    rw [Text.lower_ofList, List.map_singleton, Text.lower_ofList] at hmake
    exact hmake

end ColumnName

namespace Column

/-- The column without the case of its label. -/
def caseless (c : Column) : Column :=
  c.withLabel c.label.caseless

theorem identical_of_caseless_eq {c d : Column} (h : c.caseless = d.caseless) :
    c.identical d = true := by
  have hcaseless : c.identical d = c.caseless.identical d.caseless := rfl
  rw [hcaseless, h, identical_refl]

theorem lower_header (c : Column) : Text.lower c.header = c.caseless.label.plain :=
  c.label.plain_eq.symm

end Column

/-! ### Select items -/

namespace SelectItem

/-- The item without the case of the names in it. -/
def caseless : SelectItem → SelectItem
  | wildcard => wildcard
  | wildcardOf qualifier => wildcardOf (Text.lower qualifier)
  | column name => column name.caseless
  | count name => count (name.map ColumnName.caseless)

theorem isCount_caseless (item : SelectItem) : item.caseless.isCount = item.isCount := by
  cases item <;> rfl

theorem qualifier?_map_toLower (cs : List Char) :
    qualifier? (cs.map Char.toLower) = (qualifier? cs).map (List.map Char.toLower) := by
  rw [qualifier?, Text.stripLast_map_toLower (by decide), qualifier?]
  cases Text.stripLast '*' cs with
  | none => rfl
  | some rest => exact Text.stripLast_map_toLower (by decide) rest

/-- What is counted in lower case is what is counted, in lower case. -/
theorem countArgument?_map_toLower (cs : List Char) :
    countArgument? (cs.map Char.toLower) = (countArgument? cs).map (List.map Char.toLower) := by
  have hword : ((cs.map Char.toLower).take 5).map Char.toLower = (cs.take 5).map Char.toLower := by
    rw [← List.map_take, List.map_map]
    exact List.map_congr_left fun c _ => Text.toLower_toLower c
  -- the word, the parentheses and the blanks are the same in both cases
  unfold countArgument?
  rw [hword]
  split
  · rw [← List.map_drop, Text.trimStart_map_toLower, Text.stripFirst_map_toLower (by decide)]
    cases Text.stripFirst '(' (Text.trimStart (cs.drop 5)) with
    | none => rfl
    | some body =>
      show (Text.stripLast ')' (body.map Char.toLower)).bind _ =
        ((Text.stripLast ')' body).bind _).map _
      rw [Text.stripLast_map_toLower (by decide)]
      cases Text.stripLast ')' body with
      | none => rfl
      | some argument =>
        have htrim := Text.trimEnd_map_toLower (Text.trimStart argument)
        rw [← Text.trimStart_map_toLower] at htrim
        exact congrArg some htrim
  · rfl

/-- An item in lower case is read as the item is. -/
theorem ofText_lower (text : String) :
    ofText (Text.lower text) = withoutCase caseless (ofText text) := by
  have hstar : ∀ cs : List Char, cs.map Char.toLower = ['*'] ↔ cs = ['*'] := by
    intro cs
    match cs with
    | [] => simp
    | [c] => simp [Text.toLower_eq_iff (show '*'.isAlpha = false by decide)]
    | c :: d :: cs => simp
  unfold ofText
  rw [Text.trim_lower]
  generalize Text.trim text = item
  have hitem : Text.lower item = "*" ↔ item = "*" := by
    rw [← String.toList_inj, Text.toList_lower, ← String.toList_inj]
    exact hstar item.toList
  -- a name is read alike wherever it stands in the item
  have hname : ∀ (name : String) (f : ColumnName → SelectItem),
      (∀ n, f n.caseless = (f n).caseless) →
      (ColumnName.ofText (Text.lower name)).map f =
        withoutCase caseless ((ColumnName.ofText name).map f) := by
    intro name f hf
    rw [ColumnName.ofText_lower]
    cases ColumnName.ofText name with
    | error e => rfl
    | ok n => exact congrArg Except.ok (hf n)
  simp only [hitem, Text.toList_lower, qualifier?_map_toLower, countArgument?_map_toLower]
  split
  · rfl
  · cases qualifier? item.toList with
    | some qualifier =>
      rw [Option.map_some]
      exact congrArg (fun q => Except.ok (wildcardOf q)) (Text.lower_ofList qualifier).symm
    | none =>
      dsimp only [Option.map_none]
      cases countArgument? item.toList with
      | none => exact hname item column fun _ => rfl
      | some argument =>
        have hcount := hname (String.ofList argument) (fun n => count (some n)) fun _ => rfl
        rw [Text.lower_ofList] at hcount
        dsimp only [Option.map_some]
        split
        · next heq =>
          rw [(hstar argument).1 (Option.some.inj heq)]
          rfl
        · next hne heq =>
          obtain rfl := Option.some.inj heq
          split
          · next heq' =>
            exact absurd ((hstar argument).2 (Option.some.inj heq')) (by simpa using hne)
          · next heq' => rwa [← Option.some.inj heq']
          · next heq' => cases heq'
        · next heq => cases heq

end SelectItem

end ShellQuery
