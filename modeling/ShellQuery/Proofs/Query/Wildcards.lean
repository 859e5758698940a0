import ShellQuery.Proofs.Query.Output
import ShellQuery.Proofs.Query.Plan
import ShellQuery.Proofs.Query.SelectItem
import ShellQuery.Proofs.Text.Case

/-!
# Wildcards spelled out

A wildcard stands for columns that can be written out: `*` for all header fields of all relations
under the names of the relations, `q.*` for the header fields of the first relation that `q` means,
under `q`. `Statement.spelledOut` writes them out.

* `SelectItem.ofText_dotted`: what is written out is read as the column that was meant;
* `Planned.forall₂_printed`: it prints the same fields, at most under other qualifiers;
* `Planned.respelled_table`, `plan_spelledOut`: so the plan is the same, unless the qualifier of a
  wildcard means several relations. The wildcard then takes the columns of the first one, but a
  column under the qualifier is refused if it may be one of several.
-/

namespace ShellQuery

/-! ### Plain names under a qualifier -/

/-- The text of a plain name under a qualifier. -/
def dotted (q f : String) : String :=
  q ++ "." ++ f

/-- Whether a qualifier is read back as it is written: it is not empty and begins with no blank. -/
def isSpellable (q : String) : Bool :=
  q.toList.head?.any fun c => !Text.isBlank c

/-- No character of a name is blank. -/
theorem isBlank_of_isIdentifierPart {c : Char} (h : isIdentifierPart c = true) :
    Text.isBlank c = false := by
  simp only [isIdentifierPart, Char.isAlphanum, Bool.or_eq_true, beq_iff_eq] at h
  rcases h with (halpha | hdigit) | rfl
  · exact Text.isBlank_of_isAlpha halpha
  · rw [Text.isDigit_iff] at hdigit
    simp only [Text.isBlank, Bool.or_eq_false_iff, Bool.and_eq_false_iff, decide_eq_false_iff_not,
      beq_eq_false_iff_ne]
    omega
  · decide

theorem ColumnName.exists_make {f : String} (h : isIdentifier f = true) :
    ∃ m : ColumnName, m.spelling = f ∧ ∀ q, (make f [q]).toOption = some (m.within q) := by
  refine ⟨⟨f, Text.lower f, [], h, rfl⟩, rfl, fun q => ?_⟩
  rw [toOption_eq_some_iff]
  exact make_ok_iff.2 ⟨rfl, rfl⟩

/-- Such a qualifier keeps its first character when it is trimmed. -/
theorem exists_of_isSpellable {q : String} (h : isSpellable q = true) :
    ∃ c cs, q.toList = c :: cs ∧ Text.isBlank c = false := by
  rw [isSpellable, Option.any_eq_true] at h
  obtain ⟨c, hc, hblank⟩ := h
  obtain ⟨cs, hcs⟩ := List.head?_eq_some_iff.1 hc
  exact ⟨c, cs, hcs, by simpa using hblank⟩

theorem ColumnName.spelling_ne_nil (n : ColumnName) : n.spelling.toList ≠ [] := by
  intro hnil
  have h := n.isIdentifier_spelling
  rw [isIdentifier, hnil] at h
  exact Bool.false_ne_true h

theorem dotted_eq {q : String} {c : Char} {cs : List Char} (hq : q.toList = c :: cs) (f : String) :
    dotted q f = String.ofList (c :: cs ++ '.' :: f.toList) := by
  rw [← String.toList_inj, String.toList_ofList, dotted, String.toList_append,
    String.toList_append, hq]
  simp

/-- A plain name has no dot in it, so the last dot is the one in front of it. -/
theorem ColumnName.ofText_dotted {q : String} (hq : q.toList ≠ []) (n : ColumnName) :
    ofText (dotted q n.spelling) = .ok (n.within q) := by
  obtain ⟨c, cs, hcs⟩ := List.exists_cons_of_ne_nil hq
  have hdot : '.' ∉ n.spelling.toList := fun hmem =>
    absurd (n.isIdentifierPart_of_mem_spelling hmem) (by decide)
  rw [ofText, dotted_eq hcs, String.toList_ofList, Text.splitLast_append _ hdot]
  simp only [String.ofList_toList]
  rw [← hcs, String.ofList_toList]
  exact make_ok_iff.2 ⟨rfl, rfl⟩

/-- A plain name under a qualifier is read as a column. -/
theorem SelectItem.ofText_dotted {q : String} (hq : isSpellable q = true) (n : ColumnName) :
    ofText (dotted q n.spelling) = .ok (.column (n.within q)) := by
  obtain ⟨c, cs, hcs, hblank⟩ := exists_of_isSpellable hq
  obtain ⟨ds, d, hds⟩ := List.eq_nil_or_concat n.spelling.toList |>.resolve_left n.spelling_ne_nil
  rw [List.concat_eq_append] at hds
  have hd : isIdentifierPart d = true := n.isIdentifierPart_of_mem_spelling (by simp [hds])
  -- neither end of the text is blank
  have htrim : Text.trim (dotted q n.spelling) = dotted q n.spelling := by
    have hlast : dotted q n.spelling = String.ofList (c :: (cs ++ '.' :: ds) ++ [d]) := by
      rw [dotted_eq hcs, hds]
      simp
    rw [hlast]
    exact Text.trim_delimited hblank (isBlank_of_isIdentifierPart hd) _
  have hcolumn := ColumnName.ofText_dotted (hcs ▸ List.cons_ne_nil c cs) n
  rw [ofText_ok_iff, htrim]
  refine .column ?_
  rwa [String.ofList_toList]

/-! ### Spelling out a select list -/

namespace Schema

/-- Plain names for some header fields, under a qualifier. -/
def namesUnder (q : String) (fields : List String) : List ColumnName :=
  fields.filterMap fun f => (ColumnName.make (Text.trim f) [q]).toOption

/-- The texts of these names. -/
def textsUnder (q : String) (fields : List String) : List String :=
  fields.map fun f => dotted q (Text.trim f)

/-- The header fields of the relation that a qualifier means, under that qualifier. -/
def namesOf (sch : Schema) (q : String) : List ColumnName :=
  ((sch.find? (isCalled q ·.1)).map (namesUnder q ·.2)).getD []

/-- A select item with its wildcard spelled out; any other item stays as it is written. -/
def spellOut (sch : Schema) (text : String) : List String :=
  match SelectItem.ofText text with
  | .ok .wildcard => sch.flatMap fun r => textsUnder r.1.name r.2
  | .ok (.wildcardOf q) => ((sch.find? (isCalled q ·.1)).map (textsUnder q ·.2)).getD []
  | _ => [text]

/-- The select items that an item is spelled out as. -/
def spelledItems (sch : Schema) : SelectItem → List SelectItem
  | .wildcard => (sch.flatMap headerNames).map .column
  | .wildcardOf q => (sch.namesOf q).map .column
  | item => [item]

end Schema

/-- The statement with the wildcards of its select list spelled out. -/
def Statement.spelledOut (s : Statement) (config : Config) (catalog : Catalog) : Statement :=
  { s with columns := s.columns.flatMap (s.schema config catalog).spellOut }

namespace Schema

variable {sch : Schema}

/-- Whether an item can be spelled out: all qualifiers that it needs are read back as they are
written. -/
def spellable (sch : Schema) : SelectItem → Bool
  | .wildcard => sch.all (isSpellable ·.1.name)
  | .wildcardOf q => isSpellable q
  | _ => true

/-- The texts for the fields of a header are read as the names for them. -/
theorem forall₂_textsUnder {q : String} (hq : isSpellable q = true) {fields : List String}
    (h : ∀ f ∈ fields, isIdentifier (Text.trim f) = true) :
    List.Forall₂ (fun text item => SelectItem.ofText text = .ok item) (textsUnder q fields)
      ((namesUnder q fields).map .column) := by
  induction fields with
  | nil => exact .nil
  | cons f fs ih =>
    obtain ⟨m, hm, hmake⟩ := ColumnName.exists_make (h f List.mem_cons_self)
    have hread : SelectItem.ofText (dotted q (Text.trim f)) = .ok (.column (m.within q)) := by
      rw [← hm]
      exact SelectItem.ofText_dotted hq m
    have hnames : namesUnder q (f :: fs) = m.within q :: namesUnder q fs :=
      List.filterMap_cons_some (hmake q)
    rw [hnames]
    exact .cons hread (ih fun g hg => h g (List.mem_cons_of_mem f hg))

/-- A spelled-out item is read as the names that it stands for. -/
theorem forall₂_spellOut (hsound : sch.Sound) {text : String} {item : SelectItem}
    (htext : SelectItem.ofText text = .ok item) (hspellable : sch.spellable item = true) :
    List.Forall₂ (fun text item => SelectItem.ofText text = .ok item) (sch.spellOut text)
      (sch.spelledItems item) := by
  unfold spellOut
  rw [htext]
  cases item with
  | wildcard =>
    rw [spelledItems, List.map_flatMap]
    have hrefl : List.Forall₂ (fun r r' => r = r' ∧ r ∈ sch) sch sch :=
      List.forall₂_same.2 fun r hr => ⟨rfl, hr⟩
    refine List.rel_flatMap hrefl ?_
    rintro r _ ⟨rfl, hr⟩
    exact forall₂_textsUnder (List.all_eq_true.1 hspellable r hr) (hsound.headers r hr).isIdentifier
  | wildcardOf q =>
    dsimp only [spelledItems, namesOf]
    cases hfind : sch.find? (isCalled q ·.1) with
    | none => exact .nil
    | some r =>
      exact forall₂_textsUnder hspellable
        (hsound.headers r (List.mem_of_find?_eq_some hfind)).isIdentifier
  | column n => exact .cons htext .nil
  | count n => exact .cons htext .nil

/-- So a whole select list is read as what its items stand for. -/
theorem forall₂_flatMap_spellOut (hsound : sch.Sound) {columns : List String}
    {items : List SelectItem}
    (h : List.Forall₂ (fun text item => SelectItem.ofText text = .ok item) columns items)
    (hspellable : ∀ item ∈ items, sch.spellable item = true) :
    List.Forall₂ (fun text item => SelectItem.ofText text = .ok item)
      (columns.flatMap sch.spellOut) (items.flatMap sch.spelledItems) := by
  induction h with
  | nil => exact .nil
  | @cons text item _ _ htext _ ih =>
    have hitem := forall₂_spellOut hsound htext (hspellable item List.mem_cons_self)
    have hrest := ih fun x hx => hspellable x (List.mem_cons_of_mem item hx)
    exact List.rel_append hitem hrest

/-! ### What is printed -/

/-- The names that an item is spelled out as. -/
def spelledNames (sch : Schema) : SelectItem → List ColumnName
  | .wildcardOf q => sch.namesOf q
  | item => sch.expand item

/-- The items that an item is spelled out as have nothing left to expand. -/
theorem flatMap_expand_spelledItems (sch : Schema) (item : SelectItem) :
    (sch.spelledItems item).flatMap sch.expand = sch.spelledNames item := by
  have hcolumns : ∀ names : List ColumnName, (names.map .column).flatMap sch.expand = names := by
    intro names
    rw [List.flatMap_map]
    exact List.flatMap_singleton' names
  cases item with
  | wildcard => exact hcolumns _
  | wildcardOf q => exact hcolumns _
  | column n => rfl
  | count n => exact List.append_nil _

theorem eq_count_of_mem_spelledItems {item : SelectItem} {n : Option ColumnName}
    (h : .count n ∈ sch.spelledItems item) : item = .count n := by
  cases item with
  | wildcard => simp [spelledItems] at h
  | wildcardOf q => simp [spelledItems] at h
  | column m => simp [spelledItems] at h
  | count m => simpa [spelledItems, eq_comm] using h

theorem wildcardOf_notMem_spelledItems (item : SelectItem) (q : String) :
    .wildcardOf q ∉ sch.spelledItems item := by
  cases item with
  | wildcard => simp [spelledItems]
  | wildcardOf q => simp [spelledItems]
  | column m => simp [spelledItems]
  | count m => simp [spelledItems]

/-- Spelling out keeps what makes a list printable: a count stays alone, and no qualifier is left to
be unknown. -/
theorem printable_spelledItems {relations : List Relation} {items : List SelectItem}
    (h : Printable relations items) : Printable relations (items.flatMap sch.spelledItems) := by
  refine ⟨fun n hn => ?_, fun q hq => ?_⟩
  · obtain ⟨item, hitem, hn⟩ := List.mem_flatMap.1 hn
    obtain rfl := eq_count_of_mem_spelledItems hn
    rw [h.count_alone n hitem]
    rfl
  · obtain ⟨item, -, hq⟩ := List.mem_flatMap.1 hq
    exact absurd hq (wildcardOf_notMem_spelledItems item q)

/-- Two names with one spelling that are equal or may both mean some field. -/
structure SameField (sch : Schema) (n m : ColumnName) : Prop where
  spelling_eq : n.spelling = m.spelling
  common : n = m ∨ ∃ o, sch.means n o = true ∧ sch.means m o = true

theorem SameField.refl (sch : Schema) (n : ColumnName) : sch.SameField n n :=
  ⟨rfl, .inl rfl⟩

theorem SameField.unqualified_eq {n m : ColumnName} (h : sch.SameField n m) :
    n.unqualified = m.unqualified := by
  obtain ⟨s, p, qs, hs, hp⟩ := n
  obtain ⟨s', p', qs', hs', hp'⟩ := m
  obtain rfl : s = s' := h.spelling_eq
  subst hp hp'
  rfl

theorem isCalled_iff {q : String} {r : Relation} : isCalled q r = true ↔
    Text.lower r.path = Text.lower q ∨ Text.lower r.name = Text.lower q := by
  simp [isCalled, Text.sameIgnoringCase_iff, or_comm]

/-- A name under a qualifier that one relation only is called by means one field at most. -/
theorem Sound.eq_of_means_called (hsound : sch.Sound) {q : String}
    (hq : ∀ r ∈ sch.map (·.1), ∀ r' ∈ sch.map (·.1), isCalled q r = true →
      isCalled q r' = true → r = r') {m : ColumnName} {o o' : Origin}
    (ho : sch.means (m.within q) o = true) (ho' : sch.means (m.within q) o' = true) : o = o' := by
  obtain ⟨r, f, hf, -, hr⟩ := means_within_iff.1 ho
  obtain ⟨r', f', hf', -, hr'⟩ := means_within_iff.1 ho'
  obtain ⟨fields, hat, -⟩ := fieldAt?_eq_some_iff.1 hf
  obtain ⟨fields', hat', -⟩ := fieldAt?_eq_some_iff.1 hf'
  -- both fields are of the one relation that is called `q`, and a relation stands at one place
  obtain rfl := hq r (List.mem_map_of_mem (List.mem_of_getElem? hat)) r'
    (List.mem_map_of_mem (List.mem_of_getElem? hat')) (isCalled_iff.2 hr) (isCalled_iff.2 hr')
  obtain ⟨i, j⟩ := o
  obtain ⟨i', j'⟩ := o'
  obtain rfl : i = i' := hsound.relation_eq hat hat' rfl
  rw [hsound.field_eq ho ho']

/-- A field has the same name under all the qualifiers that mean its relation. -/
theorem forall₂_namesUnder (hsound : sch.Sound) {r : Relation × List String} (hr : r ∈ sch)
    {q : String} (hq : isCalled q r.1 = true) :
    List.Forall₂ sch.SameField (headerNames r) (namesUnder q r.2) := by
  obtain ⟨i, hi⟩ := List.mem_iff_getElem?.1 hr
  refine forall₂_filterMap fun f hf => ?_
  obtain ⟨j, hj⟩ := List.mem_iff_getElem?.1 hf
  obtain ⟨m, hm, hmake⟩ := ColumnName.exists_make ((hsound.headers r hr).isIdentifier f hf)
  have hfield : sch.fieldAt? ⟨i, j⟩ = some (r.1, f) := fieldAt?_eq_some_iff.2 ⟨r.2, hi, hj⟩
  have hplain : m.plain = Text.lower (Text.trim f) := by rw [m.plain_eq, hm]
  exact ⟨_, _, hmake r.1.name, hmake q, rfl, .inr ⟨⟨i, j⟩,
    means_within_iff.2 ⟨r.1, f, hfield, hplain, .inr rfl⟩,
    means_within_iff.2 ⟨r.1, f, hfield, hplain, isCalled_iff.1 hq⟩⟩⟩

/-- The names of a wildcard stand under its qualifier. -/
theorem exists_within_of_mem_namesOf {q : String} {n : ColumnName} (h : n ∈ sch.namesOf q) :
    ∃ m : ColumnName, n = m.within q := by
  rw [namesOf] at h
  cases hfind : sch.find? (isCalled q ·.1) with
  | none =>
    rw [hfind] at h
    exact absurd h List.not_mem_nil
  | some r =>
    rw [hfind] at h
    obtain ⟨f, -, hn⟩ := List.mem_filterMap.1 h
    obtain ⟨-, hqualifiers⟩ := ColumnName.make_ok_iff.1 (toOption_eq_some_iff.1 hn)
    obtain ⟨spelling, plain, qualifiers, hid, hplain⟩ := n
    obtain rfl : qualifiers = [Text.lower q] := hqualifiers
    exact ⟨⟨spelling, plain, [], hid, hplain⟩, rfl⟩

/-- Spelling out an item changes no more than the qualifiers of what it prints. -/
theorem forall₂_spelledNames (hsound : sch.Sound) (item : SelectItem) :
    List.Forall₂ sch.SameField (sch.expand item) (sch.spelledNames item) := by
  cases item with
  | wildcardOf q =>
    dsimp only [expand, spelledNames, namesOf]
    cases hfind : sch.find? (isCalled q ·.1) with
    | none => exact .nil
    | some r =>
      have hcalled := List.find?_some hfind
      exact forall₂_namesUnder hsound (List.mem_of_find?_eq_some hfind) hcalled
  | wildcard => exact List.forall₂_same.2 fun n _ => .refl sch n
  | column n => exact List.forall₂_same.2 fun n _ => .refl sch n
  | count n => exact List.forall₂_same.2 fun n _ => .refl sch n

end Schema

/-! ### Names that a column shares -/

namespace Table

variable {t : Table} {n m : ColumnName}

/-- Two names that are equal or that one column answers to. -/
def Shared (t : Table) (n m : ColumnName) : Prop :=
  n = m ∨ ∃ c ∈ t.columns, c.answersTo n = true ∧ c.answersTo m = true

/-- A name that is not ambiguous is found where another one is that the same column answers to. -/
theorem Shared.resolve_eq (h : t.Shared n m) {p : Nat} (hp : t.resolve n = .ok p)
    (hm : ¬t.Ambiguous m) : t.resolve m = .ok p := by
  obtain rfl | ⟨c, hc, hcn, hcm⟩ := h
  · exact hp
  rw [resolve_eq_ok_iff, tryResolve_eq_some_iff] at hp ⊢
  obtain ⟨e, he, hen, hbefore, hall⟩ := hp
  have hemem := List.mem_of_getElem? he
  have hem : e.answersTo m = true := by
    rw [Column.answersTo_eq_of_identical (hall c hc hcn)]
    exact hcm
  -- without ambiguity, whatever answers to `m` is identical to `e`
  have hsame : ∀ d ∈ t.columns, d.answersTo m = true → e.identical d = true := by
    intro d hd hdm
    by_contra hdifferent
    exact hm ⟨e, hemem, d, hd, hem, hdm, Bool.eq_false_iff.2 hdifferent⟩
  -- an earlier answer to `m` would be identical to `e` and so answer to `n` before it
  refine ⟨e, he, hem, fun q d hq hd => ?_, hsame⟩
  by_contra hdm
  have hid := hsame d (List.mem_of_getElem? hd) (by simpa using hdm)
  have hdn := hbefore q d hq hd
  rw [← Column.answersTo_eq_of_identical hid, hen] at hdn
  exact Bool.false_ne_true hdn.symm

/-- Names that share columns with names that are found are found at the same places, if none is
ambiguous. -/
theorem mapM_resolve_of_shared {names names' : List ColumnName}
    (h : List.Forall₂ t.Shared names names') {ps : List Nat}
    (hps : names.mapM t.resolve = .ok ps) (hnot : ∀ m ∈ names', ¬t.Ambiguous m) :
    names'.mapM t.resolve = .ok ps := by
  rw [mapM_ok_iff] at hps ⊢
  induction h generalizing ps with
  | nil => exact hps
  | @cons n m _ _ hnm _ ih =>
    obtain ⟨p, ps', hp, hps', rfl⟩ := List.forall₂_cons_left_iff.1 hps
    have hmp := hnm.resolve_eq hp (hnot m List.mem_cons_self)
    exact .cons hmp (ih hps' fun m' hm' => hnot m' (List.mem_cons_of_mem m hm'))

/-- If some are ambiguous, the first of these is refused. -/
theorem mapM_resolve_error_of_shared {names names' : List ColumnName}
    (h : List.Forall₂ t.Shared names names') {ps : List Nat}
    (hps : names.mapM t.resolve = .ok ps) (hsome : ∃ m ∈ names', t.Ambiguous m) :
    ∃ m ∈ names', t.Ambiguous m ∧
      ∃ candidates, names'.mapM t.resolve = .error (.ambiguousColumn m.qualified candidates) := by
  rw [mapM_ok_iff] at hps
  induction h generalizing ps with
  | nil => simp at hsome
  | @cons n m _ ms hnm _ ih =>
    obtain ⟨p, ps', hp, hps', rfl⟩ := List.forall₂_cons_left_iff.1 hps
    rw [List.mapM_cons]
    by_cases hm : t.Ambiguous m
    · obtain ⟨candidates, herror⟩ := resolve_of_ambiguous hm
      exact ⟨m, List.mem_cons_self, hm, candidates, by rw [herror]; rfl⟩
    · -- the first name is found, so the error comes from a later one
      obtain ⟨m', hm', hambiguous'⟩ := hsome
      have hrest : m' ∈ ms := (List.mem_cons.1 hm').resolve_left fun heq => hm (heq ▸ hambiguous')
      obtain ⟨l, hl, hambiguous, candidates, herror⟩ := ih hps' ⟨m', hrest, hambiguous'⟩
      refine ⟨l, List.mem_cons_of_mem m hl, hambiguous, candidates, ?_⟩
      rw [hnm.resolve_eq hp hm, herror]
      rfl

end Table

/-! ### The joined table -/

namespace Query

variable {s : Statement} {config : Config} {catalog : Catalog}

/-- A header without fields is the only one. -/
theorem Planned.schema_eq_of_no_fields (p : Planned s config catalog) {r : Relation × List String}
    (hr : r ∈ s.schema config catalog) (hfields : r.2 = []) : s.schema config catalog = [r] := by
  obtain ⟨i, hi⟩ := List.mem_iff_getElem?.1 hr
  obtain ⟨es, leads, cs, hbuilt, -⟩ := p.exists_built
  have hmem : i ∈ p.places := by
    rw [p.places_perm.mem_iff, List.mem_range]
    exact (List.getElem?_eq_some_iff.1 hi).1
  -- a relation that is joined is joined on one of its fields
  have hone : p.places.length = 1 := by
    by_contra hmany
    obtain ⟨o, ho, rfl⟩ := hbuilt.exists_field hmany hmem
    obtain ⟨⟨r', f⟩, hf⟩ := Option.isSome_iff_exists.1 (Schema.mem_origins_iff.1 ho)
    obtain ⟨fields, hr', hfield⟩ := Schema.fieldAt?_eq_some_iff.1 hf
    obtain rfl := Option.some.inj (hi.symm.trans hr')
    obtain rfl : fields = [] := hfields
    simp at hfield
  have hlength := p.places_perm.length_eq
  rw [hone, List.length_range] at hlength
  obtain ⟨r', hr'⟩ := List.length_eq_one_iff.1 hlength.symm
  rw [hr'] at hr ⊢
  rw [List.mem_singleton.1 hr]

/-- Names of one field are names that a column of the joined table answers to. -/
theorem Planned.shared_of_sameField (p : Planned s config catalog) {n m : ColumnName}
    (h : (s.schema config catalog).SameField n m) : p.joined.Shared n m := by
  obtain ⟨es, leads, cs, hbuilt, -⟩ := p.exists_built
  obtain rfl | ⟨o, hn, hm⟩ := h.common
  · exact .inl rfl
  obtain ⟨q, a, ha, hao⟩ := hbuilt.laid.exists_position (Schema.mem_origins_of_means hn)
    (p.mem_places_of_means hn)
  obtain ⟨c, hc, hanswers⟩ := hbuilt.laid.getElem?_columns ha
  exact .inr ⟨c, List.mem_of_getElem? hc, (hanswers n).2 ⟨o, hao, hn⟩, (hanswers m).2 ⟨o, hao, hm⟩⟩

/-- A qualifier that one relation only is called by makes no name ambiguous. -/
theorem Planned.not_ambiguous_of_called (p : Planned s config catalog) {q : String}
    (hq : ∀ r ∈ s.relations, ∀ r' ∈ s.relations, Schema.isCalled q r = true →
      Schema.isCalled q r' = true → r = r') {n : ColumnName}
    (hn : n ∈ (s.schema config catalog).namesOf q) : ¬p.joined.Ambiguous n := by
  obtain ⟨m, rfl⟩ := Schema.exists_within_of_mem_namesOf hn
  obtain ⟨es, leads, cs, hbuilt, -⟩ := p.exists_built
  rw [← s.map_fst_schema config catalog] at hq
  refine Table.exists_tryResolve_iff.1 ?_
  -- the name means one field, or none
  by_cases hsome : ∃ o, (s.schema config catalog).means (m.within q) o = true
  · obtain ⟨o, ho⟩ := hsome
    obtain ⟨k, -, -, -, hk⟩ := hbuilt.laid.tryResolve_of_unique ho (p.mem_places_of_means ho)
      fun o' ho' _ => p.sound.eq_of_means_called hq ho' ho
    exact ⟨_, hk⟩
  · exact ⟨none, hbuilt.laid.tryResolve_of_none fun o ho => absurd ⟨o, ho⟩ hsome⟩

/-- Nothing is left of a select list only if there is nothing to print. -/
theorem Planned.flatMap_headerNames_eq_nil (p : Planned s config catalog) {item : SelectItem}
    (hwildcard : ∀ q, item = .wildcardOf q → ∃ r ∈ s.relations, Schema.isCalled q r = true)
    (hnil : (s.schema config catalog).spelledItems item = []) :
    (s.schema config catalog).flatMap Schema.headerNames = [] := by
  cases item with
  | wildcard => exact List.map_eq_nil_iff.1 hnil
  | wildcardOf q =>
    obtain ⟨r, hr, hcalled⟩ := hwildcard q rfl
    rw [← s.map_fst_schema config catalog] at hr
    obtain ⟨x, hx, rfl⟩ := List.mem_map.1 hr
    have hnames := List.map_eq_nil_iff.1 hnil
    rw [Schema.namesOf] at hnames
    cases hfind : (s.schema config catalog).find? (Schema.isCalled q ·.1) with
    | none => exact absurd hcalled (List.find?_eq_none.1 hfind x hx)
    | some y =>
      have hy := List.mem_of_find?_eq_some hfind
      rw [hfind] at hnames
      -- every field of a header is an identifier, so it would give a name
      have hfields : y.2 = [] := by
        refine List.eq_nil_iff_forall_not_mem.2 fun f hf => ?_
        obtain ⟨m, -, hmake⟩ :=
          ColumnName.exists_make ((p.sound.headers y hy).isIdentifier f hf)
        have hnone := List.filterMap_eq_nil_iff.1 hnames f hf
        rw [hmake q] at hnone
        cases hnone
      rw [p.schema_eq_of_no_fields hy hfields, List.flatMap_singleton, Schema.headerNames, hfields]
      rfl
  | column n => cases hnil
  | count n => cases hnil

/-- The names that are printed once the wildcards are spelled out. -/
theorem Planned.printed_spelledItems (p : Planned s config catalog) {items : List SelectItem}
    (hprintable : Printable s.relations items) (hne : items ≠ []) :
    (s.schema config catalog).printed (items.flatMap (s.schema config catalog).spelledItems) =
      items.flatMap (s.schema config catalog).spelledNames := by
  have hnames : (items.flatMap (s.schema config catalog).spelledItems).flatMap
      (s.schema config catalog).expand = items.flatMap (s.schema config catalog).spelledNames := by
    calc (items.flatMap (s.schema config catalog).spelledItems).flatMap
          (s.schema config catalog).expand
        = items.flatMap fun item => ((s.schema config catalog).spelledItems item).flatMap
            (s.schema config catalog).expand := List.flatMap_assoc
      _ = items.flatMap (s.schema config catalog).spelledNames := by
          simp only [Schema.flatMap_expand_spelledItems]
  rw [Schema.printed]
  split
  · next hempty =>
    -- an empty list prints all columns, but there are none
    rw [List.isEmpty_iff] at hempty
    obtain ⟨item, rest, rfl⟩ := List.exists_cons_of_ne_nil hne
    have hnil := List.flatMap_eq_nil_iff.1 hempty item List.mem_cons_self
    rw [hempty] at hnames
    rw [← hnames, List.flatMap_singleton]
    exact p.flatMap_headerNames_eq_nil
      (fun q hq => hprintable.wildcards q (hq ▸ List.mem_cons_self)) hnil
  · exact hnames

/-- What is printed once the wildcards are spelled out differs from what was printed before in the
qualifiers only. -/
theorem Planned.forall₂_printed (p : Planned s config catalog) {items : List SelectItem}
    (hprintable : Printable s.relations items) :
    List.Forall₂ (s.schema config catalog).SameField ((s.schema config catalog).printed items)
      ((s.schema config catalog).printed
        (items.flatMap (s.schema config catalog).spelledItems)) := by
  by_cases hne : items = []
  · rw [hne]
    exact List.forall₂_same.2 fun n _ => .refl _ n
  · rw [p.printed_spelledItems hprintable hne, Schema.printed,
      if_neg (by simpa using hne)]
    have hitems : List.Forall₂ Eq items items := List.forall₂_same.2 fun _ _ => rfl
    refine List.rel_flatMap hitems ?_
    rintro item _ rfl
    exact Schema.forall₂_spelledNames p.sound item

/-- Where the names that were printed before are found, an ambiguous one comes from a wildcard with
a qualifier. -/
theorem Planned.exists_wildcardOf_of_ambiguous (p : Planned s config catalog)
    {items : List SelectItem} (hprintable : Printable s.relations items)
    (hfound : ∀ n ∈ (s.schema config catalog).printed items, ¬p.joined.Ambiguous n)
    {n : ColumnName} (hn : n ∈ (s.schema config catalog).printed
      (items.flatMap (s.schema config catalog).spelledItems)) (hambiguous : p.joined.Ambiguous n) :
    ∃ q, .wildcardOf q ∈ items ∧ n ∈ (s.schema config catalog).namesOf q := by
  by_cases hne : items = []
  · rw [hne] at hn hfound
    exact absurd hambiguous (hfound n hn)
  · rw [p.printed_spelledItems hprintable hne] at hn
    obtain ⟨item, hitem, hn⟩ := List.mem_flatMap.1 hn
    -- the plan has found every name of the expanded list, so the name is not one of them
    have hkept : n ∉ (s.schema config catalog).expand item := by
      intro hmem
      refine hfound n ?_ hambiguous
      rw [Schema.printed, if_neg (by simpa using hne)]
      exact List.mem_flatMap.2 ⟨item, hitem, hmem⟩
    cases item with
    | wildcardOf q => exact ⟨q, hitem, hn⟩
    | wildcard => exact absurd hn hkept
    | column m => exact absurd hn hkept
    | count m => exact absurd hn hkept

/-- The names of a wildcard are printed once it is spelled out. -/
theorem Planned.mem_printed_of_mem_namesOf (p : Planned s config catalog)
    {items : List SelectItem} (hprintable : Printable s.relations items) {q : String}
    (hq : .wildcardOf q ∈ items) {n : ColumnName}
    (hn : n ∈ (s.schema config catalog).namesOf q) :
    n ∈ (s.schema config catalog).printed
      (items.flatMap (s.schema config catalog).spelledItems) := by
  rw [p.printed_spelledItems hprintable (List.ne_nil_of_mem hq)]
  exact List.mem_flatMap.2 ⟨_, hq, hn⟩

/-- The end of a plan depends on the positions of the names and on their labels only. -/
theorem finish_columns_eq {sample : Option Nat} {joined : Table} {names names' : List ColumnName}
    (hresolve : names.mapM joined.resolve = names'.mapM joined.resolve)
    (hlabels : names.map ColumnName.unqualified = names'.map ColumnName.unqualified) :
    finish config sample joined (.columns names) =
      finish config sample joined (.columns names') := by
  rw [finish, Table.reorderColumns, hresolve, hlabels, finish, Table.reorderColumns]

theorem finish_columns_error {sample : Option Nat} {joined : Table} {names : List ColumnName}
    {e : PlanError} (h : names.mapM joined.resolve = .error e) :
    finish config sample joined (.columns names) = .error e := by
  rw [finish, Table.reorderColumns, h]
  rfl

theorem exists_mapM_of_finish {sample : Option Nat} {joined t : Table} {names : List ColumnName}
    (h : finish config sample joined (.columns names) = .ok t) :
    ∃ ps, names.mapM joined.resolve = .ok ps := by
  obtain ⟨_, hreordered, -⟩ := bind_ok_iff.1 h
  obtain ⟨ps, hps, -⟩ := bind_ok_iff.1 hreordered
  exact ⟨ps, hps⟩

/-- What becomes of a plan `t` when its wildcards are spelled out: it stays, or a name under the
qualifier of a wildcard is ambiguous and refused. -/
inductive Planned.Respelled (p : Planned s config catalog) (items : List SelectItem) (t : Table) :
    Except PlanError Table → Prop where
  | same (h : ∀ q, .wildcardOf q ∈ items → ∀ n ∈ (s.schema config catalog).namesOf q,
      ¬p.joined.Ambiguous n) : p.Respelled items t (.ok t)
  | refused {q : String} {n : ColumnName} {candidates : List String} (hq : .wildcardOf q ∈ items)
      (hn : n ∈ (s.schema config catalog).namesOf q) (h : p.joined.Ambiguous n) :
      p.Respelled items t (.error (.ambiguousColumn n.qualified candidates))

/-- Names that share their columns give the same end of a plan, or an ambiguous one of them refuses
it. -/
theorem Planned.respelled_finish (p : Planned s config catalog) {t : Table}
    {items : List SelectItem} (hprintable : Printable s.relations items)
    (ht : finish config s.sample p.joined
      (.columns ((s.schema config catalog).printed items)) = .ok t) :
    p.Respelled items t (finish config s.sample p.joined
      (.columns ((s.schema config catalog).printed
        (items.flatMap (s.schema config catalog).spelledItems)))) := by
  obtain ⟨ps, hps⟩ := exists_mapM_of_finish ht
  have hsame := p.forall₂_printed hprintable
  have hshared := hsame.imp fun _ _ => p.shared_of_sameField
  -- either a name of a respelled wildcard is ambiguous, or all are found where the fields were
  by_cases hsome : ∃ n ∈ (s.schema config catalog).printed
      (items.flatMap (s.schema config catalog).spelledItems), p.joined.Ambiguous n
  · obtain ⟨n, hn, hambiguous, candidates, herror⟩ :=
      Table.mapM_resolve_error_of_shared hshared hps hsome
    have hfound : ∀ m ∈ (s.schema config catalog).printed items, ¬p.joined.Ambiguous m := by
      intro m hm
      obtain ⟨k, -, hk⟩ := exists_right_of_forall₂ (mapM_ok_iff.1 hps) hm
      exact Table.not_ambiguous_of_resolve hk
    obtain ⟨q, hq, hmem⟩ := p.exists_wildcardOf_of_ambiguous hprintable hfound hn hambiguous
    rw [finish_columns_error herror]
    exact .refused hq hmem hambiguous
  · have hnone := fun n hn hambiguous => hsome ⟨n, hn, hambiguous⟩
    have hresolve := Table.mapM_resolve_of_shared hshared hps hnone
    have hlabels := hsame.imp fun _ _ => Schema.SameField.unqualified_eq
    rw [← finish_columns_eq (hps.trans hresolve.symm) (map_eq_map_iff_forall₂.2 hlabels), ht]
    exact .same fun q hq n hn => hnone n (p.mem_printed_of_mem_namesOf hprintable hq hn)

/-- Only the last step of the plan depends on how the select list is written. -/
theorem Planned.respelled_table (p : Planned s config catalog) {t : Table}
    {items : List SelectItem} (ht : finish config s.sample p.joined p.output = .ok t)
    (hitems : s.columns.mapM SelectItem.ofText = .ok items)
    (hspellable : ∀ item ∈ items, (s.schema config catalog).spellable item = true) :
    p.Respelled items t (table (s.spelledOut config catalog) config catalog) := by
  have houtput := p.output_ok
  rw [← s.map_fst_schema config catalog] at houtput
  obtain ⟨items', hitems', hprintable, hout⟩ := p.opened.output_ok_iff.1 houtput
  obtain rfl : items' = items := Except.ok.inj (hitems'.symm.trans hitems)
  -- the items that are spelled out are read back
  have hread := Schema.forall₂_flatMap_spellOut p.sound (mapM_ok_iff.1 hitems) hspellable
  have hspelled := p.opened.output_ok_iff.2
    ⟨_, mapM_ok_iff.2 hread, Schema.printable_spelledItems hprintable, rfl⟩
  rw [s.map_fst_schema config catalog] at hspelled hprintable
  rw [Statement.spelledOut, p.table_columns hspelled]
  rw [← hout] at ht
  -- a count is no list of columns, and it is spelled out as itself
  by_cases hcount : ∃ n, items' = [.count n]
  · obtain ⟨n, rfl⟩ := hcount
    have hsame : (s.schema config catalog).outputOf
        (List.flatMap (s.schema config catalog).spelledItems [.count n]) =
          (s.schema config catalog).outputOf [.count n] := rfl
    rw [hsame, ht]
    exact .same fun q hq => by simp at hq
  · have hcount' : ∀ n, items'.flatMap (s.schema config catalog).spelledItems ≠ [.count n] := by
      intro n hn
      have hmem : .count n ∈ items'.flatMap (s.schema config catalog).spelledItems := by simp [hn]
      obtain ⟨item, hitem, hn⟩ := List.mem_flatMap.1 hmem
      obtain rfl := Schema.eq_count_of_mem_spelledItems hn
      exact hcount ⟨n, hprintable.count_alone n hitem⟩
    rw [Schema.outputOf_eq_columns _ fun n hn => hcount ⟨n, hn⟩] at ht
    rw [Schema.outputOf_eq_columns _ hcount']
    exact p.respelled_finish hprintable ht

/-- Wildcards are short for the columns that they stand for, except that a wildcard takes the first
relation that its qualifier means, where a name under that qualifier may mean columns of several. -/
theorem plan_spelledOut {pipeline : String} {items : List SelectItem}
    (hplan : plan s config catalog = .ok pipeline)
    (hitems : s.columns.mapM SelectItem.ofText = .ok items)
    (hspellable : ∀ item ∈ items, (s.schema config catalog).spellable item = true) :
    ∃ p : Planned s config catalog,
      (plan (s.spelledOut config catalog) config catalog = .ok pipeline ↔
        ∀ q, .wildcardOf q ∈ items → ∀ n ∈ (s.schema config catalog).namesOf q,
          ¬p.joined.Ambiguous n) ∧
      (plan (s.spelledOut config catalog) config catalog = .ok pipeline ∨
        ∃ q, .wildcardOf q ∈ items ∧ ∃ n ∈ (s.schema config catalog).namesOf q, ∃ candidates,
          plan (s.spelledOut config catalog) config catalog =
            .error (.ambiguousColumn n.qualified candidates)) ∧
      ((∀ q, .wildcardOf q ∈ items → ∀ r ∈ s.relations, ∀ r' ∈ s.relations,
          Schema.isCalled q r = true → Schema.isCalled q r' = true → r = r') →
        plan (s.spelledOut config catalog) config catalog = .ok pipeline) := by
  obtain ⟨t, ht, rfl⟩ := map_ok_iff.1 hplan
  obtain ⟨p, hfinish⟩ := table_ok_iff.1 ht
  refine ⟨p, ?_⟩
  have hrespelled := p.respelled_table hfinish hitems hspellable
  rw [plan]
  generalize table (s.spelledOut config catalog) config catalog = outcome at hrespelled
  cases hrespelled with
  | same hnone => exact ⟨iff_of_true rfl hnone, .inl rfl, fun _ => rfl⟩
  | @refused q n candidates hq hn hambiguous =>
    refine ⟨iff_of_false (fun h => nomatch h) fun hnone => hnone q hq n hn hambiguous,
      .inr ⟨q, hq, n, hn, candidates, rfl⟩, fun hcalled => ?_⟩
    exact absurd hambiguous (p.not_ambiguous_of_called (hcalled q hq) hn)

/-- Every column, and once more those of the file that the second relation reads. -/
def allAndFile : Statement where
  columns := ["*", "b.csv.*"]
  relations := [⟨"a.csv", some "a"⟩, ⟨"b.csv", some "b"⟩]
  conditions := [.comparison "a.k" "=" "b.k"]
  sample := none

def allAndFileCatalog : Catalog :=
  .ofList [("a.csv", ["p", "k"]), ("b.csv", ["k", " n"])]

/-- Every relation has one name and one path, so the plan is the same. -/
theorem plan_allAndFile : ∃ pipeline, plan allAndFile {} allAndFileCatalog = .ok pipeline ∧
    (allAndFile.spelledOut {} allAndFileCatalog).columns =
      ["a.p", "a.k", "b.k", "b.n", "b.csv.k", "b.csv.n"] ∧
    plan (allAndFile.spelledOut {} allAndFileCatalog) {} allAndFileCatalog = .ok pipeline := by
  obtain ⟨pipeline, hplan⟩ := isOk_iff.1 (show (plan allAndFile {} allAndFileCatalog).isOk = true by
    decide +kernel)
  have hitems : allAndFile.columns.mapM SelectItem.ofText = .ok [.wildcard, .wildcardOf "b.csv"] :=
    rfl
  obtain ⟨p, -, -, hsame⟩ := plan_spelledOut hplan hitems (by decide +kernel)
  refine ⟨pipeline, hplan, by decide +kernel, hsame fun q hq => ?_⟩
  obtain rfl : q = "b.csv" := by simpa using hq
  decide +kernel

/-- Two relations that read one file, and the columns of that file. -/
def fileTwice : Statement where
  columns := ["t.txt.*"]
  relations := [⟨"t.txt", some "a"⟩, ⟨"t.txt", some "b"⟩]
  conditions := [.comparison "a.k" "=" "b.k"]
  sample := none

def fileTwiceCatalog : Catalog :=
  .ofList [("t.txt", ["k", "v"])]

/-- The wildcard means the first of the two relations, but the columns `v` of both answer to the
name under the path. -/
theorem refused_fileTwice : (∃ pipeline, plan fileTwice {} fileTwiceCatalog = .ok pipeline) ∧
    isSpellable "t.txt" = true ∧ isSpellable "a" = true ∧ isSpellable "b" = true ∧
    (fileTwice.spelledOut {} fileTwiceCatalog).columns = ["t.txt.k", "t.txt.v"] ∧
    plan (fileTwice.spelledOut {} fileTwiceCatalog) {} fileTwiceCatalog =
      .error (.ambiguousColumn "t.txt.v" ["(a|t.txt).v", "(b|t.txt).v"]) :=
  ⟨isOk_iff.1 (by decide +kernel), by decide +kernel, by decide +kernel, by decide +kernel,
    by decide +kernel, by decide +kernel⟩

end Query

end ShellQuery
