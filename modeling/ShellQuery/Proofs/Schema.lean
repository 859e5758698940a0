import Mathlib.Data.List.Nodup
import ShellQuery.Proofs.Column.Matching
import ShellQuery.Proofs.Outcome
import ShellQuery.Query

/-!
# The relations of a statement and their header fields

What a statement means is said in terms of its *schema*: its relations with their header fields. An
`Origin` is a place in the schema, and `Schema.means` says which places a reference may mean.

* `openRelation_ok_iff`: a relation is opened exactly when its header is found and is a
  `ValidHeader`, and the opened table has one column per header field (`Opens`).
* `checkNames_ok_iff`: the names of the relations pass exactly when they differ, whatever the case.
* `Schema.means_within_iff`: unless a name of one relation is the path of another, a plain name
  under the name of a relation means at most the one field of that relation.
-/

namespace ShellQuery

/-! ### Schemas -/

/-- Whether a reference may mean a header field of the relation: it has the plain name, and it is
unqualified or qualified by the path or the name of the relation. -/
def Relation.fieldAnswers (r : Relation) (field : String) (n : ColumnName) : Bool :=
  n.plain == Text.lower (Text.trim field) &&
    (n.qualifiers.isEmpty || n.qualifiers.contains (Text.lower r.path) ||
      n.qualifiers.contains (Text.lower r.name))

/-- Relations in the order of the statement, each with its header fields. -/
abbrev Schema := List (Relation × List String)

/-- The schema of a statement; a relation without a header has no fields. -/
def Statement.schema (s : Statement) (config : Config) (catalog : Catalog) : Schema :=
  s.relations.map fun r => (r, (catalog.fields r.path config.delimiter).getD [])

theorem Statement.map_fst_schema (s : Statement) (config : Config) (catalog : Catalog) :
    (s.schema config catalog).map (·.1) = s.relations := by
  rw [schema, List.map_map]
  exact List.map_id _

/-- A header field of a relation, both given by their places. -/
structure Origin where
  relation : Nat
  field : Nat
deriving DecidableEq, Repr

namespace Schema

/-- The relation and the header field at a place. -/
def fieldAt? (sch : Schema) (o : Origin) : Option (Relation × String) :=
  sch[o.relation]?.bind fun r => r.2[o.field]?.map (r.1, ·)

/-- Whether a reference may mean the header field at a place. -/
def means (sch : Schema) (n : ColumnName) (o : Origin) : Bool :=
  (sch.fieldAt? o).any fun f => f.1.fieldAnswers f.2 n

/-- All places of a schema, in the order of the statement. -/
def origins (sch : Schema) : List Origin :=
  sch.zipIdx.flatMap fun r => (List.range r.1.2.length).map (⟨r.2, ·⟩)

end Schema

/-- A header that can be read: its fields are plain names and no two of them are equal, whatever the
case. -/
structure ValidHeader (fields : List String) : Prop where
  isIdentifier : ∀ f ∈ fields, isIdentifier (Text.trim f) = true
  nodup : (fields.map fun f => Text.lower (Text.trim f)).Nodup

/-- The names of the relations differ, whatever the case, and every header can be read. -/
structure Schema.Sound (sch : Schema) : Prop where
  names : (sch.map fun r => Text.lower r.1.name).Nodup
  headers : ∀ r ∈ sch, ValidHeader r.2

/-- No name of a relation is the path of another one, whatever the case. -/
def PathsApart (relations : List Relation) : Prop :=
  relations.Pairwise fun r r' =>
    Text.lower r.name ≠ Text.lower r'.path ∧ Text.lower r'.name ≠ Text.lower r.path

instance (relations : List Relation) : Decidable (PathsApart relations) := by
  unfold PathsApart
  infer_instance

theorem PathsApart.ne {relations : List Relation} (h : PathsApart relations) {i j : Nat}
    {r r' : Relation} (hi : relations[i]? = some r) (hj : relations[j]? = some r') (hij : i ≠ j) :
    Text.lower r.name ≠ Text.lower r'.path := by
  obtain ⟨hlt, rfl⟩ := List.getElem?_eq_some_iff.1 hi
  obtain ⟨hlt', rfl⟩ := List.getElem?_eq_some_iff.1 hj
  rw [PathsApart, List.pairwise_iff_getElem] at h
  rcases Nat.lt_or_gt_of_ne hij with hij | hij
  · exact (h i j hlt hlt' hij).1
  · exact (h j i hlt' hlt hij).2

namespace Schema

variable {sch : Schema} {n : ColumnName} {o : Origin}

/-- A field of the schema is one of its relation's header. -/
theorem fieldAt?_eq_some_iff {r : Relation} {f : String} :
    sch.fieldAt? o = some (r, f) ↔
      ∃ fields, sch[o.relation]? = some (r, fields) ∧ fields[o.field]? = some f := by
  rw [fieldAt?, Option.bind_eq_some_iff]
  constructor
  · rintro ⟨⟨r', fields⟩, hr, h⟩
    obtain ⟨f', hf, heq⟩ := Option.map_eq_some_iff.1 h
    obtain ⟨rfl, rfl⟩ := Prod.mk.inj heq
    exact ⟨fields, hr, hf⟩
  · rintro ⟨fields, hr, hf⟩
    exact ⟨(r, fields), hr, by rw [hf]; rfl⟩

theorem means_iff : sch.means n o = true ↔
    ∃ r f, sch.fieldAt? o = some (r, f) ∧ r.fieldAnswers f n = true := by
  rw [means, Option.any_eq_true]
  exact ⟨fun ⟨⟨r, f⟩, h⟩ => ⟨r, f, h⟩, fun ⟨r, f, h⟩ => ⟨(r, f), h⟩⟩

/-- The origins are the places of fields. -/
theorem mem_origins_iff : o ∈ sch.origins ↔ (sch.fieldAt? o).isSome = true := by
  rw [origins, List.mem_flatMap, Option.isSome_iff_exists]
  constructor
  · rintro ⟨⟨⟨r, fields⟩, i⟩, hr, ho⟩
    obtain ⟨j, hj, rfl⟩ := List.mem_map.1 ho
    rw [List.mk_mem_zipIdx_iff_getElem?] at hr
    have hj := List.getElem?_eq_getElem (List.mem_range.1 hj)
    exact ⟨_, fieldAt?_eq_some_iff.2 ⟨fields, hr, hj⟩⟩
  · rintro ⟨⟨r, f⟩, h⟩
    obtain ⟨fields, hr, hf⟩ := fieldAt?_eq_some_iff.1 h
    obtain ⟨hlt, -⟩ := List.getElem?_eq_some_iff.1 hf
    exact ⟨((r, fields), o.relation), List.mk_mem_zipIdx_iff_getElem?.2 hr,
      List.mem_map.2 ⟨o.field, List.mem_range.2 hlt, rfl⟩⟩

theorem mem_origins_of_means (h : sch.means n o = true) : o ∈ sch.origins := by
  obtain ⟨r, f, h, _⟩ := means_iff.1 h
  rw [mem_origins_iff, h]
  rfl

/-- Identical references may mean the same fields. -/
theorem means_congr {m : ColumnName} (h : m.identical n = true) (o : Origin) :
    sch.means m o = sch.means n o := by
  obtain ⟨hp, hq⟩ := ColumnName.identical_iff.1 h
  have hnil := ColumnName.qualifiers_eq_nil_of_identical h
  have hfield : ∀ (r : Relation) f, r.fieldAnswers f m = r.fieldAnswers f n := by
    intro r f
    rw [Bool.eq_iff_iff]
    simp only [Relation.fieldAnswers, Bool.and_eq_true, Bool.or_eq_true, List.isEmpty_iff,
      List.contains_iff_mem, hp, hnil, hq]
  rw [means, means]
  simp only [hfield]

/-- Relations with the same name are the same. -/
theorem Sound.relation_eq (h : sch.Sound) {i j : Nat} {r r' : Relation × List String}
    (hi : sch[i]? = some r) (hj : sch[j]? = some r')
    (hname : Text.lower r.1.name = Text.lower r'.1.name) : i = j := by
  have hlt : i < (sch.map fun r => Text.lower r.1.name).length := by
    rw [List.length_map]
    exact (List.getElem?_eq_some_iff.1 hi).1
  refine (List.getElem?_inj hlt h.names).1 ?_
  rw [List.getElem?_map, List.getElem?_map, hi, hj, Option.map_some, Option.map_some, hname]

/-- A reference means at most one field of a relation. -/
theorem Sound.field_eq (h : sch.Sound) {i j j' : Nat} (hj : sch.means n ⟨i, j⟩ = true)
    (hj' : sch.means n ⟨i, j'⟩ = true) : j = j' := by
  obtain ⟨r, f, hf, hn⟩ := means_iff.1 hj
  obtain ⟨r', f', hf', hn'⟩ := means_iff.1 hj'
  obtain ⟨fields, hr, hf⟩ := fieldAt?_eq_some_iff.1 hf
  obtain ⟨fields', hr', hf'⟩ := fieldAt?_eq_some_iff.1 hf'
  obtain ⟨rfl, rfl⟩ := Prod.mk.inj (Option.some.inj (hr.symm.trans hr'))
  have hnd := (h.headers _ (List.mem_of_getElem? hr)).nodup
  simp only [Relation.fieldAnswers, Bool.and_eq_true, beq_iff_eq] at hn hn'
  have hlt : j < (fields.map fun f => Text.lower (Text.trim f)).length := by
    rw [List.length_map]
    exact (List.getElem?_eq_some_iff.1 hf).1
  refine (List.getElem?_inj hlt hnd).1 ?_
  rw [List.getElem?_map, List.getElem?_map, hf, hf', Option.map_some, Option.map_some, ← hn.1,
    ← hn'.1]

/-- A name under the name of a relation may mean the fields of the same plain name in all the
relations that have that name or path. -/
theorem means_within_iff {relation : String} : sch.means (n.within relation) o = true ↔
    ∃ r f, sch.fieldAt? o = some (r, f) ∧ n.plain = Text.lower (Text.trim f) ∧
      (Text.lower r.path = Text.lower relation ∨ Text.lower r.name = Text.lower relation) := by
  rw [means_iff]
  refine exists_congr fun r => exists_congr fun f => and_congr_right fun _ => ?_
  simp [Relation.fieldAnswers, ColumnName.within]

/-- Where paths and names are apart, a name under the name of a relation means a field of no other
relation. -/
theorem Sound.relation_eq_of_means_within (h : sch.Sound) (hapart : PathsApart (sch.map (·.1)))
    {i : Nat} {r : Relation × List String} (hi : sch[i]? = some r)
    (ho : sch.means (n.within r.1.name) o = true) : o.relation = i := by
  obtain ⟨r', f, hf, -, hr'⟩ := means_within_iff.1 ho
  obtain ⟨fields, hr, -⟩ := fieldAt?_eq_some_iff.1 hf
  rcases hr' with hpath | hname
  · by_contra hne
    refine hapart.ne (i := i) (j := o.relation) ?_ ?_ (Ne.symm hne)
      hpath.symm
    · rw [List.getElem?_map, hi]
      rfl
    · rw [List.getElem?_map, hr]
      rfl
  · exact h.relation_eq hr hi hname

/-- Where paths and names are apart, every field can be referred to. -/
theorem Sound.exists_name (h : sch.Sound) (hapart : PathsApart (sch.map (·.1)))
    (ho : o ∈ sch.origins) : ∃ n, ∀ o', sch.means n o' = true ↔ o' = o := by
  obtain ⟨⟨r, f⟩, hf⟩ := Option.isSome_iff_exists.1 (mem_origins_iff.1 ho)
  obtain ⟨fields, hr, hfield⟩ := fieldAt?_eq_some_iff.1 hf
  have hid := (h.headers _ (List.mem_of_getElem? hr)).isIdentifier f (List.mem_of_getElem? hfield)
  let m : ColumnName := ⟨Text.trim f, Text.lower (Text.trim f), [], hid, rfl⟩
  have hm : sch.means (m.within r.name) o = true :=
    means_within_iff.2 ⟨r, f, hf, rfl, .inr rfl⟩
  refine ⟨m.within r.name, fun o' => ⟨fun ho' => ?_, fun heq => heq ▸ hm⟩⟩
  obtain ⟨i, j⟩ := o
  obtain ⟨i', j'⟩ := o'
  obtain rfl : i' = i := h.relation_eq_of_means_within hapart hr ho'
  rw [h.field_eq ho' hm]

end Schema

/-! ### Opening relations -/

/-- A name is made of its spelling and the lowercase qualifiers, each once. -/
theorem ColumnName.make_ok_iff {spelling : String} {qualifiers : List String} {n : ColumnName} :
    ColumnName.make spelling qualifiers = .ok n ↔
      n.spelling = spelling ∧ n.qualifiers = (qualifiers.map Text.lower).eraseDups := by
  unfold ColumnName.make
  split
  · rw [Except.ok.injEq]
    constructor
    · rintro rfl
      exact ⟨rfl, rfl⟩
    · rintro ⟨rfl, hq⟩
      obtain ⟨s, p, qs, hs, hp⟩ := n
      subst hp hq
      rfl
  · next h =>
    simp only [reduceCtorEq, false_iff]
    rintro ⟨rfl, -⟩
    exact h n.isIdentifier_spelling

/-- The plain name of a column is the end of its text, so the last character belongs to it. -/
theorem ColumnName.isIdentifierPart_of_ofText {cs : List Char} {c : Char} {n : ColumnName}
    (h : ofText (String.ofList (cs ++ [c])) = .ok n) : isIdentifierPart c = true := by
  apply n.isIdentifierPart_of_mem_spelling
  rw [ofText, String.toList_ofList] at h
  split at h
  · rw [(make_ok_iff.1 h).1]
    simp
  · cases h
  · next d before after hsplit =>
    have heq := Text.eq_of_splitLast hsplit
    rw [(make_ok_iff.1 h).1, String.toList_ofList]
    rcases List.eq_nil_or_concat after with rfl | ⟨as, a, rfl⟩
    · -- no plain name is empty
      cases h
    · have heq' : cs ++ [c] = (d :: before ++ '.' :: as) ++ [a] := by simpa using heq
      simp [List.singleton_inj.1 (List.append_inj' heq' rfl).2]

/-- The column of a field is named as the field without the blanks around it. -/
theorem Column.ofField_ok_iff {field : String} {qualifiers : List String} {c : Column} :
    Column.ofField field qualifiers = .ok c ↔ ∃ n : ColumnName, n.spelling = Text.trim field ∧
      n.qualifiers = (qualifiers.map Text.lower).eraseDups ∧ c = Column.ofName n := by
  rw [Column.ofField, map_ok_iff]
  constructor
  · rintro ⟨n, hn, rfl⟩
    obtain ⟨hs, hq⟩ := ColumnName.make_ok_iff.1 hn
    exact ⟨n, hs, hq, rfl⟩
  · rintro ⟨n, hs, hq, rfl⟩
    exact ⟨n, ColumnName.make_ok_iff.2 ⟨hs, hq⟩, rfl⟩

/-- The column of a header field: it answers to what may mean the field, and it is printed as the
header spells it. -/
structure FieldColumn (r : Relation) (field : String) (c : Column) : Prop where
  answersTo : ∀ n, c.answersTo n = r.fieldAnswers field n
  spelling : c.primary.spelling = Text.trim field

theorem FieldColumn.plain {r : Relation} {field : String} {c : Column}
    (h : FieldColumn r field c) : c.primary.plain = Text.lower (Text.trim field) := by
  rw [c.primary.plain_eq, h.spelling]

/-- The column that is made for a field of a relation is the column of that field. -/
theorem fieldColumn_of_ofField {r : Relation} {field : String} {c : Column}
    (h : Column.ofField field [r.path, r.name] = .ok c) : FieldColumn r field c := by
  obtain ⟨own, hs, hq, rfl⟩ := Column.ofField_ok_iff.1 h
  refine ⟨fun n => ?_, hs⟩
  -- a column is qualified by the path and by the name of its relation
  have hmem : ∀ q, q ∈ own.qualifiers ↔ q = Text.lower r.path ∨ q = Text.lower r.name := by
    intro q
    rw [hq, List.mem_eraseDups]
    simp
  have hne : own.qualifiers ≠ [] := List.ne_nil_of_mem ((hmem _).2 (.inl rfl))
  rw [Column.answersTo_ofName, Bool.eq_iff_iff, ColumnName.denotes_iff, own.plain_eq, hs]
  simp only [Relation.fieldAnswers, Bool.and_eq_true, Bool.or_eq_true, List.isEmpty_iff,
    List.contains_iff_mem, beq_iff_eq, hne, false_or, hmem, and_congr_right_iff, or_assoc]
  intro _
  refine or_congr_right ⟨?_, ?_⟩
  · rintro ⟨q, hqn, rfl | rfl⟩
    · exact .inl hqn
    · exact .inr hqn
  · rintro (h | h)
    · exact ⟨_, h, .inl rfl⟩
    · exact ⟨_, h, .inr rfl⟩

/-- No text is repeated, and none of them was seen before. -/
def Fresh (seen names : List String) : Prop :=
  names.Nodup ∧ ∀ n ∈ names, n ∉ seen

theorem fresh_nil (seen : List String) : Fresh seen [] :=
  ⟨List.nodup_nil, fun _ hn => absurd hn List.not_mem_nil⟩

/-- Going through a list, each text is compared with those seen so far. -/
theorem fresh_cons {seen names : List String} {n : String} :
    Fresh seen (n :: names) ↔ n ∉ seen ∧ Fresh (seen ++ [n]) names := by
  rw [Fresh, Fresh, List.nodup_cons]
  constructor
  · rintro ⟨⟨hn, hnodup⟩, hseen⟩
    refine ⟨hseen n List.mem_cons_self, hnodup, fun m hm hmem => ?_⟩
    rcases List.mem_append.1 hmem with hmem | hmem
    · exact hseen m (List.mem_cons_of_mem n hm) hmem
    · exact hn (List.mem_singleton.1 hmem ▸ hm)
  · rintro ⟨hseen, hnodup, hrest⟩
    refine ⟨⟨fun hn => hrest n hn (List.mem_append_right _ (List.mem_singleton_self n)), hnodup⟩,
      fun m hm => ?_⟩
    rcases List.mem_cons.1 hm with rfl | hm
    · exact hseen
    · exact fun hmem => hrest m hm (List.mem_append_left _ hmem)

theorem fresh_nil_iff {names : List String} : Fresh [] names ↔ names.Nodup :=
  and_iff_left fun _ _ => List.not_mem_nil

namespace Table

/-- A header gives columns exactly when each field does and no plain name is repeated. -/
theorem headerColumns_ok_iff {path name : String} {seen fields : List String}
    {columns : List Column} :
    headerColumns path name seen fields = .ok columns ↔
      List.Forall₂ (fun f c => Column.ofField f [path, name] = .ok c) fields columns ∧
      Fresh seen (columns.map (·.primary.plain)) := by
  -- on the header, with the names that have been seen in front
  induction fields generalizing seen columns with
  | nil =>
    rw [headerColumns, Except.ok.injEq, List.forall₂_nil_left_iff]
    constructor
    · rintro rfl
      exact ⟨rfl, fresh_nil seen⟩
    · exact fun h => h.1.symm
  | cons f fs ih =>
    rw [headerColumns, bind_ok_iff, List.forall₂_cons_left_iff]
    constructor
    · rintro ⟨c, hc, h⟩
      split at h
      · cases h
      · next hseen =>
        obtain ⟨cs, hcs, h⟩ := bind_ok_iff.1 h
        obtain rfl := pure_ok_iff.1 h
        obtain ⟨hfs, hfresh⟩ := ih.1 hcs
        rw [List.contains_iff_mem] at hseen
        exact ⟨⟨c, cs, hc, hfs, rfl⟩, fresh_cons.2 ⟨hseen, hfresh⟩⟩
    · rintro ⟨⟨c, cs, hc, hfs, rfl⟩, hfresh⟩
      obtain ⟨hseen, hfresh⟩ := fresh_cons.1 hfresh
      rw [← List.contains_iff_mem] at hseen
      refine ⟨c, hc, ?_⟩
      rw [if_neg hseen]
      exact bind_ok_iff.2 ⟨cs, ih.2 ⟨hfs, hfresh⟩, rfl⟩

end Table

/-- The table of a relation, just opened: the rows of its file behind the header line, one column
per field of a valid header. -/
structure Opens (delimiter : Char) (r : Relation × List String) (t : Table) : Prop where
  header : ValidHeader r.2
  eq_mk : t = ⟨r.1.name, delimiter, .file r.1.path 1, t.columns, [], []⟩
  columns : List.Forall₂ (FieldColumn r.1) r.2 t.columns

theorem Opens.name {d : Char} {r : Relation × List String} {t : Table} (h : Opens d r t) :
    t.name = r.1.name := by
  rw [h.eq_mk]

namespace Query

/-- A relation is opened exactly when its file is found and has a valid header. -/
theorem openRelation_ok_iff {config : Config} {catalog : Catalog} {r : Relation} :
    (∃ t, openRelation config catalog r = .ok t) ↔
      ∃ fields, catalog.fields r.path config.delimiter = some fields ∧ ValidHeader fields := by
  have hofField : ∀ f, (∃ c, Column.ofField f [r.path, r.name] = .ok c) ↔
      isIdentifier (Text.trim f) = true := by
    intro f
    constructor
    · rintro ⟨c, hc⟩
      obtain ⟨n, hs, -, -⟩ := Column.ofField_ok_iff.1 hc
      exact hs ▸ n.isIdentifier_spelling
    · intro h
      exact ⟨_, Column.ofField_ok_iff.2 ⟨⟨Text.trim f, _, _, h, rfl⟩, rfl, rfl, rfl⟩⟩
  -- plain names are the fields themselves, without blanks and in lower case
  have hplain : ∀ {fields : List String} {columns : List Column},
      List.Forall₂ (fun f c => Column.ofField f [r.path, r.name] = .ok c) fields columns →
      columns.map (·.primary.plain) = fields.map fun f => Text.lower (Text.trim f) := by
    intro fields columns h
    induction h with
    | nil => rfl
    | cons hfc _ ih =>
      rw [List.map_cons, List.map_cons, ih, (fieldColumn_of_ofField hfc).plain]
  unfold openRelation Table.ofFile
  cases hf : catalog.fields r.path config.delimiter with
  | none => simp
  | some fields =>
    simp only [bind_ok_iff, pure_ok_iff, Option.some.injEq, exists_eq_left']
    change (∃ t columns, Table.headerColumns r.path r.name [] fields = .ok columns ∧ _ = t) ↔ _
    simp only [Table.headerColumns_ok_iff, fresh_nil_iff]
    constructor
    · rintro ⟨_, columns, ⟨hall, hnd⟩, -⟩
      refine ⟨fun f hfm => ?_, hplain hall ▸ hnd⟩
      obtain ⟨c, -, hc⟩ := exists_right_of_forall₂ hall hfm
      exact (hofField f).1 ⟨c, hc⟩
    · rintro ⟨hid, hnd⟩
      obtain ⟨columns, hall⟩ := exists_mapM_ok fun f hfm => (hofField f).2 (hid f hfm)
      rw [mapM_ok_iff] at hall
      exact ⟨_, columns, ⟨hall, hplain hall ▸ hnd⟩, rfl⟩

/-- What is opened for a relation is that relation with the header of its file. -/
theorem opens_of_openRelation {config : Config} {catalog : Catalog} {r : Relation} {t : Table}
    (h : openRelation config catalog r = .ok t) :
    Opens config.delimiter (r, (catalog.fields r.path config.delimiter).getD []) t := by
  obtain ⟨fields, hf, hvalid⟩ := openRelation_ok_iff.1 ⟨t, h⟩
  unfold openRelation Table.ofFile at h
  rw [hf] at h ⊢
  obtain ⟨columns, hcolumns, h⟩ := bind_ok_iff.1 h
  obtain rfl := pure_ok_iff.1 h
  obtain ⟨hall, -⟩ := Table.headerColumns_ok_iff.1 hcolumns
  exact ⟨hvalid, rfl, hall.imp fun _ _ => fieldColumn_of_ofField⟩

/-- The names of relations pass exactly when no two are equal, whatever the case. -/
theorem checkNames_ok_iff {relations : List Relation} :
    checkNames [] relations = .ok () ↔ (relations.map fun r => Text.lower r.name).Nodup := by
  -- the induction is on the relations still to come, behind the names seen before
  have hseen : ∀ seen, checkNames seen relations = .ok () ↔
      Fresh seen (relations.map fun r => Text.lower r.name) := by
    induction relations with
    | nil => exact fun seen => iff_of_true rfl (fresh_nil seen)
    | cons r rs ih =>
      intro seen
      rw [checkNames, List.map_cons, fresh_cons, ← ih]
      split
      · next h =>
        rw [List.contains_iff_mem] at h
        exact iff_of_false (by simp) fun hnot => hnot.1 h
      · next h =>
        rw [List.contains_iff_mem] at h
        exact (and_iff_right h).symm
  rw [hseen, fresh_nil_iff]

theorem nodup_of_checkNames {relations : List Relation} (h : checkNames [] relations = .ok ()) :
    (relations.map Relation.name).Nodup := by
  have hlower := checkNames_ok_iff.1 h
  refine List.Nodup.of_map Text.lower ?_
  rwa [List.map_map]

end Query

end ShellQuery
