import ShellQuery.Proofs.Table.Reachable
import ShellQuery.Proofs.Table.Rows

/-!
# The order of a table's rows

A table records by which columns its rows are sorted, and where the record says so no sort command
is put in front of a join. The record is kept by columns and not by positions, so it has to survive
projections, which move, repeat and drop columns, and labels, which change what a column is
identical to.

`Table.CanProduce` says which rows a table may have: sources may hold any rows, a filter may keep
any of them, a sample may be anything, and so may be the output of a join with an unsorted input.

* `SortedAt.project`, `SortedAt.label`: the positions of the sort columns through a change;
* `InOrder`: the rows are sorted as recorded, and every join has sorted inputs. Changes
  (`InOrder.change`) and joins (`InOrder.joinTable`) keep this, so it holds of every table that
  operations reach (`Reachable.inOrder`);
* `Reachable.rows_sorted`: the same said of the first positions of the sort columns. In every world
  such a table has rows.
-/

namespace ShellQuery

/-! ### Sorted rows -/

namespace Row

/-- Rows in order have their beginnings in order. -/
theorem le_of_append_le_append {a b x y : Row} (hlength : a.length = b.length)
    (h : a ++ x ≤ b ++ y) : a ≤ b := by
  induction a generalizing b with
  | nil =>
    obtain rfl := List.eq_nil_of_length_eq_zero hlength.symm
    exact le_refl _
  | cons s a ih =>
    cases b with
    | nil => exact absurd hlength (by simp)
    | cons s' b =>
      rw [List.cons_append, List.cons_append, cons_le_cons_iff] at h
      rw [cons_le_cons_iff]
      exact h.imp id fun h => ⟨h.1, ih (by simpa using hlength) h.2⟩

end Row

theorem sortedBy_nil (rows : List Row) : SortedBy [] rows :=
  List.pairwise_of_forall fun _ _ => le_refl []

theorem SortedBy.sublist {ps : List Nat} {rows kept : List Row} (h : SortedBy ps rows)
    (hkept : kept.Sublist rows) : SortedBy ps kept :=
  List.Pairwise.sublist hkept h

/-- Selecting fields moves the positions that rows are sorted by, and may drop the last ones. -/
theorem SortedBy.map_select {ps kept ps' positions : List Nat} {rows : List Row}
    (h : SortedBy ps rows) (hkept : kept <+: ps)
    (hps' : List.Forall₂ (fun p p' => positions[p']? = some p) kept ps') :
    SortedBy ps' (rows.map (Row.select positions)) := by
  -- the keys of a projected row are the kept keys of the row
  have hselect : ∀ row, Row.select ps' (Row.select positions row) = Row.select kept row := by
    intro row
    clear hkept
    induction hps' with
    | nil => rfl
    | @cons p p' _ _ hp _ ih =>
      have hfield : Row.field (Row.select positions row) p' = row.field p := Row.field_map hp
      rw [Row.select, List.map_cons, hfield]
      exact congrArg (row.field p :: ·) ih
  obtain ⟨dropped, rfl⟩ := hkept
  rw [SortedBy, List.pairwise_map]
  refine h.imp fun hle => ?_
  rw [hselect, hselect]
  unfold Row.select at hle
  rw [List.map_append, List.map_append] at hle
  exact Row.le_of_append_le_append
    (by rw [Row.select, Row.select, List.length_map, List.length_map]) hle

/-! ### The rows a table may have -/

/-- The rows that a step may make out of some rows. -/
inductive Step.Makes : Step → List Row → List Row → Prop where
  | project (positions : List Nat) (rows : List Row) :
      Makes (.project positions) rows (rows.map (Row.select positions))
  | filter (tests : List Awk.RowTest) (positions : List Nat) {kept rows : List Row}
      (h : kept.Sublist rows) :
      Makes (.filter tests positions) rows (kept.map (Row.select positions))
  | sort {positions : List Nat} {rows sorted : List Row} (perm : sorted.Perm rows)
      (h : SortedBy positions sorted) : Makes (.sort positions) rows sorted
  | sample (size : Nat) (seed : Option Nat) (rows drawn : List Row) :
      Makes (.sample size seed) rows drawn
  | count (position : Option Nat) (rows : List Row) (number : Nat) :
      Makes (.count position) rows [[toString number]]

/-- The rows that some steps may make out of some rows, one step after the other. -/
def Step.MakeAll : List Step → List Row → List Row → Prop
  | [], rows, made => made = rows
  | step :: steps, rows, made => ∃ between, step.Makes rows between ∧ MakeAll steps between made

mutual

/-- The rows that a table may have, whatever its files and commands hold. -/
def Table.CanProduce : Table → List Row → Prop
  | ⟨_, _, source, _, steps, _⟩, rows =>
    ∃ first, source.CanProduce first ∧ Step.MakeAll steps first rows

/-- The rows that a source may give. The join command keeps its promise on sorted inputs only. -/
def Source.CanProduce : Source Table → List Row → Prop
  | .file _ _, _ => True
  | .command _, _ => True
  | .join left right leftKey rightKey, rows => ∃ ls rs, left.CanProduce ls ∧ right.CanProduce rs ∧
      (SortedOn leftKey ls → SortedOn rightKey rs → rows.Perm (joinRows leftKey rightKey ls rs))

end

mutual

/-- Every join in the table gets inputs that are sorted on its keys. -/
def Table.JoinsSorted : Table → Prop
  | ⟨_, _, source, _, _, _⟩ => source.JoinsSorted

/-- Every join in the source gets inputs that are sorted on its keys. -/
def Source.JoinsSorted : Source Table → Prop
  | .file _ _ => True
  | .command _ => True
  | .join left right leftKey rightKey => (left.JoinsSorted ∧ right.JoinsSorted) ∧
      (∀ rows, left.CanProduce rows → SortedOn leftKey rows) ∧
      ∀ rows, right.CanProduce rows → SortedOn rightKey rows

end

/-- A further step makes the rows out of what the steps before it have made. -/
theorem Step.makeAll_append {steps : List Step} {step : Step} {rows made : List Row} :
    MakeAll (steps ++ [step]) rows made ↔
      ∃ between, MakeAll steps rows between ∧ step.Makes between made := by
  induction steps generalizing rows with
  | nil => simp [MakeAll]
  | cons s steps ih =>
    simp only [List.cons_append, MakeAll, ih]
    constructor
    · rintro ⟨first, hfirst, between, hbetween, hmade⟩
      exact ⟨between, ⟨first, hfirst, hbetween⟩, hmade⟩
    · rintro ⟨between, ⟨first, hfirst, hbetween⟩, hmade⟩
      exact ⟨first, hfirst, between, hbetween, hmade⟩

namespace Table

variable {t t' : Table}

/-- A step that is appended to a table acts on the rows that the table may have. -/
theorem canProduce_append {step : Step} {columns sorted : List Column} {made : List Row} :
    CanProduce { t with columns := columns, steps := t.steps ++ [step], sortedBy := sorted } made ↔
      ∃ rows, t.CanProduce rows ∧ step.Makes rows made := by
  obtain ⟨_, _, source, _, steps, _⟩ := t
  simp only [CanProduce, Step.makeAll_append]
  constructor
  · rintro ⟨first, hfirst, rows, hrows, hmade⟩
    exact ⟨rows, ⟨first, hfirst, hrows⟩, hmade⟩
  · rintro ⟨rows, ⟨first, hfirst, hrows⟩, hmade⟩
    exact ⟨first, hfirst, rows, hrows, hmade⟩

/-- What a table can produce depends on its source and steps only. -/
theorem CanProduce.congr {rows : List Row} (h : t.CanProduce rows)
    (hsource : t'.source = t.source) (hsteps : t'.steps = t.steps) : t'.CanProduce rows := by
  obtain ⟨_, _, source, _, steps, _⟩ := t
  obtain ⟨_, _, source', _, steps', _⟩ := t'
  obtain rfl : source' = source := hsource
  obtain rfl : steps' = steps := hsteps
  exact h

theorem joinsSorted_iff : t.JoinsSorted ↔ t.source.JoinsSorted := by
  cases t
  exact Iff.rfl

theorem JoinsSorted.congr (h : t.JoinsSorted) (hsource : t'.source = t.source) :
    t'.JoinsSorted := by
  rw [joinsSorted_iff, hsource]
  exact joinsSorted_iff.1 h

/-! ### Where the sort columns stand -/

/-- The sort columns stand at these positions, each as the first column with its names. -/
def SortedAt (t : Table) (positions : List Nat) : Prop :=
  List.Forall₂ (fun c p => t.columns[p]? = some c ∧ t.Leads p) t.sortedBy positions

/-- The first column that is identical to a leading one is that column itself. -/
theorem Leads.findIdx? {p : Nat} {c : Column} (h : t.Leads p) (hc : t.columns[p]? = some c) :
    t.columns.findIdx? (·.identical c) = some p := by
  obtain ⟨hp, hpc⟩ := List.getElem?_eq_some_iff.1 hc
  refine List.findIdx?_eq_some_iff_getElem.2 ⟨hp, by rw [hpc, Column.identical_refl], ?_⟩
  intro q hq hqc
  have hle := h.least hc (List.getElem?_eq_getElem (by omega)) (Column.sameNames_of_identical hqc)
  omega

/-- Behind a projection the sort columns stand where their positions have gone, up to the first one
that is dropped. -/
theorem SortedAt.project {ps positions : List Nat} (h : t.SortedAt ps)
    (hpositions : t.Rearranges positions) : ∃ kept ps', kept <+: ps ∧
      List.Forall₂ (fun p p' => positions[p']? = some p) kept ps' ∧
      (t.project positions (t.columnsAt positions)).SortedAt ps' := by
  have hcolumns := columnsAt_eq_of_lt hpositions.lt
  unfold SortedAt at h ⊢
  show ∃ kept ps', kept <+: ps ∧ _ ∧ List.Forall₂ _
    (mapWhile (t.successor? positions (t.columnsAt positions)) t.sortedBy) ps'
  generalize t.sortedBy = sorted at h
  induction h with
  | nil => exact ⟨[], [], List.nil_prefix, .nil, .nil⟩
  | @cons c p sorted ps hc _ ih =>
    obtain ⟨hc, hleads⟩ := hc
    cases hp : positions.idxOf? p with
    | none =>
      -- the column is dropped, and with it all that the rows were sorted by after it
      have hsuccessor : t.successor? positions (t.columnsAt positions) c = none := by
        simp only [successor?, hleads.findIdx? hc, Option.bind_eq_bind, Option.bind_some, hp,
          Option.bind_none]
      rw [mapWhile, hsuccessor]
      exact ⟨[], [], List.nil_prefix, .nil, .nil⟩
    | some p' =>
      obtain ⟨hlt, hp', hfirst⟩ := List.idxOf?_eq_some_iff.1 hp
      have hpp' : positions[p']? = some p := List.getElem?_eq_some_iff.2 ⟨hlt, hp'⟩
      obtain ⟨c', hc', hpc'⟩ := getElem?_of_forall₂ hcolumns hpp'
      obtain rfl : c' = c := Option.some.inj (hpc'.symm.trans hc)
      have hsuccessor : t.successor? positions (t.columnsAt positions) c' = some c' := by
        simp only [successor?, hleads.findIdx? hc, Option.bind_eq_bind, Option.bind_some, hp, hc']
      obtain ⟨kept, ps', hkept, hps', hsorted⟩ := ih
      rw [mapWhile, hsuccessor]
      refine ⟨p :: kept, p' :: ps', List.cons_prefix_cons.2 ⟨rfl, hkept⟩, .cons hpp' hps',
        .cons ⟨hc', c', hc', fun q' d hd hdc => ?_⟩ hsorted⟩
      -- a column with the same names comes from behind `p`, which stands first at `p'`
      obtain ⟨q, hq, hqd⟩ := getElem?_of_forall₂ hcolumns.flip hd
      obtain ⟨j, hj, hjp⟩ := hpositions.behind hleads hc hqd hdc hq
      obtain ⟨hjlt, hjp⟩ := List.getElem?_eq_some_iff.1 hjp
      by_contra hlt'
      exact hfirst j (by omega) hjp

theorem forall₂_names_labelWith (columns : List Column) (labels : List ColumnName) :
    List.Forall₂ (fun c d => d.names = c.names) columns (labelWith columns labels) := by
  induction columns generalizing labels with
  | nil => cases labels <;> exact .nil
  | cons c columns ih =>
    cases labels with
    | nil => exact List.forall₂_same.2 fun d _ => rfl
    | cons label labels => exact .cons rfl (ih labels)

/-- Labels leave the sort columns where they are. -/
theorem SortedAt.label {ps : List Nat} (h : t.SortedAt ps) (labels : List ColumnName) :
    (t.labelColumns labels).SortedAt ps := by
  have hnames := forall₂_names_labelWith t.columns labels
  unfold SortedAt at h ⊢
  show List.Forall₂ _ (mapWhile (t.successor? (List.range t.columns.length)
    (labelWith t.columns labels)) t.sortedBy) ps
  generalize t.sortedBy = sorted at h
  induction h with
  | nil => exact .nil
  | @cons c p sorted ps hc _ ih =>
    obtain ⟨hc, hleads⟩ := hc
    obtain ⟨c', hc', hcc'⟩ := getElem?_of_forall₂ hnames hc
    -- all positions are kept, so a position is its own successor
    have hp : (List.range t.columns.length).idxOf? p = some p := by
      have hlt := hleads.lt
      refine List.idxOf?_eq_some_iff.2 ⟨by simpa using hlt, List.getElem_range _, ?_⟩
      intro j hj
      rw [List.getElem_range]
      omega
    have hsuccessor : t.successor? (List.range t.columns.length)
        (labelWith t.columns labels) c = some c' := by
      simp only [successor?, hleads.findIdx? hc, Option.bind_eq_bind, Option.bind_some, hp, hc']
    rw [mapWhile, hsuccessor]
    refine .cons ⟨hc', c', hc', fun q d' hd' hdc' => ?_⟩ ih
    obtain ⟨d, hd, hdd'⟩ := getElem?_of_forall₂ hnames.flip hd'
    rw [Column.sameNames, hcc', hdd'] at hdc'
    exact hleads.least hc hd hdc'

theorem sortedAt_sort {keys : List Nat} (h : ∀ k ∈ keys, t.Leads k) :
    SortedAt { t with steps := t.steps ++ [.sort keys], sortedBy := t.columnsAt keys } keys := by
  have hcolumns := columnsAt_eq_of_lt fun k hk => (h k hk).lt
  have hleads := (List.forall₂_and_left _ _).2 ⟨h, hcolumns⟩
  exact hleads.flip.imp fun c k hk => ⟨hk.2, hk.1⟩

theorem SortedAt.lt {ps : List Nat} (h : t.SortedAt ps) {p : Nat} (hp : p ∈ ps) :
    p < t.columns.length := by
  obtain ⟨c, -, -, hleads⟩ := exists_left_of_forall₂ h hp
  exact hleads.lt

/-! ### Tables whose rows are in order -/

/-- The rows of the table are sorted as it records, and so are the inputs of every join in it. -/
structure InOrder (t : Table) : Prop where
  joins : t.JoinsSorted
  sorted : ∃ ps, t.SortedAt ps ∧ ∀ rows, t.CanProduce rows → SortedBy ps rows

/-- Nothing is said about rows of which no order is recorded. -/
theorem inOrder_of_sortedBy_eq_nil (hjoins : t.JoinsSorted) (h : t.sortedBy = []) : t.InOrder := by
  refine ⟨hjoins, [], ?_, fun rows _ => sortedBy_nil rows⟩
  rw [SortedAt, h]
  exact .nil

/-- A change keeps the rows of a table in the order that it records. -/
theorem InOrder.change (h : t.InOrder) (hchange : Change t t') : t'.InOrder := by
  have hjoins : t'.JoinsSorted := h.joins.congr hchange.source_eq
  obtain ⟨ps, hps, hsorted⟩ := h.sorted
  cases hchange with
  | unchanged => exact h
  | project hpositions =>
    obtain ⟨kept, ps', hkept, hps', hsortedAt⟩ := hps.project hpositions
    refine ⟨hjoins, ps', hsortedAt, fun made hmade => ?_⟩
    obtain ⟨rows, hrows, hmakes⟩ := canProduce_append.1 hmade
    cases hmakes
    exact (hsorted rows hrows).map_select hkept hps'
  | label labels =>
    refine ⟨hjoins, ps, hps.label labels, fun rows hrows => ?_⟩
    exact hsorted rows (hrows.congr rfl rfl)
  | sort _ hleads =>
    refine ⟨hjoins, _, sortedAt_sort hleads, fun made hmade => ?_⟩
    obtain ⟨rows, -, hmakes⟩ := canProduce_append.1 hmade
    cases hmakes with
    | sort _ hmade => exact hmade
  | filter _ =>
    refine ⟨hjoins, ps, hps, fun made hmade => ?_⟩
    obtain ⟨rows, hrows, hmakes⟩ := canProduce_append.1 hmade
    cases hmakes with
    | filter _ _ hkept =>
      -- a filter prints every field where it was
      have hfields : List.Forall₂ (fun p p' => (List.range t.columns.length)[p']? = some p)
          ps ps := List.forall₂_same.2 fun p hp => List.getElem?_range (hps.lt hp)
      exact ((hsorted rows hrows).sublist hkept).map_select List.prefix_rfl hfields
  | sample size seed => exact inOrder_of_sortedBy_eq_nil hjoins rfl
  | count _ => exact inOrder_of_sortedBy_eq_nil hjoins rfl

/-- Behind a sort for a join the first sort column has the names of the key. -/
theorem exists_sortedBy_ensureSorted {key : Nat} (keys : List Nat) {c : Column}
    (hc : t.columns[key]? = some c) : ∃ s ss,
      (t.ensureSorted (key :: keys).eraseDups).sortedBy = s :: ss ∧ s.sameNames c = true := by
  obtain ⟨more, hmore⟩ : ∃ more, (key :: keys).eraseDups = key :: more := ⟨_, List.eraseDups_cons⟩
  obtain ⟨more', hmore'⟩ : ∃ more', (key :: more).eraseDups = key :: more' :=
    ⟨_, List.eraseDups_cons⟩
  rw [hmore]
  unfold ensureSorted
  -- either the join's check passed or the sort's check did, or the table is sorted anew
  split
  · next hsorted =>
    rw [isSortedBy] at hsorted
    cases hsortedBy : t.sortedBy with
    | nil =>
      rw [hsortedBy] at hsorted
      exact absurd hsorted (by simp [beginsSorted])
    | cons s ss =>
      rw [hsortedBy, beginsSorted, hc, Option.any_some, Bool.and_eq_true] at hsorted
      refine ⟨s, ss, rfl, ?_⟩
      rw [Column.sameNames_comm]
      exact Column.sameNames_of_identical hsorted.1
  · have hcolumns : t.columnsAt (key :: more') = c :: t.columnsAt more' :=
      List.filterMap_cons_some hc
    unfold sortPositions
    simp only [hmore', hcolumns]
    split
    · next hsorted =>
      cases hsortedBy : t.sortedBy with
      | nil =>
        rw [hsortedBy] at hsorted
        exact absurd hsorted (by simp)
      | cons s ss =>
        rw [hsortedBy, List.length_cons, List.take_succ_cons, List.isEqv,
          Bool.and_eq_true] at hsorted
        exact ⟨s, ss, rfl, Column.sameNames_of_identical hsorted.1⟩
    · exact ⟨c, _, rfl, Column.sameNames_of_identical (Column.identical_refl c)⟩

/-- Behind a sort for a join the rows are sorted on the key. -/
theorem InOrder.sortedOn_ensureSorted {key : Nat} {keys : List Nat} (h : t.InOrder)
    (hkeys : ∀ k ∈ key :: keys, t.Leads k) {rows : List Row}
    (hrows : (t.ensureSorted (key :: keys).eraseDups).CanProduce rows) : SortedOn key rows := by
  have hleads := hkeys key List.mem_cons_self
  obtain ⟨c, hc, -⟩ := id hleads
  have hchange : Change t (t.ensureSorted (key :: keys).eraseDups) :=
    change_ensureSorted fun k hk => hkeys k (List.mem_eraseDups.1 hk)
  obtain ⟨-, ps, hps, hsorted⟩ := h.change hchange
  obtain ⟨s, ss, hsortedBy, hsc⟩ := exists_sortedBy_ensureSorted keys hc
  rw [SortedAt, hsortedBy] at hps
  obtain _ | ⟨⟨hs, hleads'⟩, -⟩ := hps
  -- both the key and the position of the first sort column lead the columns with these names
  have hle := hleads'.least hs (q := key) (d := c) (by rw [columns_ensureSorted, hc])
    (by rw [Column.sameNames_comm, hsc])
  have hge := hleads.least hc (by rwa [columns_ensureSorted] at hs) hsc
  obtain rfl := Nat.le_antisymm hle hge
  exact (hsorted rows hrows).sortedOn

/-- A join sorts its inputs where they are not known to be sorted. -/
theorem InOrder.joinTable {left right : Table} {key : Nat × Nat} {more : List (Nat × Nat)}
    (name : String) (h : left.InOrder) (h' : right.InOrder)
    (hpairs : LeadingPairs left right (key :: more)) :
    (joinTable left right key more name).InOrder := by
  have hjoins : (joinOn (left.ensureSorted ((key :: more).map (·.1)).eraseDups)
      (right.ensureSorted ((key :: more).map (·.2)).eraseDups) key.1 key.2 name).JoinsSorted := by
    refine ⟨⟨?_, ?_⟩, fun rows hrows => ?_, fun rows hrows => ?_⟩
    · exact (h.change hpairs.change_left).joins
    · exact (h'.change hpairs.change_right).joins
    · exact h.sortedOn_ensureSorted hpairs.leads_left hrows
    · exact h'.sortedOn_ensureSorted hpairs.leads_right hrows
  unfold Table.joinTable
  dsimp only
  split
  · exact inOrder_of_sortedBy_eq_nil hjoins rfl
  · exact inOrder_of_sortedBy_eq_nil (hjoins.congr rfl) rfl

theorem Bare.inOrder {fields : List String} (h : Bare fields t) : t.InOrder := by
  refine inOrder_of_sortedBy_eq_nil ?_ h.sortedBy
  rcases h.source with ⟨path, headerLines, hsource⟩ | ⟨text, hsource⟩
  · rw [joinsSorted_iff, hsource]
    trivial
  · rw [joinsSorted_iff, hsource]
    trivial

/-- Every table that operations reach has its rows in the order that it records. -/
theorem Reachable.inOrder {headers : List (List String)} (h : Reachable headers t) :
    t.InOrder :=
  Reachable.induction (P := fun _ t => t.InOrder) Bare.inOrder InOrder.change InOrder.joinTable h

end Table

/-! ### The rows in a world -/

/-- What a step does in a world is one of the things it may do. -/
theorem World.makes_run (w : World) (step : Step) (rows : List Row) :
    step.Makes rows (w.run step rows) := by
  cases step with
  | project positions => exact .project positions rows
  | filter tests positions => exact .filter tests positions List.filter_sublist
  | sort positions => exact .sort (List.mergeSort_perm _ _) (sortedBy_mergeSort positions rows)
  | sample size seed => exact .sample size seed rows _
  | count position =>
    cases position with
    | none => exact .count none rows _
    | some p => exact .count (some p) rows _

theorem World.makeAll_run (w : World) (steps : List Step) (rows : List Row) :
    Step.MakeAll steps rows (steps.foldl (fun rows step => w.run step rows) rows) := by
  induction steps generalizing rows with
  | nil => rfl
  | cons step steps ih => exact ⟨_, w.makes_run step rows, ih _⟩

mutual

/-- Where every join gets sorted inputs there are rows in every world. -/
theorem Table.exists_rows (w : World) :
    ∀ t : Table, t.JoinsSorted → ∃ rows, t.rows w = some rows ∧ t.CanProduce rows
  | ⟨_, _, source, _, steps, _⟩, h => by
    obtain ⟨first, hfirst, hcan⟩ := source.exists_rows w h
    exact ⟨_, by rw [Table.rows, hfirst]; rfl, first, hcan, w.makeAll_run steps first⟩

/-- A source whose joins are sorted has rows in every world. -/
theorem Source.exists_rows (w : World) :
    ∀ source : Source Table, source.JoinsSorted →
      ∃ rows, source.rows w = some rows ∧ source.CanProduce rows
  | .file path headerLines, _ => ⟨_, rfl, trivial⟩
  | .command text, _ => ⟨_, rfl, trivial⟩
  | .join left right leftKey rightKey, ⟨⟨hleft, hright⟩, hsorted, hsorted'⟩ => by
    obtain ⟨ls, hls, hcan⟩ := left.exists_rows w hleft
    obtain ⟨rs, hrs, hcan'⟩ := right.exists_rows w hright
    refine ⟨joinRows leftKey rightKey ls rs, ?_, ls, rs, hcan, hcan', fun _ _ => .refl _⟩
    rw [Source.rows, hls, hrs]
    simp [hsorted ls hcan, hsorted' rs hcan']

end

namespace Table

/-- The rows of every table that operations reach are sorted by the fields at the first positions of
its sort columns, every join in it gets inputs sorted on its keys, and so it has rows in every
world. -/
theorem Reachable.rows_sorted {headers : List (List String)} {t : Table}
    (h : Reachable headers t) :
    (∃ positions,
      List.Forall₂ (fun c p => t.columns.findIdx? (·.identical c) = some p) t.sortedBy positions ∧
      ∀ rows, t.CanProduce rows → SortedBy positions rows) ∧
    t.JoinsSorted ∧ ∀ w : World, ∃ rows, t.rows w = some rows ∧ t.CanProduce rows := by
  obtain ⟨hjoins, ps, hps, hsorted⟩ := h.inOrder
  refine ⟨⟨ps, ?_, hsorted⟩, hjoins, fun w => t.exists_rows w hjoins⟩
  exact hps.imp fun c p hp => hp.2.findIdx? hp.1

/-- The joined towns are sorted by one column, which stands where the rows are sorted by it. -/
theorem rows_sorted_townsByRegion :
    ∃ t, Reachable [["town", "region", "land"], ["land", "region", "chief"]] t ∧
      t.sortedBy.length = 1 ∧
      (∃ positions,
        List.Forall₂ (fun c p => t.columns.findIdx? (·.identical c) = some p) t.sortedBy
          positions ∧
        ∀ rows, t.CanProduce rows → SortedBy positions rows) ∧
      t.JoinsSorted ∧ ∀ w : World, ∃ rows, t.rows w = some rows ∧ t.CanProduce rows := by
  have hlength : townsByRegion.map (·.sortedBy.length) = .ok 1 := by decide +kernel
  obtain ⟨t, ht, hlength⟩ := map_ok_iff.1 hlength
  have hreachable := reachable_townsByRegion ht
  exact ⟨t, hreachable, hlength, hreachable.rows_sorted⟩

end Table

end ShellQuery
