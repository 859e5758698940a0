import Mathlib.Data.List.TakeWhile
import ShellQuery.Proofs.Table.SortOrder

/-!
# Reordering columns

Moving columns to the front moves the fields of every row along with them, and it keeps what is known
about the order of the rows up to the first sort column that is dropped
(`remapSorted_eq_takeWhile`).

Asking for the same order twice is asking for it once if no column is asked for twice. A name is
found in the reordered table where the column it means has gone, copies of that column being further
behind (`resolve_project`). So the second request finds the columns in place.

`reorderColumns_arranges` puts all this together.
-/

namespace ShellQuery

/-- Whether a column identical to this one is among some columns. -/
def Column.isAmong (c : Column) (columns : List Column) : Bool :=
  columns.any (·.identical c)

theorem Column.isAmong_of_mem {c : Column} {columns : List Column} (h : c ∈ columns) :
    c.isAmong columns = true :=
  List.any_eq_true.2 ⟨c, h, identical_refl c⟩

namespace Table

variable {t t' : Table} {names : List ColumnName} {requested positions : List Nat}

/-- The positions that columns come from when those at `requested` are moved to the front. -/
def arrangement (t : Table) (requested : List Nat) (dropOthers : Bool) : List Nat :=
  if dropOthers then requested
  else requested ++ (List.range t.columns.length).filter (!requested.contains ·)

theorem reorderColumns_ok_iff {dropOthers : Bool} (hnames : names.mapM t.resolve = .ok requested) :
    t.reorderColumns names dropOthers = .ok t' ↔
      t' = if t.arrangement requested dropOthers == List.range t.columns.length then t
        else t.project (t.arrangement requested dropOthers)
          (t.columnsAt (t.arrangement requested dropOthers)) := by
  rw [reorderColumns, hnames]
  exact pure_ok_iff.trans eq_comm

theorem requested_prefix_arrangement (t : Table) (requested : List Nat) (dropOthers : Bool) :
    requested <+: t.arrangement requested dropOthers := by
  unfold arrangement
  split
  · exact List.prefix_rfl
  · exact List.prefix_append _ _

/-- The first positions in their order, and then the others, are all positions in their order. -/
theorem arrangement_range {k : Nat} (hk : k ≤ t.columns.length) {dropOthers : Bool}
    (hdrop : dropOthers = true → k = t.columns.length) :
    t.arrangement (List.range k) dropOthers = List.range t.columns.length := by
  unfold arrangement
  split
  · next h => rw [hdrop h]
  · obtain ⟨m, hm⟩ := Nat.exists_eq_add_of_le hk
    rw [hm, List.range_add, List.filter_append]
    -- the first columns are requested already, the others are not
    have hfirst : (List.range k).filter (!(List.range k).contains ·) = [] := by
      rw [List.filter_eq_nil_iff]
      simp
    have hothers : ((List.range m).map (k + ·)).filter (!(List.range k).contains ·) =
        (List.range m).map (k + ·) := by
      rw [List.filter_eq_self]
      simp
    rw [hfirst, hothers, List.nil_append]

/-! ### Where names are found -/

/-- A name is found where its column has gone: at the first of the positions that it comes from. -/
theorem resolve_project {n : ColumnName} {p i : Nat} (hleads : ∀ q ∈ positions.take i, t.Leads q)
    (hlt : ∀ q ∈ positions, q < t.columns.length) (hp : t.resolve n = .ok p)
    (hi : positions[i]? = some p) (hfirst : p ∉ positions.take i) :
    (t.project positions (t.columnsAt positions)).resolve n = .ok i := by
  have hcolumns := columnsAt_eq_of_lt hlt
  obtain ⟨c, hc, hcn, hbefore, hall⟩ := tryResolve_eq_some_iff.1 (resolve_eq_ok_iff.1 hp)
  have hcp := leads_of_resolve hp
  obtain ⟨c', hc', hpc'⟩ := getElem?_of_forall₂ hcolumns hi
  obtain rfl : c' = c := Option.some.inj (hpc'.symm.trans hc)
  -- the columns of the projection are columns of the table
  have hfrom : ∀ {j d}, (t.columnsAt positions)[j]? = some d →
      ∃ q, positions[j]? = some q ∧ t.columns[q]? = some d :=
    fun hd => getElem?_of_forall₂ hcolumns.flip hd
  rw [resolve_eq_ok_iff, tryResolve_eq_some_iff]
  refine ⟨c', hc', hcn, fun j d hj hd => ?_, fun d hd hdn => ?_⟩
  · -- a column before it that answered to the name would be the same one
    obtain ⟨q, hq, hqd⟩ := hfrom hd
    have hqmem : q ∈ positions.take i :=
      List.mem_of_getElem? (by rw [List.getElem?_take_of_lt hj, hq])
    by_contra hdn
    have hsame := hall d (List.mem_of_getElem? hqd) (by simpa using hdn)
    have hnames := Column.sameNames_of_identical hsame
    have hpq : p ≤ q := hcp.least hc hqd (by rwa [Column.sameNames_comm])
    have hqp : q ≤ p := (hleads q hqmem).least hqd hc hnames
    exact hfirst (Nat.le_antisymm hpq hqp ▸ hqmem)
  · obtain ⟨j, hj⟩ := List.mem_iff_getElem?.1 hd
    obtain ⟨q, -, hqd⟩ := hfrom hj
    exact hall d (List.mem_of_getElem? hqd) hdn

/-- Names that mean different columns are found in the order that they were asked for. -/
theorem mapM_resolve_project {dropOthers : Bool} (hnames : names.mapM t.resolve = .ok requested)
    (hnodup : requested.Nodup) :
    names.mapM (t.project (t.arrangement requested dropOthers)
        (t.columnsAt (t.arrangement requested dropOthers))).resolve =
      .ok (List.range requested.length) := by
  have hleads := leads_of_mapM_resolve hnames
  have hlt := (rearranges_of_leads hleads dropOthers).lt
  obtain ⟨others, hothers⟩ := requested_prefix_arrangement t requested dropOthers
  have hforall := mapM_ok_iff.1 hnames
  refine mapM_ok_iff.2 (List.forall₂_iff_get.2 ⟨?_, fun i hi hi' => ?_⟩)
  · rw [hforall.length_eq, List.length_range]
  · rw [List.length_range] at hi'
    have hp := (List.forall₂_iff_get.1 hforall).2 i hi hi'
    have htake : (t.arrangement requested dropOthers).take i = requested.take i := by
      rw [← hothers, List.take_append_of_le_length hi'.le]
    rw [List.get_eq_getElem, List.get_eq_getElem, List.getElem_range]
    -- each name is found at the place it was requested for, as no column in front has its names
    refine resolve_project ?_ hlt hp ?_ ?_
    · rw [htake]
      exact fun q hq => hleads q (List.mem_of_mem_take hq)
    · rw [← hothers, List.getElem?_append_left hi', List.getElem?_eq_getElem hi']
      rfl
    · rw [htake]
      intro hmem
      obtain ⟨j, hj, hji⟩ := List.mem_iff_getElem.1 hmem
      rw [List.getElem_take, List.get_eq_getElem] at hji
      have hij : j = i := hnodup.getElem_inj_iff.1 hji
      rw [List.length_take] at hj
      omega

/-! ### What is known about the order of rows -/

/-- A projection keeps the sort columns up to the first one that is not there any more. -/
theorem remapSorted_eq_takeWhile {ps : List Nat} (hsorted : t.SortedAt ps)
    (hpositions : t.Rearranges positions) :
    t.remapSorted positions (t.columnsAt positions) =
      t.sortedBy.takeWhile (·.isAmong (t.columnsAt positions)) := by
  have hcolumns := columnsAt_eq_of_lt hpositions.lt
  unfold SortedAt at hsorted
  rw [remapSorted]
  generalize t.sortedBy = sorted at hsorted
  induction hsorted with
  | nil => rfl
  | @cons c p sorted ps hc _ ih =>
    obtain ⟨hc, hleads⟩ := hc
    cases hp : positions.idxOf? p with
    | some i =>
      obtain ⟨hlt, hpi, -⟩ := List.idxOf?_eq_some_iff.1 hp
      obtain ⟨c', hc', hpc'⟩ := getElem?_of_forall₂ hcolumns
        (List.getElem?_eq_some_iff.2 ⟨hlt, hpi⟩)
      obtain rfl : c' = c := Option.some.inj (hpc'.symm.trans hc)
      have hsuccessor : t.successor? positions (t.columnsAt positions) c' = some c' := by
        simp only [successor?, hleads.findIdx? hc, Option.bind_eq_bind, Option.bind_some, hp, hc']
      have hpresent : c'.isAmong (t.columnsAt positions) = true :=
        Column.isAmong_of_mem (List.mem_of_getElem? hc')
      rw [mapWhile, hsuccessor, List.takeWhile_cons, if_pos hpresent, ← ih]
    | none =>
      have hsuccessor : t.successor? positions (t.columnsAt positions) c = none := by
        simp only [successor?, hleads.findIdx? hc, Option.bind_eq_bind, Option.bind_some, hp,
          Option.bind_none]
      -- a column identical to it would have brought it along
      have habsent : ¬c.isAmong (t.columnsAt positions) = true := by
        intro hany
        obtain ⟨d, hd, hdc⟩ := List.any_eq_true.1 hany
        obtain ⟨i, hi⟩ := List.mem_iff_getElem?.1 hd
        obtain ⟨q, hq, hqd⟩ := getElem?_of_forall₂ hcolumns.flip hi
        obtain ⟨j, -, hj⟩ := hpositions.behind hleads hc hqd (Column.sameNames_of_identical hdc) hq
        exact List.idxOf?_eq_none_iff.1 hp (List.mem_of_getElem? hj)
      rw [mapWhile, hsuccessor, List.takeWhile_cons, if_neg habsent]

/-! ### Columns, rows and order together -/

/-- Reordering columns moves data and metadata together. The columns come from the positions of the
arrangement, and so do the fields of every row. The rows of a table that operations reach stay
sorted by the sort columns that are still there, up to the first one that is not. Where all
requested columns are different, asking for them again changes nothing. -/
theorem reorderColumns_arranges {dropOthers : Bool} (hnames : names.mapM t.resolve = .ok requested)
    (h : t.reorderColumns names dropOthers = .ok t') :
    List.Forall₂ (fun p c => t.columns[p]? = some c) (t.arrangement requested dropOthers)
      t'.columns ∧
    (∀ (w : World) rows, t.rows w = some rows → ∃ rows', t'.rows w = some rows' ∧
      List.Forall₂ (fun row row' => ∀ i p, (t.arrangement requested dropOthers)[i]? = some p →
        Row.field row' i = Row.field row p) rows rows') ∧
    (∀ headers, Reachable headers t →
      t'.sortedBy = t.sortedBy.takeWhile (·.isAmong t'.columns)) ∧
    (requested.Nodup → t'.reorderColumns names dropOthers = .ok t') := by
  have hrearranges : t.Rearranges (t.arrangement requested dropOthers) :=
    rearranges_of_leads (leads_of_mapM_resolve hnames) dropOthers
  have hcolumns := columnsAt_eq_of_lt hrearranges.lt
  have hresult := (reorderColumns_ok_iff hnames).1 h
  split at hresult
  · -- the columns are in place
    next heq =>
    subst hresult
    have hrange := beq_iff_eq.1 heq
    refine ⟨?_, fun w rows hrows => ⟨rows, hrows, ?_⟩, fun headers hreach => ?_, fun _ => h⟩
    · rw [hrange]
      exact List.forall₂_iff_get.2 ⟨List.length_range, fun i _ hi => by simp [hi]⟩
    · refine List.forall₂_same.2 fun row _ i p hp => ?_
      rw [hrange] at hp
      obtain ⟨_, hip⟩ := List.getElem?_eq_some_iff.1 hp
      rw [List.getElem_range] at hip
      rw [hip]
    · obtain ⟨ps, hps, -⟩ := hreach.inOrder.sorted
      refine (List.takeWhile_eq_self_iff.2 fun s hs => ?_).symm
      obtain ⟨p, -, hp, -⟩ := exists_right_of_forall₂ hps hs
      exact Column.isAmong_of_mem (List.mem_of_getElem? hp)
  · subst hresult
    refine ⟨hcolumns, fun w rows hrows => ⟨_, rows_append hrows _ _ _, ?_⟩, fun headers hreach => ?_,
      fun hnodup => ?_⟩
    · refine List.forall₂_map_right_iff.2 (List.forall₂_same.2 fun row _ i p hp => ?_)
      exact Row.field_map hp
    · obtain ⟨ps, hps, -⟩ := hreach.inOrder.sorted
      exact remapSorted_eq_takeWhile hps hrearranges
    · -- the columns that were asked for are now the first ones
      refine (reorderColumns_ok_iff (mapM_resolve_project hnames hnodup)).2 ?_
      have hle := (requested_prefix_arrangement t requested dropOthers).length_le
      rw [arrangement_range, if_pos (beq_iff_eq.2 rfl)]
      · exact hle.trans hcolumns.length_eq.le
      · intro hdrop
        have heq : t.arrangement requested dropOthers = requested := if_pos hdrop
        exact (congrArg List.length heq).symm.trans hcolumns.length_eq

/-- Towns sorted by land and region, with the land standing twice. -/
def landTwice : Except PlanError Table := do
  let land ← ColumnName.ofText "land"
  let region ← ColumnName.ofText "region"
  let towns ← ofCommand "t" "towns" ["town", "region", "land"] ','
  let sorted ← towns.sort [land, region]
  sorted.reorderColumns [region, land, land] false

theorem reachable_landTwice {t : Table} (h : landTwice = .ok t) :
    Reachable [["town", "region", "land"]] t := by
  obtain ⟨land, -, h⟩ := bind_ok_iff.1 h
  obtain ⟨region, -, h⟩ := bind_ok_iff.1 h
  obtain ⟨towns, htowns, h⟩ := bind_ok_iff.1 h
  obtain ⟨sorted, hsorted, h⟩ := bind_ok_iff.1 h
  exact ((Reachable.ofCommand htowns).sort _ hsorted).reorderColumns _ _ h

/-- With the region dropped, the rows are still known to be sorted by the land, which is now the
second column. Its copy is dropped too. -/
theorem reorderColumns_landTwice : ∃ t t' town land, landTwice = .ok t ∧
    ColumnName.ofText "town" = .ok town ∧ ColumnName.ofText "t.LAND" = .ok land ∧
    [town, land].mapM t.resolve = .ok [3, 1] ∧ t.reorderColumns [town, land] true = .ok t' ∧
    List.Forall₂ (fun p c => t.columns[p]? = some c) [3, 1] t'.columns ∧
    t'.sortedBy = t.sortedBy.takeWhile (·.isAmong t'.columns) ∧ t'.sortedBy.length = 1 ∧
    t'.reorderColumns [town, land] true = .ok t' := by
  obtain ⟨t, t', town, land, ht, htown, hland, hnames, ht', hlength⟩ : ∃ t t' town land,
      landTwice = .ok t ∧ ColumnName.ofText "town" = .ok town ∧
      ColumnName.ofText "t.LAND" = .ok land ∧ [town, land].mapM t.resolve = .ok [3, 1] ∧
      t.reorderColumns [town, land] true = .ok t' ∧ t'.sortedBy.length = 1 :=
    ⟨_, _, _, _, rfl, rfl, rfl, rfl, rfl, rfl⟩
  obtain ⟨hcolumns, -, hsorted, hagain⟩ := reorderColumns_arranges hnames ht'
  exact ⟨t, t', town, land, ht, htown, hland, hnames, ht', hcolumns,
    hsorted _ (reachable_landTwice ht), hlength, hagain (by decide)⟩

end Table

end ShellQuery
