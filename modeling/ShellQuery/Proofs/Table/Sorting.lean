import ShellQuery.Proofs.Formula.NormalForm
import ShellQuery.Proofs.Table.Reordering

/-!
# Sorting what is sorted already

Whether a sort is needed is asked in two ways. A join looks up the columns at some positions one
after the other; a sort leaves out repeated positions and compares the columns at the others with as
many sort columns of the table. Both go by identical columns and not by positions, so a copy of a
column does in its place.

`OrderedBy` is what the two mean: the sort columns begin with columns that are identical to those at
the positions.

* `isSortedBy_iff`, `isEqv_columnsAt_iff`: both checks find out whether this is so, the second one
  for positions within the table;
* `OrderedBy.of_prefix`, `orderedBy_sortPositions`: rows ordered by some columns are ordered by the
  first of them, and every sort brings its own order about;
* `sortPositions_settles`: a sort changes a table exactly where the join's check fails on it, and
  after it neither check asks for a sort by the same columns or by the first of them.
-/

namespace ShellQuery

namespace Table

variable {t : Table} {positions : List Nat}

/-- A column identical to `s` stands at the position. -/
def StandsAt (t : Table) (p : Nat) (s : Column) : Prop :=
  ∃ c, t.columns[p]? = some c ∧ c.identical s = true

/-- The rows are known to be sorted by columns identical to those at the positions, in that
order. -/
def OrderedBy (t : Table) (positions : List Nat) : Prop :=
  ∃ sorted, sorted <+: t.sortedBy ∧ List.Forall₂ t.StandsAt positions sorted

/-- An order by some columns is an order by the first of them. -/
theorem OrderedBy.of_prefix {first : List Nat} (h : t.OrderedBy positions)
    (hfirst : first <+: positions) : t.OrderedBy first := by
  obtain ⟨sorted, hsorted, hcolumns⟩ := h
  have htake := List.forall₂_take first.length hcolumns
  rw [← List.prefix_iff_eq_take.1 hfirst] at htake
  exact ⟨_, (List.take_prefix _ _).trans hsorted, htake⟩

/-! ### The check of a join -/

theorem beginsSorted_iff {sorted : List Column} : t.beginsSorted sorted positions = true ↔
    ∃ first, first <+: sorted ∧ List.Forall₂ t.StandsAt positions first := by
  -- on the positions, each of which is compared with one sort column
  induction positions generalizing sorted with
  | nil =>
    rw [beginsSorted.eq_1]
    exact iff_of_true rfl ⟨[], List.nil_prefix, .nil⟩
  | cons p positions ih =>
    cases sorted with
    | nil =>
      rw [beginsSorted.eq_2]
      apply iff_of_false Bool.false_ne_true
      rintro ⟨first, hfirst, hcolumns⟩
      rw [List.prefix_nil.1 hfirst] at hcolumns
      cases hcolumns
    | cons s sorted =>
      rw [beginsSorted, Bool.and_eq_true, ih, Option.any_eq_true]
      constructor
      · rintro ⟨hp, first, hfirst, hcolumns⟩
        exact ⟨s :: first, List.cons_prefix_cons.2 ⟨rfl, hfirst⟩, .cons hp hcolumns⟩
      · rintro ⟨first, hfirst, hcolumns⟩
        cases hcolumns with
        | cons hp hcolumns =>
          obtain ⟨rfl, hrest⟩ := List.cons_prefix_cons.1 hfirst
          exact ⟨hp, _, hrest, hcolumns⟩

theorem isSortedBy_iff : t.isSortedBy positions = true ↔ t.OrderedBy positions :=
  beginsSorted_iff

/-! ### The check of a sort -/

/-- A sort compares the other way round, and it would pass over positions outside of the table. -/
theorem isEqv_columnsAt_iff (h : ∀ p ∈ positions, p < t.columns.length) :
    (t.sortedBy.take (t.columnsAt positions).length).isEqv (t.columnsAt positions)
      Column.identical = true ↔ t.OrderedBy positions := by
  have hcolumns := columnsAt_eq_of_lt h
  rw [isEqv_iff_forall₂]
  constructor
  · intro hsame
    refine ⟨_, List.take_prefix _ _, (forall₂_of_common hcolumns.flip hsame.flip).imp ?_⟩
    rintro p s ⟨c, -, hc, hsc⟩
    exact ⟨c, hc, by rwa [Column.identical_comm]⟩
  · rintro ⟨sorted, hsorted, hidentical⟩
    have hlength : (t.columnsAt positions).length = sorted.length :=
      hcolumns.length_eq.symm.trans hidentical.length_eq
    rw [hlength, ← List.prefix_iff_eq_take.1 hsorted]
    refine (forall₂_of_common hidentical hcolumns).imp ?_
    rintro s c ⟨p, -, ⟨d, hd, hds⟩, hc⟩
    obtain rfl : d = c := Option.some.inj (hd.symm.trans hc)
    rwa [Column.identical_comm]

theorem lt_of_mem_eraseDups (h : ∀ p ∈ positions, p < t.columns.length) :
    ∀ p ∈ positions.eraseDups, p < t.columns.length :=
  fun p hp => h p (List.mem_eraseDups.1 hp)

theorem sortPositions_of_orderedBy (h : ∀ p ∈ positions, p < t.columns.length)
    (hordered : t.OrderedBy positions.eraseDups) : t.sortPositions positions = t := by
  unfold sortPositions
  exact if_pos ((isEqv_columnsAt_iff (lt_of_mem_eraseDups h)).2 hordered)

theorem sortPositions_of_not_orderedBy (h : ∀ p ∈ positions, p < t.columns.length)
    (hunordered : ¬t.OrderedBy positions.eraseDups) : t.sortPositions positions =
      { t with
        steps := t.steps ++ [.sort positions.eraseDups]
        sortedBy := t.columnsAt positions.eraseDups } := by
  unfold sortPositions
  exact if_neg (mt (isEqv_columnsAt_iff (lt_of_mem_eraseDups h)).1 hunordered)

/-- A sort changes a table exactly if the table is not known to be sorted that way. -/
theorem sortPositions_eq_self_iff (h : ∀ p ∈ positions, p < t.columns.length) :
    t.sortPositions positions = t ↔ t.OrderedBy positions.eraseDups := by
  constructor
  · intro hsame
    by_contra hunordered
    rw [sortPositions_of_not_orderedBy h hunordered] at hsame
    -- there is one step more than before
    have hsteps : t.steps ++ [.sort positions.eraseDups] = t.steps := congrArg Table.steps hsame
    exact List.cons_ne_nil _ _ (List.append_right_eq_self.1 hsteps)
  · exact sortPositions_of_orderedBy h

/-! ### After a sort -/

theorem columns_sortPositions (t : Table) (positions : List Nat) :
    (t.sortPositions positions).columns = t.columns := by
  unfold sortPositions
  dsimp only
  split <;> rfl

theorem orderedBy_sortPositions (h : ∀ p ∈ positions, p < t.columns.length) :
    (t.sortPositions positions).OrderedBy positions.eraseDups := by
  by_cases hordered : t.OrderedBy positions.eraseDups
  · rwa [sortPositions_of_orderedBy h hordered]
  · rw [sortPositions_of_not_orderedBy h hordered]
    refine ⟨_, List.prefix_rfl, (columnsAt_eq_of_lt (lt_of_mem_eraseDups h)).imp ?_⟩
    exact fun p c hc => ⟨c, hc, c.identical_refl⟩

/-- A join that asks before it sorts does what a sort does. -/
theorem ensureSorted_eraseDups (h : ∀ p ∈ positions, p < t.columns.length) :
    t.ensureSorted positions.eraseDups = t.sortPositions positions := by
  unfold ensureSorted
  split
  · next hsorted => exact (sortPositions_of_orderedBy h (isSortedBy_iff.1 hsorted)).symm
  · unfold sortPositions
    rw [Formula.eraseDups_eraseDups]

/-- A sort leaves the table as it is exactly where the check of a join succeeds on the positions
without their repetitions, so that a join sorts as a sort does. Behind the sort the check succeeds
on these positions and on the first of them, and a sort by positions that are the same ones, or the
first of them, up to repetitions leaves the table as it is. -/
theorem sortPositions_settles (h : ∀ p ∈ positions, p < t.columns.length) :
    (t.sortPositions positions = t ↔ t.isSortedBy positions.eraseDups = true) ∧
    t.ensureSorted positions.eraseDups = t.sortPositions positions ∧
    (∀ first, first <+: positions.eraseDups →
      (t.sortPositions positions).isSortedBy first = true) ∧
    ∀ again : List Nat, again.eraseDups <+: positions.eraseDups →
      (t.sortPositions positions).sortPositions again = t.sortPositions positions := by
  -- a sort brings its order about, so everything else follows from the order
  have hordered := orderedBy_sortPositions h
  refine ⟨?_, ensureSorted_eraseDups h, fun first hfirst => ?_, fun again hagain => ?_⟩
  · rw [sortPositions_eq_self_iff h, isSortedBy_iff]
  · exact isSortedBy_iff.2 (hordered.of_prefix hfirst)
  · have hlt : ∀ p ∈ again, p < (t.sortPositions positions).columns.length := by
      intro p hp
      rw [columns_sortPositions]
      exact lt_of_mem_eraseDups h p (hagain.subset (List.mem_eraseDups.2 hp))
    exact sortPositions_of_orderedBy hlt (hordered.of_prefix hagain)

/-- The rows are known to be sorted by land and region, and the second copy of the land will do. A
sort by town and region is made once. -/
theorem sortPositions_landTwice : ∃ t, landTwice = .ok t ∧
    (∀ p ∈ [2, 0, 2], p < t.columns.length) ∧ t.isSortedBy [2, 0] = true ∧
    t.sortPositions [2, 0, 2] = t ∧
    (∀ p ∈ [3, 0, 3], p < t.columns.length) ∧ t.isSortedBy [3, 0] = false ∧
    t.sortPositions [3, 0, 3] ≠ t ∧ (t.sortPositions [3, 0, 3]).isSortedBy [3, 0] = true ∧
    (t.sortPositions [3, 0, 3]).sortPositions [3, 3] = t.sortPositions [3, 0, 3] := by
  obtain ⟨t, ht, hlt, hsorted, hlt', hunsorted⟩ : ∃ t, landTwice = .ok t ∧
      (∀ p ∈ [2, 0, 2], p < t.columns.length) ∧ t.isSortedBy [2, 0] = true ∧
      (∀ p ∈ [3, 0, 3], p < t.columns.length) ∧ t.isSortedBy [3, 0] = false :=
    ⟨_, rfl, by decide, rfl, by decide, rfl⟩
  obtain ⟨hsame, -⟩ := sortPositions_settles hlt
  obtain ⟨hchanged, -, hfirst, hagain⟩ := sortPositions_settles hlt'
  refine ⟨t, ht, hlt, hsorted, hsame.2 hsorted, hlt', hunsorted, fun h => ?_, ?_, ?_⟩
  · exact Bool.false_ne_true (hunsorted.symm.trans (hchanged.1 h))
  · exact hfirst _ List.prefix_rfl
  · exact hagain [3, 3] ⟨[0], rfl⟩

end Table

end ShellQuery
