import ShellQuery.Proofs.Checked.Lookup
import ShellQuery.Proofs.Table.SortOrder

/-!
# Checked operations on tables

The operations that look columns up by their positions, with every lookup checked. A position that
a name resolves to is there (`Table.Leads.lt`), and a projection lists one column for each of its
positions, so all lookups hit: `project_eq`, `reorderColumns_eq`, `labelColumns_eq`,
`isSortedBy_eq`, `sortPositions_eq`, `ensureSorted_eq`.
-/

namespace ShellQuery.Checked

/-! ### Choosing columns -/

/-- The sort columns that survive when the columns at `positions` become `columns`. -/
def remapSorted (t : Table) (positions : List Nat) (columns : List Column) :
    List Column → Except Stop (List Column)
  | [] => .ok []
  | sorted :: further =>
    match t.columns.findIdx? (·.identical sorted) with
    | none => .ok []
    | some old =>
      match positions.idxOf? old with
      | none => .ok []
      | some new => do
        let column ← lookup columns new
        let kept ← remapSorted t positions columns further
        return column :: kept

/-- Appends a projection onto `positions`, where the columns are then `columns`. -/
def project (t : Table) (positions : List Nat) (columns : List Column) : Except Stop Table := do
  let sorted ← remapSorted t positions columns t.sortedBy
  return { t with columns := columns, steps := t.steps ++ [.project positions], sortedBy := sorted }

/-- Moves the named columns to the front, in that order, and drops the others if asked to. -/
def reorderColumns (t : Table) (names : List ColumnName) (dropOthers : Bool) :
    Except Stop Table := do
  let requested ← lift (names.mapM t.resolve)
  let all := List.range t.columns.length
  let positions :=
    if dropOthers then requested else requested ++ all.filter (!requested.contains ·)
  if positions == all then return t
  else
    let columns ← positions.mapM (lookup t.columns)
    project t positions columns

/-- Gives the leading columns of the table new labels, one each. -/
def labelColumns (t : Table) (labels : List ColumnName) : Except Stop Table := do
  let columns := Table.labelWith t.columns labels
  let sorted ← remapSorted t (List.range t.columns.length) columns t.sortedBy
  return { t with columns := columns, sortedBy := sorted }

section

variable {t : Table} {positions : List Nat} {columns : List Column}

/-- Where there is a column for each position, no sort column is looked up in vain. -/
theorem remapSorted_eq (h : positions.length = columns.length) (sorted : List Column) :
    remapSorted t positions columns sorted =
      .ok (Table.mapWhile (t.successor? positions columns) sorted) := by
  induction sorted with
  | nil => rfl
  | cons c sorted ih =>
    rw [remapSorted, Table.mapWhile, Table.successor?]
    cases hold : t.columns.findIdx? (·.identical c) with
    | none => rfl
    | some old =>
      cases hnew : positions.idxOf? old with
      | none => simp [hnew]
      | some new =>
        -- a column that is looked up moved to one of the new positions
        have hlt : new < columns.length := by
          obtain ⟨hlt, -⟩ := List.findIdx?_eq_some_iff_getElem.1 hnew
          omega
        have hcolumn := List.getElem?_eq_getElem hlt
        simp only [hnew, Option.bind_eq_bind, Option.bind_some, hcolumn]
        rw [lookup_eq_ok hcolumn, ih]
        rfl

theorem project_eq (h : positions.length = columns.length) :
    project t positions columns = .ok (t.project positions columns) := by
  rw [project, remapSorted_eq h]
  rfl

theorem reorderColumns_eq (t : Table) (names : List ColumnName) (dropOthers : Bool) :
    reorderColumns t names dropOthers = lift (t.reorderColumns names dropOthers) := by
  refine bind_lift fun requested hrequested => ?_
  have hlt := (Table.rearranges_of_leads (Table.leads_of_mapM_resolve hrequested) dropOthers).lt
  dsimp only
  generalize (if dropOthers then requested
    else requested ++ (List.range t.columns.length).filter (!requested.contains ·)) = positions
    at hlt ⊢
  by_cases horder : (positions == List.range t.columns.length) = true
  · simp only [horder, ↓reduceIte]
    rfl
  · have hlength : positions.length = (t.columnsAt positions).length :=
      (Table.columnsAt_eq_of_lt hlt).length_eq
    simp only [horder, Bool.false_eq_true, ↓reduceIte]
    rw [mapM_lookup hlt]
    exact project_eq hlength

theorem labelColumns_eq (t : Table) (labels : List ColumnName) :
    labelColumns t labels = .ok (t.labelColumns labels) := by
  have hlength : t.columns.length = (Table.labelWith t.columns labels).length :=
    (Table.forall₂_names_labelWith t.columns labels).length_eq
  rw [labelColumns, remapSorted_eq (by rw [List.length_range, hlength])]
  rfl

end

/-! ### Sorting -/

/-- Whether the column at a position is the sort column of the given rank. -/
def isSortColumn (t : Table) (position rank : Nat) : Except Stop Bool := do
  let sorted ← lookup t.sortedBy rank
  return t.columns[position]?.any (·.identical sorted)

/-- Whether the rows are known to be sorted by the columns at some positions, in that order. -/
def isSortedBy (t : Table) (positions : List Nat) : Except Stop Bool :=
  if t.sortedBy.length < positions.length then .ok false
  else positions.zipIdx.allM fun p => isSortColumn t p.1 p.2

/-- Sorts by the columns at some positions, unless the rows are known to be sorted that way. -/
def sortPositions (t : Table) (positions : List Nat) : Except Stop Table := do
  let keys := positions.eraseDups
  let columns ← keys.mapM (lookup t.columns)
  let sorted : Table := { t with steps := t.steps ++ [.sort keys], sortedBy := columns }
  if t.sortedBy.length < columns.length then return sorted
  else
    let first ← firstOf t.sortedBy columns.length
    return if first.isEqv columns Column.identical then t else sorted

/-- Sorts by the columns at some positions unless the rows are known to be sorted by them. -/
def ensureSorted (t : Table) (positions : List Nat) : Except Stop Table := do
  if ← isSortedBy t positions then return t else sortPositions t positions

section

variable {t : Table} {positions : List Nat}

theorem beginsSorted_eq_false {sorted : List Column} (h : sorted.length < positions.length) :
    t.beginsSorted sorted positions = false := by
  induction positions generalizing sorted with
  | nil => exact absurd h (Nat.not_lt_zero _)
  | cons p positions ih =>
    cases sorted with
    | nil => rfl
    | cons s sorted =>
      rw [Table.beginsSorted, ih (Nat.lt_of_succ_lt_succ h), Bool.and_false]

/-- The rows' order is looked up at as many places as it has. -/
theorem allM_zipIdx_eq (i : Nat) (h : positions.length + i ≤ t.sortedBy.length) :
    ((positions.zipIdx i).allM fun p => isSortColumn t p.1 p.2) =
      .ok (t.beginsSorted (t.sortedBy.drop i) positions) := by
  -- on the positions; the check stops at the first sort column that differs
  induction positions generalizing i with
  | nil =>
    rw [Table.beginsSorted.eq_1]
    rfl
  | cons p positions ih =>
    rw [List.length_cons] at h
    have hi : i < t.sortedBy.length := by omega
    have hsorted := List.getElem?_eq_getElem hi
    rw [List.zipIdx_cons, List.allM, isSortColumn, lookup_eq_ok hsorted,
      List.drop_eq_getElem_cons hi, Table.beginsSorted]
    have hrest := ih (i + 1) (by omega)
    cases hcolumn : t.columns[p]?.any (·.identical t.sortedBy[i]) with
    | false =>
      rw [Bool.false_and]
      simp only [bind, Except.bind, pure, Except.pure, hcolumn]
    | true =>
      rw [Bool.true_and, ← hrest]
      simp only [bind, Except.bind, pure, Except.pure, hcolumn]

theorem isSortedBy_eq (t : Table) (positions : List Nat) :
    isSortedBy t positions = .ok (t.isSortedBy positions) := by
  rw [isSortedBy, Table.isSortedBy]
  by_cases hshort : t.sortedBy.length < positions.length
  · rw [if_pos hshort, beginsSorted_eq_false hshort]
  · have hlength : positions.length + 0 ≤ t.sortedBy.length := by omega
    rw [if_neg hshort, allM_zipIdx_eq 0 hlength, List.drop_zero]

theorem sortPositions_eq (h : ∀ p ∈ positions, p < t.columns.length) :
    sortPositions t positions = .ok (t.sortPositions positions) := by
  have hkeys : ∀ p ∈ positions.eraseDups, p < t.columns.length :=
    fun p hp => h p (List.mem_eraseDups.1 hp)
  rw [sortPositions, Table.sortPositions, mapM_lookup hkeys]
  show (if t.sortedBy.length < (t.columnsAt positions.eraseDups).length then _ else _) = _
  by_cases hshort : t.sortedBy.length < (t.columnsAt positions.eraseDups).length
  · -- an order by fewer columns is another one
    have hne : ((t.sortedBy.take (t.columnsAt positions.eraseDups).length).isEqv
        (t.columnsAt positions.eraseDups) Column.identical) = false := by
      rw [List.isEqv_eq_decide]
      apply dif_neg
      rw [List.length_take]
      omega
    simp only [hshort, hne, ↓reduceIte, Bool.false_eq_true]
    rfl
  · simp only [hshort, ↓reduceIte]
    have hfirst := firstOf_eq_ok (Nat.le_of_not_lt hshort)
    exact congrArg (· >>= _) hfirst

theorem ensureSorted_eq (h : ∀ p ∈ positions, p < t.columns.length) :
    ensureSorted t positions = .ok (t.ensureSorted positions) := by
  rw [ensureSorted, Table.ensureSorted, isSortedBy_eq]
  cases t.isSortedBy positions with
  | true => rfl
  | false => exact sortPositions_eq h

end

end ShellQuery.Checked
