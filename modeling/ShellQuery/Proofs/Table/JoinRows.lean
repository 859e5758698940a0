import ShellQuery.Proofs.Table.Rows

/-!
# The rows of a merge join

The join command joins on one pair of keys and prints the key, the other fields of the left row and
the other fields of the right row. A filter then tests the further pairs of keys, and a projection
brings one field per pick into order. Together they give one row for every pair of rows that agrees
on all pairs of keys, and that row has the values of the picks (`Yields.joinTable`).

The join command compares keys as texts, but the filter is one of awk, which compares numbers by
their values. So the further pairs are tested as the first one is where their fields are equal as
texts only (`World.EqualAsTextsAt`).
-/

namespace ShellQuery

namespace Row

variable {l r : Row} {leftKey rightKey p : Nat}

/-- The fields of a left row stand in the joined row where `joinedLeft` says. -/
theorem field_join_left (hkey : leftKey < l.length) (hp : p < l.length) :
    (l.join leftKey rightKey r).field (Table.joinedLeft leftKey p) = l.field p := by
  unfold Table.joinedLeft
  split
  · next heq =>
    rw [heq]
    rfl
  · next hne =>
    -- without the key the later fields stand one place further to the front
    have hlength : (l.eraseIdx leftKey).length = l.length - 1 := List.length_eraseIdx_of_lt hkey
    split
    · next hlt =>
      rw [field, field, List.getD_eq_getElem?_getD, List.getD_eq_getElem?_getD, join,
        List.getElem?_cons_succ, List.getElem?_append_left (by omega),
        List.getElem?_eraseIdx_of_lt hlt]
    · next hge =>
      obtain ⟨q, rfl⟩ : ∃ q, p = q + 1 := ⟨p - 1, by omega⟩
      rw [field, field, List.getD_eq_getElem?_getD, List.getD_eq_getElem?_getD, join,
        List.getElem?_cons_succ, List.getElem?_append_left (by omega),
        List.getElem?_eraseIdx_of_ge (by omega)]

/-- Where the keys are equal, the fields of a right row stand in the joined row where `joinedRight`
says. -/
theorem field_join_right (hkey : leftKey < l.length)
    (heq : l.field leftKey = r.field rightKey) :
    (l.join leftKey rightKey r).field (Table.joinedRight l.length rightKey p) = r.field p := by
  have hlength : (l.eraseIdx leftKey).length = l.length - 1 := List.length_eraseIdx_of_lt hkey
  unfold Table.joinedRight
  split
  · next hp =>
    rw [hp, ← heq]
    rfl
  · next hne =>
    -- the left row is not empty, so the subtraction of the key is exact
    obtain ⟨width, hwidth⟩ : ∃ width, l.length = width + 1 := ⟨l.length - 1, by omega⟩
    split
    · next hlt =>
      rw [hwidth, Nat.succ_add, field, field, List.getD_eq_getElem?_getD,
        List.getD_eq_getElem?_getD, join, List.getElem?_cons_succ,
        List.getElem?_append_right (by omega), List.getElem?_eraseIdx_of_lt (by omega)]
      congr 2
      omega
    · next hge =>
      obtain ⟨q, rfl⟩ : ∃ q, p = q + 1 := ⟨p - 1, by omega⟩
      rw [hwidth, show width + 1 + (q + 1) - 1 = width + q + 1 by omega, field, field,
        List.getD_eq_getElem?_getD, List.getD_eq_getElem?_getD, join, List.getElem?_cons_succ,
        List.getElem?_append_right (by omega), List.getElem?_eraseIdx_of_ge (by omega)]
      congr 2
      omega

/-- The fields at all positions but one are what is left when that one is erased. -/
theorem map_field_freePositions (row : Row) (key : Nat) :
    (Table.freePositions row.length [key]).map row.field = row.eraseIdx key := by
  have hzip : row.zipIdx = (List.range row.length).map fun p => (row.field p, p) := by
    refine List.ext_getElem (by simp) fun p hp hp' => ?_
    have hlt : p < row.length := by simpa using hp
    simp [field_eq_getElem hlt]
  have herase := Table.map_fst_filter_zipIdx row 0 key
  rw [hzip, List.filter_map, List.map_map, Nat.zero_add] at herase
  exact herase

end Row

/-! ### Pairs of rows -/

/-- Whether two rows have equal fields at every pair of keys. -/
def agreeOn (pairs : List (Nat × Nat)) (x : Row × Row) : Bool :=
  pairs.all fun p => x.1.field p.1 == x.2.field p.2

/-- The values of some positions of a pair of rows. -/
def pickValues (picks : List (Nat ⊕ Nat)) (x : Row × Row) : Row :=
  picks.map (Sum.elim x.1.field x.2.field)

section

variable {w : World} {left right : Table} {ls rs : List Row} {key : Nat × Nat}
  {more : List (Nat × Nat)} {leftKey rightKey : Nat}

/-- On one pair of keys the join command prints the values of the picks. -/
theorem join_eq_pickValues (x : Row × Row) (key : Nat × Nat) :
    x.1.join key.1 key.2 x.2 = pickValues (Table.picks x.1.length x.2.length [key]) x := by
  have hgroups : KeyGroup.ofPairs [key] = [⟨[key.1], [key.2]⟩] := rfl
  have hkeys : ∀ k : Nat, [k].eraseDups = [k] := fun k => rfl
  rw [pickValues, Table.picks, hgroups]
  simp only [List.map_cons, List.map_nil, hkeys, List.filterMap_cons, List.head?_cons,
    Option.map_some, List.filterMap_nil, List.map_append, List.map_map]
  rw [Row.join, ← Row.map_field_freePositions x.1, ← Row.map_field_freePositions x.2]
  rfl

/-- The further tests say on a joined row that the further pairs of keys agree. -/
theorem all_chainedTests {l r : Row} (hkey : leftKey < l.length)
    (heq : l.field leftKey = r.field rightKey)
    (htexts : ∀ p ∈ more, w.EqualAsTexts (l.field p.1) (r.field p.2))
    (hmore : ∀ p ∈ more, p.1 < l.length) :
    (Table.chainedTests l.length leftKey rightKey more).all
      (w.passes (l.join leftKey rightKey r)) = agreeOn more (l, r) := by
  rw [Table.chainedTests, agreeOn, List.all_map, Bool.eq_iff_iff, List.all_eq_true,
    List.all_eq_true]
  refine forall₂_congr fun p hp => ?_
  rw [Function.comp_apply, World.passes, Formula.holds_atom, World.passesField, World.cell,
    World.cell, Row.field_join_left hkey (hmore p hp), Row.field_join_right hkey heq,
    htexts p hp]

/-- A joined row is printed and passes the further tests exactly when its rows agree on all keys. -/
theorem all_chainedTests_and {l r : Row} (hkey : leftKey < l.length)
    (htexts : ∀ p ∈ more, w.EqualAsTexts (l.field p.1) (r.field p.2))
    (hmore : ∀ p ∈ more, p.1 < l.length) :
    ((Table.chainedTests l.length leftKey rightKey more).all
        (w.passes (l.join leftKey rightKey r)) && l.field leftKey == r.field rightKey) =
      agreeOn ((leftKey, rightKey) :: more) (l, r) := by
  rw [agreeOn, List.all_cons, Bool.and_comm]
  by_cases heq : l.field leftKey = r.field rightKey
  · rw [all_chainedTests hkey heq htexts hmore]
    rfl
  · rw [beq_false_of_ne heq, Bool.false_and, Bool.false_and]

theorem length_of_mem_joinRows {leftWidth rightWidth : Nat}
    (hwidth : ∀ row ∈ ls, row.length = leftWidth) (hwidth' : ∀ row ∈ rs, row.length = rightWidth)
    (hkey : leftKey < leftWidth) (hkey' : rightKey < rightWidth) {row : Row}
    (hrow : row ∈ joinRows leftKey rightKey ls rs) : row.length = leftWidth + rightWidth - 1 := by
  obtain ⟨⟨l, r⟩, hx, rfl⟩ := List.mem_map.1 hrow
  obtain ⟨hlmem, hrmem⟩ := List.mem_product.1 (List.mem_filter.1 hx).1
  have hlength := hwidth l hlmem
  have hlength' := hwidth' r hrmem
  rw [Row.join, List.length_cons, List.length_append,
    List.length_eraseIdx_of_lt (hlength ▸ hkey), List.length_eraseIdx_of_lt (hlength' ▸ hkey'),
    hlength, hlength']
  omega

/-- On a joined row the positions of the picks hold the values of the picks. -/
theorem select_joinedAt {l r : Row} (hkey : leftKey < l.length)
    (heq : l.field leftKey = r.field rightKey) {picks : List (Nat ⊕ Nat)}
    (hpicks : ∀ x ∈ picks, x.elim (· < l.length) fun _ => True) :
    Row.select (picks.map (Table.joinedAt l.length leftKey rightKey))
      (l.join leftKey rightKey r) = pickValues picks (l, r) := by
  rw [Row.select, pickValues, List.map_map]
  refine List.map_congr_left fun x hx => ?_
  cases x with
  | inl p => exact Row.field_join_left hkey (hpicks _ hx)
  | inr p => exact Row.field_join_right hkey heq

/-! ### The joined table -/

theorem source_joinTable (left right : Table) (key : Nat × Nat) (more : List (Nat × Nat))
    (name : String) :
    (Table.joinTable left right key more name).source =
      .join (left.ensureSorted ((key :: more).map (·.1)).eraseDups)
        (right.ensureSorted ((key :: more).map (·.2)).eraseDups) key.1 key.2 := by
  unfold Table.joinTable
  cases more with
  | nil => rfl
  | cons p more => rfl

theorem sortedBy_joinTable (left right : Table) (key : Nat × Nat) (more : List (Nat × Nat))
    (name : String) : (Table.joinTable left right key more name).sortedBy = [] := by
  unfold Table.joinTable
  cases more with
  | nil => rfl
  | cons p more => rfl

section

variable (hwidth : ∀ row ∈ ls, row.length = left.columns.length)
  (hwidth' : ∀ row ∈ rs, row.length = right.columns.length)

include hwidth hwidth'

theorem length_of_mem_product {x : Row × Row} (hx : x ∈ ls ×ˢ rs) :
    x.1.length = left.columns.length ∧ x.2.length = right.columns.length := by
  obtain ⟨hlmem, hrmem⟩ := List.mem_product.1 hx
  exact ⟨hwidth x.1 hlmem, hwidth' x.2 hrmem⟩

/-- For a single pair of keys the join command prints the rows of the join. -/
theorem joinRows_eq_map_pickValues (key : Nat × Nat) :
    joinRows key.1 key.2 ls rs = ((ls ×ˢ rs).filter (agreeOn [key])).map
      (pickValues (Table.picks left.columns.length right.columns.length [key])) := by
  have hfilter : agreeOn [key] = fun x => x.1.field key.1 == x.2.field key.2 := by
    funext x
    rw [agreeOn, List.all_cons, List.all_nil, Bool.and_true]
  rw [joinRows, hfilter]
  refine List.map_congr_left fun x hx => ?_
  obtain ⟨hlength, hlength'⟩ :=
    length_of_mem_product hwidth hwidth' (List.mem_filter.1 hx).1
  rw [join_eq_pickValues, hlength, hlength']

variable (hwithin : Table.PairsWithin left.columns.length right.columns.length (key :: more))

include hwithin

/-- Of the rows that the join command prints, the further tests keep those of the pairs of rows that
agree on all pairs of keys. -/
theorem filter_joinRows (htexts : w.EqualAsTextsAt more ls rs) :
    (joinRows key.1 key.2 ls rs).filter (fun row =>
        (Table.chainedTests left.columns.length key.1 key.2 more).all (w.passes row)) =
      ((ls ×ˢ rs).filter (agreeOn (key :: more))).map fun x => x.1.join key.1 key.2 x.2 := by
  have hkey := (hwithin key List.mem_cons_self).1
  rw [joinRows, List.filter_map, List.filter_filter]
  refine congrArg _ (List.filter_congr fun x hx => ?_)
  obtain ⟨hlength, -⟩ := length_of_mem_product hwidth hwidth' hx
  obtain ⟨hl, hr⟩ := List.mem_product.1 hx
  rw [Function.comp_apply, ← hlength]
  exact all_chainedTests_and (hlength ▸ hkey) (htexts x.1 hl x.2 hr)
    fun p hp => hlength ▸ (hwithin p (List.mem_cons_of_mem _ hp)).1

/-- On the row of a pair of rows that agrees on all pairs of keys, the positions of the picks hold
the values of the picks. -/
theorem select_picks {x : Row × Row} (hx : x ∈ (ls ×ˢ rs).filter (agreeOn (key :: more))) :
    Row.select ((Table.picks left.columns.length right.columns.length (key :: more)).map
        (Table.joinedAt left.columns.length key.1 key.2)) (x.1.join key.1 key.2 x.2) =
      pickValues (Table.picks left.columns.length right.columns.length (key :: more)) x := by
  have hkey := (hwithin key List.mem_cons_self).1
  obtain ⟨hx, hagree⟩ := List.mem_filter.1 hx
  obtain ⟨hlength, -⟩ := length_of_mem_product hwidth hwidth' hx
  rw [agreeOn, List.all_cons, Bool.and_eq_true, beq_iff_eq] at hagree
  -- pairs that agree are as long as the columns say
  rw [← hlength]
  refine select_joinedAt (hlength ▸ hkey) hagree.1 fun y hy => ?_
  rw [hlength] at hy ⊢
  have helim := Table.elim_of_mem_picks hwithin hy
  cases y with
  | inl q => exact helim
  | inr q => trivial

/-- On what the join command prints for the first pair of keys, the steps of a joined table give one
row for every pair of rows that agrees on all pairs of keys. -/
theorem foldl_run_joinTable (htexts : w.EqualAsTextsAt more ls rs) (name : String) :
    (Table.joinTable left right key more name).steps.foldl (fun rows step => w.run step rows)
        (joinRows key.1 key.2 ls rs) =
      ((ls ×ˢ rs).filter (agreeOn (key :: more))).map
        (pickValues (Table.picks left.columns.length right.columns.length (key :: more))) := by
  obtain ⟨hkey, hkey'⟩ := hwithin key List.mem_cons_self
  unfold Table.joinTable
  cases more with
  | nil => exact joinRows_eq_map_pickValues hwidth hwidth' key
  | cons p more =>
    have hjoined : ∀ row ∈ joinRows key.1 key.2 ls rs,
        row.length = left.columns.length + right.columns.length - 1 :=
      fun row => length_of_mem_joinRows hwidth hwidth' hkey hkey'
    -- the filter, then the projection
    show w.run (.project _) (w.run (.filter _ (List.range _)) _) = _
    rw [Table.joinOn, Table.length_joinedColumns (by rwa [Table.columns_ensureSorted])
        (by rwa [Table.columns_ensureSorted]), Table.columns_ensureSorted,
      Table.columns_ensureSorted, w.run_filter_range hjoined, World.run,
      filter_joinRows hwidth hwidth' hwithin htexts, List.map_map,
      Table.map_fst_chosen _ _ hwithin]
    exact List.map_congr_left fun x hx => select_picks hwidth hwidth' hwithin hx

end

theorem rows_joinTable
    (hl : (left.ensureSorted ((key :: more).map (·.1)).eraseDups).rows w = some ls)
    (hr : (right.ensureSorted ((key :: more).map (·.2)).eraseDups).rows w = some rs)
    (hsorted : SortedOn key.1 ls) (hsorted' : SortedOn key.2 rs) (name : String) :
    (Table.joinTable left right key more name).rows w =
      some ((Table.joinTable left right key more name).steps.foldl
        (fun rows step => w.run step rows) (joinRows key.1 key.2 ls rs)) := by
  have hsource := source_joinTable left right key more name
  generalize Table.joinTable left right key more name = t at hsource ⊢
  obtain ⟨_, _, source, _, steps, _⟩ := t
  obtain rfl : source = _ := hsource
  rw [Table.rows, Source.rows, hl, hr]
  simp [hsorted, hsorted']

/-- A join yields one row for every pair of rows that agrees on all pairs of keys. -/
theorem Yields.joinTable (hl : Yields w left ls) (hr : Yields w right rs)
    (hwithin : Table.PairsWithin left.columns.length right.columns.length (key :: more))
    (htexts : w.EqualAsTextsAt more ls rs) (name : String) :
    ∃ rows, Yields w (Table.joinTable left right key more name) rows ∧
      rows.Perm (((ls ×ˢ rs).filter (agreeOn (key :: more))).map
        (pickValues (Table.picks left.columns.length right.columns.length (key :: more)))) := by
  obtain ⟨hkey, hkey'⟩ := hwithin key List.mem_cons_self
  obtain ⟨ls', hls', hpermL, hsortedL⟩ := hl.ensureSorted hkey (more.map (·.1))
  obtain ⟨rs', hrs', hpermR, hsortedR⟩ := hr.ensureSorted hkey' (more.map (·.2))
  have hwidthL : ∀ row ∈ ls', row.length = left.columns.length :=
    fun row hrow => hl.width row (hpermL.mem_iff.1 hrow)
  have hwidthR : ∀ row ∈ rs', row.length = right.columns.length :=
    fun row hrow => hr.width row (hpermR.mem_iff.1 hrow)
  have hrows := rows_joinTable hls' hrs' hsortedL hsortedR name
  have htexts' : w.EqualAsTextsAt more ls' rs' := fun l hl r hr =>
    htexts l (hpermL.mem_iff.1 hl) r (hpermR.mem_iff.1 hr)
  rw [foldl_run_joinTable hwidthL hwidthR hwithin htexts'] at hrows
  refine ⟨_, ⟨hrows, fun row hrow => ?_, sortedBy_joinTable left right key more name⟩, ?_⟩
  · obtain ⟨x, -, rfl⟩ := List.mem_map.1 hrow
    rw [pickValues, List.length_map, Table.columns_joinTable hwithin, List.length_map]
    exact (Table.forall₂_chosen key.1 key.2 hwithin).length_eq
  · -- sorting has changed the order of the pairs only
    exact ((hpermL.product hpermR).filter (agreeOn (key :: more))).map _

end

end ShellQuery
