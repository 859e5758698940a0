import ShellQuery.Proofs.Condition
import ShellQuery.Proofs.Schema
import ShellQuery.Proofs.Table.JoinColumns

/-!
# The tables that operations reach

A table starts as a file or a command and is then reordered, labelled, sorted, filtered, sampled,
counted and joined with others, in any order and any number of times (`Reachable`).

Operations find columns by name, and a name leads to the first of the columns with the same names
(`Leads`). So an operation on one table can do no more than `Change` says, whatever its arguments
are, and a join pairs leading positions only. `Reachable.induction` packs this up: what holds of
tables just opened, is kept by changes and is kept by joins holds of every table.
-/

namespace ShellQuery

/-! ### The fields that a test looks at -/

namespace Awk

/-- The positions that one side of a comparison looks at. -/
def FieldOperand.positions : FieldOperand → List Nat
  | .field p => [p]
  | .constant _ => []

/-- The positions that an atomic test looks at. -/
def FieldTest.positions : FieldTest → List Nat
  | .compare l _ r => l.positions ++ r.positions
  | .verbatim _ => []

/-- The positions that a test looks at. -/
def RowTest.positions (test : RowTest) : List Nat :=
  (Formula.atoms test).flatMap FieldTest.positions

end Awk

namespace Table

/-! ### Leading positions -/

/-- The column at the position is the first one with its names. -/
def Leads (t : Table) (p : Nat) : Prop :=
  ∃ c, t.columns[p]? = some c ∧
    ∀ q d, t.columns[q]? = some d → d.sameNames c = true → p ≤ q

section

variable {t t' : Table}

theorem Leads.lt {p : Nat} (h : t.Leads p) : p < t.columns.length := by
  obtain ⟨c, hc, -⟩ := h
  exact (List.getElem?_eq_some_iff.1 hc).1

theorem Leads.least {p q : Nat} {c d : Column} (h : t.Leads p) (hc : t.columns[p]? = some c)
    (hd : t.columns[q]? = some d) (hdc : d.sameNames c = true) : p ≤ q := by
  obtain ⟨c', hc', hleast⟩ := h
  obtain rfl : c' = c := Option.some.inj (hc'.symm.trans hc)
  exact hleast q d hd hdc

/-- A name that is found is found at a leading position. -/
theorem leads_of_tryResolve {n : ColumnName} {p : Nat} (h : t.tryResolve n = .ok (some p)) :
    t.Leads p := by
  obtain ⟨c, hc, hcn, hbefore, -⟩ := tryResolve_eq_some_iff.1 h
  refine ⟨c, hc, fun q d hd hdc => ?_⟩
  by_contra hlt
  have hdn : d.answersTo n = false := hbefore q d (by omega) hd
  rw [Column.answersTo_eq_of_sameNames hdc, hcn] at hdn
  exact absurd hdn (by simp)

theorem leads_of_resolve {n : ColumnName} {p : Nat} (h : t.resolve n = .ok p) : t.Leads p :=
  leads_of_tryResolve (resolve_eq_ok_iff.1 h)

theorem leads_of_mapM_resolve {names : List ColumnName} {positions : List Nat}
    (h : names.mapM t.resolve = .ok positions) : ∀ p ∈ positions, t.Leads p := by
  intro p hp
  obtain ⟨n, -, hn⟩ := exists_left_of_forall₂ (mapM_ok_iff.1 h) hp
  exact leads_of_resolve hn

/-! ### What operations on one table do -/

/-- Positions to project onto, among which no column overtakes the first one with its names. -/
structure Rearranges (t : Table) (positions : List Nat) : Prop where
  lt : ∀ p ∈ positions, p < t.columns.length
  behind : ∀ {p q i : Nat} {c d : Column}, t.Leads p → t.columns[p]? = some c →
    t.columns[q]? = some d → d.sameNames c = true → positions[i]? = some q →
    ∃ j ≤ i, positions[j]? = some p

/-- All that an operation on one table can do to it. -/
inductive Change (t : Table) : Table → Prop where
  | unchanged : Change t t
  | project {positions : List Nat} (h : t.Rearranges positions) :
      Change t (t.project positions (t.columnsAt positions))
  | label (labels : List ColumnName) : Change t (t.labelColumns labels)
  | sort {keys : List Nat} (distinct : keys.Nodup) (leads : ∀ k ∈ keys, t.Leads k) :
      Change t { t with steps := t.steps ++ [.sort keys], sortedBy := t.columnsAt keys }
  | filter {tests : List Awk.RowTest}
      (lt : ∀ test ∈ tests, ∀ p ∈ test.positions, p < t.columns.length) :
      Change t (t.filter tests)
  | sample (size : Nat) (seed : Option Nat) : Change t (t.sampleRows size seed)
  | count {position : Option Nat} (lt : ∀ p ∈ position, p < t.columns.length) :
      Change t (t.count position)

/-- The rows of a changed table come from where they came from before. -/
theorem Change.source_eq (h : Change t t') : t'.source = t.source := by
  cases h <;> rfl

/-- In an ascending list no value stands behind a greater one. -/
theorem le_of_getElem?_of_pairwise_lt {xs : List Nat} (h : xs.Pairwise (· < ·)) {i j p q : Nat}
    (hp : xs[j]? = some p) (hq : xs[i]? = some q) (hpq : p ≤ q) : j ≤ i := by
  by_contra hgt
  obtain ⟨hj, rfl⟩ := List.getElem?_eq_some_iff.1 hp
  obtain ⟨hi, rfl⟩ := List.getElem?_eq_some_iff.1 hq
  have hlt := List.pairwise_iff_getElem.1 h i j hi hj (by omega)
  omega

/-- Leading positions can be brought to the front of other positions in ascending order, if these
are all the others or none. -/
theorem rearranges_append {requested rest : List Nat} (h : ∀ p ∈ requested, t.Leads p)
    (hlt : ∀ p ∈ rest, p < t.columns.length) (hsorted : rest.Pairwise (· < ·))
    (hall : rest ≠ [] → ∀ p < t.columns.length, p ∉ requested → p ∈ rest) :
    t.Rearranges (requested ++ rest) := by
  constructor
  case lt =>
    intro p hp
    rcases List.mem_append.1 hp with hp | hp
    · exact (h p hp).lt
    · exact hlt p hp
  -- a column in front is found there by its name; the others keep their order among themselves
  case behind =>
    intro p q i c d hp hc hd hdc hi
    have hpq : p ≤ q := hp.least hc hd hdc
    by_cases hfront : i < requested.length
    · -- both positions lead the columns with these names, so they are one
      rw [List.getElem?_append_left hfront] at hi
      have hqp : q ≤ p := (h q (List.mem_of_getElem? hi)).least hd hc
        (by rw [Column.sameNames_comm, hdc])
      obtain rfl : p = q := by omega
      exact ⟨i, Nat.le_refl i, by rw [List.getElem?_append_left hfront, hi]⟩
    · rw [List.getElem?_append_right (by omega)] at hi
      by_cases hrequested : p ∈ requested
      · obtain ⟨j, hj⟩ := List.mem_iff_getElem?.1 hrequested
        have hjlt : j < requested.length := (List.getElem?_eq_some_iff.1 hj).1
        exact ⟨j, by omega, by rw [List.getElem?_append_left hjlt, hj]⟩
      · -- both positions are among the others, which stand in ascending order
        have hpmem : p ∈ rest :=
          hall (List.ne_nil_of_mem (List.mem_of_getElem? hi)) p hp.lt hrequested
        obtain ⟨j, hj⟩ := List.mem_iff_getElem?.1 hpmem
        have hji : j ≤ i - requested.length := le_of_getElem?_of_pairwise_lt hsorted hj hi hpq
        refine ⟨requested.length + j, by omega, ?_⟩
        rw [List.getElem?_append_right (by omega), Nat.add_sub_cancel_left, hj]

/-- Leading positions can be brought to the front if the others stay in order or are dropped. -/
theorem rearranges_of_leads {requested : List Nat} (h : ∀ p ∈ requested, t.Leads p)
    (dropOthers : Bool) :
    t.Rearranges (if dropOthers then requested
      else requested ++ (List.range t.columns.length).filter (!requested.contains ·)) := by
  cases dropOthers with
  | true =>
    have hfront := rearranges_append h (fun _ hp => absurd hp List.not_mem_nil) .nil
      (fun hne => absurd rfl hne)
    rwa [List.append_nil] at hfront
  | false =>
    refine rearranges_append h (fun p hp => ?_) (List.pairwise_lt_range.filter _)
      (fun _ p hp hrequested => ?_)
    · exact List.mem_range.1 (List.mem_filter.1 hp).1
    · exact List.mem_filter.2 ⟨List.mem_range.2 hp, by simpa using hrequested⟩

/-- Reordering projects onto leading positions, followed by all others or none. -/
theorem change_reorderColumns {names : List ColumnName} {dropOthers : Bool}
    (h : t.reorderColumns names dropOthers = .ok t') : Change t t' := by
  rw [reorderColumns, bind_ok_iff] at h
  obtain ⟨requested, hrequested, h⟩ := h
  obtain rfl := pure_ok_iff.1 h
  have hrearranges := rearranges_of_leads (leads_of_mapM_resolve hrequested) dropOthers
  generalize (if dropOthers then requested
    else requested ++ (List.range t.columns.length).filter (!requested.contains ·)) = positions
    at hrearranges ⊢
  split
  · exact .unchanged
  · exact .project hrearranges

/-- Sorting by leading positions sorts by some of them, or changes nothing. -/
theorem change_sortPositions {positions : List Nat} (h : ∀ p ∈ positions, t.Leads p) :
    Change t (t.sortPositions positions) := by
  unfold sortPositions
  dsimp only
  split
  · exact .unchanged
  · exact .sort (nodup_eraseDups _) fun k hk => h k (List.mem_eraseDups.1 hk)

theorem change_sort {names : List ColumnName} (h : t.sort names = .ok t') : Change t t' := by
  rw [sort, bind_ok_iff] at h
  obtain ⟨positions, hpositions, h⟩ := h
  obtain rfl := pure_ok_iff.1 h
  exact change_sortPositions (leads_of_mapM_resolve hpositions)

/-- Sorting for a join changes nothing where the order will do already. -/
theorem change_ensureSorted {positions : List Nat} (h : ∀ p ∈ positions, t.Leads p) :
    Change t (t.ensureSorted positions) := by
  unfold ensureSorted
  split
  · exact .unchanged
  · exact change_sortPositions h

/-- A condition that is resolved looks at positions of the table only. -/
theorem lt_of_mem_positions {c : Condition} {test : Awk.RowTest}
    (h : Condition.resolve t.resolve c = .ok test) {p : Nat} (hp : p ∈ test.positions) :
    p < t.columns.length := by
  -- a side that looks at a field has been resolved to it
  have hoperand : ∀ {o : Operand} {f : Awk.FieldOperand},
      Condition.resolveOperand t.resolve o = .ok f → p ∈ f.positions → p < t.columns.length := by
    intro o f ho hpf
    cases o with
    | literal text =>
      obtain rfl := Except.ok.inj ho
      exact absurd hpf List.not_mem_nil
    | column n =>
      obtain ⟨q, hq, rfl⟩ := map_ok_iff.1 ho
      obtain rfl := List.mem_singleton.1 hpf
      exact (leads_of_resolve hq).lt
  obtain ⟨field, hfield, hpf⟩ := List.mem_flatMap.1 hp
  obtain ⟨comparison, -, hresolved⟩ :=
    exists_left_of_forall₂ (Formula.forall₂_atoms_of_mapM h) hfield
  obtain ⟨l, r, hl, hr, rfl⟩ := Condition.resolveComparison_ok_iff.1 hresolved
  rcases List.mem_append.1 hpf with hpf | hpf
  · exact hoperand hl hpf
  · exact hoperand hr hpf

theorem change_filterRows {conjuncts : List Condition} (h : t.filterRows conjuncts = .ok t') :
    Change t t' := by
  obtain ⟨tests, htests, rfl⟩ := filterRows_ok_iff.1 h
  unfold filterBy
  split
  · exact .unchanged
  · refine .filter fun test htest p hp => ?_
    obtain ⟨c, -, hc⟩ := exists_left_of_forall₂ htests htest
    exact lt_of_mem_positions hc hp

/-- Rows are counted by a position of the table, or all of them. -/
theorem change_countRows {name : Option ColumnName} (h : t.countRows name = .ok t') :
    Change t t' := by
  cases name with
  | none =>
    obtain rfl := Except.ok.inj h
    exact .count (by simp)
  | some n =>
    obtain ⟨p, hp, rfl⟩ := map_ok_iff.1 h
    refine .count fun q hq => ?_
    obtain rfl := Option.some.inj hq
    exact (leads_of_resolve hp).lt

end

/-! ### Runs of operations -/

/-- The tables that operations reach from files and commands, each with the headers of these from
left to right. -/
inductive Reachable : List (List String) → Table → Prop where
  | ofFile {path : String} {label : Option String} {delimiter : Char} {catalog : Catalog}
      {fields : List String} {t : Table} (found : catalog.fields path delimiter = some fields)
      (h : ofFile path label delimiter catalog = .ok t) : Reachable [fields] t
  | ofCommand {name command : String} {fields : List String} {delimiter : Char} {t : Table}
      (h : ofCommand name command fields delimiter = .ok t) : Reachable [fields] t
  | reorderColumns {headers : List (List String)} {t t' : Table} (names : List ColumnName)
      (dropOthers : Bool) (reachable : Reachable headers t)
      (h : t.reorderColumns names dropOthers = .ok t') : Reachable headers t'
  | labelColumns {headers : List (List String)} {t : Table} (labels : List ColumnName)
      (reachable : Reachable headers t) : Reachable headers (t.labelColumns labels)
  | sort {headers : List (List String)} {t t' : Table} (names : List ColumnName)
      (reachable : Reachable headers t) (h : t.sort names = .ok t') : Reachable headers t'
  | filterRows {headers : List (List String)} {t t' : Table} (conjuncts : List Condition)
      (reachable : Reachable headers t) (h : t.filterRows conjuncts = .ok t') :
      Reachable headers t'
  | sampleRows {headers : List (List String)} {t : Table} (size : Nat) (seed : Option Nat)
      (reachable : Reachable headers t) : Reachable headers (t.sampleRows size seed)
  | countRows {headers : List (List String)} {t t' : Table} (name : Option ColumnName)
      (reachable : Reachable headers t) (h : t.countRows name = .ok t') : Reachable headers t'
  | mergeJoin {headers headers' : List (List String)} {left right t : Table}
      (conditions : List Comparison) (name : String) (reachable : Reachable headers left)
      (reachable' : Reachable headers' right)
      (h : mergeJoin left right conditions name = .ok t) : Reachable (headers ++ headers') t

/-- Towns sorted by land and region, the land then standing twice. The order is made use of by a
join on both; the joined rows are sorted by town and printed with the town first. -/
def townsByRegion : Except PlanError Table := do
  let town ← ColumnName.ofText "town"
  let chief ← ColumnName.ofText "chief"
  let land ← ColumnName.ofText "t.land"
  let region ← ColumnName.ofText "t.region"
  let sameLand ← Comparison.ofTexts "r.land" "=" "t.land"
  let sameRegion ← Comparison.ofTexts "t.region" "=" "r.region"
  let towns ← ofCommand "t" "towns" ["town", "region", "land"] ','
  let sorted ← towns.sort [land, region]
  let moved ← sorted.reorderColumns [region, land, land] false
  let regions ← ofCommand "r" "regions" ["land", "region", "chief"] ','
  let joined ← mergeJoin moved regions [sameLand, sameRegion] "tr"
  let byTown ← joined.sort [town, chief]
  (byTown.labelColumns [chief]).reorderColumns [town] true

/-- The sorted, moved, joined and labelled table is reached. -/
theorem reachable_townsByRegion {t : Table} (h : townsByRegion = .ok t) :
    Reachable [["town", "region", "land"], ["land", "region", "chief"]] t := by
  obtain ⟨town, -, h⟩ := bind_ok_iff.1 h
  obtain ⟨chief, -, h⟩ := bind_ok_iff.1 h
  obtain ⟨land, -, h⟩ := bind_ok_iff.1 h
  obtain ⟨region, -, h⟩ := bind_ok_iff.1 h
  obtain ⟨sameLand, -, h⟩ := bind_ok_iff.1 h
  obtain ⟨sameRegion, -, h⟩ := bind_ok_iff.1 h
  obtain ⟨towns, htowns, h⟩ := bind_ok_iff.1 h
  obtain ⟨sorted, hsorted, h⟩ := bind_ok_iff.1 h
  obtain ⟨moved, hmoved, h⟩ := bind_ok_iff.1 h
  obtain ⟨regions, hregions, h⟩ := bind_ok_iff.1 h
  obtain ⟨joined, hjoined, h⟩ := bind_ok_iff.1 h
  obtain ⟨byTown, hbyTown, h⟩ := bind_ok_iff.1 h
  have hleft := ((Reachable.ofCommand htowns).sort _ hsorted).reorderColumns _ _ hmoved
  have hjoin := hleft.mergeJoin _ _ (.ofCommand hregions) hjoined
  exact ((hjoin.sort _ hbyTown).labelColumns _).reorderColumns _ _ h

/-- A file or a command without steps, with a column for each field of its header. -/
structure Bare (fields : List String) (t : Table) : Prop where
  source : (∃ path headerLines, t.source = .file path headerLines) ∨
    ∃ text, t.source = .command text
  width : t.columns.length = fields.length
  steps : t.steps = []
  sortedBy : t.sortedBy = []

theorem bare_of_ofFile {path : String} {label : Option String} {delimiter : Char}
    {catalog : Catalog} {fields : List String} {t : Table}
    (found : catalog.fields path delimiter = some fields)
    (h : ofFile path label delimiter catalog = .ok t) : Bare fields t := by
  rw [ofFile, found] at h
  obtain ⟨columns, hcolumns, h⟩ := bind_ok_iff.1 h
  obtain rfl := pure_ok_iff.1 h
  have hwidth := (headerColumns_ok_iff.1 hcolumns).1.length_eq
  exact ⟨.inl ⟨path, 1, rfl⟩, hwidth.symm, rfl, rfl⟩

theorem bare_of_ofCommand {name command : String} {fields : List String} {delimiter : Char}
    {t : Table} (h : ofCommand name command fields delimiter = .ok t) : Bare fields t := by
  rw [ofCommand, bind_ok_iff] at h
  obtain ⟨columns, hcolumns, h⟩ := h
  obtain rfl := pure_ok_iff.1 h
  have hwidth := (mapM_ok_iff.1 hcolumns).length_eq
  exact ⟨.inr ⟨command, rfl⟩, hwidth.symm, rfl, rfl⟩

/-- All pairs are pairs of leading positions of the two tables. -/
def LeadingPairs (left right : Table) (pairs : List (Nat × Nat)) : Prop :=
  ∀ p ∈ pairs, left.Leads p.1 ∧ right.Leads p.2

namespace LeadingPairs

variable {left right : Table} {pairs : List (Nat × Nat)}

theorem within (h : LeadingPairs left right pairs) :
    PairsWithin left.columns.length right.columns.length pairs :=
  fun p hp => ⟨(h p hp).1.lt, (h p hp).2.lt⟩

theorem leads_left (h : LeadingPairs left right pairs) : ∀ k ∈ pairs.map (·.1), left.Leads k := by
  intro k hk
  obtain ⟨p, hp, rfl⟩ := List.mem_map.1 hk
  exact (h p hp).1

theorem leads_right (h : LeadingPairs left right pairs) :
    ∀ k ∈ pairs.map (·.2), right.Leads k := by
  intro k hk
  obtain ⟨p, hp, rfl⟩ := List.mem_map.1 hk
  exact (h p hp).2

/-- Sorting the inputs for a join changes them no more than other operations do. -/
theorem change_left (h : LeadingPairs left right pairs) :
    Change left (left.ensureSorted (pairs.map (·.1)).eraseDups) :=
  change_ensureSorted fun k hk => h.leads_left k (List.mem_eraseDups.1 hk)

theorem change_right (h : LeadingPairs left right pairs) :
    Change right (right.ensureSorted (pairs.map (·.2)).eraseDups) :=
  change_ensureSorted fun k hk => h.leads_right k (List.mem_eraseDups.1 hk)

end LeadingPairs

theorem leadingPairs_of_mapM {left right : Table} {conditions : List Comparison}
    {pairs : List (Nat × Nat)} (h : conditions.mapM (keyPair left right) = .ok pairs) :
    LeadingPairs left right pairs := by
  rintro ⟨l, r⟩ hp
  obtain ⟨c, -, hc⟩ := exists_left_of_forall₂ (mapM_ok_iff.1 h) hp
  obtain ⟨a, b, -, -, -, ⟨hl, -, -, hr⟩ | ⟨-, hr, hl, -⟩⟩ := keyPair_ok_iff.1 hc
  · exact ⟨leads_of_tryResolve hl, leads_of_tryResolve hr⟩
  · exact ⟨leads_of_tryResolve hl, leads_of_tryResolve hr⟩

/-- What holds of tables just opened and is kept by changes and by joins holds of every table. -/
theorem Reachable.induction {P : List (List String) → Table → Prop}
    (bare : ∀ {fields : List String} {t : Table}, Bare fields t → P [fields] t)
    (change : ∀ {headers : List (List String)} {t t' : Table},
      P headers t → Change t t' → P headers t')
    (join : ∀ {headers headers' : List (List String)} {left right : Table} {key : Nat × Nat}
      {more : List (Nat × Nat)} (name : String), P headers left → P headers' right →
      LeadingPairs left right (key :: more) →
      P (headers ++ headers') (joinTable left right key more name))
    {headers : List (List String)} {t : Table} (h : Reachable headers t) : P headers t := by
  -- each operation by what it does at most, so an invariant needs one case for `Change` alone
  induction h with
  | ofFile found h => exact bare (bare_of_ofFile found h)
  | ofCommand h => exact bare (bare_of_ofCommand h)
  | reorderColumns _ _ _ h ih => exact change ih (change_reorderColumns h)
  | labelColumns labels _ ih => exact change ih (.label labels)
  | sort _ _ h ih => exact change ih (change_sort h)
  | filterRows _ _ h ih => exact change ih (change_filterRows h)
  | sampleRows size seed _ ih => exact change ih (.sample size seed)
  | countRows _ _ h ih => exact change ih (change_countRows h)
  | mergeJoin _ name _ _ h ih ih' =>
    obtain ⟨key, more, hpairs, rfl⟩ := mergeJoin_ok_iff.1 h
    exact join name ih ih' (leadingPairs_of_mapM hpairs)

end Table

end ShellQuery
