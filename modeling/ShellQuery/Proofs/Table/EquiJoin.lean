import ShellQuery.Proofs.Table.JoinRows
import ShellQuery.Proofs.Table.SortOrder

/-!
# Merge joins are equi-joins

`equiJoin_of_mergeJoin`: a merge join gives one row for every pair of rows that agrees on all pairs
of keys, and one column for every class of positions that the pairs link. The classes are the groups
of linked keys in the order of their first pairs, then the other positions of the left table and
those of the right table. Which side of an equality is written first does not matter
(`keyPair_flipped`).

The join command needs inputs that are sorted on its keys. It gets them where the two tables are
what operations make of files and commands, and then the joined table has rows in every world
(`rows_of_mergeJoin`).
-/

namespace ShellQuery

/-- The comparison with its operands the other way round. -/
def Comparison.flipped (c : Comparison) : Comparison :=
  ⟨c.right, c.operator, c.left⟩

/-- A row of a join: every field has the values of all positions of its class. -/
def JoinedRow (classes : List (List (Nat ⊕ Nat))) (x : Row × Row) (row : Row) : Prop :=
  List.Forall₂ (fun cls value => ∀ y ∈ cls, Sum.elim x.1.field x.2.field y = value) classes row

namespace Table

/-- The table that joins two tables on the pair `key` and on `more` pairs, where the positions fall
into the given classes. -/
structure EquiJoin (left right : Table) (key : Nat × Nat) (more : List (Nat × Nat))
    (classes : List (List (Nat ⊕ Nat))) (t : Table) : Prop where
  /-- The join command reads the two tables, sorted by their keys, and joins them on `key`. That
  their rows are in this order is what the sorting of a table ensures (`rows_of_mergeJoin`). -/
  source : t.source = .join (left.ensureSorted ((key :: more).map (·.1)).eraseDups)
    (right.ensureSorted ((key :: more).map (·.2)).eraseDups) key.1 key.2
  columns : List.Forall₂ (ClassColumn left right) classes t.columns
  /-- On what the join command prints, the steps give one row for each pair of rows that agrees on
  all keys, in every world that compares the fields of the further keys as the join command compares
  those of the first. -/
  rows : ∀ (w : World) (ls rs : List Row), (∀ row ∈ ls, row.length = left.columns.length) →
    (∀ row ∈ rs, row.length = right.columns.length) → w.EqualAsTextsAt more ls rs →
    List.Forall₂ (JoinedRow classes) ((ls ×ˢ rs).filter (agreeOn (key :: more)))
      (t.steps.foldl (fun rows step => w.run step rows) (joinRows key.1 key.2 ls rs))
  sortedBy : t.sortedBy = []

end Table

section

variable {pairs : List (Nat × Nat)} {left right : Table}

/-- In rows that agree on all pairs of keys, linked positions have equal values. -/
theorem value_eq_of_linked {x : Row × Row} (hagree : agreeOn pairs x = true) {y z : Nat ⊕ Nat}
    (h : Linked pairs y z) : Sum.elim x.1.field x.2.field y = Sum.elim x.1.field x.2.field z := by
  induction h with
  | rel y z hp =>
    obtain ⟨p, hp, rfl, rfl⟩ := hp
    have hfields := List.all_eq_true.1 hagree p hp
    exact beq_iff_eq.1 hfields
  | refl => rfl
  | symm _ _ _ ih => exact ih.symm
  | trans _ _ _ _ _ ih ih' => exact ih.trans ih'

/-- The values of the picks are the values of all positions of their classes. -/
theorem joinedRow_pickValues (leftWidth rightWidth : Nat) {x : Row × Row}
    (hagree : agreeOn pairs x = true) :
    JoinedRow (Table.joinClasses leftWidth rightWidth pairs (KeyGroup.ofPairs pairs)) x
      (pickValues (Table.picks leftWidth rightWidth pairs) x) := by
  unfold JoinedRow pickValues
  rw [List.forall₂_map_right_iff]
  refine (Table.forall₂_picks leftWidth rightWidth pairs).imp ?_
  rintro cls pick ⟨-, hlinked⟩ y hy
  have hy : Linked pairs pick y := (hlinked y).1 hy
  exact (value_eq_of_linked hagree hy).symm

end

namespace Table

variable {left right : Table} {key : Nat × Nat} {more : List (Nat × Nat)}

theorem equiJoin_joinTable
    (hwithin : PairsWithin left.columns.length right.columns.length (key :: more))
    (name : String) :
    EquiJoin left right key more (joinClasses left.columns.length right.columns.length (key :: more)
      (KeyGroup.ofPairs (key :: more))) (joinTable left right key more name) := by
  refine ⟨source_joinTable left right key more name, forall₂_columns_joinTable hwithin,
    fun w ls rs hls hrs htexts => ?_, sortedBy_joinTable left right key more name⟩
  rw [foldl_run_joinTable hls hrs hwithin htexts, List.forall₂_map_right_iff, List.forall₂_same]
  intro x hx
  exact joinedRow_pickValues _ _ (List.mem_filter.1 hx).2

/-- An equality gives its pair of keys whichever side is written first. -/
theorem keyPair_flipped {c : Comparison} {p : Nat × Nat} (h : keyPair left right c = .ok p) :
    keyPair left right c.flipped = .ok p := by
  obtain ⟨l, r⟩ := p
  obtain ⟨a, b, ha, hb, ho, hsides⟩ := keyPair_ok_iff.1 h
  refine keyPair_ok_iff.2 ⟨b, a, hb, ha, ho, ?_⟩
  rcases hsides with ⟨hla, hra, hlb, hrb⟩ | ⟨hla, hra, hlb, hrb⟩
  · exact .inr ⟨hlb, hrb, hla, hra⟩
  · exact .inl ⟨hlb, hrb, hla, hra⟩

/-- A merge join is an equi-join: its columns stand for the classes of linked positions, its rows
for the pairs of rows that agree on all keys. Flipping equalities changes nothing. -/
theorem equiJoin_of_mergeJoin {t : Table} {conditions : List Comparison} {name : String}
    (h : mergeJoin left right conditions name = .ok t) :
    ∃ key more groups, conditions.mapM (keyPair left right) = .ok (key :: more) ∧
      Components (key :: more) groups ∧ InOrderOfAppearance (key :: more) groups ∧
      EquiJoin left right key more
        (joinClasses left.columns.length right.columns.length (key :: more) groups) t ∧
      ∀ conditions', List.Forall₂ (fun c c' => c' = c ∨ c' = c.flipped) conditions conditions' →
        mergeJoin left right conditions' name = .ok t := by
  obtain ⟨key, more, hpairs, rfl⟩ := mergeJoin_ok_iff.1 h
  have hwithin := (leadingPairs_of_mapM hpairs).within
  refine ⟨key, more, KeyGroup.ofPairs (key :: more), hpairs, components_ofPairs _,
    inOrderOfAppearance_ofPairs _, equiJoin_joinTable hwithin name, fun conditions' hflip => ?_⟩
  -- a flipped equality gives the same pair of keys
  have hpairs' : List.Forall₂ (fun c p => keyPair left right c = .ok p) conditions'
      (key :: more) := by
    refine (forall₂_of_common hflip (mapM_ok_iff.1 hpairs)).imp ?_
    rintro c' p ⟨c, -, rfl | rfl, hc⟩
    · exact hc
    · exact keyPair_flipped hc
  exact mergeJoin_ok_iff.2 ⟨key, more, mapM_ok_iff.2 hpairs', rfl⟩

/-- Where operations have reached the two tables, the join command reads rows that are sorted on its
keys, and the joined table has the rows that its steps give on what the command prints. -/
theorem rows_of_mergeJoin {headers headers' : List (List String)} {t : Table}
    {conditions : List Comparison} {name : String} (hleft : Reachable headers left)
    (hright : Reachable headers' right) (h : mergeJoin left right conditions name = .ok t)
    (hpairs : conditions.mapM (keyPair left right) = .ok (key :: more)) (w : World) :
    ∃ ls rs, (left.ensureSorted ((key :: more).map (·.1)).eraseDups).rows w = some ls ∧
      (right.ensureSorted ((key :: more).map (·.2)).eraseDups).rows w = some rs ∧
      SortedOn key.1 ls ∧ SortedOn key.2 rs ∧
      t.rows w = some (t.steps.foldl (fun rows step => w.run step rows)
        (joinRows key.1 key.2 ls rs)) := by
  obtain ⟨key', more', hpairs', rfl⟩ := mergeJoin_ok_iff.1 h
  obtain ⟨rfl, rfl⟩ := List.cons.inj (Except.ok.inj (hpairs.symm.trans hpairs'))
  have hleading := leadingPairs_of_mapM hpairs
  obtain ⟨ls, hls, hcan⟩ :=
    Table.exists_rows w _ (hleft.inOrder.change hleading.change_left).joins
  obtain ⟨rs, hrs, hcan'⟩ :=
    Table.exists_rows w _ (hright.inOrder.change hleading.change_right).joins
  have hsorted : SortedOn key.1 ls := hleft.inOrder.sortedOn_ensureSorted hleading.leads_left hcan
  have hsorted' : SortedOn key.2 rs :=
    hright.inOrder.sortedOn_ensureSorted hleading.leads_right hcan'
  exact ⟨ls, rs, hls, hrs, hsorted, hsorted', rows_joinTable hls hrs hsorted hsorted' name⟩

/-- Two tables and three equalities between them, of which the last one links the keys of the first
two. -/
def bridgedKeys : Except PlanError (Table × Table × List Comparison) := do
  let orders ← ofCommand "o" "orders" ["total", "buyer", "payer"] ','
  let people ← ofCommand "p" "people" ["name", "id", "alias"] ','
  let buyer ← Comparison.ofTexts "buyer" "=" "id"
  let payer ← Comparison.ofTexts "p.alias" "=" "o.payer"
  let bridge ← Comparison.ofTexts "buyer" "=" "alias"
  return (orders, people, [buyer, payer, bridge])

theorem equiJoin_bridgedKeys :
    ∃ left right conditions t, bridgedKeys = .ok (left, right, conditions) ∧
      mergeJoin left right conditions "op" = .ok t ∧ t.columns.length = 3 ∧
      ∃ key more groups, conditions.mapM (keyPair left right) = .ok (key :: more) ∧
        Components (key :: more) groups ∧ InOrderOfAppearance (key :: more) groups ∧
        EquiJoin left right key more
          (joinClasses left.columns.length right.columns.length (key :: more) groups) t ∧
        ∀ conditions', List.Forall₂ (fun c c' => c' = c ∨ c' = c.flipped) conditions conditions' →
          mergeJoin left right conditions' "op" = .ok t := by
  have hwidth : (bridgedKeys >>= fun (left, right, conditions) =>
      mergeJoin left right conditions "op").map (·.columns.length) = .ok 3 := by decide +kernel
  obtain ⟨t, ht, hwidth⟩ := map_ok_iff.1 hwidth
  obtain ⟨⟨left, right, conditions⟩, hkeys, ht⟩ := bind_ok_iff.1 ht
  exact ⟨left, right, conditions, t, hkeys, ht, hwidth, equiJoin_of_mergeJoin ht⟩

end Table

end ShellQuery
