import ShellQuery.Proofs.Table.Provenance
import ShellQuery.Proofs.Table.SortOrder

/-!
# The width of a table's rows

The columns of a table and its steps are two lists that operations keep in step. `Step.width?`
carries the number of fields of a row through a step, provided that the step looks only at fields
that are there, and `Table.WellFormed` says that this goes through from the sources of a table to
its columns, in every input of every join as well.

* `WellFormed.append`: one more step keeps a table well-formed if its columns are as many as the
  fields behind the step;
* `WellFormed.change`, `WellFormed.joinTable`: so do changes and joins;
* `wellFormed_of_reachable`: every table that operations reach is well-formed.
-/

namespace ShellQuery

/-- The number of fields behind a step, if there are `n` fields before it and the step fits them: it
looks at fields that are there, a filter prints all of them in order, and a sort looks at none
twice. -/
def Step.width? (n : Nat) : Step → Option Nat
  | .project positions => if ∀ p ∈ positions, p < n then some positions.length else none
  | .filter tests positions =>
    if (∀ test ∈ tests, ∀ p ∈ test.positions, p < n) ∧ positions = List.range n then some n
    else none
  | .sort positions => if (∀ p ∈ positions, p < n) ∧ positions.Nodup then some n else none
  | .sample _ _ => some n
  | .count position => if ∀ p ∈ position, p < n then some 1 else none

mutual

/-- The steps of a table fit, one after the other, from its source up to its columns, and its sort
columns are among these. The headers below it have the given widths, from left to right. -/
def Table.WellFormed : Table → List Nat → Prop
  | ⟨_, _, source, columns, steps, sortedBy⟩, widths =>
    ∃ n, source.HasWidth widths n ∧ steps.foldlM Step.width? n = some columns.length ∧
      ∀ s ∈ sortedBy, ∃ c ∈ columns, c.identical s = true

/-- The rows of the source have `n` fields: as many as the header has, or for a join the fields of
both inputs with one key for two. -/
def Source.HasWidth : Source Table → List Nat → Nat → Prop
  | .file _ _, widths, n => widths = [n]
  | .command _, widths, n => widths = [n]
  | .join left right leftKey rightKey, widths, n => ∃ ls rs, widths = ls ++ rs ∧
      left.WellFormed ls ∧ right.WellFormed rs ∧
      leftKey < left.columns.length ∧ rightKey < right.columns.length ∧
      n = left.columns.length + right.columns.length - 1

end

namespace Table

variable {t t' : Table} {widths : List Nat}

theorem InOrder.exists_column (h : t.InOrder) :
    ∀ s ∈ t.sortedBy, ∃ c ∈ t.columns, c.identical s = true := by
  intro s hs
  obtain ⟨ps, hps, -⟩ := h.sorted
  obtain ⟨p, -, hp, -⟩ := exists_right_of_forall₂ hps hs
  exact ⟨s, List.mem_of_getElem? hp, Column.identical_refl s⟩

/-- One more step keeps a table well-formed if the columns are as many as the fields behind it. -/
theorem WellFormed.append {step : Step} {columns sorted : List Column} (h : t.WellFormed widths)
    (hstep : step.width? t.columns.length = some columns.length)
    (hsorted : ∀ s ∈ sorted, ∃ c ∈ columns, c.identical s = true) :
    WellFormed { t with columns := columns, steps := t.steps ++ [step], sortedBy := sorted }
      widths := by
  obtain ⟨_, _, source, columns', steps, _⟩ := t
  obtain ⟨n, hn, hsteps, -⟩ := h
  refine ⟨n, hn, ?_, hsorted⟩
  rw [List.foldlM_append, hsteps]
  simpa using hstep

/-- What is printed and recorded may change as long as there are as many columns. -/
theorem WellFormed.relabel {columns sorted : List Column} (h : t.WellFormed widths)
    (hlength : columns.length = t.columns.length)
    (hsorted : ∀ s ∈ sorted, ∃ c ∈ columns, c.identical s = true) :
    WellFormed { t with columns := columns, sortedBy := sorted } widths := by
  obtain ⟨_, _, source, columns', steps, _⟩ := t
  obtain ⟨n, hn, hsteps, -⟩ := h
  exact ⟨n, hn, by rw [hsteps, hlength], hsorted⟩

theorem WellFormed.change (h : t.WellFormed widths) (horder : t.InOrder) (hchange : Change t t') :
    t'.WellFormed widths := by
  have hsorted := (horder.change hchange).exists_column
  -- for each kind of change, the width that its step wants is the one that is there
  cases hchange with
  | unchanged => exact h
  | @project positions hpositions =>
    have hlength := (columnsAt_eq_of_lt hpositions.lt).length_eq
    refine h.append ?_ hsorted
    rw [Step.width?, if_pos hpositions.lt, hlength]
  | label labels =>
    exact h.relabel (forall₂_names_labelWith t.columns labels).length_eq.symm hsorted
  | sort hdistinct hleads =>
    refine h.append ?_ hsorted
    rw [Step.width?, if_pos ⟨fun k hk => (hleads k hk).lt, hdistinct⟩]
  | filter hlt =>
    refine h.append ?_ hsorted
    rw [Step.width?, if_pos ⟨hlt, rfl⟩]
  | sample size seed => exact h.append rfl hsorted
  | count hlt =>
    refine h.append ?_ hsorted
    rw [Step.width?, if_pos hlt]
    rfl

section

variable {left right : Table} {key : Nat × Nat} {more : List (Nat × Nat)} {ls rs : List Nat}

/-- The join command prints as many fields as the joined table has columns. -/
theorem WellFormed.joinOn (h : left.WellFormed ls) (h' : right.WellFormed rs)
    (hkey : key.1 < left.columns.length) (hkey' : key.2 < right.columns.length) (name : String) :
    (joinOn left right key.1 key.2 name).WellFormed (ls ++ rs) := by
  refine ⟨_, ⟨ls, rs, rfl, h, h', hkey, hkey', rfl⟩, ?_, fun s hs => absurd hs List.not_mem_nil⟩
  rw [length_joinedColumns hkey hkey']
  rfl

/-- The further tests look at fields that the join command prints. -/
theorem lt_of_mem_chainedTests
    (hwithin : PairsWithin left.columns.length right.columns.length (key :: more))
    {test : Awk.RowTest} (htest : test ∈ chainedTests left.columns.length key.1 key.2 more)
    {p : Nat} (hp : p ∈ test.positions) :
    p < left.columns.length + right.columns.length - 1 := by
  obtain ⟨hkey, hkey'⟩ := hwithin key List.mem_cons_self
  obtain ⟨pair, hpair, rfl⟩ := List.mem_map.1 htest
  obtain ⟨hl, hr⟩ := hwithin pair (List.mem_cons_of_mem key hpair)
  have hpositions : p = joinedAt left.columns.length key.1 key.2 (.inl pair.1) ∨
      p = joinedAt left.columns.length key.1 key.2 (.inr pair.2) := by
    simpa [Awk.RowTest.positions, Awk.FieldTest.positions, Awk.FieldOperand.positions,
      joinedAt] using hp
  rcases hpositions with rfl | rfl
  · exact joinedAt_lt hkey hkey' hl
  · exact joinedAt_lt hkey hkey' hr

/-- The columns of a join are taken from fields that the join command prints. -/
theorem lt_of_mem_chosen
    (hwithin : PairsWithin left.columns.length right.columns.length (key :: more)) {p : Nat}
    (hp : p ∈ (chosen left right key.1 key.2 (key :: more)).map (·.1)) :
    p < left.columns.length + right.columns.length - 1 := by
  obtain ⟨hkey, hkey'⟩ := hwithin key List.mem_cons_self
  rw [map_fst_chosen _ _ hwithin] at hp
  obtain ⟨pick, hpick, rfl⟩ := List.mem_map.1 hp
  exact joinedAt_lt hkey hkey' (elim_of_mem_picks hwithin hpick)

theorem WellFormed.joinTable (name : String) (h : left.WellFormed ls) (horder : left.InOrder)
    (h' : right.WellFormed rs) (horder' : right.InOrder)
    (hpairs : LeadingPairs left right (key :: more)) :
    (joinTable left right key more name).WellFormed (ls ++ rs) := by
  have hwithin := hpairs.within
  obtain ⟨hkey, hkey'⟩ := hwithin key List.mem_cons_self
  have hsorted :
      key.1 < (left.ensureSorted ((key :: more).map (·.1)).eraseDups).columns.length := by
    rwa [columns_ensureSorted]
  have hsorted' :
      key.2 < (right.ensureSorted ((key :: more).map (·.2)).eraseDups).columns.length := by
    rwa [columns_ensureSorted]
  have hjoined := WellFormed.joinOn (h.change horder hpairs.change_left)
    (h'.change horder' hpairs.change_right) hsorted hsorted' name
  have hwidth : (joinedColumns (left.ensureSorted ((key :: more).map (·.1)).eraseDups)
      (right.ensureSorted ((key :: more).map (·.2)).eraseDups) key.1 key.2).length =
      left.columns.length + right.columns.length - 1 := by
    rw [length_joinedColumns hsorted hsorted', columns_ensureSorted, columns_ensureSorted]
  unfold Table.joinTable
  dsimp only
  split
  · exact hjoined
  -- the filter keeps the width of the joined rows, and the projection sets the final one
  · refine (hjoined.append ?_ ?_).append ?_ ?_
    · rw [Step.width?, if_pos]
      exact ⟨fun test htest p hp => hwidth ▸ lt_of_mem_chainedTests hwithin htest hp, rfl⟩
    · exact fun s hs => absurd hs List.not_mem_nil
    · rw [Step.width?, if_pos]
      · rw [List.length_map, List.length_map]
      · exact fun p hp => hwidth ▸ lt_of_mem_chosen hwithin hp
    · exact fun s hs => absurd hs List.not_mem_nil

end

theorem Bare.wellFormed {fields : List String} (h : Bare fields t) :
    t.WellFormed [fields.length] := by
  obtain ⟨_, _, source, columns, steps, sortedBy⟩ := t
  obtain ⟨hsource, hwidth, hsteps, hsorted⟩ := h
  obtain rfl : steps = [] := hsteps
  obtain rfl : sortedBy = [] := hsorted
  refine ⟨fields.length, ?_, congrArg some hwidth.symm, fun s hs => absurd hs List.not_mem_nil⟩
  rcases hsource with ⟨path, headerLines, hsource⟩ | ⟨text, hsource⟩
  · obtain rfl : source = .file path headerLines := hsource
    rfl
  · obtain rfl : source = .command text := hsource
    rfl

/-- In every table that operations reach, and in the inputs of its joins, steps look at fields that
are there, the fields of a row are as many as the columns, and the sort columns are columns. -/
theorem wellFormed_of_reachable {headers : List (List String)} (h : Reachable headers t) :
    t.WellFormed (headers.map List.length) := by
  suffices hboth : t.WellFormed (headers.map List.length) ∧ t.InOrder from hboth.1
  refine Reachable.induction
    (P := fun headers t => t.WellFormed (headers.map List.length) ∧ t.InOrder)
    (fun hbare => ?_) (fun h hchange => ?_) (fun name h h' hpairs => ?_) h
  · exact ⟨hbare.wellFormed, hbare.inOrder⟩
  · exact ⟨h.1.change h.2 hchange, h.2.change hchange⟩
  · rw [List.map_append]
    exact ⟨h.1.joinTable name h.2 h'.1 h'.2 hpairs, h.2.joinTable name h'.2 hpairs⟩

theorem wellFormed_townsByRegion :
    ∃ t, Reachable [["town", "region", "land"], ["land", "region", "chief"]] t ∧
      t.steps.length = 4 ∧ t.WellFormed [3, 3] := by
  have hsteps : townsByRegion.map (·.steps.length) = .ok 4 := by decide +kernel
  obtain ⟨t, ht, hsteps⟩ := map_ok_iff.1 hsteps
  have hreachable := reachable_townsByRegion ht
  exact ⟨t, hreachable, hsteps, wellFormed_of_reachable hreachable⟩

end Table

end ShellQuery
