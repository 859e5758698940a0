import ShellQuery.Proofs.Checked.Lookup
import ShellQuery.Proofs.Condition
import ShellQuery.Proofs.Query.Location
import ShellQuery.Query

/-!
# Checked stages

Where names are found is recorded by places: of the tables among the others, of the columns in their
tables. The columns are looked up again for the texts of errors, and the stage of a condition is
looked up to put the condition there. A search gives only places that are there (`There`), so
all lookups hit: `pin_eq`, `stageOf_eq`, `stageConditions_eq`.
-/

namespace ShellQuery

/-- The place of the table of a hit and the position of its column. -/
def Hit.place (h : Hit) : Nat × Nat :=
  (h.stage, h.found.first)

namespace Checked

/-- The places at which a name is found, the earliest first. -/
structure Found where
  name : ColumnName
  first : Nat × Nat
  further : List (Nat × Nat)

/-- All places at which a name is found. -/
def Found.hits (f : Found) : List (Nat × Nat) :=
  f.first :: f.further

/-- The places at which a name is found, from the table at the given stage on. -/
def search (name : ColumnName) (stage : Nat) : List Table → Except PlanError (List (Nat × Nat))
  | [] => .ok []
  | t :: ts => do
    let found ← t.tryResolve name
    let rest ← search name (stage + 1) ts
    return (found.map (stage, ·)).toList ++ rest

/-- Finds a name in some tables; it must be found somewhere. -/
def ofName (tables : List Table) (name : ColumnName) : Except PlanError Found := do
  match ← search name 0 tables with
  | [] => .error (.unknownColumn name.qualified)
  | first :: further => return ⟨name, first, further⟩

/-- The table and the column at a place in words. -/
def describe (tables : List Table) (place : Nat × Nat) : Except Stop String := do
  let table ← lookup tables place.1
  let column ← lookup table.columns place.2
  return table.name ++ ": " ++ column.describe

/-- Refuses a name that is found at each of several places. -/
def ambiguous {α : Type} (tables : List Table) (name : ColumnName) (places : List (Nat × Nat)) :
    Except Stop α := do
  let candidates ← places.mapM (describe tables)
  .error (.refused (.ambiguousColumn name.qualified candidates))

/-- Pins a column to the one relation it is found in. -/
def pin (tables : List Table) (name : ColumnName) : Except Stop ColumnName := do
  let found ← lift (ofName tables name)
  match found.further with
  | [] => do
    let table ← lookup tables found.first.1
    return name.within table.name
  | _ :: _ => ambiguous tables name found.hits

/-- Refuses a name that is found more than once up to the given stage. -/
def checkWithin (tables : List Table) (stage : Nat) (f : Found) : Except Stop Unit :=
  match f.hits.filter (·.1 ≤ stage) with
  | h :: h' :: hs => ambiguous tables f.name (h :: h' :: hs)
  | _ => .ok ()

/-- The stage at which a condition can be evaluated. -/
def stageOf (tables : List Table) (c : Condition) : Except Stop Nat := do
  let found ← lift (c.columns.mapM (ofName tables))
  let stage := found.foldl (fun s f => max s f.first.1) 0
  found.forM (checkWithin tables stage)
  return stage

/-- Puts a condition behind those of a stage. -/
def pushAt (stages : List (List Condition)) (stage : Nat) (c : Condition) :
    Except Stop (List (List Condition)) := do
  let conditions ← lookup stages stage
  return stages.set stage (conditions ++ [c])

/-- The conditions of each stage, in their given order. -/
def stageConditions (tables : List Table) (conditions : List Condition) :
    Except Stop (List (List Condition)) :=
  conditions.foldlM (fun stages c => do
    let stage ← stageOf tables c
    pushAt stages stage c) (List.replicate (max 1 tables.length) [])

section

variable {tables : List Table} {name : ColumnName}

/-! ### Searching -/

/-- The two searches go through the tables together: one records the places of what the other finds.
-/
theorem search_eq (name : ColumnName) (stage : Nat) (tables : List Table) :
    search name stage tables = (Location.search name stage tables).map (List.map Hit.place) := by
  induction tables generalizing stage with
  | nil => rfl
  | cons t ts ih =>
    rw [search, Location.search, ih, Table.tryResolve]
    cases t.find name with
    | error e => rfl
    | ok found =>
      cases Location.search name (stage + 1) ts with
      | error e => rfl
      | ok rest =>
        cases found with
        | none => rfl
        | some o => rfl

/-- The places that a location records. -/
def Found.ofLocation (l : Location) : Found :=
  ⟨l.name, l.first.place, l.further.map Hit.place⟩

/-- The first hit stays in front. -/
theorem hits_ofLocation (l : Location) : (Found.ofLocation l).hits = l.hits.map Hit.place := rfl

/-- A name is found at the places of its location, and refused in the same words. -/
theorem ofName_eq (tables : List Table) (name : ColumnName) :
    ofName tables name = (Location.ofName tables name).map Found.ofLocation := by
  rw [ofName, Location.ofName, search_eq]
  cases Location.search name 0 tables with
  | error e => rfl
  | ok hits =>
    cases hits with
    | nil => rfl
    | cons first further => rfl

/-- The table and the column of a hit are at its place. -/
structure There (tables : List Table) (h : Hit) : Prop where
  table : tables[h.stage]? = some h.table
  column : h.table.columns[h.found.first]? = some h.found.column

/-- A search goes through the tables, so each hit has its table and its column where it says. -/
theorem there_of_ofName {l : Location} (h : Location.ofName tables name = .ok l) {hit : Hit}
    (hhit : hit ∈ l.hits) : There tables hit := by
  obtain ⟨hmem, hcolumn⟩ := Location.of_mem_search (Location.ofName_ok_iff.1 h).1 hhit
  exact ⟨List.mk_mem_zipIdx_iff_getElem?.1 hmem, hcolumn⟩

/-- A hit is described by the table and the column that are looked up at its place. -/
theorem describe_eq {hit : Hit} (h : There tables hit) :
    describe tables hit.place = .ok hit.describe := by
  have htable : tables[hit.place.1]? = some hit.table := h.table
  have hcolumn : hit.table.columns[hit.place.2]? = some hit.found.column := h.column
  rw [describe, lookup_eq_ok htable, ok_bind, lookup_eq_ok hcolumn]
  rfl

/-- A refusal lists the candidates in the words of the planner. -/
theorem ambiguous_eq {α : Type} {hits : List Hit} (h : ∀ hit ∈ hits, There tables hit)
    (name : ColumnName) :
    ambiguous tables name (hits.map Hit.place) =
      lift (.error (Location.ambiguous name hits) : Except PlanError α) := by
  have hcandidates : (hits.map Hit.place).mapM (describe tables) = .ok (hits.map Hit.describe) := by
    rw [mapM_ok_iff, List.forall₂_map_left_iff, List.forall₂_map_right_iff, List.forall₂_same]
    exact fun hit hhit => describe_eq (h hit hhit)
  rw [ambiguous, hcandidates]
  rfl

/-- A column is pinned to the table at the one place where it is found. -/
theorem pin_eq (tables : List Table) (name : ColumnName) :
    pin tables name = lift (Query.pin tables name) := by
  rw [pin, ofName_eq]
  refine bind_lift_map fun l hl => ?_
  have hthere : ∀ hit ∈ l.hits, There tables hit := fun hit => there_of_ofName hl
  obtain ⟨n, first, further⟩ := l
  cases further with
  | nil =>
    have hfirst := (hthere first List.mem_cons_self).table
    show (lookup tables first.stage >>= _) = _
    rw [lookup_eq_ok hfirst]
    rfl
  | cons hit further => exact ambiguous_eq hthere name

/-! ### Stages -/

/-- The places up to a stage are the hits up to it, so a name is refused at the same stage. -/
theorem checkWithin_eq {l : Location} (h : ∀ hit ∈ l.hits, There tables hit) (stage : Nat) :
    checkWithin tables stage (.ofLocation l) = lift (l.checkWithin stage) := by
  have hplaces : (Found.ofLocation l).hits.filter (·.1 ≤ stage) =
      (l.hits.filter (·.stage ≤ stage)).map Hit.place := by
    rw [hits_ofLocation, List.filter_map]
    rfl
  have hwithin : ∀ hit ∈ l.hits.filter (·.stage ≤ stage), There tables hit :=
    fun hit hhit => h hit (List.mem_filter.1 hhit).1
  rw [checkWithin, hplaces, Location.checkWithin]
  generalize l.hits.filter (·.stage ≤ stage) = hits at hwithin
  cases hits with
  | nil => rfl
  | cons hit hits =>
    cases hits with
    | nil => rfl
    | cons hit' hits => exact ambiguous_eq hwithin l.name

/-- A condition gets the greatest of the first stages of its names, from places as from hits. -/
theorem stageOf_eq (tables : List Table) (c : Condition) :
    stageOf tables c = lift (ShellQuery.stageOf tables c) := by
  have hnames : c.columns.mapM (ofName tables) =
      (c.columns.mapM (Location.ofName tables)).map (List.map Found.ofLocation) := by
    rw [mapM_comp_map]
    exact mapM_congr_mem fun name _ => ofName_eq tables name
  rw [stageOf, hnames]
  refine bind_lift_map fun locations hlocations => ?_
  -- every location is that of some name, so its hits are there
  have hthere : ∀ l ∈ locations, ∀ hit ∈ l.hits, There tables hit := by
    intro l hl hit hhit
    obtain ⟨name, -, hname⟩ := exists_left_of_forall₂ (mapM_ok_iff.1 hlocations) hl
    exact there_of_ofName hname hhit
  dsimp only
  rw [List.foldl_map, forM_map, forM_lift fun l hl => checkWithin_eq (hthere l hl) _]
  exact bind_lift fun _ _ => rfl

/-- Conditions that are given with their stages, listed stage by stage. -/
def listed (count : Nat) (staged : List (Condition × Nat)) : List (List Condition) :=
  (List.range count).map fun k => (staged.filter (·.2 == k)).map (·.1)

theorem listed_nil (count : Nat) : listed count [] = List.replicate count [] := by
  simp only [listed, List.filter_nil, List.map_nil, List.map_const', List.length_range]

/-- A stage that there is can be looked up, and a condition behind its own ones is the last of the
stage. -/
theorem pushAt_listed {count stage : Nat} (h : stage < count) (staged : List (Condition × Nat))
    (c : Condition) :
    pushAt (listed count staged) stage c = .ok (listed count (staged ++ [(c, stage)])) := by
  have hstage : (listed count staged)[stage]? =
      some ((staged.filter (·.2 == stage)).map (·.1)) := by
    rw [listed, List.getElem?_map, List.getElem?_range h]
    rfl
  rw [pushAt, lookup_eq_ok hstage, ok_bind]
  refine congrArg Except.ok (List.ext_getElem (by simp [listed]) fun k hk hk' => ?_)
  rw [List.getElem_set]
  simp only [listed, List.getElem_map, List.getElem_range, List.filter_append, List.map_append]
  -- only the list of this stage grows
  by_cases heq : stage = k
  · simp [heq]
  · simp [heq]

/-- Conditions that are still to come are put behind those that are listed. -/
theorem foldlM_pushAt (tables : List Table) (conditions : List Condition)
    (staged : List (Condition × Nat)) :
    conditions.foldlM (fun stages c => do
        let stage ← stageOf tables c
        pushAt stages stage c) (listed (max 1 tables.length) staged) =
      lift ((conditions.mapM (ShellQuery.stageOf tables)).map fun stages =>
        listed (max 1 tables.length) (staged ++ conditions.zip stages)) := by
  induction conditions generalizing staged with
  | nil =>
    rw [List.mapM_nil, List.foldlM_nil]
    show _ = Except.ok (listed _ (staged ++ []))
    rw [List.append_nil]
    rfl
  | cons c conditions ih =>
    rw [List.foldlM_cons, List.mapM_cons, stageOf_eq]
    cases hstage : ShellQuery.stageOf tables c with
    | error e => rfl
    | ok stage =>
      -- the stage of a condition is that of one of the tables, so the lookup hits
      rw [lift_ok, ok_bind, pushAt_listed (stageOf_lt hstage), ok_bind, ih]
      cases conditions.mapM (ShellQuery.stageOf tables) with
      | error e => rfl
      | ok stages =>
        show Except.ok (listed _ (staged ++ [(c, stage)] ++ conditions.zip stages)) = _
        rw [List.append_assoc]
        rfl

/-- One pass over the conditions gives the same lists as one selection for each stage. -/
theorem stageConditions_eq (tables : List Table) (conditions : List Condition) :
    stageConditions tables conditions = lift (ShellQuery.stageConditions tables conditions) := by
  have hall := foldlM_pushAt tables conditions []
  rw [listed_nil] at hall
  rw [stageConditions, hall, ShellQuery.stageConditions]
  cases conditions.mapM (ShellQuery.stageOf tables) with
  | error e => rfl
  | ok stages => rfl

end

end Checked

end ShellQuery
