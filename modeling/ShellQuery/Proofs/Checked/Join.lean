import ShellQuery.Proofs.Checked.Table

/-!
# Checked joins

A join looks up its first pair of keys, the columns at the keys, and the groups that a pair touches
while these are taken out one after the other. Keys are positions that names have resolved to, so
they have columns. Groups are taken out from the back, so the places of those in front stay valid
(`foldlM_mergeInto`). All lookups hit: `keyGroups_eq`, `mergeJoin_eq`.
-/

namespace ShellQuery.Checked

/-! ### Groups of keys -/

/-- Makes the group at a place take over another one. -/
def extendAt (groups : List KeyGroup) (i : Nat) (other : KeyGroup) :
    Except Stop (List KeyGroup) := do
  let g ← lookup groups i
  return groups.set i (g.absorb other)

/-- Takes out the group at a place and puts its positions into the group at `first`. -/
def mergeInto (first : Nat) (groups : List KeyGroup) (i : Nat) :
    Except Stop (List KeyGroup) := do
  let other ← lookup groups i
  extendAt (groups.eraseIdx i) first other

/-- The places of the groups that a pair touches, counted from `i` on. -/
def touchedFrom (i : Nat) (groups : List KeyGroup) (pair : Nat × Nat) : List Nat :=
  ((groups.zipIdx i).filter (·.1.touches pair)).map (·.2)

/-- Adds a pair to the first group it touches, which takes over the others it touches. -/
def addPair (groups : List KeyGroup) (pair : Nat × Nat) : Except Stop (List KeyGroup) :=
  match touchedFrom 0 groups pair with
  | [] => .ok (groups ++ [.ofPair pair])
  | first :: others => do
    let merged ← others.reverse.foldlM (mergeInto first) groups
    extendAt merged first (.ofPair pair)

/-- Folds key pairs that share a position into groups. -/
def keyGroups (pairs : List (Nat × Nat)) : Except Stop (List KeyGroup) :=
  pairs.foldlM addPair []

section

variable {pair : Nat × Nat}

theorem touchedFrom_eq_nil {groups : List KeyGroup} (h : ∀ g ∈ groups, ¬g.touches pair = true)
    (i : Nat) : touchedFrom i groups pair = [] := by
  rw [touchedFrom, List.map_eq_nil_iff, List.filter_eq_nil_iff]
  exact fun c hc => h c.1 (List.fst_mem_of_mem_zipIdx hc)

theorem touchedFrom_append (i : Nat) (groups more : List KeyGroup) :
    touchedFrom i (groups ++ more) pair =
      touchedFrom i groups pair ++ touchedFrom (i + groups.length) more pair := by
  rw [touchedFrom, List.zipIdx_append, List.filter_append, List.map_append]
  rfl

theorem touchedFrom_cons (i : Nat) (g : KeyGroup) (groups : List KeyGroup) :
    touchedFrom i (g :: groups) pair =
      (if g.touches pair then [i] else []) ++ touchedFrom (i + 1) groups pair := by
  rw [touchedFrom, List.zipIdx_cons, List.filter_cons]
  split
  · rfl
  · rfl

theorem extendAt_eq {groups : List KeyGroup} {i : Nat} {g : KeyGroup} (h : groups[i]? = some g)
    (other : KeyGroup) : extendAt groups i other = .ok (groups.set i (g.absorb other)) := by
  rw [extendAt, lookup_eq_ok h]
  rfl

/-- The group behind `kept` is there to be taken out, and the one that takes it over is in front. -/
theorem mergeInto_eq {first : Nat} {g : KeyGroup} {kept : List KeyGroup}
    (hfirst : kept[first]? = some g) (a : KeyGroup) (rest : List KeyGroup) :
    mergeInto first (kept ++ a :: rest) kept.length =
      .ok (kept.set first (g.absorb a) ++ rest) := by
  have hlt : first < kept.length := (List.getElem?_eq_some_iff.1 hfirst).1
  have hother : (kept ++ a :: rest)[kept.length]? = some a := by
    rw [List.getElem?_append_right (Nat.le_refl _), Nat.sub_self]
    rfl
  have hrest : (kept ++ a :: rest).eraseIdx kept.length = kept ++ rest := by
    rw [List.eraseIdx_append_of_length_le (Nat.le_refl _), Nat.sub_self, List.eraseIdx_cons_zero]
  have hfirst' : (kept ++ rest)[first]? = some g := by
    rw [List.getElem?_append_left hlt, hfirst]
  rw [mergeInto, lookup_eq_ok hother, ok_bind, hrest, extendAt_eq hfirst',
    List.set_append_left _ _ hlt]

/-- Taking out the touched groups behind `kept` from the back puts all of them into the group at
`first`, and leaves the others as they are. -/
theorem foldlM_mergeInto (pair : Nat × Nat) {first : Nat} {g : KeyGroup}
    (behind : List KeyGroup) {kept : List KeyGroup} (hfirst : kept[first]? = some g) :
    (touchedFrom kept.length behind pair).reverse.foldlM (mergeInto first) (kept ++ behind) =
      .ok (kept.set first ((behind.filter (·.touches pair)).reverse.foldl KeyGroup.absorb g) ++
        behind.filter (!·.touches pair)) := by
  induction behind generalizing kept with
  | nil =>
    obtain ⟨hlt, hg⟩ := List.getElem?_eq_some_iff.1 hfirst
    rw [List.filter_nil, List.filter_nil, List.reverse_nil, List.foldl_nil, ← hg,
      List.set_getElem_self hlt]
    rfl
  | cons a behind ih =>
    have hlt : first < kept.length := (List.getElem?_eq_some_iff.1 hfirst).1
    -- the groups behind `a` are taken out before `a`, which stays where it is until then
    have hkept : (kept ++ [a])[first]? = some g := by rw [List.getElem?_append_left hlt, hfirst]
    have hbehind := ih hkept
    rw [List.length_append, List.length_singleton, List.set_append_left _ _ hlt,
      List.append_assoc, List.append_assoc, List.singleton_append, List.singleton_append] at hbehind
    rw [touchedFrom_cons, List.reverse_append, List.foldlM_append, hbehind]
    by_cases ha : a.touches pair = true
    · have hmerged := mergeInto_eq (List.getElem?_set_self
        (a := (behind.filter (·.touches pair)).reverse.foldl KeyGroup.absorb g) hlt) a
        (behind.filter (!·.touches pair))
      rw [List.length_set, List.set_set] at hmerged
      simp only [ha, ↓reduceIte, List.filter_cons, Bool.not_true, Bool.false_eq_true,
        List.reverse_cons, List.foldl_append, List.reverse_nil, List.nil_append]
      show mergeInto first _ kept.length >>= pure = _
      rw [hmerged]
      rfl
    · simp only [ha, ↓reduceIte, List.filter_cons, Bool.not_false, Bool.false_eq_true,
        List.reverse_nil]
      rfl

/-- Adding a pair misses no place and gives the groups of the planner. -/
theorem addPair_eq (groups : List KeyGroup) (pair : Nat × Nat) :
    addPair groups pair = .ok (KeyGroup.addPair groups pair) := by
  rcases KeyGroup.addPair_cases groups pair with
    ⟨hnone, heq⟩ | ⟨before, g, after, rfl, hbefore, hg, heq⟩
  · rw [addPair, touchedFrom_eq_nil hnone, heq]
  -- the first touched place is behind the groups in front, the others are behind it
  · have htouched : touchedFrom 0 (before ++ g :: after) pair =
        before.length :: touchedFrom (before.length + 1) after pair := by
      rw [touchedFrom_append, touchedFrom_eq_nil hbefore, touchedFrom_cons, Nat.zero_add, hg]
      rfl
    have hfirst : (before ++ [g])[before.length]? = some g := by
      rw [List.getElem?_append_right (Nat.le_refl _), Nat.sub_self]
      rfl
    have hmerged := foldlM_mergeInto pair after hfirst
    rw [List.length_append, List.length_singleton, List.append_assoc, List.singleton_append,
      List.set_append_right _ _ (Nat.le_refl _), Nat.sub_self, List.set_cons_zero,
      List.append_assoc, List.singleton_append] at hmerged
    rw [addPair, htouched, heq]
    dsimp only
    rw [hmerged]
    refine (extendAt_eq (g := (after.filter (·.touches pair)).reverse.foldl KeyGroup.absorb g)
      ?_ _).trans ?_
    · rw [List.getElem?_append_right (Nat.le_refl _), Nat.sub_self]
      rfl
    · rw [List.set_append_right _ _ (Nat.le_refl _), Nat.sub_self, List.set_cons_zero]
      rfl

theorem keyGroups_eq (pairs : List (Nat × Nat)) :
    keyGroups pairs = .ok (KeyGroup.ofPairs pairs) := by
  have hstep : addPair = fun groups pair => pure (KeyGroup.addPair groups pair) := by
    funext groups pair
    exact addPair_eq groups pair
  rw [keyGroups, hstep, List.foldlM_pure]
  rfl

end

/-! ### The joined table -/

/-- The column of a key group, with the position in the join output that holds its value. -/
def groupColumn (left right : Table) (leftKey : Nat) (g : KeyGroup) :
    Except Stop (Nat × Column) := do
  let first ← lookup g.left 0
  let column ← lookup left.columns first
  let lefts ← g.left.tail.mapM (lookup left.columns)
  let rights ← g.right.mapM (lookup right.columns)
  return (Table.joinedLeft leftKey first, (lefts ++ rights).foldl Column.merge column)

/-- The columns of a table that are no keys, with their positions. -/
def restColumns (t : Table) (keys : List Nat) : Except Stop (List (Nat × Column)) :=
  (Table.freePositions t.columns.length keys).mapM fun p => do
    let column ← lookup t.columns p
    return (p, column)

/-- The join of two sorted tables on one pair of keys. -/
def joinOn (left right : Table) (key : Nat × Nat) (name : String) : Except Stop Table := do
  let leftColumn ← lookup left.columns key.1
  let rightColumn ← lookup right.columns key.2
  let leftRest ← restColumns left [key.1]
  let rightRest ← restColumns right [key.2]
  return ⟨name, left.delimiter, .join left right key.1 key.2,
    leftColumn.merge rightColumn :: (leftRest.map (·.2) ++ rightRest.map (·.2)), [], []⟩

/-- The columns of a join on some pairs, each with the position that holds its value in the output
of the join command. -/
def chosen (left right : Table) (key : Nat × Nat) (pairs : List (Nat × Nat)) :
    Except Stop (List (Nat × Column)) := do
  let groups ← keyGroups pairs
  let keyColumns ← groups.mapM (groupColumn left right key.1)
  let leftRest ← restColumns left (pairs.map (·.1)).eraseDups
  let rightRest ← restColumns right (pairs.map (·.2)).eraseDups
  return keyColumns ++ leftRest.map (fun c => (Table.joinedLeft key.1 c.1, c.2)) ++
    rightRest.map (fun c => (Table.joinedRight left.columns.length key.2 c.1, c.2))

/-- Joins two tables on equalities, under the given name. -/
def mergeJoin (left right : Table) (conditions : List Comparison) (name : String) :
    Except Stop Table := do
  if conditions.isEmpty then
    .error (.refused (.unsupportedJoin (.noCondition left.name right.name)))
  else
    let pairs ← lift (conditions.mapM (Table.keyPair left right))
    let left ← ensureSorted left (pairs.map (·.1)).eraseDups
    let right ← ensureSorted right (pairs.map (·.2)).eraseDups
    let key ← lookup pairs 0
    let joined ← joinOn left right key name
    if pairs.length ≤ 1 then return joined
    else
      let tests := Table.chainedTests left.columns.length key.1 key.2 pairs.tail
      let columns ← chosen left right key pairs
      project (joined.filter tests) (columns.map (·.1)) (columns.map (·.2))

theorem restColumns_eq (t : Table) (keys : List Nat) :
    restColumns t keys = .ok (t.restColumns keys) := by
  rw [restColumns, ← Table.restColumns_fst, mapM_ok_iff, List.forall₂_map_left_iff,
    List.forall₂_same]
  rintro ⟨p, c⟩ hpc
  rw [lookup_eq_ok (Table.mem_restColumns.1 hpc).1]
  rfl

section

variable {left right : Table} {pairs : List (Nat × Nat)}

/-- Every group has a column to begin with and others to merge into it. -/
theorem mapM_groupColumn
    (hwithin : Table.PairsWithin left.columns.length right.columns.length pairs) (leftKey : Nat) :
    (KeyGroup.ofPairs pairs).mapM (groupColumn left right leftKey) =
      .ok (Table.groupColumns left right leftKey (KeyGroup.ofPairs pairs)) := by
  refine mapM_eq_filterMap fun g hg => ?_
  obtain ⟨hleft, hright⟩ := Table.lt_of_mem_group hwithin hg
  obtain ⟨l, hl⟩ := Table.exists_head hg
  obtain ⟨ls, hls⟩ := List.head?_eq_some_iff.1 hl
  rw [hls] at hleft
  have hlt : l < left.columns.length := hleft l List.mem_cons_self
  have hcolumn : left.columns[l]? = some left.columns[l] := List.getElem?_eq_getElem hlt
  have htail : ∀ p ∈ ls, p < left.columns.length :=
    fun p hp => hleft p (List.mem_cons_of_mem l hp)
  refine ⟨(Table.joinedLeft leftKey l, (left.columnsAt ls ++ right.columnsAt g.right).foldl
    Column.merge left.columns[l]), ?_, ?_⟩
  · rw [groupColumn, hls, lookup_eq_ok (a := l) rfl, ok_bind, lookup_eq_ok hcolumn, ok_bind,
      List.tail_cons, mapM_lookup htail, ok_bind, mapM_lookup hright]
    rfl
  · simp only [hls, List.head?_cons, Table.groupColumn?, Table.columnsAt,
      List.filterMap_cons_some hcolumn]
    rfl

theorem joinOn_eq {key : Nat × Nat} (hkey : key.1 < left.columns.length)
    (hkey' : key.2 < right.columns.length) (name : String) :
    joinOn left right key name = .ok (Table.joinOn left right key.1 key.2 name) := by
  have hleft := List.getElem?_eq_getElem hkey
  have hright := List.getElem?_eq_getElem hkey'
  rw [joinOn, lookup_eq_ok hleft, lookup_eq_ok hright, restColumns_eq, restColumns_eq,
    Table.joinOn, Table.joinedColumns, hleft, hright, ← Table.map_snd_restColumns,
    ← Table.map_snd_restColumns]
  rfl

theorem chosen_eq (hwithin : Table.PairsWithin left.columns.length right.columns.length pairs)
    (key : Nat × Nat) :
    chosen left right key pairs = .ok (Table.chosen left right key.1 key.2 pairs) := by
  rw [chosen, keyGroups_eq, ok_bind, mapM_groupColumn hwithin, restColumns_eq, restColumns_eq]
  rfl

end

/-- A join with every lookup checked is the join. -/
theorem mergeJoin_eq (left right : Table) (conditions : List Comparison) (name : String) :
    mergeJoin left right conditions name = lift (left.mergeJoin right conditions name) := by
  unfold mergeJoin
  cases conditions with
  | nil => rfl
  | cons c conditions =>
    refine bind_lift fun pairs hpairs => ?_
    cases pairs with
    | nil => exact absurd (mapM_ok_iff.1 hpairs).length_eq (by simp)
    | cons key more =>
      have hleading := Table.leadingPairs_of_mapM hpairs
      have hwithin := hleading.within
      obtain ⟨hkey, hkey'⟩ := hwithin key List.mem_cons_self
      have hleft : ∀ p ∈ ((key :: more).map (·.1)).eraseDups, p < left.columns.length :=
        fun p hp => (hleading.leads_left p (List.mem_eraseDups.1 hp)).lt
      have hright : ∀ p ∈ ((key :: more).map (·.2)).eraseDups, p < right.columns.length :=
        fun p hp => (hleading.leads_right p (List.mem_eraseDups.1 hp)).lt
      rw [ensureSorted_eq hleft, ok_bind, ensureSorted_eq hright, ok_bind,
        lookup_eq_ok (a := key) rfl, ok_bind]
      -- sorting has not changed the columns
      rw [← left.columns_ensureSorted ((key :: more).map (·.1)).eraseDups] at hwithin hkey
      rw [← right.columns_ensureSorted ((key :: more).map (·.2)).eraseDups] at hwithin hkey'
      rw [joinOn_eq hkey hkey']
      cases more with
      | nil => rfl
      | cons p more =>
        have hlength : ∀ columns : List (Nat × Column),
            (columns.map (·.1)).length = (columns.map (·.2)).length := by simp
        show (chosen _ _ key (key :: p :: more) >>= _) = _
        rw [chosen_eq hwithin, ok_bind, project_eq (hlength _)]
        rfl

end ShellQuery.Checked
