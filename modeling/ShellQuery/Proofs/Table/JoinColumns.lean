import ShellQuery.Proofs.Column.Merging
import ShellQuery.Proofs.Table.KeyGroup
import ShellQuery.Proofs.Table.Resolution
import ShellQuery.Table.Join

/-!
# The columns of a merge join

A merge join is `joinTable` on the key pairs that its equalities give (`mergeJoin_ok_iff`,
`keyPair_ok_iff`). Each column of the result stands for one position of either side, its *pick*: the
first left position of a key group, or a position that is no key.

* `forall₂_picks`: the positions linked with a pick are its class, and `joinClasses` lists the
  classes in the order of the columns;
* `forall₂_classes`: the column of a class is merged from the columns at its positions;
* `forall₂_chosen`: so it answers to what the columns at the positions linked with its pick answered
  to, and its value stands where the join command prints the pick (`PickColumn`);
* `exists_mem_picks`, `pairwise_picks`: every position is linked with exactly one pick.
-/

namespace ShellQuery

/-- The element at a position of either of two lists. -/
def atSide {α : Type} (ls rs : List α) : Nat ⊕ Nat → Option α :=
  Sum.elim (ls[·]?) (rs[·]?)

/-- Elements that are picked by two related rules are related. -/
theorem forall₂_filterMap {α β γ : Type} {R : β → γ → Prop} {f : α → Option β} {g : α → Option γ}
    {as : List α} (h : ∀ a ∈ as, ∃ b c, f a = some b ∧ g a = some c ∧ R b c) :
    List.Forall₂ R (as.filterMap f) (as.filterMap g) := by
  induction as with
  | nil => exact .nil
  | cons a as ih =>
    obtain ⟨b, c, hb, hc, hR⟩ := h a List.mem_cons_self
    rw [List.filterMap_cons_some hb, List.filterMap_cons_some hc]
    exact .cons hR (ih fun a' ha' => h a' (List.mem_cons_of_mem a ha'))

namespace Table

/-! ### Key pairs -/

/-- An equality gives a pair of keys exactly when one of its columns is found on the left only and
the other one on the right only. -/
theorem keyPair_ok_iff {left right : Table} {c : Comparison} {l r : Nat} :
    keyPair left right c = .ok (l, r) ↔ ∃ a b, c.left = .column a ∧ c.right = .column b ∧
      c.operator = .eq ∧
      ((left.tryResolve a = .ok (some l) ∧ right.tryResolve a = .ok none ∧
          left.tryResolve b = .ok none ∧ right.tryResolve b = .ok (some r)) ∨
        (left.tryResolve a = .ok none ∧ right.tryResolve a = .ok (some r) ∧
          left.tryResolve b = .ok (some l) ∧ right.tryResolve b = .ok none)) := by
  unfold keyPair
  split
  · next a b ha hb =>
    simp only [ha, hb, Operand.column.injEq, exists_and_left, exists_eq_left']
    split
    · next ho =>
      simp only [ho, true_and, bind_ok_iff]
      constructor
      · -- the two cases that succeed are those of the statement
        rintro ⟨la, hla, ra, hra, lb, hlb, rb, hrb, h⟩
        split at h
        · obtain ⟨rfl, rfl⟩ := Prod.mk.inj (Except.ok.inj h)
          exact .inl ⟨hla, hra, hlb, hrb⟩
        · obtain ⟨rfl, rfl⟩ := Prod.mk.inj (Except.ok.inj h)
          exact .inr ⟨hla, hra, hlb, hrb⟩
        · simp at h
        · simp at h
        · simp at h
      -- the same two cases read back: where each side is found decides the branch
      · rintro (⟨hla, hra, hlb, hrb⟩ | ⟨hla, hra, hlb, hrb⟩)
        · exact ⟨_, hla, _, hra, _, hlb, _, hrb, rfl⟩
        · exact ⟨_, hla, _, hra, _, hlb, _, hrb, rfl⟩
    · next ho => simp [ho]
  · next hne =>
    simp only [reduceCtorEq, false_iff]
    rintro ⟨a, b, ha, hb, -⟩
    exact hne a b ha hb

/-! ### The joined table -/

@[simp]
theorem columns_ensureSorted (t : Table) (positions : List Nat) :
    (t.ensureSorted positions).columns = t.columns := by
  unfold ensureSorted sortPositions
  split
  · rfl
  · dsimp only
    split
    · rfl
    · rfl

theorem length_joinedColumns {left right : Table} {leftKey rightKey : Nat}
    (hkey : leftKey < left.columns.length) (hkey' : rightKey < right.columns.length) :
    (joinedColumns left right leftKey rightKey).length =
      left.columns.length + right.columns.length - 1 := by
  rw [joinedColumns, List.getElem?_eq_getElem hkey, List.getElem?_eq_getElem hkey']
  simp only [List.length_append, Option.bind_some, Option.map_some, Option.toList_some,
    List.length_singleton]
  rw [List.length_eraseIdx_of_lt hkey, List.length_eraseIdx_of_lt hkey']
  omega

/-- The columns of a join on some pairs, each with the position that holds its value in the output
of the join command on the first pair. -/
def chosen (left right : Table) (leftKey rightKey : Nat) (pairs : List (Nat × Nat)) :
    List (Nat × Column) :=
  groupColumns left right leftKey (KeyGroup.ofPairs pairs) ++
    (left.restColumns (pairs.map (·.1)).eraseDups).map
      (fun c => (joinedLeft leftKey c.1, c.2)) ++
    (right.restColumns (pairs.map (·.2)).eraseDups).map
      (fun c => (joinedRight left.columns.length rightKey c.1, c.2))

/-- The join of two tables on the pair `key` and on `more` pairs. -/
def joinTable (left right : Table) (key : Nat × Nat) (more : List (Nat × Nat)) (name : String) :
    Table :=
  let joined := joinOn (left.ensureSorted ((key :: more).map (·.1)).eraseDups)
    (right.ensureSorted ((key :: more).map (·.2)).eraseDups) key.1 key.2 name
  if more.isEmpty then joined
  else
    let columns := chosen left right key.1 key.2 (key :: more)
    (joined.filter (chainedTests left.columns.length key.1 key.2 more)).project
      (columns.map (·.1)) (columns.map (·.2))

theorem chosen_ensureSorted (left right : Table) (leftKey rightKey : Nat) (ls rs : List Nat)
    (pairs : List (Nat × Nat)) :
    chosen (left.ensureSorted ls) (right.ensureSorted rs) leftKey rightKey pairs =
      chosen left right leftKey rightKey pairs := by
  simp only [chosen, groupColumns, groupColumn?, restColumns, columnsAt, columns_ensureSorted]

/-- The joined table, its keys being taken from the sorted tables. -/
theorem joinTable_eq (left right : Table) (key : Nat × Nat) (more : List (Nat × Nat))
    (name : String) :
    joinTable left right key more name =
      let left := left.ensureSorted ((key :: more).map (·.1)).eraseDups
      let right := right.ensureSorted ((key :: more).map (·.2)).eraseDups
      let joined := joinOn left right key.1 key.2 name
      if more.isEmpty then joined
      else
        let columns := chosen left right key.1 key.2 (key :: more)
        (joined.filter (chainedTests left.columns.length key.1 key.2 more)).project
          (columns.map (·.1)) (columns.map (·.2)) := by
  dsimp only
  rw [chosen_ensureSorted, columns_ensureSorted]
  rfl

/-- A join succeeds exactly when every equality gives a pair of keys and there is one at least. -/
theorem mergeJoin_ok_iff {left right t : Table} {conditions : List Comparison} {name : String} :
    mergeJoin left right conditions name = .ok t ↔ ∃ key more,
      conditions.mapM (keyPair left right) = .ok (key :: more) ∧
      joinTable left right key more name = t := by
  rw [mergeJoin, bind_ok_iff]
  -- with a single pair nothing is chained, which is the one case that the code treats apart
  constructor
  · rintro ⟨pairs, hpairs, h⟩
    cases pairs with
    | nil => simp at h
    | cons key more =>
      refine ⟨key, more, hpairs, ?_⟩
      rw [joinTable_eq]
      dsimp only at h ⊢
      split at h
      · next hmore => rw [if_pos hmore, pure_ok_iff.1 h]
      · next hmore => rw [if_neg hmore, ← pure_ok_iff.1 h]; rfl
  · rintro ⟨key, more, hpairs, rfl⟩
    refine ⟨_, hpairs, ?_⟩
    rw [joinTable_eq]
    dsimp only
    split
    · rfl
    · rfl

/-! ### Picks -/

/-- The positions of a row of the given width that are no keys. -/
def freePositions (width : Nat) (keys : List Nat) : List Nat :=
  (List.range width).filter (!keys.contains ·)

/-- The positions that the columns of a join of tables of the given widths stand for. -/
def picks (leftWidth rightWidth : Nat) (pairs : List (Nat × Nat)) : List (Nat ⊕ Nat) :=
  (KeyGroup.ofPairs pairs).filterMap (fun g => g.left.head?.map .inl) ++
    (freePositions leftWidth (pairs.map (·.1)).eraseDups).map .inl ++
    (freePositions rightWidth (pairs.map (·.2)).eraseDups).map .inr

/-- Where the join command prints a position of either side. -/
def joinedAt (leftWidth leftKey rightKey : Nat) : Nat ⊕ Nat → Nat :=
  Sum.elim (joinedLeft leftKey) (joinedRight leftWidth rightKey)

/-- All pairs are pairs of positions of the two tables. -/
def PairsWithin (leftWidth rightWidth : Nat) (pairs : List (Nat × Nat)) : Prop :=
  ∀ p ∈ pairs, p.1 < leftWidth ∧ p.2 < rightWidth

theorem restColumns_fst (t : Table) (keys : List Nat) :
    (t.restColumns keys).map (·.1) = freePositions t.columns.length keys := by
  rw [restColumns, freePositions, List.map_map, List.range_eq_range', ← List.zipIdx_map_snd 0,
    List.filter_map]
  rfl

/-- What is left of a table are the columns that are no keys. -/
theorem mem_restColumns {t : Table} {keys : List Nat} {p : Nat} {c : Column} :
    (p, c) ∈ t.restColumns keys ↔ t.columns[p]? = some c ∧ p ∉ keys := by
  rw [restColumns, List.mem_map]
  constructor
  · rintro ⟨⟨d, q⟩, hmem, heq⟩
    obtain ⟨rfl, rfl⟩ := Prod.mk.inj heq
    obtain ⟨hz, hk⟩ := List.mem_filter.1 hmem
    exact ⟨List.mk_mem_zipIdx_iff_getElem?.1 hz, by simpa using hk⟩
  · rintro ⟨hc, hk⟩
    exact ⟨(c, p), List.mem_filter.2 ⟨List.mk_mem_zipIdx_iff_getElem?.2 hc, by simpa using hk⟩, rfl⟩

theorem mem_freePositions {width p : Nat} {keys : List Nat} :
    p ∈ freePositions width keys ↔ p < width ∧ p ∉ keys := by
  simp [freePositions]

theorem columnsAt_eq_of_lt {t : Table} {positions : List Nat}
    (h : ∀ p ∈ positions, p < t.columns.length) :
    List.Forall₂ (fun p c => t.columns[p]? = some c) positions (t.columnsAt positions) := by
  induction positions with
  | nil => exact .nil
  | cons p positions ih =>
    have hp := List.getElem?_eq_getElem (h p List.mem_cons_self)
    rw [columnsAt, List.filterMap_cons_some hp]
    exact .cons hp (ih fun q hq => h q (List.mem_cons_of_mem p hq))

/-- Leaving out one position is erasing the element there. -/
theorem map_fst_filter_zipIdx {α : Type} (as : List α) (i k : Nat) :
    ((as.zipIdx i).filter fun a => !([i + k].contains a.2)).map (·.1) = as.eraseIdx k := by
  -- along the list, whose positions count up from `i`
  induction as generalizing i k with
  | nil => rfl
  | cons a as ih =>
    rw [List.zipIdx_cons]
    cases k with
    | zero =>
      have hall : ∀ b ∈ as.zipIdx (i + 1), (!([i + 0].contains b.2)) = true := by
        rintro ⟨b, j⟩ hb
        have hj := List.le_snd_of_mem_zipIdx hb
        have hne : j ≠ i := by omega
        simp [hne]
      rw [List.filter_cons_of_neg (by simp), List.filter_eq_self.2 hall, List.zipIdx_map_fst]
      rfl
    | succ k =>
      rw [List.filter_cons_of_pos (by simp), List.map_cons, List.eraseIdx_cons_succ, ← ih (i + 1) k]
      simp only [Nat.add_assoc, Nat.add_comm 1 k]

theorem map_snd_restColumns (t : Table) (key : Nat) :
    (t.restColumns [key]).map (·.2) = t.columns.eraseIdx key := by
  rw [← map_fst_filter_zipIdx t.columns 0 key, restColumns, List.map_map, Nat.zero_add]
  rfl

/-- The classes of a join on some pairs whose keys fall into the given groups: the groups, then
every other left position and every other right position by itself. -/
def joinClasses (leftWidth rightWidth : Nat) (pairs : List (Nat × Nat)) (groups : List KeyGroup) :
    List (List (Nat ⊕ Nat)) :=
  groups.map KeyGroup.positions ++
    (freePositions leftWidth (pairs.map (·.1))).map (fun p => [.inl p]) ++
    (freePositions rightWidth (pairs.map (·.2))).map (fun p => [.inr p])

/-- Repeating a key leaves the free positions as they are. -/
theorem freePositions_eraseDups (width : Nat) (keys : List Nat) :
    freePositions width keys.eraseDups = freePositions width keys := by
  refine List.filter_congr fun p _ => ?_
  have hmem : (keys.eraseDups.contains p = true) = (keys.contains p = true) := by
    rw [List.contains_iff_mem, List.contains_iff_mem, List.mem_eraseDups]
  rw [Bool.eq_iff_iff.2 (iff_of_eq hmem)]

section

variable {left right : Table} {pairs : List (Nat × Nat)}

/-- A left position that is no key is linked to itself only. -/
theorem eq_of_linked_inl {p : Nat} (hp : p ∉ (pairs.map (·.1)).eraseDups) {y : Nat ⊕ Nat}
    (h : Linked pairs (.inl p) y) : Sum.inl p = y := by
  refine h.eq_of_notMem fun k hk => ⟨fun heq => hp ?_, Sum.inl_ne_inr⟩
  rw [Sum.inl.inj heq, List.mem_eraseDups]
  exact List.mem_map_of_mem hk

/-- A right position that is no key is linked to itself only. -/
theorem eq_of_linked_inr {p : Nat} (hp : p ∉ (pairs.map (·.2)).eraseDups) {y : Nat ⊕ Nat}
    (h : Linked pairs (.inr p) y) : Sum.inr p = y := by
  refine h.eq_of_notMem fun k hk => ⟨Sum.inr_ne_inl, fun heq => hp ?_⟩
  rw [Sum.inr.inj heq, List.mem_eraseDups]
  exact List.mem_map_of_mem hk

theorem has_head {g : KeyGroup} {l : Nat} (h : g.left.head? = some l) : g.Has (.inl l) :=
  List.mem_of_mem_head? h

/-- The first left position of a group is linked with exactly the positions of the group. -/
theorem linked_head_iff {g : KeyGroup} (hg : g ∈ KeyGroup.ofPairs pairs) {l : Nat}
    (hl : g.left.head? = some l) {y : Nat ⊕ Nat} : Linked pairs (.inl l) y ↔ g.Has y := by
  have hcomp := components_ofPairs pairs
  exact ⟨fun h => (hcomp.has_iff hg h).1 (has_head hl),
    fun h => hcomp.linked g hg _ _ (has_head hl) h⟩

theorem exists_head {g : KeyGroup} (hg : g ∈ KeyGroup.ofPairs pairs) :
    ∃ l, g.left.head? = some l := by
  obtain ⟨l, hl⟩ := (components_ofPairs pairs).nonempty g hg
  exact ⟨_, List.head?_eq_some_head (List.ne_nil_of_mem hl)⟩

/-- Every position of either side is linked with a pick. -/
theorem exists_mem_picks {leftWidth rightWidth : Nat} (pairs : List (Nat × Nat)) {y : Nat ⊕ Nat}
    (hy : y.elim (· < leftWidth) (· < rightWidth)) :
    ∃ x ∈ picks leftWidth rightWidth pairs, Linked pairs x y := by
  have hcomp := components_ofPairs pairs
  -- a key is linked with the pick of its group
  have hkey : ∀ {p}, p ∈ pairs → Linked pairs (.inl p.1) y →
      ∃ x ∈ picks leftWidth rightWidth pairs, Linked pairs x y := by
    intro p hp hy
    obtain ⟨g, hg, hhas⟩ := hcomp.covers p hp
    obtain ⟨l, hl⟩ := exists_head hg
    refine ⟨.inl l, ?_, .trans _ _ _ ((linked_head_iff hg hl).2 hhas) hy⟩
    rw [picks, List.append_assoc]
    exact List.mem_append_left _ (List.mem_filterMap.2 ⟨g, hg, by rw [hl]; rfl⟩)
  cases y with
  | inl l =>
    by_cases hl : l ∈ (pairs.map (·.1)).eraseDups
    · rw [List.mem_eraseDups] at hl
      obtain ⟨p, hp, rfl⟩ := List.mem_map.1 hl
      exact hkey hp (.refl _)
    · refine ⟨.inl l, ?_, .refl _⟩
      exact List.mem_append_left _ (List.mem_append_right _
        (List.mem_map_of_mem (mem_freePositions.2 ⟨hy, hl⟩)))
  | inr r =>
    by_cases hr : r ∈ (pairs.map (·.2)).eraseDups
    · rw [List.mem_eraseDups] at hr
      obtain ⟨p, hp, rfl⟩ := List.mem_map.1 hr
      exact hkey hp (.of_mem hp)
    · refine ⟨.inr r, ?_, .refl _⟩
      exact List.mem_append_right _ (List.mem_map_of_mem (mem_freePositions.2 ⟨hy, hr⟩))

/-- Picks are positions of the two tables. -/
theorem elim_of_mem_picks {leftWidth rightWidth : Nat}
    (hwithin : PairsWithin leftWidth rightWidth pairs) {x : Nat ⊕ Nat}
    (hx : x ∈ picks leftWidth rightWidth pairs) : x.elim (· < leftWidth) (· < rightWidth) := by
  rw [picks, List.mem_append, List.mem_append] at hx
  rcases hx with (hx | hx) | hx
  · obtain ⟨g, hg, heq⟩ := List.mem_filterMap.1 hx
    obtain ⟨l, hl, rfl⟩ := Option.map_eq_some_iff.1 heq
    obtain ⟨p, hp, heq | heq⟩ := (components_ofPairs pairs).inside g hg _ (has_head hl)
    · rw [Sum.inl.inj heq]
      exact (hwithin p hp).1
    · exact absurd heq Sum.inl_ne_inr
  · obtain ⟨l, hl, rfl⟩ := List.mem_map.1 hx
    exact (mem_freePositions.1 hl).1
  · obtain ⟨r, hr, rfl⟩ := List.mem_map.1 hx
    exact (mem_freePositions.1 hr).1

/-- No two picks are linked. -/
theorem pairwise_picks (leftWidth rightWidth : Nat) (pairs : List (Nat × Nat)) :
    (picks leftWidth rightWidth pairs).Pairwise fun x y => ¬Linked pairs x y := by
  have hcomp := components_ofPairs pairs
  have hfree : ∀ (width : Nat) keys, (freePositions width keys).Pairwise (· ≠ ·) :=
    fun width keys => List.nodup_range.filter _
  rw [picks, List.pairwise_append, List.pairwise_append]
  refine ⟨⟨?_, ?_, ?_⟩, ?_, ?_⟩
  · rw [List.pairwise_filterMap]
    refine hcomp.apart.imp_of_mem ?_
    intro g h hg hh hapart x hx y hy hxy
    obtain ⟨l, hl, rfl⟩ := Option.map_eq_some_iff.1 hx
    obtain ⟨l', hl', rfl⟩ := Option.map_eq_some_iff.1 hy
    exact hapart _ ⟨(linked_head_iff hg hl).1 hxy, has_head hl'⟩
  · rw [List.pairwise_map]
    refine (hfree _ _).imp_of_mem ?_
    intro p q hp _ hne hpq
    exact hne (Sum.inl.inj (eq_of_linked_inl (mem_freePositions.1 hp).2 hpq))
  · intro x hx y hy hxy
    obtain ⟨g, hg, heq⟩ := List.mem_filterMap.1 hx
    obtain ⟨l, hl, rfl⟩ := Option.map_eq_some_iff.1 heq
    obtain ⟨p, hp, rfl⟩ := List.mem_map.1 hy
    -- a free position is in no group
    have hp := (mem_freePositions.1 hp).2
    obtain ⟨k, hk, heq | heq⟩ := hcomp.inside g hg _ ((linked_head_iff hg hl).1 hxy)
    · rw [Sum.inl.inj heq, List.mem_eraseDups] at hp
      exact hp (List.mem_map_of_mem hk)
    · exact absurd heq Sum.inl_ne_inr
  · rw [List.pairwise_map]
    refine (hfree _ _).imp_of_mem ?_
    intro p q hp _ hne hpq
    exact hne (Sum.inr.inj (eq_of_linked_inr (mem_freePositions.1 hp).2 hpq))
  · intro x hx y hy hxy
    obtain ⟨r, hr, rfl⟩ := List.mem_map.1 hy
    have hr := (mem_freePositions.1 hr).2
    obtain rfl := eq_of_linked_inr hr hxy.symm
    rcases List.mem_append.1 hx with hx | hx
    · obtain ⟨g, -, heq⟩ := List.mem_filterMap.1 hx
      obtain ⟨l, -, heq⟩ := Option.map_eq_some_iff.1 heq
      exact absurd heq Sum.inl_ne_inr
    · obtain ⟨l, -, heq⟩ := List.mem_map.1 hx
      exact absurd heq Sum.inl_ne_inr

theorem isSome_atSide {α : Type} {ls rs : List α} {x : Nat ⊕ Nat} :
    (atSide ls rs x).isSome = true ↔ x.elim (· < ls.length) (· < rs.length) := by
  cases x with
  | inl l => simp [atSide]
  | inr r => simp [atSide]

/-- A class begins with its pick and consists of the positions linked with it. -/
theorem forall₂_picks (leftWidth rightWidth : Nat) (pairs : List (Nat × Nat)) :
    List.Forall₂ (fun cls x => cls.head? = some x ∧ ∀ y, y ∈ cls ↔ Linked pairs x y)
      (joinClasses leftWidth rightWidth pairs (KeyGroup.ofPairs pairs))
      (picks leftWidth rightWidth pairs) := by
  -- a position of no pair is linked to itself only
  have hfree : ∀ {x : Nat ⊕ Nat}, (∀ y, Linked pairs x y → x = y) →
      ∀ y, y ∈ [x] ↔ Linked pairs x y := by
    intro x hx y
    rw [List.mem_singleton]
    constructor
    · rintro rfl
      exact .refl y
    · exact fun h => (hx y h).symm
  refine List.rel_append (List.rel_append ?_ ?_) ?_
  · rw [← List.filterMap_eq_map]
    refine forall₂_filterMap fun g hg => ?_
    obtain ⟨l, hl⟩ := exists_head hg
    refine ⟨g.positions, .inl l, rfl, by rw [hl]; rfl, KeyGroup.head?_positions hl, fun y => ?_⟩
    rw [KeyGroup.mem_positions, linked_head_iff hg hl]
  · rw [← freePositions_eraseDups, List.forall₂_map_left_iff, List.forall₂_map_right_iff,
      List.forall₂_same]
    exact fun p hp => ⟨rfl, hfree fun y => eq_of_linked_inl (mem_freePositions.1 hp).2⟩
  · rw [← freePositions_eraseDups, List.forall₂_map_left_iff, List.forall₂_map_right_iff,
      List.forall₂_same]
    exact fun p hp => ⟨rfl, hfree fun y => eq_of_linked_inr (mem_freePositions.1 hp).2⟩

/-- The column of a class, merged from the columns at the positions of the class. -/
def ClassColumn (left right : Table) (cls : List (Nat ⊕ Nat)) (c : Column) : Prop :=
  ∃ ds, List.Forall₂ (fun x d => atSide left.columns right.columns x = some d) cls ds ∧
    c.MergedFrom ds

theorem classColumn_singleton {x : Nat ⊕ Nat} {c : Column}
    (h : atSide left.columns right.columns x = some c) : ClassColumn left right [x] c :=
  ⟨[c], .cons h .nil, c.mergedFrom_self⟩

/-- The column of a class answers to what the columns at the positions of the class answer to. -/
theorem ClassColumn.answersTo_iff {cls : List (Nat ⊕ Nat)} {c : Column}
    (h : ClassColumn left right cls c) (n : ColumnName) : c.answersTo n = true ↔
      ∃ y ∈ cls, ∃ d, atSide left.columns right.columns y = some d ∧ d.answersTo n = true := by
  obtain ⟨ds, hds, hmerged⟩ := h
  rw [hmerged.answersTo_iff]
  constructor
  · rintro ⟨d, hd, hn⟩
    obtain ⟨y, hy, hyd⟩ := exists_left_of_forall₂ hds hd
    exact ⟨y, hy, d, hyd, hn⟩
  · rintro ⟨y, hy, d, hyd, hn⟩
    obtain ⟨e, he, hye⟩ := exists_right_of_forall₂ hds hy
    exact ⟨e, he, Option.some.inj (hyd.symm.trans hye) ▸ hn⟩

/-- The primary name of the column of a class is a name of one of its parts. -/
theorem ClassColumn.exists_primary {cls : List (Nat ⊕ Nat)} {c : Column}
    (h : ClassColumn left right cls c) :
    ∃ x ∈ cls, ∃ d, atSide left.columns right.columns x = some d ∧ c.primary ∈ d.names := by
  obtain ⟨ds, hds, hmerged⟩ := h
  have hprimary : c.primary ∈ c.names := List.mem_cons_self
  obtain ⟨d, hd, hname⟩ := List.mem_flatMap.1 (hmerged.names.subset hprimary)
  obtain ⟨x, hx, hxd⟩ := exists_left_of_forall₂ hds hd
  exact ⟨x, hx, d, hxd, hname⟩

/-- The positions of a group are keys, so they have columns. -/
theorem lt_of_mem_group {leftWidth rightWidth : Nat}
    (hwithin : PairsWithin leftWidth rightWidth pairs) {g : KeyGroup}
    (hg : g ∈ KeyGroup.ofPairs pairs) :
    (∀ p ∈ g.left, p < leftWidth) ∧ ∀ p ∈ g.right, p < rightWidth := by
  have hinside := (components_ofPairs pairs).inside g hg
  constructor
  · intro p hp
    obtain ⟨k, hk, heq | heq⟩ := hinside (.inl p) hp
    · exact Sum.inl.inj heq ▸ (hwithin k hk).1
    · exact absurd heq Sum.inl_ne_inr
  · intro p hp
    obtain ⟨k, hk, heq | heq⟩ := hinside (.inr p) hp
    · exact absurd heq Sum.inr_ne_inl
    · exact Sum.inr.inj heq ▸ (hwithin k hk).2

/-- A key group has a column, which is merged from the columns of the group. -/
theorem exists_groupColumn
    (hwithin : PairsWithin left.columns.length right.columns.length pairs) {g : KeyGroup}
    (hg : g ∈ KeyGroup.ofPairs pairs) :
    ∃ l c, g.left.head? = some l ∧ groupColumn? left right g = some c ∧
      ClassColumn left right g.positions c := by
  obtain ⟨l, hl⟩ := exists_head hg
  obtain ⟨hleft, hright⟩ := lt_of_mem_group hwithin hg
  have hcolumns : List.Forall₂ (fun x d => atSide left.columns right.columns x = some d)
      g.positions (left.columnsAt g.left ++ right.columnsAt g.right) := by
    apply List.rel_append
    · rw [List.forall₂_map_left_iff]
      exact columnsAt_eq_of_lt hleft
    · rw [List.forall₂_map_left_iff]
      exact columnsAt_eq_of_lt hright
  -- the group has a left position, so there is a first column to merge the others into
  have hne : left.columnsAt g.left ++ right.columnsAt g.right ≠ [] := by
    obtain ⟨d, hd, -⟩ := exists_right_of_forall₂ hcolumns (KeyGroup.mem_positions.2 (has_head hl))
    exact List.ne_nil_of_mem hd
  unfold groupColumn?
  cases hds : left.columnsAt g.left ++ right.columnsAt g.right with
  | nil => exact absurd hds hne
  | cons c cs => exact ⟨l, _, hl, rfl, c :: cs, hds ▸ hcolumns, c.mergedFrom_foldl_merge cs⟩

/-- The column of a join that stands for a pick: its value is where the join command prints the
pick, and it answers to what the columns at the positions linked with the pick answer to. -/
structure PickColumn (left right : Table) (leftKey rightKey : Nat) (pairs : List (Nat × Nat))
    (x : Nat ⊕ Nat) (c : Nat × Column) : Prop where
  position : c.1 = joinedAt left.columns.length leftKey rightKey x
  answersTo : ∀ n, c.2.answersTo n = true ↔ ∃ y d, Linked pairs x y ∧
    atSide left.columns right.columns y = some d ∧ d.answersTo n = true

/-- The columns of a join are the columns of its classes, and each has its value where the join
command prints the first position of its class. -/
theorem forall₂_classes (leftKey rightKey : Nat)
    (hwithin : PairsWithin left.columns.length right.columns.length pairs) :
    List.Forall₂ (fun cls c => ClassColumn left right cls c.2 ∧
        cls.head?.map (joinedAt left.columns.length leftKey rightKey) = some c.1)
      (joinClasses left.columns.length right.columns.length pairs (KeyGroup.ofPairs pairs))
      (chosen left right leftKey rightKey pairs) := by
  rw [joinClasses, ← freePositions_eraseDups, ← freePositions_eraseDups right.columns.length,
    ← restColumns_fst, ← restColumns_fst]
  -- groups, free columns of the left table and free columns of the right one, as they are chosen
  refine List.rel_append (List.rel_append ?_ ?_) ?_
  · rw [← List.filterMap_eq_map]
    refine forall₂_filterMap fun g hg => ?_
    obtain ⟨l, c, hl, hc, hclass⟩ := exists_groupColumn hwithin hg
    refine ⟨g.positions, (joinedLeft leftKey l, c), rfl, by rw [hl, hc]; rfl, hclass, ?_⟩
    rw [KeyGroup.head?_positions hl]
    rfl
  · rw [List.map_map, List.forall₂_map_left_iff, List.forall₂_map_right_iff, List.forall₂_same]
    rintro ⟨p, c⟩ hpc
    exact ⟨classColumn_singleton (x := .inl p) (mem_restColumns.1 hpc).1, rfl⟩
  · rw [List.map_map, List.forall₂_map_left_iff, List.forall₂_map_right_iff, List.forall₂_same]
    rintro ⟨p, c⟩ hpc
    exact ⟨classColumn_singleton (x := .inr p) (mem_restColumns.1 hpc).1, rfl⟩

/-- The columns of a join stand for its picks. -/
theorem forall₂_chosen (leftKey rightKey : Nat)
    (hwithin : PairsWithin left.columns.length right.columns.length pairs) :
    List.Forall₂ (PickColumn left right leftKey rightKey pairs)
      (picks left.columns.length right.columns.length pairs)
      (chosen left right leftKey rightKey pairs) := by
  refine (forall₂_of_common (forall₂_picks _ _ pairs)
    (forall₂_classes leftKey rightKey hwithin)).imp ?_
  rintro x c ⟨cls, -, ⟨hhead, hlinked⟩, hcolumn, hposition⟩
  rw [hhead, Option.map_some, Option.some.injEq] at hposition
  refine ⟨hposition.symm, fun n => ?_⟩
  rw [hcolumn.answersTo_iff]
  simp only [hlinked, exists_and_left]

/-- The positions that a join projects onto are those of the picks. -/
theorem map_fst_chosen (leftKey rightKey : Nat) {pairs : List (Nat × Nat)}
    (hwithin : PairsWithin left.columns.length right.columns.length pairs) :
    (chosen left right leftKey rightKey pairs).map (·.1) =
      (picks left.columns.length right.columns.length pairs).map
        (joinedAt left.columns.length leftKey rightKey) := by
  have hchosen := forall₂_chosen leftKey rightKey hwithin
  generalize picks left.columns.length right.columns.length pairs = picks at hchosen
  generalize chosen left right leftKey rightKey pairs = chosen at hchosen
  induction hchosen with
  | nil => rfl
  | cons hx _ ih => rw [List.map_cons, List.map_cons, hx.position, ih]

/-- The columns of the joined table are the chosen ones, also where the join command alone already
puts them in order. -/
theorem columns_joinTable {key : Nat × Nat} {more : List (Nat × Nat)} {name : String}
    (hwithin : PairsWithin left.columns.length right.columns.length (key :: more)) :
    (joinTable left right key more name).columns =
      (chosen left right key.1 key.2 (key :: more)).map (·.2) := by
  unfold joinTable
  cases more with
  | cons p more => rfl
  | nil =>
    obtain ⟨l, r⟩ := key
    obtain ⟨hl, hr⟩ := hwithin (l, r) List.mem_cons_self
    -- a single pair is one group, and the other columns keep their order
    have hgroups : KeyGroup.ofPairs [(l, r)] = [⟨[l], [r]⟩] := rfl
    simp only [List.isEmpty_nil, ↓reduceIte, joinOn, joinedColumns, columns_ensureSorted, chosen,
      hgroups, groupColumns, groupColumn?, columnsAt, List.map_append, List.map_map]
    rw [List.getElem?_eq_getElem hl, List.getElem?_eq_getElem hr]
    have hkeys : ∀ k : Nat, [k].eraseDups = [k] := fun k => rfl
    simp only [List.map_cons, List.map_nil, hkeys, List.filterMap_cons, List.filterMap_nil,
      List.getElem?_eq_getElem hl, List.getElem?_eq_getElem hr]
    rw [← map_snd_restColumns, ← map_snd_restColumns]
    rfl

/-- The columns of the joined table are the columns of its classes. -/
theorem forall₂_columns_joinTable {key : Nat × Nat} {more : List (Nat × Nat)} {name : String}
    (hwithin : PairsWithin left.columns.length right.columns.length (key :: more)) :
    List.Forall₂ (ClassColumn left right)
      (joinClasses left.columns.length right.columns.length (key :: more)
        (KeyGroup.ofPairs (key :: more))) (joinTable left right key more name).columns := by
  rw [columns_joinTable hwithin, List.forall₂_map_right_iff]
  exact (forall₂_classes key.1 key.2 hwithin).imp fun cls c h => h.1

end

end Table

end ShellQuery
