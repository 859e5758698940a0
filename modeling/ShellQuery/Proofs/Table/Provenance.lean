import ShellQuery.Proofs.Table.JoinColumns

/-!
# Where the fields of a plan come from

The rows of a table are made of the columns of files. `Table.provenance` tells which columns a field
carries: a file's fields are its own columns, a projection moves fields, a join prints a key that is
the key of both sides, and fields that a filter tests to be equal carry the same columns.

A plan tests rows in its filter steps and on the keys of its joins. `Table.sites` lists these tests
from left to right, each with the provenance of the fields it is made on.

* `Table.mem_leaves_of_provenance`, `Table.mem_leaves_of_mem_sites`: fields carry columns of the
  files below them only;
* `Table.provenance_joinTable`: after a join a field carries what stands at the positions linked
  with its pick;
* `Table.sites_joinTable`: a join makes one test for each pair of keys.
-/

namespace ShellQuery

/-! ### Provenance -/

/-- Which columns of files the fields of some rows carry. A column is given by the name of its
relation and by its place in the header. -/
abbrev Provenance := Nat → String × Nat → Prop

namespace Provenance

/-- The `q`-th position if one is left out. -/
def skip (key q : Nat) : Nat :=
  if q < key then q else q + 1

/-- The fields that the join command prints: the key, which both sides have, then the other fields
of the left row, which has the given width, then those of the right row. -/
def join (width leftKey rightKey : Nat) (f g : Provenance) : Provenance
  | 0, x => f leftKey x ∨ g rightKey x
  | q + 1, x =>
    if q + 1 < width then f (skip leftKey q) x else g (skip rightKey (q + 1 - width)) x

/-- The fields of a left row of the given width, then those of a right row. -/
def pair (width : Nat) (f g : Provenance) : Provenance :=
  fun q x => if q < width then f q x else g (q - width) x

/-- The fields at some positions. -/
def select (positions : List Nat) (f : Provenance) : Provenance :=
  fun q x => ∃ p, positions[q]? = some p ∧ f p x

/-- The fields that some tests say are equal, directly or through others. -/
abbrev TestedEqual (tests : List Awk.RowTest) : Nat → Nat → Prop :=
  Relation.EqvGen fun p q => .atom (.compare (.field p) .eq (.field q)) ∈ tests

/-- The fields of rows that pass some tests. -/
def equate (tests : List Awk.RowTest) (f : Provenance) : Provenance :=
  fun q x => ∃ p, TestedEqual tests q p ∧ f p x

/-- The fields behind a step. -/
def through (f : Provenance) : Step → Provenance
  | .project positions => f.select positions
  | .filter tests positions => (f.equate tests).select positions
  | .sort _ => f
  | .sample _ _ => f
  | .count _ => fun _ _ => False

/-- A step moves columns and brings none in. -/
theorem exists_of_through {f : Provenance} {step : Step} {q : Nat} {x : String × Nat}
    (h : f.through step q x) : ∃ p, f p x := by
  cases step with
  | project positions =>
    obtain ⟨p, -, hp⟩ := h
    exact ⟨p, hp⟩
  | filter tests positions =>
    obtain ⟨_, -, p, -, hp⟩ := h
    exact ⟨p, hp⟩
  | sort positions => exact ⟨q, h⟩
  | sample size seed => exact ⟨q, h⟩
  | count position => exact h.elim

theorem exists_of_join {width leftKey rightKey : Nat} {f g : Provenance} {q : Nat}
    {x : String × Nat} (h : join width leftKey rightKey f g q x) : (∃ p, f p x) ∨ ∃ p, g p x := by
  cases q with
  | zero => exact h.imp (⟨_, ·⟩) (⟨_, ·⟩)
  | succ q =>
    rw [join] at h
    split at h
    · exact .inl ⟨_, h⟩
    · exact .inr ⟨_, h⟩

theorem exists_of_pair {width : Nat} {f g : Provenance} {q : Nat} {x : String × Nat}
    (h : pair width f g q x) : (∃ p, f p x) ∨ ∃ p, g p x := by
  unfold pair at h
  split at h
  · exact .inl ⟨_, h⟩
  · exact .inr ⟨_, h⟩

/-! ### The fields of a join -/

section

variable {width leftKey rightKey p : Nat} {f g : Provenance} {x : String × Nat}

/-- What a field of the left row carries is carried where `joinedLeft` says. -/
theorem join_joinedLeft (hkey : leftKey < width) (hp : p < width) (h : f p x) :
    join width leftKey rightKey f g (Table.joinedLeft leftKey p) x := by
  unfold Table.joinedLeft
  split
  · next heq => exact .inl (heq ▸ h)
  · next hne =>
    split
    · next hlt =>
      have hskip : skip leftKey p = p := if_pos hlt
      rwa [join, if_pos (by omega), hskip]
    · next hge =>
      -- behind the key the other left fields have moved to the front by one
      obtain ⟨q, rfl⟩ : ∃ q, p = q + 1 := ⟨p - 1, by omega⟩
      have hskip : skip leftKey q = q + 1 := if_neg (by omega)
      rwa [join, if_pos hp, hskip]

/-- What a field of the right row carries is carried where `joinedRight` says. -/
theorem join_joinedRight (hkey : leftKey < width) (h : g p x) :
    join width leftKey rightKey f g (Table.joinedRight width rightKey p) x := by
  unfold Table.joinedRight
  split
  · next heq => exact .inr (heq ▸ h)
  · next hne =>
    -- the left row has its key, so its width is not zero
    obtain ⟨k, rfl⟩ : ∃ k, width = k + 1 := ⟨width - 1, by omega⟩
    split
    · next hlt =>
      have hskip : skip rightKey (k + p + 1 - (k + 1)) = p := by
        rw [show k + p + 1 - (k + 1) = p by omega]
        exact if_pos hlt
      rwa [Nat.succ_add, join, if_neg (by omega), hskip]
    · next hge =>
      obtain ⟨q, rfl⟩ : ∃ q, p = q + 1 := ⟨p - 1, by omega⟩
      have hskip : skip rightKey (k + q + 1 - (k + 1)) = q + 1 := by
        rw [show k + q + 1 - (k + 1) = q by omega]
        exact if_neg (by omega)
      rwa [show k + 1 + (q + 1) - 1 = k + q + 1 by omega, join, if_neg (by omega), hskip]

end

end Provenance

/-! ### Tables -/

mutual

/-- Which columns of files the fields of a table carry. -/
def Table.provenance : Table → Provenance
  | ⟨name, _, source, _, steps, _⟩ => steps.foldl Provenance.through (source.provenance name)

/-- Which columns of files the fields of a source carry; a file is called by the given name. -/
def Source.provenance (name : String) : Source Table → Provenance
  | .file _ _ => fun q x => x = (name, q)
  | .command _ => fun _ _ => False
  | .join left right leftKey rightKey =>
    .join left.columns.length leftKey rightKey left.provenance right.provenance

end

mutual

/-- The names of the files of a plan, from left to right. -/
def Table.leaves : Table → List String
  | ⟨name, _, source, _, _, _⟩ => source.leaves name

/-- The names of the files of a source, which is called by the given name if it is one. -/
def Source.leaves (name : String) : Source Table → List String
  | .file _ _ => [name]
  | .command _ => [name]
  | .join left right _ _ => left.leaves ++ right.leaves

end

/-- A test of a plan. -/
structure Site where
  /-- The files of the rows that are tested. -/
  leaves : List String
  /-- What the fields of these rows carry. -/
  provenance : Provenance
  test : Awk.RowTest

/-- The tests of a step. -/
def Step.tests : Step → List Awk.RowTest
  | .filter tests _ => tests
  | _ => []

/-- The tests of some steps. -/
def Site.ofSteps (leaves : List String) : Provenance → List Step → List Site
  | _, [] => []
  | f, step :: steps => step.tests.map (⟨leaves, f, ·⟩) ++ ofSteps leaves (f.through step) steps

/-- The test that a pair of keys makes on the rows of both sides. -/
def Site.ofKey (left right : Table) (leftKey rightKey : Nat) : Site where
  leaves := left.leaves ++ right.leaves
  provenance := .pair left.columns.length left.provenance right.provenance
  test := .atom (.compare (.field leftKey) .eq (.field (left.columns.length + rightKey)))

mutual

/-- The tests of a plan, from left to right. -/
def Table.sites : Table → List Site
  | ⟨name, _, source, _, steps, _⟩ =>
    source.sites ++ Site.ofSteps (source.leaves name) (source.provenance name) steps

/-- The tests of a source. -/
def Source.sites : Source Table → List Site
  | .file _ _ => []
  | .command _ => []
  | .join left right leftKey rightKey =>
    left.sites ++ right.sites ++ [Site.ofKey left right leftKey rightKey]

end

/-! ### Columns come from the files below -/

theorem Provenance.exists_of_foldl_through {f : Provenance} {steps : List Step} {q : Nat}
    {x : String × Nat} (h : steps.foldl Provenance.through f q x) : ∃ p, f p x := by
  induction steps generalizing f q with
  | nil => exact ⟨q, h⟩
  | cons step steps ih =>
    obtain ⟨p, hp⟩ := ih h
    exact exists_of_through hp

/-- The tests of some steps are made on what the rows carried before them. -/
theorem Site.of_mem_ofSteps {leaves : List String} {f : Provenance} {steps : List Step}
    {site : Site} (h : site ∈ ofSteps leaves f steps) :
    site.leaves = leaves ∧ ∀ q x, site.provenance q x → ∃ p, f p x := by
  induction steps generalizing f with
  | nil => exact absurd h List.not_mem_nil
  | cons step steps ih =>
    rcases List.mem_append.1 h with h | h
    · obtain ⟨test, -, rfl⟩ := List.mem_map.1 h
      exact ⟨rfl, fun q x hx => ⟨q, hx⟩⟩
    · obtain ⟨hleaves, hprovenance⟩ := ih h
      refine ⟨hleaves, fun q x hx => ?_⟩
      obtain ⟨p, hp⟩ := hprovenance q x hx
      exact Provenance.exists_of_through hp

mutual

/-- A field carries columns of the files of its table only. -/
theorem Table.mem_leaves_of_provenance :
    ∀ (t : Table) (q : Nat) (x : String × Nat), t.provenance q x → x.1 ∈ t.leaves
  | ⟨name, _, source, _, steps, _⟩, q, x, h => by
    obtain ⟨p, hp⟩ := Provenance.exists_of_foldl_through h
    exact source.mem_leaves_of_provenance name p x hp

/-- A field of a file is one of its own columns, and a field of a join belongs to one of the sides.
-/
theorem Source.mem_leaves_of_provenance (name : String) :
    ∀ (source : Source Table) (q : Nat) (x : String × Nat), source.provenance name q x →
      x.1 ∈ source.leaves name
  | .file _ _, q, x, h => by
    rw [show x = (name, q) from h]
    exact List.mem_singleton_self name
  | .command _, _, _, h => h.elim
  | .join left right leftKey rightKey, q, x, h => by
    rcases Provenance.exists_of_join h with ⟨p, hp⟩ | ⟨p, hp⟩
    · exact List.mem_append_left _ (left.mem_leaves_of_provenance p x hp)
    · exact List.mem_append_right _ (right.mem_leaves_of_provenance p x hp)

end

/-- The two keys that a join compares belong to its sides. -/
theorem Site.mem_leaves_of_ofKey {left right : Table} {leftKey rightKey : Nat} {q : Nat}
    {x : String × Nat} (h : (ofKey left right leftKey rightKey).provenance q x) :
    x.1 ∈ (ofKey left right leftKey rightKey).leaves := by
  rcases Provenance.exists_of_pair h with ⟨p, hp⟩ | ⟨p, hp⟩
  · exact List.mem_append_left _ (left.mem_leaves_of_provenance p x hp)
  · exact List.mem_append_right _ (right.mem_leaves_of_provenance p x hp)

mutual

/-- The fields that are tested carry columns of the files of the tested rows only. -/
theorem Table.mem_leaves_of_mem_sites :
    ∀ (t : Table) (site : Site), site ∈ t.sites → ∀ q x, site.provenance q x → x.1 ∈ site.leaves
  | ⟨name, _, source, _, steps, _⟩, site, h, q, x, hx => by
    rcases List.mem_append.1 h with h | h
    · exact source.mem_leaves_of_mem_sites site h q x hx
    · obtain ⟨hleaves, hprovenance⟩ := Site.of_mem_ofSteps h
      obtain ⟨p, hp⟩ := hprovenance q x hx
      rw [hleaves]
      exact source.mem_leaves_of_provenance name p x hp

/-- The tests of a join are those of its sides and its own one. -/
theorem Source.mem_leaves_of_mem_sites :
    ∀ (source : Source Table) (site : Site), site ∈ source.sites →
      ∀ q x, site.provenance q x → x.1 ∈ site.leaves
  | .file _ _, _, h, _, _, _ => absurd h List.not_mem_nil
  | .command _, _, h, _, _, _ => absurd h List.not_mem_nil
  | .join left right leftKey rightKey, site, h, q, x, hx => by
    rcases List.mem_append.1 h with h | h
    · rcases List.mem_append.1 h with h | h
      · exact left.mem_leaves_of_mem_sites site h q x hx
      · exact right.mem_leaves_of_mem_sites site h q x hx
    · obtain rfl := List.mem_singleton.1 h
      exact Site.mem_leaves_of_ofKey hx

end

/-! ### Steps that are appended -/

theorem Site.ofSteps_append (leaves : List String) (f : Provenance) (steps : List Step)
    (step : Step) : ofSteps leaves f (steps ++ [step]) = ofSteps leaves f steps ++
      step.tests.map (⟨leaves, steps.foldl Provenance.through f, ·⟩) := by
  induction steps generalizing f with
  | nil => exact List.append_nil _
  | cons s steps ih =>
    rw [List.cons_append, ofSteps, ofSteps, ih, List.append_assoc]
    rfl

namespace Table

variable (t : Table)

theorem provenance_append (step : Step) (columns sorted : List Column) :
    provenance { t with columns := columns, steps := t.steps ++ [step], sortedBy := sorted } =
      t.provenance.through step := by
  obtain ⟨name, delimiter, source, columns', steps, sorted'⟩ := t
  rw [provenance, provenance, List.foldl_append]
  rfl

theorem leaves_append (step : Step) (columns sorted : List Column) :
    leaves { t with columns := columns, steps := t.steps ++ [step], sortedBy := sorted } =
      t.leaves := by
  obtain ⟨name, delimiter, source, columns', steps, sorted'⟩ := t
  rfl

theorem sites_append (step : Step) (columns sorted : List Column) :
    sites { t with columns := columns, steps := t.steps ++ [step], sortedBy := sorted } =
      t.sites ++ step.tests.map (⟨t.leaves, t.provenance, ·⟩) := by
  obtain ⟨name, delimiter, source, columns', steps, sorted'⟩ := t
  rw [sites, sites, Site.ofSteps_append, List.append_assoc]
  rfl

/-! ### Filters and sorts -/

theorem leaves_filterBy (tests : List Awk.RowTest) : (t.filterBy tests).leaves = t.leaves := by
  unfold filterBy
  split
  · rfl
  · exact leaves_append t _ _ _

/-- A filter makes its tests on the rows before it. -/
theorem sites_filterBy (tests : List Awk.RowTest) :
    (t.filterBy tests).sites = t.sites ++ tests.map (⟨t.leaves, t.provenance, ·⟩) := by
  unfold filterBy
  split
  · next hnil => rw [List.isEmpty_iff.1 hnil, List.map_nil, List.append_nil]
  · exact sites_append t _ _ _

/-- The fields of the rows that a filter keeps carry what they have carried before. -/
theorem provenance_filterBy {t : Table} (tests : List Awk.RowTest) {q : Nat} {x : String × Nat}
    (hq : q < t.columns.length) (h : t.provenance q x) : (t.filterBy tests).provenance q x := by
  unfold filterBy
  split
  · exact h
  · rw [filter, provenance_append]
    exact ⟨q, List.getElem?_range hq, q, .refl q, h⟩

/-- Sorting before a join changes nothing or adds one sort. -/
theorem ensureSorted_eq (positions : List Nat) : t.ensureSorted positions = t ∨
    ∃ keys sorted, t.ensureSorted positions =
      { t with steps := t.steps ++ [.sort keys], sortedBy := sorted } := by
  unfold ensureSorted
  split
  · exact .inl rfl
  · unfold sortPositions
    dsimp only
    split
    · exact .inl rfl
    · exact .inr ⟨_, _, rfl⟩

@[simp]
theorem provenance_ensureSorted (positions : List Nat) :
    (t.ensureSorted positions).provenance = t.provenance := by
  rcases t.ensureSorted_eq positions with h | ⟨keys, sorted, h⟩
  · rw [h]
  · rw [h]
    exact provenance_append t (.sort keys) t.columns sorted

@[simp]
theorem leaves_ensureSorted (positions : List Nat) :
    (t.ensureSorted positions).leaves = t.leaves := by
  rcases t.ensureSorted_eq positions with h | ⟨keys, sorted, h⟩
  · rw [h]
  · rw [h]
    exact leaves_append t (.sort keys) t.columns sorted

@[simp]
theorem sites_ensureSorted (positions : List Nat) :
    (t.ensureSorted positions).sites = t.sites := by
  rcases t.ensureSorted_eq positions with h | ⟨keys, sorted, h⟩
  · rw [h]
  · rw [h]
    calc sites { t with steps := t.steps ++ [.sort keys], sortedBy := sorted }
        = t.sites ++ (Step.sort keys).tests.map (⟨t.leaves, t.provenance, ·⟩) :=
          sites_append t (.sort keys) t.columns sorted
      _ = t.sites := List.append_nil _

/-! ### Joins -/

section

variable {left right : Table} {key : Nat × Nat} {more : List (Nat × Nat)} {name : String}

theorem leaves_joinOn (ls rs : List Nat) :
    (joinOn (left.ensureSorted ls) (right.ensureSorted rs) key.1 key.2 name).leaves =
      left.leaves ++ right.leaves := by
  rw [joinOn, leaves, Source.leaves, leaves_ensureSorted, leaves_ensureSorted]

theorem provenance_joinOn (ls rs : List Nat) :
    (joinOn (left.ensureSorted ls) (right.ensureSorted rs) key.1 key.2 name).provenance =
      .join left.columns.length key.1 key.2 left.provenance right.provenance := by
  rw [joinOn, provenance, List.foldl_nil, Source.provenance, columns_ensureSorted,
    provenance_ensureSorted, provenance_ensureSorted]

theorem sites_joinOn (ls rs : List Nat) :
    (joinOn (left.ensureSorted ls) (right.ensureSorted rs) key.1 key.2 name).sites =
      left.sites ++ right.sites ++ [Site.ofKey left right key.1 key.2] := by
  rw [joinOn, sites, Site.ofSteps, List.append_nil, Source.sites, sites_ensureSorted,
    sites_ensureSorted, Site.ofKey, Site.ofKey, columns_ensureSorted, leaves_ensureSorted,
    leaves_ensureSorted, provenance_ensureSorted, provenance_ensureSorted]

/-- The filter behind a join on several pairs reads no file. -/
theorem leaves_joinTable :
    (joinTable left right key more name).leaves = left.leaves ++ right.leaves := by
  unfold joinTable
  dsimp only
  split
  · exact leaves_joinOn _ _
  · rw [project, leaves_append, filter, leaves_append, leaves_joinOn]

/-- The test of a further pair of keys, which is made on what the join command prints. -/
def chainedSite (left right : Table) (key p : Nat × Nat) : Site where
  leaves := left.leaves ++ right.leaves
  provenance := .join left.columns.length key.1 key.2 left.provenance right.provenance
  test := .atom (.compare (.field (joinedLeft key.1 p.1)) .eq
    (.field (joinedRight left.columns.length key.2 p.2)))

/-- A join makes the tests of its sides and one test for each pair of keys. -/
theorem sites_joinTable : (joinTable left right key more name).sites =
    left.sites ++ right.sites ++
      Site.ofKey left right key.1 key.2 :: more.map (chainedSite left right key) := by
  unfold joinTable
  dsimp only
  split
  · next hnil => rw [List.isEmpty_iff.1 hnil, sites_joinOn, List.map_nil]
  · rw [project, sites_append, filter, sites_append, sites_joinOn, leaves_joinOn,
      provenance_joinOn]
    simp only [Step.tests, chainedTests, List.map_map, List.map_nil, List.append_nil,
      List.append_assoc, List.cons_append, List.nil_append]
    rfl

/-- Fields at linked positions are tested to be equal, unless they are the one key that the join
command prints. -/
theorem testedEqual_of_linked {u v : Nat ⊕ Nat} (h : Linked (key :: more) u v) :
    Provenance.TestedEqual (chainedTests left.columns.length key.1 key.2 more)
      (joinedAt left.columns.length key.1 key.2 u)
      (joinedAt left.columns.length key.1 key.2 v) := by
  -- equality is closed under what links are closed under
  induction h with
  | rel u v hp =>
    obtain ⟨p, hp, rfl, rfl⟩ := hp
    rcases List.mem_cons.1 hp with rfl | hp
    · -- the first pair is printed as one field
      have hleft : joinedLeft p.1 p.1 = 0 := if_pos rfl
      have hright : joinedRight left.columns.length p.2 p.2 = 0 := if_pos rfl
      rw [joinedAt, Sum.elim_inl, Sum.elim_inr, hleft, hright]
      exact .refl 0
    · exact .rel _ _ (List.mem_map.2 ⟨p, hp, rfl⟩)
  | refl u => exact .refl _
  | symm u v _ ih => exact ih.symm
  | trans u v w _ _ ih ih' => exact ih.trans _ _ _ ih'

/-- What the position of one side carries is carried where the join command prints it. -/
theorem join_joinedAt {f g : Provenance} {width leftKey rightKey : Nat} (hkey : leftKey < width)
    {v : Nat ⊕ Nat} (hv : v.elim (· < width) fun _ => True) {x : String × Nat}
    (h : v.elim f g x) :
    Provenance.join width leftKey rightKey f g (joinedAt width leftKey rightKey v) x := by
  cases v with
  | inl p => exact Provenance.join_joinedLeft hkey hv h
  | inr p => exact Provenance.join_joinedRight hkey h

/-- Without one key, the positions are those that the join command prints behind it. -/
theorem freePositions_singleton (width key : Nat) :
    freePositions width [key] = (List.range width).eraseIdx key := by
  have hzip : (List.range width).zipIdx = (List.range width).map fun p => (p, p) := by
    refine List.ext_getElem (by simp) fun p hp hp' => ?_
    simp
  have herase := map_fst_filter_zipIdx (List.range width) 0 key
  rw [hzip, List.filter_map, List.map_map, Nat.zero_add] at herase
  rw [← herase, freePositions]
  exact (List.map_id _).symm

/-- On one pair of keys the picks stand in the order in which the join command prints them. -/
theorem joinedAt_of_getElem?_picks {leftWidth rightWidth : Nat} (hkey : key.1 < leftWidth)
    {q : Nat} {u : Nat ⊕ Nat} (h : (picks leftWidth rightWidth [key])[q]? = some u) :
    joinedAt leftWidth key.1 key.2 u = q := by
  have hpicks : picks leftWidth rightWidth [key] = .inl key.1 ::
      (((List.range leftWidth).eraseIdx key.1).map .inl ++
        ((List.range rightWidth).eraseIdx key.2).map .inr) := by
    rw [← freePositions_singleton, ← freePositions_singleton]
    rfl
  have hlength : (((List.range leftWidth).eraseIdx key.1).map
      (Sum.inl : Nat → Nat ⊕ Nat)).length = leftWidth - 1 := by
    rw [List.length_map, List.length_eraseIdx_of_lt (by simpa using hkey), List.length_range]
  rw [hpicks] at h
  cases q with
  | zero =>
    rw [← Option.some.inj h]
    exact if_pos rfl
  | succ q =>
    rw [List.getElem?_cons_succ] at h
    -- behind the key stand the other left positions, then the other right ones
    by_cases hq : q < leftWidth - 1
    · rw [List.getElem?_append_left (by omega), List.getElem?_map, List.getElem?_eraseIdx] at h
      obtain ⟨p, hp, rfl⟩ := Option.map_eq_some_iff.1 h
      rw [joinedAt, Sum.elim_inl, joinedLeft]
      split at hp
      · obtain ⟨-, rfl⟩ := List.getElem?_eq_some_iff.1 hp
        rw [List.getElem_range, if_neg (by omega), if_pos (by omega)]
      · obtain ⟨-, rfl⟩ := List.getElem?_eq_some_iff.1 hp
        rw [List.getElem_range, if_neg (by omega), if_neg (by omega)]
    · rw [List.getElem?_append_right (by omega), hlength, List.getElem?_map,
        List.getElem?_eraseIdx] at h
      obtain ⟨p, hp, rfl⟩ := Option.map_eq_some_iff.1 h
      rw [joinedAt, Sum.elim_inr, joinedRight]
      split at hp
      · obtain ⟨-, rfl⟩ := List.getElem?_eq_some_iff.1 hp
        rw [List.getElem_range, if_neg (by omega), if_pos (by omega)]
        omega
      · obtain ⟨-, rfl⟩ := List.getElem?_eq_some_iff.1 hp
        rw [List.getElem_range, if_neg (by omega), if_neg (by omega)]
        omega

/-- The join command prints one field less than both rows have. -/
theorem joinedAt_lt {leftWidth rightWidth : Nat} (hkey : key.1 < leftWidth)
    (hkey' : key.2 < rightWidth) {u : Nat ⊕ Nat}
    (hu : u.elim (· < leftWidth) (· < rightWidth)) :
    joinedAt leftWidth key.1 key.2 u < leftWidth + rightWidth - 1 := by
  -- the key is printed once, in front, and every other column moves by at most one place
  cases u with
  | inl p =>
    have hp : p < leftWidth := hu
    show joinedLeft key.1 p < _
    unfold joinedLeft
    split
    · omega
    · split <;> omega
  | inr p =>
    have hp : p < rightWidth := hu
    show joinedRight leftWidth key.2 p < _
    unfold joinedRight
    split
    · omega
    · split <;> omega

/-- The field of a pick carries what the positions linked with the pick carry. -/
theorem provenance_joinTable
    (hwithin : PairsWithin left.columns.length right.columns.length (key :: more)) {q : Nat}
    {u v : Nat ⊕ Nat}
    (hu : (picks left.columns.length right.columns.length (key :: more))[q]? = some u)
    (hv : v.elim (· < left.columns.length) (· < right.columns.length))
    (huv : Linked (key :: more) u v) {x : String × Nat}
    (h : v.elim left.provenance right.provenance x) :
    (joinTable left right key more name).provenance q x := by
  obtain ⟨hkey, hkey'⟩ := hwithin key List.mem_cons_self
  -- links of the keys are equalities that are tested
  have hequal : Provenance.TestedEqual (chainedTests left.columns.length key.1 key.2 more)
      (joinedAt left.columns.length key.1 key.2 u) (joinedAt left.columns.length key.1 key.2 v) :=
    testedEqual_of_linked huv
  have hv' : v.elim (· < left.columns.length) fun _ => True := by
    cases v with
    | inl p => exact hv
    | inr p => trivial
  have hjoined : Provenance.join left.columns.length key.1 key.2 left.provenance right.provenance
      (joinedAt left.columns.length key.1 key.2 v) x := join_joinedAt hkey hv' h
  unfold joinTable
  cases more with
  | nil =>
    -- the join command alone prints linked positions at one place
    have heq : joinedAt left.columns.length key.1 key.2 u =
        joinedAt left.columns.length key.1 key.2 v :=
      (iff_of_eqvGen (P := (joinedAt left.columns.length key.1 key.2 u = ·))
        (fun _ _ htest => absurd htest List.not_mem_nil) hequal).1 rfl
    show provenance (joinOn _ _ _ _ _) q x
    rwa [provenance_joinOn, ← joinedAt_of_getElem?_picks hkey hu, heq]
  | cons p more =>
    -- the further pairs are tested, and then the picks are selected
    show provenance (project _ _ _) q x
    rw [project, provenance_append, filter, provenance_append, provenance_joinOn,
      map_fst_chosen _ _ hwithin]
    refine ⟨_, by rw [List.getElem?_map, hu]; rfl, _, List.getElem?_range ?_, _, hequal, hjoined⟩
    rw [joinOn, length_joinedColumns (by rwa [columns_ensureSorted])
      (by rwa [columns_ensureSorted]), columns_ensureSorted, columns_ensureSorted]
    exact joinedAt_lt hkey hkey' (elim_of_mem_picks hwithin (List.mem_of_getElem? hu))

end

end Table

end ShellQuery
