import Mathlib.Data.List.Nodup
import Mathlib.Order.Bounds.Basic
import ShellQuery.Proofs.Table.Resolution

/-!
# Where the columns of a table occur

The distinct columns of a table are listed with their positions (`ListsPositions`,
`listsPositions_occurrences`): one column at a time is added to a list of groups, and `Groups` is
what such a step keeps. Identical columns answer to the same names, so the columns that a name may
mean can be picked before they are grouped or after it (`groupOccurrences_filter`). Hence a name is
resolved exactly (`resolution_exact`).

A map may find the group of a column by a hash of its names first and by identity then. Whatever the
hash is, it makes the same groups (`foldl_addHashed`).
-/

namespace ShellQuery.Table

/-! ### Adding a column to the groups -/

/-- A column joins the group of an identical one, or else makes a group of its own at the end. -/
theorem addOccurrence_cases (c : Column) (p : Nat) (os : List Occurrences) :
    ((∀ o ∈ os, o.column.identical c = false) ∧ addOccurrence c p os = os ++ [⟨c, p, []⟩]) ∨
    ∃ before o after, os = before ++ o :: after ∧ o.column.identical c = true ∧
      addOccurrence c p os = before ++ { o with further := o.further ++ [p] } :: after := by
  induction os with
  | nil => exact .inl ⟨fun o ho => absurd ho List.not_mem_nil, rfl⟩
  | cons a os ih =>
    rw [addOccurrence]
    by_cases ha : a.column.identical c = true
    · rw [if_pos ha]
      exact .inr ⟨[], a, os, rfl, ha, rfl⟩
    · rw [if_neg ha]
      rcases ih with ⟨hnone, heq⟩ | ⟨before, o, after, rfl, ho, heq⟩
      · refine .inl ⟨?_, by rw [heq, List.cons_append]⟩
        exact List.forall_mem_cons.2 ⟨Bool.eq_false_iff.2 ha, hnone⟩
      · exact .inr ⟨a :: before, o, after, rfl, ho, by rw [heq, List.cons_append]⟩

/-- Records that a column occurs at a position in groups that are found by a hash: only a group with
the same hash is looked at. -/
def addHashed {α : Type} [BEq α] (hash : List String → α) (column : Column) (position : Nat) :
    List Occurrences → List Occurrences
  | [] => [⟨column, position, []⟩]
  | o :: os =>
    if hash o.column.hashKey == hash column.hashKey && o.column.identical column then
      { o with further := o.further ++ [position] } :: os
    else o :: addHashed hash column position os

section

variable {α : Type} [BEq α] [ReflBEq α] (hash : List String → α)

/-- No group of an identical column is missed, since it has the same hash. -/
theorem addHashed_eq (c : Column) (p : Nat) (os : List Occurrences) :
    addHashed hash c p os = addOccurrence c p os := by
  induction os with
  | nil => rfl
  | cons o os ih =>
    rw [addHashed, addOccurrence, ih]
    by_cases hid : o.column.identical c = true
    · rw [Column.hashKey_eq_of_identical hid, BEq.rfl, Bool.true_and]
    · rw [Bool.eq_false_iff.2 hid, Bool.and_false]

theorem foldl_addHashed (columns : List (Column × Nat)) :
    columns.foldl (fun os c => addHashed hash c.1 c.2 os) [] = groupOccurrences columns := by
  simp only [addHashed_eq, groupOccurrences]

end

/-- The positions of the columns that are identical to a given one. -/
def positionsOf (cs : List (Column × Nat)) (c : Column) : List Nat :=
  (cs.filter (c.identical ·.1)).map Prod.snd

theorem mem_positionsOf {cs : List (Column × Nat)} {c : Column} {p : Nat} :
    p ∈ positionsOf cs c ↔ ∃ d, (d, p) ∈ cs ∧ c.identical d = true := by
  simp [positionsOf]

/-- A further column adds its position if it is identical. -/
theorem positionsOf_append_singleton (cs : List (Column × Nat)) (c : Column) (d : Column × Nat) :
    positionsOf (cs ++ [d]) c =
      positionsOf cs c ++ if c.identical d.1 = true then [d.2] else [] := by
  rw [positionsOf, List.filter_append, List.map_append, ← positionsOf]
  by_cases hd : c.identical d.1 = true
  · simp [hd]
  · simp [hd]

/-- The groups of columns with their positions: one for each distinct column, with all its
positions, in the order of the columns that come first in them. -/
structure Groups (cs : List (Column × Nat)) (os : List Occurrences) : Prop where
  apart : os.Pairwise fun a b => a.column.identical b.column = false
  positions : ∀ o ∈ os, o.positions = positionsOf cs o.column
  covers : ∀ c ∈ cs, ∃ o ∈ os, o.column.identical c.1 = true
  firsts : (os.map fun o => (o.column, o.first)).Sublist cs

theorem groups_nil : Groups [] [] := by
  refine ⟨.nil, fun o ho => absurd ho List.not_mem_nil, fun c hc => absurd hc List.not_mem_nil, ?_⟩
  exact List.nil_sublist []

namespace Groups

variable {cs : List (Column × Nat)} {os : List Occurrences} {c : Column} {p : Nat}

/-- A column that is new gets a group of its own. -/
theorem append_new (h : Groups cs os) (hnew : ∀ o ∈ os, o.column.identical c = false) :
    Groups (cs ++ [(c, p)]) (os ++ [⟨c, p, []⟩]) := by
  -- no column is identical to the new one, as it would be identical to the key of its group as well
  have hnone : positionsOf cs c = [] := by
    rw [List.eq_nil_iff_forall_not_mem]
    intro q hq
    obtain ⟨d, hd, hid⟩ := mem_positionsOf.1 hq
    obtain ⟨o, ho, hod⟩ := h.covers _ hd
    exact Bool.eq_false_iff.1 (hnew o ho) (Column.identical_of_common hod hid)
  constructor
  case apart =>
    refine List.pairwise_append.2 ⟨h.apart, List.pairwise_singleton _ _, fun o ho o' ho' => ?_⟩
    rw [List.mem_singleton.1 ho']
    exact hnew o ho
  case positions =>
    intro o ho
    rw [positionsOf_append_singleton]
    rcases List.mem_append.1 ho with ho | ho
    · rw [h.positions o ho, hnew o ho, if_neg (by simp), List.append_nil]
    · rw [List.mem_singleton.1 ho, hnone, if_pos (by simp), List.nil_append]
      rfl
  case covers =>
    intro d hd
    rcases List.mem_append.1 hd with hd | hd
    · obtain ⟨o, ho, hod⟩ := h.covers d hd
      exact ⟨o, List.mem_append_left _ ho, hod⟩
    · rw [List.mem_singleton.1 hd]
      exact ⟨⟨c, p, []⟩, List.mem_append_right _ (List.mem_singleton_self _),
        Column.identical_refl c⟩
  case firsts =>
    rw [List.map_append]
    exact h.firsts.append (.refl _)

/-- A column that is not new adds its position to the group of its key, and to no other. -/
theorem append_old {before after : List Occurrences} {o : Occurrences}
    (h : Groups cs (before ++ o :: after)) (ho : o.column.identical c = true) :
    Groups (cs ++ [(c, p)])
      (before ++ { o with further := o.further ++ [p] } :: after) := by
  -- the group that grows may be moved to the front, since being apart is symmetric
  have hmem : ∀ x a : Occurrences, a ∈ before ++ x :: after ↔ a = x ∨ a ∈ before ++ after := by
    intro x a
    rw [List.perm_middle.mem_iff, List.mem_cons]
  have hsymm : ∀ {a b : Occurrences}, a.column.identical b.column = false →
      b.column.identical a.column = false := fun hab => by rwa [Column.identical_comm]
  obtain ⟨hothers, hrest⟩ := List.pairwise_cons.1 ((List.perm_middle.pairwise_iff hsymm).1 h.apart)
  constructor
  case apart =>
    exact (List.perm_middle.pairwise_iff hsymm).2 (List.pairwise_cons.2 ⟨hothers, hrest⟩)
  case positions =>
    intro a ha
    rw [positionsOf_append_singleton]
    rcases (hmem _ a).1 ha with rfl | ha
    · rw [if_pos ho, ← h.positions o ((hmem o o).2 (.inl rfl))]
      rfl
    · -- two groups with keys identical to the column would not be apart
      have hother : ¬a.column.identical c = true := fun hid =>
        Bool.eq_false_iff.1 (hothers a ha) (Column.identical_of_common ho hid)
      rw [if_neg hother, List.append_nil]
      exact h.positions a ((hmem o a).2 (.inr ha))
  case covers =>
    intro d hd
    rcases List.mem_append.1 hd with hd | hd
    · obtain ⟨a, ha, had⟩ := h.covers d hd
      rcases (hmem o a).1 ha with rfl | ha
      · exact ⟨_, (hmem _ _).2 (.inl rfl), had⟩
      · exact ⟨a, (hmem _ a).2 (.inr ha), had⟩
    · rw [List.mem_singleton.1 hd]
      exact ⟨_, (hmem _ _).2 (.inl rfl), ho⟩
  case firsts =>
    have hfirsts := h.firsts
    rw [List.map_append, List.map_cons] at hfirsts ⊢
    exact hfirsts.trans (List.sublist_append_left _ _)

/-- A further column keeps the groups those of the columns. -/
theorem addOccurrence (h : Groups cs os) (c : Column) (p : Nat) :
    Groups (cs ++ [(c, p)]) (addOccurrence c p os) := by
  rcases addOccurrence_cases c p os with ⟨hnew, heq⟩ | ⟨before, o, after, rfl, ho, heq⟩
  · rw [heq]
    exact h.append_new hnew
  · rw [heq]
    exact h.append_old ho

end Groups

/-- Grouping gives the groups of the columns. -/
theorem groups_groupOccurrences (cs : List (Column × Nat)) : Groups cs (groupOccurrences cs) := by
  have hfold : ∀ (more done : List (Column × Nat)) {os : List Occurrences}, Groups done os →
      Groups (done ++ more) (more.foldl (fun os c => addOccurrence c.1 c.2 os) os) := by
    intro more
    induction more with
    | nil => exact fun done os h => by rwa [List.append_nil]
    | cons c more ih =>
      intro done os h
      have hnext := ih _ (h.addOccurrence c.1 c.2)
      rwa [List.append_assoc] at hnext
  exact hfold cs [] groups_nil

/-! ### The positions of a table's columns -/

/-- The groups of a list of columns: every position stands in exactly one of them, in ascending
order under the key that is identical to the column there. No two keys are identical, and each
stands where it is first found. -/
structure ListsPositions (columns : List Column) (os : List Occurrences) : Prop where
  once : (os.flatMap Occurrences.positions).Perm (List.range columns.length)
  under : ∀ o ∈ os, ∀ p, p ∈ o.positions ↔
    ∃ c, columns[p]? = some c ∧ o.column.identical c = true
  ascending : ∀ o ∈ os, o.positions.Pairwise (· < ·)
  apart : os.Pairwise fun a b => a.column.identical b.column = false
  inOrder : os.Pairwise fun a b => a.first < b.first
  key : ∀ o ∈ os, columns[o.first]? = some o.column

theorem pairwise_positionsOf_zipIdx (columns : List Column) (c : Column) :
    (positionsOf columns.zipIdx c).Pairwise (· < ·) :=
  List.pairwise_map.2 (pairwise_filter_zipIdx columns _)

/-- Every position is in one group and in one only, as no column is identical to two keys. -/
theorem perm_range_of_groups {columns : List Column} {os : List Occurrences}
    (h : Groups columns.zipIdx os) :
    (os.flatMap Occurrences.positions).Perm (List.range columns.length) := by
  -- no position belongs to two groups, for their columns are not identical
  have hnodup : (os.flatMap Occurrences.positions).Nodup := by
    refine List.nodup_flatMap.2 ⟨fun o ho => ?_, ?_⟩
    · rw [h.positions o ho]
      exact (pairwise_positionsOf_zipIdx columns o.column).imp Nat.ne_of_lt
    · refine h.apart.imp_of_mem fun {a b} ha hb hab p hpa hpb => ?_
      rw [h.positions a ha] at hpa
      rw [h.positions b hb] at hpb
      obtain ⟨c, hc, hac⟩ := mem_positionsOf.1 hpa
      obtain ⟨d, hd, hbd⟩ := mem_positionsOf.1 hpb
      rw [List.mk_mem_zipIdx_iff_getElem?] at hc hd
      obtain rfl : c = d := Option.some.inj (hc.symm.trans hd)
      exact Bool.eq_false_iff.1 hab (Column.identical_of_common hac hbd)
  refine (List.perm_ext_iff_of_nodup hnodup List.nodup_range).2 fun p => ?_
  rw [List.mem_flatMap, List.mem_range]
  constructor
  · rintro ⟨o, ho, hp⟩
    rw [h.positions o ho] at hp
    obtain ⟨c, hc, -⟩ := mem_positionsOf.1 hp
    rw [List.mk_mem_zipIdx_iff_getElem?] at hc
    exact (List.getElem?_eq_some_iff.1 hc).1
  · intro hp
    have hc := List.mk_mem_zipIdx_iff_getElem?.2 (List.getElem?_eq_getElem hp)
    obtain ⟨o, ho, hid⟩ := h.covers _ hc
    exact ⟨o, ho, by rw [h.positions o ho]; exact mem_positionsOf.2 ⟨_, hc, hid⟩⟩

/-- The occurrences of a table list its positions. -/
theorem listsPositions_occurrences (t : Table) : ListsPositions t.columns t.occurrences := by
  have h : Groups t.columns.zipIdx t.occurrences := groups_groupOccurrences _
  refine ⟨perm_range_of_groups h, fun o ho p => ?_, fun o ho => ?_, h.apart, ?_, fun o ho => ?_⟩
  · rw [h.positions o ho, mem_positionsOf]
    simp only [List.mk_mem_zipIdx_iff_getElem?]
  · rw [h.positions o ho]
    exact pairwise_positionsOf_zipIdx _ _
  · have hsorted : t.columns.zipIdx.Pairwise fun a b => a.2 < b.2 := by
      simpa using pairwise_filter_zipIdx t.columns fun _ => true
    have hfirsts := hsorted.sublist h.firsts
    rwa [List.pairwise_map] at hfirsts
  · exact List.mk_mem_zipIdx_iff_getElem?.1 (mem_of_mem_groupOccurrences ho)

/-! ### Picking the groups that a name may mean -/

section Filter

variable (n : ColumnName)

/-- A column that answers to the name is added to the groups that do. -/
theorem addOccurrence_filter_of_answersTo {c : Column} (hc : c.answersTo n = true) (p : Nat)
    (os : List Occurrences) :
    addOccurrence c p (os.filter (·.column.answersTo n)) =
      (addOccurrence c p os).filter (·.column.answersTo n) := by
  induction os with
  | nil => simp [addOccurrence, hc]
  | cons o os ih =>
    by_cases hid : o.column.identical c = true
    · have ho : o.column.answersTo n = true := by rwa [Column.answersTo_eq_of_identical hid]
      simp [addOccurrence, hid, ho]
    · by_cases ho : o.column.answersTo n = true
      · simp [addOccurrence, hid, ho, ih]
      · simp [addOccurrence, hid, ho, ih]

/-- A column that does not answer to the name adds nothing to the groups that do. -/
theorem filter_addOccurrence_of_not_answersTo {c : Column} (hc : c.answersTo n = false) (p : Nat)
    (os : List Occurrences) :
    (addOccurrence c p os).filter (·.column.answersTo n) =
      os.filter (·.column.answersTo n) := by
  induction os with
  | nil => simp [addOccurrence, hc]
  | cons o os ih =>
    by_cases hid : o.column.identical c = true
    · have ho : o.column.answersTo n = false := by rwa [Column.answersTo_eq_of_identical hid]
      simp [addOccurrence, hid, ho]
    · simp [addOccurrence, hid, List.filter_cons, ih]

/-- Columns may be picked by a name before they are grouped or after it. -/
theorem groupOccurrences_filter (cs : List (Column × Nat)) :
    groupOccurrences (cs.filter (·.1.answersTo n)) =
      (groupOccurrences cs).filter (·.column.answersTo n) := by
  -- on the columns, with any groups to start from
  have hfold : ∀ os : List Occurrences,
      (cs.filter (·.1.answersTo n)).foldl (fun os c => addOccurrence c.1 c.2 os)
          (os.filter (·.column.answersTo n)) =
        (cs.foldl (fun os c => addOccurrence c.1 c.2 os) os).filter (·.column.answersTo n) := by
    induction cs with
    | nil => exact fun os => rfl
    | cons c cs ih =>
      intro os
      rw [List.foldl_cons, ← ih, List.filter_cons]
      by_cases hc : c.1.answersTo n = true
      · rw [if_pos hc, List.foldl_cons,
          addOccurrence_filter_of_answersTo n hc]
      · rw [if_neg hc,
          filter_addOccurrence_of_not_answersTo n (Bool.eq_false_iff.2 hc)]
  exact hfold []

end Filter

/-- A name fails to be resolved if it is ambiguous, and the failure then lists the distinct columns
that answer to it, in the order in which they are first found. -/
theorem tryResolve_eq_error_iff {t : Table} {n : ColumnName} {e : PlanError} :
    t.tryResolve n = .error e ↔ t.Ambiguous n ∧ e = .ambiguousColumn n.qualified
      ((t.occurrences.filter (·.column.answersTo n)).map (·.column.describe)) := by
  -- an error is about several groups that answer, whichever they are
  have hvalue : ∀ e, t.tryResolve n = .error e → e = .ambiguousColumn n.qualified
      ((t.occurrences.filter (·.column.answersTo n)).map (·.column.describe)) := by
    intro e h
    rw [tryResolve_eq, matching, groupOccurrences_filter, ← occurrences] at h
    split at h
    · cases h
    · cases h
    · exact (Except.error.inj h).symm
  have hfound := @exists_tryResolve_iff t n
  cases h : t.tryResolve n with
  | ok found =>
    have hnot : ¬t.Ambiguous n := hfound.1 ⟨found, h⟩
    simp [hnot]
  | error e' =>
    have hambiguous : t.Ambiguous n := by
      by_contra hnot
      obtain ⟨found, hok⟩ := hfound.2 hnot
      rw [h] at hok
      cases hok
    rw [Except.error.injEq, hvalue e' h]
    exact ⟨fun heq => ⟨hambiguous, heq.symm⟩, fun heq => heq.2.symm⟩

/-- What resolving a name on a table gives, in each of the three cases. -/
structure ResolvedExactly (t : Table) (n : ColumnName) : Prop where
  missing : t.tryResolve n = .ok none ↔ ∀ c ∈ t.columns, c.answersTo n = false
  found : ∀ p, t.tryResolve n = .ok (some p) ↔
    (∀ c ∈ t.columns, ∀ d ∈ t.columns, c.answersTo n = true → d.answersTo n = true →
      c.identical d = true) ∧
    IsLeast {q | ∃ c, t.columns[q]? = some c ∧ c.answersTo n = true} p
  ambiguous : ∀ e, t.tryResolve n = .error e ↔
    (∃ c ∈ t.columns, ∃ d ∈ t.columns, c.answersTo n = true ∧ d.answersTo n = true ∧
      c.identical d = false) ∧
    e = .ambiguousColumn n.qualified
      ((t.occurrences.filter (·.column.answersTo n)).map (·.column.describe))

/-- A position is found exactly when all columns that answer are identical and it is the least of
theirs. -/
theorem tryResolve_eq_some_iff_isLeast {t : Table} {n : ColumnName} {p : Nat} :
    t.tryResolve n = .ok (some p) ↔
      (∀ c ∈ t.columns, ∀ d ∈ t.columns, c.answersTo n = true → d.answersTo n = true →
        c.identical d = true) ∧
      IsLeast {q | ∃ c, t.columns[q]? = some c ∧ c.answersTo n = true} p := by
  rw [tryResolve_eq_some_iff]
  constructor
  · rintro ⟨c, hc, hcn, hleast, hid⟩
    refine ⟨fun d hd e he hdn hen => ?_, ⟨c, hc, hcn⟩, ?_⟩
    · have hdc := hid d hd hdn
      rw [Column.identical_comm] at hdc
      exact Column.identical_trans hdc (hid e he hen)
    · rintro q ⟨d, hd, hdn⟩
      by_contra hlt
      exact Bool.eq_false_iff.1 (hleast q d (Nat.lt_of_not_le hlt) hd) hdn
  · rintro ⟨hid, ⟨c, hc, hcn⟩, hleast⟩
    refine ⟨c, hc, hcn, fun q d hq hd => ?_, fun d hd => hid c (List.mem_of_getElem? hc) d hd hcn⟩
    by_contra hdn
    have hle := hleast ⟨d, hd, Bool.not_eq_false _ ▸ hdn⟩
    omega

/-- The columns of a table are listed with their positions, and names are resolved by that list. -/
theorem resolution_exact (t : Table) :
    ListsPositions t.columns t.occurrences ∧ ∀ n, t.ResolvedExactly n :=
  ⟨listsPositions_occurrences t, fun _ => ⟨tryResolve_eq_none_iff,
    fun _ => tryResolve_eq_some_iff_isLeast, fun _ => tryResolve_eq_error_iff⟩⟩

end ShellQuery.Table
