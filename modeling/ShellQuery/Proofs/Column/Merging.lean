import ShellQuery.Proofs.Column.Matching

/-!
# Merging columns

A column that is merged into another one leaves it the names that are new to it, `newNames`. What
several columns become is `MergedFrom` them (`mergedFrom_foldl_merge`), and so it answers to exactly
what its parts answered to (`MergedFrom.answersTo_iff`). Two columns give one that repeats none of
its own names (`TakesOver`, `takesOver_merge`).

A name that is not new to a part of a column is not new to the column, so merging is associative
(`merge_assoc`): the columns of a group of keys become the same column in whatever portions they are
merged.
-/

namespace ShellQuery.Column

/-! ### The names that are new -/

/-- The names that are new to a column with the names `own`, each of them once. -/
def newNames (own : List ColumnName) : List ColumnName → List ColumnName
  | [] => []
  | n :: ns =>
    if own.any (·.identical n) then newNames own ns else n :: newNames (own ++ [n]) ns

theorem newNames_cons_of_any {own : List ColumnName} {n : ColumnName}
    (h : own.any (·.identical n) = true) (ns : List ColumnName) :
    newNames own (n :: ns) = newNames own ns := by
  rw [newNames, if_pos h]

theorem newNames_cons_of_not_any {own : List ColumnName} {n : ColumnName}
    (h : ¬own.any (·.identical n) = true) (ns : List ColumnName) :
    newNames own (n :: ns) = n :: newNames (own ++ [n]) ns := by
  rw [newNames, if_neg h]

theorem addName_of_any {c : Column} {n : ColumnName} (h : c.names.any (·.identical n) = true) :
    c.addName n = c := by
  rw [addName, if_pos h]

theorem names_addName_of_not_any {c : Column} {n : ColumnName}
    (h : ¬c.names.any (·.identical n) = true) : (c.addName n).names = c.names ++ [n] := by
  rw [names_addName, if_neg h]

/-- A column that is given names appends the new ones. -/
theorem names_foldl_addName (c : Column) (ns : List ColumnName) :
    (ns.foldl addName c).names = c.names ++ newNames c.names ns := by
  induction ns generalizing c with
  | nil => exact (List.append_nil _).symm
  | cons n ns ih =>
    rw [List.foldl_cons, ih]
    by_cases h : c.names.any (·.identical n) = true
    · rw [addName_of_any h, newNames_cons_of_any h]
    · rw [names_addName_of_not_any h, newNames_cons_of_not_any h, List.append_assoc,
        List.singleton_append]

theorem names_merge (l r : Column) :
    (l.merge r).names = l.names ++ newNames l.names r.names :=
  names_foldl_addName l r.names

theorem newNames_sublist (own ns : List ColumnName) : (newNames own ns).Sublist ns := by
  fun_induction newNames own ns with
  | case1 => exact .slnil
  | case2 own n ns h ih => exact ih.cons n
  | case3 own n ns h ih => exact ih.cons_cons n

/-- Every name is there in the end, its own or an identical one. -/
theorem exists_identical_of_mem (own : List ColumnName) {ns : List ColumnName} {n : ColumnName}
    (hn : n ∈ ns) : ∃ m ∈ own ++ newNames own ns, m.identical n = true := by
  fun_induction newNames own ns with
  | case1 => exact absurd hn List.not_mem_nil
  | case2 own k ns h ih =>
    rcases List.mem_cons.1 hn with rfl | hn
    · obtain ⟨m, hm, hid⟩ := List.any_eq_true.1 h
      exact ⟨m, List.mem_append_left _ hm, hid⟩
    · exact ih hn
  | case3 own k ns h ih =>
    rcases List.mem_cons.1 hn with rfl | hn
    · exact ⟨n, by simp, ColumnName.identical_refl n⟩
    · rw [List.append_assoc] at ih
      exact ih hn

theorem identical_eq_false_of_mem_newNames {own ns : List ColumnName} {m n : ColumnName}
    (hm : m ∈ own) (hn : n ∈ newNames own ns) : m.identical n = false := by
  fun_induction newNames own ns with
  | case1 => exact absurd hn List.not_mem_nil
  | case2 own k ns h ih => exact ih hm hn
  | case3 own k ns h ih =>
    rcases List.mem_cons.1 hn with rfl | hn
    · exact Bool.eq_false_iff.2 fun hid => h (List.any_eq_true.2 ⟨m, hm, hid⟩)
    · exact ih (List.mem_append_left [k] hm) hn

theorem pairwise_newNames (own ns : List ColumnName) :
    (newNames own ns).Pairwise fun m n => m.identical n = false := by
  fun_induction newNames own ns with
  | case1 => exact .nil
  | case2 own n ns h ih => exact ih
  | case3 own n ns h ih =>
    refine List.pairwise_cons.2 ⟨fun m hm => ?_, ih⟩
    exact identical_eq_false_of_mem_newNames (List.mem_append_right own (by simp)) hm

/-! ### Merged columns -/

/-- The column that several columns become: it has the label and the names of the first one, and
behind them the names of the others that are new, in their order. -/
structure MergedFrom (c : Column) (ds : List Column) : Prop where
  first : ∃ d, ds.head? = some d ∧ c.label = d.label ∧ d.names <+: c.names
  names : c.names.Sublist (ds.flatMap names)
  covers : ∀ d ∈ ds, ∀ n ∈ d.names, ∃ own ∈ c.names, own.identical n = true

/-- A merged column answers to exactly what its parts answered to. -/
theorem MergedFrom.answersTo_iff {c : Column} {ds : List Column} (h : c.MergedFrom ds)
    (n : ColumnName) : c.answersTo n = true ↔ ∃ d ∈ ds, d.answersTo n = true := by
  rw [answersTo, List.any_eq_true]
  constructor
  · rintro ⟨own, hown, hn⟩
    obtain ⟨d, hd, hname⟩ := List.mem_flatMap.1 (h.names.subset hown)
    exact ⟨d, hd, List.any_eq_true.2 ⟨own, hname, hn⟩⟩
  · rintro ⟨d, hd, hn⟩
    obtain ⟨m, hm, hnm⟩ := List.any_eq_true.1 hn
    obtain ⟨own, hown, hid⟩ := h.covers d hd m hm
    exact ⟨own, hown, by rw [ColumnName.denotes_congr_right hid, hnm]⟩

theorem mergedFrom_self (c : Column) : c.MergedFrom [c] := by
  refine ⟨⟨c, rfl, rfl, List.prefix_refl _⟩, by simp, fun d hd n hn => ?_⟩
  rw [List.mem_singleton] at hd
  exact ⟨n, hd ▸ hn, ColumnName.identical_refl n⟩

/-- Merging one more column in adds it to the columns that are merged. -/
theorem MergedFrom.merge {c : Column} {ds : List Column} (h : c.MergedFrom ds) (d : Column) :
    (c.merge d).MergedFrom (ds ++ [d]) := by
  have hnames := names_merge c d
  refine ⟨?_, ?_, fun e he n hn => ?_⟩
  · obtain ⟨e, he, hlabel, hprefix⟩ := h.first
    refine ⟨e, by rw [List.head?_append, he, Option.some_or], by rw [label_merge, hlabel], ?_⟩
    rw [hnames]
    exact hprefix.trans (List.prefix_append _ _)
  · rw [hnames, List.flatMap_append, List.flatMap_singleton]
    exact h.names.append (newNames_sublist _ _)
  · rw [hnames]
    rcases List.mem_append.1 he with he | he
    · obtain ⟨own, hown, hid⟩ := h.covers e he n hn
      exact ⟨own, List.mem_append_left _ hown, hid⟩
    · rw [List.mem_singleton] at he
      exact exists_identical_of_mem c.names (he ▸ hn)

/-- Merging columns in one after the other merges all of them. -/
theorem mergedFrom_foldl_merge (c : Column) (ds : List Column) :
    (ds.foldl merge c).MergedFrom (c :: ds) := by
  have hfold : ∀ (ds done : List Column) {c : Column}, c.MergedFrom done →
      (ds.foldl merge c).MergedFrom (done ++ ds) := by
    intro ds
    induction ds with
    | nil => exact fun done c h => by rwa [List.append_nil]
    | cons d ds ih =>
      intro done c h
      have hnext := ih _ (h.merge d)
      rwa [List.append_assoc] at hnext
  exact hfold ds [c] (mergedFrom_self c)

/-! ### Merging in portions -/

/-- A name that is not new to a part of a column's names is not new to the column. -/
theorem foldl_addName_newNames {own : List ColumnName} (ns : List ColumnName) {c : Column}
    (h : ∀ n ∈ own, c.names.any (·.identical n) = true) :
    (newNames own ns).foldl addName c = ns.foldl addName c := by
  fun_induction newNames own ns generalizing c with
  | case1 => rfl
  | case2 own n ns hown ih =>
    -- the name is identical to one of the part, and that one to one of the column
    obtain ⟨m, hm, hmn⟩ := List.any_eq_true.1 hown
    obtain ⟨k, hk, hkm⟩ := List.any_eq_true.1 (h m hm)
    have hthere : c.names.any (·.identical n) = true :=
      List.any_eq_true.2 ⟨k, hk, ColumnName.identical_trans hkm hmn⟩
    rw [ih h, List.foldl_cons, addName_of_any hthere]
  | case3 own n ns hown ih =>
    apply ih
    intro m hm
    rw [names_addName]
    rcases List.mem_append.1 hm with hm | hm
    · split
      · exact h m hm
      · rw [List.any_append, h m hm, Bool.true_or]
    · rw [List.mem_singleton.1 hm]
      split
      · assumption
      · simp

/-- Merging is associative. -/
theorem merge_assoc (a b c : Column) : (a.merge b).merge c = a.merge (b.merge c) := by
  have hcovers : ∀ n ∈ b.names, (a.merge b).names.any (·.identical n) = true := by
    intro n hn
    obtain ⟨own, hown, hid⟩ := (mergedFrom_foldl_merge a [b]).covers b (by simp) n hn
    exact List.any_eq_true.2 ⟨own, hown, hid⟩
  calc (a.merge b).merge c
      = (newNames b.names c.names).foldl addName (a.merge b) :=
        (foldl_addName_newNames c.names hcovers).symm
    _ = (b.names ++ newNames b.names c.names).foldl addName a := by rw [List.foldl_append]; rfl
    _ = a.merge (b.merge c) := by rw [← names_merge]; rfl

/-! ### Two columns -/

/-- The column `c` is `l` with the new names of `r` behind its own ones. -/
structure TakesOver (l r c : Column) : Prop where
  answers : ∀ n, c.answersTo n = true ↔ l.answersTo n = true ∨ r.answersTo n = true
  names : ∃ added, c.names = l.names ++ added ∧ added.Sublist r.names ∧
    added.Pairwise (fun m n => m.identical n = false) ∧
    ∀ own ∈ l.names, ∀ n ∈ added, own.identical n = false
  label : c.label = l.label

/-- A column takes over the other one that is merged into it. -/
theorem takesOver_merge (l r : Column) : TakesOver l r (l.merge r) := by
  refine ⟨fun n => ?_, ⟨newNames l.names r.names, names_merge l r, ?_, ?_, ?_⟩, label_merge l r⟩
  · have h := (mergedFrom_foldl_merge l [r]).answersTo_iff n
    simpa using h
  · exact newNames_sublist _ _
  · exact pairwise_newNames _ _
  · exact fun own hown n hn => identical_eq_false_of_mem_newNames hown hn

/-- A merged column takes over what its parts were known by, in whatever portions it is merged. -/
theorem merge_exact :
    (∀ l r : Column, TakesOver l r (l.merge r)) ∧
      ∀ a b c : Column, (a.merge b).merge c = a.merge (b.merge c) :=
  ⟨takesOver_merge, merge_assoc⟩

end ShellQuery.Column
