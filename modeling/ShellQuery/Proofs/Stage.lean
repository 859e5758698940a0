import Mathlib.Order.Bounds.Basic
import Mathlib.Order.Nat
import ShellQuery.Proofs.Table.Resolution
import ShellQuery.Stage

/-!
# Stages of conditions

Tables are searched one after the other, and a name is found in those on which it resolves
(`ResolvesAt`). A condition belongs to a stage exactly when each of its columns is found in one
table up to that stage, and one of them is found at the stage itself unless it is the first
(`stageOf_ok_iff`). This is the least stage up to which all its columns are found
(`stageOf_ok_iff_isLeast`), and so `stageConditions_least` says of some conditions which of them are
refused and where the others go.
-/

namespace ShellQuery

/-- A name resolves on the table at a place. -/
def ResolvesAt (tables : List Table) (n : ColumnName) (i : Nat) : Prop :=
  ∃ t, tables[i]? = some t ∧ t.resolves n = true

variable {tables : List Table} {n : ColumnName}

theorem ResolvesAt.lt {i : Nat} (h : ResolvesAt tables n i) : i < tables.length := by
  obtain ⟨t, ht, -⟩ := h
  exact (List.getElem?_eq_some_iff.1 ht).1

/-! ### Searching -/

/-- Hits in strict order that all have the same stage are one hit. -/
theorem eq_singleton_of_pairwise {hits : List Hit} {hit : Hit} {i : Nat}
    (hsorted : hits.Pairwise fun hit hit' => hit.stage < hit'.stage)
    (hall : ∀ hit ∈ hits, hit.stage = i) (hhit : hit ∈ hits) : hits = [hit] := by
  cases hits with
  | nil => exact absurd hhit List.not_mem_nil
  | cons a as =>
    cases as with
    | nil => rw [List.mem_singleton.1 hhit]
    | cons b bs =>
      have hlt := List.rel_of_pairwise_cons hsorted List.mem_cons_self
      rw [hall a List.mem_cons_self, hall b (by simp)] at hlt
      exact absurd hlt (Nat.lt_irrefl i)

namespace Location

/-- Where a name is not ambiguous, its hits are the tables on which it resolves. -/
theorem search_ok (h : ∀ t ∈ tables, ¬t.Ambiguous n) (k : Nat) :
    ∃ hits, search n k tables = .ok hits ∧
      hits.map (fun hit => (hit.table, hit.stage)) =
        (tables.zipIdx k).filter (·.1.resolves n) := by
  -- along the tables, whose stages count up from `k`
  induction tables generalizing k with
  | nil => exact ⟨[], rfl, rfl⟩
  | cons t ts ih =>
    obtain ⟨hits, hhits, hmap⟩ := ih (fun t' ht' => h t' (List.mem_cons_of_mem t ht')) (k + 1)
    obtain ⟨found, hfound⟩ := Table.exists_tryResolve_iff.2 (h t List.mem_cons_self)
    obtain ⟨occ, hocc, rfl⟩ := map_ok_iff.1 hfound
    refine ⟨(occ.map (Hit.mk k t)).toList ++ hits, ?_, ?_⟩
    · rw [search, bind_ok_iff]
      exact ⟨occ, hocc, bind_ok_iff.2 ⟨hits, hhits, rfl⟩⟩
    · rw [List.map_append, hmap, List.zipIdx_cons, List.filter_cons]
      cases occ with
      | none =>
        have hres : t.resolves n = false := by simp [Table.resolves, hfound]
        simp [hres]
      | some o =>
        have hres : t.resolves n = true := by simp [Table.resolves, hfound]
        simp [hres]

/-- A search succeeds exactly when the name is ambiguous on no table. -/
theorem exists_search_iff {k : Nat} :
    (∃ hits, search n k tables = .ok hits) ↔ ∀ t ∈ tables, ¬t.Ambiguous n := by
  constructor
  · rintro ⟨hits, hhits⟩
    induction tables generalizing k hits with
    | nil => simp
    | cons t ts ih =>
      obtain ⟨found, hfound, hrest⟩ := bind_ok_iff.1 hhits
      obtain ⟨rest, hrest, -⟩ := bind_ok_iff.1 hrest
      exact List.forall_mem_cons.2 ⟨Table.exists_tryResolve_iff.1
        ⟨_, map_ok_iff.2 ⟨found, hfound, rfl⟩⟩, ih rest hrest⟩
  · intro h
    obtain ⟨hits, hhits, -⟩ := search_ok h k
    exact ⟨hits, hhits⟩

/-- The hits of a search are in order, and they are at the places where the name resolves. -/
theorem hits_of_search {hits : List Hit} (h : search n 0 tables = .ok hits) :
    hits.Pairwise (fun hit hit' => hit.stage < hit'.stage) ∧
      ∀ i, (∃ hit ∈ hits, hit.stage = i) ↔ ResolvesAt tables n i := by
  obtain ⟨hits', hhits', hmap⟩ := search_ok (exists_search_iff.1 ⟨hits, h⟩) 0
  obtain rfl := Except.ok.inj (h.symm.trans hhits')
  constructor
  · have hsorted := Table.pairwise_filter_zipIdx tables (·.1.resolves n)
    rwa [← hmap, List.pairwise_map] at hsorted
  · intro i
    have hmem : ∀ t, (t, i) ∈ tables.zipIdx.filter (·.1.resolves n) ↔
        tables[i]? = some t ∧ t.resolves n = true := fun t => by
      rw [List.mem_filter, List.mk_mem_zipIdx_iff_getElem?]
    simp only [ResolvesAt, ← hmem, ← hmap, List.mem_map, Prod.mk.injEq]
    exact ⟨fun ⟨hit, hhit, hi⟩ => ⟨hit.table, hit, hhit, rfl, hi⟩,
      fun ⟨_, hit, hhit, _, hi⟩ => ⟨hit, hhit, hi⟩⟩

/-- The hits of a search are at the places of their tables, and their columns are there. -/
theorem of_mem_search {k : Nat} {hits : List Hit} (h : search n k tables = .ok hits) {hit : Hit}
    (hhit : hit ∈ hits) : (hit.table, hit.stage) ∈ tables.zipIdx k ∧
      hit.table.columns[hit.found.first]? = some hit.found.column := by
  induction tables generalizing k hits with
  | nil =>
    obtain rfl := Except.ok.inj h
    exact absurd hhit List.not_mem_nil
  | cons t ts ih =>
    rw [search, bind_ok_iff] at h
    obtain ⟨found, hfound, h⟩ := h
    obtain ⟨rest, hrest, h⟩ := bind_ok_iff.1 h
    obtain rfl := pure_ok_iff.1 h
    rw [List.zipIdx_cons]
    -- the hit is on the first table or on one of the others
    rcases List.mem_append.1 hhit with hhit | hhit
    · obtain ⟨o, rfl, rfl⟩ := Option.map_eq_some_iff.1 (Option.mem_toList.1 hhit)
      exact ⟨List.mem_cons_self, Table.getElem?_of_find hfound⟩
    · obtain ⟨hmem, hcolumn⟩ := ih hrest hhit
      exact ⟨List.mem_cons_of_mem _ hmem, hcolumn⟩

/-- A name is located by a search that finds it. -/
theorem ofName_ok_iff {l : Location} :
    ofName tables n = .ok l ↔ search n 0 tables = .ok l.hits ∧ l.name = n := by
  rw [ofName, bind_ok_iff]
  constructor
  · rintro ⟨hits, hhits, h⟩
    cases hits with
    | nil => simp at h
    | cons first further =>
      obtain rfl := pure_ok_iff.1 h
      exact ⟨hhits, rfl⟩
  · rintro ⟨hhits, rfl⟩
    exact ⟨l.hits, hhits, rfl⟩

/-- A name is located exactly when it is ambiguous on no table and resolves on one. -/
theorem exists_ofName_iff : (∃ l, ofName tables n = .ok l) ↔
    (∀ t ∈ tables, ¬t.Ambiguous n) ∧ ∃ i, ResolvesAt tables n i := by
  simp only [ofName_ok_iff]
  constructor
  · rintro ⟨l, hl, -⟩
    exact ⟨exists_search_iff.1 ⟨_, hl⟩, _, ((hits_of_search hl).2 _).1
      ⟨l.first, List.mem_cons_self, rfl⟩⟩
  · rintro ⟨hambiguous, i, hi⟩
    obtain ⟨hits, hhits⟩ := exists_search_iff.2 hambiguous
    obtain ⟨hit, hhit, -⟩ := ((hits_of_search hhits).2 i).2 hi
    cases hits with
    | nil => exact absurd hhit List.not_mem_nil
    | cons first further => exact ⟨⟨n, first, further⟩, hhits, rfl⟩

/-! ### Hits up to a stage -/

theorem first_stage_le {l : Location}
    (hsorted : l.hits.Pairwise fun hit hit' => hit.stage < hit'.stage) {hit : Hit}
    (hhit : hit ∈ l.hits) : l.first.stage ≤ hit.stage := by
  rcases List.mem_cons.1 hhit with rfl | hhit
  · exact Nat.le_refl _
  · exact Nat.le_of_lt (List.rel_of_pairwise_cons hsorted hhit)

/-- The check passes if up to the stage there is no second hit. -/
theorem checkWithin_ok_iff {l : Location}
    (hsorted : l.hits.Pairwise fun hit hit' => hit.stage < hit'.stage) {k : Nat} :
    l.checkWithin k = .ok () ↔
      ∀ hit ∈ l.hits, hit.stage ≤ k → hit.stage = l.first.stage := by
  rw [checkWithin]
  constructor
  · intro h hit hhit hle
    have hmem : hit ∈ l.hits.filter (·.stage ≤ k) :=
      List.mem_filter.2 ⟨hhit, by simpa using hle⟩
    have hmem' : l.first ∈ l.hits.filter (·.stage ≤ k) :=
      List.mem_filter.2 ⟨List.mem_cons_self, by
        simpa using Nat.le_trans (first_stage_le hsorted hhit) hle⟩
    split at h
    · simp at h
    · next hne =>
      generalize l.hits.filter (·.stage ≤ k) = hs at hmem hmem' hne
      cases hs with
      | nil => exact absurd hmem List.not_mem_nil
      | cons a as =>
        cases as with
        | nil => rw [List.mem_singleton.1 hmem, List.mem_singleton.1 hmem']
        | cons b bs => exact absurd rfl (hne a b bs)
  · intro h
    split
    · next a b bs heq =>
      -- two hits within the stage would be of different relations
      have hall : ∀ hit ∈ l.hits.filter (·.stage ≤ k), hit.stage = l.first.stage := by
        intro hit hhit
        obtain ⟨hhit, hle⟩ := List.mem_filter.1 hhit
        exact h hit hhit (by simpa using hle)
      have ha : a ∈ l.hits.filter (·.stage ≤ k) := heq ▸ List.mem_cons_self
      have hsingle := eq_singleton_of_pairwise (hsorted.filter _) hall ha
      rw [heq] at hsingle
      simp at hsingle
    · rfl

/-- The first hit of a name that is located is where it resolves first, and the name passes the
check of a later stage if it resolves nowhere else up to there. -/
theorem of_ofName {l : Location} (h : ofName tables n = .ok l) :
    ResolvesAt tables n l.first.stage ∧ (∀ i, ResolvesAt tables n i → l.first.stage ≤ i) ∧
      ∀ k, l.checkWithin k = .ok () ↔
        ∀ i ≤ k, ResolvesAt tables n i → i = l.first.stage := by
  obtain ⟨hsorted, hhits⟩ := hits_of_search (ofName_ok_iff.1 h).1
  refine ⟨(hhits _).1 ⟨l.first, List.mem_cons_self, rfl⟩, fun i hi => ?_, fun k => ?_⟩
  · obtain ⟨hit, hhit, rfl⟩ := (hhits i).2 hi
    exact first_stage_le hsorted hhit
  · rw [checkWithin_ok_iff hsorted]
    simp only [← hhits]
    constructor
    · rintro hall _ hle ⟨hit, hhit, rfl⟩
      exact hall hit hhit hle
    · intro hall hit hhit hle
      exact hall hit.stage hle ⟨hit, hhit, rfl⟩

end Location

/-! ### The stage of a condition -/

/-- The maximum is a bound that is reached, or zero. -/
theorem foldl_max_eq_iff {α : Type} {f : α → Nat} {as : List α} {k : Nat} :
    as.foldl (fun s a => max s (f a)) 0 = k ↔
      (∀ a ∈ as, f a ≤ k) ∧ (k = 0 ∨ ∃ a ∈ as, f a = k) := by
  -- the induction needs any start
  have hfold : ∀ (as : List α) s k, as.foldl (fun s a => max s (f a)) s = k ↔
      s ≤ k ∧ (∀ a ∈ as, f a ≤ k) ∧ (k = s ∨ ∃ a ∈ as, f a = k) := by
    intro as
    induction as with
    | nil =>
      intro s k
      simp only [List.foldl_nil, List.not_mem_nil, false_implies, implies_true, true_and, false_and,
        exists_false, or_false]
      omega
    | cons a as ih =>
      intro s k
      rw [List.foldl_cons, ih]
      simp only [List.mem_cons, forall_eq_or_imp, exists_eq_or_imp]
      constructor
      · rintro ⟨hle, hall, hk⟩
        refine ⟨by omega, ⟨by omega, hall⟩, ?_⟩
        rcases hk with hk | hk
        · omega
        · exact .inr (.inr hk)
      · rintro ⟨hle, ⟨hle', hall⟩, hk⟩
        refine ⟨by omega, hall, ?_⟩
        rcases hk with hk | hk | hk
        · omega
        · omega
        · exact .inr hk
  rw [hfold]
  simp

theorem forM_ok_iff {ε α : Type} {f : α → Except ε Unit} {as : List α} :
    as.forM f = .ok () ↔ ∀ a ∈ as, f a = .ok () := by
  induction as with
  | nil => simp [List.forM, pure, Except.pure]
  | cons a as ih =>
    change (f a >>= fun _ => as.forM f) = .ok () ↔ _
    rw [bind_ok_iff, List.forall_mem_cons, ← ih]
    exact ⟨fun ⟨_, h, h'⟩ => ⟨h, h'⟩, fun ⟨h, h'⟩ => ⟨(), h, h'⟩⟩

/-- A condition belongs to the stage up to which each of its columns is found once, and at which one
of them is found unless the stage is the first. -/
theorem stageOf_ok_iff {c : Condition} {k : Nat} :
    stageOf tables c = .ok k ↔
      (∀ n ∈ c.columns, (∀ t ∈ tables, ¬t.Ambiguous n) ∧ ∃ i ≤ k, ResolvesAt tables n i ∧
        ∀ i' ≤ k, ResolvesAt tables n i' → i' = i) ∧
      (k = 0 ∨ ∃ n ∈ c.columns, ResolvesAt tables n k) := by
  rw [stageOf, bind_ok_iff]
  constructor
  · rintro ⟨ls, hls, hrest⟩
    rw [mapM_ok_iff] at hls
    obtain ⟨_, hcheck, heq⟩ := bind_ok_iff.1 hrest
    rw [pure_ok_iff] at heq
    rw [heq] at hcheck
    rw [forM_ok_iff] at hcheck
    obtain ⟨hle, hmax⟩ := foldl_max_eq_iff.1 heq
    constructor
    · intro n hn
      obtain ⟨l, hl, hnl⟩ := exists_right_of_forall₂ hls hn
      obtain ⟨hfirst, -, hwithin⟩ := Location.of_ofName hnl
      exact ⟨(Location.exists_ofName_iff.1 ⟨l, hnl⟩).1, l.first.stage, hle l hl, hfirst,
        (hwithin k).1 (hcheck l hl)⟩
    · refine hmax.imp_right ?_
      rintro ⟨l, hl, rfl⟩
      obtain ⟨n, hn, hnl⟩ := exists_left_of_forall₂ hls hl
      exact ⟨n, hn, (Location.of_ofName hnl).1⟩
  · rintro ⟨hcolumns, hmax⟩
    obtain ⟨ls, hls⟩ : ∃ ls, c.columns.mapM (Location.ofName tables) = .ok ls := by
      refine exists_mapM_ok fun n hn => ?_
      obtain ⟨hambiguous, i, -, hi, -⟩ := hcolumns n hn
      exact Location.exists_ofName_iff.2 ⟨hambiguous, i, hi⟩
    have hforall := mapM_ok_iff.1 hls
    -- the one place of a column up to `k` is its first
    have hfirst : ∀ n ∈ c.columns, ∀ l, Location.ofName tables n = .ok l → l.first.stage ≤ k ∧
        ∀ i ≤ k, ResolvesAt tables n i → i = l.first.stage := by
      intro n hn l hnl
      obtain ⟨hhit, hleast, -⟩ := Location.of_ofName hnl
      obtain ⟨-, i, hik, hi, huniq⟩ := hcolumns n hn
      have hlek := Nat.le_trans (hleast i hi) hik
      refine ⟨hlek, fun i' hi' hhit' => ?_⟩
      rw [huniq i' hi' hhit', huniq _ hlek hhit]
    have hstage : ls.foldl (fun s l => max s l.first.stage) 0 = k := by
      refine foldl_max_eq_iff.2 ⟨fun l hl => ?_, hmax.imp_right ?_⟩
      · obtain ⟨n, hn, hnl⟩ := exists_left_of_forall₂ hforall hl
        exact (hfirst n hn l hnl).1
      · rintro ⟨n, hn, hhit⟩
        obtain ⟨l, hl, hnl⟩ := exists_right_of_forall₂ hforall hn
        exact ⟨l, hl, ((hfirst n hn l hnl).2 k (Nat.le_refl k) hhit).symm⟩
    refine ⟨ls, hls, bind_ok_iff.2 ⟨(), ?_, by rw [hstage]; rfl⟩⟩
    rw [hstage]
    refine forM_ok_iff.2 fun l hl => ?_
    obtain ⟨n, hn, hnl⟩ := exists_left_of_forall₂ hforall hl
    exact ((Location.of_ofName hnl).2.2 k).2 (hfirst n hn l hnl).2

/-- The stage of a condition is one of the stages. -/
theorem stageOf_lt {c : Condition} {k : Nat} (h : stageOf tables c = .ok k) :
    k < max 1 tables.length := by
  rcases (stageOf_ok_iff.1 h).2 with rfl | ⟨n, -, hn⟩
  · omega
  · have := hn.lt
    omega

/-! ### The least stage -/

/-- Each column of a condition resolves on one of the tables up to a stage. -/
def Covered (tables : List Table) (c : Condition) (k : Nat) : Prop :=
  ∀ n ∈ c.columns, ∃ i ≤ k, ResolvesAt tables n i

/-- A name resolves on two of the tables up to a stage. -/
def ResolvesTwice (tables : List Table) (n : ColumnName) (k : Nat) : Prop :=
  ∃ i j, i < j ∧ j ≤ k ∧ ResolvesAt tables n i ∧ ResolvesAt tables n j

/-- A name that does not resolve twice resolves at one place. -/
theorem eq_of_not_resolvesTwice {k : Nat} (h : ¬ResolvesTwice tables n k) {i j : Nat} (hi : i ≤ k)
    (hj : j ≤ k) (hni : ResolvesAt tables n i) (hnj : ResolvesAt tables n j) : i = j := by
  rcases Nat.lt_trichotomy i j with hlt | heq | hlt
  · exact absurd ⟨i, j, hlt, hj, hni, hnj⟩ h
  · exact heq
  · exact absurd ⟨j, i, hlt, hi, hnj, hni⟩ h

/-- The stage of a condition is the least one up to which its columns are found. -/
theorem stageOf_ok_iff_isLeast {c : Condition} {k : Nat} :
    stageOf tables c = .ok k ↔ IsLeast {k | Covered tables c k} k ∧
      ∀ n ∈ c.columns, (∀ t ∈ tables, ¬t.Ambiguous n) ∧ ¬ResolvesTwice tables n k := by
  -- the stage is the last of the places where columns are found, each of them found once
  rw [stageOf_ok_iff]
  constructor
  · rintro ⟨hcolumns, hmax⟩
    refine ⟨⟨fun n hn => ?_, fun j hj => ?_⟩, fun n hn => ?_⟩
    · obtain ⟨-, i, hik, hi, -⟩ := hcolumns n hn
      exact ⟨i, hik, hi⟩
    · rcases hmax with rfl | ⟨n, hn, hk⟩
      · exact Nat.zero_le j
      · -- the column that is found at `k` is found nowhere before
        obtain ⟨-, i, -, -, huniq⟩ := hcolumns n hn
        obtain ⟨i', hi'j, hi'⟩ := hj n hn
        by_contra hlt
        have hi'i := huniq i' (by omega) hi'
        have hki := huniq k (Nat.le_refl k) hk
        omega
    · obtain ⟨hambiguous, i, -, -, huniq⟩ := hcolumns n hn
      refine ⟨hambiguous, ?_⟩
      rintro ⟨i', j, hlt, hjk, hi', hj⟩
      have hi'i := huniq i' (by omega) hi'
      have hji := huniq j hjk hj
      omega
  · rintro ⟨⟨hcovered, hleast⟩, hcolumns⟩
    refine ⟨fun n hn => ?_, ?_⟩
    · obtain ⟨i, hik, hi⟩ := hcovered n hn
      exact ⟨(hcolumns n hn).1, i, hik, hi, fun i' hi'k hi' =>
        eq_of_not_resolvesTwice (hcolumns n hn).2 hi'k hik hi' hi⟩
    · -- otherwise the stage before would do as well
      cases k with
      | zero => exact .inl rfl
      | succ k =>
        refine .inr (by_contra fun hnone => ?_)
        have hbefore : Covered tables c k := by
          intro n hn
          obtain ⟨i, hik, hi⟩ := hcovered n hn
          have hne : i ≠ k + 1 := fun heq => hnone ⟨n, hn, heq ▸ hi⟩
          exact ⟨i, by omega, hi⟩
        exact Nat.not_succ_le_self k (hleast hbefore)

/-- There is a least stage up to which the columns of a condition are found if each is found. -/
theorem exists_isLeast_covered {c : Condition} (h : ∀ n ∈ c.columns, ∃ i, ResolvesAt tables n i) :
    ∃ k, IsLeast {k | Covered tables c k} k := by
  classical
  have hcovered : ∃ k, Covered tables c k := by
    refine ⟨tables.length, fun n hn => ?_⟩
    obtain ⟨i, hi⟩ := h n hn
    exact ⟨i, Nat.le_of_lt hi.lt, hi⟩
  exact ⟨Nat.find hcovered, Nat.find_spec hcovered, fun k hk => Nat.find_min' hcovered hk⟩

/-- A condition has a stage exactly when its columns are found, and once each up to the least stage
that covers them. -/
theorem exists_stageOf_iff {c : Condition} :
    (∃ k, stageOf tables c = .ok k) ↔ ∀ n ∈ c.columns, (∀ t ∈ tables, ¬t.Ambiguous n) ∧
      (∃ i, ResolvesAt tables n i) ∧
      ∀ k, IsLeast {k | Covered tables c k} k → ¬ResolvesTwice tables n k := by
  simp only [stageOf_ok_iff_isLeast]
  constructor
  · rintro ⟨k, hleast, hcolumns⟩ n hn
    obtain ⟨i, -, hi⟩ := hleast.1 n hn
    refine ⟨(hcolumns n hn).1, ⟨i, hi⟩, fun k' hk' => ?_⟩
    rw [hk'.unique hleast]
    exact (hcolumns n hn).2
  · intro hcolumns
    obtain ⟨k, hk⟩ := exists_isLeast_covered fun n hn => (hcolumns n hn).2.1
    exact ⟨k, hk, fun n hn => ⟨(hcolumns n hn).1, (hcolumns n hn).2.2 k hk⟩⟩

/-! ### The conditions of each stage -/

/-- Conditions are sorted into the stages of their numbers. -/
theorem stageConditions_ok_iff {cs : List Condition} {lists : List (List Condition)} :
    stageConditions tables cs = .ok lists ↔ ∃ stages,
      List.Forall₂ (fun c k => stageOf tables c = .ok k) cs stages ∧
      (List.range (max 1 tables.length)).map (fun k =>
        ((cs.zip stages).filter (·.2 == k)).map (·.1)) = lists := by
  rw [stageConditions, bind_ok_iff]
  simp only [mapM_ok_iff, pure_ok_iff]

/-- The conditions listed for a stage are those that belong to it. -/
theorem mem_stage_iff {cs : List Condition} {lists : List (List Condition)}
    (h : stageConditions tables cs = .ok lists) {k : Nat} {list : List Condition}
    (hk : lists[k]? = some list) {c : Condition} :
    c ∈ list ↔ c ∈ cs ∧ stageOf tables c = .ok k := by
  obtain ⟨stages, hstages, rfl⟩ := stageConditions_ok_iff.1 h
  rw [List.getElem?_map, Option.map_eq_some_iff] at hk
  obtain ⟨k', hk', rfl⟩ := hk
  obtain ⟨hlt, rfl⟩ := List.getElem?_eq_some_iff.1 hk'
  rw [List.getElem_range]
  -- conditions are listed along with their stages
  have hzip : ∀ d j, (d, j) ∈ cs.zip stages → stageOf tables d = .ok j :=
    fun d j hmem => (List.forall₂_iff_zip.1 hstages).2 hmem
  have hmem : c ∈ ((cs.zip stages).filter (·.2 == k)).map (·.1) ↔ (c, k) ∈ cs.zip stages := by
    simp
  rw [hmem]
  constructor
  · intro hmem
    exact ⟨(List.of_mem_zip hmem).1, hzip c k hmem⟩
  · rintro ⟨hc, hstage⟩
    obtain ⟨i, hi⟩ := List.mem_iff_getElem?.1 hc
    obtain ⟨j, hj, hstage'⟩ := getElem?_of_forall₂ hstages hi
    obtain rfl : k = j := Except.ok.inj (hstage.symm.trans hstage')
    exact List.mem_iff_getElem?.2 ⟨i, List.getElem?_zip_eq_some.2 ⟨hi, hj⟩⟩

theorem length_stages {cs : List Condition} {lists : List (List Condition)}
    (h : stageConditions tables cs = .ok lists) : lists.length = max 1 tables.length := by
  obtain ⟨stages, -, rfl⟩ := stageConditions_ok_iff.1 h
  rw [List.length_map, List.length_range]

open scoped List in
/-- Sorting elements by a bounded number loses none of them. -/
theorem flatMap_range_filter_perm {α : Type} (as : List (α × Nat)) (m : Nat)
    (h : ∀ a ∈ as, a.2 < m) :
    ((List.range m).flatMap fun k => as.filter (·.2 == k)).Perm as := by
  induction m generalizing as with
  | zero =>
    cases as with
    | nil => exact .refl _
    | cons a as => exact absurd (h a List.mem_cons_self) (Nat.not_lt_zero _)
  | succ m ih =>
    rw [List.range_succ, List.flatMap_append, List.flatMap_singleton]
    -- the elements with smaller numbers come from the induction, those with `m` last
    have hlow : ((List.range m).flatMap fun k => as.filter (·.2 == k)) =
        (List.range m).flatMap fun k => (as.filter (·.2 < m)).filter (·.2 == k) := by
      refine List.flatMap_congr fun k hk => ?_
      rw [List.filter_filter]
      refine List.filter_congr fun a _ => ?_
      have hk := List.mem_range.1 hk
      by_cases ha : a.2 = k
      · simp [ha, hk]
      · simp [ha]
    have hhigh : as.filter (·.2 == m) = as.filter fun a => !decide (a.2 < m) := by
      refine List.filter_congr fun a ha => ?_
      have := h a ha
      by_cases ham : a.2 = m
      · simp [ham]
      · have : a.2 < m := by omega
        simp [ham, this]
    have hsmall : ∀ a ∈ as.filter (·.2 < m), a.2 < m := fun a ha => by
      simpa using (List.mem_filter.1 ha).2
    calc ((List.range m).flatMap fun k => as.filter (·.2 == k)) ++ as.filter (·.2 == m)
        = ((List.range m).flatMap fun k => (as.filter (·.2 < m)).filter (·.2 == k)) ++
            as.filter fun a => !decide (a.2 < m) := by rw [hlow, hhigh]
      _ ~ as.filter (·.2 < m) ++ as.filter fun a => !decide (a.2 < m) :=
          (ih _ hsmall).append_right _
      _ ~ as := List.filter_append_perm _ as

/-- Every condition is listed for one stage. -/
theorem flatten_stages_perm {cs : List Condition} {lists : List (List Condition)}
    (h : stageConditions tables cs = .ok lists) : lists.flatten.Perm cs := by
  obtain ⟨stages, hstages, rfl⟩ := stageConditions_ok_iff.1 h
  have hperm := flatMap_range_filter_perm (cs.zip stages) (max 1 tables.length) <| by
    rintro ⟨c, k⟩ hck
    exact stageOf_lt ((List.forall₂_iff_zip.1 hstages).2 hck)
  have hfst : (cs.zip stages).map (·.1) = cs :=
    List.map_fst_zip (Nat.le_of_eq hstages.length_eq)
  have hmap := hperm.map (·.1)
  rw [hfst, List.map_flatMap, List.flatMap_def] at hmap
  exact hmap

/-- The conditions of a stage are listed in their given order. -/
theorem stage_sublist {cs : List Condition} {lists : List (List Condition)}
    (h : stageConditions tables cs = .ok lists) : ∀ list ∈ lists, list.Sublist cs := by
  obtain ⟨stages, hstages, rfl⟩ := stageConditions_ok_iff.1 h
  intro list hlist
  obtain ⟨k, -, rfl⟩ := List.mem_map.1 hlist
  have hfst : (cs.zip stages).map (·.1) = cs :=
    List.map_fst_zip (Nat.le_of_eq hstages.length_eq)
  have hsublist := (List.filter_sublist (p := (·.2 == k)) (l := cs.zip stages)).map (·.1)
  rwa [hfst] at hsublist

/-- Conditions are sorted into stages exactly when each has one. -/
theorem exists_stageConditions_iff {cs : List Condition} :
    (∃ lists, stageConditions tables cs = .ok lists) ↔
      ∀ c ∈ cs, ∃ k, stageOf tables c = .ok k := by
  simp only [stageConditions_ok_iff]
  constructor
  · rintro ⟨_, stages, hstages, -⟩ c hc
    obtain ⟨k, -, hk⟩ := exists_right_of_forall₂ hstages hc
    exact ⟨k, hk⟩
  · intro h
    obtain ⟨stages, hstages⟩ := exists_mapM_ok h
    exact ⟨_, stages, mapM_ok_iff.1 hstages, rfl⟩

/-- Conditions are refused exactly when a column of one of them is ambiguous on a table, resolves on
none, or resolves on two tables up to the stage of its condition. Otherwise each condition is listed
once, in the given order, for the least stage up to which all its columns resolve. -/
theorem stageConditions_least (tables : List Table) (conditions : List Condition) :
    ((∃ e, stageConditions tables conditions = .error e) ↔
      ∃ c ∈ conditions, ∃ n ∈ c.columns, (∃ t ∈ tables, t.Ambiguous n) ∨
        (¬∃ i, ResolvesAt tables n i) ∨
        ∃ k, IsLeast {k | Covered tables c k} k ∧ ResolvesTwice tables n k) ∧
    ∀ stages, stageConditions tables conditions = .ok stages →
      stages.length = max 1 tables.length ∧ stages.flatten.Perm conditions ∧
      ∀ k stage, stages[k]? = some stage → stage.Sublist conditions ∧
        ∀ c ∈ stage, IsLeast {k | Covered tables c k} k ∧ (c.columns = [] → k = 0) := by
  constructor
  -- an error is what is left when there is no result
  · have herror : (∃ e, stageConditions tables conditions = .error e) ↔
        ¬∃ lists, stageConditions tables conditions = .ok lists := by
      cases stageConditions tables conditions <;> simp
    rw [herror, exists_stageConditions_iff]
    simp only [exists_stageOf_iff, not_forall, not_and_or, not_not, exists_prop]
  · intro stages hstages
    refine ⟨length_stages hstages, flatten_stages_perm hstages, fun k stage hk => ?_⟩
    refine ⟨stage_sublist hstages stage (List.mem_of_getElem? hk), fun c hc => ?_⟩
    obtain ⟨-, hstage⟩ := (mem_stage_iff hstages hk).1 hc
    obtain ⟨hleast, -⟩ := stageOf_ok_iff_isLeast.1 hstage
    refine ⟨hleast, fun hnone => Nat.le_zero.1 (hleast.2 fun n hn => ?_)⟩
    rw [hnone] at hn
    exact absurd hn List.not_mem_nil

/-- Two tables that both have a column called `id`. -/
def stockTables : List Table :=
  [⟨"p", ',', .file "price.csv" 1,
      [.ofName ⟨"id", "id", ["p"], by decide, by decide⟩,
        .ofName ⟨"price", "price", ["p"], by decide, by decide⟩], [], []⟩,
    ⟨"s", ',', .file "stock.csv" 1,
      [.ofName ⟨"id", "id", ["s"], by decide, by decide⟩,
        .ofName ⟨"amount", "amount", ["s"], by decide, by decide⟩], [], []⟩]

def amountBelowPrice : Condition := .atom ⟨.ofText "amount", .lt, .ofText "price"⟩

def idIsSeven : Condition := .atom ⟨.ofText "id", .eq, .ofText "7"⟩

def idIsAmount : Condition := .atom ⟨.ofText "id", .eq, .ofText "amount"⟩

/-- A name that both tables have is refused only next to a column of the second one. -/
theorem stageConditions_stockTables :
    IsLeast {k | Covered stockTables idIsSeven k} 0 ∧
    IsLeast {k | Covered stockTables amountBelowPrice k} 1 ∧
    ∃ c ∈ [amountBelowPrice, idIsAmount], ∃ n ∈ c.columns,
      (∃ t ∈ stockTables, t.Ambiguous n) ∨ (¬∃ i, ResolvesAt stockTables n i) ∨
        ∃ k, IsLeast {k | Covered stockTables c k} k ∧ ResolvesTwice stockTables n k := by
  have hstaged : stageConditions stockTables [amountBelowPrice, idIsSeven] =
      .ok [[idIsSeven], [amountBelowPrice]] := rfl
  have hrefused : ∃ e, stageConditions stockTables [amountBelowPrice, idIsAmount] = .error e :=
    ⟨_, rfl⟩
  obtain ⟨-, hstages⟩ := stageConditions_least stockTables [amountBelowPrice, idIsSeven]
  obtain ⟨-, -, hleast⟩ := hstages _ hstaged
  exact ⟨((hleast 0 _ rfl).2 _ List.mem_cons_self).1, ((hleast 1 _ rfl).2 _ List.mem_cons_self).1,
    (stageConditions_least stockTables [amountBelowPrice, idIsAmount]).1.1 hrefused⟩

end ShellQuery
