import ShellQuery.Proofs.Table.Reachable

/-!
# Names on a joined table

A join merges the columns of each class of positions into one. `joinImage` says where a position's
column goes. If no two columns of the two tables share a name, names resolve on the joined table as
they do on its two sides (`resolvesAlong_of_mergeJoin`): the joined columns that answer to a name
are the images of those that did, so a join hides no ambiguity except by merging and brings in none.

The heart is `eq_of_identical`: no two joined columns are identical, as their primary names come
from different classes. Where columns share names this fails, and a join may make two columns one.
-/

namespace ShellQuery.Table

/-- No column of the two tables has a name identical to a name of another one. -/
def NamesApart (left right : Table) : Prop :=
  (left.columns ++ right.columns).Pairwise fun c d =>
    ∀ m ∈ c.names, ∀ n ∈ d.names, ¬m.identical n = true

instance (left right : Table) : Decidable (NamesApart left right) :=
  inferInstanceAs (Decidable (List.Pairwise _ _))

/-- Where the column at a position goes when tables of the given widths are joined on some pairs. -/
def joinImage (leftWidth rightWidth : Nat) (pairs : List (Nat × Nat)) (x : Nat ⊕ Nat) : Nat :=
  (joinClasses leftWidth rightWidth pairs (KeyGroup.ofPairs pairs)).findIdx fun cls =>
    cls.any fun y => decide (y = x)

/-- A name may mean the column at a position of either table. -/
def MatchedBy (left right : Table) (n : ColumnName) (x : Nat ⊕ Nat) : Prop :=
  ∃ c, atSide left.columns right.columns x = some c ∧ c.answersTo n = true

/-- Names resolve on `t` as they do on the two tables, whose columns go where `image` says. -/
structure ResolvesAlong (left right : Table) (image : Nat ⊕ Nat → Nat) (t : Table) : Prop where
  answersTo : ∀ n q, (∃ c, t.columns[q]? = some c ∧ c.answersTo n = true) ↔
    ∃ x, MatchedBy left right n x ∧ image x = q
  none : ∀ n, t.tryResolve n = .ok none ↔ ∀ x, ¬MatchedBy left right n x
  some : ∀ n p, t.tryResolve n = .ok (some p) ↔
    (∃ x, MatchedBy left right n x) ∧ ∀ x, MatchedBy left right n x → image x = p
  ambiguous : ∀ n, (∃ candidates,
      t.tryResolve n = .error (.ambiguousColumn n.qualified candidates)) ↔
    ∃ x y, MatchedBy left right n x ∧ MatchedBy left right n y ∧ image x ≠ image y

/-! ### Where columns go -/

section

variable {leftWidth rightWidth : Nat} {pairs : List (Nat × Nat)}

/-- Classes at different places have no position in common. -/
theorem eq_of_mem_classes {q q' : Nat} {cls cls' : List (Nat ⊕ Nat)} {x : Nat ⊕ Nat}
    (hq : (joinClasses leftWidth rightWidth pairs (KeyGroup.ofPairs pairs))[q]? = some cls)
    (hq' : (joinClasses leftWidth rightWidth pairs (KeyGroup.ofPairs pairs))[q']? = some cls')
    (hx : x ∈ cls) (hx' : x ∈ cls') : q = q' := by
  have hpicks := forall₂_picks leftWidth rightWidth pairs
  obtain ⟨y, hy, -, hlinked⟩ := getElem?_of_forall₂ hpicks hq
  obtain ⟨z, hz, -, hlinked'⟩ := getElem?_of_forall₂ hpicks hq'
  obtain ⟨hlt, rfl⟩ := List.getElem?_eq_some_iff.1 hy
  obtain ⟨hlt', rfl⟩ := List.getElem?_eq_some_iff.1 hz
  -- both classes lead with a position linked to `x`, and two of these are not linked to each other
  have hyz := ((hlinked x).1 hx).trans _ _ _ ((hlinked' x).1 hx').symm
  have hseparate := List.pairwise_iff_getElem.1 (pairwise_picks leftWidth rightWidth pairs)
  rcases Nat.lt_trichotomy q q' with h | h | h
  · exact absurd hyz (hseparate q q' hlt hlt' h)
  · exact h
  · exact absurd hyz.symm (hseparate q' q hlt' hlt h)

/-- The image of a position is the place of its class. -/
theorem joinImage_eq_iff {x : Nat ⊕ Nat} (hx : x.elim (· < leftWidth) (· < rightWidth)) {q : Nat} :
    joinImage leftWidth rightWidth pairs x = q ↔ ∃ cls,
      (joinClasses leftWidth rightWidth pairs (KeyGroup.ofPairs pairs))[q]? = some cls ∧
        x ∈ cls := by
  obtain ⟨pick, hpick, hlinked⟩ := exists_mem_picks pairs hx
  obtain ⟨cls, hcls, -, hmem⟩ := exists_left_of_forall₂ (forall₂_picks _ _ pairs) hpick
  have hcontains : ∀ cls : List (Nat ⊕ Nat),
      (cls.any fun y => decide (y = x)) = true ↔ x ∈ cls := by
    intro cls
    simp
  have hlt : joinImage leftWidth rightWidth pairs x <
      (joinClasses leftWidth rightWidth pairs (KeyGroup.ofPairs pairs)).length := by
    apply List.findIdx_lt_length_of_exists
    exact ⟨cls, hcls, (hcontains cls).2 ((hmem x).2 hlinked)⟩
  -- the image is where the class stands, and no position is in two classes
  have hplace : ∃ cls, (joinClasses leftWidth rightWidth pairs
      (KeyGroup.ofPairs pairs))[joinImage leftWidth rightWidth pairs x]? = some cls ∧ x ∈ cls :=
    ⟨_, List.getElem?_eq_getElem hlt, (hcontains _).1 (List.findIdx_getElem (w := hlt))⟩
  constructor
  · rintro rfl
    exact hplace
  · rintro ⟨cls', hq, hx'⟩
    obtain ⟨cls'', himage, hx''⟩ := hplace
    exact eq_of_mem_classes himage hq hx'' hx'

/-- Two positions have the same image exactly when the pairs link them. -/
theorem joinImage_eq_joinImage_iff {x y : Nat ⊕ Nat}
    (hx : x.elim (· < leftWidth) (· < rightWidth)) (hy : y.elim (· < leftWidth) (· < rightWidth)) :
    joinImage leftWidth rightWidth pairs x = joinImage leftWidth rightWidth pairs y ↔
      Linked pairs x y := by
  have hpicks := forall₂_picks leftWidth rightWidth pairs
  rw [joinImage_eq_iff hx]
  obtain ⟨cls, hcls, hmem⟩ := (joinImage_eq_iff hy).1 rfl
  obtain ⟨pick, -, -, hlinked⟩ := getElem?_of_forall₂ hpicks hcls
  have hpick : Linked pairs pick y := (hlinked y).1 hmem
  -- a class is all that is linked to its first position
  constructor
  · rintro ⟨cls', hcls', hx⟩
    obtain rfl : cls = cls' := Option.some.inj (hcls.symm.trans hcls')
    exact .trans _ _ _ ((hlinked x).1 hx).symm hpick
  · intro hxy
    exact ⟨cls, hcls, (hlinked x).2 (.trans _ _ _ hpick hxy.symm)⟩

end

/-! ### Columns without common names -/

section

variable {left right : Table} {pairs : List (Nat × Nat)}

/-- The place of a position when the columns of both tables are taken together. -/
def sidePlace (leftWidth : Nat) : Nat ⊕ Nat → Nat :=
  Sum.elim id (leftWidth + ·)

theorem lt_of_atSide {x : Nat ⊕ Nat} {c : Column}
    (hc : atSide left.columns right.columns x = some c) :
    x.elim (· < left.columns.length) (· < right.columns.length) :=
  isSome_atSide.1 (Option.isSome_iff_exists.2 ⟨c, hc⟩)

theorem getElem?_sidePlace {x : Nat ⊕ Nat} {c : Column}
    (hc : atSide left.columns right.columns x = some c) :
    (left.columns ++ right.columns)[sidePlace left.columns.length x]? = some c := by
  cases x with
  | inl p =>
    have hp : p < left.columns.length := lt_of_atSide hc
    rw [sidePlace, Sum.elim_inl, id, List.getElem?_append_left hp]
    exact hc
  | inr p =>
    rw [sidePlace, Sum.elim_inr, List.getElem?_append_right (Nat.le_add_right _ _),
      Nat.add_sub_cancel_left]
    exact hc

theorem eq_of_sidePlace_eq {x y : Nat ⊕ Nat} {leftWidth rightWidth : Nat}
    (hx : x.elim (· < leftWidth) (· < rightWidth)) (hy : y.elim (· < leftWidth) (· < rightWidth))
    (h : sidePlace leftWidth x = sidePlace leftWidth y) : x = y := by
  unfold sidePlace at h
  cases x with
  | inl p =>
    cases y with
    | inl q => exact congrArg Sum.inl h
    | inr q =>
      simp only [Sum.elim_inl, Sum.elim_inr, id] at h hx
      omega
  | inr p =>
    cases y with
    | inl q =>
      simp only [Sum.elim_inl, Sum.elim_inr, id] at h hy
      omega
    | inr q => exact congrArg Sum.inr (Nat.add_left_cancel h)

/-- Columns at different positions have no identical names. -/
theorem NamesApart.eq_of_identical (h : NamesApart left right) {x y : Nat ⊕ Nat} {c d : Column}
    (hc : atSide left.columns right.columns x = some c)
    (hd : atSide left.columns right.columns y = some d) {m n : ColumnName} (hm : m ∈ c.names)
    (hn : n ∈ d.names) (hid : m.identical n = true) : x = y := by
  obtain ⟨hlt, hgetc⟩ := List.getElem?_eq_some_iff.1 (getElem?_sidePlace hc)
  obtain ⟨hlt', hgetd⟩ := List.getElem?_eq_some_iff.1 (getElem?_sidePlace hd)
  have hapart := List.pairwise_iff_getElem.1 h
  apply eq_of_sidePlace_eq (lt_of_atSide hc) (lt_of_atSide hd)
  -- names of two places are not identical, whichever comes first
  rcases Nat.lt_trichotomy (sidePlace left.columns.length x)
    (sidePlace left.columns.length y) with hbefore | heq | hbehind
  · exact absurd hid (hapart _ _ hlt hlt' hbefore m (hgetc ▸ hm) n (hgetd ▸ hn))
  · exact heq
  · rw [ColumnName.identical_comm] at hid
    exact absurd hid (hapart _ _ hlt' hlt hbehind n (hgetd ▸ hn) m (hgetc ▸ hm))

variable {columns : List Column} (hcolumns : List.Forall₂ (ClassColumn left right)
  (joinClasses left.columns.length right.columns.length pairs (KeyGroup.ofPairs pairs)) columns)

include hcolumns

theorem exists_class {q : Nat} {c : Column} (hc : columns[q]? = some c) :
    ∃ cls, (joinClasses left.columns.length right.columns.length pairs
      (KeyGroup.ofPairs pairs))[q]? = some cls ∧ ClassColumn left right cls c :=
  getElem?_of_forall₂ hcolumns.flip hc

/-- If the tables have no names in common, no two joined columns are identical: their primary names
come from columns of different classes. -/
theorem eq_of_identical (hapart : NamesApart left right) {q q' : Nat} {c d : Column}
    (hc : columns[q]? = some c) (hd : columns[q']? = some d) (hid : c.identical d = true) :
    q = q' := by
  obtain ⟨cls, hcls, hclass⟩ := exists_class hcolumns hc
  obtain ⟨cls', hcls', hclass'⟩ := exists_class hcolumns hd
  obtain ⟨x, hx, e, he, hname⟩ := hclass.exists_primary
  obtain ⟨y, hy, e', he', hname'⟩ := hclass'.exists_primary
  have hprimary : c.primary.identical d.primary = true := by
    have hnames := Column.sameNames_of_identical hid
    rw [Column.sameNames, Column.names, Column.names, List.isEqv, Bool.and_eq_true] at hnames
    exact hnames.1
  have hxy : x = y := hapart.eq_of_identical he he' hname hname' hprimary
  exact eq_of_mem_classes hcls hcls' hx (hxy ▸ hy)

/-- The joined columns that answer to a name are the images of those that did. -/
theorem exists_answersTo_iff (n : ColumnName) (q : Nat) :
    (∃ c, columns[q]? = some c ∧ c.answersTo n = true) ↔ ∃ x, MatchedBy left right n x ∧
      joinImage left.columns.length right.columns.length pairs x = q := by
  have hinside : ∀ {x}, MatchedBy left right n x →
      x.elim (· < left.columns.length) (· < right.columns.length) :=
    fun ⟨d, hd, _⟩ => lt_of_atSide hd
  constructor
  · rintro ⟨c, hc, hn⟩
    obtain ⟨cls, hcls, hclass⟩ := exists_class hcolumns hc
    obtain ⟨x, hx, hmatched⟩ := (hclass.answersTo_iff n).1 hn
    exact ⟨x, hmatched, (joinImage_eq_iff (hinside hmatched)).2 ⟨cls, hcls, hx⟩⟩
  · rintro ⟨x, hmatched, himage⟩
    obtain ⟨cls, hcls, hx⟩ := (joinImage_eq_iff (hinside hmatched)).1 himage
    obtain ⟨c, hc, hclass⟩ := getElem?_of_forall₂ hcolumns hcls
    exact ⟨c, hc, (hclass.answersTo_iff n).2 ⟨x, hx, hmatched⟩⟩

end

/-! ### Resolving along images -/

section

variable {left right t : Table} {image : Nat ⊕ Nat → Nat}
  (hanswers : ∀ n q, (∃ c, t.columns[q]? = some c ∧ c.answersTo n = true) ↔
    ∃ x, MatchedBy left right n x ∧ image x = q)

include hanswers

theorem tryResolve_eq_none_iff_matched (n : ColumnName) :
    t.tryResolve n = .ok none ↔ ∀ x, ¬MatchedBy left right n x := by
  rw [tryResolve_eq_none_iff]
  constructor
  · intro h x hx
    obtain ⟨c, hc, hn⟩ := (hanswers n (image x)).2 ⟨x, hx, rfl⟩
    rw [h c (List.mem_of_getElem? hc)] at hn
    exact Bool.false_ne_true hn
  · intro h c hc
    by_contra hn
    obtain ⟨q, hq⟩ := List.mem_iff_getElem?.1 hc
    obtain ⟨x, hx, -⟩ := (hanswers n q).1 ⟨c, hq, Bool.not_eq_false _ ▸ hn⟩
    exact h x hx

variable (hidentical : ∀ {q q' : Nat} {c d : Column}, t.columns[q]? = some c →
  t.columns[q']? = some d → c.identical d = true → q = q')

include hidentical

theorem tryResolve_eq_some_iff_matched (n : ColumnName) (p : Nat) :
    t.tryResolve n = .ok (some p) ↔
      (∃ x, MatchedBy left right n x) ∧ ∀ x, MatchedBy left right n x → image x = p := by
  constructor
  · intro h
    obtain ⟨c, hc, hn, -, hsame⟩ := tryResolve_eq_some_iff.1 h
    obtain ⟨x, hx, -⟩ := (hanswers n p).1 ⟨c, hc, hn⟩
    refine ⟨⟨x, hx⟩, fun y hy => ?_⟩
    obtain ⟨d, hd, hdn⟩ := (hanswers n (image y)).2 ⟨y, hy, rfl⟩
    exact (hidentical hc hd (hsame d (List.mem_of_getElem? hd) hdn)).symm
  · rintro ⟨⟨x, hx⟩, himage⟩
    obtain ⟨c, hc, hn⟩ := (hanswers n p).2 ⟨x, hx, himage x hx⟩
    refine tryResolve_of_unique hc hn fun q d hd hdn => ?_
    obtain ⟨y, hy, hyq⟩ := (hanswers n q).1 ⟨d, hd, hdn⟩
    rw [← hyq, himage y hy]

/-- Where the columns that answer to names are the images of the matched ones and no two columns are
identical, names resolve along the images. -/
theorem resolvesAlong_of_answersTo : ResolvesAlong left right image t := by
  have hnone := tryResolve_eq_none_iff_matched hanswers
  have hsome := tryResolve_eq_some_iff_matched hanswers hidentical
  refine ⟨hanswers, hnone, hsome, fun n => ?_⟩
  constructor
  · rintro ⟨candidates, h⟩
    by_contra hone
    -- otherwise there is no match, or all matches have one image
    by_cases hmatched : ∃ x, MatchedBy left right n x
    · obtain ⟨x, hx⟩ := hmatched
      have hfound := (hsome n (image x)).2 ⟨⟨x, hx⟩, fun y hy => by
        by_contra hne
        exact hone ⟨y, x, hy, hx, hne⟩⟩
      rw [h] at hfound
      exact absurd hfound (by simp)
    · have hfound := (hnone n).2 fun x hx => hmatched ⟨x, hx⟩
      rw [h] at hfound
      exact absurd hfound (by simp)
  · rintro ⟨x, y, hx, hy, hne⟩
    rcases tryResolve_cases t n with h | ⟨p, h⟩ | h
    · exact absurd hx ((hnone n).1 h x)
    · have himage := ((hsome n p).1 h).2
      exact absurd ((himage x hx).trans (himage y hy).symm) hne
    · exact h

end

/-- Resolving names commutes with joining: on a table joined from two tables without common names, a
name is not found if it matches no column of either, found at the common image of all it matches,
and ambiguous if they have different images. -/
theorem resolvesAlong_of_mergeJoin {left right t : Table} {conditions : List Comparison}
    {name : String} (hapart : NamesApart left right)
    (h : mergeJoin left right conditions name = .ok t) :
    ∃ pairs, conditions.mapM (keyPair left right) = .ok pairs ∧
      (∀ x y : Nat ⊕ Nat, x.elim (· < left.columns.length) (· < right.columns.length) →
        y.elim (· < left.columns.length) (· < right.columns.length) →
        (joinImage left.columns.length right.columns.length pairs x =
            joinImage left.columns.length right.columns.length pairs y ↔ Linked pairs x y)) ∧
      ResolvesAlong left right (joinImage left.columns.length right.columns.length pairs) t := by
  obtain ⟨key, more, hpairs, rfl⟩ := mergeJoin_ok_iff.1 h
  have hwithin := (leadingPairs_of_mapM hpairs).within
  have hcolumns : List.Forall₂ (ClassColumn left right)
      (joinClasses left.columns.length right.columns.length (key :: more)
        (KeyGroup.ofPairs (key :: more))) (joinTable left right key more name).columns :=
    forall₂_columns_joinTable hwithin
  exact ⟨key :: more, hpairs, fun x y => joinImage_eq_joinImage_iff,
    resolvesAlong_of_answersTo (exists_answersTo_iff hcolumns) (eq_of_identical hcolumns hapart)⟩

/-- Two tables that both have a city and an id, joined on the city and on differently named keys. -/
def sharedCity : Except PlanError (Table × Table × List Comparison) := do
  let orders ← ofCommand "o" "orders" ["id", "city", "person"] ','
  let people ← ofCommand "p" "people" ["city", "id", "phone"] ','
  let person ← Comparison.ofTexts "p.id" "=" "person"
  let city ← Comparison.ofTexts "o.city" "=" "p.city"
  return (orders, people, [person, city])

theorem resolvesAlong_sharedCity :
    ∃ left right conditions t, sharedCity = .ok (left, right, conditions) ∧
      NamesApart left right ∧ mergeJoin left right conditions "op" = .ok t ∧
      ∃ pairs, conditions.mapM (keyPair left right) = .ok pairs ∧
        (∀ x y : Nat ⊕ Nat, x.elim (· < left.columns.length) (· < right.columns.length) →
          y.elim (· < left.columns.length) (· < right.columns.length) →
          (joinImage left.columns.length right.columns.length pairs x =
              joinImage left.columns.length right.columns.length pairs y ↔ Linked pairs x y)) ∧
        ResolvesAlong left right (joinImage left.columns.length right.columns.length pairs) t := by
  have hjoined : (sharedCity >>= fun (left, right, conditions) =>
      (mergeJoin left right conditions "op").map fun _ => decide (NamesApart left right)) =
        .ok true := by decide +kernel
  obtain ⟨⟨left, right, conditions⟩, hcity, hjoined⟩ := bind_ok_iff.1 hjoined
  obtain ⟨t, ht, hapart⟩ := map_ok_iff.1 hjoined
  have hapart : NamesApart left right := of_decide_eq_true hapart
  exact ⟨left, right, conditions, t, hcity, hapart, ht, resolvesAlong_of_mergeJoin hapart ht⟩

end ShellQuery.Table
