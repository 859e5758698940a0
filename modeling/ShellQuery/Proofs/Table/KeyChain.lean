import ShellQuery.Proofs.Table.KeyGroup

/-!
# Key groups are connected components

Two pairs of keys are neighbours if they have a key in common, and a chain of neighbours joins two
pairs exactly when their keys are linked (`chained_iff_linked`). So the groups into which pairs are
folded are the connected components of the pairs, in the order in which their first pairs stand
(`connectedGroups_ofPairs`).
-/

namespace ShellQuery

variable {pairs : List (Nat × Nat)} {groups : List KeyGroup}

/-! ### Chains of pairs -/

/-- A chain of pairs from a list in which each has a left or a right key in common with the next. -/
abbrev Chained (pairs : List (Nat × Nat)) : Nat × Nat → Nat × Nat → Prop :=
  Relation.ReflTransGen fun p q => p ∈ pairs ∧ q ∈ pairs ∧ (p.1 = q.1 ∨ p.2 = q.2)

/-- Chained pairs have linked left positions. -/
theorem Chained.linked {p q : Nat × Nat} (h : Chained pairs p q) :
    Linked pairs (.inl p.1) (.inl q.1) := by
  induction h with
  | refl => exact .refl _
  | @tail a b _ hstep ih =>
    obtain ⟨ha, hb, hshare⟩ := hstep
    rcases hshare with hleft | hright
    · rwa [← hleft]
    · have hvia : Linked pairs (.inl a.1) (.inr b.2) := hright ▸ .of_mem ha
      exact ih.trans _ _ _ (hvia.trans _ _ _ (Linked.of_mem hb).symm)

/-- A chain from `p` reaches every pair that has a key linked with those of `p`. -/
theorem chained_of_linked {p q : Nat × Nat} (hp : p ∈ pairs) (hq : q ∈ pairs)
    (h : Linked pairs (.inl p.1) (.inl q.1)) : Chained pairs p q := by
  -- the two keys of a pair have the same pairs behind them, as the pair itself is one of these
  have hkeys : ∀ x y : Nat ⊕ Nat, (∃ s ∈ pairs, x = .inl s.1 ∧ y = .inr s.2) →
      ((∀ r ∈ pairs, x = .inl r.1 ∨ x = .inr r.2 → Chained pairs p r) ↔
        ∀ r ∈ pairs, y = .inl r.1 ∨ y = .inr r.2 → Chained pairs p r) := by
    rintro _ _ ⟨s, hs, rfl, rfl⟩
    constructor
    · rintro hleft r hr (heq | heq)
      · cases heq
      · exact (hleft s hs (.inl rfl)).tail ⟨hs, hr, .inr (Sum.inr.inj heq)⟩
    · rintro hright r hr (heq | heq)
      · exact (hright s hs (.inr rfl)).tail ⟨hs, hr, .inl (Sum.inl.inj heq)⟩
      · cases heq
  refine (iff_of_eqvGen hkeys h).1 ?_ q hq (.inl rfl)
  rintro r hr (heq | heq)
  · exact .single ⟨hp, hr, .inl (Sum.inl.inj heq)⟩
  · cases heq

theorem chained_iff_linked {p q : Nat × Nat} (hp : p ∈ pairs) (hq : q ∈ pairs) :
    Chained pairs p q ↔ Linked pairs (.inl p.1) (.inl q.1) :=
  ⟨Chained.linked, chained_of_linked hp hq⟩

/-! ### The pairs of a group -/

namespace KeyGroup

/-- Whether a pair belongs to the group. -/
def Holds (g : KeyGroup) (p : Nat × Nat) : Prop :=
  p.1 ∈ g.left ∧ p.2 ∈ g.right

/-- The pair `p` at place `i` is the first one that belongs to the group. -/
structure Begins (g : KeyGroup) (pairs : List (Nat × Nat)) (i : Nat) (p : Nat × Nat) : Prop where
  place : pairs[i]? = some p
  holds : g.Holds p
  least : ∀ j < i, ∀ q, pairs[j]? = some q → ¬g.Holds q

theorem Begins.place_eq {g : KeyGroup} {i j : Nat} {p q : Nat × Nat} (h : g.Begins pairs i p)
    (h' : g.Begins pairs j q) : i = j := by
  rcases Nat.lt_trichotomy i j with hlt | heq | hlt
  · exact absurd h.holds (h'.least i hlt p h.place)
  · exact heq
  · exact absurd h'.holds (h.least j hlt q h'.place)

/-- The group lists each of its positions once. -/
def Distinct (g : KeyGroup) : Prop :=
  g.left.Nodup ∧ g.right.Nodup

theorem distinct_absorb (g h : KeyGroup) : (g.absorb h).Distinct :=
  ⟨nodup_eraseDups _, nodup_eraseDups _⟩

theorem distinct_ofPair (p : Nat × Nat) : (ofPair p).Distinct :=
  ⟨List.pairwise_singleton _ _, List.pairwise_singleton _ _⟩

/-- One more pair makes no group repeat a position. -/
theorem distinct_addPair (h : ∀ g ∈ groups, g.Distinct) (p : Nat × Nat) :
    ∀ g ∈ addPair groups p, g.Distinct := by
  intro g hg
  rcases addPair_cases groups p with ⟨-, heq⟩ | ⟨before, m, after, rfl, -, -, heq⟩
  · rw [heq, List.mem_append, List.mem_singleton] at hg
    rcases hg with hg | rfl
    · exact h g hg
    · exact distinct_ofPair p
  · rw [heq, List.mem_append, List.mem_cons, List.mem_filter] at hg
    rcases hg with hg | rfl | ⟨hg, -⟩
    · exact h g (List.mem_append_left _ hg)
    · exact distinct_absorb _ _
    · exact h g (List.mem_append_right _ (List.mem_cons_of_mem _ hg))

theorem distinct_ofPairs (pairs : List (Nat × Nat)) : ∀ g ∈ ofPairs pairs, g.Distinct := by
  have hfold : ∀ (more : List (Nat × Nat)) {groups : List KeyGroup}, (∀ g ∈ groups, g.Distinct) →
      ∀ g ∈ more.foldl addPair groups, g.Distinct := by
    intro more
    induction more with
    | nil => exact fun h => h
    | cons p more ih => exact fun h => ih (distinct_addPair h p)
  exact hfold pairs fun g hg => absurd hg List.not_mem_nil

end KeyGroup

/-! ### Connected components -/

/-- Two pairs fall into one group exactly when a chain of pairs joins them. Every key of a pair is
in exactly one group and nothing else is. The groups stand in the order of their first pairs, with
the left keys of these in front. -/
structure ConnectedGroups (pairs : List (Nat × Nat)) (groups : List KeyGroup) : Prop where
  together : ∀ p ∈ pairs, ∀ q ∈ pairs,
    (∃ g ∈ groups, g.Holds p ∧ g.Holds q) ↔ Chained pairs p q
  unique : ∀ x : Nat ⊕ Nat, (∃ p ∈ pairs, x = .inl p.1 ∨ x = .inr p.2) →
    ∃! i : Nat, ∃ g : KeyGroup, groups[i]? = some g ∧ g.Has x
  inside : ∀ g ∈ groups, ∀ x, g.Has x → ∃ p ∈ pairs, x = .inl p.1 ∨ x = .inr p.2
  distinct : ∀ g ∈ groups, g.Distinct
  heads : ∀ g ∈ groups, ∃ i p, g.Begins pairs i p ∧ g.left.head? = some p.1
  inOrder : groups.Pairwise fun g h =>
    ∀ i p j q, g.Begins pairs i p → h.Begins pairs j q → i < j

namespace Components

theorem holds_iff (h : Components pairs groups) {g : KeyGroup} (hg : g ∈ groups) {p : Nat × Nat}
    (hp : p ∈ pairs) : g.Holds p ↔ g.Has (.inl p.1) :=
  ⟨fun hholds => hholds.1, fun hleft => ⟨hleft, (h.closed p hp g hg).1 hleft⟩⟩

/-- Two pairs belong to one group exactly when they are chained. -/
theorem exists_holds_iff (h : Components pairs groups) {p q : Nat × Nat} (hp : p ∈ pairs)
    (hq : q ∈ pairs) : (∃ g ∈ groups, g.Holds p ∧ g.Holds q) ↔ Chained pairs p q := by
  rw [chained_iff_linked hp hq]
  constructor
  · rintro ⟨g, hg, hp', hq'⟩
    exact h.linked g hg _ _ hp'.1 hq'.1
  · intro hlinked
    obtain ⟨g, hg, hleft⟩ := h.covers p hp
    refine ⟨g, hg, (h.holds_iff hg hp).2 hleft, (h.holds_iff hg hq).2 ?_⟩
    exact (h.has_iff hg hlinked).1 hleft

/-- Every position of a pair belongs to the group at one place. -/
theorem existsUnique_place (h : Components pairs groups) {x : Nat ⊕ Nat}
    (hx : ∃ p ∈ pairs, x = .inl p.1 ∨ x = .inr p.2) :
    ∃! i : Nat, ∃ g : KeyGroup, groups[i]? = some g ∧ g.Has x := by
  obtain ⟨g, hg, hhas⟩ : ∃ g ∈ groups, g.Has x := by
    obtain ⟨p, hp, hx⟩ := hx
    obtain ⟨g, hg, hleft⟩ := h.covers p hp
    rcases hx with rfl | rfl
    · exact ⟨g, hg, hleft⟩
    · exact ⟨g, hg, (h.closed p hp g hg).1 hleft⟩
  obtain ⟨i, hi⟩ := List.mem_iff_getElem?.1 hg
  refine ⟨i, ⟨g, hi, hhas⟩, ?_⟩
  rintro j ⟨k, hj, hhas'⟩
  obtain ⟨hi', rfl⟩ := List.getElem?_eq_some_iff.1 hi
  obtain ⟨hj', rfl⟩ := List.getElem?_eq_some_iff.1 hj
  -- two places with the position would have groups that are not apart
  have hapart := List.pairwise_iff_getElem.1 h.apart
  rcases Nat.lt_trichotomy i j with hlt | heq | hlt
  · exact absurd ⟨hhas, hhas'⟩ (hapart i j hi' hj' hlt x)
  · exact heq.symm
  · exact absurd ⟨hhas', hhas⟩ (hapart j i hj' hi' hlt x)

end Components

/-- The place where a group starts is that of the first pair that belongs to it. -/
theorem begins_start (hcomp : Components pairs groups) (horder : InOrderOfAppearance pairs groups)
    {g : KeyGroup} (hg : g ∈ groups) :
    ∃ p, g.Begins pairs (g.start pairs) p ∧ g.left.head? = some p.1 := by
  obtain ⟨p, hp, hhead⟩ := horder.heads g hg
  have hleft : p.1 ∈ g.left := List.mem_of_head? hhead
  refine ⟨p, ⟨hp, (hcomp.holds_iff hg (List.mem_of_getElem? hp)).2 hleft, ?_⟩, hhead⟩
  intro j hj q hq hholds
  have hle := KeyGroup.start_le hq hholds.1
  omega

/-- Folding pairs of keys into groups gives their connected components. -/
theorem connectedGroups_ofPairs (pairs : List (Nat × Nat)) :
    ConnectedGroups pairs (KeyGroup.ofPairs pairs) := by
  have hcomp := components_ofPairs pairs
  have horder := inOrderOfAppearance_ofPairs pairs
  refine ⟨fun p hp q hq => hcomp.exists_holds_iff hp hq, fun x => hcomp.existsUnique_place,
    hcomp.inside, KeyGroup.distinct_ofPairs pairs, fun g hg => ?_, ?_⟩
  · obtain ⟨p, hbegins, hhead⟩ := begins_start hcomp horder hg
    exact ⟨_, p, hbegins, hhead⟩
  · refine horder.starts.imp_of_mem fun hg hh hlt i p j q hi hj => ?_
    obtain ⟨p', hg', -⟩ := begins_start hcomp horder hg
    obtain ⟨q', hh', -⟩ := begins_start hcomp horder hh
    rwa [hi.place_eq hg', hj.place_eq hh']

/-- The last pair has a left key of the first group and a right key of the second one. -/
example : KeyGroup.ofPairs [(0, 0), (1, 2), (3, 1), (2, 2), (0, 1)] =
    [⟨[0, 3], [0, 1]⟩, ⟨[1, 2], [2]⟩] := by decide

end ShellQuery
