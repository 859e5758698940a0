import Mathlib.Data.List.Pairwise
import ShellQuery.Proofs.Outcome
import ShellQuery.Table.KeyGroup

/-!
# Key groups are the classes of linked keys

A pair of keys links a position of the left table with one of the right table. The groups into which
pairs are folded are exactly the classes of linked positions (`components_ofPairs`): what one group
has is linked, and what is linked belongs to the same group. They stand in the order of their first
pairs (`inOrderOfAppearance_ofPairs`). Positions are elements of `Nat ⊕ Nat`, left ones and right
ones.
-/

namespace ShellQuery

/-- Dropping repetitions leaves none. -/
theorem nodup_eraseDups : ∀ ps : List Nat, ps.eraseDups.Nodup
  | [] => List.nodup_nil
  | p :: ps => by
    rw [List.eraseDups_cons, List.nodup_cons]
    exact ⟨by simp, nodup_eraseDups _⟩
termination_by ps => ps.length
decreasing_by
  have hle : (ps.filter fun q => !q == p).length ≤ ps.length := List.length_filter_le _ _
  rw [List.length_cons]
  omega

/-- The positions that pairs of keys link, directly or through others. -/
abbrev Linked (pairs : List (Nat × Nat)) : Nat ⊕ Nat → Nat ⊕ Nat → Prop :=
  Relation.EqvGen fun x y => ∃ p ∈ pairs, x = .inl p.1 ∧ y = .inr p.2

theorem Linked.of_mem {pairs : List (Nat × Nat)} {p : Nat × Nat} (h : p ∈ pairs) :
    Linked pairs (.inl p.1) (.inr p.2) :=
  .rel _ _ ⟨p, h, rfl, rfl⟩

theorem Linked.mono {pairs more : List (Nat × Nat)} (h : ∀ p ∈ pairs, p ∈ more) {x y : Nat ⊕ Nat}
    (hxy : Linked pairs x y) : Linked more x y :=
  Relation.EqvGen.mono (fun _ _ ⟨p, hp, hx, hy⟩ => ⟨p, h p hp, hx, hy⟩) x y hxy

/-- What belongs to no pair is linked to nothing else. -/
theorem Linked.eq_of_notMem {pairs : List (Nat × Nat)} {x y : Nat ⊕ Nat}
    (h : ∀ p ∈ pairs, x ≠ .inl p.1 ∧ x ≠ .inr p.2) (hxy : Linked pairs x y) : x = y := by
  refine (iff_of_eqvGen (P := (x = ·)) ?_ hxy).1 rfl
  rintro a b ⟨p, hp, rfl, rfl⟩
  exact iff_of_false (h p hp).1 (h p hp).2

namespace KeyGroup

/-- Whether a position belongs to the group. -/
def Has (g : KeyGroup) : Nat ⊕ Nat → Prop
  | .inl l => l ∈ g.left
  | .inr r => r ∈ g.right

/-- The positions of a group, those of the left table first. -/
def positions (g : KeyGroup) : List (Nat ⊕ Nat) :=
  g.left.map .inl ++ g.right.map .inr

theorem mem_positions {g : KeyGroup} {x : Nat ⊕ Nat} : x ∈ g.positions ↔ g.Has x := by
  cases x with
  | inl l => simp [positions, Has]
  | inr r => simp [positions, Has]

theorem head?_positions {g : KeyGroup} {l : Nat} (h : g.left.head? = some l) :
    g.positions.head? = some (.inl l) := by
  rw [positions, List.head?_append, List.head?_map, h]
  rfl

theorem has_absorb {g h : KeyGroup} {x : Nat ⊕ Nat} :
    (g.absorb h).Has x ↔ g.Has x ∨ h.Has x := by
  cases x <;> simp [Has, absorb, List.mem_eraseDups]

theorem has_foldl_absorb {g : KeyGroup} {hs : List KeyGroup} {x : Nat ⊕ Nat} :
    (hs.foldl absorb g).Has x ↔ g.Has x ∨ ∃ h ∈ hs, h.Has x := by
  induction hs generalizing g with
  | nil => simp
  | cons h hs ih => rw [List.foldl_cons, ih, has_absorb, or_assoc]; simp

theorem has_ofPair {p : Nat × Nat} {x : Nat ⊕ Nat} :
    (ofPair p).Has x ↔ x = .inl p.1 ∨ x = .inr p.2 := by
  cases x <;> simp [Has, ofPair]

theorem touches_iff {g : KeyGroup} {p : Nat × Nat} :
    g.touches p = true ↔ g.Has (.inl p.1) ∨ g.Has (.inr p.2) := by
  simp [touches, Has]

theorem head?_absorb {g : KeyGroup} (h : KeyGroup) {l : Nat} (hl : g.left.head? = some l) :
    (g.absorb h).left.head? = some l := by
  obtain ⟨ls, hls⟩ := List.head?_eq_some_iff.1 hl
  rw [absorb, hls, List.cons_append, List.eraseDups_cons]
  rfl

theorem head?_foldl_absorb {g : KeyGroup} (hs : List KeyGroup) {l : Nat}
    (hl : g.left.head? = some l) : (hs.foldl absorb g).left.head? = some l := by
  induction hs generalizing g with
  | nil => exact hl
  | cons h hs ih => exact ih (head?_absorb h hl)

/-- The group of a pair that touches `g` first: `g` with all others it touches and the pair. -/
def gather (g : KeyGroup) (after : List KeyGroup) (p : Nat × Nat) : KeyGroup :=
  ((after.filter (·.touches p)).reverse.foldl absorb g).absorb (ofPair p)

/-- A pair starts a group, or it touches a first one, which takes over all others it touches. -/
theorem addPair_cases (groups : List KeyGroup) (p : Nat × Nat) :
    ((∀ g ∈ groups, ¬g.touches p = true) ∧ addPair groups p = groups ++ [ofPair p]) ∨
      ∃ before g after, groups = before ++ g :: after ∧ (∀ h ∈ before, ¬h.touches p = true) ∧
        g.touches p = true ∧
        addPair groups p = before ++ gather g after p :: after.filter (!·.touches p) := by
  -- on the groups in front, which are left as they are until one is touched
  induction groups with
  | nil => exact .inl ⟨fun g hg => absurd hg List.not_mem_nil, rfl⟩
  | cons g gs ih =>
    by_cases hg : g.touches p = true
    · refine .inr ⟨[], g, gs, rfl, fun h hh => absurd hh List.not_mem_nil, hg, ?_⟩
      rw [addPair, if_pos hg]
      rfl
    · have hcons : addPair (g :: gs) p = g :: addPair gs p := by
        rw [addPair, if_neg hg]
      rcases ih with ⟨hnone, heq⟩ | ⟨before, m, after, rfl, hbefore, hm, heq⟩
      · refine .inl ⟨fun h hh => ?_, by rw [hcons, heq, List.cons_append]⟩
        rcases List.mem_cons.1 hh with rfl | hh
        · exact hg
        · exact hnone h hh
      · refine .inr ⟨g :: before, m, after, rfl, fun h hh => ?_, hm,
          by rw [hcons, heq, List.cons_append]⟩
        rcases List.mem_cons.1 hh with rfl | hh
        · exact hg
        · exact hbefore h hh

theorem has_gather {g : KeyGroup} {after : List KeyGroup} {p : Nat × Nat} {x : Nat ⊕ Nat} :
    (gather g after p).Has x ↔
      g.Has x ∨ (∃ h ∈ after, h.touches p = true ∧ h.Has x) ∨ x = .inl p.1 ∨ x = .inr p.2 := by
  rw [gather, has_absorb, has_foldl_absorb, has_ofPair]
  simp [or_assoc, and_assoc]

/-- Adding a pair keeps the groups it does not touch, in their order, and puts all others and the
pair itself into one group. -/
theorem addPair_eq (groups : List KeyGroup) (p : Nat × Nat) :
    ∃ before g after, addPair groups p = before ++ g :: after ∧
      before ++ after = groups.filter (!·.touches p) ∧
      ∀ x, g.Has x ↔
        (∃ h ∈ groups, h.touches p = true ∧ h.Has x) ∨ x = .inl p.1 ∨ x = .inr p.2 := by
  -- without a touched group the pair stands alone at the end; otherwise its group stands where the
  -- first touched one stood
  rcases addPair_cases groups p with ⟨hnone, heq⟩ | ⟨before, g, after, rfl, hbefore, hg, heq⟩
  · have hkept : groups.filter (!·.touches p) = groups :=
      List.filter_eq_self.2 fun g hg => by simpa using hnone g hg
    refine ⟨groups, ofPair p, [], heq, by rw [hkept, List.append_nil], fun x => ?_⟩
    rw [has_ofPair]
    constructor
    · exact .inr
    · rintro (⟨h, hh, htouch, -⟩ | hx)
      · exact absurd htouch (hnone h hh)
      · exact hx
  · have hkept : before.filter (!·.touches p) = before :=
      List.filter_eq_self.2 fun h hh => by simpa using hbefore h hh
    refine ⟨before, _, _, heq, ?_, fun x => ?_⟩
    · rw [List.filter_append, hkept, List.filter_cons_of_neg (by simpa using hg)]
    · rw [has_gather]
      constructor
      · rintro (hx | ⟨h, hh, htouch, hx⟩ | hx)
        · exact .inl ⟨g, by simp, hg, hx⟩
        · exact .inl ⟨h, by simp [hh], htouch, hx⟩
        · exact .inr hx
      · rintro (⟨h, hh, htouch, hx⟩ | hx)
        · rcases List.mem_append.1 hh with hh | hh
          · exact absurd htouch (hbefore h hh)
          · rcases List.mem_cons.1 hh with rfl | hh
            · exact .inl hx
            · exact .inr (.inl ⟨h, hh, htouch, hx⟩)
        · exact .inr (.inr hx)

end KeyGroup

/-- The groups are the classes of the positions that occur in some pair. -/
structure Components (pairs : List (Nat × Nat)) (groups : List KeyGroup) : Prop where
  closed : ∀ p ∈ pairs, ∀ g ∈ groups, g.Has (.inl p.1) ↔ g.Has (.inr p.2)
  linked : ∀ g ∈ groups, ∀ x y, g.Has x → g.Has y → Linked pairs x y
  apart : groups.Pairwise fun g h => ∀ x, ¬(g.Has x ∧ h.Has x)
  covers : ∀ p ∈ pairs, ∃ g ∈ groups, g.Has (.inl p.1)
  nonempty : ∀ g ∈ groups, ∃ l, g.Has (.inl l)
  inside : ∀ g ∈ groups, ∀ x, g.Has x → ∃ p ∈ pairs, x = .inl p.1 ∨ x = .inr p.2

namespace Components

variable {pairs : List (Nat × Nat)} {groups : List KeyGroup}

/-- Linked positions belong to the same groups. -/
theorem has_iff (h : Components pairs groups) {g : KeyGroup} (hg : g ∈ groups) {x y : Nat ⊕ Nat}
    (hxy : Linked pairs x y) : g.Has x ↔ g.Has y := by
  refine iff_of_eqvGen ?_ hxy
  rintro _ _ ⟨p, hp, rfl, rfl⟩
  exact h.closed p hp g hg

theorem eq_of_has (h : Components pairs groups) {g g' : KeyGroup} (hg : g ∈ groups)
    (hg' : g' ∈ groups) {x : Nat ⊕ Nat} (hx : g.Has x) (hx' : g'.Has x) : g = g' := by
  by_contra hne
  have hsymm : Std.Symm fun g h : KeyGroup => ∀ x, ¬(g.Has x ∧ h.Has x) :=
    ⟨fun _ _ h x hx => h x hx.symm⟩
  exact h.apart.forall hg hg' hne x ⟨hx, hx'⟩

section

variable (h : Components pairs groups) {p : Nat × Nat} {m : KeyGroup}
  (hm : ∀ x, m.Has x ↔
    (∃ k ∈ groups, k.touches p = true ∧ k.Has x) ∨ x = .inl p.1 ∨ x = .inr p.2)

include h hm

/-- The group of a new pair is not left by an earlier one: the group that holds the earlier pair is
touched if the new pair shares a side with it. -/
theorem closed_merged {q : Nat × Nat} (hq : q ∈ pairs) :
    m.Has (.inl q.1) ↔ m.Has (.inr q.2) := by
  obtain ⟨g, hg, hleft⟩ := h.covers q hq
  have hright := (h.closed q hq g hg).1 hleft
  rw [hm, hm]
  constructor
  · rintro (⟨k, hk, htouch, hx⟩ | hx | hx)
    · exact .inl ⟨k, hk, htouch, (h.closed q hq k hk).1 hx⟩
    · exact .inl ⟨g, hg, KeyGroup.touches_iff.2 (.inl (hx ▸ hleft)), hright⟩
    · exact absurd hx (by simp)
  · rintro (⟨k, hk, htouch, hx⟩ | hx | hx)
    · exact .inl ⟨k, hk, htouch, (h.closed q hq k hk).2 hx⟩
    · exact absurd hx (by simp)
    · exact .inl ⟨g, hg, KeyGroup.touches_iff.2 (.inr (hx ▸ hright)), hleft⟩

/-- In the group of a new pair everything is linked through that pair. -/
theorem linked_merged {x y : Nat ⊕ Nat} (hx : m.Has x) (hy : m.Has y) :
    Linked (pairs ++ [p]) x y := by
  have hpair : Linked (pairs ++ [p]) (.inl p.1) (.inr p.2) := .of_mem (by simp)
  -- all is linked to the left position of the new pair, directly or through a touched group
  have hlinked : ∀ x, m.Has x → Linked (pairs ++ [p]) (.inl p.1) x := by
    intro x hx
    rcases (hm x).1 hx with ⟨k, hk, htouch, hx⟩ | rfl | rfl
    · have hmono : ∀ {y}, k.Has y → Linked (pairs ++ [p]) y x := fun hy =>
        (h.linked k hk _ _ hy hx).mono fun q hq => List.mem_append_left _ hq
      rcases KeyGroup.touches_iff.1 htouch with hside | hside
      · exact hmono hside
      · exact .trans _ _ _ hpair (hmono hside)
    · exact .refl _
    · exact hpair
  exact .trans _ _ _ (hlinked x hx).symm (hlinked y hy)

/-- The group of a new pair does not meet the groups that the pair does not touch. -/
theorem apart_merged {g : KeyGroup} (hg : g ∈ groups) (htouch : ¬g.touches p = true)
    (x : Nat ⊕ Nat) : ¬(m.Has x ∧ g.Has x) := by
  rintro ⟨hmx, hgx⟩
  rcases (hm x).1 hmx with ⟨k, hk, hktouch, hkx⟩ | rfl | rfl
  · rw [h.eq_of_has hg hk hgx hkx] at htouch
    exact htouch hktouch
  · exact htouch (KeyGroup.touches_iff.2 (.inl hgx))
  · exact htouch (KeyGroup.touches_iff.2 (.inr hgx))

end

/-- One more pair keeps the groups the classes of linked positions. -/
theorem addPair (h : Components pairs groups) (p : Nat × Nat) :
    Components (pairs ++ [p]) (KeyGroup.addPair groups p) := by
  obtain ⟨before, m, after, heq, hrest, hm⟩ := KeyGroup.addPair_eq groups p
  have hmem : ∀ g, g ∈ KeyGroup.addPair groups p ↔
      g = m ∨ (g ∈ groups ∧ ¬g.touches p = true) := by
    intro g
    have hkept : g ∈ before ++ after ↔ g ∈ groups ∧ ¬g.touches p = true := by
      rw [hrest, List.mem_filter]
      simp
    rw [heq, ← hkept, List.mem_append, List.mem_append, List.mem_cons]
    tauto
  have hml : m.Has (.inl p.1) := (hm _).2 (.inr (.inl rfl))
  have hmr : m.Has (.inr p.2) := (hm _).2 (.inr (.inr rfl))
  have hnew : m ∈ KeyGroup.addPair groups p := (hmem m).2 (.inl rfl)
  -- the six conditions one by one: each compares the merged group with the kept ones
  constructor
  case closed =>
    intro q hq g hg
    rcases List.mem_append.1 hq with hq | hq
    · rcases (hmem g).1 hg with rfl | ⟨hg, -⟩
      · exact h.closed_merged hm hq
      · exact h.closed q hq g hg
    · obtain rfl := List.mem_singleton.1 hq
      rcases (hmem g).1 hg with rfl | ⟨-, hg⟩
      · exact iff_of_true hml hmr
      · -- a kept group has neither side of the new pair
        rw [KeyGroup.touches_iff, not_or] at hg
        exact iff_of_false hg.1 hg.2
  case linked =>
    intro g hg x y hx hy
    rcases (hmem g).1 hg with rfl | ⟨hg, -⟩
    · exact h.linked_merged hm hx hy
    · exact (h.linked g hg x y hx hy).mono fun q hq => List.mem_append_left _ hq
  case apart =>
    rw [heq, List.pairwise_middle fun h x hx => h x hx.symm, List.pairwise_cons, hrest]
    refine ⟨fun g hg => ?_, h.apart.filter _⟩
    obtain ⟨hg, htouch⟩ := List.mem_filter.1 hg
    exact h.apart_merged hm hg (by simpa using htouch)
  case covers =>
    intro q hq
    rcases List.mem_append.1 hq with hq | hq
    · obtain ⟨g, hg, hx⟩ := h.covers q hq
      by_cases htouch : g.touches p = true
      · exact ⟨m, hnew, (hm _).2 (.inl ⟨g, hg, htouch, hx⟩)⟩
      · exact ⟨g, (hmem g).2 (.inr ⟨hg, htouch⟩), hx⟩
    · obtain rfl := List.mem_singleton.1 hq
      exact ⟨m, hnew, hml⟩
  case nonempty =>
    intro g hg
    rcases (hmem g).1 hg with rfl | ⟨hg, -⟩
    · exact ⟨p.1, hml⟩
    · exact h.nonempty g hg
  case inside =>
    intro g hg x hx
    have hold : ∀ k ∈ groups, k.Has x → ∃ q ∈ pairs ++ [p], x = .inl q.1 ∨ x = .inr q.2 := by
      intro k hk hx
      obtain ⟨q, hq, hx⟩ := h.inside k hk x hx
      exact ⟨q, List.mem_append_left _ hq, hx⟩
    rcases (hmem g).1 hg with rfl | ⟨hg, -⟩
    · rcases (hm x).1 hx with ⟨k, hk, -, hx⟩ | hx
      · exact hold k hk hx
      · exact ⟨p, by simp, hx⟩
    · exact hold g hg hx

end Components

theorem components_nil : Components [] [] :=
  ⟨by simp, by simp, .nil, by simp, by simp, by simp⟩

/-- Folding pairs into groups gives the classes of linked positions. -/
theorem components_ofPairs (pairs : List (Nat × Nat)) :
    Components pairs (KeyGroup.ofPairs pairs) := by
  -- on the pairs that are left, with the invariant for those that are done
  have hfold : ∀ more {done groups}, Components done groups →
      Components (done ++ more) (more.foldl KeyGroup.addPair groups) := by
    intro more
    induction more with
    | nil => exact fun h => by rwa [List.append_nil]
    | cons p more ih =>
      intro done groups h
      have := ih (h.addPair p)
      rwa [List.append_assoc] at this
  exact hfold pairs components_nil

/-! ### The order of the groups -/

/-- The place of the first pair that belongs to the group. -/
def KeyGroup.start (g : KeyGroup) (pairs : List (Nat × Nat)) : Nat :=
  pairs.findIdx (g.left.contains ·.1)

/-- A group starts no later than at any pair that belongs to it. -/
theorem KeyGroup.start_le {g : KeyGroup} {pairs : List (Nat × Nat)} {j : Nat} {p : Nat × Nat}
    (hp : pairs[j]? = some p) (hhas : g.Has (.inl p.1)) : g.start pairs ≤ j := by
  obtain ⟨hj, rfl⟩ := List.getElem?_eq_some_iff.1 hp
  by_contra hlt
  have hfind : j < pairs.findIdx (g.left.contains ·.1) := Nat.lt_of_not_le hlt
  have hnot := List.not_of_lt_findIdx hfind
  exact absurd (List.contains_iff_mem.2 hhas) (by simpa using hnot)

/-- The groups stand in the order of their first pairs, and each leads with the left position of its
first pair. -/
structure InOrderOfAppearance (pairs : List (Nat × Nat)) (groups : List KeyGroup) : Prop where
  heads : ∀ g ∈ groups, ∃ p, pairs[g.start pairs]? = some p ∧ g.left.head? = some p.1
  starts : groups.Pairwise fun g h => g.start pairs < h.start pairs

namespace InOrderOfAppearance

variable {pairs : List (Nat × Nat)} {groups : List KeyGroup}

theorem start_lt (h : InOrderOfAppearance pairs groups) {g : KeyGroup} (hg : g ∈ groups) :
    g.start pairs < pairs.length := by
  obtain ⟨p, hp, -⟩ := h.heads g hg
  exact (List.getElem?_eq_some_iff.1 hp).1

/-- A further pair does not change where a group starts. -/
theorem start_append (h : InOrderOfAppearance pairs groups) {g : KeyGroup} (hg : g ∈ groups)
    (p : Nat × Nat) : g.start (pairs ++ [p]) = g.start pairs := by
  have hlt : pairs.findIdx (g.left.contains ·.1) < pairs.length := h.start_lt hg
  rw [KeyGroup.start, List.findIdx_append, if_pos hlt]
  rfl

/-- Of the groups that a pair touches, the first one starts first. -/
theorem start_le_of_touches {before after : List KeyGroup} {g : KeyGroup}
    (h : InOrderOfAppearance pairs (before ++ g :: after)) {p : Nat × Nat}
    (hbefore : ∀ k ∈ before, ¬k.touches p = true) {k : KeyGroup}
    (hk : k ∈ before ++ g :: after) (htouch : k.touches p = true) :
    g.start pairs ≤ k.start pairs := by
  have hstarts := h.starts
  rw [List.pairwise_append, List.pairwise_cons] at hstarts
  rcases List.mem_append.1 hk with hk | hk
  · exact absurd htouch (hbefore k hk)
  · rcases List.mem_cons.1 hk with rfl | hk
    · exact Nat.le_refl _
    · exact Nat.le_of_lt (hstarts.2.1.1 k hk)

/-- The group that takes over the others a further pair touches starts where it started. -/
theorem start_gather {before after : List KeyGroup} {g : KeyGroup}
    (h : InOrderOfAppearance pairs (before ++ g :: after))
    (hcomp : Components pairs (before ++ g :: after)) {p : Nat × Nat}
    (hbefore : ∀ k ∈ before, ¬k.touches p = true) :
    (g.gather after p).start (pairs ++ [p]) = g.start pairs := by
  have hg : g ∈ before ++ g :: after := by simp
  have hlt : g.start pairs < pairs.length := h.start_lt hg
  have hle : ∀ k ∈ before ++ g :: after, k.touches p = true → ∀ {j : Nat} {q : Nat × Nat},
      pairs[j]? = some q → k.Has (.inl q.1) → g.start pairs ≤ j := fun k hk htouch j q hq hhas =>
    Nat.le_trans (h.start_le_of_touches hbefore hk htouch) (KeyGroup.start_le hq hhas)
  obtain ⟨q, hq, hhead⟩ := h.heads g hg
  rw [KeyGroup.start, List.findIdx_eq (by simp; omega)]
  constructor
  · -- the first pair of `g` still belongs to the group
    obtain ⟨_, hfirst⟩ := List.getElem?_eq_some_iff.1 hq
    have hhas : (g.gather after p).Has (.inl q.1) :=
      KeyGroup.has_gather.2 (.inl (List.mem_of_mem_head? hhead))
    rw [List.getElem_append_left hlt, hfirst]
    exact List.contains_iff_mem.2 hhas
  · intro j hj
    by_contra hcontains
    have hjlt : j < pairs.length := by omega
    have hjq : pairs[j]? = some pairs[j] := List.getElem?_eq_getElem hjlt
    rw [Bool.not_eq_false, List.getElem_append_left hjlt, List.contains_iff_mem] at hcontains
    have hhas : (g.gather after p).Has (.inl pairs[j].1) := hcontains
    have hstart : g.start pairs ≤ j := by
      rcases KeyGroup.has_gather.1 hhas with hhas | ⟨k, hk, htouch, hhas⟩ | heq | heq
      · exact KeyGroup.start_le hjq hhas
      · exact hle k (by simp [hk]) htouch hjq hhas
      · -- an earlier pair with the left position of `p` belongs to a group that `p` touches
        obtain ⟨k, hk, hhas⟩ := hcomp.covers _ (List.mem_of_getElem? hjq)
        exact hle k hk (KeyGroup.touches_iff.2 (.inl (heq ▸ hhas))) hjq hhas
      · exact absurd heq Sum.inl_ne_inr
    omega

theorem heads_append (h : InOrderOfAppearance pairs groups) (p : Nat × Nat) {g : KeyGroup}
    (hg : g ∈ groups) : ∃ q, (pairs ++ [p])[g.start (pairs ++ [p])]? = some q ∧
      g.left.head? = some q.1 := by
  obtain ⟨q, hq, hhead⟩ := h.heads g hg
  refine ⟨q, ?_, hhead⟩
  rw [h.start_append hg, List.getElem?_append_left (h.start_lt hg), hq]

theorem starts_append (h : InOrderOfAppearance pairs groups) (p : Nat × Nat) :
    groups.Pairwise fun g k => g.start (pairs ++ [p]) < k.start (pairs ++ [p]) := by
  refine h.starts.imp_of_mem fun hg hk hlt => ?_
  rwa [h.start_append hg, h.start_append hk]

/-- A pair that touches no group starts one. -/
theorem start_ofPair (hcomp : Components pairs groups) {p : Nat × Nat}
    (hnone : ∀ g ∈ groups, ¬g.touches p = true) :
    (KeyGroup.ofPair p).start (pairs ++ [p]) = pairs.length := by
  have hnot : pairs.findIdx ((KeyGroup.ofPair p).left.contains ·.1) = pairs.length := by
    rw [List.findIdx_eq_length]
    intro q hq
    by_contra hcontains
    have heq : q.1 = p.1 := by simpa [KeyGroup.ofPair] using hcontains
    obtain ⟨k, hk, hhas⟩ := hcomp.covers q hq
    exact hnone k hk (KeyGroup.touches_iff.2 (.inl (heq ▸ hhas)))
  rw [KeyGroup.start, List.findIdx_append, hnot]
  simp [KeyGroup.ofPair]

/-- A pair that touches no group starts the last one. -/
theorem append_ofPair (h : InOrderOfAppearance pairs groups) (hcomp : Components pairs groups)
    {p : Nat × Nat} (hnone : ∀ g ∈ groups, ¬g.touches p = true) :
    InOrderOfAppearance (pairs ++ [p]) (groups ++ [.ofPair p]) := by
  have hnew := start_ofPair hcomp hnone
  refine ⟨fun k hk => ?_, ?_⟩
  · rcases List.mem_append.1 hk with hk | hk
    · exact h.heads_append p hk
    · obtain rfl := List.mem_singleton.1 hk
      exact ⟨p, by rw [hnew]; simp, rfl⟩
  · rw [List.pairwise_append]
    refine ⟨h.starts_append p, List.pairwise_singleton _ _, fun k hk m hm => ?_⟩
    rw [List.mem_singleton.1 hm, hnew, h.start_append hk]
    exact h.start_lt hk

/-- The first group that a pair touches stays where it is, and the others it touches are gone. -/
theorem append_gather {before after : List KeyGroup} {g : KeyGroup}
    (h : InOrderOfAppearance pairs (before ++ g :: after))
    (hcomp : Components pairs (before ++ g :: after)) {p : Nat × Nat}
    (hbefore : ∀ k ∈ before, ¬k.touches p = true) :
    InOrderOfAppearance (pairs ++ [p])
      (before ++ g.gather after p :: after.filter (!·.touches p)) := by
  have hmem : g ∈ before ++ g :: after := by simp
  have hgather : (g.gather after p).start (pairs ++ [p]) = g.start (pairs ++ [p]) := by
    rw [h.start_gather hcomp hbefore, h.start_append hmem]
  refine ⟨fun k hk => ?_, ?_⟩
  · rcases List.mem_append.1 hk with hk | hk
    · exact h.heads_append p (List.mem_append_left _ hk)
    · rcases List.mem_cons.1 hk with rfl | hk
      · obtain ⟨q, hq, hhead⟩ := h.heads_append p hmem
        refine ⟨q, by rw [hgather, hq], ?_⟩
        exact KeyGroup.head?_absorb _ (KeyGroup.head?_foldl_absorb _ hhead)
      · exact h.heads_append p (by simp [(List.mem_filter.1 hk).1])
  -- the gathered group starts where `g` did, so the order of the rest carries over
  · have hstarts := h.starts_append p
    rw [List.pairwise_append, List.pairwise_cons] at hstarts
    obtain ⟨hstarts₁, ⟨hlater, hstarts₂⟩, hcross⟩ := hstarts
    rw [List.pairwise_append, List.pairwise_cons, hgather]
    refine ⟨hstarts₁, ⟨fun k hk => hlater k (List.mem_filter.1 hk).1, hstarts₂.filter _⟩, ?_⟩
    intro k hk m hm
    rcases List.mem_cons.1 hm with rfl | hm
    · rw [hgather]
      exact hcross k hk g List.mem_cons_self
    · exact hcross k hk m (List.mem_cons_of_mem g (List.mem_filter.1 hm).1)

/-- One more pair keeps the groups in the order of their first pairs. -/
theorem addPair (h : InOrderOfAppearance pairs groups) (hcomp : Components pairs groups)
    (p : Nat × Nat) : InOrderOfAppearance (pairs ++ [p]) (KeyGroup.addPair groups p) := by
  rcases KeyGroup.addPair_cases groups p with
    ⟨hnone, heq⟩ | ⟨before, g, after, rfl, hbefore, -, heq⟩
  · rw [heq]
    exact h.append_ofPair hcomp hnone
  · rw [heq]
    exact h.append_gather hcomp hbefore

end InOrderOfAppearance

/-- Folding pairs into groups keeps the groups in the order of their first pairs. -/
theorem inOrderOfAppearance_ofPairs (pairs : List (Nat × Nat)) :
    InOrderOfAppearance pairs (KeyGroup.ofPairs pairs) := by
  -- both invariants travel together: where a group starts depends on the classes
  have hfold : ∀ more {done groups}, Components done groups → InOrderOfAppearance done groups →
      InOrderOfAppearance (done ++ more) (more.foldl KeyGroup.addPair groups) := by
    intro more
    induction more with
    | nil => exact fun _ h => by rwa [List.append_nil]
    | cons p more ih =>
      intro done groups hcomp h
      have hnext := ih (hcomp.addPair p) (h.addPair hcomp p)
      rwa [List.append_assoc] at hnext
  exact hfold pairs components_nil ⟨by simp, .nil⟩

end ShellQuery
