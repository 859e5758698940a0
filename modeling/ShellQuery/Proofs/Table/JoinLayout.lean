import ShellQuery.Proofs.Table.JoinColumns
import ShellQuery.Proofs.Table.Layout

/-!
# Where the header fields stand after a join

If both sides of a join are laid out, so is the result (`laid_joinTable`): the pairs of keys become
further equalities between header fields, and the leading fields are those of the picks. The heart
is `equated_iff`: a field is equated with the leading field of a pick exactly when it stands at a
position linked with the pick.
-/

namespace ShellQuery

/-- The leading fields after a join on some pairs. -/
def joinLeads (leftLeads rightLeads : List Origin) (pairs : List (Nat × Nat)) : List Origin :=
  (Table.picks leftLeads.length rightLeads.length pairs).filterMap (atSide leftLeads rightLeads)

/-- A field stands at the position whose leading field it is equated with. -/
def Stands (es : List (Origin × Origin)) (leads : List Origin) (q : Nat) (o : Origin) : Prop :=
  ∃ a, leads[q]? = some a ∧ Equated es a o

/-- The two sides of a join: tables of different relations. -/
structure Sides (sch : Schema) (ps ps' : List Nat) (es es' : List (Origin × Origin))
    (leads leads' : List Origin) (left right : Table) : Prop where
  left : Laid sch ps es leads left
  right : Laid sch ps' es' leads' right
  disjoint : ∀ i ∈ ps, i ∉ ps'

/-- Every pair of keys is where the two fields of an equality stand. -/
def KeysMatch (es es' : List (Origin × Origin)) (leads leads' : List Origin) :
    List (Nat × Nat) → List (Origin × Origin) → Prop :=
  List.Forall₂ fun p e => Stands es leads p.1 e.1 ∧ Stands es' leads' p.2 e.2

/-- A field stands at a position of either side. -/
def StandsAt (es es' : List (Origin × Origin)) (leads leads' : List Origin) :
    Nat ⊕ Nat → Origin → Prop
  | .inl l => Stands es leads l
  | .inr r => Stands es' leads' r

theorem Laid.stands_mem {sch : Schema} {ps : List Nat} {es : List (Origin × Origin)}
    {leads : List Origin} {t : Table} (h : Laid sch ps es leads t) {q : Nat} {o : Origin}
    (ho : Stands es leads q o) : o.relation ∈ ps := by
  obtain ⟨a, ha, hao⟩ := ho
  exact h.mem_of_equated ha hao

theorem Laid.stands_unique {sch : Schema} {ps : List Nat} {es : List (Origin × Origin)}
    {leads : List Origin} {t : Table} (h : Laid sch ps es leads t) {q q' : Nat} {o : Origin}
    (ho : Stands es leads q o) (ho' : Stands es leads q' o) : q = q' := by
  obtain ⟨a, ha, hao⟩ := ho
  obtain ⟨a', ha', hao'⟩ := ho'
  exact h.position_eq ha ha' (.trans _ _ _ hao hao'.symm)

/-- Fields that stand at one position are equated. -/
theorem Stands.equated {es : List (Origin × Origin)} {leads : List Origin} {q : Nat} {a b : Origin}
    (ha : Stands es leads q a) (hb : Stands es leads q b) : Equated es a b := by
  obtain ⟨c, hc, hca⟩ := ha
  obtain ⟨c', hc', hcb⟩ := hb
  obtain rfl := Option.some.inj (hc.symm.trans hc')
  exact .trans _ _ _ hca.symm hcb

/-- Equated fields stand at the same positions. -/
theorem stands_congr {es : List (Origin × Origin)} {leads : List Origin} {q : Nat} {o o' : Origin}
    (h : Equated es o o') : Stands es leads q o ↔ Stands es leads q o' := by
  constructor
  · rintro ⟨a, ha, hao⟩
    exact ⟨a, ha, .trans _ _ _ hao h⟩
  · rintro ⟨a, ha, hao⟩
    exact ⟨a, ha, .trans _ _ _ hao h.symm⟩

namespace Sides

variable {sch : Schema} {ps ps' : List Nat} {es es' new : List (Origin × Origin)}
  {leads leads' : List Origin} {left right : Table} {pairs : List (Nat × Nat)}

theorem standsAt_unique (h : Sides sch ps ps' es es' leads leads' left right) {x y : Nat ⊕ Nat}
    {o : Origin} (hx : StandsAt es es' leads leads' x o) (hy : StandsAt es es' leads leads' y o) :
    x = y := by
  cases x with
  | inl l =>
    cases y with
    | inl l' => rw [h.left.stands_unique hx hy]
    | inr r => exact absurd (h.right.stands_mem hy) (h.disjoint _ (h.left.stands_mem hx))
  | inr r =>
    cases y with
    | inl l => exact absurd (h.right.stands_mem hx) (h.disjoint _ (h.left.stands_mem hy))
    | inr r' => rw [h.right.stands_unique hx hy]

theorem standsAt_lead {x : Nat ⊕ Nat} {a : Origin} (ha : atSide leads leads' x = some a) :
    StandsAt es es' leads leads' x a := by
  cases x with
  | inl l => exact ⟨a, ha, .refl a⟩
  | inr r => exact ⟨a, ha, .refl a⟩

/-- The old equalities do not move a field from one position to another. -/
theorem standsAt_iff_of_mem (h : Sides sch ps ps' es es' leads leads' left right)
    {e : Origin × Origin} (he : e ∈ es ++ es') (y : Nat ⊕ Nat) :
    StandsAt es es' leads leads' y e.1 ↔ StandsAt es es' leads leads' y e.2 := by
  -- an equality of one side says nothing about positions of the other one
  rcases List.mem_append.1 he with he | he
  · obtain ⟨h1, h2⟩ := h.left.equalities e he
    cases y with
    | inl l => exact stands_congr (.rel _ _ he)
    | inr r =>
      exact iff_of_false (fun hr => h.disjoint _ h1 (h.right.stands_mem hr))
        fun hr => h.disjoint _ h2 (h.right.stands_mem hr)
  · obtain ⟨h1, h2⟩ := h.right.equalities e he
    cases y with
    | inl l =>
      exact iff_of_false (fun hl => h.disjoint _ (h.left.stands_mem hl) h1)
        fun hl => h.disjoint _ (h.left.stands_mem hl) h2
    | inr r => exact stands_congr (.rel _ _ he)

/-- Fields that stand at linked positions are equated. -/
theorem equated_of_linked (hkeys : KeysMatch es es' leads leads' pairs new) {x y : Nat ⊕ Nat}
    (hxy : Linked pairs x y) {a b : Origin} (ha : StandsAt es es' leads leads' x a)
    (hb : StandsAt es es' leads leads' y b) : Equated (es ++ es' ++ new) a b := by
  have hold : ∀ {x : Nat ⊕ Nat} {a b : Origin}, StandsAt es es' leads leads' x a →
      StandsAt es es' leads leads' x b → Equated (es ++ es' ++ new) a b := by
    intro x a b ha hb
    cases x with
    | inl l => exact Equated.mono (fun e he => by simp [he]) (Stands.equated ha hb)
    | inr r => exact Equated.mono (fun e he => by simp [he]) (Stands.equated ha hb)
  -- linked positions are equal, or both are keys and hence have fields
  suffices hpos : x = y ∨ ∃ a b, StandsAt es es' leads leads' x a ∧
      StandsAt es es' leads leads' y b ∧ Equated (es ++ es' ++ new) a b by
    rcases hpos with rfl | ⟨a', b', ha', hb', hab⟩
    · exact hold ha hb
    · exact .trans _ _ _ (hold ha ha') (.trans _ _ _ hab (hold hb' hb))
  clear ha hb
  induction hxy with
  | rel x y hp =>
    obtain ⟨p, hp, rfl, rfl⟩ := hp
    obtain ⟨e, he, h1, h2⟩ := exists_right_of_forall₂ hkeys hp
    exact .inr ⟨e.1, e.2, h1, h2, .rel _ _ (List.mem_append_right _ he)⟩
  | refl x => exact .inl rfl
  | symm x y _ ih =>
    rcases ih with rfl | ⟨a, b, ha, hb, hab⟩
    · exact .inl rfl
    · exact .inr ⟨b, a, hb, ha, hab.symm⟩
  | trans x y z _ _ ih ih' =>
    rcases ih with rfl | ⟨a, b, ha, hb, hab⟩
    · exact ih'
    · rcases ih' with rfl | ⟨b', c, hb', hc, hbc⟩
      · exact .inr ⟨a, b, ha, hb, hab⟩
      · exact .inr ⟨a, c, ha, hc, .trans _ _ _ hab (.trans _ _ _ (hold hb hb') hbc)⟩

/-- After the join a field is equated with another one exactly when it stands at a position linked
with the position of that one. -/
theorem equated_iff (h : Sides sch ps ps' es es' leads leads' left right)
    (hkeys : KeysMatch es es' leads leads' pairs new) {x : Nat ⊕ Nat} {a o : Origin}
    (ha : StandsAt es es' leads leads' x a) :
    Equated (es ++ es' ++ new) a o ↔
      ∃ y, Linked pairs x y ∧ StandsAt es es' leads leads' y o := by
  constructor
  · intro hao
    refine (iff_of_eqvGen (P := fun o => ∃ y, Linked pairs x y ∧
      StandsAt es es' leads leads' y o) ?_ hao).1 ⟨x, .refl x, ha⟩
    intro b c he
    rcases List.mem_append.1 he with he | he
    · exact exists_congr fun y => and_congr_right fun _ => h.standsAt_iff_of_mem he y
    · -- a new equality links the positions of its two fields
      obtain ⟨p, hp, hb, hc⟩ := exists_left_of_forall₂ hkeys he
      constructor
      · rintro ⟨y, hy, hyb⟩
        obtain rfl := h.standsAt_unique (x := y) (y := .inl p.1) hyb hb
        exact ⟨.inr p.2, .trans _ _ _ hy (Linked.of_mem hp), hc⟩
      · rintro ⟨y, hy, hyc⟩
        obtain rfl := h.standsAt_unique (x := y) (y := .inr p.2) hyc hc
        exact ⟨.inl p.1, .trans _ _ _ hy (Linked.of_mem hp).symm, hb⟩
  · rintro ⟨y, hy, hyo⟩
    exact equated_of_linked hkeys hy ha hyo

theorem pairsWithin (h : Sides sch ps ps' es es' leads leads' left right)
    (hkeys : KeysMatch es es' leads leads' pairs new) :
    Table.PairsWithin left.columns.length right.columns.length pairs := by
  intro p hp
  obtain ⟨e, -, ⟨a, ha, -⟩, b, hb, -⟩ := exists_right_of_forall₂ hkeys hp
  rw [h.left.length_columns, h.right.length_columns]
  exact ⟨(List.getElem?_eq_some_iff.1 ha).1, (List.getElem?_eq_some_iff.1 hb).1⟩

/-- A column of either side answers to what may mean a field that stands there. -/
theorem answersTo_iff (h : Sides sch ps ps' es es' leads leads' left right) {y : Nat ⊕ Nat}
    {n : ColumnName} :
    (∃ d, atSide left.columns right.columns y = some d ∧ d.answersTo n = true) ↔
      ∃ o, StandsAt es es' leads leads' y o ∧ sch.means n o = true := by
  have hside : ∀ {ps es leads t} {q : Nat}, Laid sch ps es leads t →
      ((∃ d, t.columns[q]? = some d ∧ d.answersTo n = true) ↔
        ∃ o, Stands es leads q o ∧ sch.means n o = true) := by
    intro ps es leads t q hlaid
    constructor
    · rintro ⟨d, hd, hn⟩
      obtain ⟨a, ha, hanswers⟩ := hlaid.getElem?_leads hd
      obtain ⟨o, hao, ho⟩ := (hanswers n).1 hn
      exact ⟨o, ⟨a, ha, hao⟩, ho⟩
    · rintro ⟨o, ⟨a, ha, hao⟩, ho⟩
      obtain ⟨d, hd, hanswers⟩ := hlaid.getElem?_columns ha
      exact ⟨d, hd, (hanswers n).2 ⟨o, hao, ho⟩⟩
  cases y with
  | inl l => exact hside h.left
  | inr r => exact hside h.right

theorem forall₂_joinLeads (hwithin : Table.PairsWithin leads.length leads'.length pairs) :
    List.Forall₂ (fun x a => atSide leads leads' x = some a)
      (Table.picks leads.length leads'.length pairs) (joinLeads leads leads' pairs) := by
  rw [← List.filterMap_some (l := Table.picks leads.length leads'.length pairs)]
  refine forall₂_filterMap fun x hx => ?_
  obtain ⟨a, ha⟩ := Option.isSome_iff_exists.1
    (Table.isSome_atSide.2 (Table.elim_of_mem_picks hwithin hx))
  exact ⟨x, a, rfl, ha, ha⟩

/-- A leading field of either side is a field of that side. -/
theorem mem_of_atSide (h : Sides sch ps ps' es es' leads leads' left right) {x : Nat ⊕ Nat}
    {a : Origin} (ha : atSide leads leads' x = some a) :
    a ∈ sch.origins ∧ a.relation ∈ ps ++ ps' := by
  cases x with
  | inl l =>
    obtain ⟨hmem, hrel⟩ := h.left.mem_of_lead a (List.mem_of_getElem? ha)
    exact ⟨hmem, List.mem_append_left _ hrel⟩
  | inr r =>
    obtain ⟨hmem, hrel⟩ := h.right.mem_of_lead a (List.mem_of_getElem? ha)
    exact ⟨hmem, List.mem_append_right _ hrel⟩

/-- Every field of the joined relations stands at a position of one of the sides. -/
theorem exists_standsAt (h : Sides sch ps ps' es es' leads leads' left right) {o : Origin}
    (ho : o ∈ sch.origins) (hrel : o.relation ∈ ps ++ ps') :
    ∃ y : Nat ⊕ Nat, y.elim (· < leads.length) (· < leads'.length) ∧
      StandsAt es es' leads leads' y o := by
  rcases List.mem_append.1 hrel with hrel | hrel
  · obtain ⟨q, a, ha, hao⟩ := h.left.exists_position ho hrel
    exact ⟨.inl q, (List.getElem?_eq_some_iff.1 ha).1, a, ha, hao⟩
  · obtain ⟨q, a, ha, hao⟩ := h.right.exists_position ho hrel
    exact ⟨.inr q, (List.getElem?_eq_some_iff.1 ha).1, a, ha, hao⟩

/-- The join of two tables that are laid out is laid out. -/
theorem laid_joinTable (h : Sides sch ps ps' es es' leads leads' left right) (name : String)
    {key : Nat × Nat} {more : List (Nat × Nat)}
    (hkeys : KeysMatch es es' leads leads' (key :: more) new) :
    Laid sch (ps ++ ps') (es ++ es' ++ new) (joinLeads leads leads' (key :: more))
      (Table.joinTable left right key more name) := by
  have hwithin := h.pairsWithin hkeys
  have hleads : List.Forall₂ (fun x a => atSide leads leads' x = some a)
      (Table.picks leads.length leads'.length (key :: more))
      (joinLeads leads leads' (key :: more)) := by
    refine forall₂_joinLeads ?_
    rwa [← h.left.length_columns, ← h.right.length_columns]
  constructor
  case answersTo =>
    -- columns answer to what may mean a field equated with their leading one
    rw [Table.columns_joinTable hwithin, List.forall₂_map_right_iff]
    have hcolumns := Table.forall₂_chosen key.1 key.2 hwithin
    rw [h.left.length_columns, h.right.length_columns] at hcolumns
    refine (forall₂_of_common hleads hcolumns).imp ?_
    rintro a c ⟨x, -, ha, -, hanswers⟩ n
    rw [hanswers]
    have hstands : StandsAt es es' leads leads' x a := standsAt_lead ha
    constructor
    · rintro ⟨y, d, hy, hd, hn⟩
      obtain ⟨o, hyo, ho⟩ := h.answersTo_iff.1 ⟨d, hd, hn⟩
      exact ⟨o, (h.equated_iff hkeys hstands).2 ⟨y, hy, hyo⟩, ho⟩
    · rintro ⟨o, hao, ho⟩
      obtain ⟨y, hy, hyo⟩ := (h.equated_iff hkeys hstands).1 hao
      obtain ⟨d, hd, hn⟩ := h.answersTo_iff.2 ⟨o, hyo, ho⟩
      exact ⟨y, d, hy, hd, hn⟩
  case mem_of_lead =>
    intro a ha
    obtain ⟨x, -, hx⟩ := exists_left_of_forall₂ hleads ha
    exact h.mem_of_atSide hx
  case exists_lead =>
    -- every field stands at a position of one of the sides, which is linked with a pick
    intro o ho hrel
    obtain ⟨y, hy, hyo⟩ := h.exists_standsAt ho hrel
    obtain ⟨x, hx, hxy⟩ := Table.exists_mem_picks (key :: more) hy
    obtain ⟨a, ha, hxa⟩ := exists_right_of_forall₂ hleads hx
    exact ⟨a, ha, (h.equated_iff hkeys (standsAt_lead hxa)).2 ⟨y, hxy, hyo⟩⟩
  case separate =>
    -- no two picks are linked, so no two leading fields are equated
    rw [joinLeads, List.pairwise_filterMap]
    refine (Table.pairwise_picks _ _ _).imp ?_
    intro x y hxy a ha b hb hab
    obtain ⟨z, hxz, hzb⟩ := (h.equated_iff hkeys (standsAt_lead ha)).1 hab
    obtain rfl := h.standsAt_unique hzb (standsAt_lead hb)
    exact hxy hxz
  case equalities =>
    intro e he
    rcases List.mem_append.1 he with he | he
    · rcases List.mem_append.1 he with he | he
      · exact (h.left.equalities e he).imp (List.mem_append_left _) (List.mem_append_left _)
      · exact (h.right.equalities e he).imp (List.mem_append_right _) (List.mem_append_right _)
    · obtain ⟨p, -, h1, h2⟩ := exists_left_of_forall₂ hkeys he
      exact ⟨List.mem_append_left _ (h.left.stands_mem h1),
        List.mem_append_right _ (h.right.stands_mem h2)⟩

end Sides

end ShellQuery
