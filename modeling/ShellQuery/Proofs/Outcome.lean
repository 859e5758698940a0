import Mathlib.Data.List.Forall2
import Mathlib.Logic.Relation

/-!
# Computations that may fail

When a sequence of steps succeeds every step does, and what the later steps see is what the earlier
ones gave. `bind_ok_iff` and `map_ok_iff` say so for two steps, `mapM_ok_iff` for one step on every
element of a list. The results then stand in step with the elements, so the first section is about
two lists in step. The last one is about what steps of an equivalence preserve (`iff_of_eqvGen`,
`eqvGen_transfer`).
-/

namespace ShellQuery

variable {ε α β γ : Type}

/-! ### Two lists in step -/

theorem exists_right_of_forall₂ {R : α → β → Prop} {as : List α} {bs : List β}
    (h : List.Forall₂ R as bs) {a : α} (ha : a ∈ as) : ∃ b ∈ bs, R a b := by
  induction h with
  | nil => exact absurd ha List.not_mem_nil
  | cons hab _ ih =>
    rcases List.mem_cons.1 ha with rfl | ha
    · exact ⟨_, List.mem_cons_self, hab⟩
    · obtain ⟨b, hb, hR⟩ := ih ha
      exact ⟨b, List.mem_cons_of_mem _ hb, hR⟩

theorem exists_left_of_forall₂ {R : α → β → Prop} {as : List α} {bs : List β}
    (h : List.Forall₂ R as bs) {b : β} (hb : b ∈ bs) : ∃ a ∈ as, R a b :=
  exists_right_of_forall₂ (List.Forall₂.flip h) hb

/-- Partners stand at the same place. -/
theorem getElem?_of_forall₂ {R : α → β → Prop} {as : List α} {bs : List β}
    (h : List.Forall₂ R as bs) {i : Nat} {a : α} (ha : as[i]? = some a) :
    ∃ b, bs[i]? = some b ∧ R a b := by
  induction h generalizing i with
  | nil => simp at ha
  | cons hab _ ih =>
    cases i with
    | zero =>
      obtain rfl := Option.some.inj ha
      exact ⟨_, rfl, hab⟩
    | succ i => exact ih ha

/-- Two lists of the same images are in step, element by element with the same image. -/
theorem map_eq_map_iff_forall₂ {f : α → γ} {g : β → γ} {as : List α} {bs : List β} :
    as.map f = bs.map g ↔ List.Forall₂ (fun a b => f a = g b) as bs := by
  rw [← List.forall₂_eq_eq_eq, List.forall₂_map_left_iff, List.forall₂_map_right_iff]

/-- Two lists that are in step with a third one are in step with each other. -/
theorem forall₂_of_common {R : α → β → Prop} {S : α → γ → Prop} {as : List α} {bs : List β}
    {cs : List γ} (h : List.Forall₂ R as bs) (h' : List.Forall₂ S as cs) :
    List.Forall₂ (fun b c => ∃ a ∈ as, R a b ∧ S a c) bs cs := by
  induction h generalizing cs with
  | nil =>
    cases h'
    exact .nil
  | cons hab _ ih =>
    obtain _ | ⟨hac, h'⟩ := h'
    refine .cons ⟨_, List.mem_cons_self, hab, hac⟩ ((ih h').imp ?_)
    rintro b c ⟨a, ha, hR, hS⟩
    exact ⟨a, List.mem_cons_of_mem _ ha, hR, hS⟩

/-! ### Steps that may fail -/

theorem ok_bind (a : α) (next : α → Except ε β) : Except.ok a >>= next = next a := rfl

theorem bind_ok_iff {step : Except ε α} {next : α → Except ε β} {b : β} :
    step >>= next = .ok b ↔ ∃ a, step = .ok a ∧ next a = .ok b := by
  cases step with
  | error e => simp [bind, Except.bind]
  | ok a => simp [bind, Except.bind]

theorem map_ok_iff {step : Except ε α} {f : α → β} {b : β} :
    step.map f = .ok b ↔ ∃ a, step = .ok a ∧ f a = b := by
  cases step with
  | error e => simp [Except.map]
  | ok a => simp [Except.map]

theorem map_error_iff {step : Except ε α} {f : α → β} {e : ε} :
    step.map f = .error e ↔ step = .error e := by
  cases step with
  | error e' => simp [Except.map]
  | ok a => simp [Except.map]

theorem mapError_ok_iff {step : Except ε α} {f : ε → γ} {a : α} :
    step.mapError f = .ok a ↔ step = .ok a := by
  cases step with
  | error e => simp [Except.mapError]
  | ok a => simp [Except.mapError]

theorem pure_ok_iff {a b : α} : (pure a : Except ε α) = .ok b ↔ a = b := by
  simp [pure, Except.pure]

theorem isOk_iff {step : Except ε α} : step.isOk = true ↔ ∃ a, step = .ok a := by
  cases step with
  | error e => simp [Except.isOk, Except.toBool]
  | ok a => simp [Except.isOk, Except.toBool]

theorem toOption_eq_some_iff {step : Except ε α} {a : α} :
    step.toOption = some a ↔ step = .ok a := by
  cases step with
  | error e => simp [Except.toOption]
  | ok a => simp [Except.toOption]

/-- A step succeeds on all elements of a list exactly when it succeeds on each. -/
theorem mapM_ok_iff {f : α → Except ε β} {as : List α} {bs : List β} :
    as.mapM f = .ok bs ↔ List.Forall₂ (fun a b => f a = .ok b) as bs := by
  induction as generalizing bs with
  | nil =>
    rw [List.mapM_nil, pure_ok_iff, List.forall₂_nil_left_iff]
    exact eq_comm
  | cons a as ih =>
    rw [List.mapM_cons, bind_ok_iff, List.forall₂_cons_left_iff]
    constructor
    · rintro ⟨b, hb, h⟩
      obtain ⟨bs', hbs, h⟩ := bind_ok_iff.1 h
      exact ⟨b, bs', hb, ih.1 hbs, (pure_ok_iff.1 h).symm⟩
    · rintro ⟨b, bs', hb, hbs, rfl⟩
      exact ⟨b, hb, bind_ok_iff.2 ⟨bs', ih.2 hbs, rfl⟩⟩

/-- A step that succeeds on every element of a list succeeds on the list. -/
theorem exists_mapM_ok {f : α → Except ε β} {as : List α} (h : ∀ a ∈ as, ∃ b, f a = .ok b) :
    ∃ bs, as.mapM f = .ok bs := by
  induction as with
  | nil => exact ⟨[], rfl⟩
  | cons a as ih =>
    obtain ⟨b, hb⟩ := h a List.mem_cons_self
    obtain ⟨bs, hbs⟩ := ih fun x hx => h x (List.mem_cons_of_mem a hx)
    exact ⟨b :: bs, mapM_ok_iff.2 (.cons hb (mapM_ok_iff.1 hbs))⟩

/-- Steps on two lists in step give the same if they do so on the elements that stand together. -/
theorem mapM_eq_of_forall₂ {R : α → β → Prop} {f : α → Except ε γ} {g : β → Except ε γ}
    {as : List α} {bs : List β} (h : List.Forall₂ R as bs)
    (hfg : ∀ a ∈ as, ∀ b, R a b → f a = g b) : as.mapM f = bs.mapM g := by
  induction h with
  | nil => rfl
  | @cons a b as bs hab _ ih =>
    rw [List.mapM_cons, List.mapM_cons, hfg a List.mem_cons_self b hab,
      ih fun a' ha' => hfg a' (List.mem_cons_of_mem a ha')]

/-- What a step does matters at the elements of the list only. -/
theorem mapM_congr_mem {f g : α → Except ε β} {as : List α} (h : ∀ a ∈ as, f a = g a) :
    as.mapM f = as.mapM g := by
  refine mapM_eq_of_forall₂ (R := Eq) (List.forall₂_refl as) fun a ha b hab => ?_
  rw [← hab, h a ha]

/-- What is done with the results of a step may be done along with the step. -/
theorem mapM_comp_map (f : α → Except ε β) (g : β → γ) (as : List α) :
    (as.mapM f).map (List.map g) = as.mapM fun a => (f a).map g := by
  induction as with
  | nil => rfl
  | cons a as ih =>
    rw [List.mapM_cons, List.mapM_cons, ← ih]
    cases f a with
    | error e => rfl
    | ok b =>
      cases as.mapM f with
      | error e => rfl
      | ok bs => rfl

/-! ### Equivalences -/

/-- What both sides of every step agree on, equivalent elements agree on. -/
theorem iff_of_eqvGen {r : α → α → Prop} {P : α → Prop} (h : ∀ a b, r a b → (P a ↔ P b)) {a b : α}
    (hab : Relation.EqvGen r a b) : P a ↔ P b := by
  induction hab with
  | rel a b hr => exact h a b hr
  | refl => exact Iff.rfl
  | symm _ _ _ ih => exact ih.symm
  | trans _ _ _ _ _ ih ih' => exact ih.trans ih'

/-- Steps carry over to other elements along a relation that gives each at most one. -/
theorem eqvGen_transfer {r : α → α → Prop} {r' : β → β → Prop} {R : α → β → Prop}
    (hfun : ∀ a b b', R a b → R a b' → b = b')
    (hstep : ∀ a₁ a₂, r a₁ a₂ → ∃ b₁ b₂, R a₁ b₁ ∧ R a₂ b₂ ∧ Relation.EqvGen r' b₁ b₂)
    {a₁ a₂ : α} {b₁ b₂ : β} (h : Relation.EqvGen r a₁ a₂) (h₁ : R a₁ b₁) (h₂ : R a₂ b₂) :
    Relation.EqvGen r' b₁ b₂ := by
  have hiff := iff_of_eqvGen (P := fun a => ∃ b, R a b ∧ Relation.EqvGen r' b₁ b)
    (fun x y hxy => by
      obtain ⟨u, v, hu, hv, huv⟩ := hstep x y hxy
      constructor
      · rintro ⟨b, hb, hb₁⟩
        exact ⟨v, hv, .trans _ _ _ (hfun x b u hb hu ▸ hb₁) huv⟩
      · rintro ⟨b, hb, hb₁⟩
        exact ⟨u, hu, .trans _ _ _ (hfun y b v hb hv ▸ hb₁) huv.symm⟩) h
  obtain ⟨b, hb, hb₁⟩ := hiff.1 ⟨b₁, h₁, .refl b₁⟩
  rwa [hfun a₂ b₂ b h₂ hb]

end ShellQuery
