import Mathlib.Data.List.Basic
import ShellQuery.Error
import ShellQuery.Proofs.Outcome

/-!
# Checked lookups

A lookup in a list may miss. The planner is written with lookups that pass over a miss; here are
lookups that stop at it. `Stop` keeps a miss apart from the errors that the planner reports, and
`lift` takes a computation without checked lookups among those with them. What a pattern has laid
open, such as the first element of a list that begins with one, is no lookup.

A checked computation equals the lifted plain one exactly when none of its lookups misses.
`bind_lift` is the step of every such proof: a computation goes on with what the plain one has
found, and later lookups may rely on it. `mapM_lookup` is the case of looking up several places.
-/

namespace ShellQuery.Checked

/-- Why a computation with checked lookups ends without a result. -/
inductive Stop where
  /-- A lookup has missed. -/
  | outOfRange
  /-- The planner refuses the statement. -/
  | refused (error : PlanError)

variable {α β γ : Type}

/-- A computation that looks nothing up. -/
def lift (step : Except PlanError α) : Except Stop α :=
  step.mapError .refused

/-- The element at a place, which must be there. -/
def lookup (as : List α) (i : Nat) : Except Stop α :=
  match as[i]? with
  | some a => .ok a
  | none => .error .outOfRange

/-- The first `n` elements, which must be there. -/
def firstOf (as : List α) (n : Nat) : Except Stop (List α) :=
  if n ≤ as.length then .ok (as.take n) else .error .outOfRange

/-! ### Lifted computations -/

@[simp]
theorem lift_ok (a : α) : lift (.ok a) = .ok a := rfl

/-- A lifted computation goes on like the plain one, given that the plain one has come that far. -/
theorem bind_lift {step : Except PlanError α} {next : α → Except Stop β}
    {plain : α → Except PlanError β} (h : ∀ a, step = .ok a → next a = lift (plain a)) :
    lift step >>= next = lift (step >>= plain) := by
  cases step with
  | error e => rfl
  | ok a => exact h a rfl

theorem bind_lift_map {step : Except PlanError α} {f : α → γ} {next : γ → Except Stop β}
    {plain : α → Except PlanError β} (h : ∀ a, step = .ok a → next (f a) = lift (plain a)) :
    lift (step.map f) >>= next = lift (step >>= plain) := by
  cases step with
  | error e => rfl
  | ok a => exact h a rfl

theorem lift_map (f : α → β) (step : Except PlanError α) :
    lift (step.map f) = (lift step).map f := by
  cases step with
  | error e => rfl
  | ok a => rfl

theorem mapM_lift {f : α → Except Stop β} {plain : α → Except PlanError β} {as : List α}
    (h : ∀ a ∈ as, f a = lift (plain a)) : as.mapM f = lift (as.mapM plain) := by
  induction as with
  | nil => rfl
  | cons a as ih =>
    rw [List.mapM_cons, List.mapM_cons, h a List.mem_cons_self,
      ih fun a' ha' => h a' (List.mem_cons_of_mem a ha')]
    refine bind_lift fun b _ => ?_
    exact bind_lift fun bs _ => rfl

theorem forM_lift {f : α → Except Stop Unit} {plain : α → Except PlanError Unit} {as : List α}
    (h : ∀ a ∈ as, f a = lift (plain a)) : as.forM f = lift (as.forM plain) := by
  induction as with
  | nil => rfl
  | cons a as ih =>
    have hrest := ih fun a' ha' => h a' (List.mem_cons_of_mem a ha')
    show (f a >>= fun _ => as.forM f) = lift (plain a >>= fun _ => as.forM plain)
    rw [h a List.mem_cons_self, hrest]
    exact bind_lift fun _ _ => rfl

theorem forM_map (f : α → β) (g : β → Except Stop Unit) (as : List α) :
    (as.map f).forM g = as.forM fun a => g (f a) := by
  induction as with
  | nil => rfl
  | cons a as ih => exact congrArg (g (f a) >>= fun _ => ·) ih

/-- A fold of checked steps is the lifted fold if every step is, from what holds of the start and is
kept by the plain steps. -/
theorem foldlM_lift {f : β → α → Except Stop β} {plain : β → α → Except PlanError β}
    (as : List α) (P : β → Prop) {b : β} (hb : P b)
    (hstep : ∀ b, P b → ∀ a ∈ as, f b a = lift (plain b a))
    (hkeep : ∀ b b', P b → ∀ a ∈ as, plain b a = .ok b' → P b') :
    as.foldlM f b = lift (as.foldlM plain b) := by
  induction as generalizing b with
  | nil => rfl
  | cons a as ih =>
    rw [List.foldlM_cons, List.foldlM_cons, hstep b hb a List.mem_cons_self]
    refine bind_lift fun b' hb' => ?_
    apply ih (hkeep b b' hb a List.mem_cons_self hb')
    · exact fun c hc a' ha' => hstep c hc a' (List.mem_cons_of_mem a ha')
    · exact fun c c' hc a' ha' => hkeep c c' hc a' (List.mem_cons_of_mem a ha')

/-! ### Lookups that hit -/

theorem lookup_eq_ok {as : List α} {i : Nat} {a : α} (h : as[i]? = some a) :
    lookup as i = .ok a := by
  rw [lookup, h]

theorem firstOf_eq_ok {as : List α} {n : Nat} (h : n ≤ as.length) :
    firstOf as n = .ok (as.take n) := by
  rw [firstOf, if_pos h]

/-- Steps that succeed wherever a partial function has a value, with that value, all succeed. -/
theorem mapM_eq_filterMap {f : α → Except Stop β} {g : α → Option β} {as : List α}
    (h : ∀ a ∈ as, ∃ b, f a = .ok b ∧ g a = some b) : as.mapM f = .ok (as.filterMap g) := by
  induction as with
  | nil => rfl
  | cons a as ih =>
    obtain ⟨b, hf, hg⟩ := h a List.mem_cons_self
    have hrest := ih fun a' ha' => h a' (List.mem_cons_of_mem a ha')
    rw [List.mapM_cons, hf, hrest, List.filterMap_cons_some hg]
    rfl

/-- Places that are there are all found. -/
theorem mapM_lookup {as : List α} {places : List Nat} (h : ∀ i ∈ places, i < as.length) :
    places.mapM (lookup as) = .ok (places.filterMap (as[·]?)) := by
  refine mapM_eq_filterMap fun i hi => ?_
  have hlt : i < as.length := h i hi
  have hfound : as[i]? = some as[i] := List.getElem?_eq_getElem hlt
  exact ⟨as[i], lookup_eq_ok hfound, hfound⟩

end ShellQuery.Checked
