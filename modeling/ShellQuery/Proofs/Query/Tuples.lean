import Mathlib.Data.List.Sections
import Mathlib.Data.Multiset.Bind
import ShellQuery.Proofs.Query.Equalities
import ShellQuery.Proofs.Table.JoinRows

/-!
# Tuples of rows

A statement is about tuples of one row per relation. A condition holds of a tuple or does not
(`satisfies`), and it does exactly when all its conjuncts do (`all_satisfies_cnf`), also with their
columns pinned (`satisfies_of_pinned`).

Tables are joined in an order of their own. `combos` are the tuples of the relations at some places,
and these are the same in every order (`combos_perm`); over all places they are the tuples that the
statement is about (`tuples_perm_combos`).
-/

namespace ShellQuery

/-- A row for the relation at every place. -/
abbrev Tuple := Nat → Row

/-- The value of a header field in a tuple. -/
def valueAt (τ : Tuple) (o : Origin) : String :=
  (τ o.relation).field o.field

namespace Tuple

/-- The tuple with another row at one place. -/
def set (τ : Tuple) (i : Nat) (row : Row) : Tuple :=
  Function.update τ i row

@[simp]
theorem set_self (τ : Tuple) (i : Nat) (row : Row) : τ.set i row i = row := by
  rw [set, Function.update_self]

theorem set_of_ne (τ : Tuple) {i j : Nat} (row : Row) (h : j ≠ i) : τ.set i row j = τ j := by
  rw [set, Function.update_of_ne h]

theorem set_comm (τ : Tuple) {i j : Nat} (h : i ≠ j) (row row' : Row) :
    (τ.set i row).set j row' = (τ.set j row').set i row := by
  rw [set, set, set, set, Function.update_comm h]

end Tuple

/-! ### Conditions on tuples -/

namespace Schema

/-- The rows of a relation: the lines of its file behind the header. -/
def rowsOf (w : World) (r : Relation × List String) : List Row :=
  (w.lines r.1.path).drop 1

/-- The fields of the rows of all relations. -/
def fields (sch : Schema) (w : World) : Set String :=
  {s | ∃ r ∈ sch, ∃ row ∈ rowsOf w r, s ∈ row}

/-- All tuples of one row per relation. -/
def tuples (sch : Schema) (w : World) : List Tuple :=
  (sch.map (rowsOf w)).sections.map fun rows i => rows.getD i []

/-- The value of a reference in a tuple: that of the first field it may mean. -/
def value (sch : Schema) (τ : Tuple) (n : ColumnName) : String :=
  ((sch.origin? n).map (valueAt τ)).getD ""

/-- The value of one side of a comparison in a tuple. -/
def operandCell (sch : Schema) (τ : Tuple) : Operand → Cell
  | .column n => .field (sch.value τ n)
  | .literal text => .constant text

/-- Whether a comparison holds in a tuple. -/
def satisfiesComparison (sch : Schema) (w : World) (τ : Tuple) (c : Comparison) : Bool :=
  w.compare c.operator (sch.operandCell τ c.left) (sch.operandCell τ c.right)

/-- Whether a condition holds in a tuple. -/
def satisfies (sch : Schema) (w : World) (τ : Tuple) (c : Condition) : Bool :=
  Formula.holds (sch.satisfiesComparison w τ) c

variable {sch : Schema} {w : World} {τ τ' : Tuple}

theorem MeansOnly.value_eq {n : ColumnName} {o : Origin} (h : sch.MeansOnly n o) (τ : Tuple) :
    sch.value τ n = valueAt τ o := by
  rw [value, h.origin?_eq]
  rfl

theorem value_congr {m n : ColumnName} (h : m.identical n = true) (τ : Tuple) :
    sch.value τ m = sch.value τ n := by
  have hmeans : sch.means m = sch.means n := funext fun o => means_congr h o
  rw [value, value, origin?, origin?, hmeans]

/-- A condition depends on the values of its columns only. -/
theorem satisfies_congr {c : Condition} (h : ∀ n ∈ c.columns, sch.value τ n = sch.value τ' n) :
    sch.satisfies w τ c = sch.satisfies w τ' c := by
  refine Formula.holds_congr fun a ha => ?_
  have hside : ∀ x : Operand, (∀ n, x = .column n → n ∈ a.columns) →
      sch.operandCell τ x = sch.operandCell τ' x := by
    intro x hx
    cases x with
    | column n =>
      rw [operandCell, operandCell, h n (Condition.mem_columns_iff.2 ⟨a, ha, hx n rfl⟩)]
    | literal t => rfl
  rw [satisfiesComparison, satisfiesComparison,
    hside a.left fun n hn => Comparison.mem_columns_iff.2 (.inl hn),
    hside a.right fun n hn => Comparison.mem_columns_iff.2 (.inr hn)]

/-- A condition holds exactly when all its conjuncts do. -/
theorem all_satisfies_cnf (c : Condition) :
    c.cnf.all (sch.satisfies w τ) = sch.satisfies w τ c := by
  refine Condition.holds_cnf (fun a b hab => ?_) c
  have hside : ∀ {x y : Operand}, (x == y) = true → sch.operandCell τ x = sch.operandCell τ y :=
    fun hxy => Operand.congr_of_beq hxy fun hmn => by
      rw [operandCell, operandCell, value_congr hmn]
  obtain ⟨hl, ho, hr⟩ := Comparison.beq_iff.1 hab
  rw [satisfiesComparison, satisfiesComparison, hside hl, hside hr, ho]

end Schema

/-- The fields of the relations are equal exactly if their texts are. It holds of awk where no two
fields spell one number in different ways. -/
def World.EqualAsTextsIn (w : World) (sch : Schema) : Prop :=
  ∀ s ∈ sch.fields w, ∀ t ∈ sch.fields w, w.EqualAsTexts s t

/-- Every row of a relation has as many fields as its header. -/
def World.Fits (w : World) (sch : Schema) : Prop :=
  ∀ r ∈ sch, ∀ row ∈ Schema.rowsOf w r, row.length = r.2.length

instance (w : World) (sch : Schema) : Decidable (w.Fits sch) :=
  inferInstanceAs (Decidable (∀ r ∈ sch, ∀ row ∈ Schema.rowsOf w r, row.length = r.2.length))

/-- Pinning the columns of a condition does not change whether it holds. -/
theorem Opened.satisfies_of_pinned {sch : Schema} {tables : List Table}
    (h : Opened sch (List.range sch.length) tables) (hsound : sch.Sound)
    (hapart : PathsApart (sch.map (·.1))) {c c' : Condition}
    (hpin : c.mapColumnsM (Query.pin tables) = .ok c') (w : World) (τ : Tuple) :
    sch.satisfies w τ c' = sch.satisfies w τ c := by
  refine Formula.holds_of_mapM hpin fun a _ b hab => ?_
  have hside : ∀ {x y : Operand}, x.mapColumnM (Query.pin tables) = .ok y →
      sch.operandCell τ y = sch.operandCell τ x := by
    intro x y hxy
    cases x with
    | column n =>
      obtain ⟨n', hn', rfl⟩ := map_ok_iff.1 hxy
      obtain ⟨o, hn, hpinned⟩ := h.pinnedTo_of_pin hsound hapart hn'
      rw [Schema.operandCell, Schema.operandCell, hn.value_eq, hpinned.meansOnly.value_eq]
    | literal t => rw [Except.ok.inj hxy]
  obtain ⟨hl, ho, hr⟩ := Comparison.mapColumnsM_ok_iff.1 hab
  rw [Schema.satisfiesComparison, Schema.satisfiesComparison, hside hl, hside hr, ho]

/-! ### Tuples of some relations -/

/-- The tuples of rows for the relations at some places. -/
def combos (rowsAt : Nat → List Row) (places : List Nat) : List Tuple :=
  places.foldl (fun τs i => (τs ×ˢ rowsAt i).map fun x => x.1.set i x.2) [fun _ => []]

section

variable {rowsAt : Nat → List Row} {places places' : List Nat}

theorem combos_append (rowsAt : Nat → List Row) (places : List Nat) (i : Nat) :
    combos rowsAt (places ++ [i]) =
      (combos rowsAt places ×ˢ rowsAt i).map fun x => x.1.set i x.2 := by
  rw [combos, List.foldl_append]
  rfl

theorem set_mem_combos {τ : Tuple} (hτ : τ ∈ combos rowsAt places) {i : Nat} {row : Row}
    (hrow : row ∈ rowsAt i) : τ.set i row ∈ combos rowsAt (places ++ [i]) := by
  rw [combos_append]
  exact List.mem_map_of_mem (f := fun x : Tuple × Row => x.1.set i x.2)
    (List.mem_product.2 ⟨hτ, hrow⟩)

theorem map_product {α β γ : Type} (as : List α) (bs : List β) (f : α × β → γ) :
    (as ×ˢ bs).map f = as.flatMap fun a => bs.map fun b => f (a, b) := by
  show (as.product bs).map f = _
  rw [List.product, List.map_flatMap]
  simp only [List.map_map]
  rfl

/-- The tuples of one relation are its rows. -/
theorem combos_singleton (rowsAt : Nat → List Row) (i : Nat) :
    combos rowsAt [i] = (rowsAt i).map fun row => Tuple.set (fun _ => []) i row := by
  rw [← List.nil_append [i], combos_append]
  exact (map_product _ _ _).trans (List.append_nil _)

/-- The tuples as a multiset, built place by place. -/
theorem coe_combos (rowsAt : Nat → List Row) (places : List Nat) :
    (combos rowsAt places : Multiset Tuple) = places.foldl
      (fun τs i => τs.bind fun τ => (rowsAt i : Multiset Row).map (τ.set i)) {fun _ => []} := by
  -- on the places that are left, from any tuples so far
  have hfold : ∀ (places : List Nat) (τs : List Tuple),
      ((places.foldl (fun τs i => (τs ×ˢ rowsAt i).map fun x => x.1.set i x.2) τs : List Tuple) :
        Multiset Tuple) = places.foldl
          (fun τs i => τs.bind fun τ => (rowsAt i : Multiset Row).map (τ.set i)) ↑τs := by
    intro places
    induction places with
    | nil => exact fun _ => rfl
    | cons i places ih =>
      intro τs
      rw [List.foldl_cons, List.foldl_cons, ih]
      congr 1
      simp only [Multiset.map_coe, Multiset.coe_bind]
      rw [map_product]
  exact hfold places _

/-- The order of the places does not matter. -/
theorem combos_perm (h : places.Perm places') :
    (combos rowsAt places).Perm (combos rowsAt places') := by
  rw [← Multiset.coe_eq_coe, coe_combos, coe_combos]
  refine h.foldl_eq' (fun i _ j _ τs => ?_) _
  by_cases hij : i = j
  · rw [hij]
  · simp only [Multiset.bind_assoc, Multiset.bind_map]
    congr 1
    funext τ
    rw [Multiset.bind_map_comm]
    simp only [Tuple.set_comm _ hij]

/-- A tuple of some relations has no rows for the others. -/
theorem eq_nil_of_mem_combos {τ : Tuple} (h : τ ∈ combos rowsAt places) {i : Nat}
    (hi : i ∉ places) : τ i = [] := by
  induction places using List.reverseRecOn generalizing τ with
  | nil => rw [List.mem_singleton.1 h]
  | append_singleton places j ih =>
    rw [combos_append, List.mem_map] at h
    obtain ⟨⟨σ, row⟩, hx, rfl⟩ := h
    rw [List.mem_append, not_or] at hi
    rw [Tuple.set_of_ne _ _ fun hij => hi.2 (List.mem_singleton.2 hij)]
    exact ih (List.mem_product.1 hx).1 hi.1

/-- A tuple of some relations has rows of theirs. -/
theorem mem_rowsAt_of_mem_combos {τ : Tuple} (h : τ ∈ combos rowsAt places) {i : Nat}
    (hi : i ∈ places) : τ i ∈ rowsAt i := by
  induction places using List.reverseRecOn generalizing τ with
  | nil => exact absurd hi List.not_mem_nil
  | append_singleton places j ih =>
    rw [combos_append, List.mem_map] at h
    obtain ⟨⟨σ, row⟩, hx, rfl⟩ := h
    obtain ⟨hσ, hrow⟩ := List.mem_product.1 hx
    -- the row that was set last is that of the last place; the others are older
    by_cases hij : i = j
    · rw [hij, Tuple.set_self]
      exact hrow
    · rw [Tuple.set_of_ne σ row hij]
      rcases List.mem_append.1 hi with hi | hi
      · exact ih hσ hi
      · exact absurd (List.mem_singleton.1 hi) hij

open scoped List in
/-- The rows of the tuples are all choices of one row from each relation. -/
theorem map_combos_perm_sections (hnodup : places.Nodup) :
    ((combos rowsAt places).map fun τ => places.map τ).Perm (places.map rowsAt).sections := by
  induction places with
  | nil => exact .refl _
  | cons i places ih =>
    obtain ⟨hi, hnodup⟩ := List.nodup_cons.1 hnodup
    -- setting the row of the new place leaves the others as they are
    have hset : ∀ x : Tuple × Row, (i :: places).map (x.1.set i x.2) = x.2 :: places.map x.1 := by
      intro x
      rw [List.map_cons, Tuple.set_self, List.map_congr_left (g := x.1)]
      exact fun j hj => Tuple.set_of_ne _ _ fun hji => hi (hji ▸ hj)
    have hperm : (i :: places).Perm (places ++ [i]) := (List.perm_append_singleton i places).symm
    have hmap : (fun τ => (i :: places).map τ) ∘ (fun x : Tuple × Row => x.1.set i x.2) =
        fun x => x.2 :: places.map x.1 := funext hset
    calc (combos rowsAt (i :: places)).map (fun τ => (i :: places).map τ)
        ~ (combos rowsAt (places ++ [i])).map fun τ => (i :: places).map τ :=
          (combos_perm hperm).map _
      _ = (combos rowsAt places).flatMap fun τ => (rowsAt i).map (· :: places.map τ) := by
          rw [combos_append, List.map_map, hmap, map_product]
      _ = ((combos rowsAt places).map fun τ => places.map τ).flatMap
            fun rows => (rowsAt i).map (· :: rows) := by rw [List.flatMap_map]
      _ ~ (places.map rowsAt).sections.flatMap fun rows => (rowsAt i).map (· :: rows) :=
          (ih hnodup).flatMap_right _
      _ = ((i :: places).map rowsAt).sections := by rw [List.map_cons, List.sections]

end

/-- The rows of the relation at a place. -/
def Schema.rowsAt (sch : Schema) (w : World) (i : Nat) : List Row :=
  (sch[i]?.map (rowsOf w)).getD []

/-- In a tuple of rows of the relations, every value of a header field is a field of some row. -/
theorem Schema.valueAt_mem_fields {sch : Schema} {w : World} (hfits : w.Fits sch) {τ : Tuple}
    {o : Origin} (ho : o ∈ sch.origins) (hrow : τ o.relation ∈ sch.rowsAt w o.relation) :
    valueAt τ o ∈ sch.fields w := by
  obtain ⟨⟨r, f⟩, hf⟩ := Option.isSome_iff_exists.1 (mem_origins_iff.1 ho)
  rw [fieldAt?] at hf
  obtain ⟨x, hx, hf⟩ := Option.bind_eq_some_iff.1 hf
  obtain ⟨f', hf', -⟩ := Option.map_eq_some_iff.1 hf
  rw [rowsAt, hx] at hrow
  have hmem : x ∈ sch := List.mem_of_getElem? hx
  -- rows are as long as the header, so the field is not a missing one
  have hlt : o.field < (τ o.relation).length := by
    rw [hfits x hmem _ hrow]
    exact (List.getElem?_eq_some_iff.1 hf').1
  refine ⟨x, hmem, _, hrow, ?_⟩
  rw [valueAt, Row.field_eq_getElem hlt]
  exact List.getElem_mem hlt

theorem Schema.tuples_perm_combos (sch : Schema) (w : World) :
    (sch.tuples w).Perm (combos (sch.rowsAt w) (List.range sch.length)) := by
  have hrows : sch.map (rowsOf w) = (List.range sch.length).map (sch.rowsAt w) := by
    refine List.ext_getElem (by simp) fun i hi hi' => ?_
    have hlt : i < sch.length := by simpa using hi
    simp [rowsAt, List.getElem?_eq_getElem hlt]
  have hsections : ((combos (sch.rowsAt w) (List.range sch.length)).map fun τ =>
      (List.range sch.length).map τ).Perm ((List.range sch.length).map (sch.rowsAt w)).sections :=
    map_combos_perm_sections List.nodup_range
  have hperm := hsections.map fun rows : List Row => fun i => rows.getD i []
  rw [← hrows, List.map_map] at hperm
  refine hperm.symm.trans (.of_eq ?_)
  -- a tuple has its rows back where there are relations, and it is empty elsewhere
  rw [List.map_congr_left (g := id), List.map_id]
  intro τ hτ
  funext i
  simp only [Function.comp_apply, id_eq, List.getD_eq_getElem?_getD, List.getElem?_map]
  by_cases hi : i < sch.length
  · rw [List.getElem?_range hi]
    rfl
  · rw [List.getElem?_eq_none (by simpa using hi),
      eq_nil_of_mem_combos hτ (by simpa using hi)]
    rfl

end ShellQuery
