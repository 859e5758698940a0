import ShellQuery.Condition
import ShellQuery.Proofs.Formula.Meaning

/-!
# Replacing the columns of a condition

The columns of a condition are replaced by other names, or by positions, one by one
(`forall₂_columns_of_mapColumnsM`). That succeeds exactly when every column has a replacement
(`exists_mapColumnsM_iff`, `exists_resolve_iff`), and it depends on the replacements of those
columns only (`resolve_congr`). Equalities between columns become such equalities
(`mapColumnsM_columns_ok_iff`), and nothing else does (`exists_columns_of_mapColumnsM`).
-/

namespace ShellQuery

variable {ε : Type}

namespace Comparison

theorem mem_columns_iff {c : Comparison} {n : ColumnName} :
    n ∈ c.columns ↔ c.left = .column n ∨ c.right = .column n := by
  obtain ⟨l, o, r⟩ := c
  cases l <;> cases r <;> simp [columns, Operand.column?, eq_comm]

/-- The sides are replaced one by one, and the operator stays. -/
theorem mapColumnsM_ok_iff {f : ColumnName → Except ε ColumnName} {c c' : Comparison} :
    c.mapColumnsM f = .ok c' ↔ c.left.mapColumnM f = .ok c'.left ∧
      c.operator = c'.operator ∧ c.right.mapColumnM f = .ok c'.right := by
  rw [mapColumnsM, bind_ok_iff]
  constructor
  · rintro ⟨l, hl, h⟩
    obtain ⟨r, hr, h⟩ := bind_ok_iff.1 h
    obtain rfl := pure_ok_iff.1 h
    exact ⟨hl, rfl, hr⟩
  · rintro ⟨hl, ho, hr⟩
    exact ⟨_, hl, bind_ok_iff.2 ⟨_, hr, by rw [ho]; rfl⟩⟩

/-- The columns of the result are the replacements of the columns, in their order. -/
theorem forall₂_columns_of_mapColumnsM {f : ColumnName → Except ε ColumnName}
    {c c' : Comparison} (h : c.mapColumnsM f = .ok c') :
    List.Forall₂ (fun n n' => f n = .ok n') c.columns c'.columns := by
  have hside : ∀ {x y : Operand}, x.mapColumnM f = .ok y →
      List.Forall₂ (fun n n' => f n = .ok n') x.column?.toList y.column?.toList := by
    intro x y h
    cases x with
    | column n =>
      obtain ⟨n', hn, rfl⟩ := map_ok_iff.1 h
      exact .cons hn .nil
    | literal s =>
      obtain rfl := Except.ok.inj h
      exact .nil
  obtain ⟨hl, -, hr⟩ := mapColumnsM_ok_iff.1 h
  exact List.rel_append (hside hl) (hside hr)

end Comparison

namespace Condition

theorem mem_columns_iff {c : Condition} {n : ColumnName} :
    n ∈ c.columns ↔ ∃ a ∈ Formula.atoms c, n ∈ a.columns :=
  List.mem_flatMap

/-- What all columns of a condition have is what the columns of all its comparisons have. -/
theorem forall_columns_iff {c : Condition} {p : ColumnName → Prop} :
    (∀ n ∈ c.columns, p n) ↔ ∀ a ∈ Formula.atoms c, ∀ n ∈ a.columns, p n := by
  simp only [mem_columns_iff]
  exact ⟨fun h a ha n hn => h n ⟨a, ha, hn⟩, fun h n ⟨a, ha, hn⟩ => h a ha n hn⟩

/-! ### Columns replaced by names -/

/-- Comparison by comparison, the columns of a condition have their replacements in its result. -/
theorem forall₂_columns_of_mapColumnsM {f : ColumnName → Except ε ColumnName} {c c' : Condition}
    (h : c.mapColumnsM f = .ok c') :
    List.Forall₂ (fun n n' => f n = .ok n') c.columns c'.columns := by
  have hatoms := Formula.forall₂_atoms_of_mapM h
  rw [columns, columns]
  generalize Formula.atoms c = as at hatoms
  generalize Formula.atoms c' = bs at hatoms
  induction hatoms with
  | nil => exact .nil
  | cons hab _ ih =>
    exact List.rel_append (Comparison.forall₂_columns_of_mapColumnsM hab) ih

/-- The columns of a condition can be replaced exactly when each of them has a replacement. -/
theorem exists_mapColumnsM_iff {f : ColumnName → Except ε ColumnName} {c : Condition} :
    (∃ c', c.mapColumnsM f = .ok c') ↔ ∀ n ∈ c.columns, ∃ n', f n = .ok n' := by
  have hside : ∀ x : Operand, (∃ y, x.mapColumnM f = .ok y) ↔
      ∀ n, x = .column n → ∃ n', f n = .ok n' := by
    intro x
    cases x with
    | column n => simp [Operand.mapColumnM, map_ok_iff]
    | literal s => simp [Operand.mapColumnM]
  have hcomparison : ∀ a : Comparison, (∃ b, a.mapColumnsM f = .ok b) ↔
      ∀ n ∈ a.columns, ∃ n', f n = .ok n' := by
    intro a
    simp only [Comparison.mem_columns_iff, or_imp, forall_and, ← hside]
    constructor
    · rintro ⟨b, hb⟩
      obtain ⟨hl, -, hr⟩ := Comparison.mapColumnsM_ok_iff.1 hb
      exact ⟨⟨_, hl⟩, _, hr⟩
    · rintro ⟨⟨l, hl⟩, r, hr⟩
      exact ⟨⟨l, a.operator, r⟩, Comparison.mapColumnsM_ok_iff.2 ⟨hl, rfl, hr⟩⟩
  calc (∃ c', c.mapColumnsM f = .ok c')
      ↔ ∀ a ∈ Formula.atoms c, ∃ b, a.mapColumnsM f = .ok b := Formula.exists_mapM_ok_iff
    _ ↔ ∀ a ∈ Formula.atoms c, ∀ n ∈ a.columns, ∃ n', f n = .ok n' := by simp only [hcomparison]
    _ ↔ ∀ n ∈ c.columns, ∃ n', f n = .ok n' := forall_columns_iff.symm

/-- An equality between two columns becomes one between their replacements. -/
theorem mapColumnsM_columns_ok_iff {f : ColumnName → Except ε ColumnName} {l r : ColumnName}
    {o : Operator} {c' : Condition} :
    mapColumnsM f (.atom ⟨.column l, o, .column r⟩) = .ok c' ↔
      ∃ l' r', f l = .ok l' ∧ f r = .ok r' ∧ c' = .atom ⟨.column l', o, .column r'⟩ := by
  rw [mapColumnsM, Formula.mapM_atom, map_ok_iff]
  constructor
  · rintro ⟨⟨x, o', y⟩, h, rfl⟩
    obtain ⟨hl, rfl, hr⟩ := Comparison.mapColumnsM_ok_iff.1 h
    obtain ⟨l', hl', rfl⟩ := map_ok_iff.1 hl
    obtain ⟨r', hr', rfl⟩ := map_ok_iff.1 hr
    exact ⟨l', r', hl', hr', rfl⟩
  · rintro ⟨l', r', hl, hr, rfl⟩
    exact ⟨⟨.column l', o, .column r'⟩, Comparison.mapColumnsM_ok_iff.2
      ⟨map_ok_iff.2 ⟨l', hl, rfl⟩, rfl, map_ok_iff.2 ⟨r', hr, rfl⟩⟩, rfl⟩

/-- What becomes a comparison of two columns was one: shapes stay, and no literal turns into a
column. -/
theorem exists_columns_of_mapColumnsM {f : ColumnName → Except ε ColumnName} {c : Condition}
    {l r : ColumnName} {o : Operator}
    (h : c.mapColumnsM f = .ok (.atom ⟨.column l, o, .column r⟩)) :
    ∃ l₀ r₀, c = .atom ⟨.column l₀, o, .column r₀⟩ ∧ f l₀ = .ok l ∧ f r₀ = .ok r := by
  -- a literal stays one
  have hside : ∀ {x : Operand} {n : ColumnName}, x.mapColumnM f = .ok (.column n) →
      ∃ m, x = .column m ∧ f m = .ok n := by
    intro x n hx
    cases x with
    | column m =>
      obtain ⟨n', hm, hn⟩ := map_ok_iff.1 hx
      exact ⟨m, rfl, Operand.column.inj hn ▸ hm⟩
    | literal text => simp [Operand.mapColumnM] at hx
  cases c with
  | all ps =>
    rw [mapColumnsM, Formula.mapM_all, map_ok_iff] at h
    simp at h
  | any ps =>
    rw [mapColumnsM, Formula.mapM_any, map_ok_iff] at h
    simp at h
  | atom a =>
    rw [mapColumnsM, Formula.mapM_atom, map_ok_iff] at h
    obtain ⟨b, hb, heq⟩ := h
    rw [Formula.atom.inj heq, Comparison.mapColumnsM_ok_iff] at hb
    obtain ⟨x, o', y⟩ := a
    obtain ⟨hl, rfl, hr⟩ := hb
    obtain ⟨l₀, rfl, hl₀⟩ := hside hl
    obtain ⟨r₀, rfl, hr₀⟩ := hside hr
    exact ⟨l₀, r₀, rfl, hl₀, hr₀⟩

/-! ### Columns replaced by positions -/

/-- The sides become fields and constants one by one, and the operator stays. -/
theorem resolveComparison_ok_iff {position : ColumnName → Except ε Nat} {c : Comparison}
    {test : Awk.FieldTest} :
    resolveComparison position c = .ok test ↔ ∃ l r, resolveOperand position c.left = .ok l ∧
      resolveOperand position c.right = .ok r ∧ test = .compare l c.operator r := by
  rw [resolveComparison, bind_ok_iff]
  constructor
  · rintro ⟨l, hl, h⟩
    obtain ⟨r, hr, h⟩ := bind_ok_iff.1 h
    exact ⟨l, r, hl, hr, (pure_ok_iff.1 h).symm⟩
  · rintro ⟨l, r, hl, hr, rfl⟩
    exact ⟨l, hl, bind_ok_iff.2 ⟨r, hr, rfl⟩⟩

/-- A test depends on the positions of the columns of its condition only. -/
theorem resolve_congr {f g : ColumnName → Except ε Nat} {c : Condition}
    (h : ∀ n ∈ c.columns, f n = g n) : resolve f c = resolve g c := by
  refine Formula.mapM_congr fun a ha => ?_
  have hside : ∀ x : Operand, (∀ n, x = .column n → f n = g n) →
      resolveOperand f x = resolveOperand g x := by
    intro x hx
    cases x with
    | column n => rw [resolveOperand, resolveOperand, hx n rfl]
    | literal s => rfl
  have hcolumn : ∀ n, n ∈ a.columns → f n = g n := fun n hn => h n (mem_columns_iff.2 ⟨a, ha, hn⟩)
  rw [resolveComparison, resolveComparison,
    hside a.left fun n hn => hcolumn n (Comparison.mem_columns_iff.2 (.inl hn)),
    hside a.right fun n hn => hcolumn n (Comparison.mem_columns_iff.2 (.inr hn))]

/-- A condition whose columns are replaced by names becomes the test that it would become at the
positions of these names. -/
theorem resolve_eq_of_mapColumnsM {ε' : Type} {f : ColumnName → Except ε ColumnName}
    {position position' : ColumnName → Except ε' Nat} {c c' : Condition}
    (h : c.mapColumnsM f = .ok c')
    (hposition : ∀ n n', f n = .ok n' → position n = position' n') :
    resolve position c = resolve position' c' := by
  have hside : ∀ {x y : Operand}, x.mapColumnM f = .ok y →
      resolveOperand position x = resolveOperand position' y := by
    intro x y hxy
    cases x with
    | column n =>
      obtain ⟨n', hn, rfl⟩ := map_ok_iff.1 hxy
      rw [resolveOperand, resolveOperand, hposition n n' hn]
    | literal s =>
      obtain rfl := Except.ok.inj hxy
      rfl
  refine Formula.mapM_eq_of_mapM h fun a _ b hab => ?_
  obtain ⟨hl, ho, hr⟩ := Comparison.mapColumnsM_ok_iff.1 hab
  rw [resolveComparison, resolveComparison, hside hl, ho, hside hr]

/-- A condition becomes a test exactly when each of its columns has a position. -/
theorem exists_resolve_iff {position : ColumnName → Except ε Nat} {c : Condition} :
    (∃ test, resolve position c = .ok test) ↔ ∀ n ∈ c.columns, ∃ p, position n = .ok p := by
  have hside : ∀ x : Operand, (∃ y, resolveOperand position x = .ok y) ↔
      ∀ n, x = .column n → ∃ p, position n = .ok p := by
    intro x
    cases x with
    | column n => simp [resolveOperand, map_ok_iff]
    | literal s => simp [resolveOperand]
  have hcomparison : ∀ a : Comparison, (∃ b, resolveComparison position a = .ok b) ↔
      ∀ n ∈ a.columns, ∃ p, position n = .ok p := by
    intro a
    simp only [Comparison.mem_columns_iff, or_imp, forall_and, ← hside, resolveComparison_ok_iff]
    constructor
    · rintro ⟨b, l, r, hl, hr, -⟩
      exact ⟨⟨l, hl⟩, r, hr⟩
    · rintro ⟨⟨l, hl⟩, r, hr⟩
      exact ⟨_, l, r, hl, hr, rfl⟩
  calc (∃ test, resolve position c = .ok test)
      ↔ ∀ a ∈ Formula.atoms c, ∃ b, resolveComparison position a = .ok b :=
        Formula.exists_mapM_ok_iff
    _ ↔ ∀ a ∈ Formula.atoms c, ∀ n ∈ a.columns, ∃ p, position n = .ok p := by
        simp only [hcomparison]
    _ ↔ ∀ n ∈ c.columns, ∃ p, position n = .ok p := forall_columns_iff.symm

end Condition

end ShellQuery
