import Mathlib.Data.List.Forall2
import ShellQuery.Column.Basic

/-!
# Which references a column answers to

References are compared with names up to identity (`denotes_congr_left`, `denotes_congr_right`).
Columns with the same names, and so identical columns, answer to the same references
(`answersTo_eq_of_sameNames`). Identical columns have the same plain names in the same order
(`hashKey_eq_of_identical`), so a map that finds its keys by a hash of these finds them by identity.
-/

namespace ShellQuery

theorem isEqv_iff_forall₂ {α : Type} {as bs : List α} {r : α → α → Bool} :
    as.isEqv bs r = true ↔ List.Forall₂ (fun a b => r a b = true) as bs := by
  induction as generalizing bs with
  | nil => cases bs <;> simp [List.isEqv]
  | cons a as ih => cases bs <;> simp [List.isEqv, ih]

namespace ColumnName

/-- A reference denotes a name with its plain name if one of the two has no qualifier or they share
one. -/
theorem denotes_iff {m n : ColumnName} :
    m.denotes n = true ↔ m.plain = n.plain ∧
      (m.qualifiers = [] ∨ n.qualifiers = [] ∨ ∃ q ∈ m.qualifiers, q ∈ n.qualifiers) := by
  rw [denotes_eq_agrees, agrees_iff]

theorem qualifiers_eq_nil_of_identical {m n : ColumnName} (h : m.identical n = true) :
    m.qualifiers = [] ↔ n.qualifiers = [] := by
  have hq := (identical_iff.1 h).2
  rw [List.eq_nil_iff_forall_not_mem, List.eq_nil_iff_forall_not_mem]
  exact forall_congr' fun q => not_congr (hq q)

/-- Identical names are denoted by the same references. -/
theorem denotes_congr_right {m n : ColumnName} (h : m.identical n = true) (r : ColumnName) :
    r.denotes m = r.denotes n := by
  obtain ⟨hp, hq⟩ := identical_iff.1 h
  rw [Bool.eq_iff_iff, denotes_iff, denotes_iff, hp, qualifiers_eq_nil_of_identical h]
  simp only [hq]

/-- Identical references denote the same names. -/
theorem denotes_congr_left {m n : ColumnName} (h : m.identical n = true) (r : ColumnName) :
    m.denotes r = n.denotes r := by
  rw [denotes_eq_agrees, denotes_eq_agrees, agrees_comm m, agrees_comm n, ← denotes_eq_agrees,
    ← denotes_eq_agrees, denotes_congr_right h]

end ColumnName

namespace Column

@[simp]
theorem answersTo_ofName (m n : ColumnName) : (ofName m).answersTo n = n.denotes m := by
  simp [answersTo, names, ofName]

@[simp]
theorem identical_refl (c : Column) : c.identical c = true := by
  rw [identical, ColumnName.identical_refl, Bool.and_true, isEqv_iff_forall₂, List.forall₂_same]
  exact fun n _ => n.identical_refl

/-- Whether two columns have the same names, one by one. -/
def sameNames (c d : Column) : Bool :=
  c.names.isEqv d.names ColumnName.identical

theorem identical_eq (c d : Column) :
    c.identical d = (c.sameNames d && c.label.identical d.label) := rfl

theorem sameNames_iff {c d : Column} : c.sameNames d = true ↔
    List.Forall₂ (fun m n => m.identical n = true) c.names d.names :=
  isEqv_iff_forall₂

theorem sameNames_of_identical {c d : Column} (h : c.identical d = true) :
    c.sameNames d = true := by
  rw [identical_eq, Bool.and_eq_true] at h
  exact h.1

/-- What a hash of a column is made of: its plain names and that of its label. Columns that differ in
their qualifiers only have it in common. -/
def hashKey (c : Column) : List String :=
  c.names.map ColumnName.plain ++ [c.label.plain]

theorem hashKey_eq_of_identical {c d : Column} (h : c.identical d = true) :
    c.hashKey = d.hashKey := by
  rw [identical_eq, Bool.and_eq_true, sameNames_iff] at h
  obtain ⟨hnames, hlabel⟩ := h
  have hplain : c.names.map ColumnName.plain = d.names.map ColumnName.plain := by
    rw [← List.forall₂_eq_eq_eq, List.forall₂_map_left_iff, List.forall₂_map_right_iff]
    exact hnames.imp fun m n hmn => (ColumnName.identical_iff.1 hmn).1
  rw [hashKey, hashKey, hplain, (ColumnName.identical_iff.1 hlabel).1]

theorem sameNames_comm (c d : Column) : c.sameNames d = d.sameNames c := by
  have hsymm : ∀ {c d : Column}, c.sameNames d = true → d.sameNames c = true := by
    intro c d h
    rw [sameNames_iff] at h ⊢
    exact (h.imp fun m n hmn => by rwa [flip, ColumnName.identical_comm]).flip
  exact Bool.eq_iff_iff.2 ⟨hsymm, hsymm⟩

theorem sameNames_trans {c d e : Column} (h : c.sameNames d = true) (h' : d.sameNames e = true) :
    c.sameNames e = true := by
  rw [sameNames_iff] at h h' ⊢
  generalize c.names = ls, d.names = ms, e.names = ns at h h' ⊢
  induction h generalizing ns with
  | nil => exact h'
  | cons hlm _ ih =>
    cases h' with
    | cons hmn h' => exact .cons (ColumnName.identical_trans hlm hmn) (ih _ h')

theorem identical_comm (c d : Column) : c.identical d = d.identical c := by
  rw [identical_eq, identical_eq, sameNames_comm, ColumnName.identical_comm]

theorem identical_trans {c d e : Column} (h : c.identical d = true) (h' : d.identical e = true) :
    c.identical e = true := by
  rw [identical_eq, Bool.and_eq_true] at *
  exact ⟨sameNames_trans h.1 h'.1, ColumnName.identical_trans h.2 h'.2⟩

theorem identical_of_common {c d e : Column} (h : c.identical e = true)
    (h' : d.identical e = true) : c.identical d = true := by
  rw [identical_comm] at h'
  exact identical_trans h h'

/-- Columns with the same names answer to the same references. -/
theorem answersTo_eq_of_sameNames {c d : Column} (h : c.sameNames d = true) (n : ColumnName) :
    c.answersTo n = d.answersTo n := by
  rw [sameNames_iff] at h
  rw [answersTo, answersTo]
  generalize c.names = ms, d.names = ns at h ⊢
  induction h with
  | nil => rfl
  | cons hown _ ih => rw [List.any_cons, List.any_cons, ih, ColumnName.denotes_congr_right hown]

theorem answersTo_congr {m n : ColumnName} (h : m.identical n = true) (c : Column) :
    c.answersTo m = c.answersTo n :=
  List.any_congr rfl fun own => ColumnName.denotes_congr_left h own

theorem answersTo_eq_of_identical {c d : Column} (h : c.identical d = true) (n : ColumnName) :
    c.answersTo n = d.answersTo n :=
  answersTo_eq_of_sameNames (sameNames_of_identical h) n

end Column

end ShellQuery
