import Mathlib.Data.List.Perm.Basic
import Mathlib.Data.List.ProdSigma
import Mathlib.Data.String.Basic
import ShellQuery.Proofs.Formula.Meaning
import ShellQuery.Proofs.Table.JoinColumns

/-!
# The rows that a table describes

A table describes rows by a source and by steps. Given a world of files, `Table.rows` gives these
rows: a file gives its lines behind the header, a step turns rows into rows, and a join pairs the
rows of its two sides whose key fields are equal. The join command reads both sides in step, so a
join has rows only where both sides are sorted on their keys.

`Yields` says that a table has certain rows, all as wide as its columns are many. Filters keep those
of them that pass (`Yields.filterBy`), and sorting for a join makes the rows ready for it
(`Yields.ensureSorted`).
-/

namespace ShellQuery

/-! ### Rows -/

/-- The fields of a line. -/
abbrev Row := List String

namespace Row

/-- The field at a position; a field that is not there is empty. -/
def field (row : Row) (p : Nat) : String :=
  row.getD p ""

/-- The fields at some positions. -/
def select (positions : List Nat) (row : Row) : Row :=
  positions.map row.field

/-- Whether a row may stand before another one in rows sorted by the fields at some positions. -/
def sortsBefore (positions : List Nat) (row row' : Row) : Bool :=
  decide (select positions row ≤ select positions row')

/-- What the join command prints for a pair of rows: the key, then the other fields of the left row,
then those of the right row. -/
def join (leftKey rightKey : Nat) (l r : Row) : Row :=
  l.field leftKey :: (l.eraseIdx leftKey ++ r.eraseIdx rightKey)

theorem field_eq_getElem {row : Row} {p : Nat} (h : p < row.length) : row.field p = row[p] := by
  rw [field, List.getD_eq_getElem?_getD, List.getElem?_eq_getElem h, Option.getD_some]

theorem field_map {α : Type} {f : α → String} {as : List α} {p : Nat} {a : α}
    (h : as[p]? = some a) : Row.field (as.map f) p = f a := by
  rw [field, List.getD_eq_getElem?_getD, List.getElem?_map, h]
  rfl

theorem cons_le_cons_iff {s s' : String} {a b : Row} :
    s :: a ≤ s' :: b ↔ s < s' ∨ s = s' ∧ a ≤ b := by
  rw [le_iff_lt_or_eq, le_iff_lt_or_eq]
  constructor
  · rintro (hlt | heq)
    · rcases List.cons_lt_cons_iff.1 hlt with hlt | ⟨heq, hlt⟩
      · exact .inl hlt
      · exact .inr ⟨heq, .inl hlt⟩
    · exact .inr ⟨(List.cons.inj heq).1, .inr (List.cons.inj heq).2⟩
  · rintro (hlt | ⟨rfl, hlt | rfl⟩)
    · exact .inl (.rel hlt)
    · exact .inl (.cons hlt)
    · exact .inr rfl

/-- Selecting all fields changes nothing. -/
theorem select_range (row : Row) : select (List.range row.length) row = row := by
  refine List.ext_getElem (by rw [select, List.length_map, List.length_range]) fun p hp hp' => ?_
  simp only [select, List.getElem_map, List.getElem_range]
  exact field_eq_getElem hp'

end Row

/-- What a comparison compares: the value of a field, or a literal of the statement. -/
inductive Cell where
  | field (text : String)
  | constant (text : String)

/-- The text of a value. -/
def Cell.text : Cell → String
  | .field text => text
  | .constant text => text

/-- What the commands of a pipeline depend on. -/
structure World where
  /-- The lines of a file. -/
  lines : (path : String) → List Row
  /-- The rows that a command prints. -/
  output : (command : String) → List Row
  /-- Whether two values compare as an operator asks. awk compares fields that look like numbers by
  the numbers, and other fields by their texts. -/
  compare : Operator → Cell → Cell → Bool
  /-- Whether a row passes a test given in awk's own words. -/
  verbatim : String → Row → Bool
  /-- A sample of some rows. -/
  sample : (size : Nat) → (seed : Option Nat) → List Row → List Row

namespace World

variable (w : World)

/-! ### Tests and steps -/

/-- Two fields are equal exactly if their texts are. The join command compares the fields of its
keys in this way. A comparison of awk need not: it finds the fields `1` and `1.0` equal, since both
look like the same number. -/
def EqualAsTexts (s t : String) : Prop :=
  w.compare .eq (.field s) (.field t) = (s == t)

/-- The fields at some pairs of positions in rows of two tables are equal exactly if their texts
are. -/
def EqualAsTextsAt (pairs : List (Nat × Nat)) (ls rs : List Row) : Prop :=
  ∀ l ∈ ls, ∀ r ∈ rs, ∀ p ∈ pairs, w.EqualAsTexts (l.field p.1) (r.field p.2)

/-- The value of one side of a comparison on a row. -/
def cell (row : Row) : Awk.FieldOperand → Cell
  | .field p => .field (row.field p)
  | .constant text => .constant text

/-- Whether a row passes an atomic test. -/
def passesField (row : Row) : Awk.FieldTest → Bool
  | .compare l o r => w.compare o (cell row l) (cell row r)
  | .verbatim text => w.verbatim text row

/-- Whether a row passes a test. -/
def passes (row : Row) (test : Awk.RowTest) : Bool :=
  Formula.holds (w.passesField row) test

/-- The rows that a step makes out of some rows. -/
def run : Step → List Row → List Row
  | .project positions, rows => rows.map (Row.select positions)
  | .filter tests positions, rows =>
    (rows.filter fun row => tests.all (w.passes row)).map (Row.select positions)
  | .sort positions, rows => rows.mergeSort (Row.sortsBefore positions)
  | .sample size seed, rows => w.sample size seed rows
  | .count none, rows => [[toString rows.length]]
  | .count (some p), rows => [[toString (rows.filter fun row => row.field p != "").length]]

/-- A filter that prints all fields leaves the rows that pass as they are. -/
theorem run_filter_range {width : Nat} {rows : List Row} (h : ∀ row ∈ rows, row.length = width)
    (tests : List Awk.RowTest) :
    w.run (.filter tests (List.range width)) rows =
      rows.filter fun row => tests.all (w.passes row) := by
  rw [run, List.map_congr_left (g := id), List.map_id]
  intro row hrow
  rw [← h row (List.mem_filter.1 hrow).1, Row.select_range]
  rfl

end World

/-! ### Sources and tables -/

/-- Rows whose fields at a position are in order. -/
def SortedOn (key : Nat) (rows : List Row) : Prop :=
  rows.Pairwise fun row row' => row.field key ≤ row'.field key

instance (key : Nat) (rows : List Row) : Decidable (SortedOn key rows) :=
  inferInstanceAs (Decidable (rows.Pairwise _))

/-- Rows in the order of their fields at some positions, the first position first. -/
def SortedBy (positions : List Nat) (rows : List Row) : Prop :=
  rows.Pairwise fun row row' => Row.select positions row ≤ Row.select positions row'

/-- The rows that the join command prints for rows of both sides. -/
def joinRows (leftKey rightKey : Nat) (ls rs : List Row) : List Row :=
  ((ls ×ˢ rs).filter fun x => x.1.field leftKey == x.2.field rightKey).map fun x =>
    x.1.join leftKey rightKey x.2

mutual

/-- The rows that a table describes, if every join in it has sorted inputs. -/
def Table.rows (w : World) : Table → Option (List Row)
  | ⟨_, _, source, _, steps, _⟩ =>
    (source.rows w).map fun rows => steps.foldl (fun rows step => w.run step rows) rows

/-- The rows that a source gives. -/
def Source.rows (w : World) : Source Table → Option (List Row)
  | .file path headerLines => some ((w.lines path).drop headerLines)
  | .command text => some (w.output text)
  | .join left right leftKey rightKey => do
    let ls ← left.rows w
    let rs ← right.rows w
    if SortedOn leftKey ls ∧ SortedOn rightKey rs then some (joinRows leftKey rightKey ls rs)
    else none

end

/-! ### What tables yield -/

/-- The table has these rows, all as wide as its columns are many, and nothing is known about their
order. -/
structure Yields (w : World) (t : Table) (rows : List Row) : Prop where
  rows_eq : t.rows w = some rows
  width : ∀ row ∈ rows, row.length = t.columns.length
  sortedBy : t.sortedBy = []

section

variable {w : World} {t : Table} {rows : List Row}

/-- A step that is appended to a table acts on its rows, whatever its columns become. -/
theorem rows_append (h : t.rows w = some rows) (step : Step) (columns sorted : List Column) :
    Table.rows w { t with columns := columns, steps := t.steps ++ [step], sortedBy := sorted } =
      some (w.run step rows) := by
  obtain ⟨_, _, source, _, steps, _⟩ := t
  rw [Table.rows, Option.map_eq_some_iff] at h ⊢
  obtain ⟨first, hfirst, rfl⟩ := h
  exact ⟨first, hfirst, by rw [List.foldl_append]; rfl⟩

theorem Yields.filterBy (h : Yields w t rows) (tests : List Awk.RowTest) :
    Yields w (t.filterBy tests) (rows.filter fun row => tests.all (w.passes row)) := by
  unfold Table.filterBy
  cases tests with
  | nil =>
    rw [List.filter_eq_self.2 (by simp)]
    exact h
  | cons test tests =>
    rw [List.isEmpty_cons, if_neg (by simp)]
    have hwidth : ∀ row ∈ rows.filter fun row => (test :: tests).all (w.passes row),
        row.length = t.columns.length := fun row hrow => h.width row (List.mem_filter.1 hrow).1
    refine ⟨(rows_append h.rows_eq _ _ _).trans ?_, hwidth, h.sortedBy⟩
    rw [w.run_filter_range h.width]

theorem sortedBy_mergeSort (positions : List Nat) (rows : List Row) :
    SortedBy positions (rows.mergeSort (Row.sortsBefore positions)) := by
  have hsorted : (rows.mergeSort (Row.sortsBefore positions)).Pairwise
      fun a b => Row.sortsBefore positions a b = true := by
    refine List.pairwise_mergeSort (fun a b c hab hbc => ?_) (fun a b => ?_) rows
    · rw [Row.sortsBefore, decide_eq_true_iff] at hab hbc ⊢
      exact le_trans hab hbc
    · rw [Bool.or_eq_true, Row.sortsBefore, Row.sortsBefore, decide_eq_true_iff,
        decide_eq_true_iff]
      exact le_total _ _
  refine hsorted.imp fun hab => ?_
  rwa [Row.sortsBefore, decide_eq_true_iff] at hab

/-- Rows sorted by some positions are sorted on the first of them. -/
theorem SortedBy.sortedOn {key : Nat} {keys : List Nat} {rows : List Row}
    (h : SortedBy (key :: keys) rows) : SortedOn key rows := by
  refine h.imp fun hle => ?_
  unfold Row.select at hle
  rcases Row.cons_le_cons_iff.1 hle with hlt | ⟨heq, -⟩
  · exact le_of_lt hlt
  · exact le_of_eq heq

/-- Sorting by some positions sorts on the first of them. -/
theorem Yields.ensureSorted (h : Yields w t rows) {key : Nat} (hkey : key < t.columns.length)
    (keys : List Nat) :
    ∃ sorted, (t.ensureSorted (key :: keys).eraseDups).rows w = some sorted ∧ sorted.Perm rows ∧
      SortedOn key sorted := by
  obtain ⟨more, hmore⟩ : ∃ more, (key :: keys).eraseDups.eraseDups = key :: more := by
    rw [List.eraseDups_cons, List.eraseDups_cons]
    exact ⟨_, rfl⟩
  have hcolumns : t.columnsAt (key :: more) ≠ [] := by
    rw [Table.columnsAt, List.filterMap_cons_some (List.getElem?_eq_getElem hkey)]
    exact List.cons_ne_nil _ _
  -- nothing is known about the order of the rows, so a sort is appended
  have hsort : t.ensureSorted (key :: keys).eraseDups = { t with
      steps := t.steps ++ [.sort (key :: more)], sortedBy := t.columnsAt (key :: more) } := by
    have hunsorted : t.isSortedBy (key :: keys).eraseDups = false := by
      rw [Table.isSortedBy, h.sortedBy, List.eraseDups_cons]
      rfl
    have hnew : ((t.sortedBy.take (t.columnsAt (key :: more)).length).isEqv
        (t.columnsAt (key :: more)) Column.identical) = false := by
      rw [h.sortedBy, List.take_nil]
      cases hc : t.columnsAt (key :: more) with
      | nil => exact absurd hc hcolumns
      | cons => rfl
    rw [Table.ensureSorted, hunsorted, if_neg (by simp), Table.sortPositions]
    simp only [hmore]
    rw [hnew, if_neg (by simp)]
  rw [hsort]
  exact ⟨_, rows_append h.rows_eq _ _ _, List.mergeSort_perm _ _,
    (sortedBy_mergeSort (key :: more) rows).sortedOn⟩

end

end ShellQuery
