import ShellQuery.Error
import ShellQuery.Text.Ascii
import ShellQuery.Text.Split

/-!
# Column names

A column name is what the author of a statement writes: `city`, `t.city` or `data/towns.csv.city`.
It consists of a plain name, which is an identifier, and the set of relations it may belong to. The
case of ASCII letters does not matter in either part; the spelling of the plain name is kept for
output.

Four relations hold between names:

* `identical`: the same plain name and the same set of qualifiers;
* `agrees`: the same plain name, and an unqualified side or a common qualifier;
* `isLooserThan`: the same plain name, unqualified here and qualified there;
* `denotes`: a reference written one way may mean a column called the other way.
-/

namespace ShellQuery

/-- A character a plain name may start with. -/
def isIdentifierStart (c : Char) : Bool :=
  c.isAlpha || c == '_'

/-- A character a plain name may go on with. -/
def isIdentifierPart (c : Char) : Bool :=
  c.isAlphanum || c == '_'

/-- Whether a text is a plain name: an ASCII letter or underscore followed by ASCII letters, digits
and underscores. -/
def isIdentifier (s : String) : Bool :=
  match s.toList with
  | [] => false
  | c :: cs => isIdentifierStart c && cs.all isIdentifierPart

theorem isIdentifierPart_of_isIdentifierStart {c : Char} (h : isIdentifierStart c = true) :
    isIdentifierPart c = true := by
  simp only [isIdentifierStart, isIdentifierPart, Char.isAlphanum, Bool.or_eq_true] at h ⊢
  exact h.imp_left Or.inl

/-- A plain name and the relations it may belong to, in the order they became known. -/
structure ColumnName where
  /-- The plain name as it was written. -/
  spelling : String
  /-- The plain name in lower case, by which names are compared. -/
  plain : String
  /-- The relations, in lower case and without repetition. -/
  qualifiers : List String
  /-- The plain name is an identifier. -/
  isIdentifier_spelling : isIdentifier spelling = true
  /-- The compared name is the written one without its case. -/
  plain_eq : plain = Text.lower spelling

namespace ColumnName

/-- A name with the given spelling and qualifiers. -/
def make (spelling : String) (qualifiers : List String) : Except PlanError ColumnName :=
  if h : isIdentifier spelling = true then
    .ok ⟨spelling, Text.lower spelling, (qualifiers.map Text.lower).eraseDups, h, rfl⟩
  else .error (.invalidColumnName spelling)

/-- Reads `name` or `qualifier.name`. All that precedes the last dot is one qualifier, so the path
of a file can qualify a column. -/
def ofText (text : String) : Except PlanError ColumnName :=
  match Text.splitLast '.' text.toList with
  | none => make text []
  | some ([], _) => .error (.invalidColumnName text)
  | some (c :: qualifier, name) => make (String.ofList name) [String.ofList (c :: qualifier)]

/-- The name with further qualifiers. -/
def addQualifiers (n : ColumnName) (qualifiers : List String) : ColumnName :=
  { n with qualifiers := (n.qualifiers ++ qualifiers.map Text.lower).eraseDups }

/-- The plain name under the one qualifier `relation`. -/
def within (n : ColumnName) (relation : String) : ColumnName :=
  { n with qualifiers := [Text.lower relation] }

/-- The plain name without qualifiers. -/
def unqualified (n : ColumnName) : ColumnName :=
  { n with qualifiers := [] }

/-- Whether the name has a qualifier. -/
def isQualified (n : ColumnName) : Bool :=
  !n.qualifiers.isEmpty

/-- Whether two names have the same set of qualifiers. -/
def sameQualifiers (m n : ColumnName) : Bool :=
  m.qualifiers.all (n.qualifiers.contains ·) && n.qualifiers.all (m.qualifiers.contains ·)

/-- The same plain name and the same set of qualifiers. -/
def identical (m n : ColumnName) : Bool :=
  m.plain == n.plain && m.sameQualifiers n

/-- The same plain name, and an unqualified side or a common qualifier. This is no equivalence:
`t.city` and `u.city` both agree with `city`. -/
def agrees (m n : ColumnName) : Bool :=
  m.plain == n.plain &&
    (m.qualifiers.isEmpty || n.qualifiers.isEmpty || m.qualifiers.any (n.qualifiers.contains ·))

/-- An unqualified name is looser than a qualified one with the same plain name. -/
def isLooserThan (m n : ColumnName) : Bool :=
  m.plain == n.plain && !m.isQualified && n.isQualified

/-- A qualified name is tighter than an unqualified one with the same plain name. -/
def isTighterThan (m n : ColumnName) : Bool :=
  n.isLooserThan m

/-- Whether a reference written as `m` may mean a column called `n`. -/
def denotes (m n : ColumnName) : Bool :=
  m.isLooserThan n || m.agrees n

/-- Puts a text into its place in a sorted list of texts. -/
def insertSorted (s : String) : List String → List String
  | [] => [s]
  | t :: ts => if s ≤ t then s :: t :: ts else t :: insertSorted s ts

/-- The texts of a list in the order of their code points. -/
def sorted (texts : List String) : List String :=
  texts.foldr insertSorted []

/-- The name with its qualifiers spelled out: `city`, `t.city` or `(t|towns.csv).city`. -/
def qualified (n : ColumnName) : String :=
  match n.qualifiers with
  | [] => n.plain
  | [q] => q ++ "." ++ n.plain
  | qs => "(" ++ String.intercalate "|" (sorted qs) ++ ")." ++ n.plain

/-- A name is spelled with characters of identifiers only. -/
theorem isIdentifierPart_of_mem_spelling (n : ColumnName) {c : Char}
    (hc : c ∈ n.spelling.toList) : isIdentifierPart c = true := by
  have h := n.isIdentifier_spelling
  unfold isIdentifier at h
  split at h
  · cases h
  · next d ds hname =>
    obtain ⟨hd, hds⟩ := Bool.and_eq_true_iff.1 h
    rw [hname] at hc
    rcases List.mem_cons.1 hc with rfl | hc
    · exact isIdentifierPart_of_isIdentifierStart hd
    · exact List.all_eq_true.1 hds c hc

/-! ### Laws of the four relations -/

@[simp]
theorem plain_within (n : ColumnName) (r : String) : (n.within r).plain = n.plain := rfl

@[simp]
theorem plain_unqualified (n : ColumnName) : n.unqualified.plain = n.plain := rfl

@[simp]
theorem plain_addQualifiers (n : ColumnName) (qs : List String) :
    (n.addQualifiers qs).plain = n.plain := rfl

theorem sameQualifiers_iff {m n : ColumnName} :
    m.sameQualifiers n = true ↔ ∀ q, q ∈ m.qualifiers ↔ q ∈ n.qualifiers := by
  simp only [sameQualifiers, Bool.and_eq_true, List.all_eq_true, List.contains_iff_mem]
  exact ⟨fun h q => ⟨h.1 q, h.2 q⟩, fun h => ⟨fun q => (h q).1, fun q => (h q).2⟩⟩

theorem identical_iff {m n : ColumnName} :
    m.identical n = true ↔
      m.plain = n.plain ∧ ∀ q, q ∈ m.qualifiers ↔ q ∈ n.qualifiers := by
  simp [identical, sameQualifiers_iff]

@[simp]
theorem identical_refl (n : ColumnName) : n.identical n = true := by
  simp [identical_iff]

theorem identical_comm (m n : ColumnName) : m.identical n = n.identical m := by
  rw [Bool.eq_iff_iff, identical_iff, identical_iff]
  exact ⟨fun h => ⟨h.1.symm, fun q => (h.2 q).symm⟩, fun h => ⟨h.1.symm, fun q => (h.2 q).symm⟩⟩

theorem identical_trans {l m n : ColumnName} (h : l.identical m = true)
    (h' : m.identical n = true) : l.identical n = true := by
  rw [identical_iff] at *
  exact ⟨h.1.trans h'.1, fun q => (h.2 q).trans (h'.2 q)⟩

/-- Names agree if they are the same in lower case and one is not qualified or they share a
qualifier. -/
theorem agrees_iff {m n : ColumnName} :
    m.agrees n = true ↔ m.plain = n.plain ∧
      (m.qualifiers = [] ∨ n.qualifiers = [] ∨ ∃ q ∈ m.qualifiers, q ∈ n.qualifiers) := by
  simp [agrees, or_assoc]

theorem agrees_comm (m n : ColumnName) : m.agrees n = n.agrees m := by
  rw [Bool.eq_iff_iff, agrees_iff, agrees_iff]
  constructor <;>
  · rintro ⟨h, h' | h' | ⟨q, hm, hn⟩⟩
    · exact ⟨h.symm, .inr (.inl h')⟩
    · exact ⟨h.symm, .inl h'⟩
    · exact ⟨h.symm, .inr (.inr ⟨q, hn, hm⟩)⟩

/-- A looser name agrees with what it is looser than, so agreement alone decides. -/
theorem denotes_eq_agrees (m n : ColumnName) : m.denotes n = m.agrees n := by
  rw [Bool.eq_iff_iff]
  simp only [denotes, Bool.or_eq_true, or_iff_right_iff_imp, agrees_iff]
  simp only [isLooserThan, isQualified, Bool.and_eq_true, beq_iff_eq, Bool.not_not,
    List.isEmpty_iff]
  exact fun h => ⟨h.1.1, .inl h.1.2⟩

end ColumnName

end ShellQuery
