import ShellQuery.Cli.Options
import ShellQuery.Proofs.Condition
import ShellQuery.Proofs.Formula.Cnf
import ShellQuery.Proofs.Shell.Words
import ShellQuery.Proofs.Table.Resolution

/-!
# Quotes in a filter step

The program of a filter step stands between single quotes on the command line. A single quote inside
of it would end it early, and only a literal of the condition can bring one in: a literal that is
neither free of single quotes nor itself a string between single quotes (`Sealed`).

* `mem_conjunctionText_iff`: the condition of a filter step has a single quote in it exactly when
  some literal is not sealed;
* `filterRows_words_iff`: exactly when all literals are sealed the shell reads the step as one `awk`
  command with a delimiter and a program.
-/

namespace ShellQuery

/-! ### Literals -/

namespace Awk

/-- The literal has no single quote in it, or it is a string between single quotes. -/
def Sealed (text : String) : Prop :=
  '\'' ∉ text.toList ∨ (stringBody? text.toList).isSome = true

instance (text : String) : Decidable (Sealed text) :=
  inferInstanceAs (Decidable (_ ∨ _))

/-- Within an awk string no character is written with a quote. -/
theorem notMem_stringChar (c : Char) : '\'' ∉ stringChar c := by
  unfold stringChar
  split
  · decide
  · split
    · decide
    · split
      · decide
      · next hc => exact fun h => hc (List.mem_singleton.1 h).symm

/-- A literal brings a single quote into the program exactly when it is not sealed. -/
theorem mem_literal_iff (text : String) : '\'' ∈ (literal text).toList ↔ ¬Sealed text := by
  unfold literal Sealed
  cases hbody : stringBody? text.toList with
  | some body =>
    have hnot : '\'' ∉ (string (Text.undouble '\'' body)).toList := by
      rw [string, String.toList_ofList]
      simp [notMem_stringChar]
    simp [hnot]
  | none => simp

/-- A single quote or a line end: only a literal can bring one into the condition of a program. -/
def Foreign (x : Char) : Prop :=
  x = '\'' ∨ x = '\n'

theorem Foreign.notMem_fieldRef {x : Char} (hx : Foreign x) (p : Nat) : x ∉ (fieldRef p).toList := by
  have hmark : x ∉ "$".toList := by rcases hx with rfl | rfl <;> decide
  have hdigit : x.isDigit = false := by rcases hx with rfl | rfl <;> rfl
  rw [fieldRef, String.toList_append, List.mem_append, not_or]
  refine ⟨hmark, fun h => ?_⟩
  have hmem : x ∈ Nat.toDigits 10 (p + 1) := by simpa using h
  exact absurd (Nat.isDigit_of_mem_toDigits (by decide) (by decide) hmem) (by simp [hdigit])

end Awk

/-! ### Texts -/

/-- A character stands in a text that is put together from parts exactly when it stands in a part,
unless it stands in what is put between them. -/
theorem mem_intercalate_iff {x : Char} {sep : String} (hsep : x ∉ sep.toList)
    {parts : List String} : x ∈ (sep.intercalate parts).toList ↔ ∃ s ∈ parts, x ∈ s.toList := by
  induction parts with
  | nil => simp
  | cons s parts ih =>
    cases parts with
    | nil => simp
    | cons t parts =>
      rw [String.intercalate_cons_cons, String.toList_append, String.toList_append,
        List.mem_append, List.mem_append, ih, or_iff_left hsep]
      simp only [List.mem_cons, exists_eq_or_imp]

/-- A character stands in the text of a formula exactly when it stands in that of an atom, unless it
belongs to the wording. -/
theorem Formula.mem_text_iff {α : Type} {w : Wording α} {x : Char} (hopen : x ∉ "(".toList)
    (hclose : x ∉ ")".toList) (hand : x ∉ w.conjunction.toList) (hor : x ∉ w.disjunction.toList)
    (p : Formula α) : x ∈ (text w p).toList ↔ ∃ a ∈ p.atoms, x ∈ (w.atom a).toList := by
  -- conjunctions and disjunctions differ in what stands between their parts only
  have hparts : ∀ (sep : String) (ps : List (Formula α)), x ∉ sep.toList →
      (∀ p ∈ ps, x ∈ (text w p).toList ↔ ∃ a ∈ p.atoms, x ∈ (w.atom a).toList) →
      (x ∈ ("(" ++ sep.intercalate (textList w ps) ++ ")").toList ↔
        ∃ a ∈ ps.flatMap atoms, x ∈ (w.atom a).toList) := by
    intro sep ps hsep ih
    rw [String.toList_append, String.toList_append, List.mem_append, List.mem_append,
      or_iff_left hclose, or_iff_right hopen, mem_intercalate_iff hsep, textList_eq]
    constructor
    · rintro ⟨s, hs, hx⟩
      obtain ⟨p, hp, rfl⟩ := List.mem_map.1 hs
      obtain ⟨a, ha, hx⟩ := (ih p hp).1 hx
      exact ⟨a, List.mem_flatMap.2 ⟨p, hp, ha⟩, hx⟩
    · rintro ⟨a, ha, hx⟩
      obtain ⟨p, hp, ha⟩ := List.mem_flatMap.1 ha
      exact ⟨_, List.mem_map_of_mem hp, (ih p hp).2 ⟨a, ha, hx⟩⟩
  induction p using Formula.inductionOn with
  | atom a => simp [text]
  | all ps ih =>
    rw [text, atoms_all]
    exact hparts _ ps hand ih
  | any ps ih =>
    rw [text, atoms_any]
    exact hparts _ ps hor ih

namespace Awk

theorem notMem_fieldList (positions : List Nat) : '\'' ∉ (Step.fieldList positions).toList := by
  rw [Step.fieldList, mem_intercalate_iff (by decide)]
  rintro ⟨s, hs, hmem⟩
  obtain ⟨p, -, rfl⟩ := List.mem_map.1 hs
  exact Foreign.notMem_fieldRef (.inl rfl) p hmem

end Awk

/-! ### The literals of a condition -/

/-- The text of an operand that is a literal. -/
def Operand.literal? : Operand → Option String
  | column _ => none
  | literal text => some text

/-- The literals that a comparison compares with, from left to right. -/
def Comparison.literals (c : Comparison) : List String :=
  c.left.literal?.toList ++ c.right.literal?.toList

/-- The literals of a condition, from left to right. -/
def Condition.literals (c : Condition) : List String :=
  (Formula.atoms c).flatMap Comparison.literals

theorem Comparison.mem_literals_iff {c : Comparison} {l : String} :
    l ∈ c.literals ↔ c.left = .literal l ∨ c.right = .literal l := by
  obtain ⟨x, o, y⟩ := c
  cases x <;> cases y <;> simp [literals, Operand.literal?, eq_comm]

theorem Comparison.literals_eq_of_beq {c d : Comparison} (h : (c == d) = true) :
    c.literals = d.literals := by
  have hside : ∀ {x y : Operand}, (x == y) = true → x.literal? = y.literal? :=
    fun hxy => Operand.congr_of_beq hxy fun _ => rfl
  obtain ⟨hl, -, hr⟩ := Comparison.beq_iff.1 h
  rw [literals, literals, hside hl, hside hr]

namespace Condition

theorem mem_literals_iff {c : Condition} {l : String} :
    l ∈ c.literals ↔ ∃ a ∈ Formula.atoms c, l ∈ a.literals :=
  List.mem_flatMap

/-- The conjuncts of the normal form have the literals of the condition, and no others. -/
theorem exists_mem_cnf_literals_iff {c : Condition} (hc : Formula.Solid c) {l : String} :
    (∃ d ∈ c.cnf, l ∈ d.literals) ↔ l ∈ c.literals := by
  simp only [mem_literals_iff]
  constructor
  · rintro ⟨d, hd, a, ha, hl⟩
    exact ⟨a, mem_atoms_of_mem_cnf hd ha, hl⟩
  · rintro ⟨a, ha, hl⟩
    obtain ⟨d, hd, b, hb, hab⟩ := exists_mem_cnf_of_mem_atoms hc ha
    exact ⟨d, hd, b, hb, Comparison.literals_eq_of_beq hab ▸ hl⟩

end Condition

/-! ### The condition of a filter step -/

namespace Awk

variable {ε : Type} {position : ColumnName → Except ε Nat} {x : Char}

theorem Foreign.notMem_symbol (hx : Foreign x) (o : Operator) : x ∉ o.symbol.toList := by
  rcases hx with rfl | rfl <;> cases o <;> decide

/-- A foreign character in an operand comes from its literal. -/
theorem Foreign.mem_operandText_iff (hx : Foreign x) {y : Operand} {z : FieldOperand}
    (h : Condition.resolveOperand position y = .ok z) :
    x ∈ z.text.toList ↔ ∃ l, y = .literal l ∧ x ∈ (literal l).toList := by
  cases y with
  | column n =>
    obtain ⟨p, -, rfl⟩ := map_ok_iff.1 h
    simp [FieldOperand.text, hx.notMem_fieldRef]
  | literal l =>
    obtain rfl := Except.ok.inj h
    simp [FieldOperand.text]

/-- A foreign character in a comparison comes from one of its literals. -/
theorem Foreign.mem_fieldTestText_iff (hx : Foreign x) {c : Comparison} {test : FieldTest}
    (h : Condition.resolveComparison position c = .ok test) :
    x ∈ test.text.toList ↔ ∃ l ∈ c.literals, x ∈ (literal l).toList := by
  obtain ⟨y, z, hy, hz, rfl⟩ := Condition.resolveComparison_ok_iff.1 h
  have hblank : x ∉ " ".toList := by rcases hx with rfl | rfl <;> decide
  simp only [FieldTest.text, String.toList_append, List.mem_append, or_false, hblank,
    hx.notMem_symbol, hx.mem_operandText_iff hy, hx.mem_operandText_iff hz,
    Comparison.mem_literals_iff, or_and_right, exists_or]

/-- Only a literal brings a quote or a line end into the text of a condition. -/
theorem Foreign.mem_text_iff (hx : Foreign x) {c : Condition} {test : RowTest}
    (h : Condition.resolve position c = .ok test) :
    x ∈ test.text.toList ↔ ∃ l ∈ c.literals, x ∈ (literal l).toList := by
  have hopen : x ∉ "(".toList := by rcases hx with rfl | rfl <;> decide
  have hclose : x ∉ ")".toList := by rcases hx with rfl | rfl <;> decide
  have hand : x ∉ wording.conjunction.toList := by rcases hx with rfl | rfl <;> decide
  have hor : x ∉ wording.disjunction.toList := by rcases hx with rfl | rfl <;> decide
  -- what is written around the comparisons has no foreign character
  have hatoms := Formula.forall₂_atoms_of_mapM h
  rw [RowTest.text, Formula.mem_text_iff hopen hclose hand hor]
  rw [Condition.literals]
  generalize Formula.atoms c = as at hatoms
  generalize Formula.atoms test = bs at hatoms
  induction hatoms with
  | nil => simp
  | cons hab _ ih =>
    simp only [List.mem_cons, List.flatMap_cons, List.mem_append, or_and_right, exists_or,
      exists_eq_left, ih]
    rw [show wording.atom = FieldTest.text from rfl, hx.mem_fieldTestText_iff hab]

/-- A foreign character in the tests of some conditions comes from one of their literals. -/
theorem Foreign.mem_conjunctionText_iff (hx : Foreign x) {cs : List Condition}
    {tests : List RowTest}
    (h : List.Forall₂ (fun c test => Condition.resolve position c = .ok test) cs tests) :
    x ∈ (RowTest.conjunctionText tests).toList ↔
      ∃ c ∈ cs, ∃ l ∈ c.literals, x ∈ (literal l).toList := by
  have hand : x ∉ wording.conjunction.toList := by rcases hx with rfl | rfl <;> decide
  rw [RowTest.conjunctionText, mem_intercalate_iff hand]
  induction h with
  | nil => simp
  | cons hab _ ih =>
    simp only [List.map_cons, List.mem_cons, exists_eq_or_imp, ih, hx.mem_text_iff hab]

/-- The condition of a filter step has a single quote in it exactly when some literal is not
sealed. -/
theorem mem_conjunctionText_iff {cs : List Condition} {tests : List RowTest}
    (h : List.Forall₂ (fun c test => Condition.resolve position c = .ok test) cs tests) :
    '\'' ∈ (RowTest.conjunctionText tests).toList ↔
      ∃ c ∈ cs, ∃ l ∈ c.literals, ¬Sealed l := by
  simp only [Foreign.mem_conjunctionText_iff (.inl rfl) h, mem_literal_iff]

end Awk

/-! ### The command of a filter step -/

namespace Step

/-- The program of a filter step. -/
def filterProgram (d : Char) (tests : List Awk.RowTest) (positions : List Nat) : String :=
  "OFS=\"" ++ String.ofList [d] ++ "\" \x7b if (" ++ Awk.RowTest.conjunctionText tests ++
    ") \x7b print " ++ fieldList positions ++ " \x7d \x7d"

/-- A filter is awk with the delimiter and the program, both between single quotes. -/
theorem text_filter (d : Char) (tests : List Awk.RowTest) (positions : List Nat) :
    (filter tests positions).text d =
      "awk -F'" ++ String.ofList [d] ++ "' '" ++ filterProgram d tests positions ++ "'" := by
  show awkWith (String.ofList [d]) ++ "\x7b if (" ++ Awk.RowTest.conjunctionText tests ++
    ") \x7b print " ++ fieldList positions ++ " \x7d \x7d'" = _
  apply String.ext
  simp [awkWith, filterProgram]

/-- The delimiter has no single quote in it, so the program has one exactly when its condition
does. -/
theorem mem_filterProgram_iff {d : Char} (hd : d ≠ '\'') (tests : List Awk.RowTest)
    (positions : List Nat) : '\'' ∈ (filterProgram d tests positions).toList ↔
      '\'' ∈ (Awk.RowTest.conjunctionText tests).toList := by
  have hopen : '\'' ∉ "OFS=\"".toList := by decide
  have hif : '\'' ∉ "\" \x7b if (".toList := by decide
  have hprint : '\'' ∉ ") \x7b print ".toList := by decide
  have hclose : '\'' ∉ " \x7d \x7d".toList := by decide
  have hdelimiter : '\'' ∉ (String.ofList [d]).toList := by simpa using hd.symm
  simp only [filterProgram, String.toList_append, List.mem_append, hopen, hif, hprint, hclose,
    hdelimiter, Awk.notMem_fieldList, or_false, false_or]

end Step

namespace Shell

/-- The shell reads an `awk` command back exactly when its program has no single quote in it. -/
theorem words_awk_iff {d : Char} (hd : d ≠ '\'') (program : String) :
    words ("awk -F'" ++ String.ofList [d] ++ "' '" ++ program ++ "'") =
      some ["awk", "-F" ++ String.ofList [d], program] ↔ '\'' ∉ program.toList := by
  -- the two words before the program are read in any case
  have hscan : scan .plain none
      ("awk -F'" ++ String.ofList [d] ++ "' '" ++ program ++ "'").toList =
      (scan .single (some []) (program.toList ++ ['\''])).map
        (["awk".toList, ['-', 'F', d]] ++ ·) := by
    have hline : ("awk -F'" ++ String.ofList [d] ++ "' '" ++ program ++ "'").toList =
        'a' :: 'w' :: 'k' :: ' ' :: '-' :: 'F' :: '\'' :: ([d] ++ '\'' :: ' ' :: '\'' ::
          (program.toList ++ ['\''])) := by
      simp
    rw [hline, scan_safe (by decide), scan_safe (by decide), scan_safe (by decide), scan_blank,
      scan_safe (by decide), scan_safe (by decide), scan_quote,
      scan_single (by simpa using hd.symm), scan_blank, scan_quote, Option.map_map]
    rfl
  rw [words, hscan, ← scan_quoted_iff]
  cases scan .single (some []) (program.toList ++ ['\'']) with
  | none => simp
  | some ws =>
    have hdelimiter : String.ofList ['-', 'F', d] = "-F" ++ String.ofList [d] :=
      String.ext (by simp)
    simp only [Option.map_some, Option.some_inj, List.map_cons, String.ofList_toList, hdelimiter,
      List.cons_append, List.nil_append, List.cons.injEq, true_and, List.map_eq_singleton_iff]
    constructor
    · rintro ⟨w, rfl, rfl⟩
      rw [String.toList_ofList]
    · rintro rfl
      exact ⟨_, rfl, String.ofList_toList⟩

end Shell

/-! ### Filtering by a condition -/

/-- The characters that no delimiter is: the line end, the quotes and the backslash. -/
theorem Cli.notMem_of_delimiterOfText? {text : List Char} {d : Char}
    (h : delimiterOfText? text = some d) : d ∉ ['\n', '\'', '"', '\\'] := by
  unfold delimiterOfText? at h
  split at h
  · rw [← Option.some.inj h]
    decide
  · split at h
    · split at h
      · cases h
      · next hc =>
        obtain rfl := Option.some.inj h
        simpa using hc
    · cases h

theorem Cli.ne_quote_of_delimiterOfText? {text : List Char} {d : Char}
    (h : delimiterOfText? text = some d) : d ≠ '\'' := by
  rintro rfl
  exact notMem_of_delimiterOfText? h (by decide)

namespace Condition

/-- The literals of a condition decide whether the filter step it becomes is read as it is meant:
its condition is free of single quotes, and the step is one `awk` command with a delimiter and a
program, exactly when every literal is sealed. -/
theorem filterRows_words_iff {terms : List Term} {c : Condition} {cs : List Condition}
    {t t' : Table} {text : List Char} {d : Char} (hc : ofTerms terms = .ok (some c))
    (hcs : conjuncts (Formula.toCnf c) = .ok cs) (ht : t.filterRows cs = .ok t')
    (hd : Cli.delimiterOfText? text = some d) :
    ∃ tests positions, t'.steps = t.steps ++ [.filter tests positions] ∧
      ('\'' ∉ (Awk.RowTest.conjunctionText tests).toList ↔ ∀ l ∈ c.literals, Awk.Sealed l) ∧
      (Shell.words ((Step.filter tests positions).text d) =
          some ["awk", "-F" ++ String.ofList [d], Step.filterProgram d tests positions] ↔
        ∀ l ∈ c.literals, Awk.Sealed l) := by
  have hsolid := solid_of_ofTerms hc
  obtain rfl := Except.ok.inj ((conjuncts_toCnf c).symm.trans hcs)
  obtain ⟨tests, htests, rfl⟩ := Table.filterRows_ok_iff.1 ht
  have hquote : '\'' ∉ (Awk.RowTest.conjunctionText tests).toList ↔
      ∀ l ∈ c.literals, Awk.Sealed l := by
    rw [Awk.mem_conjunctionText_iff htests]
    constructor
    · intro h l hl
      obtain ⟨e, he, hl⟩ := (exists_mem_cnf_literals_iff hsolid).2 hl
      exact not_not.1 fun hsealed => h ⟨e, he, l, hl, hsealed⟩
    · rintro h ⟨e, he, l, hl, hsealed⟩
      exact hsealed (h l ((exists_mem_cnf_literals_iff hsolid).1 ⟨e, he, hl⟩))
  -- a condition has a conjunct, so there is a step
  have hne : tests ≠ [] := by
    rintro rfl
    exact cnf_ne_nil hsolid (List.forall₂_nil_right_iff.1 htests)
  refine ⟨tests, List.range t.columns.length, ?_, hquote, ?_⟩
  · rw [Table.filterBy, if_neg (by simpa using hne)]
    rfl
  · have hd' : d ≠ '\'' := Cli.ne_quote_of_delimiterOfText? hd
    rw [Step.text_filter, Shell.words_awk_iff hd', Step.mem_filterProgram_iff hd', hquote]

/-- A string between single quotes is sealed, whatever it says, and so is a numeral. -/
theorem filterRows_sealed : ∃ c t t' tests positions,
    ofTerms [.comparison "x" "=" "'it''s'", .or, .comparison "x" "<" "5"] = .ok (some c) ∧
    Table.ofFile "a.txt" none ',' (.ofList [("a.txt", ["x"])]) = .ok t ∧
    t.filterRows c.cnf = .ok t' ∧ Cli.delimiterOfText? [';'] = some ';' ∧
    t'.steps = t.steps ++ [.filter tests positions] ∧
    '\'' ∉ (Awk.RowTest.conjunctionText tests).toList ∧
    Shell.words ((Step.filter tests positions).text ';') =
      some ["awk", "-F;", Step.filterProgram ';' tests positions] := by
  have hd : Cli.delimiterOfText? [';'] = some ';' := by decide
  have hsealed : ∀ l ∈ ["'it''s'", "5"], Awk.Sealed l := by decide
  -- what the literals are is computed once; that they are sealed decides both parts
  obtain ⟨c, t, t', hc, ht, hfilter, hliterals⟩ : ∃ c t t',
      ofTerms [.comparison "x" "=" "'it''s'", .or, .comparison "x" "<" "5"] = .ok (some c) ∧
      Table.ofFile "a.txt" none ',' (.ofList [("a.txt", ["x"])]) = .ok t ∧
      t.filterRows c.cnf = .ok t' ∧ c.literals = ["'it''s'", "5"] :=
    ⟨_, _, _, rfl, rfl, rfl, rfl⟩
  obtain ⟨tests, positions, hsteps, hquote, hwords⟩ :=
    filterRows_words_iff hc (conjuncts_toCnf c) hfilter hd
  rw [hliterals] at hquote hwords
  exact ⟨c, t, t', tests, positions, hc, ht, hfilter, hd, hsteps, hquote.2 hsealed,
    hwords.2 hsealed⟩

/-- A name that is no identifier is a literal, and nothing is done about a single quote in it: the
program ends there, and the quote that was to end it opens another text. -/
theorem filterRows_unsealed : ∃ c t t' tests positions,
    ofTerms [.comparison "it's" "=" "x"] = .ok (some c) ∧
    Table.ofFile "a.txt" none ',' (.ofList [("a.txt", ["x"])]) = .ok t ∧
    t.filterRows c.cnf = .ok t' ∧ Cli.delimiterOfText? [','] = some ',' ∧
    t'.steps = t.steps ++ [.filter tests positions] ∧
    '\'' ∈ (Awk.RowTest.conjunctionText tests).toList ∧
    Shell.words ((Step.filter tests positions).text ',') = none :=
  ⟨_, _, _, [.atom (.compare (.constant "it's") .eq (.field 0))], [0], rfl, rfl, rfl, by decide,
    rfl, by decide, by decide +kernel⟩

end Condition

end ShellQuery
