import ShellQuery.Proofs.Awk.Quoting
import ShellQuery.Proofs.Query.JoinTree
import ShellQuery.Proofs.Shell.Expansion

/-!
# The header line that a plan prints

A plan begins with an `echo` of the header line between double quotes. The labels in it are
identifiers, so it is the delimiter alone that can mean something to the shell there, and of the
delimiters that the command line takes only the dollar sign and the backquote do: behind each of
them stands the next label, which is read as the name of a variable or as a command
(`exists_headerLine_eq`).

The main statement is `expand_header_iff`: the header line is printed as it is in every environment
exactly when the delimiter is neither of the two, or does not occur because there is one column
only.
-/

namespace ShellQuery

/-! ### Labels -/

theorem notMem_special_of_mem_header {c : Column} {x : Char} (h : x ∈ c.header.toList) :
    x ∉ Shell.special := by
  intro hx
  have hspecial : Shell.special.any isIdentifierPart = false := rfl
  exact List.any_eq_false.1 hspecial x hx (c.label.isIdentifierPart_of_mem_spelling h)

theorem exists_header_eq_cons (c : Column) :
    ∃ x xs, c.header.toList = x :: xs ∧ isIdentifierStart x = true := by
  have h := c.label.isIdentifier_spelling
  unfold isIdentifier at h
  split at h
  · cases h
  · next x xs hcons => exact ⟨x, xs, hcons, (Bool.and_eq_true_iff.1 h).1⟩

theorem head?_intercalate_cons {s : String} {x : Char} {xs : List Char} (h : s.toList = x :: xs)
    (sep : String) (parts : List String) :
    (sep.intercalate (s :: parts)).toList.head? = some x := by
  cases parts with
  | nil => rw [String.intercalate_singleton, h, List.head?_cons]
  | cons t parts =>
    rw [String.intercalate_cons_cons, String.toList_append, String.toList_append, h]
    rfl

namespace Table

variable {t : Table}

/-! ### The header line -/

/-- Only the delimiter brings a special character into the header line. -/
theorem notMem_special_of_mem_headerLine {x : Char} (h : x ∈ t.headerLine.toList)
    (hx : x ≠ t.delimiter) : x ∉ Shell.special := by
  rw [headerLine, mem_intercalate_iff (by simpa using hx)] at h
  obtain ⟨label, hlabel, hmem⟩ := h
  obtain ⟨c, -, rfl⟩ := List.mem_map.1 hlabel
  exact notMem_special_of_mem_header hmem

theorem notMem_special_of_length_le_one (h : t.columns.length ≤ 1) :
    ∀ x ∈ t.headerLine.toList, x ∉ Shell.special := by
  intro x hx
  rw [headerLine] at hx
  match hcolumns : t.columns with
  | [] =>
    rw [hcolumns] at hx
    cases hx
  | [c] =>
    rw [hcolumns, List.map_singleton, String.intercalate_singleton] at hx
    exact notMem_special_of_mem_header hx
  | _ :: _ :: _ => simp [hcolumns] at h

/-- In the header line of two columns or more, another label stands behind the first delimiter. -/
theorem exists_headerLine_eq (h : 2 ≤ t.columns.length) : ∃ (c : Column) (rest : List Char),
    t.headerLine.toList = c.header.toList ++ t.delimiter :: rest ∧
      rest.head?.any isIdentifierStart = true := by
  -- behind the first label and the delimiter stands the second label, which begins like an
  -- identifier
  match hcolumns : t.columns with
  | [] => simp [hcolumns] at h
  | [_] => simp [hcolumns] at h
  | c :: d :: cs =>
    let sep := String.ofList [t.delimiter]
    refine ⟨c, (sep.intercalate (d.header :: cs.map Column.header)).toList, ?_, ?_⟩
    · rw [headerLine, hcolumns, List.map_cons, List.map_cons, String.intercalate_cons_cons,
        String.toList_append, String.toList_append, String.toList_ofList, List.append_assoc]
      rfl
    · obtain ⟨x, xs, hd, hx⟩ := exists_header_eq_cons d
      rw [head?_intercalate_cons hd]
      exact hx

/-- The header line is printed as it is exactly when its delimiter means nothing there or there is
none in it. -/
theorem expand_headerLine_iff (hquote : t.delimiter ≠ '"') (hbackslash : t.delimiter ≠ '\\')
    (rest : List Char) :
    (∀ env, ∃ rest', Shell.expand env (t.headerLine.toList ++ '"' :: rest) =
        some (t.headerLine.toList, rest')) ↔
      t.delimiter ≠ '$' ∧ t.delimiter ≠ '\x60' ∨ t.columns.length ≤ 1 := by
  constructor
  · intro h
    by_contra hnot
    rw [not_or, Nat.not_le, not_and_or, not_not, not_not] at hnot
    obtain ⟨hdelimiter, hcolumns⟩ := hnot
    obtain ⟨c, labels, hline, hhead⟩ := exists_headerLine_eq hcolumns
    -- a dollar in front of a label names a variable; a backquote begins a command whatever follows
    have hsubstitutes : Shell.Substitutes t.delimiter (labels ++ '"' :: rest) := by
      rcases hdelimiter with hdelimiter | hdelimiter
      · refine .inr ⟨hdelimiter, ?_⟩
        cases labels with
        | nil => cases hhead
        | cons => exact hhead
      · exact .inl hdelimiter
    have hlabel : ∀ x ∈ c.header.toList, x ∉ Shell.special :=
      fun x hx => notMem_special_of_mem_header hx
    refine Shell.not_forall_expand_eq hlabel hsubstitutes t.headerLine.toList ?_
    intro env
    obtain ⟨rest', hrest⟩ := h env
    refine ⟨rest', ?_⟩
    rw [← hrest, hline, List.append_assoc, List.cons_append]
  · intro h env
    refine ⟨rest, Shell.expand_append_quote ?_ env rest⟩
    rcases h with ⟨hdollar, hbackquote⟩ | hcolumns
    · intro x hx
      by_cases hdelimiter : x = t.delimiter
      · simp [Shell.special, hdelimiter, hdollar, hbackquote, hquote, hbackslash]
      · exact notMem_special_of_mem_headerLine hx hdelimiter
    · exact notMem_special_of_length_le_one hcolumns

theorem render_true (t : Table) : (t.render true).toList =
    "echo \"".toList ++ (t.headerLine.toList ++ '"' :: ("; " ++ t.pipeline).toList) := by
  rw [render, if_pos rfl]
  simp

end Table

namespace Query

variable {s : Statement} {config : Config} {catalog : Catalog}

/-- The word behind `echo` is the labels of the columns, parted by the delimiter, in every
environment exactly when the delimiter is neither `$` nor a backquote or there is one column
only. -/
theorem expand_header_iff {t : Table} {text : List Char} (ht : table s config catalog = .ok t)
    (hd : Cli.delimiterOfText? text = some config.delimiter) :
    ∃ quoted, (t.render true).toList = "echo \"".toList ++ quoted ∧
      ((∀ env, ∃ rest, Shell.expand env quoted =
          some ((String.intercalate (String.ofList [config.delimiter])
            (t.columns.map Column.header)).toList, rest)) ↔
        config.delimiter ≠ '$' ∧ config.delimiter ≠ '\x60' ∨ t.columns.length ≤ 1) := by
  obtain ⟨p, hfinish⟩ := table_ok_iff.1 ht
  have hdelimiter : t.delimiter = config.delimiter :=
    (leftDeep_of_finish p.leftDeep_joined hfinish).delimiter_eq
  have hrefused := Cli.notMem_of_delimiterOfText? hd
  simp only [List.mem_cons, List.not_mem_nil, or_false, not_or] at hrefused
  rw [← hdelimiter] at hrefused ⊢
  exact ⟨_, t.render_true, Table.expand_headerLine_iff hrefused.2.2.1 hrefused.2.2.2 _⟩

/-- Two columns of one file. -/
def townsArea : Statement where
  columns := ["name", "area"]
  relations := [⟨"towns.txt", none⟩]
  conditions := []
  sample := none

def townsAreaCatalog : Catalog :=
  .ofList [("towns.txt", ["name", "area"])]

theorem exists_table_townsArea (d : Char) : ∃ t,
    table townsArea { delimiter := d } townsAreaCatalog = .ok t ∧ t.delimiter = d ∧
      t.columns.map Column.header = ["name", "area"] :=
  ⟨_, rfl, rfl, rfl⟩

/-- A semicolon means nothing between double quotes. -/
theorem expand_header_semicolon : ∃ t quoted,
    table townsArea { delimiter := ';' } townsAreaCatalog = .ok t ∧
    Cli.delimiterOfText? [';'] = some ';' ∧
    (t.render true).toList = "echo \"".toList ++ quoted ∧
    ∀ env, ∃ rest, Shell.expand env quoted = some ("name;area".toList, rest) := by
  obtain ⟨t, ht, -, hlabels⟩ := exists_table_townsArea ';'
  have hd : Cli.delimiterOfText? [';'] = some ';' := by decide
  obtain ⟨quoted, hquoted, hiff⟩ := expand_header_iff ht hd
  rw [hlabels] at hiff
  exact ⟨t, quoted, ht, hd, hquoted, hiff.2 (.inl (by decide))⟩

/-- With the dollar sign as the delimiter, every label but the first is taken for a variable: its
value is printed in the place of the delimiter and the label. -/
theorem expand_header_dollar : ∃ t quoted,
    table townsArea { delimiter := '$' } townsAreaCatalog = .ok t ∧
    Cli.delimiterOfText? ['$'] = some '$' ∧
    (t.render true).toList = "echo \"".toList ++ quoted ∧
    String.intercalate (String.ofList ['$']) (t.columns.map Column.header) = "name$area" ∧
    (∀ env, ∃ rest, Shell.expand env quoted =
      some ("name".toList ++ env.value "area".toList, rest)) ∧
    ∃ env, ∀ rest, Shell.expand env quoted ≠ some ("name$area".toList, rest) := by
  obtain ⟨t, ht, hdelimiter, hlabels⟩ := exists_table_townsArea '$'
  have hline : String.intercalate (String.ofList ['$']) (t.columns.map Column.header) =
      "name$area" := by
    rw [hlabels]
    rfl
  have hexpand : ∀ env rest, Shell.expand env (t.headerLine.toList ++ '"' :: rest) =
      some ("name".toList ++ env.value "area".toList, rest) := by
    intro env rest
    -- the second label is taken for the name of a variable
    have hpiece : Shell.piece? env '$' ("area".toList ++ '"' :: rest) =
        some (env.value "area".toList, '"' :: rest) := rfl
    rw [Table.headerLine, hdelimiter, hline]
    show Shell.expand env ("name".toList ++ '$' :: ("area".toList ++ '"' :: rest)) = _
    rw [Shell.expand_append (by simp [Shell.special]), Shell.expand_cons (by decide), hpiece,
      Option.bind_some, Shell.expand_quote]
    simp [Shell.prepend]
  refine ⟨t, _, ht, by decide, t.render_true, hline, fun env => ⟨_, hexpand env _⟩, ?_⟩
  refine ⟨.constant [], fun rest h => ?_⟩
  rw [hexpand] at h
  have hword : "name".toList ++ [] = "name$area".toList := congrArg Prod.fst (Option.some.inj h)
  exact absurd hword (by decide)

end Query

end ShellQuery
