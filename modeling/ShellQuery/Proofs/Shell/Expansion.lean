import Mathlib.Data.List.Basic
import ShellQuery.Column.Name

/-!
# What the shell makes of a text between double quotes

Between double quotes four characters mean more than themselves. A double quote ends the text; `$`
in front of a name stands for the value of a variable; backquotes enclose a command and stand for
what it prints; a backslash takes the meaning from one of the four, joins two lines in front of a
line end, and is an ordinary character in front of all others.

`expand` reads the text behind an opening quote by these rules, given what the variables hold and
what the commands print. The other expansions that begin with `$`, of positional and special
parameters and of brackets, are not read.

A text without any of the four characters stands for itself (`expand_append_quote`). A text in which
a variable or a command comes first stands for no one text in all environments
(`not_forall_expand_eq`).
-/

namespace ShellQuery.Shell

/-- What the shell puts in the place of variables and commands. -/
structure Environment where
  /-- The value of a variable. -/
  value : List Char → List Char
  /-- What a command prints, without the line ends behind it. -/
  output : List Char → List Char

/-- The characters with a meaning between double quotes: dollar sign, backquote, double quote and
backslash. -/
def special : List Char :=
  ['$', '\x60', '"', '\\']

/-- A character behind `$` that begins another expansion than that of a variable. -/
def beginsParameter (c : Char) : Bool :=
  c.isDigit || ['{', '(', '[', '@', '*', '#', '?', '-', '$', '!'].contains c

/-- What a backslash and the character behind it stand for, and what follows. -/
def escape? : List Char → Option (List Char × List Char)
  | [] => none
  | c :: cs => some (if c = '\n' then [] else if c ∈ special then [c] else ['\\', c], cs)

/-- The text of a command up to its closing backquote, and what follows. A backslash and the
character behind it belong to the command. -/
def command? : List Char → Option (List Char × List Char)
  | [] => none
  | '\x60' :: rest => some ([], rest)
  | '\\' :: c :: rest => (command? rest).map fun r => ('\\' :: c :: r.1, r.2)
  | c :: rest => (command? rest).map fun r => (c :: r.1, r.2)

/-- What the first piece of the text `c :: cs` stands for, and what follows it. -/
def piece? (env : Environment) (c : Char) (cs : List Char) : Option (List Char × List Char) :=
  if c = '\\' then escape? cs
  else if c = '\x60' then (command? cs).map fun r => (env.output r.1, r.2)
  else if c = '$' ∧ cs.head?.any isIdentifierStart then
    some (env.value (cs.takeWhile isIdentifierPart), cs.dropWhile isIdentifierPart)
  else if c = '$' ∧ cs.head?.any beginsParameter then none
  else some ([c], cs)

/-! ### Every piece takes a character -/

/-- A command takes its closing backquote at least. -/
theorem length_lt_of_command? {cs command rest : List Char}
    (h : command? cs = some (command, rest)) : rest.length < cs.length := by
  -- along the reader; the rest of the text is the same with or without a backslash
  fun_induction command? cs generalizing command with
  | case1 => cases h
  | case2 rest' =>
    obtain ⟨-, rfl⟩ := Prod.mk.inj (Option.some.inj h)
    exact Nat.lt_succ_self _
  | case3 c cs ih =>
    obtain ⟨r, hr, hb⟩ := Option.map_eq_some_iff.1 h
    obtain ⟨-, rfl⟩ := Prod.mk.inj hb
    have := ih hr
    simp only [List.length_cons]
    omega
  | case4 c cs _ _ ih =>
    obtain ⟨r, hr, hb⟩ := Option.map_eq_some_iff.1 h
    obtain ⟨-, rfl⟩ := Prod.mk.inj hb
    have := ih hr
    simp only [List.length_cons]
    omega

/-- What follows a piece is no longer than what followed its first character. -/
theorem length_le_of_piece? {env : Environment} {c : Char} {cs text rest : List Char}
    (h : piece? env c cs = some (text, rest)) : rest.length ≤ cs.length := by
  unfold piece? at h
  split at h
  · unfold escape? at h
    split at h
    · cases h
    · obtain ⟨-, rfl⟩ := Prod.mk.inj (Option.some.inj h)
      exact Nat.le_succ _
  split at h
  · obtain ⟨r, hr, hb⟩ := Option.map_eq_some_iff.1 h
    obtain ⟨-, rfl⟩ := Prod.mk.inj hb
    exact Nat.le_of_lt (length_lt_of_command? hr)
  split at h
  · obtain ⟨-, rfl⟩ := Prod.mk.inj (Option.some.inj h)
    exact (cs.dropWhile_suffix isIdentifierPart).length_le
  split at h
  · cases h
  · obtain ⟨-, rfl⟩ := Prod.mk.inj (Option.some.inj h)
    exact Nat.le_refl _

/-! ### The whole text -/

/-- A result with more text in front. -/
def prepend (text : List Char) (r : List Char × List Char) : List Char × List Char :=
  (text ++ r.1, r.2)

/-- What the text behind a double quote stands for, and what follows the closing quote. -/
def expand (env : Environment) : List Char → Option (List Char × List Char)
  | [] => none
  | c :: cs =>
    if c = '"' then some ([], cs)
    else
      match _h : piece? env c cs with
      | none => none
      | some (text, rest) => (expand env rest).map (prepend text)
termination_by cs => cs.length
decreasing_by
  have := length_le_of_piece? _h
  simp only [List.length_cons]
  omega

variable {env : Environment} {c : Char} {cs rest text : List Char}

theorem expand_quote (env : Environment) (rest : List Char) :
    expand env ('"' :: rest) = some ([], rest) := by
  rw [expand, if_pos rfl]

theorem expand_cons (h : c ≠ '"') (env : Environment) (cs : List Char) :
    expand env (c :: cs) =
      (piece? env c cs).bind fun r => (expand env r.2).map (prepend r.1) := by
  rw [expand, if_neg h]
  split
  · next hpiece => rw [hpiece, Option.bind_none]
  · next hpiece => rw [hpiece, Option.bind_some]

theorem piece?_of_notMem_special (h : c ∉ special) (env : Environment) (cs : List Char) :
    piece? env c cs = some ([c], cs) := by
  simp only [special, List.mem_cons, List.not_mem_nil, or_false, not_or] at h
  simp [piece?, h]

/-- Characters that are not special go into the text as they are. -/
theorem expand_append (h : ∀ c ∈ text, c ∉ special) (env : Environment) (cs : List Char) :
    expand env (text ++ cs) = (expand env cs).map (prepend text) := by
  induction text with
  | nil =>
    show expand env cs = (expand env cs).map id
    rw [Option.map_id]
    rfl
  | cons c text ih =>
    obtain ⟨hc, htext⟩ := List.forall_mem_cons.1 h
    have hquote : c ≠ '"' := by
      rintro rfl
      exact hc (by decide)
    rw [List.cons_append, expand_cons hquote, piece?_of_notMem_special hc, Option.bind_some,
      ih htext, Option.map_map]
    rfl

/-- A text without special characters stands for itself. -/
theorem expand_append_quote (h : ∀ c ∈ text, c ∉ special) (env : Environment) (rest : List Char) :
    expand env (text ++ '"' :: rest) = some (text, rest) := by
  rw [expand_append h, expand_quote, Option.map_some, prepend, List.append_nil]

/-! ### Substitutions -/

/-- Whether the text `c :: cs` begins with a command or a variable. -/
def Substitutes (c : Char) (cs : List Char) : Prop :=
  c = '\x60' ∨ c = '$' ∧ cs.head?.any isIdentifierStart = true

/-- The environment in which every variable and every command gives the same text. -/
def Environment.constant (text : List Char) : Environment :=
  ⟨fun _ => text, fun _ => text⟩

/-- Where a substitution ends does not depend on what it gives. -/
theorem exists_piece?_constant (h : Substitutes c cs) :
    ∃ after : Option (List Char), ∀ u, piece? (.constant u) c cs = after.map (u, ·) := by
  rcases h with rfl | ⟨rfl, hhead⟩
  · refine ⟨(command? cs).map (·.2), fun u => ?_⟩
    rw [piece?, if_neg (by decide), if_pos rfl, Option.map_map]
    rfl
  · refine ⟨some (cs.dropWhile isIdentifierPart), fun u => ?_⟩
    rw [piece?, if_neg (by decide), if_neg (by decide), if_pos ⟨rfl, hhead⟩]
    rfl

theorem piece?_eq_of_not_substitutes (h : ¬Substitutes c cs) (env env' : Environment) :
    piece? env c cs = piece? env' c cs := by
  rw [Substitutes, not_or] at h
  simp only [piece?, h.1, h.2, if_false]

/-- With a longer text in its place, no substitution makes the whole text shorter. -/
theorem exists_expand_constant {u v : List Char} (huv : u.length ≤ v.length)
    (h : expand (.constant u) cs = some (text, rest)) :
    ∃ text', expand (.constant v) cs = some (text', rest) ∧ text.length ≤ text'.length := by
  fun_induction expand (Environment.constant u) cs generalizing text with
  | case1 => cases h
  | case2 cs => exact ⟨text, by rw [expand_quote, h], Nat.le_refl _⟩
  | case3 => cases h
  | case4 c cs hquote first mid hpiece ih =>
    obtain ⟨⟨tail, r⟩, htail, hprepend⟩ := Option.map_eq_some_iff.1 h
    obtain ⟨rfl, rfl⟩ := Prod.mk.inj hprepend
    obtain ⟨tail', htail', hle⟩ := ih htail
    -- the first piece ends at the same place
    obtain ⟨first', hpiece', hfirst⟩ : ∃ first', piece? (.constant v) c cs = some (first', mid) ∧
        first.length ≤ first'.length := by
      by_cases hc : Substitutes c cs
      · obtain ⟨after, hafter⟩ := exists_piece?_constant hc
        rw [hafter] at hpiece
        obtain ⟨mid', rfl, hmid⟩ := Option.map_eq_some_iff.1 hpiece
        obtain ⟨rfl, rfl⟩ := Prod.mk.inj hmid
        exact ⟨v, hafter v, huv⟩
      · exact ⟨first, (piece?_eq_of_not_substitutes hc _ _).trans hpiece, Nat.le_refl _⟩
    refine ⟨first' ++ tail', ?_, ?_⟩
    · rw [expand_cons hquote, hpiece', Option.bind_some, htail']
      rfl
    · dsimp only
      rw [List.length_append, List.length_append]
      omega

/-- There is no text that a text with a substitution in it stands for in every environment. -/
theorem not_forall_expand_eq (htext : ∀ c ∈ text, c ∉ special) (hc : Substitutes c cs)
    (word : List Char) :
    ¬∀ env, ∃ rest, expand env (text ++ c :: cs) = some (word, rest) := by
  intro h
  have hquote : c ≠ '"' := by
    rcases hc with rfl | ⟨rfl, -⟩ <;> decide
  obtain ⟨after, hafter⟩ := exists_piece?_constant hc
  have hread : ∀ u, ∃ mid tail rest, after = some mid ∧
      expand (.constant u) mid = some (tail, rest) ∧ word = text ++ (u ++ tail) := by
    intro u
    obtain ⟨rest, hrest⟩ := h (.constant u)
    rw [expand_append htext, expand_cons hquote, hafter] at hrest
    obtain ⟨⟨v, r⟩, hv, hword⟩ := Option.map_eq_some_iff.1 hrest
    obtain ⟨⟨first, mid⟩, hpiece, hmid⟩ := Option.bind_eq_some_iff.1 hv
    obtain ⟨mid', hafter', hfirst⟩ := Option.map_eq_some_iff.1 hpiece
    obtain ⟨rfl, rfl⟩ := Prod.mk.inj hfirst
    obtain ⟨⟨tail, r'⟩, htail, hprepend⟩ := Option.map_eq_some_iff.1 hmid
    obtain ⟨rfl, rfl⟩ := Prod.mk.inj hprepend
    exact ⟨mid', tail, r', hafter', htail, (congrArg Prod.fst hword).symm⟩
  -- a substitution that gives a character makes the text longer than one that gives nothing
  obtain ⟨mid, tail, rest, hmid, htail, hword⟩ := hread []
  obtain ⟨mid', tail', rest', hmid', htail', hword'⟩ := hread ['x']
  obtain rfl := Option.some.inj (hmid.symm.trans hmid')
  obtain ⟨tail'', htail'', hle⟩ := exists_expand_constant (Nat.zero_le _) htail
  rw [htail''] at htail'
  obtain ⟨rfl, -⟩ := Prod.mk.inj (Option.some.inj htail')
  have hlength := congrArg List.length (hword.symm.trans hword')
  simp only [List.length_append, List.length_nil, List.length_singleton] at hlength
  omega

end ShellQuery.Shell
