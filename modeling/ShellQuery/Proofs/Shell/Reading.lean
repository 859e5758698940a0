import ShellQuery.Proofs.Shell.Expansion
import ShellQuery.Proofs.Shell.Words
import ShellQuery.Table.Basic

/-!
# What is quoted in a word

The shell reads a command line one character at a time and knows of every character of a word
whether it is quoted. A quoted character stands for itself. Any other one may be an operator, begin
an expansion or a comment, or belong to a pattern, if it is one of the `active` characters.

`read` gives the words of a line with every character marked as quoted or not. It goes by the
quoting rules alone, so it tells what the shell makes of the line where no active character is left
unquoted (`Inert`). A line with an open quote at its end or with a NUL in it is not read.

* `reads_of_scan`: on the lines that `words` reads, `read` finds the same words, and they are inert;
* `words_word`: a text as a single word is read back by `words`;
* `read_word_inert`: so a text without NUL is read back as one inert word;
* `read_file`: the command for the rows of a file has three words, the last of which is the path.
-/

namespace ShellQuery.Shell

/-- The characters that can mean more than themselves in an argument of a command where nothing
quotes them: blanks, line ends and operators, quotes, what begins an expansion or a comment, what
makes a pattern and what recalls former commands. A character that has a meaning behind one of these
only is not among them. Nor is the equals sign, which assigns in front of a command's name only, or
the percent sign, which only commands for jobs look at. -/
def active : List Char :=
  [' ', '\t', '\n', '|', '&', ';', '<', '>', '(', ')', '\'', '"', '\\', '$', '\x60', '~', '#', '*',
    '?', '[', ']', '{', '}', '!', '^']

/-- A character of a word. -/
structure Glyph where
  char : Char
  /-- Whether quotes or a backslash have taken its meaning. -/
  quoted : Bool
deriving DecidableEq

/-- The text of a word, which its quotes do not belong to. -/
def text (w : List Glyph) : List Char :=
  w.map Glyph.char

/-- No active character of the word is unquoted. -/
def Inert (w : List Glyph) : Prop :=
  ∀ g ∈ w, g.quoted = false → g.char ∉ active

/-! ### One character at a time -/

/-- Where the next character stands. -/
inductive Place where
  | within (mode : Mode)
  /-- Behind a backslash that is not quoted. -/
  | escaped
  /-- Behind a backslash between double quotes. -/
  | escapedInDouble

/-- What the shell knows between two characters. -/
structure Reading where
  place : Place
  /-- The word that has begun, if there is one. -/
  current : Option (List Glyph)
  /-- The words in front of it. -/
  finished : List (List Glyph)

namespace Reading

/-- The current word with one more character, which it begins with if there is none. -/
def push (current : Option (List Glyph)) (c : Char) (quoted : Bool) : Option (List Glyph) :=
  some (current.getD [] ++ [⟨c, quoted⟩])

/-- A character takes the reading further. An opening quote begins a word even if nothing stands
between it and the closing one; double quotes do not quote what begins an expansion, and between
them a backslash that takes no meaning belongs to the word. -/
def step : Reading → Char → Reading
  | ⟨.within .plain, current, finished⟩, c =>
    if c = '\'' then ⟨.within .single, some (current.getD []), finished⟩
    else if c = '"' then ⟨.within .double, some (current.getD []), finished⟩
    else if c = '\\' then ⟨.escaped, current, finished⟩
    else if c = ' ' ∨ c = '\t' then ⟨.within .plain, none, finished ++ current.toList⟩
    else ⟨.within .plain, push current c false, finished⟩
  | ⟨.within .single, current, finished⟩, c =>
    if c = '\'' then ⟨.within .plain, current, finished⟩
    else ⟨.within .single, push current c true, finished⟩
  | ⟨.within .double, current, finished⟩, c =>
    if c = '"' then ⟨.within .plain, current, finished⟩
    else if c = '\\' then ⟨.escapedInDouble, current, finished⟩
    else ⟨.within .double, push current c (c ≠ '$' ∧ c ≠ '\x60'), finished⟩
  | ⟨.escaped, current, finished⟩, c =>
    if c = '\n' then ⟨.within .plain, current, finished⟩
    else ⟨.within .plain, push current c true, finished⟩
  | ⟨.escapedInDouble, current, finished⟩, c =>
    if c = '\n' then ⟨.within .double, current, finished⟩
    else if c ∈ special then ⟨.within .double, push current c true, finished⟩
    else ⟨.within .double, push (push current '\\' true) c true, finished⟩

/-- The words at the end of the line, if no quote is open there. -/
def close : Reading → Option (List (List Glyph))
  | ⟨.within .plain, current, finished⟩ => some (finished ++ current.toList)
  | _ => none

end Reading

/-- The words of a command line, every character marked as quoted or not. -/
def read (line : String) : Option (List (List Glyph)) :=
  if '\x00' ∈ line.toList then none
  else (line.toList.foldl Reading.step ⟨.within .plain, none, []⟩).close

/-! ### The lines that `words` reads -/

theorem notMem_active_of_isSafe {c : Char} (h : isSafe c = true) : c ∉ active := by
  have hactive : active.all (!isSafe ·) = true := by decide
  intro hc
  have hunsafe := List.all_eq_true.1 hactive c hc
  rw [h] at hunsafe
  exact Bool.false_ne_true hunsafe

/-- The current word has the given text, if it has begun, and is inert. -/
structure Marks (current : Option (List Glyph)) (word : Option (List Char)) : Prop where
  text : current.map text = word
  inert : ∀ w ∈ current.toList, Inert w

namespace Marks

variable {current : Option (List Glyph)} {word : Option (List Char)}

theorem notBegun : Marks none none :=
  ⟨rfl, nofun⟩

theorem begun (h : Marks current word) : Marks (some (current.getD [])) (some (word.getD [])) := by
  obtain ⟨rfl, hinert⟩ := h
  cases current with
  | none => exact ⟨rfl, by simp [Inert]⟩
  | some w => exact ⟨rfl, hinert⟩

/-- A character that is quoted or not active keeps the word inert. -/
theorem push (h : Marks current word) {c : Char} {quoted : Bool}
    (hc : quoted = false → c ∉ active) : Marks (Reading.push current c quoted) (extend word c) := by
  obtain ⟨htext, hinert⟩ := h.begun
  refine ⟨?_, ?_⟩
  · rw [extend, ← Option.some.inj htext, Reading.push, Option.map_some, Shell.text, Shell.text,
      List.map_append]
    rfl
  · intro w hw g hg hquoted
    obtain rfl : w = current.getD [] ++ [⟨c, quoted⟩] := by simpa [Reading.push] using hw
    rcases List.mem_append.1 hg with hg | hg
    · exact hinert _ (by simp) g hg hquoted
    · obtain rfl := List.mem_singleton.1 hg
      exact hc hquoted

theorem quote (h : Marks current word) (c : Char) :
    Marks (Reading.push current c true) (extend word c) :=
  h.push nofun

theorem bare (h : Marks current word) {c : Char} (hc : c ∉ active) :
    Marks (Reading.push current c false) (extend word c) :=
  h.push fun _ => hc

theorem map_text_toList (h : Marks current word) :
    current.toList.map Shell.text = word.toList := by
  rw [← h.text]
  cases current <;> rfl

end Marks

/-- The rest of the line is read as inert words with the given texts. -/
def Reads (r : Reading) (cs : List Char) (ws : List (List Char)) : Prop :=
  ∃ marked, (cs.foldl Reading.step r).close = some (r.finished ++ marked) ∧
    marked.map text = ws ∧ ∀ w ∈ marked, Inert w

/-- A step that finishes no word leaves the words of the line to the rest of it. -/
theorem Reads.cons {r r' : Reading} {c : Char} {cs : List Char} {ws : List (List Char)}
    (h : Reads r' cs ws) (hstep : r.step c = r') (hfinished : r'.finished = r.finished) :
    Reads r (c :: cs) ws := by
  obtain ⟨marked, hclose, hmarked⟩ := h
  refine ⟨marked, ?_, hmarked⟩
  rw [List.foldl_cons, hstep, hclose, hfinished]

/-- On a line that `words` reads, reading character by character finds the same words, and they are
inert. -/
theorem reads_of_scan {mode : Mode} {word : Option (List Char)} {cs : List Char}
    {ws : List (List Char)} (h : scan mode word cs = some ws) {current : Option (List Glyph)}
    (hcurrent : Marks current word) (finished : List (List Glyph)) :
    Reads ⟨.within mode, current, finished⟩ cs ws := by
  fun_induction scan mode word cs generalizing ws current finished with
  | case1 word =>
    obtain rfl := Option.some.inj h
    exact ⟨current.toList, rfl, hcurrent.map_text_toList, hcurrent.inert⟩
  | case4 | case9 | case10 | case13 | case15 | case16 => cases h
  -- a quote that opens or closes, and a line end behind a backslash: the step computes
  | case2 word cs ih => exact ih h hcurrent.begun finished
  | case3 word cs _ ih => exact ih h hcurrent.begun finished
  | case5 word ds _ _ ih => exact ih h hcurrent finished
  | case11 word cs ih => exact ih h hcurrent finished
  | case14 word cs ih => exact ih h hcurrent finished
  | case17 word ds _ _ ih => exact ih h hcurrent finished
  | case6 word d ds hd _ _ ih =>
    have hread := ih h (hcurrent.quote d) finished
    have hstep : Reading.step ⟨.escaped, current, finished⟩ d = _ := if_neg hd
    exact hread.cons hstep rfl
  | case7 word c cs hquote hdouble hback hblank ih =>
    -- a blank ends the current word
    obtain ⟨rest, hrest, rfl⟩ := Option.map_eq_some_iff.1 h
    obtain ⟨marked, hclose, htext, hinert⟩ := ih hrest .notBegun (finished ++ current.toList)
    have hstep : Reading.step ⟨.within .plain, current, finished⟩ c =
        ⟨.within .plain, none, finished ++ current.toList⟩ := by
      simp only [Reading.step, hquote, hdouble, hback, hblank, if_true, if_false]
    refine ⟨current.toList ++ marked, ?_, ?_, ?_⟩
    · rw [List.foldl_cons, hstep, hclose, List.append_assoc]
    · rw [List.map_append, hcurrent.map_text_toList, htext]
    · exact List.forall_mem_append.2 ⟨hcurrent.inert, hinert⟩
  | case8 word c cs hquote hdouble hback hblank hsafe ih =>
    have hread := ih h (hcurrent.bare (notMem_active_of_isSafe hsafe)) finished
    refine hread.cons ?_ rfl
    simp only [Reading.step, hquote, hdouble, hback, hblank, if_false]
  | case12 word c cs hquote ih =>
    have hread := ih h (hcurrent.quote c) finished
    exact hread.cons (if_neg hquote) rfl
  | case18 word d ds hd hspecial _ _ ih =>
    have hread := ih h (hcurrent.quote d) finished
    have hmem : d ∈ special := by simpa [special] using hspecial
    have hstep : Reading.step ⟨.escapedInDouble, current, finished⟩ d =
        ⟨.within .double, Reading.push current d true, finished⟩ := by
      simp only [Reading.step, hd, hmem, if_true, if_false]
    exact hread.cons hstep rfl
  | case19 word d ds hd hspecial _ _ ih =>
    have hread := ih h ((hcurrent.quote '\\').quote d) finished
    have hmem : d ∉ special := by simpa [special] using hspecial
    have hstep : Reading.step ⟨.escapedInDouble, current, finished⟩ d =
        ⟨.within .double, Reading.push (Reading.push current '\\' true) d true, finished⟩ := by
      simp only [Reading.step, hd, hmem, if_false]
    exact hread.cons hstep rfl
  | case20 word c cs hdouble hexpand hback ih =>
    have hread := ih h (hcurrent.quote c) finished
    refine hread.cons ?_ rfl
    rw [not_or] at hexpand
    simp [Reading.step, hdouble, hback, hexpand]

/-! ### Texts as single words -/

theorem scan_closing (word : Option (List Char)) (cs : List Char) :
    scan .single word ('\'' :: cs) = scan .plain word cs := by
  rw [scan, if_pos rfl]

theorem scan_escaped_quote (word : Option (List Char)) (cs : List Char) :
    scan .plain word ('\\' :: '\'' :: cs) = scan .plain (extend word '\'') cs := by
  rw [scan.eq_def]
  rfl

/-- Between single quotes the form of a character stands for the character. A quote closes the
quotes, is written behind a backslash and opens them again. -/
theorem scan_quotedChar (c : Char) (w cs : List Char) :
    scan .single (some w) (quotedChar c ++ cs) = scan .single (some (w ++ [c])) cs := by
  unfold quotedChar
  split
  · next h =>
    subst h
    show scan .single (some w) ('\'' :: '\\' :: '\'' :: '\'' :: cs) = _
    rw [scan_closing, scan_escaped_quote, scan_quote]
    rfl
  · next h =>
    rw [List.singleton_append, scan, if_neg h]
    rfl

/-- Between single quotes the forms of some characters stand for the characters. -/
theorem scan_flatMap_quotedChar (text w cs : List Char) :
    scan .single (some w) (text.flatMap quotedChar ++ cs) =
      scan .single (some (w ++ text)) cs := by
  -- on the characters, which go into the current word one by one
  induction text generalizing w with
  | nil => rw [List.flatMap_nil, List.nil_append, List.append_nil]
  | cons c text ih =>
    rw [List.flatMap_cons, List.append_assoc, scan_quotedChar, ih, List.append_assoc]
    rfl

theorem scan_safe_append {text : List Char} (h : text.all isSafe = true) (w cs : List Char) :
    scan .plain (some w) (text ++ cs) = scan .plain (some (w ++ text)) cs := by
  induction text generalizing w with
  | nil => rw [List.nil_append, List.append_nil]
  | cons c text ih =>
    rw [List.all_cons, Bool.and_eq_true] at h
    obtain ⟨hc, htext⟩ := h
    rw [List.cons_append, scan_safe hc, extend, Option.getD_some, ih htext, List.append_assoc]
    rfl

/-- Characters that the shell takes as they are make a word. -/
theorem scan_safe_text {text : List Char} (hne : text ≠ []) (h : text.all isSafe = true)
    (cs : List Char) : scan .plain none (text ++ cs) = scan .plain (some text) cs := by
  cases text with
  | nil => exact absurd rfl hne
  | cons c text =>
    rw [List.all_cons, Bool.and_eq_true] at h
    rw [List.cons_append, scan_safe h.1]
    exact scan_safe_append h.2 [c] cs

/-- A text as a single word is scanned as one. -/
theorem scan_word (s : String) : scan .plain none (word s).toList = some [s.toList] := by
  unfold word
  split
  · next h =>
    rw [Bool.and_eq_true, Bool.not_eq_true', List.isEmpty_eq_false_iff] at h
    have hread := scan_safe_text h.1 h.2 []
    rw [List.append_nil] at hread
    rw [hread, scan]
    rfl
  -- quoted: the quotes open, every character goes in, the quotes close
  · rw [String.toList_ofList, List.cons_append, scan_quote, Option.getD_none,
      scan_flatMap_quotedChar, scan_closing, scan]
    rfl

/-- A text as a single word is one word, and it is the text. -/
theorem words_word (s : String) : words (word s) = some [s] := by
  rw [words, scan_word, Option.map_some, List.map_singleton, String.ofList_toList]

/-- Quoting a text adds no NUL. -/
theorem nul_notMem_word {s : String} (h : '\x00' ∉ s.toList) : '\x00' ∉ (word s).toList := by
  unfold word
  split
  · exact h
  · rw [String.toList_ofList]
    intro hmem
    rcases List.mem_append.1 hmem with hmem | hmem
    · obtain hmem | hmem := List.mem_cons.1 hmem
      · exact absurd hmem (by decide)
      · obtain ⟨c, hc, hmem⟩ := List.mem_flatMap.1 hmem
        unfold quotedChar at hmem
        split at hmem
        · exact absurd hmem (by decide)
        · exact h (List.mem_singleton.1 hmem ▸ hc)
    · exact absurd hmem (by decide)

/-- A line that is read by the quoting rules is read character by character as the same words. -/
theorem read_of_words {line : String} {ws : List String} (h : words line = some ws)
    (hnul : '\x00' ∉ line.toList) : ∃ marked, read line = some marked ∧
      marked.map text = ws.map String.toList ∧ ∀ w ∈ marked, Inert w := by
  obtain ⟨texts, htexts, rfl⟩ := Option.map_eq_some_iff.1 h
  obtain ⟨marked, hclose, htext, hinert⟩ := reads_of_scan htexts .notBegun []
  refine ⟨marked, ?_, ?_, hinert⟩
  · rw [read, if_neg hnul, hclose, List.nil_append]
  · rw [htext, List.map_map]
    simp [Function.comp_def]

/-- Every text without NUL, put as a single word, is read as one word. No character of it that means
something to the shell is left unquoted, and the word is the text. -/
theorem read_word_inert {s : String} (h : '\x00' ∉ s.toList) :
    ∃ w, read (word s) = some [w] ∧ Inert w ∧ text w = s.toList := by
  obtain ⟨marked, hread, htext, hinert⟩ := read_of_words (words_word s) (nul_notMem_word h)
  obtain ⟨w, rfl⟩ : ∃ w, marked = [w] := by
    apply List.length_eq_one_iff.1
    have hlength := congrArg List.length htext
    simpa using hlength
  exact ⟨w, hread, hinert w List.mem_cons_self, List.singleton_inj.1 htext⟩

/-- A path with quotes at both ends and inside, a blank, a variable and a line end. -/
theorem read_word_inert_quotedPath : '\x00' ∉ "'it's in $HOME\n'".toList ∧
    ∃ w, read (word "'it's in $HOME\n'") = some [w] ∧ Inert w ∧
      text w = "'it's in $HOME\n'".toList := by
  have h : '\x00' ∉ "'it's in $HOME\n'".toList := by decide
  exact ⟨h, read_word_inert h⟩

-- left as it is, the variable is one to the shell
example : read "$A" = some [[⟨'$', false⟩, ⟨'A', false⟩]] ∧ '$' ∈ active := by decide

/-! ### The rows of a file -/

theorem scan_safe_blank {text : List Char} (hne : text ≠ []) (h : text.all isSafe = true)
    (cs : List Char) :
    scan .plain none (text ++ ' ' :: cs) = (scan .plain none cs).map (text :: ·) := by
  rw [scan_safe_text hne h, scan_blank]
  rfl

/-- The option that leaves out the header lines of a file is safe. -/
theorem all_isSafe_option (n : Nat) : ("-n+" ++ toString n).toList.all isSafe = true := by
  have hdigits : (toString n).toList.all isSafe = true := by
    rw [Nat.toString_eq_repr, Nat.toList_repr, List.all_eq_true]
    intro c hc
    have hdigit : c.isDigit = true := Nat.isDigit_of_mem_toDigits (by decide) (by decide) hc
    rw [isSafe, Char.isAlphanum, hdigit, Bool.or_true, Bool.true_or]
  rw [String.toList_append, List.all_append, hdigits, Bool.and_true]
  decide

/-- The command for a file is the program, the first row and the path, parted by blanks. -/
theorem toList_file (path : String) (headerLines : Nat) :
    (Source.text (.file path headerLines)).toList =
      "tail".toList ++ ' ' :: (("-n+" ++ toString (headerLines + 1)).toList ++
        ' ' :: (word path).toList) := by
  have hname : "tail -n+".toList = "tail".toList ++ ' ' :: "-n+".toList := rfl
  show ("tail -n+" ++ toString (headerLines + 1) ++ " " ++ word path).toList = _
  simp only [String.toList_append, hname, List.append_assoc, List.cons_append]
  rfl

theorem words_file (path : String) (headerLines : Nat) :
    words (Source.text (.file path headerLines)) =
      some ["tail", "-n+" ++ toString (headerLines + 1), path] := by
  rw [words, toList_file, scan_safe_blank (by decide) (by decide),
    scan_safe_blank (by simp) (all_isSafe_option _), scan_word]
  simp only [Option.map_some, List.map_cons, List.map_nil, String.ofList_toList]

/-- The command for the rows of a file has three words, the last of which is the path, whatever
characters the path is made of. -/
theorem read_file {path : String} (h : '\x00' ∉ path.toList) (headerLines : Nat) :
    ∃ marked, read (Source.text (.file path headerLines)) = some marked ∧
      marked.map text =
        ["tail", "-n+" ++ toString (headerLines + 1), path].map String.toList ∧
      ∀ w ∈ marked, Inert w := by
  have hoption : '\x00' ∉ ("-n+" ++ toString (headerLines + 1)).toList := by
    intro hmem
    exact absurd (List.all_eq_true.1 (all_isSafe_option _) _ hmem) (by decide)
  have hnul : '\x00' ∉ (Source.text (.file path headerLines)).toList := by
    rw [toList_file]
    apply List.not_mem_append (by decide)
    apply List.not_mem_cons_of_ne_of_not_mem (by decide)
    apply List.not_mem_append hoption
    exact List.not_mem_cons_of_ne_of_not_mem (by decide) (nul_notMem_word h)
  exact read_of_words (words_file path headerLines) hnul

end ShellQuery.Shell
