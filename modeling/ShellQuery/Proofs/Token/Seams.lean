import ShellQuery.Proofs.Token.Runs

/-!
# Tokens of texts put together

A token that ends in front of a seam could go on behind it: an operator, a number or a string by a
character that belongs to it (`prolongs`), a word by any character of words. Where neither happens,
everything that is read in front of the seam is read there as if the text ended (`Reads.append`,
`Reads.append_gap`).

A line end closes every token, so the tokens of two lines are those of the first and those of the
second (`ofText_lines`). A comment closes everything but a word, which goes on with its dashes:
`ofText_comment_iff` says that a comment is not seen exactly when the text in front of it does not
end in a word.
-/

namespace ShellQuery.Token

variable {c : Char} {cs rest z : List Char} {t : Token} {ts : List Token}

/-! ### What a token goes on with -/

/-- A character that makes a token longer which is no word: the second one of an operator, a quote
that doubles the closing one, a point or a digit, or the asterisk of a wildcard. -/
def prolongs (c : Char) : Bool :=
  c == '=' || c == '>' || c == '\'' || c == '.' || c == '*' || c.isDigit

/-- A text that makes no token longer, words apart. -/
def Closes (z : List Char) : Prop :=
  ∀ c ∈ z.head?, prolongs c = false

theorem closes_nil : Closes [] := by
  rintro d ⟨⟩

theorem Closes.ne_cons (hz : Closes z) (hc : prolongs c = true) (cs : List Char) :
    z ≠ c :: cs := by
  rintro rfl
  cases hc.symm.trans (hz c rfl)

theorem Closes.isDigit_eq_false (hz : Closes z) : ∀ c ∈ z.head?, c.isDigit = false := by
  intro c hc
  have hprolongs := hz c hc
  simp only [prolongs, Bool.or_eq_false_iff] at hprolongs
  exact hprolongs.2

/-! ### Runs of characters in front of a seam -/

/-- A run that ends in front of the seam does not see what is behind it. -/
theorem takeWhile_append_of_dropWhile {p : Char → Bool} (h : cs.dropWhile p ≠ [])
    (z : List Char) : (cs ++ z).takeWhile p = cs.takeWhile p ∧
      (cs ++ z).dropWhile p = cs.dropWhile p ++ z := by
  induction cs with
  | nil => exact absurd rfl h
  | cons c cs ih =>
    cases hc : p c with
    | false => simp [hc]
    | true =>
      rw [List.dropWhile_cons_of_pos hc] at h
      simp [hc, ih h]

theorem head?_append_of_some (h : cs.head? = some c) (z : List Char) :
    (cs ++ z).head? = some c := by
  rw [List.head?_append, h, Option.some_or]

/-! ### One token in front of a seam -/

/-- An operator in front of a seam is the one that is read there alone. -/
theorem operator?_append (hz : Closes z) (c : Char) (cs : List Char) :
    operator? c (cs ++ z) = (operator? c cs).map fun r => (r.1, r.2 ++ z) := by
  have heq : ∀ us, z ≠ '=' :: us := hz.ne_cons rfl
  have hgt : ∀ us, z ≠ '>' :: us := hz.ne_cons rfl
  cases cs with
  | nil =>
    rw [List.nil_append]
    unfold operator?
    split <;> simp_all
  | cons d ds =>
    rw [List.cons_append]
    unfold operator?
    split <;> simp_all

/-- A quoted string that closes in front of a seam is read there alone. -/
theorem stringBody_append {body : List Char} (hz : Closes z)
    (h : stringBody cs = some (body, rest)) : stringBody (cs ++ z) = some (body, rest ++ z) := by
  have hquote : ∀ us, z ≠ '\'' :: us := hz.ne_cons rfl
  fun_induction stringBody cs generalizing body with
  | case1 => cases h
  | case2 cs ih =>
    obtain ⟨⟨b, r⟩, hr, hb⟩ := Option.map_eq_some_iff.1 h
    obtain ⟨rfl, rfl⟩ := Prod.mk.inj hb
    rw [List.cons_append, List.cons_append, stringBody, ih hr]
    rfl
  -- the closing quote is not doubled by the first character behind the seam
  | case3 cs hcs =>
    obtain ⟨rfl, rfl⟩ := Prod.mk.inj (Option.some.inj h)
    rw [List.cons_append, stringBody]
    intro us hus
    cases cs with
    | nil => exact hquote us hus
    | cons d ds =>
      obtain ⟨rfl, -⟩ := List.cons.inj hus
      exact hcs ds rfl
  | case4 c cs hpair hc ih =>
    obtain ⟨⟨b, r⟩, hr, hb⟩ := Option.map_eq_some_iff.1 h
    obtain ⟨rfl, rfl⟩ := Prod.mk.inj hb
    rw [List.cons_append, stringBody, ih hr]
    · rfl
    · intro us hc' _
      exact hc hc'
    · exact hc

/-- A quoted name that closes in front of a seam is read there alone, whatever follows. -/
theorem quotedName_append_of_some {body : List Char} (h : quotedName cs = some (body, rest))
    (z : List Char) : quotedName (cs ++ z) = some (body, rest ++ z) := by
  unfold quotedName at h
  split at h
  · cases h
  · next hdrop =>
    obtain ⟨rfl, rfl⟩ := Prod.mk.inj (Option.some.inj h)
    have hne : cs.dropWhile isNameChar ≠ [] := by simp [hdrop]
    obtain ⟨htake, hdrop'⟩ := takeWhile_append_of_dropWhile hne z
    rw [quotedName, htake, hdrop', hdrop]
    rfl

theorem fractionDigits_append (hz : Closes z) (tail : List Char) :
    fractionDigits (tail ++ z) = fractionDigits tail := by
  cases tail with
  | nil => exact fractionDigits_eq_nil (hz.ne_cons rfl)
  | cons d ds =>
    by_cases hd : d = '.'
    · rw [hd, List.cons_append, fractionDigits, fractionDigits]
      exact (takeWhile_append_of_head hz.isDigit_eq_false ds).1
    · rw [fractionDigits_eq_nil (by simp [hd]), fractionDigits_eq_nil (by simp [hd])]

theorem number_append {negative : Bool} (hz : Closes z)
    (h : number negative cs = .ok (t, rest)) : number negative (cs ++ z) = .ok (t, rest ++ z) := by
  obtain ⟨htake, hdrop⟩ := takeWhile_append_of_head hz.isDigit_eq_false cs
  rw [number_ok_iff htake hdrop, fractionDigits_append hz]
  rcases (number_ok_iff rfl rfl).1 h with ⟨hf, ht, rfl⟩ | ⟨hf, ht, rfl⟩
  · exact .inl ⟨hf, ht, rfl⟩
  · refine .inr ⟨hf, ht, ?_⟩
    rw [List.drop_append_of_le_length (length_fractionDigits_lt hf)]

/-- A word in front of a seam is read there alone if no character of words follows. -/
theorem word_append_of_closes (hz : Closes z)
    (hword : cs.dropWhile continuesWord = [] → ∀ c ∈ z.head?, continuesWord c = false) :
    word (cs ++ z) = ((word cs).1, (word cs).2 ++ z) := by
  -- the word may end in front of the seam or with it
  have hcut : (cs ++ z).takeWhile continuesWord = cs.takeWhile continuesWord ∧
      (cs ++ z).dropWhile continuesWord = cs.dropWhile continuesWord ++ z := by
    by_cases hcs : cs.dropWhile continuesWord = []
    · exact takeWhile_append_of_head (hword hcs) cs
    · exact takeWhile_append_of_dropWhile hcs z
  have hstar : ∀ us, z ≠ '*' :: us := hz.ne_cons rfl
  unfold word
  rw [hcut.1, hcut.2]
  cases cs.dropWhile continuesWord with
  | nil =>
    rw [List.nil_append]
    split
    · exact absurd rfl (hstar _)
    · rfl
  | cons d ds =>
    rw [List.cons_append]
    dsimp only
    split
    · next heq =>
      obtain ⟨rfl, rfl⟩ := List.cons.inj heq
      split <;> rfl
    · next hne =>
      split
      · next heq =>
        obtain ⟨rfl, rfl⟩ := List.cons.inj heq
        exact absurd rfl (hne _)
      · rfl

/-- A text that is a word, all of it. -/
def IsWord (cs : List Char) : Prop :=
  cs.head?.any startsWord = true ∧ cs.all continuesWord = true

theorem IsWord.ne_nil (h : IsWord cs) : cs ≠ [] := by
  rintro rfl
  cases h.1

theorem IsWord.exists_cons (h : IsWord cs) :
    ∃ c ds, cs = c :: ds ∧ startsWord c = true ∧ continuesWord c = true := by
  obtain ⟨hstart, hall⟩ := h
  cases cs with
  | nil => cases hstart
  | cons c ds => exact ⟨c, ds, rfl, hstart, List.all_eq_true.1 hall c List.mem_cons_self⟩

theorem IsWord.word_eq (h : IsWord cs) : word cs = (cs, []) := by
  have hall := List.all_eq_true.1 h.2
  rw [word, List.takeWhile_eq_self_iff.2 hall, List.dropWhile_eq_nil_iff.2 hall]

/-- A token is read in front of a seam as it is read alone, unless it is a word that goes on. -/
theorem Starts.append (h : Starts c cs t rest) (hz : Closes z)
    (hword : IsWord (c :: cs) → ∀ d ∈ z.head?, continuesWord d = false) :
    Starts c (cs ++ z) t (rest ++ z) := by
  cases h with
  | punctuation h => exact .punctuation h
  | operator h =>
    apply Starts.operator
    rw [operator?_append hz, h]
    rfl
  | string hc h => exact .string hc (stringBody_append hz h)
  | name hc h => exact .name hc (quotedName_append_of_some h z)
  | number hc h => exact .number hc (number_append hz h)
  | negative hc hd h =>
    refine .negative hc ?_ (number_append hz h)
    cases cs with
    | nil => cases hd
    | cons d ds => exact hd
  | word hs hc =>
    have hw : Token.word (c :: cs ++ z) = _ := word_append_of_closes hz fun hcs =>
      hword ⟨hs, List.all_eq_true.2 (List.dropWhile_eq_nil_iff.1 hcs)⟩
    rw [List.cons_append] at hw
    have hstarts : Starts c (cs ++ z) _ _ := .word hs hc
    rw [hw] at hstarts
    exact hstarts

/-! ### All tokens in front of a seam -/

/-- A text that ends in a word: what is left when the last token is to be read is a word. -/
def EndsInWord (cs : List Char) : Prop :=
  ∃ before w, Reads cs before w ∧ IsWord w

/-- A text ends in a word only if its last character can stand in one. -/
theorem not_endsInWord (h : ∀ c ∈ cs.getLast?, continuesWord c = false) : ¬EndsInWord cs := by
  rintro ⟨before, w, hreads, hword⟩
  obtain ⟨p, rfl⟩ := hreads.suffix
  have hlast : (p ++ w).getLast? = some (w.getLast hword.ne_nil) := by
    rw [List.getLast?_append_of_ne_nil _ hword.ne_nil, List.getLast?_eq_some_getLast]
  have hmem := List.all_eq_true.1 hword.2 _ (List.getLast_mem hword.ne_nil)
  cases hmem.symm.trans (h _ hlast)

/-- What is read while something is left in front of a seam. -/
theorem Reads.append (h : Reads cs ts rest) (hz : Closes z) (hrest : rest ≠ []) :
    Reads (cs ++ z) ts (rest ++ z) := by
  -- on the run: what is left after each step is not empty, for the end of the run is not
  induction h with
  | refl cs => exact .refl _
  | spacing hc _ ih => exact .spacing hc (ih hrest)
  | @comment cs _ _ hcs h ih =>
    have hne : cs.dropWhile isLineChar ≠ [] := h.ne_nil hrest
    rw [List.cons_append]
    apply Reads.comment (head?_append_of_some hcs z)
    rw [(takeWhile_append_of_dropWhile hne z).2]
    exact ih hrest
  | @token c cs mid _ _ _ ht h ih =>
    apply Reads.token _ (ih hrest)
    apply ht.append hz
    intro hword
    -- a word up to the seam would leave nothing to be read
    have hmid := (ht.eq_of_startsWord hword.1).2
    rw [hword.word_eq] at hmid
    exact absurd hmid (h.ne_nil hrest)

/-- What is read up to a seam behind which nothing but spacing and comments is skipped to the end of
the line. A comment in front of the seam takes that line with it. -/
theorem Reads.append_gap (h : Reads cs ts []) (hz : Closes z)
    (hgap : Reads z [] (z.dropWhile isLineChar))
    (hword : EndsInWord cs → ∀ c ∈ z.head?, continuesWord c = false) :
    Reads (cs ++ z) ts (z.dropWhile isLineChar) := by
  -- the run ends at the empty text, which the induction has to see as a variable
  generalize hend : ([] : List Char) = rest at h
  induction h with
  | refl cs =>
    subst hend
    exact hgap
  | spacing hc h ih =>
    refine .spacing hc (ih ?_ hend)
    rintro ⟨before, w, hw, hisWord⟩
    exact hword ⟨before, w, .spacing hc hw, hisWord⟩
  | @comment cs _ _ hcs h ih =>
    rw [List.cons_append]
    apply Reads.comment (head?_append_of_some hcs z)
    by_cases hcut : cs.dropWhile isLineChar = []
    · -- the comment goes on behind the seam, to the end of its line
      rw [hcut] at h
      rw [List.dropWhile_append_of_pos (List.dropWhile_eq_nil_iff.1 hcut), h.eq_nil.1]
      exact .refl _
    · rw [(takeWhile_append_of_dropWhile hcut z).2]
      refine ih ?_ hend
      rintro ⟨before, w, hw, hisWord⟩
      exact hword ⟨before, w, .comment hcs hw, hisWord⟩
  | token ht h ih =>
    refine .token (ht.append hz fun hw => hword ⟨[], _, .refl _, hw⟩) (ih ?_ hend)
    rintro ⟨before, w, hw, hisWord⟩
    exact hword ⟨_ :: before, w, .token ht hw, hisWord⟩

/-! ### Lines -/

/-- The tokens of two lines are those of the first one and those of the second one. -/
theorem ofText_lines {t u : String} {ts us : List Token} (ht : ofText t = .ok ts)
    (hu : ofText u = .ok us) : ofText (t ++ "\n" ++ u) = .ok (ts ++ us) := by
  have htext : (t ++ "\n" ++ u).toList = t.toList ++ '\n' :: u.toList := by simp
  have hz : Closes ('\n' :: u.toList) := by
    rintro c ⟨⟩
    rfl
  have hword : ∀ c ∈ ('\n' :: u.toList).head?, continuesWord c = false := by
    rintro c ⟨⟩
    rfl
  -- the first line is read up to its end, and there is no comment to take the second with it
  have hreads : Reads (t.toList ++ '\n' :: u.toList) ts ('\n' :: u.toList) :=
    (lex_eq_ok_iff.1 ht).append_gap hz (.refl _) fun _ => hword
  have hline : lex (t ++ "\n" ++ u).toList.length ('\n' :: u.toList) = .ok us :=
    lex_eq_ok_iff.2 (.spacing rfl (lex_eq_ok_iff.1 hu))
  rw [ofText, htext, hreads.lex_eq, ← htext, hline]
  rfl

/-- A wildcard and a comment in the first line, a doubled quote and an operator that could go on in
the second. -/
theorem ofText_lines_wildcard :
    ofText "select t.* -- all" = .ok [keyword .SELECT, name "t.*"] ∧
    ofText "= 'it''s' <" = .ok [operator .eq, string "it's", operator .lt] ∧
    ofText ("select t.* -- all" ++ "\n" ++ "= 'it''s' <") =
      .ok [keyword .SELECT, name "t.*", operator .eq, string "it's", operator .lt] := by
  have ht : ofText "select t.* -- all" = .ok [keyword .SELECT, name "t.*"] :=
    lex_eq_ok_iff.2 <| .token (.word rfl rfl) <| .spacing rfl <| .token (.word rfl rfl) <|
      .spacing rfl <| .comment rfl <| .refl _
  have hu : ofText "= 'it''s' <" = .ok [operator .eq, string "it's", operator .lt] :=
    lex_eq_ok_iff.2 <| .token (.operator rfl) <| .spacing rfl <| .token (.string rfl rfl) <|
      .spacing rfl <| .token (.operator rfl) <| .refl _
  exact ⟨ht, hu, ofText_lines ht hu⟩

/-! ### Comments -/

theorem closes_comment (c : List Char) : Closes ('-' :: '-' :: c) := by
  rintro d ⟨⟩
  rfl

/-- Behind a text that does not end in a word a comment is skipped. -/
theorem Reads.append_comment {c : List Char} (h : Reads cs ts []) (hc : '\n' ∉ c)
    (hword : ¬EndsInWord cs) : Reads (cs ++ '-' :: '-' :: c) ts [] := by
  have hline : ∀ d ∈ '-' :: '-' :: c, isLineChar d = true := by
    intro d hd
    simp only [isLineChar, bne_iff_ne]
    rintro rfl
    simp [hc] at hd
  have hdrop := List.dropWhile_eq_nil_iff.2 hline
  have hgap : Reads ('-' :: '-' :: c) [] (('-' :: '-' :: c).dropWhile isLineChar) :=
    .comment rfl (.refl _)
  have hreads := h.append_gap (closes_comment c) hgap fun h => absurd h hword
  rwa [hdrop] at hreads

/-- A word takes all characters of words behind the seam. -/
theorem IsWord.prefix_word_append (h : IsWord cs) (z : List Char) :
    cs ++ z.takeWhile continuesWord <+: (word (cs ++ z)).1 := by
  have hall := List.all_eq_true.1 h.2
  unfold word
  rw [List.takeWhile_append_of_pos hall]
  split
  · dsimp only
    split
    · exact List.prefix_append _ _
    · exact List.prefix_refl _
  · exact List.prefix_refl _

/-- A word in front of a seam takes all that it can go on with. -/
theorem Reads.append_word {w : List Char} (h : Reads cs ts w) (hw : IsWord w) (hz : Closes z) :
    Reads (cs ++ z) (ts ++ [ofWord (word (w ++ z)).1]) (word (w ++ z)).2 := by
  refine (h.append hz hw.ne_nil).trans ?_
  obtain ⟨c, ds, rfl, hs, hc⟩ := hw.exists_cons
  exact .token (.word hs hc) (.refl _)

/-- The last token of a text that ends in a word is that word. -/
theorem Reads.eq_append_ofWord {w : List Char} {us : List Token} (h : Reads cs us [])
    (hw : Reads cs ts w) (hword : IsWord w) : us = ts ++ [ofWord w] := by
  have hreads := hw.append_word hword closes_nil
  rw [List.append_nil, List.append_nil, hword.word_eq] at hreads
  have hlex : lex 0 cs = .ok (ts ++ [ofWord w]) := lex_eq_ok_iff.2 hreads
  exact Except.ok.inj ((lex_eq_ok_iff.2 h).symm.trans hlex)

/-- No keyword has a dash in it. -/
theorem ofWord_of_minus {w : List Char} (h : '-' ∈ w) : ofWord w = name (String.ofList w) := by
  unfold ofWord
  split
  · next k hk =>
    have hupper : k.word = Text.upper (String.ofList w) := by
      simpa using List.find?_some hk
    -- a keyword is spelled in capitals only, and the dash survives the change to capitals
    have hmem : '-' ∈ k.word.toList := by
      rw [hupper, Text.toList_upper, String.toList_ofList]
      exact List.mem_map_of_mem h
    cases isUpper_of_mem_word hmem
  · rfl

theorem eq_of_ofWord_eq_name {w : List Char} {n : String} (h : ofWord w = name n) :
    n.toList = w := by
  unfold ofWord at h
  split at h
  · cases h
  · cases h
    exact String.toList_ofList

/-- Behind a word the dashes of a comment belong to the word. -/
theorem Reads.append_comment_of_word {w : List Char} (h : Reads cs ts w) (hw : IsWord w)
    (c : List Char) : ∃ n rest, Reads (cs ++ '-' :: '-' :: c) (ts ++ [name n]) rest ∧
      w ++ ['-', '-'] <+: n.toList := by
  -- the dashes can stand in a word, so the word takes them
  have hpre : w ++ ['-', '-'] <+: (word (w ++ '-' :: '-' :: c)).1 := by
    refine List.IsPrefix.trans ?_ (hw.prefix_word_append _)
    exact ⟨c.takeWhile continuesWord, by simp [continuesWord]⟩
  have hminus : '-' ∈ (word (w ++ '-' :: '-' :: c)).1 := hpre.subset (by simp)
  have hreads := h.append_word hw (closes_comment c)
  rw [ofWord_of_minus hminus] at hreads
  exact ⟨_, _, hreads, by rwa [String.toList_ofList]⟩

variable {text comment : String} {before : List Token} {w : List Char}

theorem toList_append_comment (text comment : String) :
    (text ++ "--" ++ comment).toList = text.toList ++ '-' :: '-' :: comment.toList := by
  simp

/-- The word that a text ends in is its last token, and what is read with a comment behind it has a
longer name in its place. -/
theorem ofText_comment_of_word (h : ofText text = .ok ts) (hbefore : Reads text.toList before w)
    (hw : IsWord w) : ts = before ++ [ofWord w] ∧
      ∀ us, ofText (text ++ "--" ++ comment) = .ok us → ∃ n after,
        us = before ++ name n :: after ∧ w ++ ['-', '-'] <+: n.toList := by
  refine ⟨(lex_eq_ok_iff.1 h).eq_append_ofWord hbefore hw, ?_⟩
  intro us hus
  rw [ofText, lex_eq_ok_iff, toList_append_comment] at hus
  obtain ⟨n, rest, hn, hprefix⟩ := hbefore.append_comment_of_word hw comment.toList
  obtain ⟨after, rfl⟩ := hn.exists_append hus
  exact ⟨n, after, by simp, hprefix⟩

/-- A comment behind a text is not seen exactly when the text does not end in a word. If it does,
the word goes on with the dashes: a name that begins with both stands in its place. -/
theorem ofText_comment_iff (h : ofText text = .ok ts) (hcomment : '\n' ∉ comment.toList) :
    (ofText (text ++ "--" ++ comment) = .ok ts ↔ ¬EndsInWord text.toList) ∧
      ∀ before w, Reads text.toList before w → IsWord w → ts = before ++ [ofWord w] ∧
        ∀ us, ofText (text ++ "--" ++ comment) = .ok us → ∃ n after,
          us = before ++ name n :: after ∧ w ++ ['-', '-'] <+: n.toList := by
  refine ⟨⟨?_, ?_⟩, fun before w => ofText_comment_of_word h⟩
  · rintro hsame ⟨before, w, hbefore, hw⟩
    obtain ⟨hts, hus⟩ := ofText_comment_of_word h hbefore hw
    obtain ⟨n, after, hn, hprefix⟩ := hus ts hsame
    -- the word would have to be longer than itself
    have hname : ofWord w = name n := by
      rw [hts] at hn
      exact (List.cons.inj (List.append_cancel_left hn)).1
    have hlength := hprefix.length_le
    rw [eq_of_ofWord_eq_name hname, List.length_append] at hlength
    simp only [List.length_cons, List.length_nil] at hlength
    omega
  · intro hword
    rw [ofText, lex_eq_ok_iff, toList_append_comment]
    exact (lex_eq_ok_iff.1 h).append_comment hcomment hword

/-- The asterisk of a wildcard ends the word, so that a comment can follow at once. -/
theorem ofText_comment_wildcard :
    ofText "select t.*" = .ok [keyword .SELECT, name "t.*"] ∧ '\n' ∉ " all".toList ∧
    ofText ("select t.*" ++ "--" ++ " all") = .ok [keyword .SELECT, name "t.*"] := by
  have h : ofText "select t.*" = .ok [keyword .SELECT, name "t.*"] :=
    lex_eq_ok_iff.2 <| .token (.word rfl rfl) <| .spacing rfl <| .token (.word rfl rfl) <| .refl _
  have hcomment : '\n' ∉ " all".toList := by decide
  have hlast : ∀ c ∈ "select t.*".toList.getLast?, continuesWord c = false := by
    rintro c ⟨⟩
    rfl
  exact ⟨h, hcomment, (ofText_comment_iff h hcomment).1.2 (not_endsInWord hlast)⟩

/-- Behind any other word the comment is taken for a part of the name. -/
theorem ofText_comment_glued :
    ofText "select city" = .ok [keyword .SELECT, name "city"] ∧ '\n' ∉ "note".toList ∧
    ofText ("select city" ++ "--" ++ "note") = .ok [keyword .SELECT, name "city--note"] :=
  ⟨lex_eq_ok_iff.2 <| .token (.word rfl rfl) <| .spacing rfl <| .token (.word rfl rfl) <| .refl _,
    by decide,
    lex_eq_ok_iff.2 <| .token (.word rfl rfl) <| .spacing rfl <| .token (.word rfl rfl) <| .refl _⟩

end ShellQuery.Token
