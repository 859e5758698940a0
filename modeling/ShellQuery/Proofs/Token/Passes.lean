import ShellQuery.Proofs.Token.Cursor

/-!
# Passes of the cursor

One `pass` reads what stands at the cursor, which is spacing, a comment or a token, and says where
the cursor goes. Passes are made while the cursor is in front of the end (`Reaches`), and nothing
but the passes themselves brings the reading to an end (`Ends`).

A pass reads what the reader reads and moves the cursor on inside the text, or it finds the text
malformed (`pass_cases`). The one exception is a tilde: in the first place of a text the look at the
character in front of it fails, and in any other place the cursor stays where it is
(`pass_tilde_zero`, `pass_tilde_succ`). So reading ends as it should exactly when no tilde stands
where a token has to begin (`endsProperly_iff`).
-/

namespace ShellQuery.Cursor

open Token

/-- One pass: what is read at the cursor, a token unless it is spacing or a comment, and where the
cursor stands then. -/
def pass (text : List Char) (i : Nat) : Except Stop (Option Token × Nat) := do
  let c ← charAt text i
  if Text.isSpacing c then return (none, i + 1)
  else if ← pure (c == '-') <&&> holdsAt text (· == '-') (i + 1) then
    return (none, ← skip text isLineChar i)
  else
    let (t, stop) ← tokenAt text c i
    return (some t, stop)

/-- The places where the cursor comes to stand. -/
inductive Reaches (text : List Char) : Nat → Prop
  | start : Reaches text 0
  | pass {i j : Nat} {t : Option Token} (h : Reaches text i) (hi : i < text.length)
    (hpass : pass text i = .ok (t, j)) : Reaches text j

/-- What reading gives from a place on, if it ends. -/
inductive Ends (text : List Char) : Nat → Except Stop (List Token) → Prop
  | done {i : Nat} (hi : text.length ≤ i) : Ends text i (.ok [])
  | stop {i : Nat} {s : Stop} (hi : i < text.length) (hpass : pass text i = .error s) :
    Ends text i (.error s)
  | pass {i j : Nat} {t : Option Token} {outcome : Except Stop (List Token)}
    (hi : i < text.length) (hpass : pass text i = .ok (t, j)) (h : Ends text j outcome) :
    Ends text i (outcome.map (t.toList ++ ·))

variable {text cs rest : List Char} {c : Char} {i j : Nat}

/-! ### One pass -/

theorem lex_of_next_error {size : Nat} {e : ReadError} (hspacing : ¬Text.isSpacing c = true)
    (hcomment : ¬(c = '-' ∧ cs.head? = some '-')) (h : next size c cs = .error e) :
    lex size (c :: cs) = .error e := by
  rw [lex, if_neg hspacing, if_neg hcomment]
  split
  · next hnext =>
    obtain rfl := Except.error.inj (hnext.symm.trans h)
    rfl
  · next hnext => cases h.symm.trans hnext

/-- A pass that does not begin at a tilde moves the cursor on inside the text, and what lies between
is read as the reader reads it, or the text is malformed there. -/
theorem pass_cases (h : text.drop i = c :: cs) (hc : c ≠ '~') :
    (∃ t j, pass text i = .ok (t, j) ∧ i < j ∧ j ≤ text.length ∧
      Reads (text.drop i) t.toList (text.drop j)) ∨
    ∃ e, pass text i = .error (.malformed e) ∧
      lex text.length (text.drop i) = .error (.malformed e) := by
  have hi := lt_of_drop h
  have hdash : (pure (c == '-') <&&> holdsAt text (· == '-') (i + 1)) =
      .ok (c == '-' && cs.head?.any (· == '-')) := by
    rw [holdsAt_eq, drop_succ h]
    exact ok_and _ _
  rw [pass, charAt_of_drop h, ok_bind, hdash]
  -- the branches of the loop: spacing, a comment, a token
  by_cases hspacing : Text.isSpacing c = true
  · refine .inl ⟨none, i + 1, by rw [if_pos hspacing]; rfl, by omega, hi, ?_⟩
    rw [h, drop_succ h]
    exact .spacing hspacing (.refl cs)
  rw [if_neg hspacing, ok_bind]
  by_cases hcomment : c = '-' ∧ cs.head? = some '-'
  · obtain ⟨rfl, hcs⟩ := hcomment
    obtain ⟨j, hskip, -, hj, hdrop, -⟩ := skip_ok isLineChar (Nat.le_of_lt hi)
    rw [h] at hdrop
    have hij : i < j := lt_of_skip h rfl hj hdrop
    refine .inl ⟨none, j, ?_, hij, hj, ?_⟩
    · rw [hcs, hskip]
      rfl
    · rw [h, hdrop]
      exact .comment hcs (.refl _)
  · have hnot : (c == '-' && cs.head?.any (· == '-')) = false := by
      rw [Bool.eq_false_iff, ne_eq, Bool.and_eq_true, beq_iff_eq, any_beq_iff]
      exact hcomment
    rw [hnot, if_neg Bool.false_ne_true]
    have hfollows := follows_tokenAt h hc
    generalize hnext : next text.length c cs = found at hfollows
    generalize hat : tokenAt text c i = found' at hfollows
    cases hfollows with
    | @token t j hij hj =>
      refine .inl ⟨some t, j, rfl, hij, hj, ?_⟩
      rw [h]
      exact .token (next_eq_ok_iff.1 hnext) (.refl _)
    | malformed e =>
      refine .inr ⟨e, rfl, ?_⟩
      rw [h]
      exact lex_of_next_error hspacing hcomment hnext

theorem lex_tilde (size : Nat) (cs : List Char) :
    lex size ('~' :: cs) = .error .emptyWord := by
  apply lex_of_next_error (by decide) (by simp)
  rfl

/-- A pass at a tilde reads a word without characters, and looks at the character in front of it. -/
theorem pass_tilde (h : text.drop i = '~' :: cs) :
    pass text i = (charBefore text i).map fun _ => (some (.name ""), i) := by
  have hi := lt_of_drop h
  have hskip : skip text continuesWord i = .ok i := by
    rw [skip, if_pos hi, charAt_of_drop h]
    rfl
  -- the word loop takes nothing, so the word is empty and the index stays
  have hempty : slice text i i = .ok [] := by
    rw [slice_eq (Nat.le_refl i) (Nat.le_of_lt hi), Nat.sub_self, List.take_zero]
  have hword : wordAt text i = (charBefore text i).map fun _ => (.name "", i) := by
    rw [wordAt, hskip, ok_bind, holdsAt_eq, h]
    cases charBefore text i with
    | error s => rfl
    | ok d =>
      refine (congrArg (· >>= _) (ok_and (d == '.') false)).trans ?_
      rw [Bool.and_false, ok_bind, if_neg Bool.false_ne_true, hempty]
      rfl
  have htoken : tokenAt text '~' i = wordAt text i := rfl
  rw [pass, charAt_of_drop h, ok_bind, if_neg (by decide)]
  show tokenAt text '~' i >>= _ = _
  rw [htoken, hword]
  cases charBefore text i with
  | error s => rfl
  | ok d => rfl

/-- In the first place the pass looks in front of the text. -/
theorem pass_tilde_zero (h : text.drop 0 = '~' :: cs) : pass text 0 = .error .outOfRange :=
  pass_tilde h

/-- In any other place the cursor does not move. -/
theorem pass_tilde_succ (h : text.drop (i + 1) = '~' :: cs) :
    pass text (i + 1) = .ok (some (.name ""), i + 1) := by
  have hi : i < text.length := Nat.lt_of_succ_lt (lt_of_drop h)
  obtain ⟨d, ds, hd⟩ := exists_drop_eq_cons hi
  rw [pass_tilde h, charBefore, charAt_of_drop hd]
  rfl

/-! ### All passes -/

/-- A pass moves the cursor on inside the text, or it finds the text malformed. -/
def Advances (text : List Char) (i : Nat) : Prop :=
  (∃ t j, pass text i = .ok (t, j) ∧ i < j ∧ j ≤ text.length) ∨
    ∃ e, pass text i = .error (.malformed e)

/-- Every pass that is made advances, and reading ends with the tokens of the text or with an error
of the text. -/
structure EndsProperly (text : List Char) (outcome : Except SyntaxError (List Token)) : Prop where
  advances : ∀ i, Reaches text i → i < text.length → Advances text i
  ends : Ends text 0 (outcome.mapError .malformed)

/-- A pass moves on exactly when it does not start at a tilde. -/
theorem advances_iff (h : text.drop i = c :: cs) : Advances text i ↔ c ≠ '~' := by
  constructor
  · rintro hadvances rfl
    -- at the beginning of the text the character before is missing; elsewhere the index stays
    cases i with
    | zero =>
      have hpass := pass_tilde_zero h
      rcases hadvances with ⟨t, j, hok, -⟩ | ⟨e, herror⟩
      · cases hpass.symm.trans hok
      · cases hpass.symm.trans herror
    | succ i =>
      have hpass := pass_tilde_succ h
      rcases hadvances with ⟨t, j, hok, hij, -⟩ | ⟨e, herror⟩
      · cases hpass.symm.trans hok
        exact Nat.lt_irrefl _ hij
      · cases hpass.symm.trans herror
  · intro hc
    rcases pass_cases h hc with ⟨t, j, hok, hij, hj, -⟩ | ⟨e, herror, -⟩
    · exact .inl ⟨t, j, hok, hij, hj⟩
    · exact .inr ⟨e, herror⟩

/-- A run ends in one way. -/
theorem Ends.unique {outcome outcome' : Except Stop (List Token)} (h : Ends text i outcome)
    (h' : Ends text i outcome') : outcome = outcome' := by
  -- a pass is a function of the index, so the second run takes the same turns
  induction h generalizing outcome' with
  | done hi =>
    cases h' with
    | done => rfl
    | stop hi' => omega
    | pass hi' => omega
  | stop hi hpass =>
    cases h' with
    | done hi' => omega
    | stop _ hpass' =>
      cases hpass.symm.trans hpass'
      rfl
    | pass _ hpass' => cases hpass.symm.trans hpass'
  | pass hi hpass _ ih =>
    cases h' with
    | done hi' => omega
    | stop _ hpass' => cases hpass.symm.trans hpass'
    | pass _ hpass' h' =>
      cases hpass.symm.trans hpass'
      rw [ih h']

/-- If reading ends, it ends from every place that the cursor reaches. -/
theorem Reaches.exists_ends {outcome : Except Stop (List Token)} (h : Reaches text i)
    (hends : Ends text 0 outcome) : ∃ outcome', Ends text i outcome' := by
  induction h with
  | start => exact ⟨outcome, hends⟩
  | pass _ hi hpass ih =>
    obtain ⟨outcome', hends'⟩ := ih
    cases hends' with
    | done hi' => omega
    | stop _ hpass' => cases hpass.symm.trans hpass'
    | pass _ hpass' hnext =>
      cases hpass.symm.trans hpass'
      exact ⟨_, hnext⟩

/-- A pass after which the cursor stands where it stood is made for ever. -/
theorem not_ends_of_stays {u : Option Token} {outcome : Except Stop (List Token)}
    (hi : i < text.length) (hpass : pass text i = .ok (u, i)) : ¬Ends text i outcome := by
  intro h
  induction h with
  | done hi' => omega
  | stop _ hpass' => cases hpass.symm.trans hpass'
  | pass _ hpass' _ ih =>
    cases hpass.symm.trans hpass'
    exact ih hi hpass

/-- Reading ends as the reader does, unless the reader meets a word without characters. -/
theorem ends_of_lex {outcome : Except SyntaxError (List Token)} (hi : i ≤ text.length)
    (hlex : lex text.length (text.drop i) = outcome.mapError .malformed) :
    Ends text i (outcome.mapError .malformed) := by
  -- on the characters that are left; every pass makes them fewer
  generalize hleft : text.length - i = left
  induction left using Nat.strong_induction_on generalizing i outcome with
  | _ left ih =>
  by_cases hend : i = text.length
  · rw [hend, List.drop_length, lex] at hlex
    cases outcome with
    | error e => cases hlex
    | ok ts =>
      obtain rfl := Except.ok.inj hlex
      exact .done (Nat.le_of_eq hend.symm)
  have hlt : i < text.length := by omega
  obtain ⟨c, cs, h⟩ := exists_drop_eq_cons hlt
  have hc : c ≠ '~' := by
    rintro rfl
    rw [h, lex_tilde] at hlex
    cases outcome <;> cases hlex
  rcases pass_cases h hc with ⟨t, j, hpass, hij, hj, hreads⟩ | ⟨e, hpass, herror⟩
  · rw [hreads.lex_eq] at hlex
    cases outcome with
    | ok ts =>
      obtain ⟨us, hus, rfl⟩ := map_ok_iff.1 hlex
      have hends : Ends text j (Except.mapError .malformed (.ok us)) :=
        ih _ (by omega) hj hus rfl
      exact .pass hlt hpass hends
    | error e =>
      have hends : Ends text j (Except.mapError .malformed (.error e)) :=
        ih _ (by omega) hj (map_error_iff.1 hlex) rfl
      exact .pass hlt hpass hends
  · rw [herror] at hlex
    cases outcome with
    | ok ts => cases hlex
    | error e' =>
      cases hlex
      exact .stop hlt hpass

/-- Where the cursor comes to stand, the reader has read what lies in front. -/
theorem Reaches.reads (htilde : ∀ before rest, ¬Reads text before ('~' :: rest))
    (h : Reaches text i) : i ≤ text.length ∧ ∃ ts, Reads text ts (text.drop i) := by
  induction h with
  | start => exact ⟨Nat.zero_le _, [], .refl text⟩
  | @pass i j t _ hi hpass ih =>
    obtain ⟨-, ts, hreads⟩ := ih
    obtain ⟨c, cs, h⟩ := exists_drop_eq_cons hi
    have hc : c ≠ '~' := by
      rintro rfl
      exact htilde ts cs (h ▸ hreads)
    rcases pass_cases h hc with ⟨t', j', hpass', -, hj, hreads'⟩ | ⟨e, hpass', -⟩
    · cases hpass.symm.trans hpass'
      exact ⟨hj, _, hreads.trans hreads'⟩
    · cases hpass.symm.trans hpass'

/-- Where the reader meets a word without characters, the cursor comes to stand at a tilde. -/
theorem Reaches.exists_tilde (h : Reaches text i) (hi : i ≤ text.length)
    (hlex : lex text.length (text.drop i) = .error .emptyWord) :
    ∃ j cs, Reaches text j ∧ text.drop j = '~' :: cs ∧
      ∃ before, Reads (text.drop i) before ('~' :: cs) := by
  -- on the characters that are left; without a tilde every pass makes them fewer
  generalize hleft : text.length - i = left
  induction left using Nat.strong_induction_on generalizing i with
  | _ left ih =>
  by_cases hend : i = text.length
  · rw [hend, List.drop_length, lex] at hlex
    cases hlex
  have hlt : i < text.length := by omega
  obtain ⟨c, cs, hdrop⟩ := exists_drop_eq_cons hlt
  by_cases hc : c = '~'
  · rw [hc] at hdrop
    exact ⟨i, cs, h, hdrop, [], hdrop ▸ .refl _⟩
  rcases pass_cases hdrop hc with ⟨t, j, hpass, hij, hj, hreads⟩ | ⟨e, -, herror⟩
  · rw [hreads.lex_eq] at hlex
    obtain ⟨k, ds, hk, htilde, before, hbefore⟩ :=
      ih _ (by omega) (h.pass hlt hpass) hj (map_error_iff.1 hlex) rfl
    exact ⟨k, ds, hk, htilde, _, hreads.trans hbefore⟩
  · cases herror.symm.trans hlex

theorem exists_reaches_tilde (h : lex text.length text = .error .emptyWord) :
    ∃ j cs, Reaches text j ∧ text.drop j = '~' :: cs ∧ ∃ before, Reads text before ('~' :: cs) := by
  have hstart : Reaches text 0 := .start
  exact hstart.exists_tilde (Nat.zero_le _) h

/-- A word without characters is met exactly where a tilde stands in the place of a token. -/
theorem lex_eq_emptyWord_iff :
    lex text.length text = .error .emptyWord ↔ ∃ before rest, Reads text before ('~' :: rest) := by
  constructor
  · intro h
    obtain ⟨-, rest, -, -, before, hreads⟩ := exists_reaches_tilde h
    exact ⟨before, rest, hreads⟩
  · rintro ⟨before, rest, hreads⟩
    rw [hreads.lex_eq, lex_tilde]
    rfl

/-! ### How reading ends -/

/-- A reading ends properly unless a word is empty. -/
theorem exists_outcome_iff {α : Type} {found : Except ReadError α} :
    (∃ outcome : Except SyntaxError α, found = outcome.mapError .malformed) ↔
      found ≠ .error .emptyWord := by
  constructor
  · rintro ⟨outcome, rfl⟩
    cases outcome <;> simp [Except.mapError]
  · intro hne
    match found with
    | .ok a => exact ⟨.ok a, rfl⟩
    | .error (.malformed e) => exact ⟨.error e, rfl⟩
    | .error .emptyWord => exact absurd rfl hne

theorem mapError_malformed_injective {α : Type} {outcome outcome' : Except SyntaxError α}
    (h : outcome.mapError Stop.malformed = outcome'.mapError Stop.malformed) :
    outcome = outcome' := by
  cases outcome <;> cases outcome' <;> cases h <;> rfl

variable {outcome : Except SyntaxError (List Token)}

/-- A text with a proper outcome ends with it. -/
theorem endsProperly_of_lex (h : lex text.length text = outcome.mapError .malformed) :
    EndsProperly text outcome := by
  have htilde : ∀ before rest, ¬Reads text before ('~' :: rest) := by
    intro before rest hreads
    exact exists_outcome_iff.1 ⟨outcome, h⟩ (lex_eq_emptyWord_iff.2 ⟨before, rest, hreads⟩)
  refine ⟨fun i hi hlt => ?_, ends_of_lex (Nat.zero_le _) h⟩
  obtain ⟨c, cs, hdrop⟩ := exists_drop_eq_cons hlt
  apply (advances_iff hdrop).2
  rintro rfl
  obtain ⟨-, ts, hreads⟩ := hi.reads htilde
  exact htilde ts cs (hdrop ▸ hreads)

/-- A run that ends properly has the outcome of the reader. -/
theorem EndsProperly.lex_eq (h : EndsProperly text outcome) :
    lex text.length text = outcome.mapError .malformed := by
  have hne : lex text.length text ≠ .error .emptyWord := by
    intro hempty
    obtain ⟨j, cs, hj, hdrop, -⟩ := exists_reaches_tilde hempty
    exact (advances_iff hdrop).1 (h.advances j hj (lt_of_drop hdrop)) rfl
  obtain ⟨outcome', hlex⟩ := exists_outcome_iff.2 hne
  have hends : Ends text 0 (outcome'.mapError .malformed) := ends_of_lex (Nat.zero_le _) hlex
  rw [hlex, mapError_malformed_injective (hends.unique h.ends)]

/-- Reading with a cursor ends as it should, with the tokens of the text or with its error, exactly
when no tilde stands where a token has to begin. It then ends as the reader does. -/
theorem endsProperly_iff (text : String) :
    ((∃ outcome, EndsProperly text.toList outcome) ↔
      ∀ before rest, ¬Reads text.toList before ('~' :: rest)) ∧
    ∀ outcome, EndsProperly text.toList outcome ↔ ofText text = outcome.mapError .malformed := by
  have hiff : ∀ outcome, EndsProperly text.toList outcome ↔
      ofText text = outcome.mapError .malformed :=
    fun outcome => ⟨EndsProperly.lex_eq, endsProperly_of_lex⟩
  refine ⟨?_, hiff⟩
  calc (∃ outcome, EndsProperly text.toList outcome)
    _ ↔ ∃ outcome : Except SyntaxError (List Token), ofText text = outcome.mapError .malformed :=
      exists_congr hiff
    _ ↔ ofText text ≠ .error .emptyWord := exists_outcome_iff
    _ ↔ ∀ before rest, ¬Reads text.toList before ('~' :: rest) := by
      rw [ofText, ne_eq, lex_eq_emptyWord_iff]
      simp only [not_exists]

/-- A text that begins with a tilde makes the first pass look in front of it. -/
theorem ends_of_tilde_first (h : text.head? = some '~') : Ends text 0 (.error .outOfRange) := by
  obtain ⟨cs, rfl⟩ := List.head?_eq_some_iff.1 h
  exact .stop (Nat.succ_pos _) (pass_tilde_zero rfl)

/-- A tilde in the place of a later token keeps the cursor where it is, and reading has no end. -/
theorem not_ends_of_tilde {before : List Token} (h : Reads text before ('~' :: rest))
    (hfirst : text.head? ≠ some '~') (outcome : Except Stop (List Token)) :
    ¬Ends text 0 outcome := by
  intro hends
  obtain ⟨j, cs, hj, hdrop, -⟩ :=
    exists_reaches_tilde (lex_eq_emptyWord_iff.2 ⟨before, rest, h⟩)
  obtain ⟨outcome', hends'⟩ := hj.exists_ends hends
  cases j with
  | zero =>
    rw [List.drop_zero] at hdrop
    rw [hdrop] at hfirst
    exact hfirst rfl
  | succ j => exact not_ends_of_stays (lt_of_drop hdrop) (pass_tilde_succ hdrop) hends'

/-- A path below the home directory cannot be read: in front of a text it stops the reading by a
look outside the text, and behind other tokens the reading goes on for ever. -/
theorem not_endsProperly_homePath :
    (∀ outcome, ¬EndsProperly "~/towns.csv".toList outcome) ∧
    Ends "~/towns.csv".toList 0 (.error .outOfRange) ∧
    ∀ outcome, ¬Ends "select * from ~/towns.csv".toList 0 outcome := by
  refine ⟨fun outcome h => ?_, ends_of_tilde_first rfl, ?_⟩
  · have hdrop : "~/towns.csv".toList.drop 0 = '~' :: "/towns.csv".toList := rfl
    exact (advances_iff hdrop).1 (h.advances 0 .start (lt_of_drop hdrop)) rfl
  · have hreads : Reads "select * from ~/towns.csv".toList
        [.keyword .SELECT, .asterisk, .keyword .FROM] ('~' :: "/towns.csv".toList) :=
      .token (.word rfl rfl) <| .spacing rfl <| .token (.punctuation rfl) <| .spacing rfl <|
        .token (.word rfl rfl) <| .spacing rfl <| .refl _
    exact not_ends_of_tilde hreads (by decide)

end ShellQuery.Cursor
