import ShellQuery.Proofs.Formula.NormalForm
import ShellQuery.Proofs.Statement.Precedence

/-!
# Which sequences of terms are conditions

A sequence of terms can be read if comparisons and groups stand at every other place of it, with a
connective between any two of them, and if the groups can be read themselves (`Alternating`).
`Term.holds` gives the value of such a sequence: the `or`s part it into runs, and all the terms of
one run must hold (`holds_group`).

* `alternating_of_readTerm`: nothing else is read;
* `exists_readsAs`: such a sequence is read, run by run, as conditions that have the
  values of its terms and, from left to right, its comparisons;
* `ofTerms_alternating`: both together, for a whole sequence.
-/

namespace ShellQuery

open Statement (prepend prepend_prepend prepend_nil map_prepend prepend_ne_nil)

namespace Term

/-! ### Sequences that can be read -/

mutual

/-- A term that stands for a condition: a comparison by one of the operators, or a sequence in
parentheses that can be read. -/
inductive Complete : Term → Prop
  | comparison {left operator right : String} :
      (∃ o, Operator.ofText operator = .ok o) → Complete (.comparison left operator right)
  | group {ts : List Term} : Alternating ts → Complete (.group ts)

/-- Terms that stand for conditions, with a connective between any two of them. -/
inductive Alternating : List Term → Prop
  | single {t : Term} : Complete t → Alternating [t]
  | and {t : Term} {ts : List Term} : Complete t → Alternating ts → Alternating (t :: .and :: ts)
  | or {t : Term} {ts : List Term} : Complete t → Alternating ts → Alternating (t :: .or :: ts)

end

theorem Alternating.ne_nil {ts : List Term} (h : Alternating ts) : ts ≠ [] := by
  cases h with
  | single _ => exact List.cons_ne_nil _ _
  | and _ _ => exact List.cons_ne_nil _ _
  | or _ _ => exact List.cons_ne_nil _ _

/-! ### What a sequence says -/

/-- Whether a term parts two runs. -/
def isOr : Term → Bool
  | .or => true
  | _ => false

/-- Whether a term stands between two others. -/
def isConnective : Term → Bool
  | .and => true
  | .or => true
  | _ => false

/-- The value of a comparison that has been read. -/
def readValue (v : Comparison → Bool) : Except PlanError Comparison → Bool
  | .ok c => v c
  | .error _ => false

mutual

/-- The value of a term that stands for a condition, given those of the comparisons. -/
def holds (v : Comparison → Bool) : Term → Bool
  | .comparison l o r => readValue v (Comparison.ofTexts l o r)
  | .group ts => (runValues v ts).any (·.all id)
  | .and => false
  | .or => false

/-- The values of the terms of a sequence, in one list for each run between two `or`s. -/
def runValues (v : Comparison → Bool) : List Term → List (List Bool)
  | [] => [[]]
  | t :: ts =>
    if t.isOr then [] :: runValues v ts
    else if t.isConnective then runValues v ts
    else prepend [holds v t] (runValues v ts)

end

/-- The runs are what the `or`s leave of the sequence. -/
theorem runValues_eq (v : Comparison → Bool) (ts : List Term) :
    runValues v ts =
      (ts.splitOnP isOr).map fun run => (run.filter (!·.isConnective)).map (holds v) := by
  induction ts with
  | nil => rw [runValues]; rfl
  | cons t ts ih =>
    obtain ⟨run, runs, hruns⟩ := List.exists_cons_of_ne_nil (List.splitOnP_ne_nil isOr ts)
    rw [runValues, ih, List.splitOnP_cons_eq_if_modifyHead, hruns]
    cases t <;> rfl

/-- A group holds if all the terms of one of its runs do. -/
theorem holds_group (v : Comparison → Bool) (ts : List Term) :
    (group ts).holds v =
      (ts.splitOnP isOr).any fun run => (run.filter (!·.isConnective)).all (holds v) := by
  rw [holds, runValues_eq, List.any_map]
  exact List.any_congr rfl fun run => by rw [Function.comp_apply, List.all_map, Function.id_comp]

mutual

/-- The comparisons of a term, from left to right, by their three texts. -/
def comparisons : Term → List (String × String × String)
  | .comparison l o r => [(l, o, r)]
  | .group ts => comparisonsList ts
  | .and => []
  | .or => []

/-- The comparisons of a sequence, from left to right. -/
def comparisonsList : List Term → List (String × String × String)
  | [] => []
  | t :: ts => comparisons t ++ comparisonsList ts

end

theorem comparisonsList_eq (ts : List Term) : comparisonsList ts = ts.flatMap comparisons := by
  induction ts with
  | nil => rw [comparisonsList]; rfl
  | cons t ts ih => rw [comparisonsList, ih, List.flatMap_cons]

end Term

namespace Condition

open Formula Term

/-! ### Nothing else is read -/

/-- Every sequence that is read alternates. -/
theorem alternating_of_readTerm {runs : List (List Condition)} {run : List Condition}
    {ts : List Term} {c : Condition} (h : readTerm runs run ts = .ok c) : Alternating ts := by
  -- what follows a condition alternates once a term stands in front of it
  refine readTerm_induction
    (P := fun _ _ ts _ => Alternating ts)
    (Q := fun _ _ ts _ => ∀ t, Complete t → Alternating (t :: ts))
    (R := fun t _ => Complete t)
    ?comparison ?group ?term ?done ?and ?or h
  case comparison =>
    intro l o r a ha
    obtain ⟨op, hop, -⟩ := map_ok_iff.1 ha
    exact .comparison ⟨op, hop⟩
  case group =>
    intro ts c ih
    exact .group ih
  case term =>
    intro runs run t ts p c ht ih
    exact ih t ht
  case done =>
    intro runs run t ht
    exact .single ht
  case and =>
    intro runs run ts c ih t ht
    exact .and ht ih
  case or =>
    intro runs run ts c ih t ht
    exact .or ht ih

/-! ### What is read -/

/-- A comparison is spelled by three texts. -/
def Spelled (texts : String × String × String) (a : Comparison) : Prop :=
  Comparison.ofTexts texts.1 texts.2.1 texts.2.2 = .ok a

/-- A term is read as a condition with its value and its comparisons. -/
structure TermReadsAs (t : Term) (c : Condition) : Prop where
  read : ofTerm t = .ok c
  value : ∀ v, c.holds v = t.holds v
  atoms : List.Forall₂ Spelled t.comparisons c.atoms

/-- The terms of a sequence are read, run by run, as conditions with their values and their
comparisons. What has been read before the sequence goes in front of its first run. -/
structure ReadsAs (ts : List Term) (rs : List (List Condition)) : Prop where
  ne_nil : rs ≠ []
  read : ∀ runs run, readTerm runs run ts = .ok (ofRuns (runs ++ prepend run rs))
  values : ∀ v, rs.map (List.map (Formula.holds v)) = runValues v ts
  atoms : List.Forall₂ Spelled (comparisonsList ts) (rs.flatten.flatMap Formula.atoms)

section

variable {t : Term} {ts : List Term} {c : Condition} {rs : List (List Condition)}

/-- A comparison with a known operator reads as itself. -/
theorem termReadsAs_comparison {left operator right : String} {o : Operator}
    (h : Operator.ofText operator = .ok o) :
    TermReadsAs (.comparison left operator right)
      (.atom ⟨.ofText left, o, .ofText right⟩) := by
  have hspelled : Spelled (left, operator, right) ⟨.ofText left, o, .ofText right⟩ := by
    rw [Spelled, Comparison.ofTexts, h]
    rfl
  refine ⟨?_, fun v => ?_, ?_⟩
  · rw [ofTerm, hspelled]
    rfl
  · rw [Term.holds, hspelled, readValue, holds_atom]
  · rw [comparisons, atoms_atom]
    exact .cons hspelled .nil

/-- The atoms of some runs are those of their conditions, in order. -/
theorem atoms_ofRuns (runs : List (List Condition)) :
    Formula.atoms (ofRuns runs) = runs.flatten.flatMap Formula.atoms := by
  have hparts : (runs.map ofConjuncts).flatMap Formula.atoms =
      runs.flatten.flatMap Formula.atoms := by
    rw [List.flatMap_map, List.flatMap_def, List.flatMap_def, List.map_flatten,
      List.flatten_flatten, List.map_map]
    exact congrArg _ (List.map_congr_left fun ps _ => atoms_ofConjuncts ps)
  rw [← hparts]
  unfold ofRuns
  split
  · next p heq => rw [heq, List.flatMap_singleton]
  · rw [atoms_any]

/-- A group is read as the disjunction of its runs. -/
theorem ReadsAs.group (hts : ts ≠ []) (h : ReadsAs ts rs) :
    TermReadsAs (.group ts) (ofRuns rs) := by
  refine ⟨?_, fun v => ?_, ?_⟩
  · have hne : ¬ts.isEmpty = true := fun hempty => hts (List.isEmpty_iff.1 hempty)
    rw [ofTerm, if_neg hne, h.read, prepend_nil h.ne_nil]
    rfl
  · rw [Statement.holds_ofRuns, Term.holds, ← h.values, List.any_map]
    exact List.any_congr rfl fun ps => by rw [Function.comp_apply, List.all_map, Function.id_comp]
  · rw [comparisons, atoms_ofRuns]
    exact h.atoms

theorem runValues_cons (ht : Complete t) (v : Comparison → Bool) :
    runValues v (t :: ts) = prepend [t.holds v] (runValues v ts) := by
  cases ht with
  | comparison _ => rw [runValues]; rfl
  | group _ => rw [runValues]; rfl

/-- A single condition is one run of one condition. -/
theorem readsAs_single (ht : Complete t) (h : TermReadsAs t c) : ReadsAs [t] [[c]] where
  ne_nil := List.cons_ne_nil _ _
  read runs run := by
    rw [readTerm, h.read]
    rfl
  values v := by
    rw [runValues_cons ht, runValues, ← h.value]
    rfl
  atoms := by
    rw [comparisonsList, comparisonsList, List.append_nil, List.flatten_singleton,
      List.flatMap_singleton]
    exact h.atoms

/-- What follows an `and` goes on with the run. -/
theorem ReadsAs.and (ht : Complete t) (h : TermReadsAs t c) (hts : ReadsAs ts rs) :
    ReadsAs (t :: .and :: ts) (prepend [c] rs) where
  ne_nil := prepend_ne_nil _ _
  read runs run := by
    rw [readTerm, h.read, prepend_prepend]
    exact hts.read runs (run ++ [c])
  values v := by
    rw [runValues_cons ht, runValues, map_prepend, hts.values, ← h.value]
    rfl
  atoms := by
    obtain ⟨run, runs, rfl⟩ := List.exists_cons_of_ne_nil hts.ne_nil
    rw [comparisonsList, comparisonsList]
    exact List.rel_append h.atoms hts.atoms

/-- What follows an `or` begins a run of its own. -/
theorem ReadsAs.or (ht : Complete t) (h : TermReadsAs t c) (hts : ReadsAs ts rs) :
    ReadsAs (t :: .or :: ts) ([c] :: rs) where
  ne_nil := List.cons_ne_nil _ _
  read runs run := by
    have hrest := hts.read (runs ++ [run ++ [c]]) []
    rw [prepend_nil hts.ne_nil, List.append_assoc] at hrest
    rw [readTerm, h.read]
    exact hrest
  values v := by
    rw [runValues_cons ht, runValues, List.map_cons, hts.values, List.map_singleton, ← h.value]
    rfl
  atoms := by
    rw [comparisonsList, comparisonsList]
    exact List.rel_append h.atoms hts.atoms

end

/-- Every sequence that alternates is read. -/
theorem exists_readsAs {ts : List Term} (h : Alternating ts) : ∃ rs, ReadsAs ts rs := by
  refine @Alternating.rec (fun t _ => ∃ c, TermReadsAs t c) (fun ts _ => ∃ rs, ReadsAs ts rs)
    ?_ ?_ ?_ ?_ ?_ ts h
  · rintro left operator right ⟨o, ho⟩
    exact ⟨_, termReadsAs_comparison ho⟩
  · rintro ts hts ⟨rs, hrs⟩
    exact ⟨_, hrs.group hts.ne_nil⟩
  · rintro t ht ⟨c, hc⟩
    exact ⟨_, readsAs_single ht hc⟩
  · rintro t ts ht _ ⟨c, hc⟩ ⟨rs, hrs⟩
    exact ⟨_, hrs.and ht hc⟩
  · rintro t ts ht _ ⟨c, hc⟩ ⟨rs, hrs⟩
    exact ⟨_, hrs.or ht hc⟩

/-! ### Whole sequences -/

theorem ofTerms_eq_none_iff {ts : List Term} : ofTerms ts = .ok none ↔ ts = [] := by
  cases ts with
  | nil => simp [ofTerms]
  | cons t ts =>
    rw [ofTerms, if_neg (by simp), map_ok_iff]
    simp

/-- A condition is read from the first term on, with no runs before it. -/
theorem ofTerms_eq_some_iff {ts : List Term} {c : Condition} :
    ofTerms ts = .ok (some c) ↔ readTerm [] [] ts = .ok c := by
  cases ts with
  | nil => simp [ofTerms, readTerm]
  | cons t ts =>
    rw [ofTerms, if_neg (by simp), map_ok_iff]
    simp

/-- An empty sequence is no condition, a sequence that alternates is one, and any other is refused.
The condition that is read holds if all the terms of one run between two `or`s hold, and its
comparisons are those of the sequence, from left to right. -/
theorem ofTerms_alternating (ts : List Term) :
    (ofTerms ts = .ok none ↔ ts = []) ∧
    ((∃ c, ofTerms ts = .ok (some c)) ↔ Alternating ts) ∧
    ((∃ e, ofTerms ts = .error e) ↔ ts ≠ [] ∧ ¬Alternating ts) ∧
    ∀ c, ofTerms ts = .ok (some c) →
      (∀ v, Formula.holds v c =
        (ts.splitOnP isOr).any fun run => (run.filter (!·.isConnective)).all (Term.holds v)) ∧
      (ts.flatMap comparisons).mapM (fun x => Comparison.ofTexts x.1 x.2.1 x.2.2) =
        .ok (Formula.atoms c) := by
  -- what alternates is read, and only that
  have hread : (∃ c, ofTerms ts = .ok (some c)) ↔ Alternating ts := by
    simp only [ofTerms_eq_some_iff]
    refine ⟨fun ⟨c, hc⟩ => alternating_of_readTerm hc, fun h => ?_⟩
    obtain ⟨rs, hrs⟩ := exists_readsAs h
    exact ⟨_, hrs.read [] []⟩
  refine ⟨ofTerms_eq_none_iff, hread, ?_, fun c hc => ?_⟩
  · rw [Ne, ← ofTerms_eq_none_iff, ← hread]
    rcases ofTerms ts with e | _ | c <;> simp
  · have halternating := hread.1 ⟨c, hc⟩
    obtain ⟨rs, hrs⟩ := exists_readsAs halternating
    have hgroup := hrs.group halternating.ne_nil
    have hreads := hrs.read [] []
    rw [List.nil_append, prepend_nil hrs.ne_nil, ofTerms_eq_some_iff.1 hc] at hreads
    obtain rfl := Except.ok.inj hreads
    refine ⟨fun v => (hgroup.value v).trans (holds_group v ts), ?_⟩
    rw [← comparisonsList_eq]
    exact mapM_ok_iff.2 hgroup.atoms

/-- A group in the second of two runs, with two runs of its own. -/
def nestedTerms : List Term :=
  [.comparison "a" "=" "1", .or,
    .group [.comparison "b" "lt" "2", .or, .comparison "c" ">=" "'x'"], .and,
    .comparison "t.d" "<>" "e"]

/-- A group within a run, with a run behind it, is read as it is written. -/
theorem ofTerms_nestedTerms : ∃ c, ofTerms nestedTerms = .ok (some c) ∧
    (∀ v, Formula.holds v c =
      (nestedTerms.splitOnP isOr).any fun run =>
        (run.filter (!·.isConnective)).all (Term.holds v)) ∧
    (nestedTerms.flatMap comparisons).mapM (fun x => Comparison.ofTexts x.1 x.2.1 x.2.2) =
      .ok (Formula.atoms c) := by
  have hgroup : Alternating [.comparison "b" "lt" "2", .or, .comparison "c" ">=" "'x'"] :=
    .or (.comparison ⟨_, rfl⟩) (.single (.comparison ⟨_, rfl⟩))
  have halternating : Alternating nestedTerms :=
    .or (.comparison ⟨_, rfl⟩) (.and (.group hgroup) (.single (.comparison ⟨_, rfl⟩)))
  obtain ⟨-, hread, -, hvalue⟩ := ofTerms_alternating nestedTerms
  obtain ⟨c, hc⟩ := hread.2 halternating
  exact ⟨c, hc, hvalue c hc⟩

end Condition

end ShellQuery
