/-
What a fold says about the clauses that were folded. The running formula has the value of their conjunction on every
valuation, whichever reductions it went through, as long as reduction keeps values; so a constant that it has come to
decides the clauses. Which clauses were folded is told by what the calls answered, and not by the fold.

Results:
- `outcomes_history`: the history of some calls goes with what they answered, one call after the other;
- `value_of_addClause`: one clause more is one factor more;
- `value_afterAll`: after any calls, some of which may have failed, the running formula stands for the history;
- `verdict_sound`: what a report says of a fold with sound rules holds of the clauses.
-/
import ClauseFold.Proofs.Fold.Interruption
import ClauseFold.Proofs.Reduction.Meaning
import ClauseFold.Proofs.Repository.Backends

namespace ClauseFold

/-- whether a valuation makes a literal of each clause true -/
def Valuation.satisfies (v : Valuation) (clauses : List (List Formula)) : Bool :=
  clauses.all fun c => c.any fun l => l.eval v

/-! ## What calls answer -/

namespace Fold

/-- what a call answers, and the clauses that it has folded then: all that it writes if it has not failed, none of a single
clause that has, and of a clause file that was not read on those that had been closed -/
inductive Call.Outcome (how : Folding) (s : Fold) : Call → List (List Formula) → Prop where
  | ok {c : Call} {said : Option DimacsSummary} (answer : (c.run how s).1 = .ok said) : Outcome how s c c.written
  | clause {literals : List Formula} {e : Error} (answer : ((Call.clause literals).run how s).1 = .error e) :
      Outcome how s (.clause literals) []
  | text {symbols : List Char} {e : Error} (answer : ((Call.text symbols).run how s).1 = .error e) :
      Outcome how s (.text symbols) []
  | file {lines : List Text.Line} {clauses : List (List Formula)} {pending : List Formula} {e : Error}
      (answer : ((Call.file lines).run how s).1 = .error e)
      (interruption : Dimacs.Interruption how (s.after how (.file lines)) lines
        (Dimacs.written clauses ++ pending.map .literal) pending e) : Outcome how s (.file lines) clauses

/-- what calls answer, one after the other, and the clauses that they have folded then -/
inductive Outcomes (how : Folding) : Fold → List Call → List (List Formula) → Prop where
  | nil (s : Fold) : Outcomes how s [] []
  | cons {s : Fold} {c : Call} {calls : List Call} {clauses more : List (List Formula)} (first : c.Outcome how s clauses)
      (rest : Outcomes how (s.after how c) calls more) : Outcomes how s (c :: calls) (clauses ++ more)

/-- the clauses that a call folds go with what it answers -/
theorem outcome_folds (how : Folding) (s : Fold) (c : Call) : c.Outcome how s (c.folds how s) := by
  cases hanswer : (c.run how s).1 with
  | ok said =>
    rw [folds_of_ok hanswer]
    exact .ok hanswer
  | error e =>
    cases c with
    | clause literals =>
      rw [folds_of_clause_error hanswer]
      exact .clause hanswer
    | text symbols =>
      rw [folds_of_text_error hanswer]
      exact .text hanswer
    | file lines =>
      have hread : (s.readDimacs how lines).1 = .error e := map_eq_error.mp hanswer
      obtain ⟨pending, hpending⟩ := Dimacs.exists_interruption hread
      exact .file hanswer hpending

/-- the history of some calls goes with what they answer -/
theorem outcomes_history (how : Folding) (s : Fold) (calls : List Call) :
    Outcomes how s calls (s.history how calls) := by
  induction calls generalizing s with
  | nil => exact .nil s
  | cons c calls ih => exact .cons (outcome_folds how s c) (ih (s.after how c))

end Fold

/-! ## Values -/

namespace Formula

theorem eval_disj (v : Valuation) (l r : Formula) : (disj l r).eval v = (l.eval v || r.eval v) := by
  simp [disj, eval]

theorem eval_conj (v : Valuation) (l r : Formula) : (conj l r).eval v = (l.eval v && r.eval v) := by
  simp [conj, eval]

theorem eval_foldl_disj (v : Valuation) (f : Formula) (literals : List Formula) :
    (literals.foldl disj f).eval v = (f.eval v || literals.any fun l => l.eval v) := by
  induction literals generalizing f with
  | nil => simp
  | cons l literals ih => rw [List.foldl_cons, ih, eval_disj, List.any_cons, Bool.or_assoc]

theorem eval_clause (v : Valuation) (literals : List Formula) :
    (clause literals).eval v = literals.any fun l => l.eval v := by
  cases literals with
  | nil => rfl
  | cons l literals => rw [clause, eval_foldl_disj, List.any_cons]

end Formula

namespace Fold

/-- the value of the running formula; no clauses are true -/
def value (s : Fold) (v : Valuation) : Bool :=
  match s.formula with
  | none => true
  | some f => f.eval v

theorem eval_clauseOf (v : Valuation) (literals : List Formula) :
    (clauseOf literals).eval v = literals.any fun l => l.eval v := by
  unfold clauseOf
  rw [Formula.eval_clause, Bool.eq_iff_iff, List.any_eq_true, List.any_eq_true]
  simp only [List.mem_eraseDups]

theorem eval_joined (s : Fold) (v : Valuation) (f : Formula) : (s.joined f).eval v = (s.value v && f.eval v) := by
  unfold joined value
  cases s.formula with
  | none => rw [Bool.true_and]
  | some g => exact Formula.eval_conj v g f

variable {how : Folding}

/-- one clause more is one factor more -/
theorem value_of_addClause (hlookup : how.lookup.Faithful) {s s' : Fold} {literals : List Formula}
    (h : s.addClause how literals = .ok s') (v : Valuation) :
    s'.value v = (s.value v && literals.any fun l => l.eval v) := by
  obtain ⟨g, hreduce, rfl⟩ := addClause_cases h
  calc g.eval v
      = (s.joined (clauseOf literals)).eval v := Reduction.eval_of_reduceWithLimit hlookup hreduce v
    _ = (s.value v && (clauseOf literals).eval v) := eval_joined s v _
    _ = (s.value v && literals.any fun l => l.eval v) := by rw [eval_clauseOf]

theorem value_of_foldlM (hlookup : how.lookup.Faithful) {s s' : Fold} {clauses : List (List Formula)}
    (h : clauses.foldlM (addClause how) s = .ok s') (v : Valuation) :
    s'.value v = (s.value v && v.satisfies clauses) := by
  induction clauses generalizing s with
  | nil =>
    cases h
    exact (Bool.and_true _).symm
  | cons c clauses ih =>
    rw [List.foldlM_cons] at h
    obtain ⟨s₁, hadd, hrest⟩ := bind_eq_ok.mp h
    calc s'.value v
        = (s₁.value v && v.satisfies clauses) := ih hrest
      _ = ((s.value v && c.any fun l => l.eval v) && v.satisfies clauses) := by rw [value_of_addClause hlookup hadd]
      _ = (s.value v && v.satisfies (c :: clauses)) := Bool.and_assoc _ _ _

/-- after any calls the running formula stands for the clauses that were folded -/
theorem value_afterAll (hlookup : how.lookup.Faithful) (calls : List Call) (v : Valuation) :
    (empty.afterAll how calls).value v = v.satisfies (empty.history how calls) := by
  calc (empty.afterAll how calls).value v
      = (empty.value v && v.satisfies (empty.history how calls)) :=
        value_of_foldlM hlookup (foldlM_history how empty calls) v
    _ = v.satisfies (empty.history how calls) := Bool.true_and _

theorem value_of_unsatisfiable {s : Fold} (h : s.report = .unsatisfiable) (v : Valuation) : s.value v = false := by
  unfold report at h
  unfold value
  cases hf : s.formula with
  | none => rw [hf] at h; cases h
  | some f =>
    rw [hf] at h
    cases f with
    | const b => cases b with
      | false => rfl
      | true => cases h
    | var x => cases h
    | neg f => cases h
    | imp a c => cases h

theorem value_of_satisfiable {s : Fold} (h : s.report = .satisfiable) (v : Valuation) : s.value v = true := by
  unfold report at h
  unfold value
  cases hf : s.formula with
  | none => rfl
  | some f =>
    rw [hf] at h
    cases f with
    | const b => cases b with
      | false => cases h
      | true => rfl
    | var x => cases h
    | neg f => cases h
    | imp a c => cases h

end Fold

/-- **Verdicts are sound.** With sound rules, in memory or compiled, matched either way and under any limit, after any
calls on a fresh fold the running formula has on every valuation the value of the clauses folded so far. A fold that
reports `unsatisfiable` has clauses that no valuation satisfies, and one that reports `satisfiable` has clauses that every
valuation satisfies. The clauses folded so far are, call after call, those that go with what the call answered: a call that
has not failed has folded all that it writes. -/
theorem verdict_sound {s : RuleSet} (hs : s.Built) (hsound : s.Sound) (m : Matching) (b : Backend) :
    ∃ repo, s.repository m b = .ok repo ∧ ∀ (limit : Nat) (calls : List Fold.Call),
      Fold.Outcomes ⟨repo.replacement?, limit⟩ .empty calls (Fold.empty.history ⟨repo.replacement?, limit⟩ calls) ∧
      (∀ v, (Fold.empty.afterAll ⟨repo.replacement?, limit⟩ calls).value v =
        v.satisfies (Fold.empty.history ⟨repo.replacement?, limit⟩ calls)) ∧
      ((Fold.empty.afterAll ⟨repo.replacement?, limit⟩ calls).report = .unsatisfiable →
        ∀ v : Valuation, v.satisfies (Fold.empty.history ⟨repo.replacement?, limit⟩ calls) = false) ∧
      ((Fold.empty.afterAll ⟨repo.replacement?, limit⟩ calls).report = .satisfiable →
        ∀ v : Valuation, v.satisfies (Fold.empty.history ⟨repo.replacement?, limit⟩ calls) = true) := by
  obtain ⟨repo, hrepo, hrepresents⟩ := RuleSet.repository_represents hs m b
  refine ⟨repo, hrepo, ?_⟩
  intro limit calls
  have hlookup : Lookup.Faithful repo.replacement? := hrepresents.faithful_replacement? hs.wellFormed hsound
  have hvalue : ∀ v, (Fold.empty.afterAll ⟨repo.replacement?, limit⟩ calls).value v =
      v.satisfies (Fold.empty.history ⟨repo.replacement?, limit⟩ calls) :=
    Fold.value_afterAll hlookup calls
  refine ⟨Fold.outcomes_history _ _ calls, hvalue, ?_, ?_⟩
  · intro hreport v
    rw [← hvalue, Fold.value_of_unsatisfiable hreport]
  · intro hreport v
    rw [← hvalue, Fold.value_of_satisfiable hreport]

/-- a formula and its negation are not both true -/
def contradiction : Rule := ⟨.conj varOne (.neg varOne), .const false⟩

theorem toList_contradiction : (RuleSet.build [.rule contradiction]).toList = [contradiction] :=
  RuleSet.toList_build_rule (by decide) (by simp [contradiction])

theorem sound_contradiction : (RuleSet.build [.rule contradiction]).Sound := by
  intro r hr v
  rw [toList_contradiction, List.mem_singleton] at hr
  subst hr
  show contradiction.pattern.eval v = false
  rw [contradiction, Formula.eval_conj, Formula.eval, Bool.and_not_self]

/-- a clause, one with a word that is no literal, and a file with such a word behind a clause that is closed -/
def brokenCalls : List Fold.Call := [.text ['1'], .text ['2', ' ', 'x'], .file [.ok "-1 0 2 y".toList]]

/-- the clauses `1` and `-1` are folded, whatever else fails, and no valuation satisfies them -/
theorem verdict_sound_contradiction :
    (RuleSet.build [.rule contradiction]).Built ∧ (RuleSet.build [.rule contradiction]).Sound ∧
      ∃ repo, (RuleSet.build [.rule contradiction]).repository .byInstance .indexed = .ok repo ∧
        Fold.empty.results ⟨repo.replacement?, 8⟩ brokenCalls =
          [.ok none, .error (.read (.literal ['x'])), .error (.read (.literal ['y']))] ∧
        Fold.Outcomes ⟨repo.replacement?, 8⟩ .empty brokenCalls [[varOne], [.neg varOne]] ∧
        (Fold.empty.afterAll ⟨repo.replacement?, 8⟩ brokenCalls).report = .unsatisfiable ∧
        ∀ v : Valuation, v.satisfies [[varOne], [.neg varOne]] = false := by
  obtain ⟨repo, hrepo, h⟩ := verdict_sound (.calls [.rule contradiction]) sound_contradiction .byInstance .indexed
  obtain ⟨houtcomes, -, hunsatisfiable, -⟩ := h 8 brokenCalls
  refine ⟨.calls _, sound_contradiction, repo, hrepo, ?_⟩
  rw [RuleSet.replacement?_rule toList_contradiction hrepo] at houtcomes hunsatisfiable ⊢
  have hreport : (Fold.empty.afterAll ⟨contradiction.lookup, 8⟩ brokenCalls).report = .unsatisfiable := rfl
  have hhistory : Fold.empty.history ⟨contradiction.lookup, 8⟩ brokenCalls = [[varOne], [.neg varOne]] := rfl
  rw [hhistory] at houtcomes hunsatisfiable
  exact ⟨rfl, houtcomes, hreport, hunsatisfiable hreport⟩

end ClauseFold
