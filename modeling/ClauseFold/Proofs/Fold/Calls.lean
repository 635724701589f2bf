/-
Folding as a sequence of calls: a clause by its literals, a clause by its text, or a clause file. A call may fail; what it
leaves is what the next call goes on from.

Each call writes some clauses, which does not depend on any fold. Which of them are folded is told by going along the call,
without a look at any counter.

Results:
- `addClause_cases`: what folding a clause does;
- `foldlM_folds`: a call leaves what comes of folding the clauses that it folds;
- `folds_of_ok`, `folds_of_clause_error`, `folds_of_text_error`: these are all that it writes if it does not fail, and none
  of a single clause if it does;
- `foldlM_history`: a run of calls leaves what comes of folding its history.
-/
import ClauseFold.Proofs.Fold.Tokens
import ClauseFold.Proofs.Outcome

namespace ClauseFold.Fold

/-- a call that may fold clauses -/
inductive Call where
  | clause (literals : List Formula)
  | text (symbols : List Char)
  | file (lines : List Text.Line)

/-- what a call has to say, and the fold it leaves -/
def Call.run (how : Folding) (s : Fold) : Call → Except Error (Option DimacsSummary) × Fold
  | .clause literals =>
    match s.addClause how literals with
    | .ok s' => (.ok none, s')
    | .error e => (.error (.reduction e), s)
  | .text symbols =>
    match s.addText how symbols with
    | .ok s' => (.ok none, s')
    | .error e => (.error e, s)
  | .file lines => ((s.readDimacs how lines).1.map some, (s.readDimacs how lines).2)

def after (how : Folding) (s : Fold) (c : Call) : Fold := (c.run how s).2

def afterAll (how : Folding) (s : Fold) (calls : List Call) : Fold := calls.foldl (after how) s

def results (how : Folding) (s : Fold) : List Call → List (Except Error (Option DimacsSummary))
  | [] => []
  | c :: calls => (c.run how s).1 :: results how (s.after how c) calls

def Call.written : Call → List (List Formula)
  | .clause literals => [literals]
  | .text symbols =>
    match (Text.words symbols).mapM readLiteral with
    | .ok literals => [literals]
    | .error _ => []
  | .file lines => Dimacs.clauses lines

def Call.folds (how : Folding) (s : Fold) : Call → List (List Formula)
  | .clause literals => s.taken how literals
  | .text symbols =>
    match (Text.words symbols).mapM readLiteral with
    | .ok literals => s.taken how literals
    | .error _ => []
  | .file lines => Dimacs.foldedFrom how s [] (Dimacs.tokens lines)

/-- the clauses that calls fold, one call after the other -/
def history (how : Folding) (s : Fold) : List Call → List (List Formula)
  | [] => []
  | c :: calls => c.folds how s ++ history how (s.after how c) calls

/-! ## One call -/

theorem addClause_cases {how : Folding} {s s' : Fold} {literals : List Formula} (h : s.addClause how literals = .ok s') :
    ∃ g, reduceWithLimit how.lookup how.passLimit (s.joined (clauseOf literals)) = .ok g ∧
      s' = ⟨some g, s.clauses + 1, max s.peak (s.joined (clauseOf literals)).length, g.length⟩ := by
  obtain ⟨g, hg, hs'⟩ := bind_eq_ok.mp h
  cases hs'
  exact ⟨g, hg, rfl⟩

/-- the clause of a text is folded as that of its literals -/
theorem addText_eq (how : Folding) (s : Fold) {symbols : List Char} {literals : List Formula}
    (h : (Text.words symbols).mapM readLiteral = .ok literals) :
    s.addText how symbols = (s.addClause how literals).mapError .reduction := by
  unfold addText
  rw [h]
  rfl

theorem addText_error (how : Folding) (s : Fold) {symbols : List Char} {e : ReadError}
    (h : (Text.words symbols).mapM readLiteral = .error e) : s.addText how symbols = .error (.read e) := by
  unfold addText
  rw [h]
  rfl

/-- folding counts -/
theorem clauses_foldlM {how : Folding} {s s' : Fold} {clauses : List (List Formula)}
    (h : clauses.foldlM (addClause how) s = .ok s') : s'.clauses = s.clauses + clauses.length := by
  induction clauses generalizing s with
  | nil => cases h; rfl
  | cons c clauses ih =>
    rw [List.foldlM_cons] at h
    obtain ⟨s₁, hadd, hrest⟩ := bind_eq_ok.mp h
    obtain ⟨g, -, rfl⟩ := addClause_cases hadd
    rw [ih hrest, List.length_cons]
    simp only
    omega

/-- a call leaves what comes of folding the clauses that it folds -/
theorem foldlM_folds (how : Folding) (s : Fold) (c : Call) :
    (c.folds how s).foldlM (addClause how) s = .ok (s.after how c) := by
  unfold after
  cases c with
  | clause literals =>
    simp only [Call.folds, Call.run]
    cases hadd : s.addClause how literals with
    | error e =>
      rw [taken_of_error hadd]
      rfl
    | ok s' => exact foldlM_taken hadd
  | text symbols =>
    cases hread : (Text.words symbols).mapM readLiteral with
    | error e =>
      simp only [Call.folds, Call.run, hread, addText_error how s hread]
      rfl
    | ok literals =>
      simp only [Call.folds, Call.run, hread, addText_eq how s hread]
      cases hadd : s.addClause how literals with
      | error e =>
        rw [taken_of_error hadd]
        rfl
      | ok s' => exact foldlM_taken hadd
  | file lines =>
    have hfold := Dimacs.foldlM_foldedFrom how s [] 0 (Dimacs.tokens lines)
    rwa [← Dimacs.readDimacs_eq_consume] at hfold

/-- a call that does not fail folds all that it writes -/
theorem folds_of_ok {how : Folding} {s : Fold} {c : Call} {said : Option DimacsSummary}
    (h : (c.run how s).1 = .ok said) : c.folds how s = c.written := by
  cases c with
  | clause literals =>
    cases hadd : s.addClause how literals with
    | error e =>
      simp only [Call.run, hadd] at h
      cases h
    | ok s' => exact taken_of_ok hadd
  | text symbols =>
    simp only [Call.folds, Call.written]
    cases hread : (Text.words symbols).mapM readLiteral with
    | error e => rfl
    | ok literals =>
      simp only [Call.run, addText_eq how s hread] at h
      cases hadd : s.addClause how literals with
      | error e =>
        rw [hadd] at h
        cases h
      | ok s' => exact taken_of_ok hadd
  | file lines =>
    have hread := congrArg Prod.fst (Dimacs.readDimacs_eq_consume how s lines)
    cases hfile : (s.readDimacs how lines).1 with
    | error e =>
      simp only [Call.run, hfile] at h
      cases h
    | ok summary =>
      simp only [hfile] at hread
      exact Dimacs.foldedFrom_of_ok hread.symm

/-- a single clause that is not taken is not folded -/
theorem folds_of_clause_error {how : Folding} {s : Fold} {literals : List Formula} {e : Error}
    (h : ((Call.clause literals).run how s).1 = .error e) : (Call.clause literals).folds how s = [] := by
  cases hadd : s.addClause how literals with
  | error e' => exact taken_of_error hadd
  | ok s' =>
    simp only [Call.run, hadd] at h
    cases h

theorem folds_of_text_error {how : Folding} {s : Fold} {symbols : List Char} {e : Error}
    (h : ((Call.text symbols).run how s).1 = .error e) : (Call.text symbols).folds how s = [] := by
  simp only [Call.folds]
  cases hread : (Text.words symbols).mapM readLiteral with
  | error e' => rfl
  | ok literals =>
    simp only [Call.run, addText_eq how s hread] at h
    cases hadd : s.addClause how literals with
    | error e' => exact taken_of_error hadd
    | ok s' =>
      rw [hadd] at h
      cases h

/-! ## Calls one after the other -/

/-- a run of calls leaves what comes of folding its history -/
theorem foldlM_history (how : Folding) (s : Fold) (calls : List Call) :
    (s.history how calls).foldlM (addClause how) s = .ok (s.afterAll how calls) := by
  induction calls generalizing s with
  | nil => rfl
  | cons c calls ih =>
    rw [history, List.foldlM_append, foldlM_folds]
    exact ih (s.after how c)

end ClauseFold.Fold
