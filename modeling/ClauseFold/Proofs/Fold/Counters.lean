/-
What the counters of a fold say. Calls may fail, and a clause file may fail half-way; but each clause is folded or is not,
and the counters, the running formula and its length are those of the clauses that were folded, one after the other.

Results:
- `Accounts.addClause`, `accounts_of_foldlM`: what one clause more does to the counters, and what clauses do from the start;
- `run_clause_error`, `run_text_error`: why a clause is not folded, and that nothing has changed then;
- `counters_account_for_history`: all of it after any calls.
-/
import ClauseFold.Proofs.Fold.Calls
import ClauseFold.Proofs.Reduction.NormalForm

namespace ClauseFold

variable {how : Folding}

namespace Fold

/-! ## Counters -/

/-- what is handed to reduction as clauses are folded, up to the first that fails -/
def handed (how : Folding) (s : Fold) : List (List Formula) → List Formula
  | [] => []
  | c :: clauses =>
    match s.addClause how c with
    | .ok s' => s.joined (clauseOf c) :: handed how s' clauses
    | .error _ => []

/-- the counters and the running formula of a fold are those of some clauses, which were all folded -/
structure Accounts (how : Folding) (s : Fold) (clauses : List (List Formula)) : Prop where
  folded : clauses.foldlM (addClause how) empty = .ok s
  count : s.clauses = clauses.length
  formula_eq_none_iff : s.formula = none ↔ s.clauses = 0
  length_eq : s.length = s.formula.elim 0 Formula.length
  le_peak : ∀ f ∈ empty.handed how clauses, f.length ≤ s.peak
  peak_attained : s.peak = 0 ∧ clauses = [] ∨ ∃ f ∈ empty.handed how clauses, f.length = s.peak
  normal : ∀ f ∈ s.formula, Reduction.Normal how.lookup f

theorem accounts_empty : Accounts how empty [] where
  folded := rfl
  count := rfl
  formula_eq_none_iff := ⟨fun _ => rfl, fun _ => rfl⟩
  length_eq := rfl
  le_peak := by
    intro f hf
    cases hf
  peak_attained := Or.inl ⟨rfl, rfl⟩
  normal := by
    intro f hf
    cases hf

theorem handed_append {s s' : Fold} {clauses : List (List Formula)} (h : clauses.foldlM (addClause how) s = .ok s')
    (more : List (List Formula)) : s.handed how (clauses ++ more) = s.handed how clauses ++ s'.handed how more := by
  induction clauses generalizing s with
  | nil =>
    cases h
    rfl
  | cons c clauses ih =>
    rw [List.foldlM_cons] at h
    obtain ⟨s₁, hadd, hrest⟩ := bind_eq_ok.mp h
    simp only [List.cons_append, handed, hadd, ih hrest]

/-- one clause more: it is counted, the greatest length takes in what was handed to reduction, and what came out is normal -/
theorem Accounts.addClause {s s' : Fold} {clauses : List (List Formula)} (h : Accounts how s clauses)
    {literals : List Formula} (hadd : s.addClause how literals = .ok s') : Accounts how s' (clauses ++ [literals]) := by
  have hfolded : (clauses ++ [literals]).foldlM (Fold.addClause how) empty = .ok s' := by
    rw [List.foldlM_append, h.folded]
    exact bind_eq_ok.mpr ⟨s, rfl, bind_eq_ok.mpr ⟨s', hadd, rfl⟩⟩
  have hhanded : empty.handed how (clauses ++ [literals]) =
      empty.handed how clauses ++ [s.joined (clauseOf literals)] := by
    rw [handed_append h.folded]
    simp only [handed, hadd]
  obtain ⟨g, hreduce, rfl⟩ := addClause_cases hadd
  have hnormal : Reduction.Normal how.lookup g := Reduction.normal_of_passes hreduce
  refine ⟨hfolded, ?_, by simp, rfl, ?_, ?_, ?_⟩
  · rw [List.length_append, h.count]
    rfl
  · intro f hf
    rw [hhanded, List.mem_append, List.mem_singleton] at hf
    rcases hf with hf | rfl
    · exact Nat.le_trans (h.le_peak f hf) (Nat.le_max_left _ _)
    · exact Nat.le_max_right _ _
  · right
    rw [hhanded]
    -- the greatest length so far was that of a formula, unless it was the zero that all lengths exceed
    rcases Nat.le_total s.peak (s.joined (clauseOf literals)).length with hle | hle
    · exact ⟨_, List.mem_append_right _ (List.mem_singleton_self _), (Nat.max_eq_right hle).symm⟩
    · rcases h.peak_attained with ⟨hzero, -⟩ | ⟨f, hf, hpeak⟩
      · have hpos := Formula.length_pos (s.joined (clauseOf literals))
        omega
      · exact ⟨f, List.mem_append_left _ hf, by rw [hpeak]; exact (Nat.max_eq_left hle).symm⟩
  · intro f hf
    cases hf
    exact hnormal

/-- clauses that are folded from the start are accounted for -/
theorem accounts_of_foldlM {s : Fold} {clauses : List (List Formula)}
    (h : clauses.foldlM (Fold.addClause how) empty = .ok s) : Accounts how s clauses := by
  have hmore : ∀ {s₁ : Fold} {before : List (List Formula)}, Accounts how s₁ before → ∀ {more : List (List Formula)},
      more.foldlM (Fold.addClause how) s₁ = .ok s → Accounts how s (before ++ more) := by
    intro s₁ before h₁ more hfold
    induction more generalizing s₁ before with
    | nil =>
      cases hfold
      rwa [List.append_nil]
    | cons c more ih =>
      rw [List.foldlM_cons] at hfold
      obtain ⟨s₂, hadd, hrest⟩ := bind_eq_ok.mp hfold
      have hall := ih (h₁.addClause hadd) hrest
      rwa [List.append_assoc] at hall
  exact hmore accounts_empty h

/-! ## Calls that fail -/

/-- a clause is not folded for one reason only -/
theorem addClause_error {s : Fold} {literals : List Formula} {e : ReductionError}
    (h : s.addClause how literals = .error e) : e = .passLimit how.passLimit := by
  unfold Fold.addClause at h
  rcases Reduction.passes_cases how.lookup how.passLimit how.passLimit (s.joined (clauseOf literals)) with
    ⟨g, hg⟩ | herror
  · simp only [reduceWithLimit, hg] at h
    cases h
  · simp only [reduceWithLimit, herror] at h
    cases h
    rfl

theorem readLiteral_error {text : List Char} {e : ReadError} (h : readLiteral text = .error e) :
    e = .literal (Text.trim text) := by
  unfold readLiteral at h
  simp only at h
  split at h
  · cases h
  · cases h
    rfl

/-- what cannot be read as literals fails with a literal -/
theorem mapM_readLiteral_error {ws : List (List Char)} {e : ReadError} (h : ws.mapM readLiteral = .error e) :
    ∃ w ∈ ws, e = .literal (Text.trim w) := by
  induction ws with
  | nil => cases h
  | cons w ws ih =>
    rw [List.mapM_cons] at h
    cases hw : readLiteral w with
    | error e' =>
      rw [hw] at h
      cases h
      exact ⟨w, List.mem_cons_self, readLiteral_error hw⟩
    | ok l =>
      rw [hw] at h
      cases hws : ws.mapM readLiteral with
      | error e' =>
        rw [hws] at h
        cases h
        obtain ⟨w', hw', he⟩ := ih hws
        exact ⟨w', List.mem_cons_of_mem w hw', he⟩
      | ok ls =>
        rw [hws] at h
        cases h

theorem run_clause_error {s : Fold} {literals : List Formula} {e : Error}
    (h : ((Call.clause literals).run how s).1 = .error e) :
    s.after how (.clause literals) = s ∧ e = .reduction (.passLimit how.passLimit) := by
  unfold after
  simp only [Call.run] at h ⊢
  cases hadd : s.addClause how literals with
  | ok s' =>
    rw [hadd] at h
    cases h
  | error e' =>
    rw [hadd] at h
    cases h
    exact ⟨rfl, by rw [addClause_error hadd]⟩

theorem run_text_error {s : Fold} {symbols : List Char} {e : Error}
    (h : ((Call.text symbols).run how s).1 = .error e) :
    s.after how (.text symbols) = s ∧
      (e = .reduction (.passLimit how.passLimit) ∨ ∃ w ∈ Text.words symbols, e = .read (.literal (Text.trim w))) := by
  unfold after
  cases hread : (Text.words symbols).mapM readLiteral with
  | error e' =>
    have hrun : (Call.text symbols).run how s = (.error (.read e'), s) := by
      simp only [Call.run, addText_error how s hread]
    rw [hrun] at h ⊢
    cases h
    obtain ⟨w, hw, rfl⟩ := mapM_readLiteral_error hread
    exact ⟨rfl, Or.inr ⟨w, hw, rfl⟩⟩
  | ok literals =>
    simp only [Call.run, addText_eq how s hread] at h ⊢
    cases hadd : s.addClause how literals with
    | ok s' =>
      rw [hadd] at h
      cases h
    | error e' =>
      rw [hadd] at h
      cases h
      exact ⟨rfl, Or.inl (by rw [addClause_error hadd])⟩

/-- **The counters account for the history.** After any calls on a fresh fold, with any look-up and any limit and whichever
calls failed, what there is comes of the clauses that were folded, in order: they are counted, there is a running formula
exactly if there is one of them, its length is noted, the peak is the greatest length of a formula that was handed to
reduction for one of them, and nothing more is found in the running formula. A clause, by its literals or by its text,
that is not folded has met a word that is no literal, or the limit, and has changed nothing. -/
theorem counters_account_for_history (find : Lookup) (limit : Nat) (calls : List Call) :
    Accounts ⟨find, limit⟩ (empty.afterAll ⟨find, limit⟩ calls) (empty.history ⟨find, limit⟩ calls) ∧
    (∀ literals e, ((Call.clause literals).run ⟨find, limit⟩ (empty.afterAll ⟨find, limit⟩ calls)).1 = .error e →
      (empty.afterAll ⟨find, limit⟩ calls).after ⟨find, limit⟩ (.clause literals) = empty.afterAll ⟨find, limit⟩ calls ∧
      e = .reduction (.passLimit limit)) ∧
    ∀ symbols e, ((Call.text symbols).run ⟨find, limit⟩ (empty.afterAll ⟨find, limit⟩ calls)).1 = .error e →
      (empty.afterAll ⟨find, limit⟩ calls).after ⟨find, limit⟩ (.text symbols) = empty.afterAll ⟨find, limit⟩ calls ∧
      (e = .reduction (.passLimit limit) ∨ ∃ w ∈ Text.words symbols, e = .read (.literal (Text.trim w))) := by
  refine ⟨accounts_of_foldlM (foldlM_history ⟨find, limit⟩ empty calls), ?_, ?_⟩
  · intro literals e herror
    exact run_clause_error herror
  · intro symbols e herror
    exact run_text_error herror

/-- the operands of an implication change places, over and over -/
def swapOperands : Lookup
  | .imp a c => some (.imp c a)
  | _ => none

/-- with the clause `1` folded, the clause `2` meets the limit, and `x` is no literal; the first clause stays accounted
for -/
theorem counters_account_for_history_swapOperands :
    (∃ s, empty.afterAll ⟨swapOperands, 8⟩ [.text ['1']] = s ∧
      Accounts ⟨swapOperands, 8⟩ s [[.var ⟨1, by decide, by decide⟩]]) ∧
    ((Call.text ['2']).run ⟨swapOperands, 8⟩ (empty.afterAll ⟨swapOperands, 8⟩ [.text ['1']])).1 =
      .error (.reduction (.passLimit 8)) ∧
    (empty.afterAll ⟨swapOperands, 8⟩ [.text ['1']]).after ⟨swapOperands, 8⟩ (.text ['2']) =
      empty.afterAll ⟨swapOperands, 8⟩ [.text ['1']] ∧
    (empty.afterAll ⟨swapOperands, 8⟩ [.text ['1']]).after ⟨swapOperands, 8⟩ (.text ['2', ' ', 'x']) =
      empty.afterAll ⟨swapOperands, 8⟩ [.text ['1']] := by
  obtain ⟨haccounts, -, htext⟩ := counters_account_for_history swapOperands 8 [.text ['1']]
  have hlimit : ((Call.text ['2']).run ⟨swapOperands, 8⟩ (empty.afterAll ⟨swapOperands, 8⟩ [.text ['1']])).1 =
      .error (.reduction (.passLimit 8)) := rfl
  have hword : ((Call.text ['2', ' ', 'x']).run ⟨swapOperands, 8⟩ (empty.afterAll ⟨swapOperands, 8⟩ [.text ['1']])).1 =
      .error (.read (.literal ['x'])) := rfl
  exact ⟨⟨_, rfl, haccounts⟩, hlimit, (htext _ _ hlimit).1, (htext _ _ hword).1⟩

end Fold

end ClauseFold
