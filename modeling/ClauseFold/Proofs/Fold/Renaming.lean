/-
Folding and the names of variables. A reduction whose look-ups do not depend on names makes the same passes under all
names. So clauses under other names fold into the same formula under the other names, with the same counters, the same
errors and the same verdict.

Results:
- `reduceWithLimit_rename`, `addClause_rename`, `consume_rename`: reductions, clauses and clause files under other names;
- `run_renamed`, `afterAll_renamed`: calls under other names;
- `reduction_keeps_renaming`: with the rules of a repository that are matched by instance.
-/
import ClauseFold.Proofs.Reduction.NormalForm
import ClauseFold.Proofs.Repository.Backends
import ClauseFold.Proofs.Repository.Renaming

namespace ClauseFold

variable {find : Lookup} {how : Folding} {r : VarId → VarId}

/-! ## Reductions -/

namespace Reduction

theorem replace_rename (hfind : find.Equivariant r) (f : Formula) (count : Nat) :
    replace find (f.rename r) count = ((replace find f count).1.rename r, (replace find f count).2) := by
  unfold replace
  rw [hfind f]
  cases find f <;> rfl

/-- a pass makes as many replacements under other names -/
theorem rewrite_rename (hfind : find.Equivariant r) (f : Formula) :
    rewrite find (f.rename r) = ((rewrite find f).1.rename r, (rewrite find f).2) := by
  induction f with
  | const b => rfl
  | var v => rfl
  | neg f ih =>
    rw [Formula.rename, rewrite, rewrite, ih]
    exact replace_rename hfind (.neg (rewrite find f).1) (rewrite find f).2
  | imp a c iha ihc =>
    rw [Formula.rename, rewrite, rewrite, iha, ihc]
    exact replace_rename hfind (.imp (rewrite find a).1 (rewrite find c).1) ((rewrite find a).2 + (rewrite find c).2)

theorem passes_rename (hfind : find.Equivariant r) (limit n : Nat) (f : Formula) :
    passes find limit n (f.rename r) = (passes find limit n f).map (Formula.rename r) := by
  induction n generalizing f with
  | zero => rfl
  | succ n ih =>
    rw [passes_succ, passes_succ, rewrite_rename hfind]
    split_ifs with hzero
    · rfl
    · exact ih (rewrite find f).1

theorem reduceWithLimit_rename (hfind : find.Equivariant r) (limit : Nat) (f : Formula) :
    reduceWithLimit find limit (f.rename r) = (reduceWithLimit find limit f).map (Formula.rename r) :=
  passes_rename hfind limit limit f

end Reduction

/-! ## Clauses and clause files -/

/-- renames the running formula; the counters stay -/
def Fold.rename (r : VarId → VarId) (s : Fold) : Fold := { s with formula := s.formula.map (Formula.rename r) }

/-- renames a literal; what else there is stays -/
def Dimacs.Token.rename (r : VarId → VarId) : Token → Token
  | literal f => literal (f.rename r)
  | close => close
  | defect e => defect e

namespace Fold

theorem clauseOf_rename (hr : Function.Injective r) (literals : List Formula) :
    clauseOf (literals.map (Formula.rename r)) = (clauseOf literals).rename r := by
  unfold clauseOf
  rw [eraseDups_map (Formula.rename_injective hr), Formula.clause_rename]

theorem joined_rename (s : Fold) (clause : Formula) :
    (s.rename r).joined (clause.rename r) = (s.joined clause).rename r := by
  unfold joined rename
  cases s.formula <;> rfl

@[simp] theorem report_rename (s : Fold) : (s.rename r).report = s.report := by
  unfold report rename
  cases s.formula with
  | none => rfl
  | some f => simp [Report.ofFormula]

/-- a clause under other names is folded into the formula under the other names, or fails in the same way -/
theorem addClause_rename (hr : Function.Injective r) (hfind : how.lookup.Equivariant r) (s : Fold)
    (literals : List Formula) :
    (s.rename r).addClause how (literals.map (Formula.rename r)) = (s.addClause how literals).map (rename r) := by
  simp only [addClause, clauseOf_rename hr, joined_rename, Reduction.reduceWithLimit_rename hfind,
    Formula.length_rename]
  cases reduceWithLimit how.lookup how.passLimit (s.joined (clauseOf literals)) with
  | error e => rfl
  | ok g =>
    simp only [Except.map, bind, Except.bind, pure, Except.pure, Formula.length_rename]
    rfl

end Fold

namespace Dimacs

theorem consume_rename (hr : Function.Injective r) (hfind : how.lookup.Equivariant r) (s : Fold)
    (literals : List Formula) (count : Nat) (ts : List Token) :
    consume how (s.rename r) (literals.map (Formula.rename r)) count (ts.map (Token.rename r)) =
      ((consume how s literals count ts).1, (consume how s literals count ts).2.rename r) := by
  have hclose : ∀ (s : Fold) (literals : List Formula),
      (s.rename r).addClause how (literals.map (Formula.rename r)).reverse =
        (s.addClause how literals.reverse).map (Fold.rename r) := by
    intro s literals
    rw [← List.map_reverse, Fold.addClause_rename hr hfind]
  induction ts generalizing s literals count with
  | nil =>
    rw [List.map_nil, consume, consume, List.isEmpty_map, hclose]
    split_ifs
    · rfl
    · cases s.addClause how literals.reverse <;> rfl
  | cons t ts ih =>
    cases t with
    | literal l => exact ih s (l :: literals) count
    | defect e => rfl
    | close =>
      rw [List.map_cons, Token.rename, consume, consume, hclose]
      cases s.addClause how literals.reverse with
      | error e => rfl
      | ok s' => exact ih s' [] (count + 1)

end Dimacs

/-! ## Calls -/

namespace Fold

/-- a call that writes the clauses of another one under other names -/
inductive Call.Renamed (r : VarId → VarId) : Call → Call → Prop where
  | clause (literals : List Formula) : Renamed r (.clause literals) (.clause (literals.map (Formula.rename r)))
  | text {symbols symbols' : List Char} {literals : List Formula}
    (h : (Text.words symbols).mapM readLiteral = .ok literals)
    (h' : (Text.words symbols').mapM readLiteral = .ok (literals.map (Formula.rename r))) :
    Renamed r (.text symbols) (.text symbols')
  | file {lines lines' : List Text.Line}
    (h : Dimacs.tokens lines' = (Dimacs.tokens lines).map (Dimacs.Token.rename r)) :
    Renamed r (.file lines) (.file lines')

/-- what a call has to say but for the numbers of a problem line: the number of clauses, or an error -/
def said (answer : Except Error (Option DimacsSummary)) : Except Error (Option Nat) :=
  answer.map fun summary => summary.map fun d => d.clauses

theorem run_text {symbols : List Char} {literals : List Formula}
    (h : (Text.words symbols).mapM readLiteral = .ok literals) (how : Folding) (s : Fold) :
    (Call.text symbols).run how s = (Call.clause literals).run how s := by
  simp only [Call.run, addText_eq how s h]
  cases s.addClause how literals <;> rfl

theorem run_file (how : Folding) (s : Fold) (lines : List Text.Line) :
    (said ((Call.file lines).run how s).1, ((Call.file lines).run how s).2) =
      ((Dimacs.consume how s [] 0 (Dimacs.tokens lines)).1.map some,
        (Dimacs.consume how s [] 0 (Dimacs.tokens lines)).2) := by
  rw [← Dimacs.readDimacs_eq_consume]
  simp only [Call.run, said]
  cases (s.readDimacs how lines).1 <;> rfl

/-- a call under other names says the same, and leaves the fold under the other names -/
theorem run_renamed (hr : Function.Injective r) (hfind : how.lookup.Equivariant r) {c c' : Call} (h : c.Renamed r c')
    (s : Fold) :
    said (c'.run how (s.rename r)).1 = said (c.run how s).1 ∧ (s.rename r).after how c' = (s.after how c).rename r := by
  have hclause : ∀ literals, said ((Call.clause (literals.map (Formula.rename r))).run how (s.rename r)).1 =
        said ((Call.clause literals).run how s).1 ∧
      ((Call.clause (literals.map (Formula.rename r))).run how (s.rename r)).2 =
        ((Call.clause literals).run how s).2.rename r := by
    intro literals
    simp only [Call.run, addClause_rename hr hfind]
    cases s.addClause how literals with
    | ok s' => exact ⟨rfl, rfl⟩
    | error e => exact ⟨rfl, rfl⟩
  unfold after
  cases h with
  | clause literals => exact hclause literals
  | text h h' =>
    rw [run_text h, run_text h']
    exact hclause _
  | @file lines lines' h =>
    have hrun := run_file how (s.rename r) lines'
    have hconsume := Dimacs.consume_rename hr hfind s [] 0 (Dimacs.tokens lines)
    rw [List.map_nil, ← h] at hconsume
    rw [hconsume] at hrun
    obtain ⟨hsaid, hleft⟩ := Prod.mk.inj hrun
    obtain ⟨hsaid', hleft'⟩ := Prod.mk.inj (run_file how s lines)
    exact ⟨hsaid.trans hsaid'.symm, by rw [hleft, hleft']⟩

/-- calls under other names, one after the other -/
theorem afterAll_renamed (hr : Function.Injective r) (hfind : how.lookup.Equivariant r) {calls calls' : List Call}
    (h : List.Forall₂ (Call.Renamed r) calls calls') (s : Fold) :
    (s.rename r).afterAll how calls' = (s.afterAll how calls).rename r ∧
    ((s.rename r).results how calls').map said = (s.results how calls).map said := by
  induction h generalizing s with
  | nil => exact ⟨rfl, rfl⟩
  | @cons c c' calls calls' hcall _ ih =>
    obtain ⟨hsaid, hafter⟩ := run_renamed hr hfind hcall s
    obtain ⟨hall, hresults⟩ := ih (s.after how c)
    rw [← hafter] at hall hresults
    exact ⟨hall, congrArg₂ List.cons hsaid hresults⟩

end Fold

/-- **Names do not matter.** Let the rules of a set be matched by instance, in memory or compiled, and let variables be
renamed so that they stay apart. A formula under other names reduces to what it reduces to, under the other names, or
meets the limit on passes just as well. Clauses under other names, by their literals, in a text or in a file, fold
into the running formula under the other names, and after each call the counters, the verdict and what was said are the
same. -/
theorem reduction_keeps_renaming {s : RuleSet} (hs : s.Built) (b : Backend) :
    ∃ repo, s.repository .byInstance b = .ok repo ∧ ∀ r : VarId → VarId, Function.Injective r → ∀ limit : Nat,
      (∀ f, (∃ g, reduceWithLimit repo.replacement? limit f = .ok g ∧
          reduceWithLimit repo.replacement? limit (f.rename r) = .ok (g.rename r)) ∨
        (reduceWithLimit repo.replacement? limit f = .error (.passLimit limit) ∧
          reduceWithLimit repo.replacement? limit (f.rename r) = .error (.passLimit limit))) ∧
      ∀ calls calls', List.Forall₂ (Fold.Call.Renamed r) calls calls' →
        Fold.empty.afterAll ⟨repo.replacement?, limit⟩ calls' =
          (Fold.empty.afterAll ⟨repo.replacement?, limit⟩ calls).rename r ∧
        (Fold.empty.afterAll ⟨repo.replacement?, limit⟩ calls').report =
          (Fold.empty.afterAll ⟨repo.replacement?, limit⟩ calls).report ∧
        (Fold.empty.results ⟨repo.replacement?, limit⟩ calls').map Fold.said =
          (Fold.empty.results ⟨repo.replacement?, limit⟩ calls).map Fold.said := by
  obtain ⟨repo, hrepo, hrepresents⟩ := RuleSet.repository_represents hs .byInstance b
  refine ⟨repo, hrepo, ?_⟩
  intro r hr limit
  have hfind : Lookup.Equivariant repo.replacement? r := hrepresents.equivariant hs.wellFormed hr
  refine ⟨?_, ?_⟩
  · intro f
    rw [Reduction.reduceWithLimit_rename hfind]
    rcases Reduction.passes_cases repo.replacement? limit limit f with ⟨g, hg⟩ | herror
    · exact Or.inl ⟨g, hg, congrArg (Except.map (Formula.rename r)) hg⟩
    · exact Or.inr ⟨herror, congrArg (Except.map (Formula.rename r)) herror⟩
  · intro calls calls' hcalls
    have hlookup : Lookup.Equivariant (Folding.lookup ⟨repo.replacement?, limit⟩) r := hfind
    obtain ⟨hall, hresults⟩ := Fold.afterAll_renamed hr hlookup hcalls Fold.empty
    have hempty : Fold.empty.rename r = Fold.empty := rfl
    rw [hempty] at hall hresults
    exact ⟨hall, by rw [hall, Fold.report_rename], hresults⟩

/-- the variables `2` and `3` change places -/
def swapTwoThree (v : VarId) : VarId :=
  if v.val = 2 then ⟨3, by decide, by decide⟩ else if v.val = 3 then ⟨2, by decide, by decide⟩ else v

theorem swapTwoThree_involutive : Function.Involutive swapTwoThree := by
  intro v
  apply VarId.ext
  by_cases htwo : v.val = 2
  · simp [swapTwoThree, htwo]
  · by_cases hthree : v.val = 3
    · simp [swapTwoThree, hthree]
    · simp [swapTwoThree, htwo, hthree]

/-- the clauses `2 -3` and `3`, the second from a file, and the same with the two variables in each other's place -/
theorem reduction_keeps_renaming_swapTwoThree :
    (RuleSet.build [.rule doubleNegation]).Built ∧ Function.Injective swapTwoThree ∧
      ∃ repo, (RuleSet.build [.rule doubleNegation]).repository .byInstance .indexed = .ok repo ∧ ∀ limit : Nat,
        Fold.empty.afterAll ⟨repo.replacement?, limit⟩ [.text ['3', ' ', '-', '2'], .file [.ok ['2', ' ', '0']]] =
          (Fold.empty.afterAll ⟨repo.replacement?, limit⟩
            [.text ['2', ' ', '-', '3'], .file [.ok ['3', ' ', '0']]]).rename swapTwoThree := by
  have hswap : Function.Injective swapTwoThree := swapTwoThree_involutive.injective
  obtain ⟨repo, hrepo, h⟩ := reduction_keeps_renaming (.calls [.rule doubleNegation]) .indexed
  refine ⟨.calls _, hswap, repo, hrepo, ?_⟩
  intro limit
  obtain ⟨-, hfold⟩ := h swapTwoThree hswap limit
  exact (hfold _ _ (.cons (.text rfl rfl) (.cons (.file rfl) .nil))).1

end ClauseFold
