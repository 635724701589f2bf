/-
The variables of what reduction comes out with. A rule has no variable on its canonical side that its pattern lacks, and
what a formula is an instance of a pattern by is put in on both sides alike. So each variable of a replacement stands
in what it replaces, whatever numbers the variables of the rule have; a variable may get lost on the way, and none comes in.

Results:
- `occurrences_of_reduceWithLimit`: a look-up that brings no variables in makes reductions that do not;
- `Represents.confined`: the rules of a set make such a look-up;
- `Grown.covered`: the running formula has the variables of the clauses folded so far, at most;
- `reduction_invents_no_variables`: both for the rules of a set, in memory or compiled.
-/
import ClauseFold.Proofs.Recognizer.Instances
import ClauseFold.Proofs.Reduction.Meaning

namespace ClauseFold

/-! ## Instances -/

/-- what is found has no variable that is not in what it is found for -/
def Lookup.Confined (find : Lookup) : Prop := ∀ {f g : Formula}, find f = some g → g.occurrences ⊆ f.occurrences

/-- the rules of a set bring no variables in -/
theorem Repository.Represents.confined {repo : Repository} {s : RuleSet} {m : Matching} (h : repo.Represents s m)
    (hs : s.WellFormed) : Lookup.Confined repo.replacement? := by
  intro f g hg v hv
  obtain ⟨r, bindings, hr, rfl, rfl⟩ := h.replacement?_sound hs.keyed hg
  rw [Formula.substitute_eq_apply, Formula.mem_occurrences_apply] at hv ⊢
  obtain ⟨x, hx, hchosen⟩ := hv
  obtain ⟨key, hkey⟩ := RuleSet.mem_toList.mp hr
  exact ⟨x, hs.bound hkey x hx, hchosen⟩

/-! ## Reductions -/

namespace Reduction

variable {find : Lookup}

theorem occurrences_of_step (hfind : find.Confined) {f g : Formula} (h : Step find f g) :
    g.occurrences ⊆ f.occurrences := by
  induction h with
  | replace _ found => exact hfind found
  | neg _ ih =>
    rw [Formula.occurrences_neg, Formula.occurrences_neg]
    exact ih
  | antecedent _ ih =>
    rw [Formula.occurrences_imp, Formula.occurrences_imp]
    exact List.append_subset.mpr ⟨List.subset_append_of_subset_left _ ih, List.subset_append_right _ _⟩
  | consequent _ ih =>
    rw [Formula.occurrences_imp, Formula.occurrences_imp]
    exact List.append_subset.mpr ⟨List.subset_append_left _ _, List.subset_append_of_subset_right _ ih⟩

theorem occurrences_of_steps (hfind : find.Confined) {f g : Formula} (h : Steps find f g) :
    g.occurrences ⊆ f.occurrences := by
  induction h with
  | refl => exact List.Subset.refl _
  | tail _ hstep ih => exact List.Subset.trans (occurrences_of_step hfind hstep) ih

theorem occurrences_of_reduceWithLimit (hfind : find.Confined) {limit : Nat} {f g : Formula}
    (h : reduceWithLimit find limit f = .ok g) : g.occurrences ⊆ f.occurrences :=
  occurrences_of_steps hfind (steps_of_passes h)

end Reduction

/-! ## Folds -/

namespace Fold

/-- folds that come of a fresh one clause by clause, each under a limit of its own, with the clauses folded so far -/
inductive Grown (find : Lookup) : List (List Formula) → Fold → Prop where
  | start : Grown find [] empty
  | clause {clauses : List (List Formula)} {s s' : Fold} {limit : Nat} {literals : List Formula}
      (earlier : Grown find clauses s) (folded : s.addClause ⟨find, limit⟩ literals = .ok s') :
      Grown find (clauses ++ [literals]) s'

/-- the running formula has no variable that is in none of the clauses -/
def Covered (s : Fold) (clauses : List (List Formula)) : Prop :=
  ∀ f ∈ s.formula, ∀ v ∈ f.vars, ∃ c ∈ clauses, ∃ l ∈ c, v ∈ l.vars

theorem occurrences_disj (l r : Formula) : (Formula.disj l r).occurrences = l.occurrences ++ r.occurrences := by
  rw [Formula.disj, Formula.occurrences_imp, Formula.occurrences_neg]

theorem occurrences_conj (l r : Formula) : (Formula.conj l r).occurrences = l.occurrences ++ r.occurrences := by
  rw [Formula.conj, Formula.occurrences_neg, Formula.occurrences_imp, Formula.occurrences_neg]

theorem occurrences_foldl_disj (f : Formula) (literals : List Formula) :
    (literals.foldl Formula.disj f).occurrences = f.occurrences ++ literals.flatMap Formula.occurrences := by
  induction literals generalizing f with
  | nil => simp
  | cons l literals ih => rw [List.foldl_cons, ih, occurrences_disj, List.flatMap_cons, List.append_assoc]

theorem occurrences_clause (literals : List Formula) :
    (Formula.clause literals).occurrences = literals.flatMap Formula.occurrences := by
  cases literals with
  | nil => exact Formula.occurrences_const false
  | cons l literals => rw [Formula.clause, occurrences_foldl_disj, List.flatMap_cons]

theorem mem_occurrences_clauseOf {literals : List Formula} {v : VarId} :
    v ∈ (clauseOf literals).occurrences ↔ ∃ l ∈ literals, v ∈ l.occurrences := by
  rw [clauseOf, occurrences_clause, List.mem_flatMap]
  simp only [List.mem_eraseDups]

/-- the variables of the running formula and of a further clause that is joined to it -/
theorem mem_occurrences_joined {s : Fold} {clause : Formula} {v : VarId} (h : v ∈ (s.joined clause).occurrences) :
    (∃ f ∈ s.formula, v ∈ f.occurrences) ∨ v ∈ clause.occurrences := by
  unfold joined at h
  cases hf : s.formula with
  | none =>
    rw [hf] at h
    exact Or.inr h
  | some f =>
    rw [hf] at h
    simp only [occurrences_conj, List.mem_append] at h
    exact h.imp_left fun hv => ⟨f, rfl, hv⟩

variable {find : Lookup}

/-- one clause more adds its variables at most -/
theorem Covered.addClause (hfind : find.Confined) {s s' : Fold} {clauses : List (List Formula)} (h : s.Covered clauses)
    {limit : Nat} {literals : List Formula} (hadd : s.addClause ⟨find, limit⟩ literals = .ok s') :
    s'.Covered (clauses ++ [literals]) := by
  obtain ⟨g, hreduce, rfl⟩ := addClause_cases hadd
  intro f hf v hv
  cases hf
  rw [Formula.mem_vars] at hv
  rcases mem_occurrences_joined (Reduction.occurrences_of_reduceWithLimit hfind hreduce hv) with
    ⟨f, hf, hbefore⟩ | hclause
  · obtain ⟨c, hc, hl⟩ := h f hf v (Formula.mem_vars.mpr hbefore)
    exact ⟨c, List.mem_append_left _ hc, hl⟩
  · obtain ⟨l, hl, hvl⟩ := mem_occurrences_clauseOf.mp hclause
    exact ⟨literals, List.mem_append_right _ (List.mem_singleton_self _), l, hl, Formula.mem_vars.mpr hvl⟩

theorem Grown.covered (hfind : find.Confined) {clauses : List (List Formula)} {s : Fold} (h : Grown find clauses s) :
    s.Covered clauses := by
  induction h with
  | start =>
    intro f hf
    cases hf
  | clause _ hadd ih => exact ih.addClause hfind hadd

theorem Grown.foldlM {limit : Nat} {clauses more : List (List Formula)} {s s' : Fold} (h : Grown find clauses s)
    (hmore : more.foldlM (Fold.addClause ⟨find, limit⟩) s = .ok s') : Grown find (clauses ++ more) s' := by
  induction more generalizing clauses s with
  | nil =>
    cases hmore
    rwa [List.append_nil]
  | cons c more ih =>
    rw [List.foldlM_cons] at hmore
    obtain ⟨s₁, hadd, hrest⟩ := bind_eq_ok.mp hmore
    have hgrown := ih (h.clause hadd) hrest
    rwa [List.append_assoc] at hgrown

/-- after any calls on a fresh fold, it has grown by the clauses that were folded -/
theorem grown_afterAll (find : Lookup) (limit : Nat) (calls : List Call) :
    Grown find (empty.history ⟨find, limit⟩ calls) (empty.afterAll ⟨find, limit⟩ calls) :=
  Grown.start.foldlM (foldlM_history ⟨find, limit⟩ empty calls)

end Fold

/-- **Reduction invents no variables.** Let the rules of a set be in memory or compiled, and matched either way. Each
variable of what a formula reduces to, under any limit, is one of the formula. So at each point of a fold, whatever the
limits were and in the middle of a file as well as between calls, each variable of the running formula is in a literal of
a clause folded so far. -/
theorem reduction_invents_no_variables {s : RuleSet} (hs : s.Built) (m : Matching) (b : Backend) :
    ∃ repo, s.repository m b = .ok repo ∧
      (∀ (limit : Nat) (f g : Formula), reduceWithLimit repo.replacement? limit f = .ok g → g.vars ⊆ f.vars) ∧
      (∀ clauses fold, Fold.Grown repo.replacement? clauses fold → fold.Covered clauses) ∧
      ∀ (limit : Nat) (calls : List Fold.Call),
        (Fold.empty.afterAll ⟨repo.replacement?, limit⟩ calls).Covered
          (Fold.empty.history ⟨repo.replacement?, limit⟩ calls) := by
  obtain ⟨repo, hrepo, hrepresents⟩ := RuleSet.repository_represents hs m b
  have hfind : Lookup.Confined repo.replacement? := hrepresents.confined hs.wellFormed
  refine ⟨repo, hrepo, ?_, ?_, ?_⟩
  · intro limit f g h v hv
    rw [Formula.mem_vars] at hv ⊢
    exact Reduction.occurrences_of_reduceWithLimit hfind h hv
  · intro clauses fold hgrown
    exact hgrown.covered hfind
  · intro limit calls
    exact (Fold.grown_afterAll repo.replacement? limit calls).covered hfind

/-- `* - 2. * - 2. 1.` reduces by `* 1. * 1. 2.` to `* - 2. 1.`: the variables of the rule have stood for others, and none
of its own is left behind, nor is there any when the clause `-2` is folded -/
theorem reduction_invents_no_variables_premiseTwice :
    (RuleSet.build [.rule repeatedPremise]).Built ∧
      ∃ repo, (RuleSet.build [.rule repeatedPremise]).repository .byInstance .indexed = .ok repo ∧
        reduceWithLimit repo.replacement? 2 premiseTwice = .ok premiseOnce ∧ premiseOnce.vars ⊆ premiseTwice.vars ∧
        ∀ limit : Nat, (Fold.empty.afterAll ⟨repo.replacement?, limit⟩ [.clause [.neg varTwo]]).Covered
          (Fold.empty.history ⟨repo.replacement?, limit⟩ [.clause [.neg varTwo]]) := by
  obtain ⟨repo, hrepo, hreduction, -, hcalls⟩ :=
    reduction_invents_no_variables (.calls [.rule repeatedPremise]) .byInstance .indexed
  have hreduce : reduceWithLimit repo.replacement? 2 premiseTwice = .ok premiseOnce := by
    rw [RuleSet.replacement?_rule toList_repeatedPremise hrepo]
    rfl
  exact ⟨.calls _, repo, hrepo, hreduce, hreduction 2 premiseTwice premiseOnce hreduce, fun limit => hcalls limit _⟩

end ClauseFold
