/-
Reduction and the values of formulas. A look-up whose answers have the value of what they are found for makes steps that
keep the value of the whole formula, and so reductions that do. Sound rules make such look-ups.

Results:
- `eval_of_reduceWithLimit`: a reduction keeps the value on every valuation;
- `faithful_replacement?`: a repository whose rules have two sides of the same value makes such a look-up;
- `reduction_keeps_value`: so a reduction by the rules of a set keeps the value, in memory or compiled, matched either way.
-/
import ClauseFold.Proofs.Reduction.NormalForm
import ClauseFold.Proofs.Repository.Backends
import ClauseFold.Proofs.Rules.Consistency

namespace ClauseFold

/-- what is found has the value of what it is found for -/
def Lookup.Faithful (find : Lookup) : Prop := ∀ {f g : Formula}, find f = some g → ∀ v : Valuation, g.eval v = f.eval v

/-- the two sides of each rule have the same value -/
def RuleSet.Sound (s : RuleSet) : Prop := ∀ r ∈ s.toList, ∀ v : Valuation, r.pattern.eval v = r.canonical.eval v

namespace Reduction

variable {find : Lookup}

theorem eval_of_step (hfind : find.Faithful) {f g : Formula} (h : Step find f g) (v : Valuation) :
    g.eval v = f.eval v := by
  induction h with
  | replace _ found => exact hfind found v
  | neg _ ih => rw [Formula.eval, Formula.eval, ih]
  | antecedent _ ih => rw [Formula.eval, Formula.eval, ih]
  | consequent _ ih => rw [Formula.eval, Formula.eval, ih]

theorem eval_of_steps (hfind : find.Faithful) {f g : Formula} (h : Steps find f g) (v : Valuation) :
    g.eval v = f.eval v := by
  induction h with
  | refl => rfl
  | tail _ hstep ih => rw [eval_of_step hfind hstep, ih]

/-- a reduction keeps the value on every valuation -/
theorem eval_of_reduceWithLimit (hfind : find.Faithful) {limit : Nat} {f g : Formula}
    (h : reduceWithLimit find limit f = .ok g) (v : Valuation) : g.eval v = f.eval v :=
  eval_of_steps hfind (steps_of_passes h) v

end Reduction

/-- a repository of sound rules keeps the value of what it replaces -/
theorem Repository.Represents.faithful_replacement? {repo : Repository} {s : RuleSet} {m : Matching}
    (h : repo.Represents s m) (hs : s.WellFormed) (hsound : s.Sound) : Lookup.Faithful repo.replacement? := by
  intro f g hg v
  obtain ⟨r, bindings, hr, rfl, rfl⟩ := h.replacement?_sound hs.keyed hg
  rw [Formula.eval_substitute, Formula.eval_substitute, hsound r hr]

/-- **Reduction keeps values.** Let the two sides of each rule of a set have the same value on every valuation. In memory or
compiled, matched either way and under any limit, what a formula reduces to has the value of the formula on every
valuation. -/
theorem reduction_keeps_value {s : RuleSet} (hs : s.Built) (hsound : s.Sound) (m : Matching) (b : Backend) :
    ∃ repo, s.repository m b = .ok repo ∧ ∀ (limit : Nat) (f g : Formula),
      reduceWithLimit repo.replacement? limit f = .ok g → ∀ v : Valuation, g.eval v = f.eval v := by
  obtain ⟨repo, hrepo, hrepresents⟩ := RuleSet.repository_represents hs m b
  have hfaithful : Lookup.Faithful repo.replacement? := hrepresents.faithful_replacement? hs.wellFormed hsound
  refine ⟨repo, hrepo, ?_⟩
  intro limit f g h
  exact Reduction.eval_of_reduceWithLimit hfaithful h

/-! ## A premise that is there twice -/

theorem one_lt_idBound : 1 < Text.idBound := by decide

theorem two_lt_idBound : 2 < Text.idBound := by decide

def varOne : Formula := .var ⟨1, Nat.one_pos, one_lt_idBound⟩

def varTwo : Formula := .var ⟨2, Nat.two_pos, two_lt_idBound⟩

/-- a premise need not be there twice: `* 1. * 1. 2.` gives way to `* 1. 2.` -/
def repeatedPremise : Rule := ⟨.imp varOne (.imp varOne varTwo), .imp varOne varTwo⟩

theorem toList_repeatedPremise : (RuleSet.build [.rule repeatedPremise]).toList = [repeatedPremise] :=
  RuleSet.toList_build_rule (by decide) (by simp [repeatedPremise, varOne, varTwo])

/-- `* - 2. * - 2. 1.`, where the pattern has to put `- 2.` for its first variable and `1.` for its second -/
def premiseTwice : Formula := .imp (.neg varTwo) (.imp (.neg varTwo) varOne)

/-- `* - 2. 1.` -/
def premiseOnce : Formula := .imp (.neg varTwo) varOne

/-- the formula has the variables of the pattern the other way round; the values stay all the same -/
theorem reduction_keeps_value_premiseTwice :
    (RuleSet.build [.rule repeatedPremise]).Built ∧ (RuleSet.build [.rule repeatedPremise]).Sound ∧
      ∃ repo, (RuleSet.build [.rule repeatedPremise]).repository .byInstance .indexed = .ok repo ∧
        reduceWithLimit repo.replacement? 2 premiseTwice = .ok premiseOnce ∧
        ∀ v : Valuation, premiseOnce.eval v = premiseTwice.eval v := by
  have hsound : (RuleSet.build [.rule repeatedPremise]).Sound := by
    rw [RuleSet.Sound, toList_repeatedPremise, List.forall_mem_singleton]
    intro v
    simp only [repeatedPremise, Formula.eval, ← Bool.or_assoc, Bool.or_self]
  obtain ⟨repo, hrepo, h⟩ := reduction_keeps_value (.calls [.rule repeatedPremise]) hsound .byInstance .indexed
  have hreduce : reduceWithLimit repo.replacement? 2 premiseTwice = .ok premiseOnce := by
    rw [RuleSet.replacement?_rule toList_repeatedPremise hrepo]
    rfl
  exact ⟨.calls _, hsound, repo, hrepo, hreduce, h 2 premiseTwice premiseOnce hreduce⟩

end ClauseFold
