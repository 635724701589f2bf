/-
Rules that make formulas shorter. The canonical side of such a rule is shorter than the pattern and has no variable more
often. What a variable is bound to can be as long as it likes: it stands in the instance of the canonical side no more
often than in that of the pattern, and so the one instance is shorter than the other as well. Each replacement then takes
at least one symbol away, however many there are in a pass, and as many passes as the formula has symbols are enough, the
last one included, which finds nothing.

Results:
- `length_apply`: the length of an instance;
- `Shrinks.length_lt`: each instance of the canonical side is shorter than that of the pattern;
- `length_rewrite`: a pass takes at least as many symbols away as it makes replacements;
- `passes_of_shortens`: so do all passes, and as many as there are symbols are enough;
- `reduces_within_length`: all of it for the rules of a set.
-/
import Mathlib.Algebra.Order.BigOperators.Group.List
import Mathlib.Algebra.Order.Ring.Nat
import ClauseFold.Proofs.Recognizer.Instances
import ClauseFold.Proofs.Reduction.Meaning

namespace ClauseFold

/-! ## One rule -/

namespace Formula

/-- each occurrence of a variable adds what its choice is longer than the variable -/
theorem length_apply (choice : VarId → Formula) (f : Formula) :
    (f.apply choice).length = f.length + (f.occurrences.map fun v => (choice v).length - 1).sum := by
  induction f with
  | const b => rw [occurrences_const]; rfl
  | var v =>
    have hpos := (choice v).length_pos
    simp only [apply, length, occurrences_var, List.map_singleton, List.sum_singleton]
    omega
  | neg f ih =>
    simp only [apply, length, occurrences_neg, ih]
    omega
  | imp a c iha ihc =>
    simp only [apply, length, occurrences_imp, List.map_append, List.sum_append, iha, ihc]
    omega

end Formula

/-- variables that stand no more often in one list than in another weigh no more there -/
theorem sum_le_of_count_le {l l' : List VarId} (h : ∀ v, l.count v ≤ l'.count v) (weight : VarId → Nat) :
    (l.map weight).sum ≤ (l'.map weight).sum := by
  obtain ⟨part, hperm, hsub⟩ := List.subperm_ext_iff.mpr fun v _ => h v
  calc (l.map weight).sum
      = (part.map weight).sum := (hperm.map weight).sum_eq.symm
    _ ≤ (l'.map weight).sum := (hsub.map weight).sum_le_sum fun _ _ => Nat.zero_le _

/-- a rule whose canonical side is shorter than the pattern and has no variable more often -/
structure Rule.Shrinks (r : Rule) : Prop where
  shorter : r.canonical.length < r.pattern.length
  count_le : ∀ v, r.canonical.occurrences.count v ≤ r.pattern.occurrences.count v

theorem Rule.Shrinks.length_lt {r : Rule} (h : r.Shrinks) (b : Bindings) :
    (r.canonical.substitute b).length < (r.pattern.substitute b).length := by
  rw [Formula.substitute_eq_apply, Formula.substitute_eq_apply, Formula.length_apply, Formula.length_apply]
  have hbound := sum_le_of_count_le h.count_le fun v => (b.choice v).length - 1
  have hshorter := h.shorter
  omega

def RuleSet.Shrinking (s : RuleSet) : Prop := ∀ r ∈ s.toList, r.Shrinks

/-- what is found is shorter than what it is found for -/
def Lookup.Shortens (find : Lookup) : Prop := ∀ f g : Formula, find f = some g → g.length < f.length

/-- a repository of rules that shrink replaces formulas with shorter ones -/
theorem Repository.Represents.shortens {repo : Repository} {s : RuleSet} {m : Matching} (h : repo.Represents s m)
    (hs : s.WellFormed) (hshrinking : s.Shrinking) : Lookup.Shortens repo.replacement? := by
  intro f g hg
  obtain ⟨r, bindings, hr, rfl, rfl⟩ := h.replacement?_sound hs.keyed hg
  exact (hshrinking r hr).length_lt bindings

/-! ## Passes -/

namespace Reduction

/-- how many replacements a reduction makes in at most `n` passes -/
def replacements (find : Lookup) : Nat → Formula → Nat
  | 0, _ => 0
  | n + 1, f =>
    match pass find f with
    | .ok (g, count) => if count = 0 then 0 else count + replacements find n g
    | .error _ => 0

variable {find : Lookup}

theorem replacements_succ (n : Nat) (f : Formula) :
    replacements find (n + 1) f =
      if (rewrite find f).2 = 0 then 0 else (rewrite find f).2 + replacements find n (rewrite find f).1 := by
  rw [replacements, pass_eq]

theorem length_replace (hfind : find.Shortens) (f : Formula) (count : Nat) :
    (replace find f count).1.length + (replace find f count).2 ≤ f.length + count := by
  unfold replace
  cases hg : find f with
  | none => exact Nat.le_refl _
  | some g =>
    have hshorter := hfind f g hg
    simp only
    omega

/-- a pass takes at least as many symbols away as it makes replacements -/
theorem length_rewrite (hfind : find.Shortens) (f : Formula) :
    (rewrite find f).1.length + (rewrite find f).2 ≤ f.length := by
  induction f with
  | const b => exact Nat.le_refl _
  | var v => exact Nat.le_refl _
  | neg f ih =>
    have hlast := length_replace hfind (.neg (rewrite find f).1) (rewrite find f).2
    simp only [rewrite, Formula.length] at hlast ⊢
    omega
  | imp a c iha ihc =>
    have hlast :=
      length_replace hfind (.imp (rewrite find a).1 (rewrite find c).1) ((rewrite find a).2 + (rewrite find c).2)
    simp only [rewrite, Formula.length] at hlast ⊢
    omega

/-- as many passes as there are symbols are enough, and they take at least as many symbols away as they make
replacements -/
theorem passes_of_shortens (hfind : find.Shortens) (limit : Nat) {n : Nat} {f : Formula} (hn : f.length ≤ n) :
    ∃ g, passes find limit n f = .ok g ∧ g.length + replacements find n f ≤ f.length := by
  induction n generalizing f with
  | zero => exact absurd hn (Nat.not_le_of_lt f.length_pos)
  | succ n ih =>
    have hpass := length_rewrite hfind f
    rw [passes_succ, replacements_succ]
    by_cases hzero : (rewrite find f).2 = 0
    · rw [if_pos hzero, if_pos hzero]
      exact ⟨_, rfl, by omega⟩
    · rw [if_neg hzero, if_neg hzero]
      -- this pass took a symbol away, so what is left is within one pass less
      obtain ⟨g, hg, hlength⟩ := ih (f := (rewrite find f).1) (by omega)
      exact ⟨g, hg, by omega⟩

end Reduction

/-- **Rules that shrink reduce a formula within its length.** Let the canonical side of each rule of a set be shorter than
the pattern and have no variable more often. In memory or compiled, matched either way, each formula reduces under any
limit from its own length on. It gets no longer, and if any replacement was made it gets shorter. -/
theorem reduces_within_length {s : RuleSet} (hs : s.Built) (hshrinking : s.Shrinking) (m : Matching) (b : Backend) :
    ∃ repo, s.repository m b = .ok repo ∧ ∀ (f : Formula) (limit : Nat), f.length ≤ limit →
      ∃ g, reduceWithLimit repo.replacement? limit f = .ok g ∧ g.length ≤ f.length ∧
        (0 < Reduction.replacements repo.replacement? limit f → g.length < f.length) := by
  obtain ⟨repo, hrepo, hrepresents⟩ := RuleSet.repository_represents hs m b
  have hfind : Lookup.Shortens repo.replacement? := hrepresents.shortens hs.wellFormed hshrinking
  refine ⟨repo, hrepo, ?_⟩
  intro f limit hlimit
  obtain ⟨g, hg, hlength⟩ := Reduction.passes_of_shortens hfind limit hlimit
  exact ⟨g, hg, by omega, by omega⟩

theorem shrinking_repeatedPremise : (RuleSet.build [.rule repeatedPremise]).Shrinking := by
  rw [RuleSet.Shrinking, toList_repeatedPremise, List.forall_mem_singleton]
  refine ⟨by decide, ?_⟩
  intro v
  simp only [repeatedPremise, Formula.occurrences_imp, List.count_append]
  omega

/-- `* - 2. * - 2. 1.` reduces within its length of seven, to something shorter -/
theorem reduces_within_length_premiseTwice :
    (RuleSet.build [.rule repeatedPremise]).Built ∧ (RuleSet.build [.rule repeatedPremise]).Shrinking ∧
      ∃ repo, (RuleSet.build [.rule repeatedPremise]).repository .byInstance .indexed = .ok repo ∧
        premiseTwice.length ≤ 7 ∧ 0 < Reduction.replacements repo.replacement? 7 premiseTwice ∧
        ∃ g, reduceWithLimit repo.replacement? 7 premiseTwice = .ok g ∧ g.length < premiseTwice.length := by
  obtain ⟨repo, hrepo, h⟩ :=
    reduces_within_length (.calls [.rule repeatedPremise]) shrinking_repeatedPremise .byInstance .indexed
  have hmade : 0 < Reduction.replacements repo.replacement? 7 premiseTwice := by
    rw [RuleSet.replacement?_rule toList_repeatedPremise hrepo]
    decide
  obtain ⟨g, hg, -, hshorter⟩ := h premiseTwice 7 (by decide)
  exact ⟨.calls _, shrinking_repeatedPremise, repo, hrepo, by decide, hmade, g, hg, hshorter hmade⟩

end ClauseFold
