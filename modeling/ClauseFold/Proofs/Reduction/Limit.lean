/-
What a fixed limit on passes does to rules that come to an end. With rules that shrink each pass but the last takes a symbol
away, so the passes that a formula needs are bounded by what its reduction takes away. They are not bounded over all
formulas: a pass does not look at a replacement again, so a rule that moves a negation out from under a connective can be
applied only once in a pass to a tower of negations, however many there are. A limit that is enough for all formulas does
not exist, not even for one such rule that is sound.

Results:
- `passes_of_length_lt`: more passes than symbols are taken away are enough;
- `reduce_of_length_lt`: so reductions that take fewer symbols away than the default limit do not meet it;
- `passes_tower`, `reduceWithLimit_tower`: towers of negations meet any limit, and one pass more reduces them;
- `passLimit_of_descent`: such a tower with the default limit.
-/
import ClauseFold.Proofs.Reduction.Shrinking

namespace ClauseFold

namespace Reduction

variable {find : Lookup}

/-! ## Passes that a reduction needs -/

theorem passes_unique {limit limit' n k : Nat} {f g g' : Formula} (h : passes find limit n f = .ok g)
    (h' : passes find limit' k f = .ok g') : g = g' := by
  have hmore := passes_add h limit k
  rw [Nat.add_comm, passes_add h' limit n] at hmore
  exact (Except.ok.inj hmore).symm

theorem length_of_passes (hfind : find.Shortens) {limit n : Nat} {f g : Formula}
    (h : passes find limit n f = .ok g) : g.length ≤ f.length := by
  obtain ⟨g', hg', hlength⟩ := passes_of_shortens hfind limit (Nat.le_refl f.length)
  rw [passes_unique h hg']
  omega

/-- more passes than symbols are taken away are enough -/
theorem passes_of_length_lt (hfind : find.Shortens) {limit n k : Nat} {f g : Formula}
    (h : passes find limit n f = .ok g) (hk : f.length < g.length + k) (limit' : Nat) :
    passes find limit' k f = .ok g := by
  induction n generalizing f k with
  | zero => cases h
  | succ n ih =>
    have hpass := length_rewrite hfind f
    rw [passes_succ] at h
    by_cases hzero : (rewrite find f).2 = 0
    · rw [if_pos hzero] at h
      cases h
      obtain ⟨k, rfl⟩ : ∃ j, k = j + 1 := Nat.exists_eq_succ_of_ne_zero (by omega)
      rw [passes_succ, if_pos hzero]
    · rw [if_neg hzero] at h
      have hrest := length_of_passes hfind h
      obtain ⟨k, rfl⟩ : ∃ j, k = j + 1 := Nat.exists_eq_succ_of_ne_zero (by omega)
      rw [passes_succ, if_neg hzero]
      exact ih h (by omega)

end Reduction

/-! ## Towers of negations -/

/-- `* T - - - 1.` gives way to `- * T 1.`: two of three negations go, and one comes out -/
def descent : Rule := ⟨.imp (.const true) (.neg (.neg (.neg varOne))), .neg (.imp (.const true) varOne)⟩

def Formula.negated (f : Formula) : Nat → Formula
  | 0 => f
  | n + 1 => .neg (f.negated n)

/-- `* T`, three times so many negations, and `1.` -/
def tower (n : Nat) : Formula := .imp (.const true) (varOne.negated (3 * n))

theorem Formula.negated_neg (f : Formula) (n : Nat) : (neg f).negated n = f.negated (n + 1) := by
  induction n with
  | zero => rfl
  | succ n ih =>
    rw [negated, ih]
    rfl

theorem Formula.length_negated (f : Formula) (n : Nat) : (f.negated n).length = f.length + n := by
  induction n with
  | zero => rfl
  | succ n ih => rw [negated, length, ih, Nat.add_assoc]

theorem length_tower (n : Nat) : (tower n).length = 3 * n + 3 := by
  simp only [tower, varOne, Formula.length, Formula.length_negated]
  omega

namespace Reduction

theorem rewrite_negated (f : Formula) (n : Nat) :
    rewrite descent.lookup (f.negated n) = ((rewrite descent.lookup f).1.negated n, (rewrite descent.lookup f).2) := by
  induction n with
  | zero => rfl
  | succ n ih =>
    rw [Formula.negated, rewrite, ih]
    exact replace_of_none rfl _

/-- a pass over a tower takes three negations off, and then does not look at what it has put there -/
theorem rewrite_tower (n : Nat) : rewrite descent.lookup (tower (n + 1)) = (.neg (tower n), 1) := by
  rw [tower, rewrite, rewrite_negated]
  rfl

theorem rewrite_tower_zero : rewrite descent.lookup (tower 0) = (tower 0, 0) := rfl

/-- with three times `n` negations, each of `n` passes makes a replacement -/
theorem passes_tower (limit n k : Nat) :
    passes descent.lookup limit n ((tower n).negated k) = .error (.passLimit limit) := by
  induction n generalizing k with
  | zero => rfl
  | succ n ih =>
    rw [passes_succ, rewrite_negated, rewrite_tower, if_neg (Nat.succ_ne_zero 0), Formula.negated_neg]
    exact ih (k + 1)

/-- one pass more finds nothing to replace -/
theorem passes_tower_succ (limit n k : Nat) :
    passes descent.lookup limit (n + 1) ((tower n).negated k) = .ok ((tower 0).negated (n + k)) := by
  induction n generalizing k with
  | zero =>
    rw [passes_succ, rewrite_negated, rewrite_tower_zero, if_pos rfl, Nat.zero_add]
  | succ n ih =>
    rw [passes_succ, rewrite_negated, rewrite_tower, if_neg (Nat.succ_ne_zero 0), Formula.negated_neg, ih, Nat.succ_add,
      Nat.add_succ]

/-- no limit is enough for all towers, though each has one -/
theorem reduceWithLimit_tower (limit : Nat) :
    reduceWithLimit descent.lookup limit (tower limit) = .error (.passLimit limit) ∧
    reduceWithLimit descent.lookup (limit + 1) (tower limit) = .ok ((tower 0).negated limit) :=
  ⟨passes_tower limit limit 0, passes_tower_succ (limit + 1) limit 0⟩

end Reduction

theorem toList_descent : (RuleSet.build [.rule descent]).toList = [descent] :=
  RuleSet.toList_build_rule (by decide) (by simp [descent])

theorem shrinking_descent : (RuleSet.build [.rule descent]).Shrinking := by
  rw [RuleSet.Shrinking, toList_descent, List.forall_mem_singleton]
  exact ⟨by decide, by simp [descent]⟩

theorem sound_descent : (RuleSet.build [.rule descent]).Sound := by
  rw [RuleSet.Sound, toList_descent, List.forall_mem_singleton]
  intro v
  simp only [descent, Formula.eval, Bool.not_true, Bool.false_or, Bool.not_not]

/-! ## The default limit -/

/-- **The default limit is enough for what takes few symbols away.** Let the canonical side of each rule of a set be
shorter than the pattern and have no variable more often. Then each formula reduces to something within its length. Under
the default limit it does so too if fewer symbols are taken away than the limit has passes, however long the formula is;
otherwise it does so or meets the limit. -/
theorem reduce_of_length_lt {s : RuleSet} (hs : s.Built) (hshrinking : s.Shrinking) (m : Matching) (b : Backend) :
    ∃ repo, s.repository m b = .ok repo ∧ ∀ f : Formula, ∃ g,
      reduceWithLimit repo.replacement? f.length f = .ok g ∧
      (f.length < g.length + defaultPassLimit → reduce repo.replacement? f = .ok g) ∧
      (reduce repo.replacement? f = .ok g ∨ reduce repo.replacement? f = .error (.passLimit defaultPassLimit)) := by
  obtain ⟨repo, hrepo, hrepresents⟩ := RuleSet.repository_represents hs m b
  have hfind : Lookup.Shortens repo.replacement? := hrepresents.shortens hs.wellFormed hshrinking
  refine ⟨repo, hrepo, ?_⟩
  intro f
  obtain ⟨g, hg, -⟩ := Reduction.passes_of_shortens hfind f.length (Nat.le_refl f.length)
  refine ⟨g, hg, ?_, ?_⟩
  · intro hlength
    exact Reduction.passes_of_length_lt hfind hg hlength defaultPassLimit
  · rcases Reduction.passes_cases repo.replacement? defaultPassLimit defaultPassLimit f with ⟨g', hg'⟩ | herror
    · rw [Reduction.passes_unique hg hg']
      exact Or.inl hg'
    · exact Or.inr herror

/-- a tower of 381 negations loses 254 symbols in 127 passes, and is longer than the default limit -/
theorem reduce_of_length_lt_descent :
    (RuleSet.build [.rule descent]).Built ∧ (RuleSet.build [.rule descent]).Shrinking ∧
      ∃ repo, (RuleSet.build [.rule descent]).repository .byInstance .memory = .ok repo ∧
        (tower 127).length = 384 ∧ ((tower 0).negated 127).length = 130 ∧
        reduce repo.replacement? (tower 127) = .ok ((tower 0).negated 127) := by
  obtain ⟨repo, hrepo, h⟩ := reduce_of_length_lt (.calls [.rule descent]) shrinking_descent .byInstance .memory
  have hlong : (tower 127).length = 384 := length_tower 127
  have hshort : ((tower 0).negated 127).length = 130 := by rw [Formula.length_negated, length_tower]
  obtain ⟨g, hg, hfew, -⟩ := h (tower 127)
  rw [RuleSet.replacement?_rule toList_descent hrepo] at hg
  have hresult : g = (tower 0).negated 127 := Reduction.passes_unique hg (Reduction.passes_tower_succ 128 127 0)
  subst hresult
  exact ⟨.calls _, shrinking_descent, repo, hrepo, hlong, hshort, hfew (by rw [defaultPassLimit]; omega)⟩

/-- **A sound rule that shrinks meets the default limit.** A tower of 768 negations needs 257 passes, and the default limit
ends its reduction after 256 of them, all of which have made a replacement. -/
theorem passLimit_of_descent :
    (RuleSet.build [.rule descent]).Built ∧ (RuleSet.build [.rule descent]).Shrinking ∧
      (RuleSet.build [.rule descent]).Sound ∧
      ∃ repo, (RuleSet.build [.rule descent]).repository .byInstance .memory = .ok repo ∧
        reduce repo.replacement? (tower 256) = .error (.passLimit 256) ∧
        reduceWithLimit repo.replacement? 257 (tower 256) = .ok ((tower 0).negated 256) := by
  obtain ⟨repo, hrepo, -⟩ := RuleSet.repository_represents (.calls [.rule descent]) .byInstance .memory
  obtain ⟨hmet, hmore⟩ := Reduction.reduceWithLimit_tower 256
  rw [← RuleSet.replacement?_rule toList_descent hrepo] at hmet hmore
  exact ⟨.calls _, shrinking_descent, sound_descent, repo, hrepo, hmet, hmore⟩

end ClauseFold
