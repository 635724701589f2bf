/-
Verification of rules decides what it is for. A truth table has rows of bits, and a bit stands for the variable that is at
its position in a list, whatever numbers the variables have. Each valuation of the listed variables is a row, so two sides
that agree on all rows agree on all valuations. Rules are checked in order of pattern, and the first that fails ends it.

Results:
- `exists_row`: for each valuation there is a row that gives the listed variables its values;
- `agreeOn_vars_iff`: to agree on all rows is to agree on all valuations;
- `verify_eq_ok_iff`, `verify_error`: which rules pass, and what is said of the others;
- `verify_decides`: what verification says of a set.
-/
import Mathlib.Data.Finset.Card
import Mathlib.Tactic.SplitIfs
import ClauseFold.Rules.Verification
import ClauseFold.Proofs.Repository.Backends
import ClauseFold.Proofs.Text.Lines

namespace ClauseFold

/-- some row of a truth table gives the listed variables the values that a valuation gives them -/
theorem Valuation.exists_row (v : Valuation) (xs : List VarId) :
    ∃ row < 1 <<< xs.length, ∀ x ∈ xs, Valuation.ofRow xs row x = v x := by
  refine ⟨Nat.ofBits fun i : Fin xs.length => v xs[i], ?_, ?_⟩
  · rw [Nat.one_shiftLeft]
    exact Nat.ofBits_lt_two_pow _
  · intro x hx
    unfold Valuation.ofRow
    cases hposition : xs.idxOf? x with
    | none => exact absurd hx (List.idxOf?_eq_none_iff.mp hposition)
    | some i =>
      obtain ⟨hi, rfl, -⟩ := List.idxOf?_eq_some_iff.mp hposition
      exact Nat.testBit_ofBits_lt _ i hi

namespace Rule

/-- how many variables there are on the two sides, each counted once -/
def variableCount (r : Rule) : Nat := (r.pattern.occurrences ++ r.canonical.occurrences).toFinset.card

/-- what verification is to find out: the rule has no more than sixteen variables, and both sides have the same value on all
valuations -/
structure Verified (r : Rule) : Prop where
  few : r.variableCount ≤ 16
  sound : ∀ v : Valuation, r.pattern.eval v = r.canonical.eval v

theorem mem_vars {r : Rule} {x : VarId} : x ∈ r.vars ↔ x ∈ r.pattern.occurrences ∨ x ∈ r.canonical.occurrences := by
  unfold vars
  rw [Std.ExtTreeSet.mem_toList, Std.ExtTreeSet.mem_ofList, List.contains_iff_mem, List.mem_append]

theorem length_vars (r : Rule) : r.vars.length = r.variableCount := by
  have hnodup : r.vars.Nodup := by
    apply Std.ExtTreeSet.distinct_toList.imp
    intro x y hxy heq
    exact hxy (heq ▸ Std.ReflOrd.compare_self)
  have hsame : r.vars.toFinset = (r.pattern.occurrences ++ r.canonical.occurrences).toFinset := by
    ext x
    rw [List.mem_toFinset, List.mem_toFinset, mem_vars, List.mem_append]
  rw [variableCount, ← hsame, List.toFinset_card_of_nodup hnodup]

/-- to agree on all rows of the table is to agree on all valuations -/
theorem agreeOn_vars_iff (r : Rule) :
    r.agreeOn r.vars = true ↔ ∀ v : Valuation, r.pattern.eval v = r.canonical.eval v := by
  simp only [agreeOn, List.all_eq_true, List.mem_range, beq_iff_eq]
  refine ⟨?_, fun h row _ => h _⟩
  intro h v
  obtain ⟨row, hrow, hsame⟩ := v.exists_row r.vars
  calc r.pattern.eval v
      = r.pattern.eval (.ofRow r.vars row) :=
        Formula.eval_congr _ fun x hx => (hsame x (mem_vars.mpr (Or.inl hx))).symm
    _ = r.canonical.eval (.ofRow r.vars row) := h row hrow
    _ = r.canonical.eval v := Formula.eval_congr _ fun x hx => hsame x (mem_vars.mpr (Or.inr hx))

theorem verify_eq (r : Rule) :
    r.verify =
      if 16 < r.variableCount then .error (.unverifiable r.pattern)
      else if r.agreeOn r.vars then .ok ()
      else .error (.unsound r.pattern) := by
  rw [← length_vars]
  rfl

theorem verify_eq_ok_iff (r : Rule) : r.verify = .ok () ↔ r.Verified := by
  rw [verify_eq]
  by_cases hmany : 16 < r.variableCount
  · rw [if_pos hmany]
    refine ⟨?_, ?_⟩
    · intro h
      cases h
    · intro h
      exact absurd h.few (Nat.not_le_of_lt hmany)
  · rw [if_neg hmany]
    by_cases hagree : r.agreeOn r.vars = true
    · rw [if_pos hagree]
      exact ⟨fun _ => ⟨Nat.le_of_not_lt hmany, r.agreeOn_vars_iff.mp hagree⟩, fun _ => rfl⟩
    · rw [if_neg hagree]
      refine ⟨?_, ?_⟩
      · intro h
        cases h
      · intro h
        exact absurd (r.agreeOn_vars_iff.mpr h.sound) hagree

/-- what is said of a rule that does not pass -/
theorem verify_error {r : Rule} {e : RuleError} (h : r.verify = .error e) :
    e = if 16 < r.variableCount then .unverifiable r.pattern else .unsound r.pattern := by
  rw [verify_eq] at h
  split_ifs at h ⊢ <;> cases h <;> rfl

end Rule

namespace RuleSet

/-- of two rules the one that is listed first has the lesser pattern, in order of bytes -/
theorem utf8_lt_of_toList {s : RuleSet} (hs : s.Keyed) {before after : List Rule} {r r' : Rule}
    (h : s.toList = before ++ r :: after) (hr' : r' ∈ after) :
    Text.utf8 r.pattern.encode < Text.utf8 r'.pattern.encode := by
  have hascending := ascending_patterns hs
  rw [patterns, List.map_map, h, List.map_append, List.map_cons] at hascending
  have hbehind := (List.pairwise_append.mp hascending).2.1
  have hlt : r.pattern.encode < r'.pattern.encode :=
    (compare_eq_lt_iff _ _).mp (List.rel_of_pairwise_cons hbehind (List.mem_map_of_mem hr'))
  exact Text.utf8_lt (fun _ => Formula.lt_of_mem_encode) (fun _ => Formula.lt_of_mem_encode) hlt

/-- **Verification decides soundness.** A set is verified exactly if each of its rules has no more than sixteen variables
and two sides of the same value on every valuation. Otherwise the error is about the rule of the least pattern, in order of
bytes, among those that fail, and says that it cannot be verified if it has more variables, and that it is not sound if it
has not. -/
theorem verify_decides {s : RuleSet} (hs : s.Built) :
    (s.verify = .ok () ↔ ∀ r ∈ s.toList, r.Verified) ∧
    ∀ e, s.verify = .error e → ∃ r ∈ s.toList, ¬r.Verified ∧
      (∀ r' ∈ s.toList, ¬r'.Verified → Text.utf8 r.pattern.encode ≤ Text.utf8 r'.pattern.encode) ∧
      e = if 16 < r.variableCount then .unverifiable r.pattern else .unsound r.pattern := by
  refine ⟨?_, ?_⟩
  · rw [verify, forM_eq_ok]
    exact forall₂_congr fun r _ => r.verify_eq_ok_iff
  · intro e he
    obtain ⟨before, r, after, hlist, hbefore, hr⟩ := exists_of_forM_error he
    refine ⟨r, by simp [hlist], ?_, ?_, Rule.verify_error hr⟩
    · rw [← Rule.verify_eq_ok_iff, hr]
      intro hok
      cases hok
    · intro r' hr' hfails
      rw [hlist, List.mem_append, List.mem_cons] at hr'
      rcases hr' with hearlier | rfl | hlater
      · exact absurd ((Rule.verify_eq_ok_iff r').mp (hbefore r' hearlier)) hfails
      · exact List.le_refl _
      · exact List.le_of_lt (utf8_lt_of_toList hs.wellFormed.keyed hlist hlater)

/-- an implication is not its converse: `* 7. 4000000000.` may not give way to `* 4000000000. 7.` -/
def converse : Rule :=
  ⟨.imp (.var ⟨7, by decide, by decide⟩) (.var ⟨4000000000, by decide, by decide⟩),
    .imp (.var ⟨4000000000, by decide, by decide⟩) (.var ⟨7, by decide, by decide⟩)⟩

/-- `- T` may not give way to `T` -/
def constantKept : Rule := ⟨.neg (.const true), .const true⟩

/-- of three rules two are not sound, and the error is about the one of the lesser pattern, which was added last -/
theorem verify_decides_converse :
    (build [.rule constantKept, .rule doubleNegation, .rule converse]).Built ∧
      (build [.rule constantKept, .rule doubleNegation, .rule converse]).verify = .error (.unsound converse.pattern) ∧
      ¬(∀ r ∈ (build [.rule constantKept, .rule doubleNegation, .rule converse]).toList, r.Verified) ∧
      ∃ r ∈ (build [.rule constantKept, .rule doubleNegation, .rule converse]).toList,
        r.pattern = converse.pattern ∧ ¬r.Verified := by
  have hverify : (build [.rule constantKept, .rule doubleNegation, .rule converse]).verify =
      .error (.unsound converse.pattern) := by decide +kernel
  obtain ⟨hok, herror⟩ := verify_decides (.calls [.rule constantKept, .rule doubleNegation, .rule converse])
  refine ⟨.calls _, hverify, ?_, ?_⟩
  · rw [← hok, hverify]
    intro h
    cases h
  · obtain ⟨r, hr, hfails, -, he⟩ := herror _ hverify
    refine ⟨r, hr, ?_, hfails⟩
    split_ifs at he
    exact (RuleError.unsound.inj he).symm

end RuleSet

end ClauseFold
