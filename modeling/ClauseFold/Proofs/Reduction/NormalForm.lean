/-
Where reduction ends. `Step` is the rewriting relation of a look-up: one occurrence of a negation or an implication
gives way to what the look-up answers for it. Reduction follows that relation and stops at formulas without an answer
anywhere, for every look-up, confluent or not and whether or not its steps come to an end.

A pass puts replacements in without looking at them again, so what it comes out with need not be normal. What makes the
last pass different is that it made no replacement: then it has left the formula as it was and has looked at all of it.

Results:
- `steps_rewrite`, `rewrite_of_count_zero`: a pass is made of steps, and one without a replacement met a normal form;
- `steps_of_passes`, `normal_of_passes`: so are several passes, up to the normal form they end in;
- `passes_eq_error_iff`: the limit is met exactly if each pass up to it makes a replacement;
- `reduceWithLimit_normalizes`: all of it for a reduction.
-/
import Mathlib.Logic.Relation
import ClauseFold.Proofs.Reduction.Pass

namespace ClauseFold

/-- negations and implications; a pass looks up nothing else -/
def Formula.Composite : Formula → Prop
  | const _ => False
  | var _ => False
  | neg _ => True
  | imp _ _ => True

namespace Reduction

/-- one occurrence of a composite formula gives way to what is found for it -/
inductive Step (find : Lookup) : Formula → Formula → Prop where
  | replace {s t : Formula} (composite : s.Composite) (found : find s = some t) : Step find s t
  | neg {f g : Formula} (inner : Step find f g) : Step find (.neg f) (.neg g)
  | antecedent {a b c : Formula} (inner : Step find a b) : Step find (.imp a c) (.imp b c)
  | consequent {a c d : Formula} (inner : Step find c d) : Step find (.imp a c) (.imp a d)

abbrev Steps (find : Lookup) : Formula → Formula → Prop := Relation.ReflTransGen (Step find)

/-- nothing is found for any composite subformula -/
def Normal (find : Lookup) (f : Formula) : Prop := ∀ s ∈ f.preorder, s.Composite → find s = none

/-- each of the first `n` passes makes a replacement; `between i` is the formula after `i` of them -/
def Busy (find : Lookup) (n : Nat) (f : Formula) : Prop :=
  ∃ between : Nat → Formula, between 0 = f ∧
    ∀ i < n, ∃ count, 0 < count ∧ pass find (between i) = .ok (between (i + 1), count)

variable {find : Lookup}

/-! ## One pass -/

theorem steps_imp {a b c d : Formula} (hab : Steps find a b) (hcd : Steps find c d) :
    Steps find (.imp a c) (.imp b d) := by
  have hleft : Steps find (.imp a c) (.imp b c) := by
    apply hab.lift (fun x => Formula.imp x c)
    intro x y h
    exact Step.antecedent h
  have hright : Steps find (.imp b c) (.imp b d) := by
    apply hcd.lift (fun x => Formula.imp b x)
    intro x y h
    exact Step.consequent h
  exact hleft.trans hright

theorem steps_replace {f : Formula} (hf : f.Composite) (count : Nat) : Steps find f (replace find f count).1 := by
  unfold replace
  cases hfind : find f with
  | none => exact .refl
  | some g => exact .single (.replace hf hfind)

/-- a pass is made of steps -/
theorem steps_rewrite (f : Formula) : Steps find f (rewrite find f).1 := by
  induction f with
  | const b => exact .refl
  | var v => exact .refl
  | neg f ih =>
    have hinner : Steps find (.neg f) (.neg (rewrite find f).1) := by
      apply ih.lift Formula.neg
      intro x y h
      exact Step.neg h
    exact hinner.trans (steps_replace (f := .neg _) trivial _)
  | imp a c iha ihc =>
    have hinner : Steps find (.imp a c) (.imp (rewrite find a).1 (rewrite find c).1) := steps_imp iha ihc
    exact hinner.trans (steps_replace (f := .imp _ _) trivial _)

theorem replace_of_count_zero {f : Formula} {count : Nat} (h : (replace find f count).2 = 0) :
    find f = none ∧ (replace find f count).1 = f ∧ count = 0 := by
  unfold replace at h ⊢
  cases hfind : find f with
  | none => rw [hfind] at h; exact ⟨rfl, rfl, h⟩
  | some g => rw [hfind] at h; exact absurd h (Nat.succ_ne_zero count)

theorem normal_neg_iff {f : Formula} : Normal find (.neg f) ↔ find (.neg f) = none ∧ Normal find f := by
  unfold Normal
  rw [Formula.preorder_neg, List.forall_mem_cons]
  exact and_congr_left fun _ => ⟨fun h => h trivial, fun h _ => h⟩

theorem normal_imp_iff {a c : Formula} :
    Normal find (.imp a c) ↔ find (.imp a c) = none ∧ Normal find a ∧ Normal find c := by
  unfold Normal
  rw [Formula.preorder_imp, List.forall_mem_cons, List.forall_mem_append]
  exact and_congr_left fun _ => ⟨fun h => h trivial, fun h _ => h⟩

theorem normal_const (b : Bool) : Normal find (.const b) := by
  intro s hs hcomposite
  rw [Formula.preorder_const, List.mem_singleton] at hs
  subst hs
  exact hcomposite.elim

theorem normal_var (v : VarId) : Normal find (.var v) := by
  intro s hs hcomposite
  rw [Formula.preorder_var, List.mem_singleton] at hs
  subst hs
  exact hcomposite.elim

/-- a pass without a replacement has left the formula as it was, and has looked at all of it -/
theorem rewrite_of_count_zero {f : Formula} (h : (rewrite find f).2 = 0) :
    (rewrite find f).1 = f ∧ Normal find f := by
  induction f with
  | const b => exact ⟨rfl, normal_const b⟩
  | var v => exact ⟨rfl, normal_var v⟩
  | neg f ih =>
    rw [rewrite] at h ⊢
    obtain ⟨hnone, hsame, hcount⟩ := replace_of_count_zero h
    obtain ⟨hf, hnormal⟩ := ih hcount
    rw [hf] at hnone hsame ⊢
    exact ⟨hsame, normal_neg_iff.mpr ⟨hnone, hnormal⟩⟩
  | imp a c iha ihc =>
    rw [rewrite] at h ⊢
    obtain ⟨hnone, hsame, hcount⟩ := replace_of_count_zero h
    obtain ⟨ha, hnormala⟩ := iha (Nat.eq_zero_of_add_eq_zero_right hcount)
    obtain ⟨hc, hnormalc⟩ := ihc (Nat.eq_zero_of_add_eq_zero_left hcount)
    rw [ha, hc] at hnone hsame ⊢
    exact ⟨hsame, normal_imp_iff.mpr ⟨hnone, hnormala, hnormalc⟩⟩

theorem replace_of_none {f : Formula} (h : find f = none) (count : Nat) : replace find f count = (f, count) := by
  unfold replace
  rw [h]

/-- a pass over a normal form finds nothing -/
theorem rewrite_of_normal {f : Formula} (h : Normal find f) : rewrite find f = (f, 0) := by
  induction f with
  | const b => rfl
  | var v => rfl
  | neg f ih =>
    obtain ⟨hnone, hf⟩ := normal_neg_iff.mp h
    rw [rewrite, ih hf, replace_of_none hnone]
  | imp a c iha ihc =>
    obtain ⟨hnone, ha, hc⟩ := normal_imp_iff.mp h
    rw [rewrite, iha ha, ihc hc]
    exact replace_of_none hnone 0

/-! ## Several passes -/

theorem passes_of_normal {f : Formula} (h : Normal find f) (limit n : Nat) :
    passes find limit (n + 1) f = .ok f := by
  rw [passes_succ, rewrite_of_normal h, if_pos rfl]

theorem steps_of_passes {limit n : Nat} {f g : Formula} (h : passes find limit n f = .ok g) : Steps find f g := by
  induction n generalizing f with
  | zero => cases h
  | succ n ih =>
    rw [passes_succ] at h
    split at h
    · cases h
      exact steps_rewrite f
    · exact (steps_rewrite f).trans (ih h)

theorem normal_of_passes {limit n : Nat} {f g : Formula} (h : passes find limit n f = .ok g) : Normal find g := by
  induction n generalizing f with
  | zero => cases h
  | succ n ih =>
    rw [passes_succ] at h
    split at h
    case isTrue hzero =>
      cases h
      obtain ⟨hsame, hnormal⟩ := rewrite_of_count_zero hzero
      rw [hsame]
      exact hnormal
    case isFalse => exact ih h

/-- a limit that was enough stays enough when it grows -/
theorem passes_add {limit n : Nat} {f g : Formula} (h : passes find limit n f = .ok g) (limit' k : Nat) :
    passes find limit' (n + k) f = .ok g := by
  induction n generalizing f with
  | zero => cases h
  | succ n ih =>
    rw [passes_succ] at h
    rw [Nat.add_right_comm, passes_succ]
    split at h
    case isTrue hzero => rw [if_pos hzero]; exact h
    case isFalse hzero => rw [if_neg hzero]; exact ih h

theorem busy_succ_iff {n : Nat} {f : Formula} :
    Busy find (n + 1) f ↔ 0 < (rewrite find f).2 ∧ Busy find n (rewrite find f).1 := by
  refine ⟨?_, ?_⟩
  · intro hbusy
    rcases hbusy with ⟨between, rfl, hpass⟩
    obtain ⟨count, hcount, hfirst⟩ := hpass 0 (Nat.succ_pos n)
    rw [pass_eq, Except.ok.injEq] at hfirst
    rw [hfirst]
    refine ⟨hcount, fun i => between (i + 1), rfl, ?_⟩
    intro i hi
    exact hpass (i + 1) (Nat.succ_lt_succ hi)
  · intro hbusy
    rcases hbusy with ⟨hcount, between, hstart, hpass⟩
    refine ⟨fun i => Nat.casesOn i f between, rfl, ?_⟩
    intro i hi
    cases i with
    | zero =>
      have hfirst : pass find f = .ok (between 0, (rewrite find f).2) := by rw [hstart, pass_eq]
      exact ⟨_, hcount, hfirst⟩
    | succ i => exact hpass i (Nat.lt_of_succ_lt_succ hi)

theorem passes_cases (find : Lookup) (limit n : Nat) (f : Formula) :
    (∃ g, passes find limit n f = .ok g) ∨ passes find limit n f = .error (.passLimit limit) := by
  induction n generalizing f with
  | zero => exact Or.inr rfl
  | succ n ih =>
    rw [passes_succ]
    split
    · exact Or.inl ⟨_, rfl⟩
    · exact ih _

/-- the limit is met exactly if each pass up to it makes a replacement -/
theorem passes_eq_error_iff {limit n : Nat} {f : Formula} :
    passes find limit n f = .error (.passLimit limit) ↔ Busy find n f := by
  induction n generalizing f with
  | zero =>
    refine ⟨?_, ?_⟩
    · intro _
      exact ⟨fun _ => f, rfl, fun i hi => absurd hi (Nat.not_lt_zero i)⟩
    · intro _
      rfl
  | succ n ih =>
    rw [passes_succ, busy_succ_iff]
    split
    case isTrue hzero =>
      refine ⟨?_, ?_⟩
      · intro h
        cases h
      · intro h
        exact absurd hzero (Nat.ne_of_gt h.1)
    case isFalse hzero =>
      rw [ih]
      refine ⟨?_, ?_⟩
      · intro h
        exact ⟨Nat.pos_of_ne_zero hzero, h⟩
      · intro h
        exact h.2

/-! ## Reductions -/

/-- **Reduction ends in a normal form that steps lead to.** For any look-up, a reduction either gives a formula or
meets its limit, the latter exactly if each pass up to the limit makes a replacement. A formula that it gives is reached
by steps and is normal; it reduces to itself within any limit but zero, and a greater limit gives it too. -/
theorem reduceWithLimit_normalizes (find : Lookup) (limit : Nat) (f : Formula) :
    ((∃ g, reduceWithLimit find limit f = .ok g) ∨ reduceWithLimit find limit f = .error (.passLimit limit)) ∧
    (reduceWithLimit find limit f = .error (.passLimit limit) ↔ Busy find limit f) ∧
    ∀ g, reduceWithLimit find limit f = .ok g →
      Steps find f g ∧ Normal find g ∧
      (∀ m, 1 ≤ m → reduceWithLimit find m g = .ok g) ∧
      ∀ m, limit ≤ m → reduceWithLimit find m f = .ok g := by
  refine ⟨passes_cases find limit limit f, passes_eq_error_iff, ?_⟩
  intro g h
  have hnormal : Normal find g := normal_of_passes h
  refine ⟨steps_of_passes h, hnormal, ?_, ?_⟩
  · intro m hm
    obtain ⟨n, rfl⟩ := Nat.exists_eq_add_of_le' hm
    exact passes_of_normal hnormal (n + 1) n
  · intro m hm
    obtain ⟨k, rfl⟩ := Nat.exists_eq_add_of_le hm
    exact passes_add h (limit + k) k

/-- truth values are taken in by the negation above them -/
def foldConstants : Lookup
  | .neg (.const b) => some (.const !b)
  | _ => none

/-- `- - T` takes two passes, the second of which looks only at `T`; one pass is not enough to see that it is normal -/
theorem reduceWithLimit_normalizes_negations :
    reduceWithLimit foldConstants 1 (.neg (.neg (.const true))) = .error (.passLimit 1) ∧
    reduceWithLimit foldConstants 2 (.neg (.neg (.const true))) = .ok (.const true) ∧
    Steps foldConstants (.neg (.neg (.const true))) (.const true) ∧ Normal foldConstants (.const true) ∧
    reduceWithLimit foldConstants 1 (.const true) = .ok (.const true) ∧
    reduceWithLimit foldConstants 9 (.neg (.neg (.const true))) = .ok (.const true) := by
  have htwo : reduceWithLimit foldConstants 2 (.neg (.neg (.const true))) = .ok (.const true) := rfl
  obtain ⟨-, -, h⟩ := reduceWithLimit_normalizes foldConstants 2 (.neg (.neg (.const true)))
  obtain ⟨hsteps, hnormal, hagain, hmore⟩ := h (.const true) htwo
  exact ⟨rfl, htwo, hsteps, hnormal, hagain 1 (by decide), hmore 9 (by decide)⟩

end Reduction

end ClauseFold
