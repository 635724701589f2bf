/-
A pass as a recursion. A pass goes into a formula and comes back to it by a stack of jobs, and hands results from operands
to what they are operands of by a second stack; `rewrite` says the same by recursion on the formula: operands first, then
one look-up of what they were put together to.

Main statements:
- `run_enter`: to go into a formula and come back leaves one result more, whatever else is on the stacks;
- `pass_eq`: a pass never fails, and gives what the recursion gives, with as many replacements;
- `pass_eq_recursion`: the recursion spelled out.
-/
import ClauseFold.Reduction

namespace ClauseFold.Reduction

/-- a formula, or what replaces it, with one replacement more than `count` in the latter case -/
def replace (find : Lookup) (f : Formula) (count : Nat) : Formula × Nat :=
  match find f with
  | some g => (g, count + 1)
  | none => (f, count)

/-- what a pass makes of a formula, and how many replacements it makes -/
def rewrite (find : Lookup) : Formula → Formula × Nat
  | .const b => (.const b, 0)
  | .var v => (.var v, 0)
  | .neg f => replace find (.neg (rewrite find f).1) (rewrite find f).2
  | .imp a c =>
    replace find (.imp (rewrite find a).1 (rewrite find c).1) ((rewrite find a).2 + (rewrite find c).2)

theorem settle_eq (find : Lookup) (f : Formula) (done : List Formula) (before count : Nat) :
    settle find f done (before + count) = ⟨(replace find f count).1 :: done, before + (replace find f count).2⟩ := by
  unfold settle replace
  cases find f with
  | none => rfl
  | some g => rfl

theorem leave_neg (find : Lookup) (f g : Formula) (done : List Formula) (before count : Nat) :
    Pass.leave find ⟨g :: done, before + count⟩ (.neg f) =
      .ok ⟨(replace find (.neg g) count).1 :: done, before + (replace find (.neg g) count).2⟩ :=
  congrArg Except.ok (settle_eq find (.neg g) done before count)

theorem leave_imp (find : Lookup) (a c a' c' : Formula) (done : List Formula) (before count : Nat) :
    Pass.leave find ⟨c' :: a' :: done, before + count⟩ (.imp a c) =
      .ok ⟨(replace find (.imp a' c') count).1 :: done, before + (replace find (.imp a' c') count).2⟩ :=
  congrArg Except.ok (settle_eq find (.imp a' c') done before count)

/-- to go into a formula and come back leaves one result more and the other jobs as they were -/
theorem run_enter (find : Lookup) (f : Formula) (jobs : List Job) (done : List Formula) (before : Nat) :
    run find (.enter f :: jobs) ⟨done, before⟩ =
      run find jobs ⟨(rewrite find f).1 :: done, before + (rewrite find f).2⟩ := by
  induction f generalizing jobs done before with
  | const b => rw [run]; rfl
  | var v => rw [run]; rfl
  | neg f ih =>
    rw [run, ih, run, leave_neg]
    rfl
  | imp a c iha ihc =>
    -- the antecedent is gone over first, so its result is below that of the consequent
    rw [run, iha, ihc, run, Nat.add_assoc, leave_imp]
    rfl

theorem pass_eq (find : Lookup) (f : Formula) : pass find f = .ok (rewrite find f) := by
  unfold pass
  rw [run_enter, run]
  simp only [bind, Except.bind, Nat.zero_add]

theorem passes_succ (find : Lookup) (limit n : Nat) (f : Formula) :
    passes find limit (n + 1) f =
      if (rewrite find f).2 = 0 then .ok (rewrite find f).1 else passes find limit n (rewrite find f).1 := by
  rw [passes, pass_eq]
  rfl

/-- **A pass is a recursion.** For any look-up, a pass never fails. Constants and variables stay and count nothing. A
negation or an implication is put together again from what its operands have become and looked up; it becomes the answer,
which counts one more than the operands do, or, without an answer, stays as it was put together. In the middle of any
pass, to go over a formula adds its result on top of the others, and its count. -/
theorem pass_eq_recursion (find : Lookup) :
    ∃ (result : Formula → Formula) (count : Formula → Nat),
      (∀ f, pass find f = .ok (result f, count f)) ∧
      (∀ f jobs done before, run find (.enter f :: jobs) ⟨done, before⟩ =
        run find jobs ⟨result f :: done, before + count f⟩) ∧
      (∀ b, (result (.const b), count (.const b)) = (.const b, 0)) ∧
      (∀ v, (result (.var v), count (.var v)) = (.var v, 0)) ∧
      (∀ f, (result (.neg f), count (.neg f)) =
        match find (.neg (result f)) with
        | some g => (g, count f + 1)
        | none => (.neg (result f), count f)) ∧
      ∀ a c, (result (.imp a c), count (.imp a c)) =
        match find (.imp (result a) (result c)) with
        | some g => (g, count a + count c + 1)
        | none => (.imp (result a) (result c), count a + count c) := by
  refine ⟨fun f => (rewrite find f).1, fun f => (rewrite find f).2, pass_eq find, run_enter find, ?_, ?_, ?_, ?_⟩
  · intro b
    rfl
  · intro v
    rfl
  · intro f
    rfl
  · intro a c
    rfl

end ClauseFold.Reduction
