/-
What formulas mean: the value on a valuation, and the substitution of formulas for variables.

Main statement:
- `eval_substitute`: a substituted formula has the value of the formula on the valuation that gives each bound
  variable the value of what it is bound to.
-/
import ClauseFold.Formula.Basic

namespace ClauseFold

abbrev Valuation := VarId → Bool

/-- numbers bound to formulas; of several bindings of a number the first counts -/
abbrev Bindings := List (Nat × Formula)

namespace Formula

def eval (v : Valuation) : Formula → Bool
  | const b => b
  | var x => v x
  | neg f => !f.eval v
  | imp a c => !a.eval v || c.eval v

/-- puts for each bound variable what it is bound to, all at once -/
def substitute (bindings : Bindings) : Formula → Formula
  | const b => const b
  | var x =>
    match bindings.lookup x.val with
    | some f => f
    | none => var x
  | neg f => neg (f.substitute bindings)
  | imp a c => imp (a.substitute bindings) (c.substitute bindings)

end Formula

/-- a valuation seen through bindings -/
def Valuation.through (v : Valuation) (bindings : Bindings) : Valuation := fun x =>
  match bindings.lookup x.val with
  | some f => f.eval v
  | none => v x

namespace Formula

theorem eval_substitute (v : Valuation) (bindings : Bindings) (f : Formula) :
    (f.substitute bindings).eval v = f.eval (v.through bindings) := by
  induction f with
  | const b => rfl
  | var x =>
    simp only [substitute, eval, Valuation.through]
    cases bindings.lookup x.val with
    | none => rfl
    | some g => rfl
  | neg f ih => simp only [substitute, eval, ih]
  | imp a c iha ihc => simp only [substitute, eval, iha, ihc]

/-- the value depends on the variables of the formula only -/
theorem eval_congr {v w : Valuation} (f : Formula) (h : ∀ x ∈ f.occurrences, v x = w x) : f.eval v = f.eval w := by
  induction f with
  | const b => rfl
  | var x => exact h x (by simp)
  | neg f ih => simp only [eval, ih (fun x hx => h x (by simpa using hx))]
  | imp a c iha ihc =>
    simp only [eval, iha (fun x hx => h x (by simp [hx])), ihc (fun x hx => h x (by simp [hx]))]

end Formula

end ClauseFold
