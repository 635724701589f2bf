/-
Reduction: a formula is gone over pass by pass until no subformula has a replacement. A pass goes over the formula in
post-order, antecedents before consequents. A constant or a variable stays; a negation or an implication is put
together again from its operands as they are by then, looked up once, and replaced if there is a replacement, which is
not looked at again before the next pass. Formulas can be deep, so a pass keeps what it has still to do on a stack, and
on a second one the formulas that it is done with. The rules are trusted to come to an end, so there is a limit on the
passes; the last pass, which finds nothing, counts.
-/
import ClauseFold.Error

namespace ClauseFold

/-- what a formula is to be replaced with, if anything -/
abbrev Lookup := Formula → Option Formula

namespace Reduction

/-- what a pass has still to do: go into a formula, or come back to it when its operands are done -/
inductive Job where
  | enter (f : Formula)
  | leave (f : Formula)
deriving DecidableEq, Repr

/-- the formulas that a pass is done with and that wait for what they are operands of, the latest first, and the number
of replacements so far -/
structure Pass where
  done : List Formula
  replacements : Nat
deriving DecidableEq, Repr

/-- a formula put together again from the operands that wait for it, and what waits below them -/
def rebuild : Formula → List Formula → Except ReductionError (Formula × List Formula)
  | .const b, done => .ok (.const b, done)
  | .var v, done => .ok (.var v, done)
  | .neg _, f :: done => .ok (.neg f, done)
  | .imp _ _, c :: a :: done => .ok (.imp a c, done)
  | _, _ => .error .unbalanced

/-- a formula put together again, or what replaces it -/
def settle (find : Lookup) (f : Formula) (done : List Formula) (replacements : Nat) : Pass :=
  match find f with
  | some g => ⟨g :: done, replacements + 1⟩
  | none => ⟨f :: done, replacements⟩

/-- comes back to a formula -/
def Pass.leave (find : Lookup) (p : Pass) (f : Formula) : Except ReductionError Pass := do
  let (g, done) ← rebuild f p.done
  return settle find g done p.replacements

/-- the steps that a stack of jobs can still take -/
def weight : List Job → Nat
  | [] => 0
  | .enter f :: jobs => 2 * f.length + weight jobs
  | .leave _ :: jobs => 1 + weight jobs

-- semireducible, since closed passes are to compute and the measure alone would keep `run` shut
/-- goes on until no job is left -/
@[semireducible] def run (find : Lookup) : List Job → Pass → Except ReductionError Pass
  | [], p => .ok p
  | .enter (.const b) :: jobs, p => run find jobs { p with done := .const b :: p.done }
  | .enter (.var v) :: jobs, p => run find jobs { p with done := .var v :: p.done }
  | .enter (.neg f) :: jobs, p => run find (.enter f :: .leave (.neg f) :: jobs) p
  | .enter (.imp a c) :: jobs, p => run find (.enter a :: .enter c :: .leave (.imp a c) :: jobs) p
  | .leave f :: jobs, p => do run find jobs (← p.leave find f)
termination_by jobs => weight jobs
decreasing_by
  all_goals simp only [weight, Formula.length]; omega

/-- one pass: the formula as it comes out, and the number of replacements -/
def pass (find : Lookup) (f : Formula) : Except ReductionError (Formula × Nat) := do
  let p ← run find [.enter f] ⟨[], 0⟩
  match p.done with
  | [g] => .ok (g, p.replacements)
  | _ => .error .unbalanced

/-- at most so many passes, or the error that all of `limit` made a replacement -/
def passes (find : Lookup) (limit : Nat) : Nat → Formula → Except ReductionError Formula
  | 0, _ => .error (.passLimit limit)
  | n + 1, f => do
    let (g, replacements) ← pass find f
    if replacements = 0 then .ok g else passes find limit n g

end Reduction

def reduceWithLimit (find : Lookup) (limit : Nat) (f : Formula) : Except ReductionError Formula :=
  Reduction.passes find limit limit f

def defaultPassLimit : Nat := 256

def reduce (find : Lookup) (f : Formula) : Except ReductionError Formula := reduceWithLimit find defaultPassLimit f

end ClauseFold
