/-
Folding clauses into one formula. The first clause is the running formula, each further one is joined to it by a
conjunction, and the running formula is reduced after each. If the reduction fails, nothing has changed.
-/
import ClauseFold.Reduction
import ClauseFold.Report

namespace ClauseFold

/-- the clauses folded so far, as one formula, with some counts -/
structure Fold where
  /-- the running formula, if a clause has been folded -/
  formula : Option Formula
  /-- how many clauses have been folded -/
  clauses : Nat
  /-- the greatest length of a formula before its reduction -/
  peak : Nat
  /-- the length of the running formula -/
  length : Nat
deriving DecidableEq, Repr

/-- how clauses are folded: by which look-up, and in how many passes -/
structure Folding where
  lookup : Lookup
  passLimit : Nat

namespace Fold

def empty : Fold := ⟨none, 0, 0, 0⟩

/-- the clause of some literals, each of them once -/
def clauseOf (literals : List Formula) : Formula := Formula.clause literals.eraseDups

/-- the running formula with a further clause, before reduction -/
def joined (s : Fold) (clause : Formula) : Formula :=
  match s.formula with
  | none => clause
  | some f => .conj f clause

def addClause (how : Folding) (s : Fold) (literals : List Formula) : Except ReductionError Fold := do
  let unreduced := s.joined (clauseOf literals)
  let reduced ← reduceWithLimit how.lookup how.passLimit unreduced
  return ⟨some reduced, s.clauses + 1, max s.peak unreduced.length, reduced.length⟩

/-- the verdict; no clauses at all are satisfiable -/
def report (s : Fold) : Report :=
  match s.formula with
  | none => .satisfiable
  | some f => .ofFormula f

end Fold

end ClauseFold
