/-
What a formula that clauses were folded into says about them.
-/
import ClauseFold.Formula.Basic

namespace ClauseFold

/-- the verdict on the clauses folded so far -/
inductive Report where
  /-- the formula is `T` -/
  | satisfiable
  /-- the formula is `F` -/
  | unsatisfiable
  /-- the formula is no constant, which says nothing either way -/
  | unknown
deriving DecidableEq, Repr

namespace Report

def ofFormula (f : Formula) : Report :=
  match f.asConst? with
  | some true => satisfiable
  | some false => unsatisfiable
  | none => unknown

def text : Report → String
  | satisfiable => "SATISFIABLE"
  | unsatisfiable => "UNSATISFIABLE"
  | unknown => "UNKNOWN"

end Report

end ClauseFold
