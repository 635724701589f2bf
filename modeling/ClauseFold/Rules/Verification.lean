/-
Verification of rules: both sides of a rule have to have the same value, whatever the variables stand for. This is tried on
a truth table. The variables of both sides are listed in ascending order, and each row of the table is a number, of which
the bit at the position of a variable in that list is the value of the variable. A table has a row for each set of
variables, so a rule with too many variables is not verified.
-/
import ClauseFold.Rules.Set
import ClauseFold.Formula.Semantics

namespace ClauseFold

/-- the valuation of a row of a truth table over some variables; others are false -/
def Valuation.ofRow (xs : List VarId) (row : Nat) : Valuation := fun x =>
  match xs.idxOf? x with
  | some position => row.testBit position
  | none => false

def verifiableVariables : Nat := 16

namespace Rule

/-- the variables of both sides, each once, in ascending order -/
def vars (r : Rule) : List VarId := (Std.ExtTreeSet.ofList (r.pattern.occurrences ++ r.canonical.occurrences)).toList

/-- whether both sides have the same value on all rows of a truth table -/
def agreeOn (r : Rule) (xs : List VarId) : Bool :=
  (List.range (1 <<< xs.length)).all fun row => r.pattern.eval (.ofRow xs row) == r.canonical.eval (.ofRow xs row)

def verify (r : Rule) : Except RuleError Unit :=
  let xs := r.vars
  if verifiableVariables < xs.length then .error (.unverifiable r.pattern)
  else if r.agreeOn xs then .ok ()
  else .error (.unsound r.pattern)

end Rule

/-- checks that all rules are sound, in order of pattern -/
def RuleSet.verify (s : RuleSet) : Except RuleError Unit := s.toList.forM Rule.verify

end ClauseFold
