/-
Literals and clauses in text: the number of a variable, with a minus sign if the variable is negated, and the literals
of a clause with white space between them.
-/
import ClauseFold.Fold.Basic
import ClauseFold.Text.Blank

namespace ClauseFold

/-- the literal that a trimmed text writes -/
def Formula.ofLiteral? : List Char → Option Formula
  | '-' :: name => do
    let v ← VarId.ofNat? (← Text.readNumeral Text.idBound name)
    return .neg (.var v)
  | name => do
    let v ← VarId.ofNat? (← Text.readNumeral Text.idBound name)
    return .var v

/-- reads a literal, with or without white space around it -/
def readLiteral (text : List Char) : Except ReadError Formula :=
  let trimmed := Text.trim text
  match Formula.ofLiteral? trimmed with
  | some f => .ok f
  | none => .error (.literal trimmed)

def Fold.addText (how : Folding) (s : Fold) (text : List Char) : Except Error Fold := do
  let literals ← ((Text.words text).mapM readLiteral).mapError .read
  (s.addClause how literals).mapError .reduction

end ClauseFold
