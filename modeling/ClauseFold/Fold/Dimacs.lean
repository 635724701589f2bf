/-
Clause files in the DIMACS form, folded as they are read. Ahead of the first clause there may be comment lines, which
begin with `c`, and one problem line, `p cnf` with the numbers of variables and clauses. The clauses follow as
literals with white space between them, each clause closed by a `0`; a clause may go over several lines and a line may
hold several clauses. Comment lines may stand anywhere. Reading ends with the lines, or at a line that begins with
`%`; a clause that is open then is folded too. The numbers of the problem line are noted and not checked.

A reader goes from line to line. Once it has ended or failed, further lines change nothing, and a failure keeps the
clauses that were folded before.
-/
import ClauseFold.Fold.Literal
import ClauseFold.Text.Lines

namespace ClauseFold

/-- what was read: the numbers of the problem line, if there was one, and the number of clauses folded -/
structure DimacsSummary where
  expected : Option (Nat × Nat)
  clauses : Nat
deriving DecidableEq, Repr

namespace Dimacs

/-- whether a reader goes on -/
inductive Status where
  | reading
  | ended
  | failed (e : Error)
deriving DecidableEq, Repr

/-- a reader between two lines -/
structure Reader where
  fold : Fold
  /-- the literals of the clause that is open, the latest first -/
  literals : List Formula
  summary : DimacsSummary
  /-- how many lines have been read -/
  line : Nat
  /-- whether no clause line has been read yet -/
  preamble : Bool
  status : Status
deriving DecidableEq, Repr

def start (s : Fold) : Reader := ⟨s, [], ⟨none, 0⟩, 0, true, .reading⟩

namespace Reader

def fail (r : Reader) (e : Error) : Reader := { r with status := .failed e }

/-- folds the clause that is open -/
def close (how : Folding) (r : Reader) : Reader :=
  match r.fold.addClause how r.literals.reverse with
  | .error e => r.fail (.reduction e)
  | .ok s => { r with fold := s, literals := [], summary := { r.summary with clauses := r.summary.clauses + 1 } }

/-- reads a word of a clause line -/
def word (how : Folding) (r : Reader) (w : List Char) : Reader :=
  match r.status with
  | .reading =>
    if w = ['0'] then r.close how
    else
      match readLiteral w with
      | .error e => r.fail (.read e)
      | .ok l => { r with literals := l :: r.literals }
  | _ => r

/-- the numbers of a problem line -/
def problem? (text : List Char) : Option (Nat × Nat) :=
  match Text.words text with
  | ['p'] :: ['c', 'n', 'f'] :: declared :: clauses :: _ => do
    return (← Text.readNumeral Text.countBound declared, ← Text.readNumeral Text.countBound clauses)
  | _ => none

/-- reads a line of the part where the clauses are -/
def clauseLine (how : Folding) (r : Reader) (text : List Char) : Reader :=
  match (Text.trimStart text).head? with
  | none | some 'c' => r
  | some '%' => { r with status := .ended }
  | some 'p' => r.fail (.read (.misplacedProblem r.line))
  | some _ => (Text.words text).foldl (word how) r

/-- reads a line ahead of the first clause line, or that line -/
def preambleLine (how : Folding) (r : Reader) (text : List Char) : Reader :=
  match (Text.trimStart text).head? with
  | none | some 'c' => r
  | some 'p' =>
    if r.summary.expected.isSome then r.fail (.read (.misplacedProblem r.line))
    else
      match problem? text with
      | none => r.fail (.read .problemSpecification)
      | some counts => { r with summary := { r.summary with expected := some counts } }
  | some _ => clauseLine how { r with preamble := false } text

def step (how : Folding) (r : Reader) (line : Text.Line) : Reader :=
  match r.status with
  | .reading =>
    match line with
    | .error _ => r.fail (.read (.line (r.line + 1)))
    | .ok text =>
      let r' := { r with line := r.line + 1 }
      if r.preamble then preambleLine how r' text else clauseLine how r' text
  | _ => r

/-- the lines are used up: a clause that is open is folded -/
def finish (how : Folding) (r : Reader) : Reader :=
  match r.status with
  | .failed _ => r
  | _ => if r.literals.isEmpty then r else r.close how

def result (r : Reader) : Except Error DimacsSummary :=
  match r.status with
  | .failed e => .error e
  | _ => .ok r.summary

end Reader

end Dimacs

/-- folds the clauses of a clause file; on an error the clauses before it stay folded -/
def Fold.readDimacs (how : Folding) (s : Fold) (lines : List Text.Line) : Except Error DimacsSummary × Fold :=
  let r := (lines.foldl (Dimacs.Reader.step how) (Dimacs.start s)).finish how
  (r.result, r.fold)

end ClauseFold
