/-
Rule files, line by line. A line that is blank or begins with `c` says nothing. A line of one encoding declares a
canonical formula; a line of two encodings is a rule, the pattern first. White space around and between the encodings
does not matter. Reading stops at the first line that is wrong.
-/
import ClauseFold.Rules.Set
import ClauseFold.Text.Blank
import ClauseFold.Text.Lines

namespace ClauseFold

namespace RuleFile

/-- what a line of a rule file asks for, by its words -/
inductive Entry where
  | nothing
  | canonical (text : List Char)
  | rule (pattern canonical : List Char)
  | tooMany
deriving DecidableEq, Repr

def entryOf (line : List Char) : Entry :=
  match Text.words line with
  | [] => .nothing
  | ('c' :: _) :: _ => .nothing
  | [c] => .canonical c
  | [p, c] => .rule p c
  | _ => .tooMany

/-- the formula of an encoding in a line -/
def readFormula (number : Nat) (text : List Char) : Except ReadError Formula :=
  (Formula.decode? text).mapError fun _ => .line number

def addEntry (number : Nat) (s : RuleSet) : Entry → Except ReadError RuleSet
  | .nothing => .ok s
  | .canonical c => do
    let f ← readFormula number c
    ((RuleSet.addCanonical f).apply s).mapError (.rule number)
  | .rule p c => do
    let pattern ← readFormula number p
    let canonical ← readFormula number c
    ((RuleSet.addRule ⟨pattern, canonical⟩).apply s).mapError (.rule number)
  | .tooMany => .error (.ruleLine number)

def readLine (number : Nat) (s : RuleSet) : Text.Line → Except ReadError RuleSet
  | .ok text => addEntry number s (entryOf text)
  | .error .notText => .error .notText
  | .error .directory => .error (.file .directory)

/-- reads lines, the first of which has the number `number` -/
def readFrom (number : Nat) (s : RuleSet) : List Text.Line → Except ReadError RuleSet
  | [] => .ok s
  | line :: rest => do
    let s' ← readLine number s line
    readFrom (number + 1) s' rest

end RuleFile

def RuleSet.ofLines (lines : List Text.Line) : Except ReadError RuleSet := RuleFile.readFrom 1 .empty lines

end ClauseFold
