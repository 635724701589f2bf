/-
The bytes of an index in a file: a signature that is no text, and then a line for each row, the canonical rows first.

A row is written in words, so what is written here are the indexes that a compilation makes: each symbol is one
character, and neither a symbol nor an encoding holds white space.
-/
import ClauseFold.Index.Basic
import ClauseFold.Text.Blank
import ClauseFold.Text.Lines

namespace ClauseFold.Index

/-- what the file of an index begins with; the first byte stands in no text -/
def signature : List UInt8 := 255 :: "clause index\n".toUTF8.toList

def idText (id : Int) : List Char :=
  match id with
  | .ofNat n => Text.decimal n
  | .negSucc n => '-' :: Text.decimal (n + 1)

def readId : List Char → Option Int
  | '-' :: digits => (Text.readDigits Text.countBound digits).map fun n => -(Int.ofNat n)
  | digits => (Text.readDigits Text.countBound digits).map Int.ofNat

def rowLine (parts : List (List Char)) : List Char := [' '].intercalate parts ++ ['\n']

def canonicalLine (row : Int × List Char) : List Char := rowLine [['c'], idText row.1, row.2]

def nodeLine (row : Int × NodeRow) : List Char :=
  rowLine [['n'], idText row.1, row.2.symbol, idText row.2.parent, idText row.2.canonical]

def toBytes (i : Index) : List UInt8 :=
  let text := i.canonicalRows.flatMap canonicalLine ++ i.nodeRows.flatMap nodeLine
  signature ++ (String.ofList text).toUTF8.toList

def addLine (i : Index) (line : Text.Line) : Option Index :=
  match line with
  | .error _ => none
  | .ok text =>
    match Text.words text with
    | [['c'], id, encoding] => do (i.insertCanonical (← readId id, encoding)).toOption
    | [['n'], id, symbol, parent, canonical] => do
      (i.insertNode (← readId id, ⟨symbol, ← readId parent, ← readId canonical⟩)).toOption
    | _ => none

/-- the index that a file holds, by its bytes -/
def ofBytes? (bytes : List UInt8) : Option Index :=
  if bytes.take signature.length = signature then
    (Text.linesOfBytes (bytes.drop signature.length)).foldlM addLine empty
  else none

end ClauseFold.Index
