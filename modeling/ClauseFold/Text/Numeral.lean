/-
Numerals as literals, problem lines and limits write them: at most one plus sign, then decimal digits, leading zeros
allowed. A numeral that is not below the bound of its place is no numeral there.
-/
namespace ClauseFold.Text

def digitValue (c : Char) : Nat := c.toNat - '0'.toNat

/-- the number that a text of decimal digits stands for, going on from `start` -/
def digitsValueFrom (start : Nat) (digits : List Char) : Nat :=
  digits.foldl (fun n c => 10 * n + digitValue c) start

/-- the number below `bound` that a text of digits alone stands for -/
def readDigits (bound : Nat) (text : List Char) : Option Nat :=
  if text.isEmpty || !text.all Char.isDigit then none
  else
    let n := digitsValueFrom 0 text
    if n < bound then some n else none

/-- the number below `bound` that a text of digits, with or without a plus sign in front, stands for -/
def readNumeral (bound : Nat) : List Char → Option Nat
  | '+' :: digits => readDigits bound digits
  | digits => readDigits bound digits

/-- the decimal digits of a number, without leading zeros -/
def decimal (n : Nat) : List Char := Nat.toDigits 10 n

/-- variable ids have 32 bits -/
def idBound : Nat := 4294967296

/-- counts and limits have 64 bits -/
def countBound : Nat := 18446744073709551616

end ClauseFold.Text
