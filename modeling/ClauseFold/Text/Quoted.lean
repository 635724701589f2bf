/-
Texts and characters as messages quote them: between quote signs, with the sign in use, the backslash, the common
controls and whatever does not show by itself written as an escape.
-/
import ClauseFold.Text.Unprintable

namespace ClauseFold.Text

/-- how a character stands between quote signs `quote` -/
def escape (quote c : Char) : List Char :=
  if c = '\x00' then ['\\', '0']
  else if c = '\t' then ['\\', 't']
  else if c = '\r' then ['\\', 'r']
  else if c = '\n' then ['\\', 'n']
  else if c = '\\' ∨ c = quote then ['\\', c]
  else if isUnprintable c then ['\\', 'u', '\x7b'] ++ Nat.toDigits 16 c.toNat ++ ['\x7d']
  else [c]

/-- a text between double quotes -/
def quoteText (text : List Char) : String := String.ofList ('"' :: text.flatMap (escape '"') ++ ['"'])

/-- a character between single quotes -/
def quoteChar (c : Char) : String := String.ofList ('\'' :: escape '\'' c ++ ['\''])

end ClauseFold.Text
