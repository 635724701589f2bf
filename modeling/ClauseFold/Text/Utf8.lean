/-
UTF-8. A text is written character by character, each as one byte or several. A character begins at a byte if the characters
before it make up the bytes before that.
-/
namespace ClauseFold.Text

def utf8 (text : List Char) : List UInt8 := text.flatMap String.utf8EncodeChar

/-- the character that begins at a byte, if one does -/
def charAt? : List Char → Nat → Option Char
  | [], _ => none
  | c :: cs, position =>
    if position = 0 then some c
    else if position < c.utf8Size then none
    else charAt? cs (position - c.utf8Size)

/-- what stands for a character where there is none -/
def replacement : Char := '\uFFFD'

end ClauseFold.Text
