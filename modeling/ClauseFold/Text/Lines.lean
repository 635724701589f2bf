/-
Inputs that are read line by line. An input is the list of its lines; each line is a text, or the reason why it could
not be read. A reader meets a bad line only when it gets to it, so what stands before the line is read all the same.

Main statement:
- `pieces_append_newline`: a line break ends a line, so lines can be read on both sides of it.
-/
namespace ClauseFold.Text

inductive LineFailure where
  /-- the bytes of the line are no UTF-8 -/
  | notText
  /-- what was opened is a directory and has no lines -/
  | directory
deriving DecidableEq, Repr

/-- a line as a reader meets it -/
abbrev Line := Except LineFailure (List Char)

/-- a list of pieces without a last one that is empty -/
def withoutEmptyEnd {α : Type} (cut : List (List α)) : List (List α) :=
  match cut.getLast? with
  | some [] => cut.dropLast
  | _ => cut

/-- the pieces between line breaks; a break at the very end begins no further line -/
def pieces {α : Type} [BEq α] (newline : α) (input : List α) : List (List α) :=
  withoutEmptyEnd (input.splitOn newline)

/-- a line of bytes, which has to be UTF-8 -/
def lineOfBytes (bytes : List UInt8) : Line :=
  match String.fromUTF8? ⟨bytes.toArray⟩ with
  | some text => .ok text.toList
  | none => .error .notText

def linesOfText (text : List Char) : List Line := (pieces '\n' text).map .ok

/-- the lines of a file, by its bytes -/
def linesOfBytes (bytes : List UInt8) : List Line := (pieces 10 bytes).map lineOfBytes

/-- what a reader meets that was given a directory -/
def linesOfDirectory : List Line := [.error .directory]

theorem withoutEmptyEnd_append {α : Type} (a : List (List α)) {b : List (List α)} (hb : b ≠ []) :
    withoutEmptyEnd (a ++ b) = a ++ withoutEmptyEnd b := by
  unfold withoutEmptyEnd
  rw [List.getLast?_append, List.getLast?_eq_some_getLast hb, Option.some_or]
  split
  · rw [List.dropLast_append_of_ne_nil hb]
  · rfl

theorem pieces_append_newline {α : Type} [BEq α] [LawfulBEq α] (newline : α) (a b : List α) :
    pieces newline (a ++ newline :: b) = a.splitOn newline ++ pieces newline b := by
  unfold pieces List.splitOn
  rw [List.splitOnP_append_cons a b (by simp)]
  exact withoutEmptyEnd_append _ (List.splitOnP_ne_nil _ b)

end ClauseFold.Text
