/-
White space in the texts that are read: rule files, clause files, literals. The set is the White_Space property of
Unicode; the information separators, the zero-width space and the byte order mark are not in it. A text is a list of
characters, and a word is a maximal run of characters that are not blank.

Main statements:
- `words_append_blank`: a blank ends a word, so words can be read on both sides of it.
- `words_of_no_blank`: a text without a blank is one word, unless it is empty.
-/
namespace ClauseFold.Text

/-- the code points of the White_Space property, as closed ranges in ascending order -/
def blankRanges : List (Nat × Nat) :=
  [(0x09, 0x0D), (0x20, 0x20), (0x85, 0x85), (0xA0, 0xA0), (0x1680, 0x1680), (0x2000, 0x200A), (0x2028, 0x2029),
    (0x202F, 0x202F), (0x205F, 0x205F), (0x3000, 0x3000)]

def isBlank (c : Char) : Bool := blankRanges.any fun r => decide (r.1 ≤ c.toNat ∧ c.toNat ≤ r.2)

/-- a text without the white space it begins with -/
def trimStart (text : List Char) : List Char := text.dropWhile isBlank

/-- a text without the white space it begins or ends with -/
def trim (text : List Char) : List Char := (trimStart (trimStart text).reverse).reverse

/-- the maximal runs of characters that are not white space -/
def words (text : List Char) : List (List Char) := (text.splitOnP isBlank).filter fun w => !w.isEmpty

@[simp] theorem words_nil : words [] = [] := rfl

theorem words_append_blank {c : Char} (hc : isBlank c = true) (a b : List Char) :
    words (a ++ c :: b) = words a ++ words b := by
  unfold words
  rw [List.splitOnP_append_cons a b hc, List.filter_append]

theorem words_of_no_blank {w : List Char} (hne : w ≠ []) (h : ∀ c ∈ w, isBlank c = false) : words w = [w] := by
  unfold words
  rw [List.splitOnP_eq_singleton h]
  simp [hne]

end ClauseFold.Text
