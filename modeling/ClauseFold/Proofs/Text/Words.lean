/-
Words and numerals, from the side of whoever writes them. A line of words may have any white space between them and at its
ends; a number may have a plus sign ahead of it and any zeros.

Results:
- `words_of_trimStart`: what a line begins with, and its first word;
- `words_of_spaced`: a line has the words that it was written from;
- `readNumeral_of_numeral`: a number is read as it was written.
-/
import ClauseFold.Proofs.Formula.Decoding
import ClauseFold.Text.Blank

namespace ClauseFold.Text

/-! ## Words -/

/-- white space ahead of a text makes no difference to its words -/
theorem words_cons_blank {c : Char} (hc : isBlank c = true) (text : List Char) : words (c :: text) = words text :=
  words_append_blank hc [] text

/-- the first word begins with the first symbol that is not blank -/
theorem words_of_trimStart (text : List Char) :
    (trimStart text = [] ∧ words text = []) ∨
      ∃ c rest w ws, trimStart text = c :: rest ∧ words text = (c :: w) :: ws := by
  induction text with
  | nil => exact Or.inl ⟨rfl, rfl⟩
  | cons c text ih =>
    by_cases hc : isBlank c = true
    · have htrim : trimStart (c :: text) = trimStart text := List.dropWhile_cons_of_pos hc
      rw [htrim, words_cons_blank hc]
      exact ih
    · have htrim : trimStart (c :: text) = c :: text := List.dropWhile_cons_of_neg hc
      right
      obtain ⟨w, ws, hsplit⟩ := List.exists_cons_of_ne_nil (List.splitOnP_ne_nil isBlank text)
      refine ⟨c, text, w, ws.filter fun w => !w.isEmpty, htrim, ?_⟩
      unfold words
      rw [List.splitOnP_cons_eq_if_modifyHead, if_neg hc, hsplit, List.modifyHead_cons, List.filter_cons_of_pos rfl]

/-- a text of white space only -/
def Gap (text : List Char) : Prop := ∀ c ∈ text, isBlank c = true

/-- a text that is written with some words: white space ahead of each word and behind the last, at least one blank between
two words -/
inductive Spaced : List Char → List (List Char) → Prop where
  | gap {text : List Char} (h : Gap text) : Spaced text []
  | word {gap w rest : List Char} {ws : List (List Char)} (hgap : Gap gap) (hne : w ≠ [])
    (hw : ∀ c ∈ w, isBlank c = false) (hrest : ∀ c ∈ rest.head?, isBlank c = true) (h : Spaced rest ws) :
    Spaced (gap ++ w ++ rest) (w :: ws)

theorem words_gap_append {gap : List Char} (h : Gap gap) (text : List Char) : words (gap ++ text) = words text := by
  induction gap with
  | nil => rfl
  | cons c gap ih =>
    rw [List.cons_append, words_cons_blank (h c List.mem_cons_self)]
    exact ih fun d hd => h d (List.mem_cons_of_mem c hd)

theorem trimStart_gap_append {gap : List Char} (h : Gap gap) (text : List Char) :
    trimStart (gap ++ text) = trimStart text := by
  unfold trimStart
  rw [List.dropWhile_append_of_pos h]

/-- a line has the words that it was written from -/
theorem words_of_spaced {text : List Char} {ws : List (List Char)} (h : Spaced text ws) : words text = ws := by
  induction h with
  | @gap text h => simpa using words_gap_append h []
  | @word gap w rest ws hgap hne hw hrest h ih =>
    rw [List.append_assoc, words_gap_append hgap]
    cases rest with
    | nil => rw [List.append_nil, words_of_no_blank hne hw, ← ih, words_nil]
    | cons c rest =>
      have hc : isBlank c = true := hrest c rfl
      rw [words_append_blank hc, words_of_no_blank hne hw, ← ih, words_cons_blank hc]
      rfl

theorem exists_spaced (text : List Char) : ∃ ws, Spaced text ws := by
  induction text with
  | nil => exact ⟨[], .gap fun c hc => absurd hc List.not_mem_nil⟩
  | cons c text ih =>
    obtain ⟨ws, h⟩ := ih
    have hnil : Gap [] := fun c hc => absurd hc List.not_mem_nil
    by_cases hc : isBlank c = true
    · cases h with
      | gap h => exact ⟨[], .gap (List.forall_mem_cons.mpr ⟨hc, h⟩)⟩
      | word hgap hne hw hrest h => exact ⟨_, .word (List.forall_mem_cons.mpr ⟨hc, hgap⟩) hne hw hrest h⟩
    · have hsymbol : isBlank c = false := Bool.eq_false_iff.mpr hc
      have hone : ∀ d ∈ [c], isBlank d = false := by simpa using hsymbol
      cases h with
      | gap h =>
        refine ⟨_, .word hnil (List.cons_ne_nil c []) hone ?_ (.gap h)⟩
        intro d hd
        exact h d (List.mem_of_mem_head? hd)
      | @word gap w rest ws hgap hne hw hrest h =>
        cases gap with
        | nil => exact ⟨_, .word hnil (List.cons_ne_nil c w) (List.forall_mem_cons.mpr ⟨hsymbol, hw⟩) hrest h⟩
        | cons b gap =>
          refine ⟨_, .word hnil (List.cons_ne_nil c []) hone ?_ (.word hgap hne hw hrest h)⟩
          intro d hd
          cases hd
          exact hgap b List.mem_cons_self

/-- every line is written with its words -/
theorem spaced_words (text : List Char) : Spaced text (words text) := by
  obtain ⟨ws, h⟩ := exists_spaced text
  rwa [words_of_spaced h]

theorem trimStart_of_no_blank {text : List Char} (h : ∀ c ∈ text, isBlank c = false) : trimStart text = text := by
  cases text with
  | nil => rfl
  | cons c text =>
    apply List.dropWhile_cons_of_neg
    rw [h c List.mem_cons_self]
    exact Bool.false_ne_true

theorem trim_of_no_blank {text : List Char} (h : ∀ c ∈ text, isBlank c = false) : trim text = text := by
  have hreverse : ∀ c ∈ text.reverse, isBlank c = false := fun c hc => h c (List.mem_reverse.mp hc)
  unfold trim
  rw [trimStart_of_no_blank h, trimStart_of_no_blank hreverse, List.reverse_reverse]

/-! ## Numerals -/

theorem isBlank_of_isDigit {c : Char} (h : c.isDigit = true) : isBlank c = false := by
  have hrange := Char.isDigit_iff_toNat.mp h
  have h0 : '0'.toNat = 48 := rfl
  have h9 : '9'.toNat = 57 := rfl
  simp only [isBlank, blankRanges, List.any_cons, List.any_nil, Bool.or_false, Bool.or_eq_false_iff,
    decide_eq_false_iff_not]
  omega

/-- a text that writes a number -/
inductive Numeral (n : Nat) : List Char → Prop where
  | plain (zeros : Nat) : Numeral n (List.replicate zeros '0' ++ decimal n)
  | plus (zeros : Nat) : Numeral n ('+' :: (List.replicate zeros '0' ++ decimal n))

theorem isDigit_of_mem_zeros {zeros n : Nat} {c : Char} (h : c ∈ List.replicate zeros '0' ++ decimal n) :
    c.isDigit = true := by
  rcases List.mem_append.mp h with hzero | hdigit
  · rw [List.eq_of_mem_replicate hzero]
    decide
  · exact isDigit_of_mem_decimal hdigit

theorem digitsValueFrom_zeros (zeros n : Nat) : digitsValueFrom 0 (List.replicate zeros '0' ++ decimal n) = n := by
  induction zeros with
  | zero => exact digitsValueFrom_decimal n
  | succ zeros ih => exact ih

theorem readDigits_zeros {bound n : Nat} (h : n < bound) (zeros : Nat) :
    readDigits bound (List.replicate zeros '0' ++ decimal n) = some n := by
  have hall : (List.replicate zeros '0' ++ decimal n).all Char.isDigit = true :=
    List.all_eq_true.mpr fun c hc => isDigit_of_mem_zeros hc
  have hempty : (List.replicate zeros '0' ++ decimal n).isEmpty = false := by
    rw [List.isEmpty_eq_false_iff]
    exact List.append_ne_nil_of_right_ne_nil _ (decimal_ne_nil n)
  unfold readDigits
  rw [hall, hempty, digitsValueFrom_zeros]
  exact if_pos h

/-- a number is read as it was written -/
theorem readNumeral_of_numeral {bound n : Nat} {w : List Char} (h : n < bound) (hw : Numeral n w) :
    readNumeral bound w = some n := by
  cases hw with
  | plus zeros => exact readDigits_zeros h zeros
  | plain zeros =>
    rw [← readDigits_zeros h zeros]
    unfold readNumeral
    split
    · rename_i digits heq
      have hplus : '+'.isDigit = true := isDigit_of_mem_zeros (heq ▸ List.mem_cons_self)
      cases hplus
    · rfl

/-- a numeral is made of digits and plus signs -/
theorem symbols_of_numeral {n : Nat} {w : List Char} (h : Numeral n w) :
    w ≠ [] ∧ ∀ c ∈ w, c.isDigit = true ∨ c = '+' := by
  cases h with
  | plain zeros =>
    refine ⟨List.append_ne_nil_of_right_ne_nil _ (decimal_ne_nil n), ?_⟩
    intro c hc
    exact Or.inl (isDigit_of_mem_zeros hc)
  | plus zeros =>
    refine ⟨List.cons_ne_nil _ _, ?_⟩
    intro c hc
    rcases List.mem_cons.mp hc with rfl | hc
    · exact Or.inr rfl
    · exact Or.inl (isDigit_of_mem_zeros hc)

end ClauseFold.Text
