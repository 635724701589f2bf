/-
The bytes of a text. A character of seven bits is one byte, and any other character begins with a byte above these; so
whoever looks for characters of seven bits may as well look at the bytes.

Results:
- `exists_utf8EncodeChar_of_ge`: the first byte of any other character;
- `charAt?_append`: the character behind a text begins at the byte behind the text;
- `utf8_lt`: the order of texts in seven bits is that of their bytes.
-/
import Mathlib.Tactic.SplitIfs
import ClauseFold.Text.Utf8

namespace ClauseFold.Text

@[simp] theorem utf8_nil : utf8 [] = [] := rfl

theorem utf8_cons (c : Char) (text : List Char) : utf8 (c :: text) = String.utf8EncodeChar c ++ utf8 text :=
  List.flatMap_cons

theorem utf8_append (a b : List Char) : utf8 (a ++ b) = utf8 a ++ utf8 b := List.flatMap_append

theorem utf8_eq_nil_iff {text : List Char} : utf8 text = [] ↔ text = [] := by
  cases text with
  | nil => simp [utf8]
  | cons c text =>
    have hne : String.utf8EncodeChar c ≠ [] := by
      unfold String.utf8EncodeChar
      simp only
      split_ifs <;> simp
    simp [utf8_cons, hne]

/-- a digit is a character of seven bits -/
theorem lt_of_isDigit {c : Char} (h : c.isDigit = true) : c.toNat < 128 := by
  have hc := Char.isDigit_iff_toNat.mp h
  have h9 : '9'.toNat = 57 := rfl
  omega

/-- a character of seven bits is one byte -/
theorem utf8EncodeChar_of_lt {c : Char} (h : c.toNat < 128) : String.utf8EncodeChar c = [c.toNat.toUInt8] := by
  have hle : c.val.toNat ≤ 127 := Nat.lt_succ_iff.mp h
  unfold String.utf8EncodeChar
  simp only [if_pos hle]
  rfl

theorem length_utf8_concat (text : List Char) {c : Char} (h : c.toNat < 128) :
    (utf8 (text ++ [c])).length = (utf8 text).length + 1 := by
  rw [utf8_append, List.length_append, utf8_cons, utf8EncodeChar_of_lt h]
  rfl

/-! ## Bytes as characters -/

theorem ofUInt8_of_lt {c : Char} (h : c.toNat < 128) : Char.ofUInt8 c.toNat.toUInt8 = c := by
  apply Char.toNat_inj.mp
  have hbyte : (Char.ofUInt8 c.toNat.toUInt8).toNat = c.toNat.toUInt8.toNat := rfl
  rw [hbyte, UInt8.toNat_ofNat']
  omega

/-- a character of more than seven bits begins with a byte that is no character of seven bits -/
theorem exists_utf8EncodeChar_of_ge {c : Char} (h : 128 ≤ c.toNat) :
    ∃ b bytes, String.utf8EncodeChar c = b :: bytes ∧ 128 ≤ (Char.ofUInt8 b).toNat := by
  have hc : 128 ≤ c.val.toNat := h
  have hbyte : ∀ b, (Char.ofUInt8 b).toNat = b.toNat := fun _ => rfl
  unfold String.utf8EncodeChar
  simp only
  split_ifs
  · omega
  all_goals exact ⟨_, _, rfl, by rw [hbyte, UInt8.toNat_ofNat']; omega⟩

theorem charAt?_append (before : List Char) (c : Char) (after : List Char) :
    charAt? (before ++ c :: after) (utf8 before).length = some c := by
  induction before with
  | nil => rfl
  | cons d before ih =>
    have hlength : (utf8 (d :: before)).length = d.utf8Size + (utf8 before).length := by
      rw [utf8_cons, List.length_append, String.length_utf8EncodeChar]
    have hpos := d.utf8Size_pos
    rw [List.cons_append, charAt?, hlength, if_neg (by omega), if_neg (by omega), Nat.add_sub_cancel_left, ih]

/-! ## Order -/

theorem toUInt8_lt {c d : Char} (hd : d.toNat < 128) (h : c < d) : c.toNat.toUInt8 < d.toNat.toUInt8 := by
  have hlt : c.toNat < d.toNat := h
  rw [UInt8.lt_iff_toNat_lt, UInt8.toNat_ofNat', UInt8.toNat_ofNat']
  omega

/-- texts of such characters have the order of their bytes -/
theorem utf8_lt {a b : List Char} (ha : ∀ c ∈ a, c.toNat < 128) (hb : ∀ c ∈ b, c.toNat < 128) (h : a < b) :
    utf8 a < utf8 b := by
  induction a generalizing b with
  | nil =>
    cases b with
    | nil => exact absurd h (List.lt_irrefl _)
    | cons d b =>
      rw [utf8_cons, utf8EncodeChar_of_lt (hb d List.mem_cons_self)]
      exact List.nil_lt_cons _ _
  | cons c a ih =>
    cases b with
    | nil => exact absurd h (List.not_lt_nil _)
    | cons d b =>
      have hd := hb d List.mem_cons_self
      rw [utf8_cons, utf8_cons, utf8EncodeChar_of_lt (ha c List.mem_cons_self), utf8EncodeChar_of_lt hd,
        List.singleton_append, List.singleton_append]
      rcases List.cons_lt_cons_iff.mp h with hlt | ⟨rfl, hrest⟩
      · exact List.cons_lt_cons_iff.mpr (Or.inl (toUInt8_lt hd hlt))
      · have hutf8 := ih (fun e he => ha e (List.mem_cons_of_mem _ he)) (fun e he => hb e (List.mem_cons_of_mem _ he)) hrest
        exact List.cons_lt_cons_iff.mpr (Or.inr ⟨rfl, hutf8⟩)

end ClauseFold.Text
