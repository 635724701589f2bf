/-
Lines of texts and of bytes. A text can be cut into lines before it is written as bytes or after: no other character than
the line break has the byte of the line break in its UTF-8 form. Lines that are each closed by a line break are read as
these lines.

Results:
- `linesOfBytes_utf8`: the bytes of a text have the lines of the text;
- `linesOfBytes_closed_append`: lines that are each closed by a line break are read as they are.
-/
import Mathlib.Tactic.SplitIfs
import ClauseFold.Text.Lines
import ClauseFold.Proofs.Text.Utf8

namespace ClauseFold.Text

/-- a text of lines, each closed by a line break -/
def closed (lines : List (List Char)) : List Char := lines.flatMap fun line => line ++ ['\n']

/-! ## Bytes -/

theorem lineOfBytes_utf8 (line : List Char) : lineOfBytes (utf8 line) = .ok line := by
  have hbytes : (⟨(utf8 line).toArray⟩ : ByteArray) = line.utf8Encode := by
    apply ByteArray.ext
    simp [List.utf8Encode, utf8]
  have hvalid : line.utf8Encode.IsValidUTF8 := ⟨line, rfl⟩
  have hread : String.fromUTF8? line.utf8Encode = some (String.ofList line) := by
    unfold String.fromUTF8?
    rw [dif_pos hvalid]
    rfl
  unfold lineOfBytes
  rw [hbytes, hread]
  simp

theorem utf8_ne_newline {c : Char} (hc : c ≠ '\n') {b : UInt8} (hb : b ∈ String.utf8EncodeChar c) : b ≠ 10 := by
  have hne : c.val.toNat ≠ 10 := fun h => hc (Char.toNat_inj.mp h)
  rintro rfl
  unfold String.utf8EncodeChar at hb
  simp only at hb
  split_ifs at hb <;> simp only [List.mem_cons, List.not_mem_nil, or_false, ← UInt8.toNat_inj, UInt8.toNat_ofNat',
    UInt8.reduceToNat] at hb <;> omega

/-! ## Cutting -/

section

variable {α : Type} [BEq α] [LawfulBEq α] {sep : α}

theorem splitOn_of_not_mem {l : List α} (h : sep ∉ l) : l.splitOn sep = [l] := by
  apply List.splitOnP_eq_singleton
  intro x hx
  rw [beq_eq_false_iff_ne]
  rintro rfl
  exact h hx

theorem splitOn_cons_self (l : List α) : (sep :: l).splitOn sep = [] :: l.splitOn sep := by
  unfold List.splitOn
  rw [List.splitOnP_cons_eq_if_modifyHead, if_pos (beq_self_eq_true sep)]

/-- what has no separator in it stands ahead of the first piece -/
theorem splitOn_append {a : List α} (h : sep ∉ a) (b : List α) :
    (a ++ b).splitOn sep = (b.splitOn sep).modifyHead (a ++ ·) := by
  induction a with
  | nil => exact (List.modifyHead_id ▸ rfl)
  | cons x a ih =>
    have hx : ¬(x == sep) = true := by
      rw [beq_iff_eq]
      rintro rfl
      exact h List.mem_cons_self
    have hrest := ih fun hmem => h (List.mem_cons_of_mem x hmem)
    unfold List.splitOn at hrest ⊢
    rw [List.cons_append, List.splitOnP_cons_eq_if_modifyHead, if_neg hx, hrest, List.modifyHead_modifyHead]
    rfl

end

/-- the pieces of a text and those of its bytes -/
theorem splitOn_utf8 (text : List Char) : (utf8 text).splitOn 10 = (text.splitOn '\n').map utf8 := by
  induction text with
  | nil => rfl
  | cons c text ih =>
    rw [utf8_cons]
    by_cases hc : c = '\n'
    · have hbreak : String.utf8EncodeChar '\n' = [10] := by decide
      rw [hc, hbreak, splitOn_cons_self, List.singleton_append, splitOn_cons_self, ih]
      rfl
    · have hbytes : 10 ∉ String.utf8EncodeChar c := fun hmem => utf8_ne_newline hc hmem rfl
      have htext : '\n' ∉ [c] := by simpa using Ne.symm hc
      have hcut := splitOn_append htext text
      obtain ⟨line, lines, hlines⟩ := List.exists_cons_of_ne_nil (List.splitOnP_ne_nil (· == '\n') text)
      change text.splitOn '\n' = line :: lines at hlines
      rw [splitOn_append hbytes, ih, ← List.singleton_append, hcut, hlines]
      simp [utf8_cons]

theorem withoutEmptyEnd_map (lines : List (List Char)) :
    withoutEmptyEnd (lines.map utf8) = (withoutEmptyEnd lines).map utf8 := by
  unfold withoutEmptyEnd
  rw [List.getLast?_map]
  cases hlast : lines.getLast? with
  | none => rfl
  | some line =>
    cases line with
    | nil => exact List.map_dropLast.symm
    | cons c line =>
      have hne : utf8 (c :: line) ≠ [] := mt utf8_eq_nil_iff.mp (List.cons_ne_nil c line)
      obtain ⟨b, bs, hbytes⟩ := List.exists_cons_of_ne_nil hne
      simp only [Option.map_some, hbytes]

/-- the bytes of a text have the lines of the text -/
theorem linesOfBytes_utf8 (text : List Char) : linesOfBytes (utf8 text) = linesOfText text := by
  unfold linesOfBytes linesOfText pieces
  rw [splitOn_utf8, withoutEmptyEnd_map, List.map_map]
  apply List.map_congr_left
  intro line _
  exact lineOfBytes_utf8 line

/-- lines that are each closed by a line break are read as they are, whatever bytes come behind them -/
theorem linesOfBytes_closed_append {lines : List (List Char)} (h : ∀ line ∈ lines, '\n' ∉ line) (bytes : List UInt8) :
    linesOfBytes (utf8 (closed lines) ++ bytes) = lines.map .ok ++ linesOfBytes bytes := by
  induction lines with
  | nil => rfl
  | cons line lines ih =>
    have hline : 10 ∉ utf8 line := by
      intro hmem
      obtain ⟨c, hc, hbyte⟩ := List.mem_flatMap.mp hmem
      have hne : c ≠ '\n' := by
        rintro rfl
        exact h line List.mem_cons_self hc
      exact utf8_ne_newline hne hbyte rfl
    have hbreak : String.utf8EncodeChar '\n' = [10] := by decide
    have hcut : utf8 (closed (line :: lines)) ++ bytes = utf8 line ++ 10 :: (utf8 (closed lines) ++ bytes) := by
      simp [closed, utf8, hbreak]
    have hrest := ih fun l hl => h l (List.mem_cons_of_mem line hl)
    unfold linesOfBytes at hrest ⊢
    rw [hcut, pieces_append_newline, splitOn_of_not_mem hline, List.map_append, hrest, List.map_singleton, lineOfBytes_utf8]
    rfl

/-- lines that are each closed by a line break are read as they are -/
theorem linesOfText_closed {lines : List (List Char)} (h : ∀ line ∈ lines, '\n' ∉ line) :
    linesOfText (closed lines) = lines.map .ok := by
  have hlines := linesOfBytes_closed_append h []
  rw [List.append_nil, linesOfBytes_utf8] at hlines
  rw [hlines]
  exact List.append_nil _

/-- a line that is not closed -/
theorem linesOfText_of_line {line : List Char} (h : '\n' ∉ line) (hne : line ≠ []) : linesOfText line = [.ok line] := by
  unfold linesOfText pieces
  rw [splitOn_of_not_mem h]
  unfold withoutEmptyEnd
  cases line with
  | nil => exact absurd rfl hne
  | cons c line => rfl

end ClauseFold.Text
