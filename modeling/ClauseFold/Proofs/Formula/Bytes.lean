/-
Reading over bytes and reading over symbols. Whatever a reader gets past is of seven bits, so it goes past a byte where it
goes past a symbol, and a position in bytes is a position in symbols. Where it stops at any other symbol, it stops at the
first byte of that symbol, and so it finds the symbol in the text.

Main statement:
- `decode?_eq`: a text is read over its bytes as it is over its symbols.
-/
import ClauseFold.Formula.Encoding
import ClauseFold.Proofs.Text.Utf8
import Mathlib.Tactic.SplitIfs

namespace ClauseFold.Formula

/-- what a reader does with a formula in hand, at `position` and ahead of `rest` -/
def resume (position : Nat) (pending : List Pending) (f : Formula) (rest : List Char) : Except DecodeError Formula :=
  match Pending.close f pending with
  | .inl g => if rest.isEmpty then .ok g else .error (.trailingSymbols position)
  | .inr waiting => decodeFrom position waiting .formula rest

theorem decodeFrom_formula_cons (position : Nat) (pending : List Pending) (c : Char) (rest : List Char) :
    decodeFrom position pending .formula (c :: rest) =
      if c = symbolTrue ∨ c = symbolFalse then resume (position + 1) pending (const (c = symbolTrue)) rest
      else if c = symbolNeg then decodeFrom (position + 1) (.negation :: pending) .formula rest
      else if c = symbolImp then decodeFrom (position + 1) (.antecedent :: pending) .formula rest
      else if c = '0' then .error (.number position)
      else if c.isDigit then decodeFrom (position + 1) pending (.digits position (Text.digitValue c)) rest
      else .error (.unexpectedSymbol position c) := rfl

theorem decodeFrom_digits_cons (position start value : Nat) (pending : List Pending) (c : Char) (rest : List Char) :
    decodeFrom position pending (.digits start value) (c :: rest) =
      if c.isDigit then decodeFrom (position + 1) pending (.digits start (10 * value + Text.digitValue c)) rest
      else if c = symbolEnd then
        match VarId.ofNat? value with
        | none => .error (.number start)
        | some v => resume (position + 1) pending (var v) rest
      else .error (.unexpectedSymbol position c) := rfl

/-- no formula has a symbol of more than seven bits -/
theorem decodeFrom_of_ge {c : Char} (h : 128 ≤ c.toNat) (position : Nat) (pending : List Pending) (expected : Expected)
    (rest : List Char) :
    decodeFrom position pending expected (c :: rest) = .error (.unexpectedSymbol position c) := by
  have hne : ∀ {s : Char}, s.toNat < 128 → c ≠ s := by
    rintro s hs rfl
    omega
  have hconst : ¬(c = symbolTrue ∨ c = symbolFalse) := not_or.mpr ⟨hne (by decide), hne (by decide)⟩
  have hdigit : ¬c.isDigit = true := by
    intro hdigit
    have hlt := Text.lt_of_isDigit hdigit
    omega
  cases expected with
  | digits start value => rw [decodeFrom, if_neg hdigit, if_neg (hne (by decide))]
  | formula =>
    rw [decodeFrom, if_neg hconst, if_neg (hne (by decide)), if_neg (hne (by decide)), if_neg (hne (by decide)),
      if_neg hdigit]

/-- going over the bytes of `rest`, behind the bytes of `before`, is going over its symbols -/
theorem mapError_decodeFrom (before rest : List Char) (pending : List Pending) (expected : Expected) :
    (decodeFrom (Text.utf8 before).length pending expected ((Text.utf8 rest).map Char.ofUInt8)).mapError
      (DecodeError.inText (before ++ rest)) = decodeFrom (Text.utf8 before).length pending expected rest := by
  induction rest generalizing before pending expected with
  | nil => rw [Text.utf8_nil, List.map_nil, decodeFrom]; rfl
  | cons c rest ih =>
    have hname : ∀ d, DecodeError.inText (before ++ c :: rest) (.unexpectedSymbol (Text.utf8 before).length d) =
        .unexpectedSymbol (Text.utf8 before).length c := by
      intro d
      rw [DecodeError.inText, Text.charAt?_append]
      rfl
    by_cases hc : c.toNat < 128
    · have hbytes : (Text.utf8 (c :: rest)).map Char.ofUInt8 = c :: (Text.utf8 rest).map Char.ofUInt8 := by
        rw [Text.utf8_cons, Text.utf8EncodeChar_of_lt hc, List.singleton_append, List.map_cons, Text.ofUInt8_of_lt hc]
      have hnext := fun pending expected => ih (before ++ [c]) pending expected
      simp only [Text.length_utf8_concat before hc, List.append_assoc, List.singleton_append] at hnext
      have hresume : ∀ f, (resume ((Text.utf8 before).length + 1) pending f ((Text.utf8 rest).map Char.ofUInt8)).mapError
          (DecodeError.inText (before ++ c :: rest)) = resume ((Text.utf8 before).length + 1) pending f rest := by
        intro f
        have hempty : ((Text.utf8 rest).map Char.ofUInt8).isEmpty = rest.isEmpty := by
          rw [Bool.eq_iff_iff, List.isEmpty_iff, List.isEmpty_iff, List.map_eq_nil_iff, Text.utf8_eq_nil_iff]
        unfold resume
        rw [hempty]
        cases Pending.close f pending with
        | inl g => cases rest <;> rfl
        | inr waiting => exact hnext waiting .formula
      rw [hbytes]
      cases expected with
      | digits start value =>
        rw [decodeFrom_digits_cons, decodeFrom_digits_cons]
        split_ifs
        · exact hnext pending _
        · cases VarId.ofNat? value with
          | none => rfl
          | some v => exact hresume (var v)
        · exact congrArg Except.error (hname c)
      | formula =>
        rw [decodeFrom_formula_cons, decodeFrom_formula_cons]
        split_ifs
        · exact hresume _
        · exact hnext _ .formula
        · exact hnext _ .formula
        · rfl
        · exact hnext pending _
        · exact congrArg Except.error (hname c)
    · have hge : 128 ≤ c.toNat := Nat.le_of_not_lt hc
      obtain ⟨b, bytes, hbytes, hb⟩ := Text.exists_utf8EncodeChar_of_ge hge
      rw [Text.utf8_cons, hbytes, List.cons_append, List.map_cons, decodeFrom_of_ge hb, decodeFrom_of_ge hge,
        Except.mapError, hname]

theorem decode?_eq (text : List Char) : decode? text = decodeFrom 0 [] .formula text :=
  mapError_decodeFrom [] text [] .formula

end ClauseFold.Formula
