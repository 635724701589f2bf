/-
The reader of the linear form against its writer.

A reader goes over symbols as well as over bytes (`decode?_eq`). A reader in the middle of a text stands for what it has
gone past: `Pending.symbols` spells the connectives that wait, with the antecedents already read, and `Expected.symbols` the
digits of a number that is not closed yet. Two facts carry everything else:
- `decodeFrom_encode`: over the encoding of a formula, whatever comes after it, a reader gets to where it has that
  formula in hand;
- `encode_of_decodeFrom`: what a reader accepts in the end is spelled by what it had gone past and what was left.

Main statement:
- `decode_encoding_iff`: a text reads as a formula exactly if it is the encoding of that formula.
-/
import ClauseFold.Proofs.Formula.Bytes

namespace ClauseFold

/-! ## Decimal digits -/

namespace Text

theorem digitValue_lt {c : Char} (h : c.isDigit = true) : digitValue c < 10 := by
  have hc := Char.isDigit_iff_toNat.mp h
  have h0 : '0'.toNat = 48 := rfl
  have h9 : '9'.toNat = 57 := rfl
  unfold digitValue
  omega

theorem digitChar_digitValue {c : Char} (h : c.isDigit = true) : Nat.digitChar (digitValue c) = c := by
  have hc := Char.isDigit_iff_toNat.mp h
  have h0 : '0'.toNat = 48 := rfl
  apply Char.toNat_inj.mp
  rw [Nat.toNat_digitChar_of_lt_ten (digitValue_lt h)]
  unfold digitValue
  omega

theorem decimal_digitValue {c : Char} (h : c.isDigit = true) : decimal (digitValue c) = [c] := by
  unfold decimal
  rw [Nat.toDigits_of_lt_base (digitValue_lt h), digitChar_digitValue h]

theorem decimal_append_digit {n : Nat} {c : Char} (hn : 0 < n) (h : c.isDigit = true) :
    decimal n ++ [c] = decimal (10 * n + digitValue c) := by
  rw [← decimal_digitValue h]
  exact Nat.toDigits_append_toDigits (by decide) hn (digitValue_lt h)

theorem digitValue_pos {c : Char} (h : c.isDigit = true) (h0 : c ≠ '0') : 0 < digitValue c := by
  apply Nat.pos_of_ne_zero
  intro hz
  apply h0
  rw [← digitChar_digitValue h, hz]
  rfl

theorem digitsValueFrom_decimal (n : Nat) : digitsValueFrom 0 (decimal n) = n := Nat.ofDigitChars_ten_toDigits

theorem isDigit_of_mem_decimal {n : Nat} {c : Char} (h : c ∈ decimal n) : c.isDigit = true :=
  Nat.isDigit_of_mem_toDigits (by decide) (by decide) h

theorem decimal_ne_nil (n : Nat) : decimal n ≠ [] := by
  intro h
  have hlength : 0 < (decimal n).length := Nat.length_toDigits_pos
  rw [h] at hlength
  cases hlength

/-- a positive number is not written with a leading zero -/
theorem decimal_eq_cons {n : Nat} (hn : 0 < n) : ∃ c cs, decimal n = c :: cs ∧ c ≠ '0' := by
  induction n using Nat.strongRecOn with
  | ind n ih =>
    unfold decimal at ih ⊢
    rw [Nat.toDigits_eq_if (by decide)]
    by_cases hlt : n < 10
    · rw [if_pos hlt]
      refine ⟨n.digitChar, [], rfl, ?_⟩
      intro h
      have hval := Nat.toNat_digitChar_of_lt_ten hlt
      rw [h] at hval
      have h0 : '0'.toNat = 48 := rfl
      omega
    · rw [if_neg hlt]
      obtain ⟨c, cs, hcs, hc⟩ := ih (n / 10) (by omega) (by omega)
      exact ⟨c, cs ++ [(n % 10).digitChar], by rw [hcs]; rfl, hc⟩

end Text

theorem VarId.ofNat?_val (v : VarId) : ofNat? v.val = some v := dif_pos ⟨v.pos, v.lt⟩

theorem VarId.val_of_ofNat? {n : Nat} {v : VarId} (h : ofNat? n = some v) : v.val = n := by
  unfold ofNat? at h
  split at h
  · cases h; rfl
  · cases h

/-! ## What a reader has gone past -/

/-- the symbols of the connectives that wait, the outermost first, and of the antecedents already read -/
def Pending.symbols : List Pending → List Char
  | [] => []
  | negation :: rest => symbols rest ++ [symbolNeg]
  | antecedent :: rest => symbols rest ++ [symbolImp]
  | consequent a :: rest => symbols rest ++ symbolImp :: a.encode

/-- the digits of a number that is not closed yet -/
def Expected.symbols : Expected → List Char
  | formula => []
  | digits _ value => Text.decimal value

/-- a number that is being read has begun with a digit other than zero -/
def Expected.Begun : Expected → Prop
  | formula => True
  | digits _ value => 0 < value

theorem Pending.encode_of_close {f g : Formula} {pending : List Pending} (h : close f pending = .inl g) :
    g.encode = symbols pending ++ f.encode := by
  induction pending generalizing f with
  | nil => cases h; rfl
  | cons p rest ih =>
    cases p with
    | negation => rw [ih h, symbols, Formula.encode_neg]; simp
    | antecedent => cases h
    | consequent a => rw [ih h, symbols, Formula.encode_imp]; simp

theorem Pending.symbols_of_close {f : Formula} {pending waiting : List Pending} (h : close f pending = .inr waiting) :
    symbols waiting = symbols pending ++ f.encode := by
  induction pending generalizing f with
  | nil => cases h
  | cons p rest ih =>
    cases p with
    | negation => rw [ih h, symbols, Formula.encode_neg]; simp
    | antecedent => cases h; simp [symbols]
    | consequent a => rw [ih h, symbols, Formula.encode_imp]; simp

namespace Formula

/-! ## Reading what was written -/

theorem decodeFrom_digits (position start value : Nat) (pending : List Pending) (ds rest : List Char)
    (hds : ∀ c ∈ ds, c.isDigit = true) :
    decodeFrom position pending (.digits start value) (ds ++ rest) =
      decodeFrom (position + ds.length) pending (.digits start (Text.digitsValueFrom value ds)) rest := by
  induction ds generalizing position value with
  | nil => rfl
  | cons c ds ih =>
    have hc : c.isDigit = true := hds c List.mem_cons_self
    have htail : ∀ d ∈ ds, d.isDigit = true := fun d hd => hds d (List.mem_cons_of_mem c hd)
    rw [List.cons_append, decodeFrom, if_pos hc, ih (position + 1) _ htail, List.length_cons]
    rw [Nat.add_assoc, Nat.add_comm 1]
    rfl

/-- a digit other than zero begins a number -/
theorem decodeFrom_digit {c : Char} (hc : c.isDigit = true) (h0 : c ≠ '0') (position : Nat) (pending : List Pending)
    (rest : List Char) :
    decodeFrom position pending .formula (c :: rest) =
      decodeFrom (position + 1) pending (.digits position (Text.digitValue c)) rest := by
  have hne : ∀ {d : Char}, ¬d.isDigit = true → c ≠ d := by
    intro d hd heq
    exact hd (heq ▸ hc)
  have hconst : ¬(c = symbolTrue ∨ c = symbolFalse) := by
    intro h
    rcases h with h | h
    · exact hne (by decide) h
    · exact hne (by decide) h
  have hneg : c ≠ symbolNeg := hne (by decide)
  have himp : c ≠ symbolImp := hne (by decide)
  rw [decodeFrom, if_neg hconst, if_neg hneg, if_neg himp, if_neg h0, if_pos hc]

theorem decodeFrom_var (v : VarId) (position : Nat) (pending : List Pending) (rest : List Char) :
    decodeFrom position pending .formula (varSymbols v ++ rest) =
      resume (position + (varSymbols v).length) pending (var v) rest := by
  obtain ⟨c, cs, hdec, h0⟩ := Text.decimal_eq_cons v.pos
  have hdigit : ∀ d ∈ c :: cs, d.isDigit = true := by
    intro d hd
    exact Text.isDigit_of_mem_decimal (hdec ▸ hd)
  have hvalue : Text.digitsValueFrom (Text.digitValue c) cs = v.val := by
    rw [← Text.digitsValueFrom_decimal v.val, hdec]
    simp [Text.digitsValueFrom]
  have hend : ¬symbolEnd.isDigit = true := by decide
  have hsymbols : varSymbols v ++ rest = c :: (cs ++ symbolEnd :: rest) := by simp [varSymbols, hdec]
  have hlength : (varSymbols v).length = cs.length + 2 := by simp [varSymbols, hdec]
  rw [hsymbols, decodeFrom_digit (hdigit c List.mem_cons_self) h0,
    decodeFrom_digits _ _ _ _ _ _ fun d hd => hdigit d (List.mem_cons_of_mem c hd), hvalue, decodeFrom, if_neg hend,
    if_pos rfl, VarId.ofNat?_val, hlength, show position + 1 + cs.length + 1 = position + (cs.length + 2) by omega]
  rfl

/-- over the encoding of a formula a reader gets to where it has the formula in hand -/
theorem decodeFrom_encode (f : Formula) (position : Nat) (pending : List Pending) (rest : List Char) :
    decodeFrom position pending .formula (f.encode ++ rest) =
      resume (position + f.encode.length) pending f rest := by
  induction f generalizing position pending rest with
  | const b =>
    rw [encode_const]
    cases b <;> rfl
  | var v => rw [encode_var, decodeFrom_var]
  | neg f ih =>
    have hlength : position + 1 + f.encode.length = position + (neg f).encode.length := by
      rw [encode_neg, List.length_cons]
      omega
    calc decodeFrom position pending .formula ((neg f).encode ++ rest)
        = decodeFrom position pending .formula (symbolNeg :: (f.encode ++ rest)) := by rw [encode_neg, List.cons_append]
      _ = decodeFrom (position + 1) (.negation :: pending) .formula (f.encode ++ rest) := rfl
      _ = resume (position + 1 + f.encode.length) (.negation :: pending) f rest := ih _ _ _
      _ = resume (position + (neg f).encode.length) pending (neg f) rest := by rw [hlength]; rfl
  | imp a c iha ihc =>
    have hlength : position + 1 + a.encode.length + c.encode.length = position + (imp a c).encode.length := by
      rw [encode_imp, List.length_cons, List.length_append]
      omega
    calc decodeFrom position pending .formula ((imp a c).encode ++ rest)
        = decodeFrom position pending .formula (symbolImp :: (a.encode ++ (c.encode ++ rest))) := by
          rw [encode_imp, List.cons_append, List.append_assoc]
      _ = decodeFrom (position + 1) (.antecedent :: pending) .formula (a.encode ++ (c.encode ++ rest)) := rfl
      _ = resume (position + 1 + a.encode.length) (.antecedent :: pending) a (c.encode ++ rest) := iha _ _ _
      _ = decodeFrom (position + 1 + a.encode.length) (.consequent a :: pending) .formula (c.encode ++ rest) := rfl
      _ = resume (position + 1 + a.encode.length + c.encode.length) (.consequent a :: pending) c rest := ihc _ _ _
      _ = resume (position + (imp a c).encode.length) pending (imp a c) rest := by rw [hlength]; rfl

theorem decode_encode (f : Formula) : decode? f.encode = .ok f := by
  have h := decodeFrom_encode f 0 [] []
  rw [List.append_nil] at h
  rw [decode?_eq]
  exact h

/-! ## Writing what was read -/

/-- what a reader that has a formula in hand accepts in the end -/
theorem encode_of_resume {position : Nat} {pending : List Pending} {f g : Formula} {rest : List Char}
    (hread : ∀ waiting, decodeFrom position waiting .formula rest = .ok g → g.encode = Pending.symbols waiting ++ rest)
    (h : resume position pending f rest = .ok g) : g.encode = Pending.symbols pending ++ (f.encode ++ rest) := by
  unfold resume at h
  cases hclose : Pending.close f pending with
  | inl whole =>
    rw [hclose] at h
    cases rest with
    | nil => cases h; rw [Pending.encode_of_close hclose, List.append_nil]
    | cons c rest => cases h
  | inr waiting =>
    rw [hclose] at h
    rw [hread waiting h, Pending.symbols_of_close hclose, List.append_assoc]

/-- what a reader accepts in the end is spelled by what it has gone past and what is left -/
theorem encode_of_decodeFrom {position : Nat} {pending : List Pending} (expected : Expected) {rest : List Char}
    {g : Formula} (hbegun : expected.Begun) (h : decodeFrom position pending expected rest = .ok g) :
    g.encode = Pending.symbols pending ++ (expected.symbols ++ rest) := by
  induction rest generalizing position pending expected with
  | nil => cases expected <;> cases h
  | cons c rest ih =>
    have hnext : ∀ waiting, decodeFrom (position + 1) waiting .formula rest = .ok g →
        g.encode = Pending.symbols waiting ++ rest := fun waiting hw => ih .formula trivial hw
    cases expected with
    | digits start value =>
      rw [decodeFrom] at h
      split at h
      case isTrue hc =>
        have hpos : 0 < 10 * value + Text.digitValue c := by have : 0 < value := hbegun; omega
        have hvalue : 0 < value := hbegun
        rw [ih (.digits start (10 * value + Text.digitValue c)) hpos h]
        simp only [Expected.symbols]
        rw [← Text.decimal_append_digit hvalue hc, List.append_assoc, List.singleton_append]
      case isFalse =>
        split at h
        case isTrue hend =>
          cases hv : VarId.ofNat? value with
          | none => rw [hv] at h; cases h
          | some v =>
            rw [hv] at h
            have hg : g.encode = Pending.symbols pending ++ ((var v).encode ++ rest) := encode_of_resume hnext h
            rw [hg, encode_var, varSymbols, VarId.val_of_ofNat? hv, hend]
            simp [Expected.symbols]
        case isFalse => cases h
    | formula =>
      rw [decodeFrom] at h
      simp only [Expected.symbols, List.nil_append]
      split at h
      case isTrue hconst =>
        have hg : g.encode = Pending.symbols pending ++ ((const (c = symbolTrue)).encode ++ rest) :=
          encode_of_resume hnext h
        rw [hg, encode_const]
        rcases hconst with rfl | rfl <;> rfl
      case isFalse =>
        split at h
        case isTrue hneg => rw [hnext _ h, hneg]; simp [Pending.symbols]
        case isFalse =>
          split at h
          case isTrue himp => rw [hnext _ h, himp]; simp [Pending.symbols]
          case isFalse =>
            split at h
            case isTrue => cases h
            case isFalse h0 =>
              split at h
              case isTrue hc =>
                have hg := ih (.digits position (Text.digitValue c)) (Text.digitValue_pos hc h0) h
                rw [hg, Expected.symbols, Text.decimal_digitValue hc, List.singleton_append]
              case isFalse => cases h

theorem encode_of_decode {text : List Char} {f : Formula} (h : decode? text = .ok f) : f.encode = text := by
  rw [decode?_eq] at h
  exact encode_of_decodeFrom .formula trivial h

theorem encode_injective {f g : Formula} (h : f.encode = g.encode) : f = g := by
  have hf := decode_encode f
  rw [h, decode_encode g] at hf
  cases hf
  rfl

/-- no encoding goes on to another: a reader that has a formula in hand wants nothing after it -/
theorem eq_of_encode_prefix {f g : Formula} (h : f.encode <+: g.encode) : f = g := by
  obtain ⟨rest, hrest⟩ := h
  have hread : resume (0 + f.encode.length) [] f rest = .ok g := by
    rw [← decodeFrom_encode, hrest, ← decode?_eq]
    exact decode_encode g
  cases rest with
  | nil => cases hread; rfl
  | cons c cs => cases hread

/-! ## Symbols -/

theorem encode_ne_nil (f : Formula) : f.encode ≠ [] := by
  cases f <;> simp [varSymbols]

theorem symbol_of_mem_encode {f : Formula} {c : Char} (h : c ∈ f.encode) :
    c.isDigit = true ∨ c ∈ [symbolTrue, symbolFalse, symbolNeg, symbolImp, symbolEnd] := by
  induction f with
  | const b =>
    rw [encode_const, List.mem_singleton] at h
    cases b <;> simp [h, constSymbol]
  | var v =>
    rw [encode_var, varSymbols, List.mem_append, List.mem_singleton] at h
    rcases h with h | rfl
    · exact Or.inl (Text.isDigit_of_mem_decimal h)
    · simp
  | neg f ih =>
    rw [encode_neg, List.mem_cons] at h
    rcases h with rfl | h
    · simp
    · exact ih h
  | imp a c iha ihc =>
    rw [encode_imp, List.mem_cons, List.mem_append] at h
    rcases h with rfl | h | h
    · simp
    · exact iha h
    · exact ihc h

/-- the symbols of an encoding are of seven bits -/
theorem lt_of_mem_encode {f : Formula} {c : Char} (h : c ∈ f.encode) : c.toNat < 128 := by
  rcases symbol_of_mem_encode h with hdigit | hsymbol
  · exact Text.lt_of_isDigit hdigit
  · simp only [List.mem_cons, List.not_mem_nil, or_false] at hsymbol
    rcases hsymbol with rfl | rfl | rfl | rfl | rfl <;> decide

/-! ## The two together -/

/-- **Reading inverts writing.** A text reads as a formula exactly if it is the encoding of that formula. So the
encoding of every formula reads as the formula, nothing else is accepted, and formulas with one encoding are equal. -/
theorem decode_encoding_iff (f : Formula) :
    decode? f.encoding.toList = .ok f ∧
    (∀ text : String, decode? text.toList = .ok f ↔ f.encoding = text) ∧
    ∀ g : Formula, f.encoding = g.encoding ↔ f = g := by
  have hlist : ∀ g : Formula, g.encoding.toList = g.encode := by
    intro g
    exact String.toList_ofList
  have hread : decode? f.encoding.toList = .ok f := by
    rw [hlist]
    exact decode_encode f
  refine ⟨hread, ?_, ?_⟩
  · intro text
    refine ⟨?_, ?_⟩
    · intro h
      unfold encoding
      rw [encode_of_decode h, String.ofList_toList]
    · intro h
      rw [← h]
      exact hread
  · intro g
    refine ⟨?_, ?_⟩
    · intro h
      apply encode_injective
      rw [← hlist f, h, hlist g]
    · intro h
      rw [h]

end Formula

end ClauseFold
