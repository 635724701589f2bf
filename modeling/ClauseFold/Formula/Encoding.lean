/-
The linear form of a formula. A constant is `T` or `F`, a variable is its number in decimal closed by a dot, a
negation is `-` and the negated formula, an implication is `*`, the antecedent and the consequent:

    formula  := T | F | variable | - formula | * formula formula
    variable := digits without a leading zero, from 1 to 2^32 - 1, then a dot

`encode` writes it and `decode?` reads it. The writer gives one symbol after the other, with a stack of the formulas that
still wait to be written. The reader goes over the bytes of a text once, from the left, with a stack of the connectives
that still wait for an operand, and reports the first symbol that no formula can have there, by the byte at which it begins.

Main statements:
- `Symbols.all_eq`: what a writer writes is given by recursion on the formulas that wait.
- `encodeOnto_eq`: the encoding does not depend on what follows it.
- `encode_neg`, `encode_imp`: the encoding of a formula from those of its operands.
-/
import ClauseFold.Formula.Basic
import ClauseFold.Text.Utf8

namespace ClauseFold

/-- the symbols of the linear form other than digits -/
def symbolTrue : Char := 'T'

def symbolFalse : Char := 'F'

def symbolNeg : Char := '-'

def symbolImp : Char := '*'

def symbolEnd : Char := '.'

namespace Formula

def constSymbol (b : Bool) : Char := if b then symbolTrue else symbolFalse

/-- the symbols of a variable: its digits and the dot -/
def varSymbols (v : VarId) : List Char := Text.decimal v.val ++ [symbolEnd]

/-- the encoding of a formula ahead of `rest` -/
def encodeOnto : Formula → List Char → List Char
  | const b, rest => constSymbol b :: rest
  | var v, rest => varSymbols v ++ rest
  | neg f, rest => symbolNeg :: f.encodeOnto rest
  | imp a c, rest => symbolImp :: a.encodeOnto (c.encodeOnto rest)

end Formula

/-! ## Writing -/

/-- a writer on its way: the formulas that wait, the next one first, and what is left of the symbols of a variable -/
structure Symbols where
  stack : List Formula
  digits : List Char

namespace Symbols

/-- the next symbol, and the writer after it -/
def next? : Symbols → Option (Char × Symbols)
  | ⟨stack, d :: digits⟩ => some (d, ⟨stack, digits⟩)
  | ⟨[], []⟩ => none
  | ⟨.const b :: stack, []⟩ => some (Formula.constSymbol b, ⟨stack, []⟩)
  | ⟨.var v :: stack, []⟩ => (Formula.varSymbols v).head?.map fun d => (d, ⟨stack, (Formula.varSymbols v).tail⟩)
  | ⟨.neg f :: stack, []⟩ => some (symbolNeg, ⟨f :: stack, []⟩)
  | ⟨.imp a c :: stack, []⟩ => some (symbolImp, ⟨a :: c :: stack, []⟩)

/-- what is left to write -/
def rest (s : Symbols) : List Char := s.digits ++ s.stack.foldr Formula.encodeOnto []

theorem next?_cases (s : Symbols) :
    (s.next? = none ∧ s.rest = []) ∨ ∃ c s', s.next? = some (c, s') ∧ s.rest = c :: s'.rest := by
  rcases s with ⟨stack, digits⟩
  cases digits with
  | cons d digits => exact Or.inr ⟨d, _, rfl, rfl⟩
  | nil =>
    cases stack with
    | nil => exact Or.inl ⟨rfl, rfl⟩
    | cons f stack =>
      cases f with
      | const b => exact Or.inr ⟨_, _, rfl, rfl⟩
      | var v =>
        have hne : Formula.varSymbols v ≠ [] := List.append_ne_nil_of_right_ne_nil _ (List.cons_ne_nil _ _)
        obtain ⟨d, digits, hv⟩ := List.exists_cons_of_ne_nil hne
        refine Or.inr ⟨d, ⟨stack, digits⟩, ?_, ?_⟩
        · rw [next?, hv]
          rfl
        · show Formula.varSymbols v ++ _ = _
          rw [hv]
          rfl
      | neg f => exact Or.inr ⟨_, _, rfl, rfl⟩
      | imp a c => exact Or.inr ⟨_, _, rfl, rfl⟩

theorem rest_of_next? {s s' : Symbols} {c : Char} (h : s.next? = some (c, s')) : s.rest = c :: s'.rest := by
  rcases next?_cases s with ⟨hnext, -⟩ | ⟨c', s₁, hnext, hrest⟩
  · rw [h] at hnext
    cases hnext
  · rw [h] at hnext
    cases hnext
    exact hrest

theorem rest_of_next?_eq_none {s : Symbols} (h : s.next? = none) : s.rest = [] := by
  rcases next?_cases s with ⟨-, hrest⟩ | ⟨c, s', hnext, -⟩
  · exact hrest
  · rw [h] at hnext
    cases hnext

/-- the symbols that a writer gives until it is done -/
def all (s : Symbols) : List Char :=
  match h : s.next? with
  | none => []
  | some (c, s') =>
    have : s'.rest.length < s.rest.length := by rw [rest_of_next? h]; exact Nat.lt_succ_self _
    c :: s'.all
termination_by s.rest.length

/-- a writer gives what is left to write -/
theorem all_eq (s : Symbols) : s.all = s.rest := by
  fun_induction all s with
  | case1 s hnext => rw [rest_of_next?_eq_none hnext]
  | case2 s c s' hnext hless ih => rw [rest_of_next? hnext, ih]

end Symbols

namespace Formula

def symbols (f : Formula) : Symbols := ⟨[f], []⟩

/-- the symbols of a formula -/
def encode (f : Formula) : List Char := f.symbols.all

def encoding (f : Formula) : String := String.ofList f.encode

theorem encode_eq_encodeOnto (f : Formula) : f.encode = f.encodeOnto [] := Symbols.all_eq f.symbols

theorem encodeOnto_eq (f : Formula) (rest : List Char) : f.encodeOnto rest = f.encode ++ rest := by
  rw [encode_eq_encodeOnto]
  induction f generalizing rest with
  | const b => rfl
  | var v => simp [encodeOnto]
  | neg f ih => rw [encodeOnto, encodeOnto, ih rest]; rfl
  | imp a c iha ihc =>
    rw [encodeOnto, encodeOnto, ihc rest, iha (c.encodeOnto [] ++ rest), iha (c.encodeOnto [])]
    simp

@[simp] theorem encode_const (b : Bool) : (const b).encode = [constSymbol b] := encode_eq_encodeOnto _

@[simp] theorem encode_var (v : VarId) : (var v).encode = varSymbols v := by
  rw [encode_eq_encodeOnto, encodeOnto, List.append_nil]

@[simp] theorem encode_neg (f : Formula) : (neg f).encode = symbolNeg :: f.encode := by
  rw [encode_eq_encodeOnto, encodeOnto, ← encode_eq_encodeOnto]

@[simp] theorem encode_imp (a c : Formula) : (imp a c).encode = symbolImp :: (a.encode ++ c.encode) := by
  rw [encode_eq_encodeOnto, encodeOnto, encodeOnto_eq a, ← encode_eq_encodeOnto]

end Formula

/-! ## Reading -/

/-- why a text is no encoding -/
inductive DecodeError where
  /-- the text ends before a formula is complete -/
  | unexpectedEnd
  /-- a symbol that cannot stand at its position -/
  | unexpectedSymbol (position : Nat) (symbol : Char)
  /-- symbols after a complete formula, from the position on -/
  | trailingSymbols (position : Nat)
  /-- a number with a leading zero, or out of range, that begins at the position -/
  | number (position : Nat)
deriving DecidableEq, Repr

/-- a connective that waits for an operand -/
inductive Pending where
  | negation
  | antecedent
  | consequent (antecedent : Formula)
deriving DecidableEq, Repr

/-- what a reader expects next: a formula, or the rest of a number that began at `start` and is `value` so far -/
inductive Expected where
  | formula
  | digits (start value : Nat)
deriving DecidableEq, Repr

/-- a complete formula closes the connectives on top of the stack that waited for it. Either the stack is used up and
the formula is the whole one, or an implication is left that waits for its consequent. -/
def Pending.close (f : Formula) : List Pending → Formula ⊕ List Pending
  | [] => .inl f
  | negation :: rest => close (.neg f) rest
  | antecedent :: rest => .inr (consequent f :: rest)
  | consequent a :: rest => close (.imp a f) rest

namespace Formula

/-- reads on at `position`, with the connectives that wait for an operand, the innermost first -/
def decodeFrom (position : Nat) (pending : List Pending) : Expected → List Char → Except DecodeError Formula
  | _, [] => .error .unexpectedEnd
  | .digits start value, c :: rest =>
    if c.isDigit then decodeFrom (position + 1) pending (.digits start (10 * value + Text.digitValue c)) rest
    else if c = symbolEnd then
      match VarId.ofNat? value with
      | none => .error (.number start)
      | some v =>
        match Pending.close (.var v) pending with
        | .inl f => if rest.isEmpty then .ok f else .error (.trailingSymbols (position + 1))
        | .inr waiting => decodeFrom (position + 1) waiting .formula rest
    else .error (.unexpectedSymbol position c)
  | .formula, c :: rest =>
    if c = symbolTrue ∨ c = symbolFalse then
      match Pending.close (.const (c = symbolTrue)) pending with
      | .inl f => if rest.isEmpty then .ok f else .error (.trailingSymbols (position + 1))
      | .inr waiting => decodeFrom (position + 1) waiting .formula rest
    else if c = symbolNeg then decodeFrom (position + 1) (.negation :: pending) .formula rest
    else if c = symbolImp then decodeFrom (position + 1) (.antecedent :: pending) .formula rest
    else if c = '0' then .error (.number position)
    else if c.isDigit then decodeFrom (position + 1) pending (.digits position (Text.digitValue c)) rest
    else .error (.unexpectedSymbol position c)

end Formula

/-- a symbol that was met byte by byte is named as it stands in the text -/
def DecodeError.inText (text : List Char) : DecodeError → DecodeError
  | unexpectedSymbol position _ => unexpectedSymbol position ((Text.charAt? text position).getD Text.replacement)
  | e => e

/-- the formula that a text encodes, or the first defect of the text. The symbols of the linear form are of seven bits, so it
is enough to look at bytes, each as if it were a character. -/
def Formula.decode? (text : List Char) : Except DecodeError Formula :=
  (decodeFrom 0 [] .formula ((Text.utf8 text).map Char.ofUInt8)).mapError (DecodeError.inText text)

end ClauseFold
