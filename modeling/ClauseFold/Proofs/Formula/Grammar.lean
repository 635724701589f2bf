/-
The words of the linear form and the texts that words begin with. A word is an encoding in which a number may be of any size,
so what is a word is decided by the symbols alone. A text may be where a word is not finished yet, and there a formula may be
expected: any word may come next.

Results:
- `Word.append_inj`: a word is told from what follows it;
- `awaits_iff`: where a formula is expected, as a grammar;
- `Awaits.led`: what follows where a formula is expected has a word in front;
- `Awaits.begins_concat_iff`, `Awaits.begins_decimal_concat_iff`: the symbols that may come next.
-/
import ClauseFold.Proofs.Formula.Decoding

namespace ClauseFold

open Formula (constSymbol)

/-- a word of the linear form: an encoding with numbers of any size -/
inductive Word : List Char → Prop where
  | const (b : Bool) : Word [constSymbol b]
  | var {n : Nat} (hn : 0 < n) : Word (Text.decimal n ++ [symbolEnd])
  | neg {w : List Char} (hw : Word w) : Word (symbolNeg :: w)
  | imp {a c : List Char} (ha : Word a) (hc : Word c) : Word (symbolImp :: (a ++ c))

namespace Word

theorem encode (f : Formula) : Word f.encode := by
  induction f with
  | const b => rw [Formula.encode_const]; exact const b
  | var v => rw [Formula.encode_var]; exact var v.pos
  | neg f ih => rw [Formula.encode_neg]; exact neg ih
  | imp a c iha ihc => rw [Formula.encode_imp]; exact imp iha ihc

theorem ne_nil {w : List Char} (h : Word w) : w ≠ [] := by cases h <;> simp

/-- the first symbol tells which kind of word it is -/
theorem cons_cases {s : Char} {rest : List Char} (h : Word (s :: rest)) :
    (∃ b, s = constSymbol b ∧ rest = []) ∨ (s = symbolNeg ∧ Word rest) ∨
    (s = symbolImp ∧ ∃ a c, Word a ∧ Word c ∧ rest = a ++ c) ∨
    (s.isDigit = true ∧ s ≠ '0' ∧ ∃ n, s :: rest = Text.decimal n ++ [symbolEnd]) := by
  generalize hw : s :: rest = w at h
  cases h with
  | const b => cases hw; exact .inl ⟨b, rfl, rfl⟩
  | neg h => cases hw; exact .inr (.inl ⟨rfl, h⟩)
  | imp ha hc => cases hw; exact .inr (.inr (.inl ⟨rfl, _, _, ha, hc, rfl⟩))
  | @var n hn =>
    obtain ⟨d, ds, hd, h0⟩ := Text.decimal_eq_cons hn
    have hs : s = d := by rw [hd] at hw; exact List.head_eq_of_cons_eq hw
    have hdigit : d.isDigit = true := Text.isDigit_of_mem_decimal (n := n) (hd ▸ List.mem_cons_self)
    exact .inr (.inr (.inr ⟨hs ▸ hdigit, hs ▸ h0, n, rfl⟩))

theorem of_neg {w : List Char} (h : Word (symbolNeg :: w)) : Word w := by
  rcases h.cons_cases with ⟨b, hb, -⟩ | ⟨-, hw⟩ | ⟨hs, -⟩ | ⟨hd, -⟩
  · cases b <;> exact absurd hb (by decide)
  · exact hw
  · exact absurd hs (by decide)
  · exact absurd hd (by decide)

theorem of_imp {w : List Char} (h : Word (symbolImp :: w)) : ∃ a c, Word a ∧ Word c ∧ w = a ++ c := by
  rcases h.cons_cases with ⟨b, hb, -⟩ | ⟨hs, -⟩ | ⟨-, hw⟩ | ⟨hd, -⟩
  · cases b <;> exact absurd hb (by decide)
  · exact absurd hs (by decide)
  · exact hw
  · exact absurd hd (by decide)

theorem of_const {b : Bool} {w : List Char} (h : Word (constSymbol b :: w)) : w = [] := by
  rcases h.cons_cases with ⟨_, -, hw⟩ | ⟨hs, -⟩ | ⟨hs, -⟩ | ⟨hd, -⟩
  · exact hw
  · cases b <;> exact absurd hs (by decide)
  · cases b <;> exact absurd hs (by decide)
  · cases b <;> exact absurd hd (by decide)

theorem of_digit {d : Char} {w : List Char} (hd : d.isDigit = true) (h : Word (d :: w)) :
    ∃ n, d :: w = Text.decimal n ++ [symbolEnd] := by
  rcases h.cons_cases with ⟨b, rfl, -⟩ | ⟨rfl, -⟩ | ⟨rfl, -⟩ | ⟨-, -, hn⟩
  · cases b <;> exact absurd hd (by decide)
  · exact absurd hd (by decide)
  · exact absurd hd (by decide)
  · exact hn

/-- a word in front of a text begins with the first symbol of the text -/
theorem exists_cons {w text rest : List Char} {s : Char} (hw : Word w) (h : s :: text = w ++ rest) :
    ∃ tail, w = s :: tail ∧ text = tail ++ rest := by
  rcases List.cons_eq_append_iff.mp h with ⟨rfl, -⟩ | ⟨tail, hw, ht⟩
  · exact absurd rfl hw.ne_nil
  · exact ⟨tail, hw, ht⟩

end Word

/-! ## Words in front of other texts -/

/-- digits run on to the first symbol that is none -/
theorem Text.append_cons_inj_of_digits {ds es u v : List Char} {c d : Char} (hds : ∀ e ∈ ds, e.isDigit = true)
    (hes : ∀ e ∈ es, e.isDigit = true) (hc : c.isDigit = false) (hd : d.isDigit = false)
    (h : ds ++ c :: u = es ++ d :: v) : ds = es ∧ c :: u = d :: v := by
  have hspan : ∀ (ds u : List Char) (c : Char), (∀ e ∈ ds, e.isDigit = true) → c.isDigit = false →
      (ds ++ c :: u).takeWhile Char.isDigit = ds := by
    intro ds u c hds hc
    rw [List.takeWhile_append_of_pos hds, List.takeWhile_cons_of_neg (by rw [hc]; decide), List.append_nil]
  have hsame : ds = es := by rw [← hspan ds u c hds hc, h, hspan es v d hes hd]
  subst hsame
  exact ⟨rfl, List.append_cancel_left h⟩

/-- a word is told from what follows it -/
theorem Word.append_inj {a b u v : List Char} (ha : Word a) (hb : Word b) (h : a ++ u = b ++ v) : a = b ∧ u = v := by
  induction ha generalizing b u v with
  | const s =>
    obtain ⟨tail, rfl, rfl⟩ := hb.exists_cons h
    rw [hb.of_const]
    exact ⟨rfl, rfl⟩
  | @var n hn =>
    obtain ⟨d, ds, hd, -⟩ := Text.decimal_eq_cons hn
    have hdigit : d.isDigit = true := Text.isDigit_of_mem_decimal (n := n) (hd ▸ List.mem_cons_self)
    have hcons : d :: (ds ++ symbolEnd :: u) = b ++ v := by
      rw [← h, hd, List.append_assoc]
      rfl
    obtain ⟨tail, rfl, -⟩ := hb.exists_cons hcons
    obtain ⟨m, hm⟩ := hb.of_digit hdigit
    rw [hm, List.append_assoc, List.append_assoc] at h
    obtain ⟨hnm, huv⟩ := Text.append_cons_inj_of_digits (fun _ => Text.isDigit_of_mem_decimal)
      (fun _ => Text.isDigit_of_mem_decimal) (by decide) (by decide) h
    rw [hm, hnm]
    exact ⟨rfl, List.tail_eq_of_cons_eq huv⟩
  | neg ha ih =>
    obtain ⟨tail, rfl, ht⟩ := hb.exists_cons h
    obtain ⟨rfl, huv⟩ := ih hb.of_neg ht
    exact ⟨rfl, huv⟩
  | @imp a c ha hc iha ihc =>
    rw [List.cons_append, List.append_assoc] at h
    obtain ⟨tail, rfl, ht⟩ := hb.exists_cons h
    obtain ⟨a', c', ha', hc', rfl⟩ := hb.of_imp
    rw [List.append_assoc] at ht
    obtain ⟨rfl, hrest⟩ := iha ha' ht
    obtain ⟨rfl, huv⟩ := ihc hc' hrest
    exact ⟨rfl, huv⟩

/-- a text with a word in front -/
def Led (text : List Char) : Prop := ∃ w rest, Word w ∧ text = w ++ rest

namespace Led

theorem of_neg {text : List Char} (h : Led (symbolNeg :: text)) : Led text := by
  obtain ⟨w, rest, hw, he⟩ := h
  obtain ⟨tail, rfl, ht⟩ := hw.exists_cons he
  exact ⟨tail, rest, hw.of_neg, ht⟩

theorem of_imp {text : List Char} (h : Led (symbolImp :: text)) : ∃ a rest, Word a ∧ text = a ++ rest ∧ Led rest := by
  obtain ⟨w, rest, hw, he⟩ := h
  obtain ⟨tail, rfl, rfl⟩ := hw.exists_cons he
  obtain ⟨a, c, ha, hc, rfl⟩ := hw.of_imp
  exact ⟨a, c ++ rest, ha, List.append_assoc .., c, rest, hc, rfl⟩

/-- behind digits in front there is another digit or the dot -/
theorem of_digits {ds text : List Char} {c : Char} (hds : ∀ d ∈ ds, d.isDigit = true) (hne : ds ≠ [])
    (h : Led (ds ++ c :: text)) : c.isDigit = true ∨ c = symbolEnd := by
  obtain ⟨w, rest, hw, he⟩ := h
  obtain ⟨d, ds, rfl⟩ := List.exists_cons_of_ne_nil hne
  obtain ⟨tail, rfl, -⟩ := hw.exists_cons he
  obtain ⟨n, hn⟩ := hw.of_digit (hds d List.mem_cons_self)
  by_cases hc : c.isDigit = true
  · exact .inl hc
  · rw [hn, List.append_assoc] at he
    have hsplit := Text.append_cons_inj_of_digits hds (fun _ => Text.isDigit_of_mem_decimal)
      (by simpa using hc) (by decide) he
    exact .inr (List.head_eq_of_cons_eq hsplit.2)

end Led

/-! ## Words that are not finished -/

/-- some word begins with the text -/
def Begins (text : List Char) : Prop := ∃ rest, Word (text ++ rest)

/-- the text is a strict prefix of a word -/
def Unfinished (text : List Char) : Prop := ∃ rest, rest ≠ [] ∧ Word (text ++ rest)

/-- a formula is expected behind the text: any word may come next -/
def Awaits (text : List Char) : Prop := ∀ w, Word w → Begins (text ++ w)

theorem Word.not_unfinished {w : List Char} (h : Word w) : ¬Unfinished w := by
  rintro ⟨rest, hne, hrest⟩
  have hsame := h.append_inj hrest (u := rest) (v := []) (by rw [List.append_nil])
  exact hne hsame.2

/-- where a formula is expected: at the beginning, as the operand of a negation, as the antecedent of an implication, or as
the consequent behind the antecedent; each of these inside of an operand again -/
inductive Opening : List Char → Prop where
  | start : Opening []
  | neg {x : List Char} (hx : Opening x) : Opening (symbolNeg :: x)
  | antecedent {x : List Char} (hx : Opening x) : Opening (symbolImp :: x)
  | consequent {a x : List Char} (ha : Word a) (hx : Opening x) : Opening (symbolImp :: (a ++ x))

namespace Opening

theorem append {x y : List Char} (hx : Opening x) (hy : Opening y) : Opening (x ++ y) := by
  induction hx with
  | start => exact hy
  | neg hx ih => exact neg ih
  | antecedent hx ih => exact antecedent ih
  | consequent ha hx ih =>
    rw [List.cons_append, List.append_assoc]
    exact consequent ha ih

theorem awaits {x : List Char} (hx : Opening x) : Awaits x := by
  intro w hw
  induction hx with
  | start => exact ⟨[], by rwa [List.nil_append, List.append_nil]⟩
  | neg hx ih =>
    obtain ⟨rest, hrest⟩ := ih
    exact ⟨rest, hrest.neg⟩
  | antecedent hx ih =>
    obtain ⟨rest, hrest⟩ := ih
    refine ⟨rest ++ [constSymbol true], ?_⟩
    rw [List.cons_append, List.cons_append, ← List.append_assoc]
    exact hrest.imp (.const true)
  | consequent ha hx ih =>
    obtain ⟨rest, hrest⟩ := ih
    refine ⟨rest, ?_⟩
    rw [List.cons_append, List.cons_append, List.append_assoc, List.append_assoc, ← List.append_assoc _ w]
    exact ha.imp hrest

/-- `T` stands only where a formula is expected -/
theorem of_word {x rest : List Char} (h : Word (x ++ symbolTrue :: rest)) : Opening x := by
  generalize hw : x ++ symbolTrue :: rest = w at h
  induction h generalizing x rest with
  | const b =>
    cases x with
    | nil => exact start
    | cons s x => simp at hw
  | @var n hn =>
    have hmem : symbolTrue ∈ Text.decimal n ++ [symbolEnd] := hw ▸ List.mem_append_right x List.mem_cons_self
    rcases List.mem_append.mp hmem with hd | he
    · exact absurd (Text.isDigit_of_mem_decimal hd) (by decide)
    · exact absurd (List.mem_singleton.mp he) (by decide)
  | neg h ih =>
    cases x with
    | nil => exact start
    | cons s x =>
      obtain ⟨rfl, hx⟩ := List.cons.inj hw
      exact neg (ih hx)
  | @imp a c ha hc iha ihc =>
    cases x with
    | nil => exact start
    | cons s x =>
      obtain ⟨rfl, hx⟩ := List.cons.inj hw
      -- the `T` is in the antecedent or in the consequent
      rcases List.append_eq_append_iff.mp hx with ⟨as, ha', hrest⟩ | ⟨bs, rfl, hrest⟩
      · rcases List.cons_eq_append_iff.mp hrest with ⟨rfl, hc'⟩ | ⟨tail, rfl, -⟩
        · rw [List.append_nil] at ha'
          subst ha'
          have hstart : Opening [] := ihc (x := []) hc'.symm
          simpa using consequent ha hstart
        · exact antecedent (iha ha'.symm)
      · exact consequent ha (ihc hrest.symm)

/-- past a text behind which a formula is expected, a word is still in front -/
theorem led {x text : List Char} (hx : Opening x) (h : Led (x ++ text)) : Led text := by
  induction hx with
  | start => exact h
  | neg hx ih => exact ih h.of_neg
  | antecedent hx ih =>
    obtain ⟨a, rest, ha, he, -⟩ := h.of_imp
    exact ih ⟨a, rest, ha, he⟩
  | @consequent a x ha hx ih =>
    rw [List.cons_append, List.append_assoc] at h
    obtain ⟨a', rest, ha', he, hrest⟩ := h.of_imp
    obtain ⟨-, rfl⟩ := ha.append_inj ha' he
    exact ih hrest

end Opening

theorem awaits_iff {x : List Char} : Awaits x ↔ Opening x := by
  refine ⟨?_, Opening.awaits⟩
  intro hx
  obtain ⟨rest, hrest⟩ := hx [symbolTrue] (.const true)
  rw [List.append_assoc, List.singleton_append] at hrest
  exact .of_word hrest

/-- what a word may begin with -/
def Leads (s : Char) : Prop :=
  s = symbolTrue ∨ s = symbolFalse ∨ s = symbolNeg ∨ s = symbolImp ∨ s.isDigit = true ∧ s ≠ '0'

instance (s : Char) : Decidable (Leads s) := by
  unfold Leads
  exact inferInstance

theorem Leads.exists_word {s : Char} (h : Leads s) : ∃ rest, Word (s :: rest) := by
  rcases h with rfl | rfl | rfl | rfl | ⟨hd, h0⟩
  · exact ⟨[], .const true⟩
  · exact ⟨[], .const false⟩
  · exact ⟨_, .neg (.const true)⟩
  · exact ⟨_, .imp (.const true) (.const true)⟩
  · refine ⟨[symbolEnd], ?_⟩
    have hvar := Word.var (Text.digitValue_pos hd h0)
    rwa [Text.decimal_digitValue hd] at hvar

theorem Leads.lt {s : Char} (h : Leads s) : s.toNat < 128 := by
  rcases h with rfl | rfl | rfl | rfl | ⟨hd, -⟩
  · decide
  · decide
  · decide
  · decide
  · exact Text.lt_of_isDigit hd

theorem Led.leads {s : Char} {text : List Char} (h : Led (s :: text)) : Leads s := by
  obtain ⟨w, rest, hw, he⟩ := h
  obtain ⟨tail, rfl, -⟩ := hw.exists_cons he
  rcases hw.cons_cases with ⟨b, rfl, -⟩ | ⟨rfl, -⟩ | ⟨rfl, -⟩ | ⟨hd, h0, -⟩
  · cases b
    · exact .inr (.inl rfl)
    · exact .inl rfl
  · exact .inr (.inr (.inl rfl))
  · exact .inr (.inr (.inr (.inl rfl)))
  · exact .inr (.inr (.inr (.inr ⟨hd, h0⟩)))

namespace Awaits

variable {x : List Char} (hx : Awaits x)

include hx

theorem led {text : List Char} (h : Begins (x ++ text)) : ∃ rest, Led (text ++ rest) := by
  obtain ⟨rest, hrest⟩ := h
  refine ⟨rest, (awaits_iff.mp hx).led ⟨_, [], hrest, ?_⟩⟩
  rw [List.append_nil, List.append_assoc]

theorem begins_of_word {text rest : List Char} (h : Word (text ++ rest)) : Begins (x ++ text) := by
  obtain ⟨more, hmore⟩ := hx (text ++ rest) h
  exact ⟨rest ++ more, by simpa using hmore⟩

theorem unfinished : Unfinished x := by
  obtain ⟨rest, hrest⟩ := hx [symbolTrue] (.const true)
  rw [List.append_assoc] at hrest
  exact ⟨_, List.cons_ne_nil _ _, hrest⟩

theorem begins_concat_iff (s : Char) : Begins (x ++ [s]) ↔ Leads s := by
  refine ⟨?_, ?_⟩
  · intro h
    obtain ⟨rest, hrest⟩ := hx.led h
    exact hrest.leads
  · intro h
    obtain ⟨rest, hrest⟩ := h.exists_word
    exact hx.begins_of_word hrest

/-- within a number no formula is expected -/
theorem eq_nil_of_digits {ds : List Char} (hds : ∀ d ∈ ds, d.isDigit = true) (h : Awaits (x ++ ds)) : ds = [] := by
  by_cases hne : ds = []
  · exact hne
  have htrue : Begins (x ++ (ds ++ [symbolTrue])) := by
    rw [← List.append_assoc]
    exact h _ (.const true)
  obtain ⟨rest, hrest⟩ := hx.led htrue
  rw [List.append_assoc] at hrest
  rcases hrest.of_digits hds hne with hd | he
  · exact absurd hd (by decide)
  · exact absurd he (by decide)

variable {n : Nat} (hn : 0 < n)

include hn

theorem unfinished_decimal : Unfinished (x ++ Text.decimal n) := by
  obtain ⟨rest, hrest⟩ := hx _ (.var hn)
  exact ⟨symbolEnd :: rest, List.cons_ne_nil _ _, by simpa using hrest⟩

theorem begins_decimal_concat_iff (s : Char) :
    Begins (x ++ Text.decimal n ++ [s]) ↔ s.isDigit = true ∨ s = symbolEnd := by
  refine ⟨?_, ?_⟩
  · intro h
    rw [List.append_assoc] at h
    obtain ⟨rest, hrest⟩ := hx.led h
    rw [List.append_assoc] at hrest
    exact hrest.of_digits (fun _ => Text.isDigit_of_mem_decimal) (Text.decimal_ne_nil n)
  · rw [List.append_assoc]
    rintro (hs | rfl)
    · rw [Text.decimal_append_digit hn hs]
      exact hx.begins_of_word (.var (by omega))
    · have hword : Word (Text.decimal n ++ [symbolEnd] ++ []) := by
        rw [List.append_nil]
        exact .var hn
      exact hx.begins_of_word hword

end Awaits

/-- where a number begins, and which it is, is told from the text up to its end -/
theorem Awaits.decimal_inj {x y : List Char} {n m : Nat} (hx : Awaits x) (hy : Awaits y)
    (h : x ++ Text.decimal n = y ++ Text.decimal m) : x = y ∧ n = m := by
  have hdigits : ∀ {n : Nat} {ds es : List Char}, Text.decimal n = ds ++ es → ∀ d ∈ ds, d.isDigit = true :=
    fun hds d hd => Text.isDigit_of_mem_decimal (hds ▸ List.mem_append_left _ hd)
  have hxy : x = y := by
    rcases List.append_eq_append_iff.mp h with ⟨ds, rfl, hn⟩ | ⟨ds, rfl, hm⟩
    · rw [hx.eq_nil_of_digits (hdigits hn) hy, List.append_nil]
    · rw [hy.eq_nil_of_digits (hdigits hm) hx, List.append_nil]
  subst hxy
  have hnm := congrArg (Text.digitsValueFrom 0) (List.append_cancel_left h)
  rw [Text.digitsValueFrom_decimal, Text.digitsValueFrom_decimal] at hnm
  exact ⟨rfl, hnm⟩

end ClauseFold
