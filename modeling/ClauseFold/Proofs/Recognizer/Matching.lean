/-
What the instance search makes of the encoding of a pattern. Going along the symbols of a formula one after the other is
matching the formula against the subformula that is next, by recursion on both.

Results:
- `matches_of_match?`: the ways in which a pattern matches;
- `follow_encode`: along the encoding of a pattern a search matches the pattern;
- `substitute_of_match?`: what is bound in a match makes the pattern into the formula.
-/
import ClauseFold.Proofs.Formula.Decoding
import ClauseFold.Proofs.Recognizer.Search

namespace ClauseFold

namespace Bindings

/-- all that is bound stays bound as it is -/
def Extends (before after : Bindings) : Prop := ∀ (id : Nat) f, before.lookup id = some f → after.lookup id = some f

theorem Extends.refl (b : Bindings) : Extends b b := fun _ _ h => h

theorem Extends.trans {a b c : Bindings} (hab : Extends a b) (hbc : Extends b c) : Extends a c :=
  fun id f h => hbc id f (hab id f h)

theorem lookup_eq_find? (b : Bindings) (id : Nat) : b.lookup id = (b.find? fun e => e.1 = id).map Prod.snd := by
  induction b with
  | nil => rfl
  | cons e es ih =>
    rw [List.lookup_cons, List.find?_cons]
    by_cases h : e.1 = id
    · simp [h]
    · have hne : (id == e.1) = false := by simpa using Ne.symm h
      simp [h, hne, ih]

theorem lookup_append_self {b : Bindings} {id : Nat} (h : b.lookup id = none) (f : Formula) :
    (b ++ [(id, f)]).lookup id = some f := by
  rw [List.lookup_append, h]
  simp

theorem extends_append (b new : Bindings) : Extends b (b ++ new) := by
  intro id f h
  rw [List.lookup_append, h]
  rfl

end Bindings

namespace Formula

/-- matches a pattern against a formula and adds what it binds -/
def match? : Formula → Formula → Bindings → Option Bindings
  | const b, const b', bindings => if b = b' then some bindings else none
  | var x, f, bindings =>
    match bindings.lookup x.val with
    | some g => if g = f then some bindings else none
    | none => some (bindings ++ [(x.val, f)])
  | neg p, neg f, bindings => p.match? f bindings
  | imp p q, imp f g, bindings => (p.match? f bindings).bind fun b => q.match? g b
  | _, _, _ => none

/-- the ways in which a pattern matches a formula, with the bindings before and after -/
inductive Matches : Formula → Formula → Bindings → Bindings → Prop where
  | const (b : Bool) (bindings : Bindings) : Matches (const b) (const b) bindings bindings
  | again {x : VarId} {f : Formula} {bindings : Bindings} (bound : bindings.lookup x.val = some f) :
      Matches (var x) f bindings bindings
  | first {x : VarId} {f : Formula} {bindings : Bindings} (unbound : bindings.lookup x.val = none) :
      Matches (var x) f bindings (bindings ++ [(x.val, f)])
  | neg {p f : Formula} {before after : Bindings} (inner : Matches p f before after) :
      Matches (neg p) (neg f) before after
  | imp {p q f g : Formula} {before middle after : Bindings} (antecedent : Matches p f before middle)
      (consequent : Matches q g middle after) : Matches (imp p q) (imp f g) before after

/-- a match is made in one of these ways -/
theorem matches_of_match? {p f : Formula} {before after : Bindings} (h : p.match? f before = some after) :
    Matches p f before after := by
  induction p generalizing f before after with
  | const b =>
    cases f with
    | const b' =>
      rw [match?] at h
      split_ifs at h with hb
      cases h
      rw [hb]
      exact .const b' _
    | var _ => cases h
    | neg _ => cases h
    | imp _ _ => cases h
  | var x =>
    rw [match?] at h
    cases hx : before.lookup x.val with
    | some g =>
      rw [hx] at h
      simp only at h
      split_ifs at h with hg
      cases h
      exact .again (by rw [hx, hg])
    | none =>
      rw [hx] at h
      cases h
      exact .first hx
  | neg p ih =>
    cases f with
    | neg f => exact .neg (ih h)
    | const _ => cases h
    | var _ => cases h
    | imp _ _ => cases h
  | imp p q ihp ihq =>
    cases f with
    | imp f g =>
      rw [match?] at h
      obtain ⟨middle, hp, hq⟩ := Option.bind_eq_some_iff.mp h
      exact .imp (ihp hp) (ihq hq)
    | const _ => cases h
    | var _ => cases h
    | neg _ => cases h

/-! ## Soundness -/

theorem Matches.extends {p f : Formula} {before after : Bindings} (h : Matches p f before after) :
    Bindings.Extends before after := by
  induction h with
  | const _ _ => exact Bindings.Extends.refl _
  | again _ => exact Bindings.Extends.refl _
  | first _ => exact Bindings.extends_append _ _
  | neg _ ih => exact ih
  | imp _ _ ihp ihq => exact ihp.trans ihq

/-- with what a match binds, and whatever is bound further, the pattern makes the formula -/
theorem Matches.substitute_eq {p f : Formula} {before after later : Bindings} (h : Matches p f before after)
    (hlater : Bindings.Extends after later) : p.substitute later = f := by
  induction h with
  | const _ _ => rfl
  | again hx => rw [substitute, hlater _ _ hx]
  | first hx => rw [substitute, hlater _ _ (Bindings.lookup_append_self hx _)]
  | neg _ ih => rw [substitute, ih hlater]
  | imp _ hq ihp ihq => rw [substitute, ihp (hq.extends.trans hlater), ihq hlater]

theorem substitute_of_match? {p f : Formula} {bindings : Bindings} (h : p.match? f [] = some bindings) :
    p.substitute bindings = f := (matches_of_match? h).substitute_eq (Bindings.Extends.refl bindings)

end Formula

/-! ## Along an encoding -/

namespace InstanceSearch

theorem follow_digits {ds : List Char} (hds : ∀ d ∈ ds, d.isDigit = true) (path : List Char) (f : Formula)
    (rest : List Formula) (bindings : Bindings) :
    follow path ⟨f :: rest, bindings⟩ ds = some ⟨f :: rest, bindings⟩ := by
  induction ds generalizing path with
  | nil => rfl
  | cons d ds ih =>
    have hd : d.isDigit = true := hds d List.mem_cons_self
    have hadvance : advance path d ⟨f :: rest, bindings⟩ = some ⟨f :: rest, bindings⟩ := by
      simp only [advance, if_pos hd]
    rw [follow, hadvance, Option.bind_some, ih (fun e he => hds e (List.mem_cons_of_mem d he))]

/-- behind a key that does not end in a digit, the digits that are read back are those of the variable -/
theorem closedId_decimal {path : List Char} (hpath : ∀ c ∈ path.head?, ¬c.isDigit = true) (v : VarId) :
    closedId ((Text.decimal v.val).reverse ++ path) = some v.val := by
  have hdigits : ∀ d ∈ Text.decimal v.val, d.isDigit = true := by
    intro d hd
    exact Text.isDigit_of_mem_decimal hd
  have htake : ((Text.decimal v.val).reverse ++ path).takeWhile Char.isDigit = (Text.decimal v.val).reverse := by
    have hnone : path.takeWhile Char.isDigit = [] := by
      cases path with
      | nil => rfl
      | cons c cs => rw [List.takeWhile_cons, if_neg (hpath c rfl)]
    rw [List.takeWhile_append_of_pos (fun d hd => hdigits d (List.mem_reverse.mp hd)), hnone, List.append_nil]
  obtain ⟨c, cs, hcons, -⟩ := Text.decimal_eq_cons v.pos
  have hall : (Text.decimal v.val).all Char.isDigit = true := List.all_eq_true.mpr hdigits
  have hempty : (Text.decimal v.val).isEmpty = false := by rw [hcons]; rfl
  have hread : ¬((Text.decimal v.val).isEmpty || !(Text.decimal v.val).all Char.isDigit) = true := by
    rw [hall, hempty]
    exact Bool.false_ne_true
  unfold closedId Text.readDigits
  rw [htake, List.reverse_reverse, if_neg hread]
  simp only [Text.digitsValueFrom_decimal]
  exact if_pos v.lt

/-- a symbol that is neither a digit nor the dot depends on the subformula alone -/
theorem advance_connective {c : Char} (hdigit : ¬c.isDigit = true) (hend : c ≠ symbolEnd) (path : List Char)
    (f : Formula) (rest : List Formula) (bindings : Bindings) :
    advance path c ⟨f :: rest, bindings⟩ =
      match f with
      | .const b => if c = Formula.constSymbol b then some ⟨rest, bindings⟩ else none
      | .neg g => if c = symbolNeg then some ⟨g :: rest, bindings⟩ else none
      | .imp a b => if c = symbolImp then some ⟨a :: b :: rest, bindings⟩ else none
      | .var _ => none := by
  cases f <;> simp only [advance, if_neg hdigit, consume, if_neg hend]

/-- the dot that closes a variable binds it, or compares -/
theorem advance_end {path : List Char} (hpath : ∀ c ∈ path.head?, ¬c.isDigit = true) (x : VarId) (f : Formula)
    (rest : List Formula) (bindings : Bindings) :
    advance ((Text.decimal x.val).reverse ++ path) symbolEnd ⟨f :: rest, bindings⟩ =
      ((Formula.var x).match? f bindings).map fun b => ⟨rest, b⟩ := by
  have hdigit : ¬symbolEnd.isDigit = true := by decide
  simp only [advance, if_neg hdigit, consume, if_true, closedId_decimal hpath, Formula.match?,
    Bindings.lookup_eq_find?]
  cases bindings.find? fun e => e.1 = x.val with
  | none => rfl
  | some e =>
    simp only [Option.map_some]
    split_ifs <;> rfl

/-- what comes after an encoding does not come after a digit -/
theorem exists_last_encode (f : Formula) : ∃ front last, f.encode = front ++ [last] ∧ ¬last.isDigit = true := by
  induction f with
  | const b => exact ⟨[], Formula.constSymbol b, Formula.encode_const b, by cases b <;> decide⟩
  | var v => exact ⟨Text.decimal v.val, symbolEnd, by rw [Formula.encode_var]; rfl, by decide⟩
  | neg f ih =>
    obtain ⟨front, last, hfront, hlast⟩ := ih
    exact ⟨symbolNeg :: front, last, by rw [Formula.encode_neg, hfront]; rfl, hlast⟩
  | imp a c _ ihc =>
    obtain ⟨front, last, hfront, hlast⟩ := ihc
    exact ⟨symbolImp :: (a.encode ++ front), last, by rw [Formula.encode_imp, hfront]; simp, hlast⟩

/-- along the encoding of a pattern a search matches the pattern against the subformula that is next -/
theorem follow_encode (p f : Formula) {path : List Char} (hpath : ∀ c ∈ path.head?, ¬c.isDigit = true)
    (rest : List Formula) (bindings : Bindings) :
    follow path ⟨f :: rest, bindings⟩ p.encode = (p.match? f bindings).map fun b => ⟨rest, b⟩ := by
  induction p generalizing f path rest bindings with
  | const b =>
    have hdigit : ¬(Formula.constSymbol b).isDigit = true := by cases b <;> decide
    have hend : Formula.constSymbol b ≠ symbolEnd := by cases b <;> decide
    have hadvance := advance_connective hdigit hend path f rest bindings
    rw [Formula.encode_const, follow, hadvance]
    cases f with
    | const b' => cases b <;> cases b' <;> rfl
    | var v => rfl
    | neg g => cases b <;> rfl
    | imp g h => cases b <;> rfl
  | var x =>
    have hdigits : ∀ d ∈ Text.decimal x.val, d.isDigit = true := by
      intro d hd
      exact Text.isDigit_of_mem_decimal hd
    rw [Formula.encode_var, Formula.varSymbols, follow_append, follow_digits hdigits, Option.bind_some, follow,
      advance_end hpath]
    cases (Formula.var x).match? f bindings <;> rfl
  | neg p ih =>
    have hadvance := advance_connective (c := symbolNeg) (by decide) (by decide) path f rest bindings
    have hnext : ∀ c ∈ (symbolNeg :: path).head?, ¬c.isDigit = true := by
      intro c hc
      cases hc
      decide
    rw [Formula.encode_neg, follow, hadvance]
    cases f with
    | neg g => exact ih g hnext rest bindings
    | const b => cases b <;> rfl
    | var v => rfl
    | imp g h => rfl
  | imp p q ihp ihq =>
    have hadvance := advance_connective (c := symbolImp) (by decide) (by decide) path f rest bindings
    have hnext : ∀ c ∈ (symbolImp :: path).head?, ¬c.isDigit = true := by
      intro c hc
      cases hc
      decide
    obtain ⟨front, last, hfront, hlast⟩ := exists_last_encode p
    have hbetween : ∀ c ∈ (p.encode.reverse ++ symbolImp :: path).head?, ¬c.isDigit = true := by
      rw [hfront, List.reverse_append]
      intro c hc
      cases hc
      exact hlast
    rw [Formula.encode_imp, follow, hadvance]
    cases f with
    | imp g h =>
      show follow (symbolImp :: path) ⟨g :: h :: rest, bindings⟩ (p.encode ++ q.encode) = _
      rw [follow_append, ihp g hnext, Formula.match?]
      cases p.match? g bindings with
      | none => rfl
      | some b => exact ihq h hbetween rest b
    | const b => cases b <;> rfl
    | var v => rfl
    | neg g => rfl

/-- an entry that is stored under its encoding answers as its pattern matches -/
theorem answer_encode (f p : Formula) : answer f (p.encode, p) = (p.match? f []).map fun b => ⟨p, b⟩ := by
  have hstart : ∀ c ∈ ([] : List Char).head?, ¬c.isDigit = true := by
    intro c hc
    cases hc
  have hfollow := follow_encode p f hstart [] []
  unfold answer Position.initial
  rw [hfollow]
  cases p.match? f [] <;> rfl

end InstanceSearch

end ClauseFold
