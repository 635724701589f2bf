/-
The defects of a text that is no encoding, and which of them a reader reports. `Defect before after e` says what is wrong
where a text goes on from `before` to `after`, by the words of the linear form alone; `FirstDefect` takes the defect that is
met first from the left. A reader knows of what it has gone past that a formula is expected behind it, that it is a number so
far, or that it is a whole formula, and each of these leaves room for one defect only (`Awaits.defect_cons_iff`,
`Awaits.defect_decimal_cons_iff`, `defect_encode_iff`).

Main statements:
- `Formula.reports`: wherever a reader goes on, it reports the first defect from there;
- `decode_error_iff_firstDefect`: a text is read unless it has a defect, and the first one is reported, where it is.
-/
import ClauseFold.Proofs.Formula.Grammar

namespace ClauseFold

open Text (utf8)

/-- what is wrong with a text where it goes on from `before` to `after` -/
inductive Defect : List Char → List Char → DecodeError → Prop where
  /-- the text goes on behind a whole encoding -/
  | trailing (f : Formula) {after : List Char} (h : after ≠ []) :
      Defect f.encode after (.trailingSymbols (utf8 f.encode).length)
  /-- a number begins with zero -/
  | zero {before after : List Char} (h : Awaits before) : Defect before ('0' :: after) (.number (utf8 before).length)
  /-- a number that is closed here is too large; the place reported is where it began -/
  | range {before after : List Char} {n : Nat} (h : Awaits before) (hn : Text.idBound ≤ n) :
      Defect (before ++ Text.decimal n) (symbolEnd :: after) (.number (utf8 before).length)
  /-- no word goes on with the next symbol, and it is not a zero that begins a number -/
  | symbol {before after : List Char} {s : Char} (h : Unfinished before) (hs : ¬Begins (before ++ [s]))
      (h0 : ¬(Awaits before ∧ s = '0')) : Defect before (s :: after) (.unexpectedSymbol (utf8 before).length s)
  /-- the text ends before a word does -/
  | finish {before : List Char} (h : Unfinished before) : Defect before [] .unexpectedEnd

/-- the defect that is met first in `after`, read on behind `before` -/
def FirstDefect (before after : List Char) (e : DecodeError) : Prop :=
  ∃ past ahead, after = past ++ ahead ∧ Defect (before ++ past) ahead e ∧
    ∀ past' ahead' e', after = past' ++ ahead' → Defect (before ++ past') ahead' e' → past.length ≤ past'.length

/-! ## What can be wrong at one place -/

/-- where a word is not finished yet, nothing can be wrong but these -/
theorem Defect.cases_of_unfinished {before after : List Char} {e : DecodeError} (hbefore : Unfinished before)
    (h : Defect before after e) :
    (after = [] ∧ e = .unexpectedEnd) ∨
    (∃ rest, after = '0' :: rest ∧ Awaits before ∧ e = .number (utf8 before).length) ∨
    (∃ rest x n, after = symbolEnd :: rest ∧ before = x ++ Text.decimal n ∧ Awaits x ∧ Text.idBound ≤ n ∧
      e = .number (utf8 x).length) ∨
    ∃ s rest, after = s :: rest ∧ ¬Begins (before ++ [s]) ∧ ¬(Awaits before ∧ s = '0') ∧
      e = .unexpectedSymbol (utf8 before).length s := by
  cases h with
  | trailing f hne => exact absurd hbefore (Word.encode f).not_unfinished
  | zero hb => exact .inr (.inl ⟨_, rfl, hb, rfl⟩)
  | range hb hn => exact .inr (.inr (.inl ⟨_, _, _, rfl, rfl, hb, hn, rfl⟩))
  | symbol _ hs h0 => exact .inr (.inr (.inr ⟨_, _, rfl, hs, h0, rfl⟩))
  | finish _ => exact .inl ⟨rfl, rfl⟩

theorem Unfinished.defect_nil_iff {before : List Char} (h : Unfinished before) (e : DecodeError) :
    Defect before [] e ↔ e = .unexpectedEnd := by
  refine ⟨?_, ?_⟩
  · intro hd
    rcases hd.cases_of_unfinished h with ⟨-, he⟩ | ⟨_, hs, -⟩ | ⟨_, _, _, hs, -⟩ | ⟨_, _, hs, -⟩
    · exact he
    · cases hs
    · cases hs
    · cases hs
  · rintro rfl
    exact .finish h

/-- where a formula is expected, only a symbol that begins none is wrong -/
theorem Awaits.defect_cons_iff {before : List Char} (h : Awaits before) (s : Char) (after : List Char) (e : DecodeError) :
    Defect before (s :: after) e ↔
      ¬Leads s ∧ e = if s = '0' then .number (utf8 before).length else .unexpectedSymbol (utf8 before).length s := by
  refine ⟨?_, ?_⟩
  · intro hd
    rcases hd.cases_of_unfinished h.unfinished with ⟨hs, -⟩ | ⟨_, hs, -, he⟩ | ⟨_, x, n, -, rfl, hx, hn, -⟩ |
      ⟨_, _, hs, hbegins, h0, he⟩
    · cases hs
    · cases hs
      exact ⟨by decide, he⟩
    · have hnil := hx.eq_nil_of_digits (fun _ => Text.isDigit_of_mem_decimal) h
      exact absurd hnil (Text.decimal_ne_nil n)
    · cases hs
      rw [h.begins_concat_iff] at hbegins
      exact ⟨hbegins, by rw [he, if_neg fun hs => h0 ⟨h, hs⟩]⟩
  · rintro ⟨hs, rfl⟩
    by_cases h0 : s = '0'
    · rw [if_pos h0, h0]
      exact .zero h
    · rw [if_neg h0]
      exact .symbol h.unfinished (by rwa [h.begins_concat_iff]) fun hzero => h0 hzero.2

/-- within a number, only a dot too late and a symbol that is neither a digit nor a dot are wrong -/
theorem Awaits.defect_decimal_cons_iff {before : List Char} (h : Awaits before) {n : Nat} (hn : 0 < n) (s : Char)
    (after : List Char) (e : DecodeError) :
    Defect (before ++ Text.decimal n) (s :: after) e ↔
      (s = symbolEnd ∧ Text.idBound ≤ n ∧ e = .number (utf8 before).length) ∨
      (s.isDigit = false ∧ s ≠ symbolEnd ∧ e = .unexpectedSymbol (utf8 (before ++ Text.decimal n)).length s) := by
  have hnot : ¬Awaits (before ++ Text.decimal n) := fun hawaits =>
    Text.decimal_ne_nil n (h.eq_nil_of_digits (fun _ => Text.isDigit_of_mem_decimal) hawaits)
  refine ⟨?_, ?_⟩
  · intro hd
    rcases hd.cases_of_unfinished (h.unfinished_decimal hn) with ⟨hs, -⟩ | ⟨_, -, hawaits, -⟩ |
      ⟨_, x, m, hs, hx, hawaits, hm, he⟩ | ⟨_, _, hs, hbegins, -, he⟩
    · cases hs
    · exact absurd hawaits hnot
    · cases hs
      obtain ⟨rfl, rfl⟩ := h.decimal_inj hawaits hx
      exact .inl ⟨rfl, hm, he⟩
    · cases hs
      rw [h.begins_decimal_concat_iff hn, not_or, Bool.not_eq_true] at hbegins
      exact .inr ⟨hbegins.1, hbegins.2, he⟩
  · rintro (⟨rfl, hm, rfl⟩ | ⟨hdigit, hend, rfl⟩)
    · exact .range h hm
    · refine .symbol (h.unfinished_decimal hn) ?_ fun hzero => hnot hzero.1
      rw [h.begins_decimal_concat_iff hn, not_or, Bool.not_eq_true]
      exact ⟨hdigit, hend⟩

/-- behind a whole encoding, only that the text goes on is wrong -/
theorem defect_encode_iff (f : Formula) (after : List Char) (e : DecodeError) :
    Defect f.encode after e ↔ after ≠ [] ∧ e = .trailingSymbols (utf8 f.encode).length := by
  refine ⟨?_, ?_⟩
  · intro h
    have hfinished : ¬Unfinished f.encode := (Word.encode f).not_unfinished
    generalize hbefore : f.encode = before at h hfinished
    cases h with
    | trailing g hne => exact ⟨hne, rfl⟩
    | zero h => exact absurd h.unfinished hfinished
    | range h hn => exact absurd (h.unfinished_decimal (Nat.lt_of_lt_of_le (by decide) hn)) hfinished
    | symbol h => exact absurd h hfinished
    | finish h => exact absurd h hfinished
  · rintro ⟨hne, rfl⟩
    exact .trailing f hne

/-! ## Going on -/

/-- with something wrong where a reader is, there is nothing to go on for -/
theorem firstDefect_iff_defect {before after : List Char} {e : DecodeError} (h : Defect before after e) (e' : DecodeError) :
    FirstDefect before after e' ↔ Defect before after e' := by
  refine ⟨?_, ?_⟩
  · rintro ⟨past, ahead, rfl, hd, hleast⟩
    have hlength := hleast [] _ e rfl (by rwa [List.append_nil])
    obtain rfl := List.eq_nil_of_length_eq_zero (Nat.le_zero.mp hlength)
    rwa [List.append_nil] at hd
  · intro hd
    exact ⟨[], after, rfl, by rwa [List.append_nil], fun _ _ _ _ _ => Nat.zero_le _⟩

theorem firstDefect_nil_iff (before : List Char) (e : DecodeError) : FirstDefect before [] e ↔ Defect before [] e := by
  refine ⟨?_, ?_⟩
  · rintro ⟨past, ahead, hnil, hd, -⟩
    obtain ⟨rfl, rfl⟩ := List.append_eq_nil_iff.mp hnil.symm
    rwa [List.append_nil] at hd
  · intro hd
    exact (firstDefect_iff_defect hd e).mpr hd

/-- with nothing wrong where a reader is, it goes past the next symbol -/
theorem firstDefect_cons_iff {before after : List Char} {s : Char} (h : ∀ e, ¬Defect before (s :: after) e)
    (e : DecodeError) : FirstDefect before (s :: after) e ↔ FirstDefect (before ++ [s]) after e := by
  have hpast : ∀ {past ahead : List Char} {e : DecodeError}, s :: after = past ++ ahead →
      Defect (before ++ past) ahead e → ∃ past', past = s :: past' ∧ after = past' ++ ahead := by
    intro past ahead e hsplit hd
    rcases List.cons_eq_append_iff.mp hsplit with ⟨rfl, rfl⟩ | hcons
    · rw [List.append_nil] at hd
      exact absurd hd (h e)
    · exact hcons
  have hconcat : ∀ past, before ++ [s] ++ past = before ++ s :: past := by simp
  refine ⟨?_, ?_⟩
  · rintro ⟨past, ahead, hsplit, hd, hleast⟩
    obtain ⟨past, rfl, hafter⟩ := hpast hsplit hd
    refine ⟨past, ahead, hafter, by rwa [hconcat], ?_⟩
    intro past' ahead' e' hsplit' hd'
    rw [hconcat] at hd'
    exact Nat.le_of_succ_le_succ (hleast (s :: past') ahead' e' (by rw [hsplit']; rfl) hd')
  · rintro ⟨past, ahead, rfl, hd, hleast⟩
    rw [hconcat] at hd
    refine ⟨s :: past, ahead, rfl, hd, ?_⟩
    intro past' ahead' e' hsplit' hd'
    obtain ⟨past', rfl, hafter⟩ := hpast hsplit' hd'
    exact Nat.succ_le_succ (hleast past' ahead' e' hafter (by rwa [hconcat]))

/-! ## What a reader has gone past -/

/-- the connectives that wait, with the antecedents already read, are a text behind which a formula is expected -/
theorem Pending.awaits_symbols (pending : List Pending) : Awaits (Pending.symbols pending) := by
  have hopening : Opening (Pending.symbols pending) := by
    induction pending with
    | nil => exact .start
    | cons p rest ih =>
      cases p with
      | negation => exact ih.append (.neg .start)
      | antecedent => exact ih.append (.antecedent .start)
      | consequent a =>
        have hconsequent := Opening.consequent (Word.encode a) .start
        rw [List.append_nil] at hconsequent
        exact ih.append hconsequent
  exact hopening.awaits

/-- a number that is being read began at `place`, with a digit other than zero -/
def Expected.Since (place : Nat) : Expected → Prop
  | formula => True
  | digits start value => start = place ∧ 0 < value

theorem VarId.ofNat?_eq_none_iff {n : Nat} (hn : 0 < n) : ofNat? n = none ↔ Text.idBound ≤ n := by
  unfold ofNat?
  by_cases hlt : n < Text.idBound
  · rw [dif_pos ⟨hn, hlt⟩]
    simp [hlt]
  · rw [dif_neg fun h => hlt h.2]
    simp [Nat.le_of_not_lt hlt]

namespace Formula

/-- over `rest`, wherever it is, a reader reports the defect `e` exactly if it is the first -/
def Reports (rest : List Char) (e : DecodeError) : Prop :=
  ∀ pending expected, Expected.Since (utf8 (Pending.symbols pending)).length expected →
    (decodeFrom (utf8 (Pending.symbols pending ++ expected.symbols)).length pending expected rest = .error e ↔
      FirstDefect (Pending.symbols pending ++ expected.symbols) rest e)

section

variable {rest : List Char} {e : DecodeError}

theorem Reports.formula (h : Reports rest e) (pending : List Pending) :
    decodeFrom (utf8 (Pending.symbols pending)).length pending .formula rest = .error e ↔
      FirstDefect (Pending.symbols pending) rest e := by
  have hformula := h pending .formula trivial
  rwa [Expected.symbols, List.append_nil] at hformula

theorem Reports.digits (h : Reports rest e) (pending : List Pending) {value : Nat} (hvalue : 0 < value) :
    decodeFrom (utf8 (Pending.symbols pending ++ Text.decimal value)).length pending
        (.digits (utf8 (Pending.symbols pending)).length value) rest = .error e ↔
      FirstDefect (Pending.symbols pending ++ Text.decimal value) rest e :=
  h pending (.digits _ value) ⟨rfl, hvalue⟩

theorem Reports.resume (h : Reports rest e) (pending : List Pending) (f : Formula) :
    resume (utf8 (Pending.symbols pending ++ f.encode)).length pending f rest = .error e ↔
      FirstDefect (Pending.symbols pending ++ f.encode) rest e := by
  unfold Formula.resume
  cases hclose : Pending.close f pending with
  | inr waiting => rw [← Pending.symbols_of_close hclose]; exact h.formula waiting
  | inl g =>
    rw [← Pending.encode_of_close hclose]
    cases rest with
    | nil =>
      rw [firstDefect_nil_iff, defect_encode_iff]
      simp
    | cons c rest =>
      have hhere := (defect_encode_iff g (c :: rest) _).mpr ⟨List.cons_ne_nil _ _, rfl⟩
      rw [firstDefect_iff_defect hhere, defect_encode_iff]
      simp [eq_comm]

/-! ## One symbol -/

theorem reports_nil (e : DecodeError) : Reports [] e := by
  intro pending expected hsince
  have hawaits := Pending.awaits_symbols pending
  have hunfinished : Unfinished (Pending.symbols pending ++ expected.symbols) := by
    cases expected with
    | formula => rw [Expected.symbols, List.append_nil]; exact hawaits.unfinished
    | digits start value => exact hawaits.unfinished_decimal hsince.2
  rw [firstDefect_nil_iff, hunfinished.defect_nil_iff]
  cases expected <;> simp [decodeFrom, eq_comm]

/-- where a formula is expected a reader stops at a symbol that begins none -/
theorem decodeFrom_of_not_leads {s : Char} (hs : ¬Leads s) (position : Nat) (pending : List Pending) :
    decodeFrom position pending .formula (s :: rest) =
      .error (if s = '0' then .number position else .unexpectedSymbol position s) := by
  simp only [Leads, not_or, not_and] at hs
  obtain ⟨htrue, hfalse, hneg, himp, hdigit⟩ := hs
  rw [decodeFrom_formula_cons, if_neg (not_or.mpr ⟨htrue, hfalse⟩), if_neg hneg, if_neg himp]
  split_ifs with h0 hd
  · rfl
  · exact absurd h0 (hdigit hd)
  · rfl

/-- a symbol that begins a formula is the formula, a connective in front of it or the first digit of its number -/
theorem Reports.of_leads (h : Reports rest e) {s : Char} (hs : Leads s) (pending : List Pending) :
    decodeFrom (utf8 (Pending.symbols pending)).length pending .formula (s :: rest) = .error e ↔
      FirstDefect (Pending.symbols pending ++ [s]) rest e := by
  have hconst : ∀ b, Formula.resume (utf8 (Pending.symbols pending ++ [constSymbol b])).length pending (const b) rest =
      .error e ↔ FirstDefect (Pending.symbols pending ++ [constSymbol b]) rest e := by
    intro b
    rw [← encode_const]
    exact h.resume pending (const b)
  rw [decodeFrom_formula_cons, ← Text.length_utf8_concat _ hs.lt]
  rcases hs with rfl | rfl | rfl | rfl | ⟨hd, h0⟩
  · exact hconst true
  · exact hconst false
  · exact h.formula (.negation :: pending)
  · exact h.formula (.antecedent :: pending)
  · have hne : ∀ {t : Char}, t.isDigit = false → s ≠ t := by
      rintro t ht rfl
      rw [ht] at hd
      cases hd
    rw [if_neg (not_or.mpr ⟨hne (by decide), hne (by decide)⟩), if_neg (hne (by decide)), if_neg (hne (by decide)),
      if_neg h0, if_pos hd, ← Text.decimal_digitValue hd]
    exact h.digits pending (Text.digitValue_pos hd h0)

theorem Reports.formula_cons (h : Reports rest e) (s : Char) (pending : List Pending) :
    decodeFrom (utf8 (Pending.symbols pending)).length pending .formula (s :: rest) = .error e ↔
      FirstDefect (Pending.symbols pending) (s :: rest) e := by
  have hdefect := (Pending.awaits_symbols pending).defect_cons_iff s rest
  by_cases hs : Leads s
  · rw [firstDefect_cons_iff fun e hd => ((hdefect e).mp hd).1 hs]
    exact h.of_leads hs pending
  · rw [decodeFrom_of_not_leads hs, firstDefect_iff_defect ((hdefect _).mpr ⟨hs, rfl⟩), hdefect]
    simp [hs, eq_comm]

theorem Reports.digits_cons (h : Reports rest e) (s : Char) (pending : List Pending) {value : Nat} (hvalue : 0 < value) :
    decodeFrom (utf8 (Pending.symbols pending ++ Text.decimal value)).length pending
        (.digits (utf8 (Pending.symbols pending)).length value) (s :: rest) = .error e ↔
      FirstDefect (Pending.symbols pending ++ Text.decimal value) (s :: rest) e := by
  have hdefect := (Pending.awaits_symbols pending).defect_decimal_cons_iff hvalue s rest
  rw [decodeFrom_digits_cons]
  by_cases hd : s.isDigit = true
  · have hend : s ≠ symbolEnd := by
      rintro rfl
      cases hd
    have hgood : ∀ e, ¬Defect (Pending.symbols pending ++ Text.decimal value) (s :: rest) e := by
      intro e
      rw [hdefect]
      simp [hd, hend]
    rw [if_pos hd, firstDefect_cons_iff hgood, ← Text.length_utf8_concat _ (Text.lt_of_isDigit hd), List.append_assoc,
      Text.decimal_append_digit hvalue hd]
    exact h.digits pending (by omega)
  rw [if_neg hd]
  by_cases hend : s = symbolEnd
  · subst hend
    rw [if_pos rfl]
    cases hv : VarId.ofNat? value with
    | none =>
      have hrange := (VarId.ofNat?_eq_none_iff hvalue).mp hv
      rw [firstDefect_iff_defect ((hdefect _).mpr (.inl ⟨rfl, hrange, rfl⟩)), hdefect]
      refine ⟨?_, ?_⟩
      · rintro ⟨⟩
        exact .inl ⟨rfl, hrange, rfl⟩
      · rintro (⟨-, -, rfl⟩ | ⟨-, hne, -⟩)
        · rfl
        · exact absurd rfl hne
    | some v =>
      have hval := VarId.val_of_ofNat? hv
      have hgood : ∀ e, ¬Defect (Pending.symbols pending ++ Text.decimal value) (symbolEnd :: rest) e := by
        intro e hd
        rcases (hdefect e).mp hd with ⟨-, hrange, -⟩ | ⟨-, hne, -⟩
        · exact absurd (hval ▸ v.lt) (Nat.not_lt_of_le hrange)
        · exact hne rfl
      rw [firstDefect_cons_iff hgood, ← Text.length_utf8_concat _ (c := symbolEnd) (by decide), List.append_assoc, ← hval,
        ← varSymbols, ← encode_var]
      exact h.resume pending (var v)
  · rw [if_neg hend, firstDefect_iff_defect ((hdefect _).mpr (.inr ⟨by simpa using hd, hend, rfl⟩)), hdefect]
    simp [hd, hend, eq_comm]

end

/-! ## All of a text -/

/-- **A reader reports the first defect from where it is on.** -/
theorem reports (rest : List Char) (e : DecodeError) : Reports rest e := by
  induction rest with
  | nil => exact reports_nil e
  | cons s rest ih =>
    intro pending expected hsince
    cases expected with
    | formula =>
      rw [Expected.symbols, List.append_nil]
      exact ih.formula_cons s pending
    | digits start value =>
      obtain ⟨rfl, hvalue⟩ := hsince
      exact ih.digits_cons s pending hvalue

end Formula

/-- the place that an error names -/
def DecodeError.place? : DecodeError → Option Nat
  | unexpectedEnd => none
  | unexpectedSymbol position _ => some position
  | trailingSymbols position => some position
  | number position => some position

/-- the place of a defect is where a symbol begins, or the end -/
theorem Defect.exists_place {before after : List Char} {e : DecodeError} (h : Defect before after e) {p : Nat}
    (hp : e.place? = some p) : ∃ x y, before ++ after = x ++ y ∧ (utf8 x).length = p := by
  cases h with
  | trailing f hne => cases hp; exact ⟨_, _, rfl, rfl⟩
  | zero hb => cases hp; exact ⟨_, _, rfl, rfl⟩
  | range hb hn => cases hp; exact ⟨_, _, List.append_assoc .., rfl⟩
  | symbol hb hs h0 => cases hp; exact ⟨_, _, rfl, rfl⟩
  | finish hb => cases hp

/-- a symbol that is reported stands in the text at its place -/
theorem Defect.exists_symbol {before after : List Char} {p : Nat} {s : Char}
    (h : Defect before after (.unexpectedSymbol p s)) : ∃ rest, after = s :: rest ∧ (utf8 before).length = p := by
  cases h with
  | symbol hb hs h0 => exact ⟨_, rfl, rfl⟩

namespace Formula

/-- **What is reported is the first defect.** A text is refused exactly if it is no encoding, and then for the defect that is
met first from the left. The place reported is the byte at which a symbol of the text begins, or the end of the text; and a
symbol that is reported is the one that begins there, so nothing else ever stands in for it. -/
theorem decode_error_iff_firstDefect (text : List Char) :
    ((∃ e, decode? text = .error e) ↔ ∀ f : Formula, f.encode ≠ text) ∧
    (∀ e, decode? text = .error e ↔ FirstDefect [] text e) ∧
    (∀ e p, decode? text = .error e → e.place? = some p →
      ∃ before after, text = before ++ after ∧ (utf8 before).length = p) ∧
    ∀ p s, decode? text = .error (.unexpectedSymbol p s) →
      ∃ before after, text = before ++ s :: after ∧ (utf8 before).length = p := by
  have hfirst : ∀ e, decode? text = .error e ↔ FirstDefect [] text e := by
    intro e
    rw [decode?_eq]
    exact (reports text e).formula []
  refine ⟨⟨?_, ?_⟩, hfirst, ?_, ?_⟩
  · rintro ⟨e, he⟩ f rfl
    rw [decode_encode] at he
    cases he
  · intro hno
    cases hread : decode? text with
    | error e => exact ⟨e, rfl⟩
    | ok f => exact absurd (encode_of_decode hread) (hno f)
  · intro e p he hp
    obtain ⟨before, after, rfl, hd, -⟩ := (hfirst e).mp he
    exact hd.exists_place hp
  · intro p s he
    obtain ⟨before, after, rfl, hd, -⟩ := (hfirst _).mp he
    obtain ⟨rest, rfl, hplace⟩ := hd.exists_symbol
    exact ⟨before, rest, rfl, hplace⟩

/-- `**4294967295.é0`: the letter behind the largest number comes first, the zero after it is a defect that is not met -/
theorem decode_error_at_letter :
    (decode? "**4294967295.é0".toList = .error (.unexpectedSymbol 13 'é') ∧
      (DecodeError.unexpectedSymbol 13 'é').place? = some 13) ∧
    FirstDefect [] "**4294967295.é0".toList (.unexpectedSymbol 13 'é') ∧
    (∃ before after, "**4294967295.é0".toList = before ++ after ∧ (utf8 before).length = 13) ∧
    ∃ before after, "**4294967295.é0".toList = before ++ 'é' :: after ∧ (utf8 before).length = 13 := by
  have hread : decode? "**4294967295.é0".toList = .error (.unexpectedSymbol 13 'é') := rfl
  obtain ⟨-, hfirst, hplace, hsymbol⟩ := decode_error_iff_firstDefect "**4294967295.é0".toList
  exact ⟨⟨hread, rfl⟩, (hfirst _).mp hread, hplace _ 13 hread rfl, hsymbol 13 'é' hread⟩

end Formula

end ClauseFold
