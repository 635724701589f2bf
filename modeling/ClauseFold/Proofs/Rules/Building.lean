/-
Rule sets as they come about: by calls that declare a formula canonical or add a rule, in any order. A call that is refused
could leave what it had changed by then, but it changes nothing ahead of its last check. Rule files are read by such calls.

Results:
- `after_of_error`: a call that is refused changes nothing;
- `wellFormed_build`: in a set that was built, things are under their encodings, what replaces a pattern is canonical and
  has no variable of its own, and no canonical formula is a pattern;
- `ofLines_eq_build`: what a rule file holds was built from its lines.
-/
import Mathlib.Tactic.SplitIfs
import ClauseFold.Rules.File
import ClauseFold.Proofs.Ascending
import ClauseFold.Proofs.Outcome
import ClauseFold.Proofs.Formula.Decoding

namespace ClauseFold

namespace RuleSet

/-- a call that adds to a rule set -/
inductive Addition where
  | canonical (f : Formula)
  | rule (r : Rule)
deriving DecidableEq, Repr

/-- the call as a change of a set -/
def Addition.change : Addition → Change
  | canonical f => addCanonical f
  | rule r => addRule r

/-- the set that a call leaves, whether it is refused or not -/
def after (s : RuleSet) (a : Addition) : RuleSet := (a.change.on s).2

def build (additions : List Addition) : RuleSet := additions.foldl after empty

/-! ## What a call can do -/

namespace Change

theorem on_get_bind (k : RuleSet → Change) (s : RuleSet) : Change.on (get >>= k) s = (k s).on s := rfl

theorem on_throw_bind (e : RuleError) (k : Unit → Change) (s : RuleSet) :
    Change.on (throw e >>= k) s = (.error e, s) := rfl

theorem on_ite {p : Prop} [Decidable p] (c d : Change) (s : RuleSet) :
    Change.on (if p then c else d) s = if p then c.on s else d.on s := apply_ite (fun c : Change => c.on s) p c d

theorem apply_eq_ok {c : Change} {s s' : RuleSet} : c.apply s = .ok s' ↔ c.on s = (.ok (), s') := by
  unfold Change.apply
  rcases c.on s with ⟨e | ⟨⟩, s₁⟩ <;> simp

end Change

theorem addCanonical_on (f : Formula) (s : RuleSet) :
    (addCanonical f).on s =
      if f.encode ∈ s.rules then (.error (.canonicalPattern f), s)
      else (.ok (), { s with canonical := s.canonical.insert f.encode f }) := by
  rw [addCanonical, Change.on_get_bind, Change.on_ite, Change.on_throw_bind]
  rfl

theorem addRule_on (r : Rule) (s : RuleSet) :
    (addRule r).on s =
      if r.pattern = r.canonical then (.error (.trivial r.pattern), s)
      else if r.pattern.encode ∈ s.canonical then (.error (.canonicalPattern r.pattern), s)
      else if r.canonical.encode ∈ s.rules then (.error (.canonicalPattern r.canonical), s)
      else
        match unbound? r with
        | some v => (.error (.unboundVariable r.canonical v), s)
        | none =>
          match s.rules[r.pattern.encode]? with
          | some present => if present.canonical = r.canonical then (.ok (), s) else (.error (.conflict r.pattern), s)
          | none => (.ok (), ⟨s.rules.insert r.pattern.encode r, s.canonical.insert r.canonical.encode r.canonical⟩) := by
  rw [addRule, Change.on_ite, Change.on_throw_bind, Change.on_get_bind, Change.on_ite, Change.on_throw_bind,
    Change.on_get_bind, Change.on_ite, Change.on_throw_bind]
  cases hbound : unbound? r with
  | some v => rfl
  | none =>
    simp only [Change.on_get_bind]
    cases hpresent : s.rules[r.pattern.encode]? with
    | some present =>
      simp only [Change.on_ite]
      rfl
    | none => rfl

theorem addCanonical_cases {s s' : RuleSet} {f : Formula} (h : (addCanonical f).on s = (.ok (), s')) :
    f.encode ∉ s.rules ∧ s' = { s with canonical := s.canonical.insert f.encode f } := by
  rw [addCanonical_on] at h
  by_cases hf : f.encode ∈ s.rules
  · rw [if_pos hf] at h
    cases h
  · rw [if_neg hf] at h
    cases h
    exact ⟨hf, rfl⟩

theorem bound_of_unbound? {r : Rule} (h : unbound? r = none) :
    ∀ v ∈ r.canonical.occurrences, v ∈ r.pattern.occurrences := by
  intro v hv
  unfold unbound? at h
  have hall := List.find?_eq_none.mp h v (Formula.mem_vars.mpr hv)
  simpa using hall

theorem addRule_cases {s s' : RuleSet} {r : Rule} (h : (addRule r).on s = (.ok (), s')) :
    r.pattern ≠ r.canonical ∧ r.pattern.encode ∉ s.canonical ∧ r.canonical.encode ∉ s.rules ∧
      (∀ v ∈ r.canonical.occurrences, v ∈ r.pattern.occurrences) ∧
      ((∃ present, s.rules[r.pattern.encode]? = some present ∧ present.canonical = r.canonical ∧ s' = s) ∨
        (s.rules[r.pattern.encode]? = none ∧
          s' = ⟨s.rules.insert r.pattern.encode r, s.canonical.insert r.canonical.encode r.canonical⟩)) := by
  rw [addRule_on] at h
  split_ifs at h with htrivial hpattern hcanonical
  · cases h
  · cases h
  · cases h
  · refine ⟨htrivial, hpattern, hcanonical, ?_⟩
    cases hbound : unbound? r with
    | some v => rw [hbound] at h; cases h
    | none =>
      rw [hbound] at h
      refine ⟨bound_of_unbound? hbound, ?_⟩
      cases hpresent : s.rules[r.pattern.encode]? with
      | none =>
        rw [hpresent] at h
        cases h
        exact Or.inr ⟨rfl, rfl⟩
      | some present =>
        rw [hpresent] at h
        simp only at h
        split_ifs at h with hsame
        · cases h
          exact Or.inl ⟨present, rfl, hsame, rfl⟩
        · cases h

/-- a call that is refused changes nothing -/
theorem after_of_error {s s' : RuleSet} {a : Addition} {e : RuleError} (h : a.change.on s = (.error e, s')) : s' = s := by
  cases a with
  | canonical f =>
    rw [Addition.change, addCanonical_on] at h
    split_ifs at h
    · cases h
      rfl
    · cases h
  | rule r =>
    rw [Addition.change, addRule_on] at h
    split_ifs at h
    · cases h
      rfl
    · cases h
      rfl
    · cases h
      rfl
    · cases hbound : unbound? r with
      | some v =>
        rw [hbound] at h
        cases h
        rfl
      | none =>
        rw [hbound] at h
        cases hpresent : s.rules[r.pattern.encode]? with
        | none => rw [hpresent] at h; cases h
        | some present =>
          rw [hpresent] at h
          simp only at h
          split_ifs at h
          · cases h
          · cases h
            rfl

/-! ## Well-formed sets -/

/-- things are under their encodings, what replaces a pattern is canonical and has no variable of its own, and no
canonical formula is a pattern -/
structure WellFormed (s : RuleSet) : Prop where
  rule_key : ∀ {key : List Char} {r : Rule}, s.rules[key]? = some r → r.pattern.encode = key
  canonical_key : ∀ {key : List Char} {f : Formula}, s.canonical[key]? = some f → f.encode = key
  replaced : ∀ {key : List Char} {r : Rule}, s.rules[key]? = some r → s.canonical[r.canonical.encode]? = some r.canonical
  bound : ∀ {key : List Char} {r : Rule}, s.rules[key]? = some r →
    ∀ v ∈ r.canonical.occurrences, v ∈ r.pattern.occurrences
  apart : ∀ {key : List Char}, key ∈ s.rules → key ∉ s.canonical

theorem wellFormed_empty : empty.WellFormed := by
  constructor <;> simp [empty]

theorem getElem?_insert_cases {β : Type} {m : ByEncoding β} {k k' : List Char} {b b' : β}
    (h : (m.insert k b)[k']? = some b') : (k' = k ∧ b' = b) ∨ m[k']? = some b' := by
  rw [Std.ExtTreeMap.getElem?_insert] at h
  by_cases hk : compare k k' = .eq
  · rw [if_pos hk] at h
    cases h
    exact Or.inl ⟨(Std.LawfulEqOrd.eq_of_compare hk).symm, rfl⟩
  · rw [if_neg hk] at h
    exact Or.inr h

/-- a formula that is put under its encoding takes no other formula away -/
theorem getElem?_insert_canonical {m : ByEncoding Formula} {f g : Formula} (hg : m[g.encode]? = some g) :
    (m.insert f.encode f)[g.encode]? = some g := by
  rw [Std.ExtTreeMap.getElem?_insert]
  by_cases hk : compare f.encode g.encode = .eq
  · rw [if_pos hk, Formula.encode_injective (Std.LawfulEqOrd.eq_of_compare hk)]
  · rw [if_neg hk, hg]

theorem mem_insert_cases {β : Type} {m : ByEncoding β} {k k' : List Char} {b : β} (h : k' ∈ m.insert k b) :
    k' = k ∨ k' ∈ m := by
  rcases Std.ExtTreeMap.mem_insert.mp h with hk | hk
  · exact Or.inl (Std.LawfulEqOrd.eq_of_compare hk).symm
  · exact Or.inr hk

theorem WellFormed.addCanonical {s s' : RuleSet} (hs : s.WellFormed) {f : Formula} (h : (addCanonical f).on s = (.ok (), s')) :
    s'.WellFormed := by
  obtain ⟨hf, rfl⟩ := addCanonical_cases h
  refine ⟨hs.rule_key, ?_, fun hr => getElem?_insert_canonical (hs.replaced hr), hs.bound, ?_⟩
  · intro key g hg
    rcases getElem?_insert_cases hg with ⟨rfl, rfl⟩ | hg
    · rfl
    · exact hs.canonical_key hg
  · intro key hkey hmem
    rcases mem_insert_cases hmem with rfl | hmem
    · exact hf hkey
    · exact hs.apart hkey hmem

theorem WellFormed.addRule {s s' : RuleSet} (hs : s.WellFormed) {r : Rule} (h : (RuleSet.addRule r).on s = (.ok (), s')) :
    s'.WellFormed := by
  obtain ⟨htrivial, hpattern, hcanonical, hbound, ⟨present, -, -, rfl⟩ | ⟨hnew, rfl⟩⟩ := addRule_cases h
  · exact hs
  · constructor
    · intro key r' hr
      rcases getElem?_insert_cases hr with ⟨rfl, rfl⟩ | hr
      · rfl
      · exact hs.rule_key hr
    · intro key f hf
      rcases getElem?_insert_cases hf with ⟨rfl, rfl⟩ | hf
      · rfl
      · exact hs.canonical_key hf
    · intro key r' hr
      rcases getElem?_insert_cases hr with ⟨rfl, rfl⟩ | hr
      · exact Std.ExtTreeMap.getElem?_insert_self
      · exact getElem?_insert_canonical (hs.replaced hr)
    · intro key r' hr
      rcases getElem?_insert_cases hr with ⟨rfl, rfl⟩ | hr
      · exact hbound
      · exact hs.bound hr
    · intro key hkey hmem
      rcases mem_insert_cases hkey with rfl | hkey <;> rcases mem_insert_cases hmem with heq | hmem
      · exact htrivial (Formula.encode_injective heq)
      · exact hpattern hmem
      · exact hcanonical (heq ▸ hkey)
      · exact hs.apart hkey hmem

theorem WellFormed.after {s : RuleSet} (hs : s.WellFormed) (a : Addition) : (s.after a).WellFormed := by
  unfold RuleSet.after
  rcases h : a.change.on s with ⟨e | ⟨⟩, s'⟩
  · rw [after_of_error h]
    exact hs
  · cases a with
    | canonical f => exact hs.addCanonical h
    | rule r => exact hs.addRule h

theorem wellFormed_build (additions : List Addition) : (build additions).WellFormed := by
  unfold build
  suffices ∀ s : RuleSet, s.WellFormed → (additions.foldl RuleSet.after s).WellFormed from this empty wellFormed_empty
  induction additions with
  | nil =>
    intro s hs
    exact hs
  | cons a additions ih =>
    intro s hs
    exact ih _ (hs.after a)

/-! ## Rules and canonical formulas -/

theorem mem_toList {s : RuleSet} {r : Rule} : r ∈ s.toList ↔ ∃ key : List Char, s.rules[key]? = some r := by
  unfold toList
  rw [values_eq_toList, List.mem_map]
  refine ⟨?_, ?_⟩
  · intro hvalue
    rcases hvalue with ⟨⟨key, r'⟩, hmem, rfl⟩
    exact ⟨key, Std.ExtTreeMap.mem_toList_iff_getElem?_eq_some.mp hmem⟩
  · intro hkey
    rcases hkey with ⟨key, hr⟩
    exact ⟨(key, r), Std.ExtTreeMap.mem_toList_iff_getElem?_eq_some.mpr hr, rfl⟩

/-- each rule stands under the encoding of its pattern -/
def Keyed (s : RuleSet) : Prop := ∀ {key : List Char} {r : Rule}, s.rules[key]? = some r → r.pattern.encode = key

theorem WellFormed.keyed {s : RuleSet} (hs : s.WellFormed) : s.Keyed := hs.rule_key

theorem mem_patterns {s : RuleSet} (hs : s.Keyed) {p : Formula} :
    p ∈ s.patterns ↔ ∃ r, s.rules[p.encode]? = some r ∧ r.pattern = p := by
  unfold patterns
  rw [List.mem_map]
  refine ⟨?_, ?_⟩
  · intro hmem
    rcases hmem with ⟨r, hr, rfl⟩
    obtain ⟨key, hkey⟩ := mem_toList.mp hr
    exact ⟨r, by rw [hs hkey, hkey], rfl⟩
  · intro hrule
    rcases hrule with ⟨r, hr, hp⟩
    exact ⟨r, mem_toList.mpr ⟨_, hr⟩, hp⟩

/-- things are under their encodings, and what replaces a pattern is canonical; rules that are only read need no more -/
structure Closed (s : RuleSet) : Prop where
  rule_key : ∀ {key : List Char} {r : Rule}, s.rules[key]? = some r → r.pattern.encode = key
  canonical_key : ∀ {key : List Char} {f : Formula}, s.canonical[key]? = some f → f.encode = key
  replaced : ∀ {key : List Char} {r : Rule}, s.rules[key]? = some r → s.canonical[r.canonical.encode]? = some r.canonical

theorem WellFormed.closed {s : RuleSet} (hs : s.WellFormed) : s.Closed := ⟨hs.rule_key, hs.canonical_key, hs.replaced⟩

theorem Closed.keyed {s : RuleSet} (hs : s.Closed) : s.Keyed := hs.rule_key

theorem mem_canonicalFormulas {s : RuleSet} (hs : s.Closed) {f : Formula} :
    f ∈ s.canonicalFormulas ↔ s.canonical[f.encode]? = some f := by
  unfold canonicalFormulas
  rw [values_eq_toList, List.mem_map]
  refine ⟨?_, ?_⟩
  · intro h
    rcases h with ⟨⟨key, g⟩, hmem, rfl⟩
    have hg := Std.ExtTreeMap.mem_toList_iff_getElem?_eq_some.mp hmem
    rw [hs.canonical_key hg, hg]
  · intro hf
    exact ⟨(f.encode, f), Std.ExtTreeMap.mem_toList_iff_getElem?_eq_some.mpr hf, rfl⟩

end RuleSet

/-! ## Rule files -/

namespace RuleFile

theorem addEntry_cases {number : Nat} {s s' : RuleSet} {entry : Entry} (h : addEntry number s entry = .ok s') :
    s' = s ∨ ∃ a, s' = s.after a := by
  have hafter : ∀ {a : RuleSet.Addition}, a.change.apply s = .ok s' → s' = s.after a := by
    intro a hadd
    rw [RuleSet.after, RuleSet.Change.apply_eq_ok.mp hadd]
  cases entry with
  | nothing => cases h; exact Or.inl rfl
  | tooMany => cases h
  | canonical c =>
    obtain ⟨f, -, hadd⟩ := bind_eq_ok.mp h
    exact Or.inr ⟨.canonical f, hafter (mapError_eq_ok.mp hadd)⟩
  | rule p c =>
    obtain ⟨pattern, -, h⟩ := bind_eq_ok.mp h
    obtain ⟨canonical, -, hadd⟩ := bind_eq_ok.mp h
    exact Or.inr ⟨.rule ⟨pattern, canonical⟩, hafter (mapError_eq_ok.mp hadd)⟩

theorem readLine_cases {number : Nat} {s s' : RuleSet} {line : Text.Line} (h : readLine number s line = .ok s') :
    s' = s ∨ ∃ a, s' = s.after a := by
  cases line with
  | error e => cases e <;> cases h
  | ok text => exact addEntry_cases h

theorem readFrom_eq_foldl {number : Nat} {s s' : RuleSet} {lines : List Text.Line}
    (h : readFrom number s lines = .ok s') : ∃ additions : List RuleSet.Addition, s' = additions.foldl RuleSet.after s := by
  induction lines generalizing number s with
  | nil => cases h; exact ⟨[], rfl⟩
  | cons line lines ih =>
    obtain ⟨s₁, hline, hrest⟩ := bind_eq_ok.mp h
    obtain ⟨additions, hs'⟩ := ih hrest
    rcases readLine_cases hline with rfl | ⟨a, rfl⟩
    · exact ⟨additions, hs'⟩
    · exact ⟨a :: additions, hs'⟩

end RuleFile

/-- what a rule file holds was built -/
theorem RuleSet.ofLines_eq_build {lines : List Text.Line} {s : RuleSet} (h : ofLines lines = .ok s) :
    ∃ additions, s = build additions := RuleFile.readFrom_eq_foldl h

end ClauseFold
