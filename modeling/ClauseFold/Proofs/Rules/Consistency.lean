/-
Rule sets that calls have made are consistent: rules and canonical formulas never get in each other's way, in whatever
order they were added and whatever was refused on the way. The checks look both ways, a new pattern at the canonical
formulas that are there and a new canonical formula at the patterns that are there.

Results:
- `WellFormed.consistent`: what a well-formed set says of its rules and its canonical formulas;
- `toList_build_rule`: a rule on its own is accepted;
- `addRule_of_mem`: to add a rule again changes nothing;
- `build_consistent`: both for any calls, and a call that is refused changes nothing.
-/
import ClauseFold.Proofs.Rules.Building
import Mathlib.Logic.ExistsUnique

namespace ClauseFold.RuleSet

/-- what holds between the rules and the canonical formulas of a set -/
structure Consistent (s : RuleSet) : Prop where
  /-- no formula is a pattern and canonical -/
  apart : ∀ f ∈ s.patterns, f ∉ s.canonicalFormulas
  /-- what replaces a pattern is canonical, and no pattern -/
  replaced : ∀ r ∈ s.toList, r.canonical ∈ s.canonicalFormulas ∧ r.canonical ∉ s.patterns
  /-- a pattern is replaced by one formula only -/
  unique : ∀ p ∈ s.patterns, ∃! c, (⟨p, c⟩ : Rule) ∈ s.toList
  /-- and that is the one that is looked up -/
  canonicalOf : ∀ p c, s.canonicalOf p = some c ↔ (⟨p, c⟩ : Rule) ∈ s.toList
  /-- no pattern is replaced by itself -/
  proper : ∀ r ∈ s.toList, r.pattern ≠ r.canonical
  /-- what replaces a pattern has no variable that the pattern lacks -/
  bound : ∀ r ∈ s.toList, ∀ v ∈ r.canonical.vars, v ∈ r.pattern.vars
  /-- rules stand under the encodings of their patterns -/
  rule_key : ∀ (key : List Char) r, s.rules[key]? = some r → key = r.pattern.encode
  /-- canonical formulas stand under their encodings -/
  canonical_key : ∀ (key : List Char) f, s.canonical[key]? = some f → key = f.encode

variable {s : RuleSet}

theorem mem_rules_iff (hs : s.WellFormed) {f : Formula} : f.encode ∈ s.rules ↔ f ∈ s.patterns := by
  rw [mem_patterns hs.keyed, Std.ExtTreeMap.mem_iff_isSome_getElem?, Option.isSome_iff_exists]
  refine ⟨?_, ?_⟩
  · intro hrule
    obtain ⟨r, hr⟩ := hrule
    exact ⟨r, hr, Formula.encode_injective (hs.rule_key hr)⟩
  · intro hrule
    obtain ⟨r, hr, -⟩ := hrule
    exact ⟨r, hr⟩

theorem mem_canonical_iff (hs : s.WellFormed) {f : Formula} : f.encode ∈ s.canonical ↔ f ∈ s.canonicalFormulas := by
  rw [mem_canonicalFormulas hs.closed, Std.ExtTreeMap.mem_iff_isSome_getElem?, Option.isSome_iff_exists]
  refine ⟨?_, ?_⟩
  · intro hcanonical
    obtain ⟨g, hg⟩ := hcanonical
    rw [hg, Formula.encode_injective (hs.canonical_key hg)]
  · intro hf
    exact ⟨f, hf⟩

theorem getElem?_rules_iff (hs : s.WellFormed) {r : Rule} : s.rules[r.pattern.encode]? = some r ↔ r ∈ s.toList := by
  rw [mem_toList]
  refine ⟨?_, ?_⟩
  · intro hr
    exact ⟨_, hr⟩
  · intro hkey
    obtain ⟨key, hr⟩ := hkey
    rw [hs.rule_key hr, hr]

theorem mem_patterns_of_mem {r : Rule} (hr : r ∈ s.toList) : r.pattern ∈ s.patterns := List.mem_map_of_mem hr

theorem canonicalOf_eq_some_iff (hs : s.WellFormed) {p c : Formula} :
    s.canonicalOf p = some c ↔ (⟨p, c⟩ : Rule) ∈ s.toList := by
  unfold canonicalOf
  rw [Option.map_eq_some_iff, ← getElem?_rules_iff hs]
  refine ⟨?_, ?_⟩
  · intro hrule
    obtain ⟨r, hr, rfl⟩ := hrule
    rw [hr, ← Formula.encode_injective (hs.rule_key hr)]
  · intro hr
    exact ⟨⟨p, c⟩, hr, rfl⟩

theorem WellFormed.consistent (hs : s.WellFormed) : s.Consistent := by
  have hapart : ∀ f ∈ s.patterns, f ∉ s.canonicalFormulas := by
    intro f hf hcanonical
    exact hs.apart ((mem_rules_iff hs).mpr hf) ((mem_canonical_iff hs).mpr hcanonical)
  have hcanonical : ∀ r ∈ s.toList, r.canonical ∈ s.canonicalFormulas := by
    intro r hr
    exact (mem_canonicalFormulas hs.closed).mpr (hs.replaced ((getElem?_rules_iff hs).mpr hr))
  constructor
  case apart => exact hapart
  case replaced =>
    intro r hr
    exact ⟨hcanonical r hr, fun hpattern => hapart _ hpattern (hcanonical r hr)⟩
  case unique =>
    intro p hp
    obtain ⟨r, hr, rfl⟩ := List.mem_map.mp hp
    refine ⟨r.canonical, hr, ?_⟩
    intro c hc
    have hlookup := (canonicalOf_eq_some_iff hs).mpr hc
    rw [(canonicalOf_eq_some_iff hs).mpr hr] at hlookup
    exact (Option.some.inj hlookup).symm
  case canonicalOf => exact fun p c => canonicalOf_eq_some_iff hs
  case proper =>
    intro r hr heq
    exact hapart _ (mem_patterns_of_mem hr) (heq ▸ hcanonical r hr)
  case bound =>
    intro r hr v hv
    rw [Formula.mem_vars] at hv ⊢
    exact hs.bound ((getElem?_rules_iff hs).mpr hr) v hv
  case rule_key => exact fun key r hr => (hs.rule_key hr).symm
  case canonical_key => exact fun key f hf => (hs.canonical_key hf).symm

theorem unbound?_eq_none {r : Rule} (h : ∀ v ∈ r.canonical.vars, v ∈ r.pattern.vars) : unbound? r = none := by
  unfold unbound?
  rw [List.find?_eq_none]
  intro v hv
  simpa using h v hv

/-- a rule on its own is accepted if its sides differ and its canonical formula has no variable that the pattern lacks -/
theorem toList_build_rule {r : Rule} (hproper : r.pattern ≠ r.canonical)
    (hbound : ∀ v ∈ r.canonical.occurrences, v ∈ r.pattern.occurrences) : (build [.rule r]).toList = [r] := by
  have hvars : unbound? r = none := by
    apply unbound?_eq_none
    intro v hv
    rw [Formula.mem_vars] at hv ⊢
    exact hbound v hv
  have hadd : (addRule r).on empty =
      (.ok (), ⟨empty.rules.insert r.pattern.encode r, empty.canonical.insert r.canonical.encode r.canonical⟩) := by
    rw [addRule_on, if_neg hproper, hvars]
    simp [empty]
  have hbuild : build [.rule r] = ((addRule r).on empty).2 := rfl
  rw [hbuild, hadd]
  rfl

/-- to add a rule again changes nothing -/
theorem addRule_of_mem (hs : s.WellFormed) {r : Rule} (hr : r ∈ s.toList) : (addRule r).on s = (.ok (), s) := by
  have hconsistent := hs.consistent
  obtain ⟨hcanonical, hpattern⟩ := hconsistent.replaced r hr
  have hkey : r.pattern.encode ∉ s.canonical := by
    rw [mem_canonical_iff hs]
    exact hconsistent.apart _ (mem_patterns_of_mem hr)
  have hother : r.canonical.encode ∉ s.rules := by
    rw [mem_rules_iff hs]
    exact hpattern
  rw [addRule_on, if_neg (hconsistent.proper r hr), if_neg hkey, if_neg hother, unbound?_eq_none (hconsistent.bound r hr)]
  simp only [(getElem?_rules_iff hs).mpr hr, if_true]

/-- **Rule sets stay consistent.** After any calls, in any order and with any formulas, some of them refused, the set is
consistent. A further call that is refused leaves it as it was, and so does a rule that is added once more. -/
theorem build_consistent (additions : List Addition) :
    (build additions).Consistent ∧
    (∀ (a : Addition) e s', a.change.on (build additions) = (.error e, s') → s' = build additions) ∧
    ∀ r ∈ (build additions).toList, (addRule r).on (build additions) = (.ok (), build additions) := by
  have hs := wellFormed_build additions
  exact ⟨hs.consistent, fun a e s' => after_of_error, fun r hr => addRule_of_mem hs hr⟩

end ClauseFold.RuleSet
