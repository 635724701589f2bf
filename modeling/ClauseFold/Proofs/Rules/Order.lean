/-
Rule sets do not depend on the order in which things are added to them. Each addition is checked against the set that the
earlier ones have left. All the same, whether all of some additions are accepted is a matter of which additions there are:
no pattern may be made canonical, no pattern may have two canonical formulas, and no canonical formula a variable of its
own. A pair of additions that get in each other's way is caught by whichever of the two comes second.

Results:
- `ConsistsOf.apply`, `ConsistsOf.exists_apply`: one addition more is accepted if and only if it gets along with those
  before it;
- `addAll_eq_ok_iff`: additions are all accepted if and only if they are compatible, and the set then consists of them;
- `addAll_congr`: additions in another order, or with repetitions, make the same set.
-/
import ClauseFold.Proofs.Rules.Consistency

namespace ClauseFold.RuleSet

/-- adds things one after the other, up to the first that is refused -/
def addAll (additions : List Addition) (s : RuleSet) : Except RuleError RuleSet :=
  additions.foldlM (fun s a => a.change.apply s) s

/-- some addition makes a formula canonical, by itself or as what replaces a pattern -/
def MakesCanonical (additions : List Addition) (f : Formula) : Prop :=
  .canonical f ∈ additions ∨ ∃ p, .rule ⟨p, f⟩ ∈ additions

/-- additions that get along with each other -/
structure Compatible (additions : List Addition) : Prop where
  /-- no pattern is made canonical -/
  apart : ∀ {r : Rule}, .rule r ∈ additions → ¬MakesCanonical additions r.pattern
  /-- a pattern is replaced by one formula only -/
  unique : ∀ {p c d : Formula}, .rule ⟨p, c⟩ ∈ additions → .rule ⟨p, d⟩ ∈ additions → c = d
  /-- what replaces a pattern has no variable of its own -/
  bound : ∀ {r : Rule}, .rule r ∈ additions → ∀ v ∈ r.canonical.occurrences, v ∈ r.pattern.occurrences

/-- a set of what was added and of nothing else, all under its encoding -/
structure ConsistsOf (s : RuleSet) (additions : List Addition) : Prop where
  rules : ∀ (key : List Char) r, s.rules[key]? = some r ↔ .rule r ∈ additions ∧ r.pattern.encode = key
  canonical : ∀ (key : List Char) f, s.canonical[key]? = some f ↔ MakesCanonical additions f ∧ f.encode = key

/-! ## Which additions there are -/

section

variable {additions others : List Addition} {f : Formula}

theorem MakesCanonical.mono (h : MakesCanonical additions f) (hsub : ∀ a ∈ additions, a ∈ others) :
    MakesCanonical others f := by
  rcases h with hdeclared | ⟨p, hrule⟩
  · exact Or.inl (hsub _ hdeclared)
  · exact Or.inr ⟨p, hsub _ hrule⟩

theorem Compatible.mono (h : Compatible others) (hsub : ∀ a ∈ additions, a ∈ others) : Compatible additions := by
  refine ⟨?_, ?_, ?_⟩
  · intro r hr hcanonical
    exact h.apart (hsub _ hr) (hcanonical.mono hsub)
  · intro p c d hc hd
    exact h.unique (hsub _ hc) (hsub _ hd)
  · intro r hr
    exact h.bound (hsub _ hr)

theorem makesCanonical_congr (hsame : ∀ a, a ∈ additions ↔ a ∈ others) :
    MakesCanonical additions f ↔ MakesCanonical others f :=
  ⟨fun h => h.mono fun a => (hsame a).mp, fun h => h.mono fun a => (hsame a).mpr⟩

theorem compatible_congr (hsame : ∀ a, a ∈ additions ↔ a ∈ others) : Compatible additions ↔ Compatible others :=
  ⟨fun h => h.mono fun a => (hsame a).mpr, fun h => h.mono fun a => (hsame a).mp⟩

theorem consistsOf_congr (hsame : ∀ a, a ∈ additions ↔ a ∈ others) {s : RuleSet} :
    s.ConsistsOf additions ↔ s.ConsistsOf others := by
  have hcanonical := fun f => makesCanonical_congr (f := f) hsame
  refine ⟨?_, ?_⟩
  · intro h
    exact ⟨fun key r => by rw [h.rules, hsame], fun key f => by rw [h.canonical, hcanonical]⟩
  · intro h
    exact ⟨fun key r => by rw [h.rules, hsame], fun key f => by rw [h.canonical, hcanonical]⟩

theorem makesCanonical_concat_canonical {g : Formula} :
    MakesCanonical (additions ++ [.canonical g]) f ↔ MakesCanonical additions f ∨ f = g := by
  simp only [MakesCanonical, List.mem_append, List.mem_singleton, Addition.canonical.injEq, reduceCtorEq, or_false]
  grind

theorem makesCanonical_concat_rule {r : Rule} :
    MakesCanonical (additions ++ [.rule r]) f ↔ MakesCanonical additions f ∨ f = r.canonical := by
  simp only [MakesCanonical, List.mem_append, List.mem_singleton, Addition.rule.injEq, reduceCtorEq, or_false]
  refine ⟨?_, ?_⟩
  · intro h
    rcases h with hdeclared | ⟨p, hrule | rfl⟩
    · exact Or.inl (Or.inl hdeclared)
    · exact Or.inl (Or.inr ⟨p, hrule⟩)
    · exact Or.inr rfl
  · intro h
    rcases h with (hdeclared | ⟨p, hrule⟩) | rfl
    · exact Or.inl hdeclared
    · exact Or.inr ⟨p, Or.inl hrule⟩
    · exact Or.inr ⟨r.pattern, Or.inr rfl⟩

end

/-! ## One addition more -/

section

variable {s s' : RuleSet} {additions : List Addition}

theorem consistsOf_empty : empty.ConsistsOf [] := by
  constructor <;> simp [empty, MakesCanonical]

theorem compatible_nil : Compatible [] := by
  constructor <;> simp

/-- what two sets consist of tells them apart -/
theorem ConsistsOf.ext (h : s.ConsistsOf additions) (h' : s'.ConsistsOf additions) : s = s' := by
  rcases s with ⟨rules, canonical⟩
  rcases s' with ⟨rules', canonical'⟩
  have hrules : rules = rules' := by
    apply Std.ExtTreeMap.ext_getElem?
    intro key
    apply Option.ext
    intro r
    exact (h.rules key r).trans (h'.rules key r).symm
  have hcanonical : canonical = canonical' := by
    apply Std.ExtTreeMap.ext_getElem?
    intro key
    apply Option.ext
    intro f
    exact (h.canonical key f).trans (h'.canonical key f).symm
  rw [hrules, hcanonical]

theorem ConsistsOf.mem_rules (h : s.ConsistsOf additions) {p : Formula} :
    p.encode ∈ s.rules ↔ ∃ c, .rule ⟨p, c⟩ ∈ additions := by
  rw [Std.ExtTreeMap.mem_iff_isSome_getElem?, Option.isSome_iff_exists]
  refine ⟨?_, ?_⟩
  · intro hrule
    obtain ⟨r, hr⟩ := hrule
    obtain ⟨hmem, hkey⟩ := (h.rules _ _).mp hr
    rw [← Formula.encode_injective hkey]
    exact ⟨r.canonical, hmem⟩
  · intro hrule
    obtain ⟨c, hc⟩ := hrule
    exact ⟨⟨p, c⟩, (h.rules _ _).mpr ⟨hc, rfl⟩⟩

theorem ConsistsOf.mem_canonical (h : s.ConsistsOf additions) {f : Formula} :
    f.encode ∈ s.canonical ↔ MakesCanonical additions f := by
  rw [Std.ExtTreeMap.mem_iff_isSome_getElem?, Option.isSome_iff_exists]
  refine ⟨?_, ?_⟩
  · intro hcanonical
    obtain ⟨g, hg⟩ := hcanonical
    obtain ⟨hmakes, hkey⟩ := (h.canonical _ _).mp hg
    rw [← Formula.encode_injective hkey]
    exact hmakes
  · intro hmakes
    exact ⟨f, (h.canonical _ _).mpr ⟨hmakes, rfl⟩⟩

theorem getElem?_insert_iff {β : Type} {m : ByEncoding β} {P : β → Prop} (encode : β → List Char)
    (hm : ∀ (key : List Char) x, m[key]? = some x ↔ P x ∧ encode x = key) {b : β}
    (hb : ∀ x, P x → encode x = encode b → x = b) (key : List Char) (x : β) :
    (m.insert (encode b) b)[key]? = some x ↔ (P x ∨ x = b) ∧ encode x = key := by
  rw [Std.ExtTreeMap.getElem?_insert]
  by_cases hkey : compare (encode b) key = .eq
  · rw [if_pos hkey, Option.some.injEq, ← Std.LawfulEqOrd.eq_of_compare hkey]
    refine ⟨?_, ?_⟩
    · intro heq
      subst heq
      exact ⟨Or.inr rfl, rfl⟩
    · intro hx
      obtain ⟨hx | hx, henc⟩ := hx
      · exact (hb x hx henc).symm
      · exact hx.symm
  · rw [if_neg hkey, hm]
    refine ⟨?_, ?_⟩
    · intro hx
      exact ⟨Or.inl hx.1, hx.2⟩
    · intro hx
      obtain ⟨hx | rfl, henc⟩ := hx
      · exact ⟨hx, henc⟩
      · exact absurd (henc ▸ Std.ReflOrd.compare_self) hkey

/-- the canonical formulas with one more among them -/
theorem ConsistsOf.insert_canonical (h : s.ConsistsOf additions) (f : Formula) (key : List Char) (g : Formula) :
    (s.canonical.insert f.encode f)[key]? = some g ↔ (MakesCanonical additions g ∨ g = f) ∧ g.encode = key :=
  getElem?_insert_iff Formula.encode h.canonical (fun _ _ henc => Formula.encode_injective henc) key g

theorem accepted_canonical (h : s.ConsistsOf additions) (hc : Compatible additions) {f : Formula}
    (hs' : (addCanonical f).on s = (.ok (), s')) :
    Compatible (additions ++ [.canonical f]) ∧ s'.ConsistsOf (additions ++ [.canonical f]) := by
  obtain ⟨hf, rfl⟩ := addCanonical_cases hs'
  have hrule : ∀ {r : Rule}, .rule r ∈ additions ++ [.canonical f] ↔ .rule r ∈ additions := by simp
  refine ⟨⟨?_, ?_, ?_⟩, ?_, ?_⟩
  · intro r hr hcanonical
    rcases makesCanonical_concat_canonical.mp hcanonical with hmade | rfl
    · exact hc.apart (hrule.mp hr) hmade
    · exact hf (h.mem_rules.mpr ⟨r.canonical, hrule.mp hr⟩)
  · intro p c d hp hd
    exact hc.unique (hrule.mp hp) (hrule.mp hd)
  · intro r hr
    exact hc.bound (hrule.mp hr)
  · intro key r
    rw [hrule]
    exact h.rules key r
  · intro key g
    rw [makesCanonical_concat_canonical]
    exact h.insert_canonical f key g

theorem accepted_rule (h : s.ConsistsOf additions) (hc : Compatible additions) {r : Rule}
    (hs' : (addRule r).on s = (.ok (), s')) :
    Compatible (additions ++ [.rule r]) ∧ s'.ConsistsOf (additions ++ [.rule r]) := by
  obtain ⟨htrivial, hpattern, hcanonical, hbound, ⟨present, hpresent, hsame, rfl⟩ | ⟨hnew, rfl⟩⟩ := addRule_cases hs'
  · -- the rule is there already
    obtain ⟨hmem, hkey⟩ := (h.rules _ _).mp hpresent
    have hr : present = r := by
      rcases present with ⟨p, c⟩
      rcases r with ⟨p', c'⟩
      cases Formula.encode_injective hkey
      cases hsame
      rfl
    have hmembers : ∀ a, a ∈ additions ↔ a ∈ additions ++ [.rule r] := by
      intro a
      rw [List.mem_append, List.mem_singleton]
      refine ⟨Or.inl, ?_⟩
      intro ha
      rcases ha with ha | rfl
      · exact ha
      · exact hr ▸ hmem
    exact ⟨(compatible_congr hmembers).mp hc, (consistsOf_congr hmembers).mp h⟩
  · have hrule : ∀ {r' : Rule}, .rule r' ∈ additions ++ [.rule r] ↔ .rule r' ∈ additions ∨ r' = r := by simp
    have hfree : ∀ c, .rule ⟨r.pattern, c⟩ ∉ additions := by
      intro c hmem
      have hthere := (h.rules _ _).mpr ⟨hmem, rfl⟩
      rw [hnew] at hthere
      cases hthere
    refine ⟨⟨?_, ?_, ?_⟩, ?_, ?_⟩
    · intro r' hr' hmade
      rcases hrule.mp hr' with hold | rfl <;> rcases makesCanonical_concat_rule.mp hmade with hmade | heq
      · exact hc.apart hold hmade
      · exact hcanonical (h.mem_rules.mpr ⟨r'.canonical, heq ▸ hold⟩)
      · exact hpattern (h.mem_canonical.mpr hmade)
      · exact htrivial heq
    · intro p c d hpc hpd
      rcases hrule.mp hpc with hold | rfl <;> rcases hrule.mp hpd with hold' | heq
      · exact hc.unique hold hold'
      · subst heq
        exact absurd hold (hfree c)
      · exact absurd hold' (hfree d)
      · cases heq
        rfl
    · intro r' hr'
      rcases hrule.mp hr' with hold | rfl
      · exact hc.bound hold
      · exact hbound
    · intro key r'
      rw [hrule]
      refine getElem?_insert_iff (fun r : Rule => r.pattern.encode) h.rules ?_ key r'
      intro x hx henc
      have hx' := hfree x.canonical
      rw [← Formula.encode_injective henc] at hx'
      exact absurd hx hx'
    · intro key g
      rw [makesCanonical_concat_rule]
      exact h.insert_canonical r.canonical key g

/-- an addition that is accepted gets along with those before it -/
theorem ConsistsOf.apply (h : s.ConsistsOf additions) (hc : Compatible additions) {a : Addition}
    (hs' : a.change.apply s = .ok s') : Compatible (additions ++ [a]) ∧ s'.ConsistsOf (additions ++ [a]) := by
  cases a with
  | canonical f => exact accepted_canonical h hc (Change.apply_eq_ok.mp hs')
  | rule r => exact accepted_rule h hc (Change.apply_eq_ok.mp hs')

/-- an addition that gets along with those before it is accepted -/
theorem ConsistsOf.exists_apply (h : s.ConsistsOf additions) {a : Addition} (hc : Compatible (additions ++ [a])) :
    ∃ s', a.change.apply s = .ok s' := by
  have ha : a ∈ additions ++ [a] := by simp
  have hold : ∀ b ∈ additions, b ∈ additions ++ [a] := fun b hb => List.mem_append_left _ hb
  cases a with
  | canonical f =>
    have hf : f.encode ∉ s.rules := by
      intro hmem
      obtain ⟨c, hrule⟩ := h.mem_rules.mp hmem
      exact hc.apart (hold _ hrule) (Or.inl ha)
    have hon := addCanonical_on f s
    rw [if_neg hf] at hon
    exact ⟨_, Change.apply_eq_ok.mpr hon⟩
  | rule r =>
    have hmade : MakesCanonical (additions ++ [.rule r]) r.canonical := Or.inr ⟨r.pattern, ha⟩
    have htrivial : r.pattern ≠ r.canonical := by
      intro heq
      exact hc.apart ha (heq ▸ hmade)
    have hpattern : r.pattern.encode ∉ s.canonical := by
      intro hmem
      exact hc.apart ha ((h.mem_canonical.mp hmem).mono hold)
    have hcanonical : r.canonical.encode ∉ s.rules := by
      intro hmem
      obtain ⟨c, hrule⟩ := h.mem_rules.mp hmem
      exact hc.apart (hold _ hrule) hmade
    have hbound : unbound? r = none := by
      apply unbound?_eq_none
      intro v hv
      rw [Formula.mem_vars] at hv ⊢
      exact hc.bound ha v hv
    have hon := addRule_on r s
    rw [if_neg htrivial, if_neg hpattern, if_neg hcanonical, hbound] at hon
    cases hpresent : s.rules[r.pattern.encode]? with
    | none =>
      rw [hpresent] at hon
      exact ⟨_, Change.apply_eq_ok.mpr hon⟩
    | some present =>
      obtain ⟨hmem, hkey⟩ := (h.rules _ _).mp hpresent
      have hsame : present.canonical = r.canonical := by
        rcases present with ⟨p, c⟩
        cases Formula.encode_injective hkey
        exact hc.unique (hold _ hmem) ha
      simp only [hpresent, if_pos hsame] at hon
      exact ⟨_, Change.apply_eq_ok.mpr hon⟩

/-! ## All additions -/

theorem addAll_cons_eq_ok {a : Addition} {more : List Addition} :
    addAll (a :: more) s = .ok s' ↔ ∃ s₁, a.change.apply s = .ok s₁ ∧ addAll more s₁ = .ok s' := by
  rw [addAll, List.foldlM_cons, bind_eq_ok]
  rfl

theorem ConsistsOf.addAll_iff (h : s.ConsistsOf additions) (hc : Compatible additions) (more : List Addition) :
    addAll more s = .ok s' ↔ Compatible (additions ++ more) ∧ s'.ConsistsOf (additions ++ more) := by
  induction more generalizing s additions with
  | nil =>
    rw [List.append_nil]
    refine ⟨?_, ?_⟩
    · intro heq
      cases heq
      exact ⟨hc, h⟩
    · intro hs'
      rw [h.ext hs'.2]
      rfl
  | cons a more ih =>
    rw [List.append_cons, addAll_cons_eq_ok]
    refine ⟨?_, ?_⟩
    · intro hrun
      obtain ⟨s₁, ha, hrest⟩ := hrun
      obtain ⟨hc₁, h₁⟩ := h.apply hc ha
      exact (ih h₁ hc₁).mp hrest
    · intro hs'
      obtain ⟨s₁, ha⟩ := h.exists_apply (hs'.1.mono fun b hb => List.mem_append_left more hb)
      obtain ⟨hc₁, h₁⟩ := h.apply hc ha
      exact ⟨s₁, ha, (ih h₁ hc₁).mpr hs'⟩

theorem ConsistsOf.exists_addAll (h : s.ConsistsOf additions) {more : List Addition}
    (hc : Compatible (additions ++ more)) : ∃ s', addAll more s = .ok s' := by
  induction more generalizing s additions with
  | nil => exact ⟨s, rfl⟩
  | cons a more ih =>
    rw [List.append_cons] at hc
    have hold := hc.mono fun b hb => List.mem_append_left more (List.mem_append_left [a] hb)
    obtain ⟨s₁, ha⟩ := h.exists_apply (hc.mono fun b hb => List.mem_append_left more hb)
    obtain ⟨-, h₁⟩ := h.apply hold ha
    obtain ⟨s', hrest⟩ := ih h₁ hc
    exact ⟨s', addAll_cons_eq_ok.mpr ⟨s₁, ha, hrest⟩⟩

/-- compatible additions are all accepted -/
theorem exists_addAll {additions : List Addition} (hc : Compatible additions) : ∃ s, addAll additions empty = .ok s :=
  consistsOf_empty.exists_addAll hc

/-- additions to no set are all accepted if and only if they are compatible, and the set then consists of them -/
theorem addAll_eq_ok_iff {additions : List Addition} {s : RuleSet} :
    addAll additions empty = .ok s ↔ Compatible additions ∧ s.ConsistsOf additions :=
  consistsOf_empty.addAll_iff compatible_nil additions

/-- additions in another order, or with repetitions, make the same set -/
theorem addAll_congr {additions others : List Addition} (hsame : ∀ a, a ∈ additions ↔ a ∈ others) {s : RuleSet} :
    addAll additions empty = .ok s ↔ addAll others empty = .ok s := by
  rw [addAll_eq_ok_iff, addAll_eq_ok_iff, compatible_congr hsame, consistsOf_congr hsame]

end

/-! ## The additions that a set consists of -/

/-- what to add to get a set again -/
def additions (s : RuleSet) : List Addition := s.toList.map .rule ++ s.canonicalFormulas.map .canonical

/-- where things stand under their encodings, a thing under a key stands under its encoding, which is the key -/
theorem getElem?_iff_under_encoding {β : Type} {m : ByEncoding β} (encode : β → List Char)
    (hm : ∀ {key : List Char} {x : β}, m[key]? = some x → encode x = key) (key : List Char) (x : β) :
    m[key]? = some x ↔ m[encode x]? = some x ∧ encode x = key := by
  refine ⟨?_, ?_⟩
  · intro hx
    rw [hm hx]
    exact ⟨hx, rfl⟩
  · intro hx
    rw [← hx.2]
    exact hx.1

theorem makesCanonical_additions {s : RuleSet} (hs : s.WellFormed) {f : Formula} :
    MakesCanonical s.additions f ↔ f ∈ s.canonicalFormulas := by
  have hrule : ∀ {r : Rule}, .rule r ∈ s.additions ↔ r ∈ s.toList := by simp [additions]
  have hcanonical : .canonical f ∈ s.additions ↔ f ∈ s.canonicalFormulas := by simp [additions]
  unfold MakesCanonical
  rw [hcanonical]
  refine ⟨?_, Or.inl⟩
  intro h
  rcases h with hf | ⟨p, hp⟩
  · exact hf
  · exact (hs.consistent.replaced _ (hrule.mp hp)).1

/-- a set is made again by adding what it consists of, in any order -/
theorem addAll_additions {s : RuleSet} (hs : s.WellFormed) {others : List Addition}
    (hsame : ∀ a, a ∈ others ↔ a ∈ s.additions) : addAll others empty = .ok s := by
  have hrule : ∀ {r : Rule}, .rule r ∈ s.additions ↔ r ∈ s.toList := by simp [additions]
  rw [addAll_congr hsame, addAll_eq_ok_iff]
  refine ⟨⟨?_, ?_, ?_⟩, ?_, ?_⟩
  · intro r hr hmade
    exact hs.consistent.apart _ (mem_patterns_of_mem (hrule.mp hr)) ((makesCanonical_additions hs).mp hmade)
  · intro p c d hc hd
    have hc' := (canonicalOf_eq_some_iff hs).mpr (hrule.mp hc)
    have hd' := (canonicalOf_eq_some_iff hs).mpr (hrule.mp hd)
    exact Option.some.inj (hc'.symm.trans hd')
  · intro r hr v hv
    exact hs.bound ((getElem?_rules_iff hs).mpr (hrule.mp hr)) v hv
  · intro key r
    rw [hrule, ← getElem?_rules_iff hs]
    exact getElem?_iff_under_encoding (fun r : Rule => r.pattern.encode) hs.rule_key key r
  · intro key f
    rw [makesCanonical_additions hs, mem_canonicalFormulas hs.closed]
    exact getElem?_iff_under_encoding Formula.encode hs.canonical_key key f

end ClauseFold.RuleSet
