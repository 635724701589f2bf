/-
A recognizer that patterns were added to. It holds each pattern under its encoding and nothing else, in whatever order the
patterns came and however often.

Results:
- `addAll_empty`: patterns can always be added, and the recognizer holds them;
- `spans_addAll`: it has the nodes on the way to them and no others;
- `replacement?_congr`: recognizers of the same entries replace the same formulas in the same way;
- `replacement?_sound`: what is replaced is an instance of a pattern that is held, and the replacement is the same
  instance of what replaces the pattern.
-/
import ClauseFold.Repository.Basic
import ClauseFold.Proofs.Formula.Substitution
import ClauseFold.Proofs.Trie.WellFormed
import ClauseFold.Proofs.Recognizer.Matching

namespace ClauseFold

namespace Recognizer

/-- a recognizer whose entries are these patterns, each under its encoding -/
structure Holds (r : Recognizer) (patterns : List Formula) : Prop where
  wellFormed : r.trie.WellFormed
  get?_eq_some : ∀ key p, r.trie.get? key = some p ↔ p ∈ patterns ∧ p.encode = key

theorem holds_empty : empty.Holds [] := by
  refine ⟨Trie.wellFormed_empty, ?_⟩
  intro key p
  rw [Trie.get?_eq_value?, Forest.value?_eq_view?]
  simp [empty, Trie.empty]

theorem add_eq (r : Recognizer) (f : Formula) :
    r.add f = .ok (r.trie.get? f.encode, ⟨r.trie.store f.encode f (r.trie.get? f.encode)⟩) := by
  rw [add, Trie.put_eq f.encode_ne_nil]
  rfl

theorem add_spec {r : Recognizer} {patterns : List Formula} (h : r.Holds patterns) (f : Formula) :
    ∃ previous r', r.add f = .ok (previous, r') ∧ r'.Holds (patterns ++ [f]) := by
  refine ⟨_, _, add_eq r f, h.wellFormed.store _ _ _, ?_⟩
  intro key p
  rw [Trie.get?_store h.wellFormed f.encode_ne_nil]
  by_cases hkey : key = f.encode
  · rw [if_pos hkey, Option.some.injEq]
    refine ⟨?_, ?_⟩
    · intro hf
      subst hf
      exact ⟨by simp, hkey.symm⟩
    · intro hp
      rcases hp with ⟨-, hp⟩
      exact (Formula.encode_injective (hp.trans hkey)).symm
  · rw [if_neg hkey, h.get?_eq_some]
    refine ⟨?_, ?_⟩
    · intro hkept
      rcases hkept with ⟨hmem, hp⟩
      exact ⟨List.mem_append_left _ hmem, hp⟩
    · intro hadded
      rcases hadded with ⟨hmem, hp⟩
      rcases List.mem_append.mp hmem with hmem | hmem
      · exact ⟨hmem, hp⟩
      · rw [List.mem_singleton.mp hmem] at hp
        exact absurd hp.symm hkey

theorem addAll_spec {r : Recognizer} {patterns : List Formula} (h : r.Holds patterns) (fs : List Formula) :
    ∃ r', r.addAll fs = .ok r' ∧ r'.Holds (patterns ++ fs) := by
  induction fs generalizing r patterns with
  | nil => exact ⟨r, rfl, by rwa [List.append_nil]⟩
  | cons f fs ih =>
    obtain ⟨previous, r₁, hadd, h₁⟩ := add_spec h f
    obtain ⟨r', hrest, h'⟩ := ih h₁
    refine ⟨r', ?_, by rwa [List.append_assoc] at h'⟩
    rw [addAll, List.foldlM_cons, hadd]
    exact hrest

/-- patterns can always be added, and the recognizer holds them -/
theorem addAll_empty (fs : List Formula) : ∃ r, empty.addAll fs = .ok r ∧ r.Holds fs := addAll_spec holds_empty fs

/-! ## Nodes -/

/-- a recognizer whose nodes are those on the way to the patterns -/
def Spans (r : Recognizer) (patterns : List Formula) : Prop :=
  ∀ key, (r.trie.view? key).isSome = true ↔ key = [] ∨ ∃ p ∈ patterns, key <+: p.encode

theorem spans_empty : empty.Spans [] := by
  intro key
  cases key with
  | nil => simp
  | cons c cs => simp [Trie.view?_eq _ (List.cons_ne_nil c cs), empty, Trie.empty]

theorem spans_addAll {r r' : Recognizer} {patterns : List Formula} (h : r.Holds patterns) (hspans : r.Spans patterns)
    {fs : List Formula} (hadd : r.addAll fs = .ok r') : r'.Spans (patterns ++ fs) := by
  induction fs generalizing r patterns with
  | nil =>
    cases hadd
    rwa [List.append_nil]
  | cons f fs ih =>
    obtain ⟨previous, r₁, hone, h₁⟩ := add_spec h f
    rw [addAll, List.foldlM_cons, hone] at hadd
    have hspans₁ : r₁.Spans (patterns ++ [f]) := by
      intro key
      rw [add_eq] at hone
      cases hone
      rw [Trie.isSome_view?_store h.wellFormed, hspans]
      simp only [List.mem_append, List.mem_singleton]
      grind
    have hall := ih h₁ hspans₁ hadd
    rwa [List.append_assoc] at hall

/-! ## Entries -/

section

variable {r : Recognizer} {patterns : List Formula}

theorem mem_entries (h : r.Holds patterns) (e : List Char × Formula) :
    e ∈ r.trie.entries ↔ e.2 ∈ patterns ∧ e.2.encode = e.1 := by
  rw [← h.get?_eq_some, ← Trie.mem_entries h.wellFormed]

/-- recognizers that hold the same patterns have the same entries -/
theorem entries_eq {r' : Recognizer} {patterns' : List Formula} (h : r.Holds patterns) (h' : r'.Holds patterns')
    (hmem : ∀ p, p ∈ patterns ↔ p ∈ patterns') : r.trie.entries = r'.trie.entries := by
  apply Trie.entries_ext h.wellFormed h'.wellFormed
  intro key
  apply Option.ext
  intro p
  rw [h.get?_eq_some, h'.get?_eq_some, hmem]

end

theorem find?_bind_value (r : Recognizer) (f : Formula) :
    ((r.find? f).bind fun n => n.value) = r.trie.get? f.encode := by
  unfold find? Trie.get? Trie.node?
  rw [Node.locate_eq_descend?]
  cases r.trie.rootNode.descend? f.encode with
  | none => rfl
  | some n =>
    cases hv : n.value with
    | none => simp [Option.filter, hv]
    | some p => simp [Option.filter, hv]

/-! ## Replacements -/

theorem replacement?_exact (r : Recognizer) (canonicalOf : Formula → Option Formula) (f : Formula) :
    r.replacement? .exact canonicalOf f = (r.trie.get? f.encode).bind canonicalOf := by
  rw [← find?_bind_value]
  unfold replacement?
  cases r.find? f <;> rfl

theorem replacement?_byInstance (r : Recognizer) (canonicalOf : Formula → Option Formula) (f : Formula) :
    r.replacement? .byInstance canonicalOf f =
      (r.trie.entries.findSome? (InstanceSearch.answer f)).bind
        fun found => (canonicalOf found.pattern).map found.instantiate := by
  unfold replacement?
  rw [findInstance?_eq]

/-- recognizers of the same entries replace the same formulas in the same way -/
theorem replacement?_congr {r r' : Recognizer} (hwf : r.trie.WellFormed) (hwf' : r'.trie.WellFormed)
    (hentries : r.trie.entries = r'.trie.entries) {canonicalOf canonicalOf' : Formula → Option Formula}
    (hcanonical : ∀ f, canonicalOf f = canonicalOf' f) (m : Matching) (f : Formula) :
    r.replacement? m canonicalOf f = r'.replacement? m canonicalOf' f := by
  have hsame : canonicalOf = canonicalOf' := funext hcanonical
  cases m with
  | exact =>
    have hget : r.trie.get? f.encode = r'.trie.get? f.encode := by
      apply Option.ext
      intro p
      rw [← Trie.mem_entries hwf, ← Trie.mem_entries hwf', hentries]
    rw [replacement?_exact, replacement?_exact, hget, hsame]
  | byInstance => rw [replacement?_byInstance, replacement?_byInstance, hentries, hsame]

/-- what is replaced is an instance of a pattern, and the replacement is the same instance of what replaces the pattern -/
theorem replacement?_sound {r : Recognizer} {patterns : List Formula} (h : r.Holds patterns)
    {canonicalOf : Formula → Option Formula} {m : Matching} {f g : Formula}
    (hg : r.replacement? m canonicalOf f = some g) :
    ∃ p bindings c, p ∈ patterns ∧ canonicalOf p = some c ∧ p.substitute bindings = f ∧ c.substitute bindings = g := by
  cases m with
  | exact =>
    rw [replacement?_exact] at hg
    obtain ⟨p, hp, hc⟩ := Option.bind_eq_some_iff.mp hg
    obtain ⟨hmem, henc⟩ := (h.get?_eq_some _ _).mp hp
    refine ⟨p, [], g, hmem, hc, ?_, Formula.substitute_nil g⟩
    rw [Formula.substitute_nil, Formula.encode_injective henc]
  | byInstance =>
    rw [replacement?_byInstance] at hg
    obtain ⟨found, hfound, hc⟩ := Option.bind_eq_some_iff.mp hg
    obtain ⟨c, hcanonical, rfl⟩ := Option.map_eq_some_iff.mp hc
    obtain ⟨⟨key, p⟩, hmem, hanswer⟩ := List.exists_of_findSome?_eq_some hfound
    obtain ⟨hpattern, hkey⟩ := (mem_entries h (key, p)).mp hmem
    simp only at hkey
    rw [← hkey, InstanceSearch.answer_encode] at hanswer
    obtain ⟨bindings, hmatch, rfl⟩ := Option.map_eq_some_iff.mp hanswer
    exact ⟨p, bindings, c, hpattern, hcanonical, Formula.substitute_of_match? hmatch, rfl⟩

end Recognizer

end ClauseFold
