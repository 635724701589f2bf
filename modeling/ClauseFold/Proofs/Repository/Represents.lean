/-
What a repository has to do with the rule set it was made from. A repository represents a rule set if its lists are those
of the set, its recognizer holds the patterns of the set, and it knows what replaces each. Nothing else about it can be
seen from outside.

Results:
- `ofRuleSet_represents`: a repository made from a set in memory represents it;
- `ofIndex_represents`: a repository read from an index represents the rules that its rows spell;
- `Represents.replacement?_eq_findSome?`: by instance, the first rule that applies replaces a formula;
- `Represents.agree`: two repositories that represent one set replace all formulas in the same way;
- `Represents.replacement?_sound`: what is replaced is an instance of a rule of the set.
-/
import ClauseFold.Proofs.Index.Reading
import ClauseFold.Proofs.Rules.Building

namespace ClauseFold

/-! ## Rules in order of pattern -/

namespace RuleSet

/-- the patterns with their encodings, in order -/
theorem ascending_patterns {s : RuleSet} (hs : s.Keyed) : Ascending (s.patterns.map fun p => (p.encode, p)) := by
  have hlist : (s.patterns.map fun p => (p.encode, p)) = s.rules.toList.map fun e => (e.1, e.2.pattern) := by
    unfold patterns toList
    rw [values_eq_toList, List.map_map, List.map_map]
    apply List.map_congr_left
    intro e he
    simp only [Function.comp_apply]
    rw [hs (Std.ExtTreeMap.mem_toList_iff_getElem?_eq_some.mp he)]
  rw [hlist]
  unfold Ascending
  rw [List.pairwise_map]
  exact Ascending.toList s.rules

end RuleSet

namespace Recognizer

variable {r : Recognizer} {s : RuleSet}

/-- a recognizer of the patterns of a set lists them in the same order -/
theorem entries_eq_patterns (hs : s.Keyed) (h : r.Holds s.patterns) :
    r.trie.entries = s.patterns.map fun p => (p.encode, p) := by
  apply (Trie.ascending_entries h.wellFormed).ext (RuleSet.ascending_patterns hs)
  intro e
  rw [mem_entries h, List.mem_map]
  refine ⟨?_, ?_⟩
  · intro he
    rcases he with ⟨hmem, hkey⟩
    exact ⟨e.2, hmem, by rw [hkey]⟩
  · intro he
    rcases he with ⟨p, hp, rfl⟩
    exact ⟨hp, rfl⟩

theorem values_eq_patterns (hs : s.Keyed) (h : r.Holds s.patterns) : r.trie.values = s.patterns := by
  unfold Trie.values
  rw [entries_eq_patterns hs h, List.map_map]
  exact List.map_id _

end Recognizer

/-- what a rule makes of the instances of its pattern -/
def Rule.lookup (r : Rule) (f : Formula) : Option Formula := (r.pattern.match? f []).map fun b => r.canonical.substitute b

namespace Repository

/-- a repository that says of formulas what a rule set says -/
structure Represents (repo : Repository) (s : RuleSet) (m : Matching) : Prop where
  matching : repo.matching = m
  canonical : repo.source.canonical = s.canonicalFormulas
  patterns : repo.source.patterns = s.patterns
  canonicalOf : ∀ f, repo.source.canonicalOf f = s.canonicalOf f
  recognizer : repo.recognizer.Holds s.patterns

theorem ofRuleSet_represents (s : RuleSet) (m : Matching) :
    ∃ repo, ofRuleSet s m = .ok repo ∧ repo.Represents s m := by
  obtain ⟨r, hadd, hr⟩ := Recognizer.addAll_empty s.patterns
  refine ⟨⟨r, s.source, m⟩, ?_, rfl, rfl, rfl, fun _ => rfl, hr⟩
  unfold ofRuleSet
  rw [hadd]
  rfl

theorem ofIndex_represents {i : Index} {c : IndexReader.Canonical} {a : IndexReader.Spelling}
    (hcanonical : i.canonicalRows.foldlM IndexReader.readCanonical ⟨∅, ∅⟩ = .ok c)
    (hnodes : i.nodeRows.foldlM (IndexReader.spell c.byId) .empty = .ok a)
    (hkeyed : RuleSet.Keyed ⟨a.rules, c.byEncoding⟩) (m : Matching) :
    ∃ repo, ofIndex i m = .ok repo ∧ repo.Represents ⟨a.rules, c.byEncoding⟩ m := by
  rcases @IndexReader.readNodes_spells c.byId _ _ IndexReader.spells_empty i.nodeRows with
    ⟨e, herror, -⟩ | ⟨a', s, hspell, hread, hs⟩
  · rw [hnodes] at herror
    cases herror
  · rw [hnodes] at hspell
    cases hspell
    have hholds : Recognizer.Holds ⟨s.trie⟩ (RuleSet.patterns ⟨a.rules, c.byEncoding⟩) := by
      refine ⟨hs.wellFormed, ?_⟩
      intro key p
      rw [hs.patterns, RuleSet.mem_patterns hkeyed, Option.map_eq_some_iff]
      refine ⟨?_, ?_⟩
      · intro hrule
        rcases hrule with ⟨r, hr, rfl⟩
        have hkey := hkeyed hr
        exact ⟨⟨r, by rw [hkey]; exact hr, rfl⟩, hkey⟩
      · intro hrule
        rcases hrule with ⟨⟨r, hr, hp⟩, rfl⟩
        exact ⟨r, hr, hp⟩
    refine ⟨⟨⟨s.trie⟩, ⟨c.byEncoding.values, s.trie.values, IndexReader.canonicalOf ⟨s.trie⟩ s.replacements⟩, m⟩, ?_,
      rfl, rfl, ?_, ?_, hholds⟩
    · unfold ofIndex
      rw [hcanonical]
      show i.nodeRows.foldlM (IndexReader.readNode c.byId) ⟨Trie.empty, ∅, ∅⟩ >>= _ = _
      rw [hread]
      rfl
    · exact Recognizer.values_eq_patterns hkeyed hholds
    · exact IndexReader.canonicalOf_spells hs

/-- two repositories that represent one set replace all formulas in the same way -/
theorem Represents.agree {a b : Repository} {s : RuleSet} {m : Matching} (ha : a.Represents s m)
    (hb : b.Represents s m) : a.replacement? = b.replacement? := by
  funext f
  unfold replacement?
  rw [ha.matching, hb.matching]
  refine Recognizer.replacement?_congr ha.recognizer.wellFormed hb.recognizer.wellFormed ?_ ?_ m f
  · exact Recognizer.entries_eq ha.recognizer hb.recognizer fun _ => Iff.rfl
  · intro p
    rw [ha.canonicalOf, hb.canonicalOf]

/-- by instance, the first rule that applies says what replaces a formula -/
theorem Represents.replacement?_eq_findSome? {repo : Repository} {s : RuleSet} (h : repo.Represents s .byInstance)
    (hs : s.Keyed) (f : Formula) : repo.replacement? f = s.toList.findSome? fun r => r.lookup f := by
  rw [replacement?, h.matching, Recognizer.replacement?_byInstance, Recognizer.entries_eq_patterns hs h.recognizer,
    RuleSet.patterns, List.map_map, List.findSome?_map]
  suffices ∀ rules : List Rule, (∀ r ∈ rules, r ∈ s.toList) →
      (rules.findSome? (InstanceSearch.answer f ∘ (fun p => (p.encode, p)) ∘ fun r => r.pattern)).bind
        (fun found => (repo.source.canonicalOf found.pattern).map found.instantiate) =
      rules.findSome? fun r => r.lookup f from this s.toList fun _ hr => hr
  intro rules hrules
  induction rules with
  | nil => rfl
  | cons r rules ih =>
    have hcanonical : repo.source.canonicalOf r.pattern = some r.canonical := by
      obtain ⟨key, hr⟩ := RuleSet.mem_toList.mp (hrules r List.mem_cons_self)
      rw [h.canonicalOf, RuleSet.canonicalOf, hs hr, hr]
      rfl
    rw [List.findSome?_cons, List.findSome?_cons]
    simp only [Function.comp_apply, InstanceSearch.answer_encode, Rule.lookup]
    cases r.pattern.match? f [] with
    | none => exact ih fun r' hr' => hrules r' (List.mem_cons_of_mem r hr')
    | some b =>
      simp only [Option.map_some, Option.bind_some, hcanonical]
      rfl

/-- what is replaced is an instance of the pattern of a rule, and its replacement the same instance of the other side -/
theorem Represents.replacement?_sound {repo : Repository} {s : RuleSet} {m : Matching} (h : repo.Represents s m)
    (hs : s.Keyed) {f g : Formula} (hg : repo.replacement? f = some g) :
    ∃ r bindings, r ∈ s.toList ∧ r.pattern.substitute bindings = f ∧ r.canonical.substitute bindings = g := by
  obtain ⟨p, bindings, c, -, hc, hf, hg⟩ := Recognizer.replacement?_sound h.recognizer hg
  rw [h.canonicalOf] at hc
  obtain ⟨r, hr, rfl⟩ := Option.map_eq_some_iff.mp hc
  refine ⟨r, bindings, RuleSet.mem_toList.mpr ⟨_, hr⟩, ?_, hg⟩
  rw [Formula.encode_injective (hs hr), hf]

end Repository

end ClauseFold
