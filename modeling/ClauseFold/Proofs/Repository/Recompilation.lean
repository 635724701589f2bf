/-
Indexes that are read and compiled again. An index may hold rows that no compilation writes: several ids for one node,
branches without a pattern, canonical formulas that nothing is replaced with, ids of any kind. Whatever is read from it is
closed all the same: each pattern stands under its encoding, and what replaces it is among the canonical formulas. That is
all that a compilation asks for.

Results:
- `ofIndex_closed`: a repository that was read represents a closed set of rules;
- `exists_closed_same`: a source without a fault lists and replaces what a closed set of rules does;
- `recompilation_loses_nothing`: a repository that was read is compiled without an error, and what is read then agrees
  with it; rows that a compilation wrote are written again.
-/
import ClauseFold.Proofs.Index.PrefixTree
import ClauseFold.Proofs.Repository.Backends

namespace ClauseFold

/-! ## What rows say -/

namespace IndexReader

theorem encode_of_read {text : List Char} {f : Formula} (h : Formula.read? text = .ok f) : f.encode = text :=
  Formula.encode_of_decode (mapError_eq_ok.mp h)

/-- formulas stand under their encodings, and those with an id are among them -/
structure Canonical.Keyed (c : Canonical) : Prop where
  key : ∀ {key : List Char} {f : Formula}, c.byEncoding[key]? = some f → f.encode = key
  listed : ∀ {id : Int} {f : Formula}, c.byId[id]? = some f → c.byEncoding[f.encode]? = some f

theorem Canonical.Keyed.readCanonical {c c' : Canonical} (hc : c.Keyed) {row : Int × List Char}
    (h : IndexReader.readCanonical c row = .ok c') : c'.Keyed := by
  unfold IndexReader.readCanonical at h
  obtain ⟨f, hread, hc'⟩ := bind_eq_ok.mp h
  cases hc'
  have hkey := encode_of_read hread
  refine ⟨?_, ?_⟩
  · intro key g hg
    rcases RuleSet.getElem?_insert_cases hg with ⟨rfl, rfl⟩ | hold
    · exact hkey
    · exact hc.key hold
  · intro id g hg
    rw [← hkey]
    rw [Std.ExtTreeMap.getElem?_insert] at hg
    by_cases hid : compare row.1 id = .eq
    · rw [if_pos hid] at hg
      cases hg
      exact Std.ExtTreeMap.getElem?_insert_self
    · rw [if_neg hid] at hg
      exact RuleSet.getElem?_insert_canonical (hc.listed hg)

theorem keyed_of_readCanonicals {rows : List (Int × List Char)} {c : Canonical}
    (h : rows.foldlM IndexReader.readCanonical ⟨∅, ∅⟩ = .ok c) : c.Keyed := by
  refine foldlM_preserves (P := Canonical.Keyed) (fun hc hstep => hc.readCanonical hstep) ⟨?_, ?_⟩ h
  · intro key f hf
    simp at hf
  · intro id f hf
    simp at hf

/-- patterns stand under their encodings, and what replaces them has an id -/
structure Spelling.Keyed (canonical : Std.ExtTreeMap Int Formula) (a : Spelling) : Prop where
  key : ∀ {key : List Char} {r : Rule}, a.rules[key]? = some r → r.pattern.encode = key
  replaced : ∀ {key : List Char} {r : Rule}, a.rules[key]? = some r → ∃ id : Int, canonical[id]? = some r.canonical

theorem rules_of_spellKey {a a' : Spelling} {id : Int} {row : NodeRow} {key : List Char}
    (h : spellKey a id row = .ok (key, a')) : a'.rules = a.rules := by
  unfold spellKey at h
  split at h
  · obtain ⟨parent, -, h⟩ := bind_eq_ok.mp h
    cases h
    rfl
  · cases h

/-- a row adds no rule, or one for the formula that its key encodes -/
theorem spellRule_cases {canonical : Std.ExtTreeMap Int Formula} {a a' : Spelling} {key : List Char} {id : Int}
    {row : NodeRow} (h : spellRule canonical a key id row = .ok a') :
    a' = a ∨ ∃ r : Rule, r.pattern.encode = key ∧ canonical[row.canonical]? = some r.canonical ∧
      a'.rules = a.rules.insert key r := by
  unfold spellRule at h
  by_cases hnone : row.canonical = noId
  · rw [if_pos hnone] at h
    exact Or.inl (Except.ok.inj h).symm
  · rw [if_neg hnone] at h
    cases hreplacement : canonical[row.canonical]? with
    | none =>
      rw [hreplacement] at h
      cases h
    | some replacement =>
      rw [hreplacement] at h
      obtain ⟨pattern, hread, h⟩ := bind_eq_ok.mp h
      cases h
      exact Or.inr ⟨⟨pattern, replacement⟩, encode_of_read hread, rfl, rfl⟩

theorem Spelling.Keyed.spell {canonical : Std.ExtTreeMap Int Formula} {a a' : Spelling} (ha : a.Keyed canonical)
    {row : Int × NodeRow} (h : IndexReader.spell canonical a row = .ok a') : a'.Keyed canonical := by
  obtain ⟨⟨key, a₁⟩, hkey, hrule⟩ := bind_eq_ok.mp h
  have hrules := rules_of_spellKey hkey
  rcases spellRule_cases hrule with rfl | ⟨r, hencode, hid, hinsert⟩
  · exact ⟨by rw [hrules]; exact ha.key, by rw [hrules]; exact ha.replaced⟩
  · rw [hrules] at hinsert
    refine ⟨?_, ?_⟩
    · intro k r' hr'
      rw [hinsert] at hr'
      rcases RuleSet.getElem?_insert_cases hr' with ⟨rfl, rfl⟩ | hold
      · exact hencode
      · exact ha.key hold
    · intro k r' hr'
      rw [hinsert] at hr'
      rcases RuleSet.getElem?_insert_cases hr' with ⟨rfl, rfl⟩ | hold
      · exact ⟨_, hid⟩
      · exact ha.replaced hold

theorem keyed_of_spell {canonical : Std.ExtTreeMap Int Formula} {rows : List (Int × NodeRow)} {a : Spelling}
    (h : rows.foldlM (spell canonical) .empty = .ok a) : a.Keyed canonical := by
  refine foldlM_preserves (P := Spelling.Keyed canonical) (fun ha hstep => ha.spell hstep) ⟨?_, ?_⟩ h
  · intro key r hr
    simp [Spelling.empty] at hr
  · intro key r hr
    simp [Spelling.empty] at hr

end IndexReader

namespace Repository

/-- rows that spell rules are read as a closed set of rules, however patterns are matched -/
theorem ofIndex_of_spell {i : Index} {c : IndexReader.Canonical} {a : IndexReader.Spelling}
    (hcanonical : i.canonicalRows.foldlM IndexReader.readCanonical ⟨∅, ∅⟩ = .ok c)
    (hspell : i.nodeRows.foldlM (IndexReader.spell c.byId) .empty = .ok a) :
    ∃ s : RuleSet, s.Closed ∧ ∀ m, ∃ repo, ofIndex i m = .ok repo ∧ repo.Represents s m := by
  have hc := IndexReader.keyed_of_readCanonicals hcanonical
  have ha := IndexReader.keyed_of_spell hspell
  have hclosed : RuleSet.Closed ⟨a.rules, c.byEncoding⟩ := by
    refine ⟨ha.key, hc.key, ?_⟩
    intro key r hr
    obtain ⟨id, hid⟩ := ha.replaced hr
    exact hc.listed hid
  exact ⟨_, hclosed, ofIndex_represents hcanonical hspell hclosed.keyed⟩

/-- what is read from an index is a closed set of rules -/
theorem ofIndex_closed {i : Index} {m : Matching} {repo : Repository} (h : ofIndex i m = .ok repo) :
    ∃ s : RuleSet, s.Closed ∧ ∀ m', ∃ repo', ofIndex i m' = .ok repo' ∧ repo'.Represents s m' := by
  obtain ⟨c, hcanonical, hrest⟩ := bind_eq_ok.mp h
  obtain ⟨nodes, hnodes, -⟩ := bind_eq_ok.mp hrest
  rcases @IndexReader.readNodes_spells c.byId _ _ IndexReader.spells_empty i.nodeRows with
    ⟨e, -, herror⟩ | ⟨a, s, hspell, -, -⟩
  · rw [hnodes] at herror
    cases herror
  · exact ofIndex_of_spell hcanonical hspell

theorem Represents.source_eq {repo : Repository} {s : RuleSet} {m : Matching} (h : repo.Represents s m) :
    repo.source = s.source := by
  obtain ⟨recognizer, ⟨canonical, patterns, canonicalOf⟩, matching⟩ := repo
  have hcanonical : canonical = s.canonicalFormulas := h.canonical
  have hpatterns : patterns = s.patterns := h.patterns
  have hof : canonicalOf = s.canonicalOf := funext h.canonicalOf
  subst hcanonical hpatterns hof
  rfl

end Repository

/-! ## A set of rules for a source -/

namespace RuleSource

variable {source : RuleSource}

/-- the rules of a source, from a recognizer of its patterns and one of its canonical formulas -/
def ruleSet (source : RuleSource) (r q : Recognizer) : RuleSet where
  rules := .ofList (r.trie.entries.map (IndexReader.ruleEntry fun p => (source.canonicalOf p).getD p))
  canonical := .ofList q.trie.entries

section

variable {r q : Recognizer}

theorem getElem?_rules (hr : r.Holds source.patterns) {key : List Char} {rule : Rule} :
    (source.ruleSet r q).rules[key]? = some rule ↔
      rule.pattern ∈ source.patterns ∧ rule.pattern.encode = key ∧
        rule.canonical = (source.canonicalOf rule.pattern).getD rule.pattern := by
  have hascending : Ascending
      (r.trie.entries.map (IndexReader.ruleEntry fun p => (source.canonicalOf p).getD p)) := by
    unfold Ascending
    rw [List.pairwise_map]
    exact Trie.ascending_entries hr.wellFormed
  unfold ruleSet
  rw [hascending.mem_ofList, List.mem_map]
  refine ⟨?_, ?_⟩
  · intro h
    obtain ⟨e, he, heq⟩ := h
    obtain ⟨hmem, hkey⟩ := (Recognizer.mem_entries hr e).mp he
    cases heq
    exact ⟨hmem, hkey, rfl⟩
  · intro h
    obtain ⟨hmem, hkey, hcanonical⟩ := h
    exact ⟨(key, rule.pattern), (Recognizer.mem_entries hr _).mpr ⟨hmem, hkey⟩, by
      rw [IndexReader.ruleEntry, ← hcanonical]⟩

theorem getElem?_canonical (hq : q.Holds source.canonical) {key : List Char} {f : Formula} :
    (source.ruleSet r q).canonical[key]? = some f ↔ f ∈ source.canonical ∧ f.encode = key := by
  unfold ruleSet
  rw [(Trie.ascending_entries hq.wellFormed).mem_ofList, Recognizer.mem_entries hq]

/-- a source without a fault makes a closed set -/
theorem closed_ruleSet (h : ∀ p ∈ source.patterns, source.Replaces p) (hr : r.Holds source.patterns)
    (hq : q.Holds source.canonical) : (source.ruleSet r q).Closed := by
  refine ⟨fun hrule => ((getElem?_rules hr).mp hrule).2.1, fun hf => ((getElem?_canonical hq).mp hf).2, ?_⟩
  intro key rule hrule
  obtain ⟨hmem, -, hcanonical⟩ := (getElem?_rules hr).mp hrule
  obtain ⟨c, hc, hof⟩ := h _ hmem
  rw [hof, Option.getD_some] at hcanonical
  exact (getElem?_canonical hq).mpr ⟨by rw [hcanonical]; exact hc, rfl⟩

end

/-- a source without a fault lists and replaces what a closed set of rules does -/
theorem exists_closed_same (h : ∀ p ∈ source.patterns, source.Replaces p) :
    ∃ s : RuleSet, s.Closed ∧ source.Same s.source := by
  obtain ⟨r, -, hr⟩ := Recognizer.addAll_empty source.patterns
  obtain ⟨q, -, hq⟩ := Recognizer.addAll_empty source.canonical
  have hclosed := closed_ruleSet h hr hq
  refine ⟨source.ruleSet r q, hclosed, ?_, ?_, ?_⟩
  · intro f
    show _ ↔ f ∈ (source.ruleSet r q).canonicalFormulas
    rw [RuleSet.mem_canonicalFormulas hclosed, getElem?_canonical hq]
    simp
  · intro p
    show _ ↔ p ∈ (source.ruleSet r q).patterns
    rw [RuleSet.mem_patterns hclosed.keyed]
    refine ⟨?_, ?_⟩
    · intro hp
      exact ⟨⟨p, (source.canonicalOf p).getD p⟩, (getElem?_rules hr).mpr ⟨hp, rfl, rfl⟩, rfl⟩
    · intro hrule
      obtain ⟨rule, hrule, rfl⟩ := hrule
      exact ((getElem?_rules hr).mp hrule).1
  · intro p hp
    obtain ⟨c, -, hof⟩ := h p hp
    have hrule : (source.ruleSet r q).rules[p.encode]? = some ⟨p, (source.canonicalOf p).getD p⟩ :=
      (getElem?_rules hr).mpr ⟨hp, rfl, rfl⟩
    show _ = (source.ruleSet r q).canonicalOf p
    unfold RuleSet.canonicalOf
    rw [hrule, hof]
    rfl

end RuleSource

/-! ## Compilation of what was read -/

/-- closed rules are compiled into an empty database, and read from it as they are -/
theorem RuleSet.Closed.indexInto {s : RuleSet} (hs : s.Closed) :
    ∃ i summary, s.source.indexInto .empty = (.ok summary, .ofStore (some i)) ∧
      ∀ m, ∃ repo, Repository.ofIndex i m = .ok repo ∧ repo.Represents s m := by
  obtain ⟨i, summary, -, hcompile, -⟩ := Repository.compileInto_represents_of_closed hs .exact
  refine ⟨i, summary, ?_, ?_⟩
  · rw [RuleSource.indexInto_empty, hcompile]
  · intro m
    obtain ⟨i', summary', repo, hcompile', hread, hrepresents⟩ := Repository.compileInto_represents_of_closed hs m
    rw [hcompile] at hcompile'
    cases hcompile'
    exact ⟨repo, hread, hrepresents⟩

/-- the rows of a compilation are read, and the source that is read is the same -/
theorem Repository.ofIndex_of_indexInto {source : RuleSource} {db : Database} {summary : IndexSummary} {i : Index}
    (h : source.indexInto db = (.ok summary, .ofStore (some i))) (m : Matching) :
    ∃ repo, ofIndex i m = .ok repo ∧ source.Same repo.source := by
  obtain ⟨rfl, hreplaces⟩ := RuleSource.of_indexInto h
  obtain ⟨s, hs, hsame⟩ := RuleSource.exists_closed_same hreplaces
  obtain ⟨i', summary', hcompile, hread⟩ := hs.indexInto
  rw [RuleSource.indexInto_of_same hsame h, Prod.mk.injEq, Database.ofStore_inj, Option.some.injEq] at hcompile
  obtain ⟨-, rfl⟩ := hcompile
  obtain ⟨repo, hrepo, hrepresents⟩ := hread m
  exact ⟨repo, hrepo, by rwa [hrepresents.source_eq]⟩

/-- **Nothing is lost by compiling a loaded index.** Whatever rows a repository was read from, it is compiled into an empty
database without an error. However patterns are matched, the new rows are read without an error, and the repository that
comes out agrees with the one that went in, on its lists and on what replaces each formula. If a compilation wrote the
first rows, the new rows are the same. -/
theorem recompilation_loses_nothing {i : Index} {m : Matching} {repo : Repository}
    (h : Repository.ofIndex i m = .ok repo) :
    ∃ summary i', repo.source.indexInto .empty = (.ok summary, .ofStore (some i')) ∧
      (∀ m', ∃ first second, Repository.ofIndex i m' = .ok first ∧ Repository.ofIndex i' m' = .ok second ∧
        second.Agrees first) ∧
      ∀ (source : RuleSource) db written, source.indexInto db = (.ok written, .ofStore (some i)) → i' = i := by
  obtain ⟨s, hs, hfirst⟩ := Repository.ofIndex_closed h
  obtain ⟨i', summary, hcompile, hsecond⟩ := hs.indexInto
  have hsource : repo.source = s.source := by
    obtain ⟨repo', hread, hrepresents⟩ := hfirst m
    rw [h] at hread
    cases hread
    exact hrepresents.source_eq
  rw [← hsource] at hcompile
  refine ⟨summary, i', hcompile, ?_, ?_⟩
  · intro m'
    obtain ⟨first, hread, hrepresents⟩ := hfirst m'
    obtain ⟨second, hread', hrepresents'⟩ := hsecond m'
    exact ⟨first, second, hread, hread', hrepresents'.agrees hrepresents⟩
  · intro source db written hwritten
    obtain ⟨repo', hread, hsame⟩ := Repository.ofIndex_of_indexInto hwritten m
    rw [h] at hread
    cases hread
    obtain ⟨rfl, -⟩ := RuleSource.of_indexInto hwritten
    rw [RuleSource.indexInto_of_same hsame hwritten, Prod.mk.injEq, Database.ofStore_inj, Option.some.injEq] at hcompile
    exact hcompile.2.symm

/-- rows that no compilation writes: two ids for one canonical formula and two for one node, a formula that replaces
nothing, a branch without a pattern, and ids of all signs -/
def oddIndex : Index where
  canonical := .ofList [(-4, ['1', '.']), (3, ['F']), (7, ['T']), (9, ['T'])]
  nodes := .ofList ([(-5, ⟨['-'], 0, 0⟩), (2, ⟨['-'], 0, 0⟩), (10, ⟨['T'], -5, 3⟩), (11, ⟨['F'], 2, 9⟩),
    (12, ⟨['x'], 2, 0⟩)] : List (Int × NodeRow))

theorem exists_ofIndex_oddIndex (m : Matching) : ∃ repo, Repository.ofIndex oddIndex m = .ok repo := by
  obtain ⟨c, hcanonical⟩ : ∃ c, oddIndex.canonicalRows.foldlM IndexReader.readCanonical ⟨∅, ∅⟩ = .ok c := ⟨_, rfl⟩
  have hspell : ∃ a, oddIndex.nodeRows.foldlM (IndexReader.spell c.byId) .empty = .ok a := by
    cases hcanonical
    exact ⟨_, rfl⟩
  obtain ⟨a, hspell⟩ := hspell
  obtain ⟨s, -, hread⟩ := Repository.ofIndex_of_spell hcanonical hspell
  obtain ⟨repo, hrepo, -⟩ := hread m
  exact ⟨repo, hrepo⟩

theorem recompilation_loses_nothing_oddIndex :
    (∃ repo, Repository.ofIndex oddIndex .byInstance = .ok repo ∧
      ∃ summary i', repo.source.indexInto .empty = (.ok summary, .ofStore (some i')) ∧
        ∀ m, ∃ first second, Repository.ofIndex oddIndex m = .ok first ∧ Repository.ofIndex i' m = .ok second ∧
          second.Agrees first) ∧
    ∃ i written repo summary, RuleSource.negatedConstants.indexInto .empty = (.ok written, .ofStore (some i)) ∧
      Repository.ofIndex i .exact = .ok repo ∧ repo.source.indexInto .empty = (.ok summary, .ofStore (some i)) := by
  refine ⟨?_, ?_⟩
  · obtain ⟨repo, hrepo⟩ := exists_ofIndex_oddIndex .byInstance
    obtain ⟨summary, i', hcompile, hagree, -⟩ := recompilation_loses_nothing hrepo
    exact ⟨repo, hrepo, summary, i', hcompile, hagree⟩
  · obtain ⟨written, i, hwritten⟩ := RuleSource.indexInto_of_replaces RuleSource.replaces_negatedConstants
    obtain ⟨repo, hrepo, -⟩ := Repository.ofIndex_of_indexInto hwritten .exact
    obtain ⟨summary, i', hcompile, -, hsame⟩ := recompilation_loses_nothing hrepo
    obtain rfl := hsame _ _ _ hwritten
    exact ⟨i', written, repo, summary, hwritten, hrepo, hcompile⟩

end ClauseFold
