/-
The two ways to get from a rule set to a repository: straight from the set, or by way of an index that the set is compiled
into and that is read again. Both always lead to a repository, and nothing that is done with repositories can tell which
of the two it was.

Results:
- `repository_represents`: either way leads to a repository that represents the set;
- `replacement?_rule`: what the repository of a single rule replaces;
- `compiled_agrees`: the repositories agree on all lists and look-ups, and so on all reductions and folds.
-/
import ClauseFold.Proofs.Fold.Calls
import ClauseFold.Proofs.Index.RoundTrip

namespace ClauseFold

/-- the rule sets that can come about: by calls, or from a rule file -/
inductive RuleSet.Built : RuleSet → Prop where
  | calls (additions : List RuleSet.Addition) : Built (.build additions)
  | file {lines : List Text.Line} {s : RuleSet} (h : RuleSet.ofLines lines = .ok s) : Built s

/-- where a repository keeps its rules -/
inductive Backend where
  | memory
  | indexed
deriving DecidableEq, Repr

def RuleSet.repository (s : RuleSet) (m : Matching) : Backend → Except Error Repository
  | .memory => (Repository.ofRuleSet s m).mapError .trie
  | .indexed => do
    let (i, _) ← s.source.compileInto none
    Repository.ofStore (some i) m

theorem RuleSet.Built.wellFormed {s : RuleSet} (hs : s.Built) : s.WellFormed := by
  cases hs with
  | calls additions => exact wellFormed_build additions
  | file h =>
    obtain ⟨additions, rfl⟩ := ofLines_eq_build h
    exact wellFormed_build additions

/-- either way leads to a repository that represents the set -/
theorem RuleSet.repository_represents {s : RuleSet} (hs : s.Built) (m : Matching) (b : Backend) :
    ∃ repo, s.repository m b = .ok repo ∧ repo.Represents s m := by
  cases b with
  | memory =>
    obtain ⟨repo, hrepo, h⟩ := Repository.ofRuleSet_represents s m
    exact ⟨repo, mapError_eq_ok.mpr hrepo, h⟩
  | indexed =>
    obtain ⟨i, summary, repo, hcompile, hread, h⟩ := Repository.compileInto_represents hs.wellFormed m
    exact ⟨repo, bind_eq_ok.mpr ⟨(i, summary), hcompile, hread⟩, h⟩

/-- the repository of a single rule, matched by instance, replaces what the rule replaces -/
theorem RuleSet.replacement?_rule {additions : List Addition} {r : Rule} (hrules : (build additions).toList = [r])
    {b : Backend} {repo : Repository} (hrepo : (build additions).repository .byInstance b = .ok repo) :
    repo.replacement? = r.lookup := by
  have hs : (build additions).Built := .calls additions
  obtain ⟨repo', hrepo', h⟩ := repository_represents hs .byInstance b
  rw [hrepo] at hrepo'
  cases hrepo'
  funext f
  rw [h.replacement?_eq_findSome? hs.wellFormed.keyed, hrules, List.findSome?_singleton]

/-- two repositories that nothing can tell apart -/
structure Repository.Agrees (a b : Repository) : Prop where
  canonical : a.source.canonical = b.source.canonical
  patterns : a.source.patterns = b.source.patterns
  canonicalOf : ∀ f, a.source.canonicalOf f = b.source.canonicalOf f
  replacement? : ∀ f, a.replacement? f = b.replacement? f
  reduce : ∀ limit f, reduceWithLimit a.replacement? limit f = reduceWithLimit b.replacement? limit f
  results : ∀ limit (s : Fold) calls, s.results ⟨a.replacement?, limit⟩ calls = s.results ⟨b.replacement?, limit⟩ calls
  folds : ∀ limit (s : Fold) calls, s.afterAll ⟨a.replacement?, limit⟩ calls = s.afterAll ⟨b.replacement?, limit⟩ calls

theorem Repository.Represents.agrees {a b : Repository} {s : RuleSet} {m : Matching} (ha : a.Represents s m)
    (hb : b.Represents s m) : a.Agrees b := by
  have hsame : a.replacement? = b.replacement? := ha.agree hb
  refine ⟨?_, ?_, ?_, ?_, ?_, ?_, ?_⟩
  · rw [ha.canonical, hb.canonical]
  · rw [ha.patterns, hb.patterns]
  · intro f
    rw [ha.canonicalOf, hb.canonicalOf]
  · intro f
    rw [hsame]
  · intro limit f
    rw [hsame]
  · intro limit s calls
    rw [hsame]
  · intro limit s calls
    rw [hsame]

/-- **An index loses nothing.** The rules of a set, in memory or compiled into an empty store and read back, make
repositories that agree on their lists, on what replaces each formula, and so on every reduction and every fold, errors
included. Neither the compilation nor the reading fails. -/
theorem compiled_agrees {s : RuleSet} (hs : s.Built) (m : Matching) :
    ∃ memory i summary indexed, Repository.ofRuleSet s m = .ok memory ∧ s.source.compileInto none = .ok (i, summary) ∧
      Repository.ofStore (some i) m = .ok indexed ∧ indexed.Agrees memory := by
  obtain ⟨memory, hmemory, hin⟩ := Repository.ofRuleSet_represents s m
  obtain ⟨i, summary, indexed, hcompile, hread, hout⟩ := Repository.compileInto_represents hs.wellFormed m
  exact ⟨memory, i, summary, indexed, hmemory, hcompile, hread, hout.agrees hin⟩

/-- a double negation gives way to what is negated twice -/
def doubleNegation : Rule := ⟨.neg (.neg (.var ⟨1, by decide, by decide⟩)), .var ⟨1, by decide, by decide⟩⟩

theorem compiled_agrees_doubleNegation :
    (RuleSet.build [.rule doubleNegation]).Built ∧ ∃ memory i summary indexed,
      Repository.ofRuleSet (.build [.rule doubleNegation]) .byInstance = .ok memory ∧
      (RuleSet.build [.rule doubleNegation]).source.compileInto none = .ok (i, summary) ∧
      Repository.ofStore (some i) .byInstance = .ok indexed ∧ indexed.Agrees memory :=
  ⟨.calls _, compiled_agrees (.calls _) .byInstance⟩

end ClauseFold
