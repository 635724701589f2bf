/-
Repositories: sources of rules that also say what an arbitrary formula is to be replaced with, if any rule applies to
it. A pattern applies to a formula if the two are equal, or if the formula is an instance of it.
-/
import ClauseFold.Recognizer.Instance
import ClauseFold.Rules.Set

namespace ClauseFold

inductive Matching where
  /-- a formula matches a pattern if the two are equal -/
  | exact
  /-- a formula matches a pattern if it is an instance of the pattern -/
  | byInstance
deriving DecidableEq, Repr

namespace Matching

def word : Matching → String
  | exact => "exact"
  | byInstance => "instance"

def ofWord? (w : String) : Option Matching := [exact, byInstance].find? fun m => m.word = w

end Matching

/-- what replaces a formula, by a recognizer of patterns and the canonical formula of each -/
def Recognizer.replacement? (r : Recognizer) (m : Matching) (canonicalOf : Formula → Option Formula) (f : Formula) :
    Option Formula :=
  match m with
  | .exact => (r.find? f).bind fun n => n.value.bind canonicalOf
  | .byInstance => (r.findInstance? f).bind fun found => (canonicalOf found.pattern).map found.instantiate

/-- rules ready for look-ups -/
structure Repository where
  recognizer : Recognizer
  source : RuleSource
  matching : Matching

namespace Repository

def replacement? (r : Repository) (f : Formula) : Option Formula :=
  r.recognizer.replacement? r.matching r.source.canonicalOf f

def ofRuleSet (s : RuleSet) (m : Matching) : Except TrieError Repository :=
  (Recognizer.empty.addAll s.patterns).map fun r => ⟨r, s.source, m⟩

end Repository

end ClauseFold
