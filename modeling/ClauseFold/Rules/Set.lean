/-
Sets of rules. A rule pairs a pattern with the canonical formula that replaces it. A set keeps its rules by the
encoding of their patterns, and its canonical formulas, those of the rules among them, by their own encoding. What may
be added is checked so that no canonical formula is a pattern, no pattern has two canonical formulas, and a canonical
formula has no variable that its pattern lacks.
-/
import Std.Data.ExtTreeMap
import ClauseFold.Error

namespace ClauseFold

/-- things in ascending order of an encoding -/
abbrev ByEncoding (α : Type) := Std.ExtTreeMap (List Char) α

/-- a pattern and what replaces it -/
structure Rule where
  pattern : Formula
  canonical : Formula
deriving DecidableEq, Repr

/-- what rules are read from: the formulas it lists, and the canonical formula of a pattern -/
structure RuleSource where
  canonical : List Formula
  patterns : List Formula
  canonicalOf : Formula → Option Formula

/-- rules by pattern, and canonical formulas -/
structure RuleSet where
  rules : ByEncoding Rule
  canonical : ByEncoding Formula

namespace RuleSet

def empty : RuleSet := ⟨∅, ∅⟩

/-- a call that may change a set and may be refused; what it has changed by then stays changed -/
abbrev Change := ExceptT RuleError (StateM RuleSet) Unit

/-- what a call says, and the set that it leaves -/
def Change.on (c : Change) (s : RuleSet) : Except RuleError Unit × RuleSet := c.run.run s

/-- the set that a call makes, where the set is given up if the call is refused -/
def Change.apply (c : Change) (s : RuleSet) : Except RuleError RuleSet :=
  match c.on s with
  | (.ok (), s') => .ok s'
  | (.error e, _) => .error e

/-- declares a formula canonical -/
def addCanonical (f : Formula) : Change := do
  if f.encode ∈ (← get).rules then throw (.canonicalPattern f)
  modify fun s => { s with canonical := s.canonical.insert f.encode f }

/-- the least variable of the canonical formula that the pattern lacks -/
def unbound? (r : Rule) : Option VarId :=
  let bound := r.pattern.vars
  r.canonical.vars.find? fun v => !bound.contains v

/-- adds a rule; adding it again changes nothing -/
def addRule (r : Rule) : Change := do
  let key := r.pattern.encode
  if r.pattern = r.canonical then throw (.trivial r.pattern)
  if key ∈ (← get).canonical then throw (.canonicalPattern r.pattern)
  if r.canonical.encode ∈ (← get).rules then throw (.canonicalPattern r.canonical)
  if let some v := unbound? r then throw (.unboundVariable r.canonical v)
  if let some present := (← get).rules[key]? then
    if present.canonical = r.canonical then return
    throw (.conflict r.pattern)
  modify fun s => { s with canonical := s.canonical.insert r.canonical.encode r.canonical }
  modify fun s => { s with rules := s.rules.insert key r }

def size (s : RuleSet) : Nat := s.rules.size

/-- the rules in order of pattern -/
def toList (s : RuleSet) : List Rule := s.rules.values

/-- the patterns in order -/
def patterns (s : RuleSet) : List Formula := s.toList.map fun r => r.pattern

/-- the canonical formulas in order -/
def canonicalFormulas (s : RuleSet) : List Formula := s.canonical.values

def canonicalOf (s : RuleSet) (f : Formula) : Option Formula := (s.rules[f.encode]?).map fun r => r.canonical

def source (s : RuleSet) : RuleSource := ⟨s.canonicalFormulas, s.patterns, s.canonicalOf⟩

end RuleSet

end ClauseFold
