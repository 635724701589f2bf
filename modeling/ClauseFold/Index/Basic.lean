/-
An index: what a source of rules is compiled into. It holds two relations, each by id. A canonical row has a negative
id and an encoding. A node row stands for a node of the trie of patterns: it has a positive id, the symbol of the
node, the id of its parent, and the id of the canonical row that replaces the pattern which ends there. Where there is
no parent but the root, or no pattern, the id is zero.

What reads an index takes any rows, not only those that a compilation writes: texts of any length, and ids that lead
nowhere.
-/
import ClauseFold.Rules.Set

namespace ClauseFold

/-- the id that stands for the root as a parent, and for no canonical row -/
def noId : Int := 0

/-- a row of the node relation, without its id -/
structure NodeRow where
  symbol : List Char
  parent : Int
  canonical : Int
deriving DecidableEq, Repr

structure Index where
  canonical : Std.ExtTreeMap Int (List Char)
  nodes : Std.ExtTreeMap Int NodeRow

namespace Index

def empty : Index := ⟨∅, ∅⟩

/-- the canonical rows as they are read, by descending id -/
def canonicalRows (i : Index) : List (Int × List Char) := i.canonical.toList.reverse

/-- the node rows as they are read, by ascending id -/
def nodeRows (i : Index) : List (Int × NodeRow) := i.nodes.toList

/-- a further canonical row, under an id of its own -/
def insertCanonical (i : Index) (row : Int × List Char) : Except StoreFailure Index :=
  if row.1 ∈ i.canonical then .error .canonicalIdTwice else .ok { i with canonical := i.canonical.insert row.1 row.2 }

/-- a further node row, under an id of its own -/
def insertNode (i : Index) (row : Int × NodeRow) : Except StoreFailure Index :=
  if row.1 ∈ i.nodes then .error .nodeIdTwice else .ok { i with nodes := i.nodes.insert row.1 row.2 }

def ofRows (canonical : List (Int × List Char)) (nodes : List (Int × NodeRow)) : Except StoreFailure Index := do
  let i ← canonical.foldlM insertCanonical empty
  nodes.foldlM insertNode i

end Index

/-! ## Ids of canonical formulas -/

/-- the ids of canonical formulas, by encoding -/
abbrev CanonicalIds := ByEncoding Int

/-- ids from minus one downwards, in order of encoding; repetitions share an id -/
def CanonicalIds.assign (encodings : List (List Char)) : CanonicalIds :=
  .ofList ((Std.ExtTreeSet.ofList encodings).toList.zipIdx.map fun p => (p.1, -(Int.ofNat p.2) - 1))

end ClauseFold
