/-
Repositories read from an index. The canonical rows are read by descending id, and then the node rows by ascending id,
so that the parent of a node has been read before the node. Each row is checked as it is read; the first that is wrong
ends the reading. Of several rows that spell one pattern the last one counts.
-/
import ClauseFold.Index.Basic
import ClauseFold.Repository.Basic

namespace ClauseFold.IndexReader

/-- what the canonical rows say: the formula of each id, and the formulas by encoding -/
structure Canonical where
  byId : Std.ExtTreeMap Int Formula
  byEncoding : ByEncoding Formula

def readCanonical (c : Canonical) (row : Int × List Char) : Except Error Canonical := do
  let f ← Formula.read? row.2
  return ⟨c.byId.insert row.1 f, c.byEncoding.insert row.2 f⟩

/-- what the node rows say: the trie of patterns, the node of each id, and what replaces the pattern at a node -/
structure Nodes where
  trie : Trie Formula
  byId : Std.ExtTreeMap Int Handle
  replacements : Std.ExtTreeMap Handle Formula

/-- the node that the parent id of a row stands for -/
def parentOf (s : Nodes) (id : Int) (row : NodeRow) : Except IndexError Handle :=
  if row.parent = noId then .ok s.trie.root
  else
    match s.byId[row.parent]? with
    | some h => .ok h
    | none => .error (.orphan id row.parent)

/-- makes the node of a row, and tells its handle -/
def addNode (s : Nodes) (id : Int) (row : NodeRow) : Except Error (Handle × Nodes) :=
  match row.symbol with
  | [c] => do
    let parent ← (parentOf s id row).mapError .index
    let (h, trie) ← (s.trie.insertChild parent c).mapError .trie
    return (h, { s with trie := trie, byId := s.byId.insert id h })
  | _ => .error (.index (.symbol id))

/-- stores the pattern that ends at a node, and what replaces it -/
def addPattern (canonical : Std.ExtTreeMap Int Formula) (s : Nodes) (h : Handle) (id : Int) (row : NodeRow) :
    Except Error Nodes :=
  if row.canonical = noId then .ok s
  else
    match canonical[row.canonical]? with
    | none => .error (.index (.unknownCanonicalId id row.canonical))
    | some replacement =>
      match s.trie.keyOf? h with
      | none => .error (.trie .unknownNode)
      | some key => do
        let pattern ← Formula.read? key
        let (_, trie) ← (s.trie.setValue h pattern).mapError .trie
        return { s with trie := trie, replacements := s.replacements.insert h replacement }

def readNode (canonical : Std.ExtTreeMap Int Formula) (s : Nodes) (row : Int × NodeRow) : Except Error Nodes := do
  let (h, s') ← addNode s row.1 row.2
  addPattern canonical s' h row.1 row.2

/-- what replaces a pattern, by the node where it ends -/
def canonicalOf (r : Recognizer) (replacements : Std.ExtTreeMap Handle Formula) (f : Formula) : Option Formula :=
  (r.find? f).bind fun n => replacements[n.handle]?

end ClauseFold.IndexReader

namespace ClauseFold.Repository

def ofIndex (i : Index) (m : Matching) : Except Error Repository := do
  let canonical ← i.canonicalRows.foldlM IndexReader.readCanonical ⟨∅, ∅⟩
  let nodes ← i.nodeRows.foldlM (IndexReader.readNode canonical.byId) ⟨Trie.empty, ∅, ∅⟩
  let r : Recognizer := ⟨nodes.trie⟩
  return ⟨r, ⟨canonical.byEncoding.values, r.trie.values, IndexReader.canonicalOf r nodes.replacements⟩, m⟩

/-- a repository of the rules in a store, which has to have relations -/
def ofStore (store : Option Index) (m : Matching) : Except Error Repository :=
  match store with
  | none => .error (.index (.store .noRelations))
  | some i => ofIndex i m

end ClauseFold.Repository
