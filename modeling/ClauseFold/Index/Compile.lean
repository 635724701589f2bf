/-
Compilation of a source of rules into an index. The patterns go into a trie first, which is then walked: each node gets
the next id, from one, so a parent has a smaller id than what is below it. Compilation is all or nothing: an error
leaves what was there as it was.
-/
import ClauseFold.Index.Basic
import ClauseFold.Recognizer.Basic

namespace ClauseFold

structure IndexSummary where
  canonical : Nat
  nodes : Nat
  rules : Nat
deriving DecidableEq, Repr

namespace NodeWriter

/-- where the writing of node rows stands -/
structure State where
  rows : Std.ExtTreeMap Int NodeRow
  /-- the ids of the nodes that have a row -/
  ids : Std.ExtTreeMap Handle Int
  next : Int
  rules : Nat
  /-- what ended the writing -/
  error : Option Error

def start : State := ⟨∅, ∅, 1, 0, none⟩

def parentId (t : Trie Formula) (s : State) (n : Node Formula) : Except IndexError Int :=
  match t.parent? n.handle with
  | none => .ok noId
  | some parent =>
    if parent = t.root then .ok noId
    else
      match s.ids[parent]? with
      | some id => .ok id
      | none => .error (.orphan s.next noId)

/-- the id of what replaces a pattern -/
def replacementId (source : RuleSource) (ids : CanonicalIds) (key : List Char) (pattern : Formula) :
    Except IndexError Int :=
  if (Formula.decode? key).toOption = some pattern then
    match source.canonicalOf pattern with
    | none => .error (.noRule key)
    | some c =>
      match ids[c.encode]? with
      | none => .error (.missingCanonical c)
      | some id => .ok id
  else .error (.encodingCollision key)

def write (source : RuleSource) (ids : CanonicalIds) (t : Trie Formula) (path : List Char) (n : Node Formula)
    (s : State) : Except Error State :=
  match path with
  | [] => .error (.trie .unknownNode)
  | symbol :: _ => do
    let parent ← (parentId t s n).mapError .index
    let canonical ← match n.value with
      | none => pure noId
      | some pattern => (replacementId source ids path.reverse pattern).mapError .index
    return { s with
      rows := s.rows.insert s.next ⟨[symbol], parent, canonical⟩
      ids := s.ids.insert n.handle s.next
      next := s.next + 1
      rules := if n.value.isSome then s.rules + 1 else s.rules }

/-- the writing of node rows as a visitor; the first error ends it -/
def visitor (source : RuleSource) (ids : CanonicalIds) (t : Trie Formula) : Visitor State Formula where
  visit := fun path n s =>
    match write source ids t path n s with
    | .ok s' => (true, s')
    | .error e => (false, { s with error := some e })
  leave := fun _ _ s => s
  isComplete := fun s => s.error.isSome

end NodeWriter

namespace RuleSource

def compileNodes (source : RuleSource) (ids : CanonicalIds) (r : Recognizer) : Except Error NodeWriter.State :=
  let written := r.trie.accept (NodeWriter.visitor source ids r.trie) NodeWriter.start
  match written.error with
  | some e => .error e
  | none => .ok written

def compileInto (source : RuleSource) (store : Option Index) : Except Error (Index × IndexSummary) := do
  let r ← (Recognizer.empty.addAll source.patterns).mapError .trie
  let ids := CanonicalIds.assign (source.canonical.map Formula.encode)
  if store.isSome then .error (.index (.store (.nameTaken .canonical .table)))
  else do
    let written ← source.compileNodes ids r
    let rows := ids.toList.map fun p => (p.2, p.1)
    return (⟨.ofList rows, written.rows⟩, ⟨ids.size, written.ids.size, written.rules⟩)

end RuleSource

end ClauseFold
