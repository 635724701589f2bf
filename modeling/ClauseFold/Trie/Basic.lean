/-
A trie from keys, which are lists of symbols, to values. It has two views that have to agree: downwards the forest of
nodes with their children and values, upwards the origin of each handle, which says of which node and under which
symbol it was made. A handle is never given twice; it is live as long as the node that it was made for is in the
forest, and what is removed or cleared stays stale for good.

The root has the empty key and never holds a value.
-/
import ClauseFold.Trie.Forest

namespace ClauseFold

/-- where a node was made; it does not change while the node lives -/
inductive Origin where
  | root
  | child (parent : Handle) (symbol : Char) (depth : Nat)
deriving DecidableEq, Repr

def Origin.depth : Origin → Nat
  | root => 0
  | child _ _ depth => depth

structure Trie (α : Type) where
  root : Handle
  /-- what is below the root -/
  forest : Forest α
  /-- the origin of every handle that was ever given -/
  origins : Array Origin
  /-- how many keys hold a value -/
  size : Nat

namespace Trie

variable {α : Type}

def empty : Trie α := ⟨0, .nil, #[.root], 0⟩

/-! ## Downwards -/

def rootNode (t : Trie α) : Node α := ⟨t.root, none, t.forest⟩

/-- the node at a key, with or without a value -/
def node? (t : Trie α) (key : List Char) : Option (Node α) := t.rootNode.descend? key

def get? (t : Trie α) (key : List Char) : Option α := (t.node? key).bind fun n => n.value

def contains (t : Trie α) (key : List Char) : Bool := (t.get? key).isSome

def isEmpty (t : Trie α) : Bool := t.size == 0

/-- the keys that hold a value, with the value, in order of key -/
def entries (t : Trie α) : List (List Char × α) := t.forest.entriesFrom []

def keys (t : Trie α) : List (List Char) := t.entries.map fun e => e.1

def values (t : Trie α) : List α := t.entries.map fun e => e.2

/-- the number of nodes, the root included -/
def nodeCount (t : Trie α) : Nat := t.forest.nodeCount + 1

/-! ## Upwards -/

/-- the symbols from a node up to the root -/
def pathFrom (origins : Array Origin) (h : Handle) : List Char :=
  match origins[h]? with
  | some (.child parent symbol _) => if parent < h then symbol :: pathFrom origins parent else []
  | _ => []
termination_by h

/-- the nodes above a node, nearest first, up to the root -/
def ancestorsFrom (origins : Array Origin) (h : Handle) : List Handle :=
  match origins[h]? with
  | some (.child parent _ _) => if parent < h then parent :: ancestorsFrom origins parent else []
  | _ => []
termination_by h

/-- the key that a handle was made for, last symbol first -/
def path (t : Trie α) (h : Handle) : List Char := pathFrom t.origins h

def at? (t : Trie α) (h : Handle) : Option (Node α) := (t.node? (t.path h).reverse).filter fun n => n.handle = h

def keyOf? (t : Trie α) (h : Handle) : Option (List Char) := (t.at? h).map fun _ => (t.path h).reverse

def depth (t : Trie α) (h : Handle) : Nat :=
  match t.origins[h]? with
  | some o => o.depth
  | none => 0

/-- the symbol of a handle, unless it is a root -/
def symbol? (t : Trie α) (h : Handle) : Option Char :=
  match t.origins[h]? with
  | some (.child _ symbol _) => some symbol
  | _ => none

/-- the parent of a handle, unless it is a root -/
def parent? (t : Trie α) (h : Handle) : Option Handle :=
  match t.origins[h]? with
  | some (.child parent _ _) => some parent
  | _ => none

/-- the nodes above the node of a handle, nearest first, up to the root -/
def ancestors (t : Trie α) (h : Handle) : List Handle := ancestorsFrom t.origins h

/-! ## Changes -/

/-- the origins of a branch of new nodes below `parent` -/
def originsOfBranch (origins : Array Origin) (parent : Handle) (depth : Nat) : List Char → Array Origin
  | [] => origins
  | c :: cs => originsOfBranch (origins.push (.child parent c (depth + 1))) origins.size (depth + 1) cs

/-- changes the value at a key, with new nodes where the way there is missing -/
def insert (t : Trie α) (update : Option α → Option α) (key : List Char) : Trie α :=
  let reached := t.forest.reach t.root key
  { t with
    forest := t.forest.insert update t.origins.size key
    origins := originsOfBranch t.origins reached.1 (t.depth reached.1) reached.2 }

/-- stores a value at a key, where `previous` is what stands there -/
def store (t : Trie α) (key : List Char) (value : α) (previous : Option α) : Trie α :=
  let stored := t.insert (fun _ => some value) key
  { stored with size := if previous.isSome then t.size else t.size + 1 }

/-- stores a value at a key and tells what stood there before -/
def put (t : Trie α) (key : List Char) (value : α) : Except TrieError (Option α × Trie α) :=
  if key.isEmpty then .error .emptyKey
  else
    let previous := t.get? key
    .ok (previous, t.store key value previous)

/-- the child of a live node, made if it is missing -/
def insertChild (t : Trie α) (parent : Handle) (symbol : Char) : Except TrieError (Handle × Trie α) :=
  match t.at? parent with
  | none => .error .unknownNode
  | some n =>
    match n.child? symbol with
    | some child => .ok (child.handle, t)
    | none => .ok (t.origins.size, t.insert id ((t.path parent).reverse ++ [symbol]))

/-- stores a value at a live node and tells what stood there before -/
def setValue (t : Trie α) (h : Handle) (value : α) : Except TrieError (Option α × Trie α) :=
  if h = t.root then .error .emptyKey
  else
    match t.at? h with
    | none => .error .unknownNode
    | some n => .ok (n.value, t.store (t.path h).reverse value n.value)

/-- takes the value at a key away, with the nodes that are of no more use, and tells what it was -/
def remove (t : Trie α) (key : List Char) : Option α × Trie α :=
  match t.get? key with
  | none => (none, t)
  | some a => (some a, { t with forest := t.forest.erase key, size := t.size - 1 })

/-- takes everything away; the root is a new one -/
def clear (t : Trie α) : Trie α := ⟨t.origins.size, .nil, t.origins.push .root, 0⟩

end Trie

end ClauseFold
