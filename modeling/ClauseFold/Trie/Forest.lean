/-
The tree of a trie, seen downwards. A forest is what hangs below a node: its children in ascending order of symbol,
each with the forest below it. No node holds its key; the key is the symbols on the way to the node.
-/
import ClauseFold.Error

namespace ClauseFold

/-- names a node of a trie for ever -/
abbrev Handle := Nat

/-- the nodes below a node: a child with its symbol, its handle, its value and what is below it, and then the siblings
that come after it -/
inductive Forest (α : Type) where
  | nil
  | node (symbol : Char) (handle : Handle) (value : Option α) (children siblings : Forest α)
deriving DecidableEq, Repr

/-- a node without the way to it -/
structure Node (α : Type) where
  handle : Handle
  value : Option α
  children : Forest α
deriving DecidableEq, Repr

namespace Forest

variable {α : Type}

def child? (c : Char) : Forest α → Option (Node α)
  | nil => none
  | node d h v ch sib => if c = d then some ⟨h, v, ch⟩ else sib.child? c

def symbols : Forest α → List Char
  | nil => []
  | node d _ _ _ sib => d :: sib.symbols

def nodeCount : Forest α → Nat
  | nil => 0
  | node _ _ _ ch sib => ch.nodeCount + sib.nodeCount + 1

/-- the keys that hold a value, with the value, in order of key; `path` is the way here, last symbol first -/
def entriesFrom (path : List Char) : Forest α → List (List Char × α)
  | nil => []
  | node c _ v ch sib =>
    (v.map fun a => ((c :: path).reverse, a)).toList ++ (ch.entriesFrom (c :: path) ++ sib.entriesFrom path)

/-- a new branch with `value` at its end, ahead of the siblings `sib`; handles from `next` on -/
def branch (value : Option α) (next : Handle) (c : Char) (cs : List Char) (sib : Forest α) : Forest α :=
  match cs with
  | [] => node c next value nil sib
  | d :: ds => node c next none (branch value (next + 1) d ds nil) sib

/-- changes the value at a key, with new nodes where the way there is missing; they get the handles from `next` on -/
def insert (update : Option α → Option α) (next : Handle) : Forest α → List Char → Forest α
  | f, [] => f
  | nil, c :: cs => branch (update none) next c cs nil
  | node d h v ch sib, c :: cs =>
    if c = d then node d h (if cs.isEmpty then update v else v) (ch.insert update next cs) sib
    else if c < d then branch (update none) next c cs (node d h v ch sib)
    else node d h v ch (sib.insert update next (c :: cs))

/-- the last node on the way along a key, from the node `here` on, and the symbols for which there is no node -/
def reach (here : Handle) : Forest α → List Char → Handle × List Char
  | _, [] => (here, [])
  | nil, cs => (here, cs)
  | node d h _ ch sib, c :: cs => if c = d then ch.reach h cs else sib.reach here (c :: cs)

/-- a child ahead of its siblings, unless it has neither a value nor children -/
def keep (symbol : Char) (handle : Handle) (value : Option α) (children siblings : Forest α) : Forest α :=
  match value, children with
  | none, nil => siblings
  | _, _ => node symbol handle value children siblings

/-- takes the value at a key away, and the nodes on the way to it that are of no more use -/
def erase : Forest α → List Char → Forest α
  | f, [] => f
  | nil, _ => nil
  | node d h v ch sib, c :: cs =>
    if c = d then keep d h (if cs.isEmpty then none else v) (ch.erase cs) sib
    else node d h v ch (sib.erase (c :: cs))

end Forest

namespace Node

variable {α : Type}

def child? (n : Node α) (c : Char) : Option (Node α) := n.children.child? c

/-- the node at the end of a way -/
def descend? (n : Node α) : List Char → Option (Node α)
  | [] => some n
  | c :: cs => (n.child? c).bind fun m => m.descend? cs

end Node

end ClauseFold
