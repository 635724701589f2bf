/-
Walks of a trie, depth first and in order of symbol, by a visitor with a state of its own. The walk keeps a stack of
frames: the nodes that were entered and not yet left, each with the children that are still to come. Beside the stack
goes the key of the node on top, which grows by a symbol on the way into a node and loses it on the way out. Before each
child the visitor is asked whether it is done; if so, no further child is visited, and the nodes on the stack are left.

In an arena a walk looks up each node by its handle, and the handles of the children that are still to come wait on the
stack. Nothing in an arena as such keeps a walk from going on for ever, and so its steps are given one by one.
-/
import ClauseFold.Trie.Arena

namespace ClauseFold

/-- what a walk calls; the first argument of `visit` and `leave` is the key of the node, last symbol first -/
structure Visitor (σ α : Type) where
  /-- on the way into a node; whether to go on to its children -/
  visit : List Char → Node α → σ → Bool × σ
  /-- on the way out of a node, once for each visit -/
  leave : List Char → Node α → σ → σ
  /-- whether the walk can end -/
  isComplete : σ → Bool

/-- a node that was entered, with its children that are still to come -/
structure Frame (α : Type) where
  node : Node α
  rest : Forest α

namespace Walk

variable {σ α : Type}

/-- the steps that a stack of frames can still take -/
def weight : List (Frame α) → Nat
  | [] => 0
  | fr :: stack => 2 * fr.rest.nodeCount + 1 + weight stack

/-- the way out of a node; the root is never entered and so not left -/
def depart (v : Visitor σ α) (key : List Char) (node : Node α) (s : σ) : σ :=
  if key.isEmpty then s else v.leave key node s

/-- walks on from a stack of frames; `key` is the key of the node on top, last symbol first -/
def run (v : Visitor σ α) : List (Frame α) → List Char → σ → σ
  | [], _, s => s
  | ⟨node, .nil⟩ :: stack, key, s => run v stack key.tail (depart v key node s)
  | ⟨node, .node c h value children siblings⟩ :: stack, key, s =>
    if v.isComplete s then run v stack key.tail (depart v key node s)
    else
      match v.visit (c :: key) ⟨h, value, children⟩ s with
      | (true, s') => run v (⟨⟨h, value, children⟩, children⟩ :: ⟨node, siblings⟩ :: stack) (c :: key) s'
      | (false, s') => run v (⟨node, siblings⟩ :: stack) key (v.leave (c :: key) ⟨h, value, children⟩ s')
termination_by stack => weight stack
decreasing_by
  all_goals simp only [weight, Forest.nodeCount]; omega

end Walk

def Trie.accept {σ α : Type} (t : Trie α) (v : Visitor σ α) (s : σ) : σ := Walk.run v [⟨t.rootNode, t.forest⟩] [] s

/-! ## Walks of an arena -/

/-- what a walk of an arena calls; of a node it tells the handle -/
structure HandleVisitor (σ : Type) where
  visit : List Char → Handle → σ → Bool × σ
  leave : List Char → Handle → σ → σ
  isComplete : σ → Bool

/-- the visitor of a trie that asks a node for its handle only -/
def HandleVisitor.onNodes {σ α : Type} (w : HandleVisitor σ) : Visitor σ α where
  visit := fun key n s => w.visit key n.handle s
  leave := fun key n s => w.leave key n.handle s
  isComplete := w.isComplete

structure ArenaWalk (σ : Type) where
  /-- the nodes that were entered and not yet left, each with the handles of its children that are still to come -/
  stack : List (Handle × List Handle)
  /-- the key of the node on top, last symbol first -/
  key : List Char
  state : σ

namespace Arena

variable {σ α : Type}

/-- the next step of a walk: to the next child of the node on top, or out of that node. There is none when the stack is
empty, or at a handle that is stale -/
def walkStep (a : Arena α) (w : HandleVisitor σ) (walk : ArenaWalk σ) : Option (ArenaWalk σ) :=
  match walk.stack with
  | [] => none
  | (here, rest) :: stack =>
    match if w.isComplete walk.state then [] else rest with
    | [] =>
      if here = a.root then some ⟨stack, walk.key, walk.state⟩
      else some ⟨stack, walk.key.tail, w.leave walk.key here walk.state⟩
    | child :: rest =>
      a.cells[child]?.map fun n =>
        let key := n.symbol.toList ++ walk.key
        match w.visit key child walk.state with
        | (true, s) => ⟨(child, n.children.values) :: (here, rest) :: stack, key, s⟩
        | (false, s) => ⟨(here, rest) :: stack, key.tail, w.leave key child s⟩

def walkStart (a : Arena α) (s : σ) : ArenaWalk σ :=
  ⟨[(a.root, (a.cells[a.root]?.map fun n => n.children.values).getD [])], [], s⟩

end Arena

end ClauseFold
