/-
How a trie lies in memory: an arena of nodes, each under its handle, that name each other by handle. A node knows its
children by symbol; it notes its own symbol, its depth and its parent, so that the way up can be read. The links in both
directions are kept by hand: a new node is noted with its parent, and a node that is dropped is struck off there.

Handles count up and are never given twice. A parent is made before its children, so the way up goes to smaller handles.

The operations are those of `Trie`, which has no links to keep. A call that is refused leaves the arena as it is then.
-/
import Std.Data.ExtTreeMap
import ClauseFold.Trie.Basic

namespace ClauseFold

/-- a node as it lies in an arena -/
structure Cell (α : Type) where
  symbol : Option Char
  depth : Nat
  parent : Option Handle
  value : Option α
  children : Std.ExtTreeMap Char Handle

/-- the nodes of a trie in memory -/
structure Arena (α : Type) where
  cells : Std.ExtTreeMap Handle (Cell α)
  /-- the handle that is given next -/
  next : Handle
  root : Handle
  /-- how many keys hold a value -/
  size : Nat

/-- a node without a value and without children -/
def Cell.fresh {α : Type} (parent : Option Handle) (symbol : Option Char) (depth : Nat) : Cell α :=
  ⟨symbol, depth, parent, none, ∅⟩

namespace Arena

variable {α : Type}

def empty : Arena α := ⟨(∅ : Std.ExtTreeMap Handle (Cell α)).insert 0 (.fresh none none 0), 1, 0, 0⟩

/-! ## Ways down and up -/

def child? (a : Arena α) (h : Handle) (symbol : Char) : Option Handle := a.cells[h]?.bind fun n => n.children[symbol]?

/-- the node at a key, with or without a value -/
def node? (a : Arena α) (key : List Char) : Option Handle := key.foldlM a.child? a.root

def get? (a : Arena α) (key : List Char) : Option α := (a.node? key).bind fun h => a.cells[h]?.bind fun n => n.value

def ancestors (a : Arena α) (h : Handle) : List Handle :=
  match a.cells[h]?.bind fun n => n.parent with
  | some parent => if parent < h then parent :: a.ancestors parent else []
  | none => []
termination_by h

def keyOf? (a : Arena α) (h : Handle) : Option (List Char) :=
  a.cells[h]?.map fun _ => ((h :: a.ancestors h).filterMap fun g => a.cells[g]?.bind fun n => n.symbol).reverse

/-! ## Changes -/

/-- makes a node and notes it with its parent -/
def make (a : Arena α) (parent : Handle) (symbol : Char) (depth : Nat) : Arena α :=
  let made := a.cells.insert a.next (.fresh (some parent) (some symbol) depth)
  { a with
    cells := made.modify parent fun p => { p with children := p.children.insert symbol a.next }
    next := a.next + 1 }

def insertChild (a : Arena α) (parent : Handle) (symbol : Char) : Except TrieError Handle × Arena α :=
  match a.cells[parent]? with
  | none => (.error .unknownNode, a)
  | some p =>
    match p.children[symbol]? with
    | some child => (.ok child, a)
    | none => (.ok a.next, a.make parent symbol (p.depth + 1))

/-- changes the value of a node, and the count of values -/
def write (a : Arena α) (h : Handle) (value : Option α) (size : Nat) : Arena α :=
  { a with cells := a.cells.modify h fun n => { n with value := value }, size := size }

def setValue (a : Arena α) (h : Handle) (value : α) : Except TrieError (Option α) × Arena α :=
  if h = a.root then (.error .emptyKey, a)
  else
    match a.cells[h]? with
    | none => (.error .unknownNode, a)
    | some n => (.ok n.value, a.write h (some value) (if n.value.isSome then a.size else a.size + 1))

/-- the node at the end of a way from the node `here` on, made if it is missing -/
def insertWay (a : Arena α) (here : Handle) : List Char → Except TrieError Handle × Arena α
  | [] => (.ok here, a)
  | c :: cs =>
    match a.insertChild here c with
    | (.ok child, a') => a'.insertWay child cs
    | (.error e, a') => (.error e, a')

def put (a : Arena α) (key : List Char) (value : α) : Except TrieError (Option α) × Arena α :=
  if key.isEmpty then (.error .emptyKey, a)
  else
    match a.insertWay a.root key with
    | (.ok h, a') => a'.setValue h value
    | (.error e, a') => (.error e, a')

/-- drops a node and strikes it off the children of its parent -/
def drop (a : Arena α) (h parent : Handle) (symbol : Char) : Arena α :=
  { a with
    cells := (a.cells.erase h).modify parent fun p => { p with children := p.children.erase symbol } }

theorem size_erase_lt {cells : Std.ExtTreeMap Handle (Cell α)} {h : Handle} {n : Cell α} (hn : cells[h]? = some n) :
    (cells.erase h).size < cells.size := by
  have hmem : h ∈ cells := by
    rw [Std.ExtTreeMap.mem_iff_isSome_getElem?, hn]
    rfl
  have hpos : 0 < cells.size := by
    rw [Nat.pos_iff_ne_zero]
    intro hzero
    rw [Std.ExtTreeMap.eq_empty_iff_size_eq_zero.mpr hzero] at hmem
    exact Std.ExtTreeMap.not_mem_empty hmem
  rw [Std.ExtTreeMap.size_erase, if_pos (Std.ExtTreeMap.contains_iff_mem.mpr hmem)]
  exact Nat.sub_lt hpos Nat.one_pos

/-- drops a node, unless it is the root or of some use, and then goes on with its parent -/
def prune (a : Arena α) (h : Handle) : Arena α :=
  if h = a.root then a
  else
    match _found : a.cells[h]? with
    | none => a
    | some n =>
      if n.value.isSome || !n.children.isEmpty then a
      else
        match n.parent, n.symbol with
        | some parent, some symbol => (a.drop h parent symbol).prune parent
        | _, _ => a
termination_by a.cells.size
decreasing_by
  rw [drop, Std.ExtTreeMap.size_modify]
  exact size_erase_lt _found

def remove (a : Arena α) (key : List Char) : Option α × Arena α :=
  match a.node? key with
  | none => (none, a)
  | some h =>
    match a.cells[h]?.bind fun n => n.value with
    | none => (none, a)
    | some value => (some value, (a.write h none (a.size - 1)).prune h)

def clear (a : Arena α) : Arena α :=
  ⟨(∅ : Std.ExtTreeMap Handle (Cell α)).insert a.next (.fresh none none 0), a.next + 1, a.next, 0⟩

end Arena

end ClauseFold
