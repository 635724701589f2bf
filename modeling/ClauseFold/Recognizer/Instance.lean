/-
The search for a pattern that a formula is an instance of: one whose variables can be replaced by formulas, the same
variable by the same formula throughout, so that the formula comes out.

The search is a visitor of the trie of patterns. It keeps a stack of the subformulas that are still to be matched. A
constant or a connective has to agree with the subformula on top, which gives way to its operands. The digits of a
variable change nothing; its closing dot binds the variable to the subformula on top, or compares it with what the
variable is bound to. A pattern is found at a node with a value where nothing is left to match. Each visit notes what
it needs to undo its step, and the way out of the node undoes it, so that each branch begins where its parent ended.

Children come in order of symbol, so the pattern found first is the one with the least encoding among those that match.
-/
import ClauseFold.Recognizer.Basic
import ClauseFold.Formula.Semantics

namespace ClauseFold

/-- a pattern, with the formulas that have to be put for its variables, in the order in which they were bound -/
structure Match where
  pattern : Formula
  bindings : Bindings
deriving DecidableEq, Repr

def Match.instantiate (m : Match) (f : Formula) : Formula := f.substitute m.bindings

namespace InstanceSearch

structure Undo where
  /-- how many subformulas waited before the step -/
  pending : Nat
  /-- the subformula that the step took -/
  taken : Option Formula
  /-- how many variables were bound before the step -/
  bound : Nat
deriving DecidableEq, Repr

structure State where
  /-- the subformulas still to be matched, the next one last -/
  pending : Array Formula
  /-- for each node entered and not yet left, what undoes its step, the latest first -/
  undo : List Undo
  bindings : Array (Nat × Formula)
  found : Option Match

def start (f : Formula) : State := ⟨#[f], [], #[], none⟩

/-- the number of the variable that a key closes, by the key without its last symbol, the latest symbol first -/
def closedId (path : List Char) : Option Nat := Text.readDigits Text.idBound (path.takeWhile Char.isDigit).reverse

/-- matches the symbol `c` with the subformula `f` taken from the stack; `path` is the key before the symbol -/
def matchTaken (path : List Char) (c : Char) (f : Formula) (s : State) : Bool × State :=
  if c = symbolEnd then
    match closedId path with
    | none => (false, s)
    | some id =>
      match s.bindings.find? fun b => b.1 = id with
      | some b => (b.2 = f, s)
      | none => (true, { s with bindings := s.bindings.push (id, f) })
  else
    match f with
    | .const b => (c = Formula.constSymbol b, s)
    | .neg g => if c = symbolNeg then (true, { s with pending := s.pending.push g }) else (false, s)
    | .imp a b => if c = symbolImp then (true, { s with pending := (s.pending.push b).push a }) else (false, s)
    | .var _ => (false, s)

/-- matches the symbol `c` after the key `path`, having noted what undoes that -/
def step (path : List Char) (c : Char) (s : State) : Bool × State :=
  match s.pending.back? with
  | none => (false, { s with undo := ⟨s.pending.size, none, s.bindings.size⟩ :: s.undo })
  | some f =>
    if c.isDigit then (true, { s with undo := ⟨s.pending.size, none, s.bindings.size⟩ :: s.undo })
    else
      let noted := ⟨s.pending.size, some f, s.bindings.size⟩ :: s.undo
      matchTaken path c f { s with pending := s.pending.pop, undo := noted }

def visit (path : List Char) (n : Node Formula) (s : State) : Bool × State :=
  match path with
  | [] => (false, { s with undo := ⟨s.pending.size, none, s.bindings.size⟩ :: s.undo })
  | c :: before =>
    match step before c s with
    | (false, s') => (false, s')
    | (true, s') =>
      match n.value with
      | none => (true, s')
      | some pattern =>
        if s'.pending.isEmpty then (false, { s' with found := some ⟨pattern, s'.bindings.toList⟩ }) else (true, s')

def leave (s : State) : State :=
  match s.undo with
  | [] => s
  | u :: rest =>
    let pending := match u.taken with
      | none => s.pending
      | some f => (s.pending.shrink (u.pending - 1)).push f
    { s with pending := pending, undo := rest, bindings := s.bindings.shrink u.bound }

def visitor : Visitor State Formula where
  visit := visit
  leave := fun _ _ s => leave s
  isComplete := fun s => s.found.isSome

end InstanceSearch

/-- the first pattern, in order of encoding, that a formula is an instance of -/
def Recognizer.findInstance? (r : Recognizer) (f : Formula) : Option Match :=
  (r.trie.accept InstanceSearch.visitor (InstanceSearch.start f)).found

end ClauseFold
