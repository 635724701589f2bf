/-
A recognizer: a trie of formulas, each stored under its encoding. Looking for a formula goes down the trie along its
encoding, which is made only as far as the trie follows.

Main statement:
- `locate_eq_descend?`: going down along a formula is going down along its encoding.
-/
import ClauseFold.Trie.Walk

namespace ClauseFold

/-- formulas by encoding -/
structure Recognizer where
  trie : Trie Formula

/-- the node where the encoding of a formula ends, from a node on -/
def Node.locate {α : Type} (n : Node α) : Formula → Option (Node α)
  | .const b => n.child? (Formula.constSymbol b)
  | .var v => n.descend? (Formula.varSymbols v)
  | .neg f => (n.child? symbolNeg).bind fun m => m.locate f
  | .imp a c => ((n.child? symbolImp).bind fun m => m.locate a).bind fun m => m.locate c

namespace Recognizer

def empty : Recognizer := ⟨Trie.empty⟩

/-- adds a formula and tells which formula stood under its encoding before -/
def add (r : Recognizer) (f : Formula) : Except TrieError (Option Formula × Recognizer) :=
  (r.trie.put f.encode f).map fun p => (p.1, ⟨p.2⟩)

def addAll (r : Recognizer) (fs : List Formula) : Except TrieError Recognizer :=
  fs.foldlM (fun r f => (r.add f).map fun p => p.2) r

def size (r : Recognizer) : Nat := r.trie.size

/-- the node of a formula that is stored -/
def find? (r : Recognizer) (f : Formula) : Option (Node Formula) :=
  (r.trie.rootNode.locate f).filter fun n => n.value.isSome

end Recognizer

theorem Node.descend?_append {α : Type} (n : Node α) (a b : List Char) :
    n.descend? (a ++ b) = (n.descend? a).bind fun m => m.descend? b := by
  induction a generalizing n with
  | nil => rfl
  | cons c cs ih =>
    simp only [List.cons_append, descend?]
    cases n.child? c with
    | none => rfl
    | some m => exact ih m

theorem Node.locate_eq_descend? {α : Type} (n : Node α) (f : Formula) : n.locate f = n.descend? f.encode := by
  induction f generalizing n with
  | const b =>
    rw [locate, Formula.encode_const, descend?]
    cases n.child? (Formula.constSymbol b) with
    | none => rfl
    | some m => rfl
  | var v => rw [locate, Formula.encode_var]
  | neg f ih =>
    rw [locate, Formula.encode_neg, descend?]
    simp only [ih]
  | imp a c iha ihc =>
    rw [locate, Formula.encode_imp, descend?]
    simp only [iha, ihc, descend?_append, Option.bind_assoc]

end ClauseFold
