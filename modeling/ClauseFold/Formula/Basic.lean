/-
Propositional formulas over negation and implication, with the two truth values as constants. Disjunction and
conjunction are written with negation and implication, and a clause is a disjunction built from the left.

Main statements:
- `traverse_append`: what is on top of a stack is gone through before the rest of it.
- `length_eq_length_preorder`: the length of a formula is the number of its subformulas, repetitions counted.
- `mem_vars`: the variables of a formula are those that stand in it somewhere.
-/
import Std.Data.ExtTreeSet
import ClauseFold.Text.Numeral

namespace ClauseFold

/-- variables are numbered from one, with numbers of 32 bits -/
structure VarId where
  val : Nat
  pos : 0 < val
  lt : val < Text.idBound
deriving DecidableEq, Repr

namespace VarId

/-- the variable of a number, unless the number is zero or too large -/
def ofNat? (n : Nat) : Option VarId := if h : 0 < n ∧ n < Text.idBound then some ⟨n, h.1, h.2⟩ else none

/-- variables are ordered by number -/
instance : Ord VarId := ⟨fun a b => compare a.val b.val⟩

theorem ext {a b : VarId} (h : a.val = b.val) : a = b := by
  cases a; cases b; simp only [mk.injEq]; exact h

theorem compare_def (a b : VarId) : compare a b = compare a.val b.val := rfl

instance : Std.TransOrd VarId where
  eq_swap := by
    intro a b
    rw [compare_def, compare_def]
    exact Std.OrientedOrd.eq_swap
  isLE_trans := by
    intro a b c
    rw [compare_def, compare_def, compare_def]
    exact Std.TransOrd.isLE_trans

instance : Std.LawfulEqOrd VarId where
  compare_self := by
    intro a
    rw [compare_def]
    exact Std.ReflOrd.compare_self
  eq_of_compare := by
    intro a b h
    rw [compare_def] at h
    exact ext (Std.LawfulEqOrd.eq_of_compare h)

end VarId

/-- formulas over negation and implication -/
inductive Formula where
  | const (value : Bool)
  | var (id : VarId)
  | neg (child : Formula)
  | imp (antecedent consequent : Formula)
deriving DecidableEq, Repr

namespace Formula

/-- the number of constants, variables and connectives -/
def length : Formula → Nat
  | const _ => 1
  | var _ => 1
  | neg f => f.length + 1
  | imp a c => a.length + c.length + 1

/-- `l ∨ r`, as `¬ l → r` -/
def disj (l r : Formula) : Formula := imp (neg l) r

/-- `l ∧ r`, as `¬ (l → ¬ r)` -/
def conj (l r : Formula) : Formula := neg (imp l (neg r))

/-- the disjunction of literals, from the left; no literals are no way to be true -/
def clause : List Formula → Formula
  | [] => const false
  | l :: rest => rest.foldl disj l

/-- what a connective stands in front of, in the order in which it is written -/
def operands : Formula → List Formula
  | const _ => []
  | var _ => []
  | neg f => [f]
  | imp a c => [a, c]

def totalLength : List Formula → Nat
  | [] => 0
  | f :: stack => f.length + totalLength stack

theorem totalLength_append (a b : List Formula) : totalLength (a ++ b) = totalLength a + totalLength b := by
  induction a with
  | nil => exact (Nat.zero_add _).symm
  | cons f a ih => rw [List.cons_append, totalLength, totalLength, ih, Nat.add_assoc]

theorem totalLength_operands_lt (f : Formula) : totalLength f.operands < f.length := by
  cases f with
  | const b => exact Nat.zero_lt_one
  | var v => exact Nat.zero_lt_one
  | neg f => exact Nat.lt_succ_self f.length
  | imp a c => exact Nat.lt_succ_self (a.length + c.length)

/-- goes through a stack of formulas: each is taken off, and its operands go on top of what is left -/
def traverse : List Formula → List Formula
  | [] => []
  | f :: stack => f :: traverse (f.operands ++ stack)
termination_by stack => totalLength stack
decreasing_by
  rw [totalLength_append, totalLength]
  exact Nat.add_lt_add_right f.totalLength_operands_lt _

/-- all subformulas, each ahead of its operands, the antecedent of an implication ahead of the consequent -/
def preorder (f : Formula) : List Formula := traverse [f]

/-- the variable that a formula is, if it is one -/
def asVar? : Formula → Option VarId
  | var v => some v
  | _ => none

/-- the truth value that a formula is, if it is one -/
def asConst? : Formula → Option Bool
  | const b => some b
  | _ => none

/-- the variables in the order in which they stand, repetitions kept -/
def occurrences (f : Formula) : List VarId := f.preorder.filterMap asVar?

/-- the variables, each once, in ascending order -/
def vars (f : Formula) : List VarId := (Std.ExtTreeSet.ofList f.occurrences).toList

/-! ## Subformulas and variables -/

/-- what is on top of a stack is gone through before the rest of it -/
theorem traverse_append (top rest : List Formula) : traverse (top ++ rest) = traverse top ++ traverse rest := by
  fun_induction traverse top with
  | case1 => rfl
  | case2 f stack ih => rw [List.cons_append, traverse, ← List.append_assoc, ih, List.cons_append]

theorem preorder_eq (f : Formula) : f.preorder = f :: traverse f.operands := by
  rw [preorder, traverse, List.append_nil]

@[simp] theorem preorder_const (b : Bool) : (const b).preorder = [const b] := by rw [preorder_eq, operands, traverse]

@[simp] theorem preorder_var (v : VarId) : (var v).preorder = [var v] := by rw [preorder_eq, operands, traverse]

@[simp] theorem preorder_neg (f : Formula) : (neg f).preorder = neg f :: f.preorder := preorder_eq (neg f)

@[simp] theorem preorder_imp (a c : Formula) : (imp a c).preorder = imp a c :: (a.preorder ++ c.preorder) := by
  calc (imp a c).preorder
      = imp a c :: traverse ([a] ++ [c]) := preorder_eq (imp a c)
    _ = imp a c :: (a.preorder ++ c.preorder) := by rw [traverse_append]; rfl

theorem length_eq_length_preorder (f : Formula) : f.length = f.preorder.length := by
  induction f with
  | const b => rw [preorder_const]; rfl
  | var v => rw [preorder_var]; rfl
  | neg f ih => rw [preorder_neg, length, List.length_cons, ih]
  | imp a c iha ihc => rw [preorder_imp, length, List.length_cons, List.length_append, iha, ihc]

theorem length_pos (f : Formula) : 0 < f.length := by cases f <;> simp [length]

@[simp] theorem occurrences_const (b : Bool) : (const b).occurrences = [] := by
  unfold occurrences; rw [preorder_const]; rfl

@[simp] theorem occurrences_var (v : VarId) : (var v).occurrences = [v] := by
  unfold occurrences; rw [preorder_var]; rfl

@[simp] theorem occurrences_neg (f : Formula) : (neg f).occurrences = f.occurrences := by
  unfold occurrences; rw [preorder_neg, List.filterMap_cons_none rfl]

@[simp] theorem occurrences_imp (a c : Formula) : (imp a c).occurrences = a.occurrences ++ c.occurrences := by
  unfold occurrences; rw [preorder_imp, List.filterMap_cons_none rfl, List.filterMap_append]

@[simp] theorem mem_vars {v : VarId} {f : Formula} : v ∈ f.vars ↔ v ∈ f.occurrences := by
  unfold vars
  rw [Std.ExtTreeSet.mem_toList, Std.ExtTreeSet.mem_ofList, List.contains_iff_mem]

end Formula

end ClauseFold
