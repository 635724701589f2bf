/-
Positions of subformulas and places in the encoding. The traversal and the writer both go through a formula with a stack;
what is left of a traversal at any point is the traversal of the stack that waits there (`drop_traverse`), and the formula on
top of that stack is the one that comes next. So everything from a position on is the traversal of the formula that stands
there, ahead of the traversal of what waits below it.

Main statement:
- `preorder_aligned`: the subformulas, each with its head token, spell the encoding, and what begins at a position is what
  the formula there is made of.
-/
import ClauseFold.Formula.Encoding

namespace ClauseFold.Formula

/-- what is written of a formula ahead of its operands -/
def headToken : Formula → List Char
  | const b => [constSymbol b]
  | var v => varSymbols v
  | neg _ => [symbolNeg]
  | imp _ _ => [symbolImp]

theorem encode_eq_headToken (f : Formula) : f.encode = f.headToken ++ f.operands.flatMap encode := by
  cases f <;> simp [headToken, operands]

/-- what is gone through is spelled like what waited at the beginning -/
theorem flatMap_headToken_traverse (stack : List Formula) :
    (traverse stack).flatMap headToken = stack.flatMap encode := by
  fun_induction traverse stack with
  | case1 => rfl
  | case2 f stack ih =>
    calc (f :: traverse (f.operands ++ stack)).flatMap headToken
        = f.headToken ++ (f.operands ++ stack).flatMap encode := by rw [List.flatMap_cons, ih]
      _ = f.encode ++ stack.flatMap encode := by rw [List.flatMap_append, ← List.append_assoc, ← encode_eq_headToken]
      _ = (f :: stack).flatMap encode := List.flatMap_cons.symm

/-- what is left from a position on: the traversal of the formula that stands there and of what waits below it -/
theorem drop_traverse (stack : List Formula) (i : Nat) (hi : i < (traverse stack).length) :
    ∃ rest, (traverse stack).drop i = traverse ((traverse stack)[i] :: rest) := by
  induction i generalizing stack with
  | zero =>
    cases stack with
    | nil => rw [traverse] at hi; exact absurd hi (Nat.not_lt_zero 0)
    | cons f stack => exact ⟨stack, by simp only [List.drop_zero, traverse, List.getElem_cons_zero]⟩
  | succ i ih =>
    cases stack with
    | nil => rw [traverse] at hi; exact absurd hi (Nat.not_lt_zero _)
    | cons f stack =>
      have hcons : traverse (f :: stack) = f :: traverse (f.operands ++ stack) := by rw [traverse]
      have htail : i < (traverse (f.operands ++ stack)).length := by
        rw [hcons, List.length_cons] at hi
        exact Nat.lt_of_succ_lt_succ hi
      obtain ⟨rest, hrest⟩ := ih (f.operands ++ stack) htail
      refine ⟨rest, ?_⟩
      simp only [hcons, List.drop_succ_cons, List.getElem_cons_succ]
      exact hrest

/-- the subformulas from a position on begin with those of the formula that stands there -/
theorem drop_preorder (f : Formula) (i : Nat) (hi : i < f.preorder.length) :
    ∃ rest, f.preorder.drop i = f.preorder[i].preorder ++ traverse rest := by
  obtain ⟨rest, hrest⟩ := drop_traverse [f] i hi
  refine ⟨rest, ?_⟩
  calc f.preorder.drop i
      = traverse (f.preorder[i] :: rest) := hrest
    _ = traverse ([f.preorder[i]] ++ rest) := rfl
    _ = f.preorder[i].preorder ++ traverse rest := traverse_append _ _

theorem flatMap_headToken_preorder (f : Formula) : f.preorder.flatMap headToken = f.encode := by
  rw [preorder, flatMap_headToken_traverse, List.flatMap_singleton]

/-- **Positions line up with the encoding.** There are as many subformulas as the formula is long, and their head tokens in
order are its encoding. From each position on there come first the subformulas of the formula that stands there, as many as
that formula is long, and so its encoding is what the tokens from there on begin with. -/
theorem preorder_aligned (f : Formula) :
    f.preorder.length = f.length ∧ f.preorder.flatMap headToken = f.encode ∧
    ∀ i : Fin f.preorder.length,
      (f.preorder.drop i).take f.preorder[i].length = f.preorder[i].preorder ∧
      f.preorder[i].encode <+: (f.preorder.drop i).flatMap headToken := by
  refine ⟨f.length_eq_length_preorder.symm, f.flatMap_headToken_preorder, ?_⟩
  intro i
  obtain ⟨rest, hrest⟩ := drop_preorder f i i.isLt
  refine ⟨?_, ?_⟩
  · rw [hrest, length_eq_length_preorder]
    exact List.take_left
  · rw [hrest, List.flatMap_append]
    exact ⟨_, congrArg (· ++ _) (flatMap_headToken_preorder _).symm⟩

/-- `*-1.2.`: the negation stands at position 1, and the variable below it ahead of the other one -/
example : (disj (var ⟨1, by decide, by decide⟩) (var ⟨2, by decide, by decide⟩)).preorder.map headToken =
    [['*'], ['-'], ['1', '.'], ['2', '.']] := by cbv

end ClauseFold.Formula
