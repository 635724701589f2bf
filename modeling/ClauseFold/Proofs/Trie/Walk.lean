/-
The walk with a stack of frames against a recursion. A walk of a forest goes to its first tree and, when that is done, to
the siblings; a frame on the stack is a walk of the children that are still to come, followed by the way out of its node.

Main statements:
- `run_cons`: what the frame on top does before the rest of the stack is reached;
- `accept_eq_walk`: the walk of a trie is the walk of its forest.
-/
import ClauseFold.Trie.Walk

namespace ClauseFold

variable {σ α : Type}

/-- walks the children of a node; `path` is the key of the node, last symbol first -/
def Forest.walk (v : Visitor σ α) (path : List Char) : Forest α → σ → σ
  | nil, s => s
  | node c h value ch sib, s =>
    if v.isComplete s then s
    else
      match v.visit (c :: path) ⟨h, value, ch⟩ s with
      | (true, s') => sib.walk v path (v.leave (c :: path) ⟨h, value, ch⟩ (ch.walk v (c :: path) s'))
      | (false, s') => sib.walk v path (v.leave (c :: path) ⟨h, value, ch⟩ s')

/-- into a node, and over its children if the visitor wants that -/
def Visitor.enter (v : Visitor σ α) (path : List Char) (n : Node α) (s : σ) : σ :=
  match v.visit path n s with
  | (true, s') => n.children.walk v path s'
  | (false, s') => s'

theorem Visitor.enter_of_true {v : Visitor σ α} {path : List Char} {n : Node α} {s s' : σ}
    (h : v.visit path n s = (true, s')) : v.enter path n s = n.children.walk v path s' := by
  rw [enter, h]

theorem Visitor.enter_of_false {v : Visitor σ α} {path : List Char} {n : Node α} {s s' : σ}
    (h : v.visit path n s = (false, s')) : v.enter path n s = s' := by
  rw [enter, h]

theorem Forest.walk_of_isComplete {v : Visitor σ α} (fo : Forest α) (path : List Char) {s : σ}
    (h : v.isComplete s = true) : fo.walk v path s = s := by
  cases fo with
  | nil => rfl
  | node c hd a ch sib => rw [walk, if_pos h]

theorem Forest.walk_eq_enter {v : Visitor σ α} (c : Char) (h : Handle) (a : Option α) (ch sib : Forest α) (path : List Char)
    {s : σ} (hs : v.isComplete s = false) :
    (node c h a ch sib).walk v path s =
      sib.walk v path (v.leave (c :: path) ⟨h, a, ch⟩ (v.enter (c :: path) ⟨h, a, ch⟩ s)) := by
  rw [walk, hs, Visitor.enter]
  rcases v.visit (c :: path) ⟨h, a, ch⟩ s with ⟨_ | _, s'⟩ <;> rfl

namespace Walk

/-- on top of a stack a frame is walked, and then the node is left and its symbol goes from the key -/
theorem run_cons (v : Visitor σ α) (path : List Char) (node : Node α) (f : Forest α) (stack : List (Frame α)) (s : σ) :
    run v (⟨node, f⟩ :: stack) path s = run v stack path.tail (depart v path node (f.walk v path s)) := by
  induction f generalizing path node stack s with
  | nil => rw [run, Forest.walk]
  | node c h value ch sib ihc ihs =>
    rw [run, Forest.walk]
    by_cases hdone : v.isComplete s = true
    · rw [if_pos hdone, if_pos hdone]
    · rw [if_neg hdone, if_neg hdone]
      rcases hvisit : v.visit (c :: path) ⟨h, value, ch⟩ s with ⟨_ | _, s'⟩
      · exact ihs path node stack _
      · calc run v (⟨⟨h, value, ch⟩, ch⟩ :: ⟨node, sib⟩ :: stack) (c :: path) s'
            = run v (⟨node, sib⟩ :: stack) path (v.leave (c :: path) ⟨h, value, ch⟩ (ch.walk v (c :: path) s')) :=
              ihc (c :: path) ⟨h, value, ch⟩ (⟨node, sib⟩ :: stack) s'
          _ = _ := ihs path node stack _

end Walk

/-- the walk of a trie is the walk of its forest -/
theorem Trie.accept_eq_walk (t : Trie α) (v : Visitor σ α) (s : σ) : t.accept v s = t.forest.walk v [] s := by
  rw [accept, Walk.run_cons, Walk.run]
  rfl

end ClauseFold
