/-
Walks of an arena. A walk of an arena goes from handle to handle and keeps a key and a stack of handles; a walk of its trie
goes down a tree. Each node of the tree lies in the arena with its symbol and the handles of its children in order, so the
walk of the arena comes to an end, meets no stale handle, and makes the calls that the tree makes.

Results:
- `Stores.laid`: how the tree of a trie lies in its arena;
- `walks_top`: what the node on top does before the rest of the stack is reached;
- `Mirrors.walks`: a walk of an arena is the walk of its trie.
-/
import ClauseFold.Proofs.Trie.Walk
import ClauseFold.Proofs.Trie.ArenaLinks

namespace ClauseFold

variable {σ α : Type}

/-! ## Children in order -/

namespace Forest

def links : Forest α → List (Char × Handle)
  | nil => []
  | node c h _ _ sib => (c, h) :: sib.links

theorem lt_of_mem_links {b : Char} {f : Forest α} (h : f.Above b) {e : Char × Handle} (he : e ∈ f.links) : b < e.1 := by
  induction f with
  | nil => cases he
  | node c hd v ch sib _ ihs =>
    rcases List.mem_cons.mp he with rfl | he
    · exact h.1
    · exact ihs h.2 he

theorem ascending_links {f : Forest α} (h : f.Sorted) : Ascending f.links := by
  induction f with
  | nil => exact List.Pairwise.nil
  | node c hd v ch sib _ ihs =>
    obtain ⟨habove, -, hsib⟩ := h
    refine List.pairwise_cons.mpr ⟨?_, ihs hsib⟩
    intro e he
    exact compareOfLessAndEq_eq_lt.mpr (lt_of_mem_links habove he)

theorem mem_links_iff {f : Forest α} (h : f.Sorted) {c : Char} {g : Handle} :
    (c, g) ∈ f.links ↔ (f.view? [c]).map Prod.fst = some g := by
  induction f with
  | nil => simp [links]
  | node d hd v ch sib _ ihs =>
    obtain ⟨habove, -, hsib⟩ := h
    rw [links, List.mem_cons, ihs hsib, view?_node]
    by_cases hcd : c = d
    · subst hcd
      rw [view?_of_above habove]
      simp [eq_comm]
    · simp [hcd]

/-- the nodes of a forest, as they lie in an arena: each has its symbol and the handles of its children in order, and none
is the root -/
def Laid (a : Arena α) : Forest α → Prop
  | nil => True
  | node c h _ ch sib =>
    h ≠ a.root ∧ (∃ n : Cell α, a.cells[h]? = some n ∧ n.symbol = some c ∧ n.children.values = ch.links.map Prod.snd) ∧
      ch.Laid a ∧ sib.Laid a

end Forest

namespace Arena

variable {a : Arena α} {V : View α} {t : Trie α}

/-- a node that has the children of a forest has their handles in order -/
theorem children_values {n : Cell α} {f : Forest α} (hf : f.Sorted)
    (hchildren : ∀ c : Char, n.children[c]? = (f.view? [c]).map Prod.fst) :
    n.children.values = f.links.map Prod.snd := by
  have hlist : n.children.toList = f.links := by
    apply (Ascending.toList n.children).ext (Forest.ascending_links hf)
    intro e
    rcases e with ⟨c, g⟩
    rw [Std.ExtTreeMap.mem_toList_iff_getElem?_eq_some, hchildren, Forest.mem_links_iff hf]
  rw [values_eq_toList, hlist]

/-- below a key a forest lies in an arena as the view shows it -/
theorem Stores.laid (h : a.Stores V) (key : List Char) {f : Forest α} (hf : f.Sorted)
    (hview : ∀ c cs, (f.view? [c]).isSome = true → V (key ++ c :: cs) = f.view? (c :: cs)) : f.Laid a := by
  induction f generalizing key with
  | nil => trivial
  | node c hd v ch sib ihc ihs =>
    obtain ⟨habove, hch, hsib⟩ := hf
    have hown : V (key ++ [c]) = some (hd, v) := by
      rw [hview c [] (by simp [Forest.view?_first]), Forest.view?_first]
    have hbelow : ∀ d ds, V (key ++ [c] ++ d :: ds) = ch.view? (d :: ds) := by
      intro d ds
      rw [List.append_assoc, List.singleton_append, hview c _ (by simp [Forest.view?_node]), Forest.view?_node,
        if_pos rfl, if_neg (List.cons_ne_nil d ds)]
    obtain ⟨n, hn, hshows⟩ := h.cell hown
    refine ⟨h.ne_root (by simp) hown, ⟨n, hn, ?_, ?_⟩, ihc (key ++ [c]) hch fun d ds _ => hbelow d ds, ihs key hsib ?_⟩
    · rw [hshows.symbol, List.getLast?_concat]
    · apply children_values hch
      intro d
      rw [hshows.children, hbelow]
    · intro d ds hd'
      have hdc : d ≠ c := by
        intro heq
        rw [heq, Forest.view?_of_above habove] at hd'
        cases hd'
      rw [hview d ds (by rwa [Forest.view?_node, if_neg hdc]), Forest.view?_node, if_neg hdc]

theorem Mirrors.laid (h : a.Mirrors t) : t.forest.Laid a := by
  apply h.stores.laid [] h.wellFormed.sorted
  intro c cs _
  exact Trie.view?_eq t (List.cons_ne_nil c cs)

/-! ## Steps -/

variable {w : HandleVisitor σ}

/-- the steps of a walk from one state to another -/
abbrev Walks (a : Arena α) (w : HandleVisitor σ) : ArenaWalk σ → ArenaWalk σ → Prop :=
  Relation.ReflTransGen fun x y => a.walkStep w x = some y

/-- the node on top has been left -/
def left (a : Arena α) (w : HandleVisitor σ) (here : Handle) (stack : List (Handle × List Handle)) (key : List Char)
    (s : σ) : ArenaWalk σ :=
  if here = a.root then ⟨stack, key, s⟩ else ⟨stack, key.tail, w.leave key here s⟩

theorem walkStep_out {here : Handle} {rest : List Handle} {stack : List (Handle × List Handle)} {key : List Char} {s : σ}
    (hout : w.isComplete s = true ∨ rest = []) :
    a.walkStep w ⟨(here, rest) :: stack, key, s⟩ = some (a.left w here stack key s) := by
  have hnext : (if w.isComplete s then [] else rest) = [] := by
    rcases hout with hdone | hrest
    · rw [if_pos hdone]
    · rw [hrest, ite_self]
  simp only [walkStep, hnext, left]
  split_ifs <;> rfl

theorem walkStep_in {here child : Handle} {rest : List Handle} {stack : List (Handle × List Handle)} {key : List Char}
    {s : σ} {n : Cell α} {c : Char} (hdone : ¬w.isComplete s = true) (hn : a.cells[child]? = some n)
    (hsymbol : n.symbol = some c) :
    a.walkStep w ⟨(here, child :: rest) :: stack, key, s⟩ = some
      (match w.visit (c :: key) child s with
      | (true, s') => ⟨(child, n.children.values) :: (here, rest) :: stack, c :: key, s'⟩
      | (false, s') => ⟨(here, rest) :: stack, key, w.leave (c :: key) child s'⟩) := by
  cases hvisit : w.visit (c :: key) child s with
  | mk goesOn s' => cases goesOn <;> simp [walkStep, hdone, hn, hsymbol, hvisit]

/-- the walk of a tree by a visitor that is told handles -/
theorem walk_onNodes (key : List Char) (c : Char) (h : Handle) (v : Option α) (ch sib : Forest α) (s : σ) :
    (Forest.node c h v ch sib).walk w.onNodes key s =
      if w.isComplete s then s
      else
        match w.visit (c :: key) h s with
        | (true, s') => sib.walk w.onNodes key (w.leave (c :: key) h (ch.walk w.onNodes (c :: key) s'))
        | (false, s') => sib.walk w.onNodes key (w.leave (c :: key) h s') := rfl

/-- the node on top walks the children that are still to come, and then is left -/
theorem walks_top {f : Forest α} (hf : f.Laid a) (here : Handle) (stack : List (Handle × List Handle)) (key : List Char)
    (s : σ) :
    a.Walks w ⟨(here, f.links.map Prod.snd) :: stack, key, s⟩ (a.left w here stack key (f.walk w.onNodes key s)) := by
  induction f generalizing here stack key s with
  | nil => exact .single (walkStep_out (Or.inr rfl))
  | node c h v ch sib ihc ihs =>
    obtain ⟨hroot, ⟨n, hn, hsymbol, hvalues⟩, hch, hsib⟩ := hf
    rw [walk_onNodes]
    by_cases hdone : w.isComplete s = true
    · rw [if_pos hdone]
      exact .single (walkStep_out (Or.inl hdone))
    · rw [if_neg hdone]
      have hstep : a.walkStep w ⟨(here, h :: sib.links.map Prod.snd) :: stack, key, s⟩ = some _ :=
        walkStep_in hdone hn hsymbol
      rcases hvisit : w.visit (c :: key) h s with ⟨_ | _, s'⟩
      · rw [hvisit] at hstep
        exact .head hstep (ihs hsib here stack key _)
      · have hbelow := ihc hch h ((here, sib.links.map Prod.snd) :: stack) (c :: key) s'
        rw [hvisit, hvalues] at hstep
        rw [left, if_neg hroot] at hbelow
        exact .head hstep (hbelow.trans (ihs hsib here stack key _))

/-- a walk of an arena ends, with the state that the walk of its trie ends with -/
theorem Mirrors.walks (h : a.Mirrors t) (w : HandleVisitor σ) (s : σ) :
    a.Walks w (a.walkStart s) ⟨[], [], t.accept w.onNodes s⟩ := by
  obtain ⟨n, hn, hshows⟩ := h.stores.cell h.stores.rooted.root
  have hcell : a.cells[a.root]? = some n := hn
  have hvalues : n.children.values = t.forest.links.map Prod.snd := by
    apply children_values h.wellFormed.sorted
    intro c
    rw [hshows.children, List.nil_append, Trie.view?_eq t (List.cons_ne_nil c [])]
  have hstart : a.walkStart s = ⟨[(a.root, t.forest.links.map Prod.snd)], [], s⟩ := by
    rw [walkStart, hcell, Option.map_some, Option.getD_some, hvalues]
  have hall : a.Walks w _ _ := walks_top h.laid a.root [] [] s
  rw [left, if_pos rfl, ← Trie.accept_eq_walk] at hall
  rw [hstart]
  exact hall

end Arena

end ClauseFold
