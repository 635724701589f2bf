/-
All nodes of a forest by their keys, in the order in which a walk comes to them: a node ahead of what is below it, and that
ahead of its siblings. The entries leave out the nodes without a value. A forest with the same nodes, each marked with a
value of its own, has no such nodes, and so what is known of entries is known of all nodes.

Results:
- `mem_listing`: the listing has the nodes that keys lead to;
- `ascending_listing`: the keys go up, so a prefix comes ahead of its extensions.
-/
import ClauseFold.Proofs.Trie.View

namespace ClauseFold.Forest

variable {α : Type}

/-- the same nodes, each with a value, which is the value that it has, if it has one -/
def marked : Forest α → Forest (Option α)
  | nil => nil
  | node c h v ch sib => node c h (some v) ch.marked sib.marked

/-- the keys of all nodes, with the values; `path` is the way here, last symbol first -/
def listing (path : List Char) (f : Forest α) : List (List Char × Option α) := f.marked.entriesFrom path

theorem listing_node (path : List Char) (c : Char) (h : Handle) (v : Option α) (ch sib : Forest α) :
    (node c h v ch sib).listing path = ((c :: path).reverse, v) :: (ch.listing (c :: path) ++ sib.listing path) := rfl

theorem above_marked {c : Char} {f : Forest α} (h : f.Above c) : f.marked.Above c := by
  induction f with
  | nil => trivial
  | node d _ v ch sib _ ihs => exact ⟨h.1, ihs h.2⟩

theorem sorted_marked {f : Forest α} (h : f.Sorted) : f.marked.Sorted := by
  induction f with
  | nil => trivial
  | node c _ v ch sib ihc ihs => exact ⟨above_marked h.1, ihc h.2.1, ihs h.2.2⟩

/-- the values of the marked forest are what there is to see at a key -/
theorem value?_marked (f : Forest α) (key : List Char) : f.marked.value? key = (f.view? key).map Prod.snd := by
  induction f generalizing key with
  | nil => cases key <;> rfl
  | node c h v ch sib ihc ihs =>
    cases key with
    | nil => rfl
    | cons d ds =>
      rw [marked, value?_node, view?_node, ihc, ihs]
      split_ifs <;> rfl

/-- the listing has the nodes that keys lead to -/
theorem mem_listing {f : Forest α} (hf : f.Sorted) {key : List Char} {v : Option α} :
    (key, v) ∈ f.listing [] ↔ (f.view? key).map Prod.snd = some v := by
  unfold listing
  rw [mem_entriesFrom (sorted_marked hf)]
  simp [value?_marked]

/-- the keys go up -/
theorem ascending_listing {f : Forest α} (hf : f.Sorted) : Ascending (f.listing []) :=
  ascending_entriesFrom (sorted_marked hf) []

theorem length_listing (path : List Char) (f : Forest α) : (f.listing path).length = f.nodeCount := by
  induction f generalizing path with
  | nil => rfl
  | node c h v ch sib ihc ihs => rw [listing_node, nodeCount, List.length_cons, List.length_append, ihc, ihs]

end ClauseFold.Forest
