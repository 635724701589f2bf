/-
The links of an arena. The nodes of an arena that calls have made are linked in both directions by statements of their own,
in five operations. All the same they are one tree: what lies in the arena is below its root, and parents, children,
symbols, depths and keys say the same. It is the tree of the trie that the same calls make, and the two cannot be told
apart.

Results:
- `Stores.ancestors_eq`, `Stores.keyOf?_eq`: the way up from a node;
- `Mirrors.size_eq`: the size is the number of nodes with a value;
- `Mirrors.linked`, `Mirrors.alike`: all links of an arena, and what it says like its trie;
- `calls_keep_links`: so it is after any calls.
-/
import Mathlib.Data.List.Nodup
import ClauseFold.Proofs.Trie.Links
import ClauseFold.Proofs.Trie.Mirror

namespace ClauseFold

variable {α : Type}

namespace Arena

variable {a : Arena α} {V : View α} {t : Trie α}

/-! ## Ways down and up -/

/-- a link down from a node to one of its children -/
def Edge (a : Arena α) (p h : Handle) : Prop := ∃ c, a.child? p c = some h

theorem Stores.child?_eq (h : a.Stores V) {key : List Char} {m : Handle × Option α} (hm : V key = some m) (c : Char) :
    a.child? m.1 c = (V (key ++ [c])).map Prod.fst := by
  obtain ⟨n, hn, hshows⟩ := h.cell hm
  rw [child?, hn, Option.bind_some, hshows.children]

theorem Stores.reachable (h : a.Stores V) {key : List Char} {m : Handle × Option α} (hm : V key = some m) :
    Relation.ReflTransGen a.Edge a.root m.1 := by
  induction key using List.reverseRecOn generalizing m with
  | nil =>
    rw [h.rooted.root] at hm
    cases hm
    exact .refl
  | append_singleton key c ih =>
    obtain ⟨p, hp, -⟩ := h.rooted.parent hm
    refine (ih hp).tail ⟨c, ?_⟩
    rw [h.child?_eq hp, hm]
    rfl

theorem Stores.ancestors_root (h : a.Stores V) : a.ancestors a.root = [] := by
  obtain ⟨n, hn, hshows⟩ := h.cell h.rooted.root
  have hcell : a.cells[a.root]? = some n := hn
  rw [ancestors, hcell, Option.bind_some, hshows.parent]
  rfl

theorem Stores.ancestors_child (h : a.Stores V) {key : List Char} {c : Char} {p m : Handle × Option α}
    (hp : V key = some p) (hm : V (key ++ [c]) = some m) : a.ancestors m.1 = p.1 :: a.ancestors p.1 := by
  obtain ⟨n, hn, hshows⟩ := h.cell hm
  obtain ⟨q, hq, hlt⟩ := h.rooted.parent hm
  rw [hp] at hq
  cases hq
  obtain ⟨hparent, -, -⟩ := hshows.of_concat hp
  rw [ancestors, hn, Option.bind_some, hparent]
  exact if_pos hlt

/-- the ancestors of a node are the nodes at the strict prefixes of its key, nearest first -/
theorem Stores.ancestors_eq (h : a.Stores V) {key : List Char} {m : Handle × Option α} (hm : V key = some m) :
    (a.ancestors m.1).map some = (Trie.strictPrefixes key).map a.node? := by
  induction key using List.reverseRecOn generalizing m with
  | nil =>
    rw [h.rooted.root] at hm
    cases hm
    rw [h.ancestors_root]
    rfl
  | append_singleton key c ih =>
    obtain ⟨p, hp, -⟩ := h.rooted.parent hm
    rw [h.ancestors_child hp hm, Trie.strictPrefixes_concat, List.map_cons, List.map_cons, ih hp, h.node?_eq, hp]
    rfl

/-- the symbols from a node up to the root spell its key backwards -/
theorem Stores.symbols_eq (h : a.Stores V) {key : List Char} {m : Handle × Option α} (hm : V key = some m) :
    ((m.1 :: a.ancestors m.1).filterMap fun g => a.cells[g]?.bind fun n => n.symbol) = key.reverse := by
  induction key using List.reverseRecOn generalizing m with
  | nil =>
    rw [h.rooted.root] at hm
    cases hm
    obtain ⟨n, hn, hshows⟩ := h.cell h.rooted.root
    have hcell : a.cells[a.root]? = some n := hn
    rw [h.ancestors_root]
    simp [hcell, hshows.symbol]
  | append_singleton key c ih =>
    obtain ⟨p, hp, -⟩ := h.rooted.parent hm
    obtain ⟨n, hn, hshows⟩ := h.cell hm
    have hsymbol : (a.cells[m.1]?.bind fun n => n.symbol) = some c := by
      rw [hn, Option.bind_some, (hshows.of_concat hp).2.1]
    rw [h.ancestors_child hp hm, List.filterMap_cons]
    simp only [hsymbol]
    rw [ih hp, List.reverse_append]
    rfl

theorem Stores.keyOf?_eq (h : a.Stores V) {key : List Char} {m : Handle × Option α} (hm : V key = some m) :
    a.keyOf? m.1 = some key := by
  obtain ⟨n, hn, -⟩ := h.cell hm
  rw [keyOf?, hn, Option.map_some, h.symbols_eq hm, List.reverse_reverse]

/-- each live node stands at a key -/
theorem Stores.key_of_cell (h : a.Stores V) {g : Handle} {n : Cell α} (hn : a.cells[g]? = some n) :
    ∃ key v, V key = some (g, v) ∧ n.Shows V key v := by
  obtain ⟨key, v, hkey⟩ := h.live hn
  obtain ⟨n', hn', hshows⟩ := h.cell hkey
  have hcell : a.cells[g]? = some n' := hn'
  rw [hn] at hcell
  cases hcell
  exact ⟨key, v, hkey, hshows⟩

/-! ## The size -/

theorem nodup_toList (cells : Std.ExtTreeMap Handle (Cell α)) :
    (cells.toList.map fun e => (e.1, e.2.value)).Nodup := by
  have hkeys : (cells.toList.map Prod.fst).Nodup := by
    rw [Std.ExtTreeMap.map_fst_toList_eq_keys]
    exact Std.ExtTreeMap.nodup_keys
  apply List.Nodup.of_map Prod.fst
  rw [List.map_map]
  exact hkeys

/-- what lies in an arena are the nodes of its trie -/
theorem Mirrors.perm_nodes (h : a.Mirrors t) :
    (a.cells.toList.map fun e => (e.1, e.2.value)).Perm (t.nodes.map fun n => (n.handle, n.value)) := by
  have hnodes : (t.nodes.map fun n => (n.handle, n.value)).Nodup := by
    apply List.Nodup.of_map Prod.fst
    rw [List.map_map]
    exact Trie.nodup_handles h.wellFormed
  rw [List.perm_ext_iff_of_nodup (nodup_toList a.cells) hnodes]
  intro m
  rw [List.mem_map, List.mem_map]
  refine ⟨?_, ?_⟩
  · intro hm
    obtain ⟨⟨g, n⟩, hmem, rfl⟩ := hm
    obtain ⟨key, v, hkey, hshows⟩ := h.stores.key_of_cell (Std.ExtTreeMap.mem_toList_iff_getElem?_eq_some.mp hmem)
    obtain ⟨k, hk, hhandle, hvalue⟩ := Trie.node?_of_view? hkey
    exact ⟨k, (Trie.mem_nodes h.wellFormed).mpr ⟨key, hk⟩, by rw [hhandle, hvalue, hshows.value]⟩
  · intro hm
    obtain ⟨k, hmem, rfl⟩ := hm
    obtain ⟨key, hk⟩ := (Trie.mem_nodes h.wellFormed).mp hmem
    obtain ⟨n, hn, hshows⟩ := h.stores.cell (Trie.view?_of_node? hk)
    exact ⟨(k.handle, n), Std.ExtTreeMap.mem_toList_iff_getElem?_eq_some.mpr hn, by rw [hshows.value]⟩

theorem Mirrors.size_eq (h : a.Mirrors t) (hlinked : t.Linked) :
    a.cells.toList.countP (fun e => e.2.value.isSome) = a.size := by
  have hcount := h.perm_nodes.countP_eq fun m => m.2.isSome
  rw [List.countP_map, List.countP_map] at hcount
  rw [h.size, ← hlinked.size]
  exact hcount

/-! ## All links -/

/-- what the nodes of an arena and their links have to do with one another -/
structure Linked (a : Arena α) : Prop where
  /-- the root has no parent, no symbol and no value -/
  root : ∃ n : Cell α, a.cells[a.root]? = some n ∧ n.parent = none ∧ n.symbol = none ∧ n.depth = 0 ∧ n.value = none
  /-- each node is below the root -/
  reachable : ∀ g ∈ a.cells, Relation.ReflTransGen a.Edge a.root g
  /-- a child is a node, and knows its parent, its symbol and its depth -/
  child : ∀ (p : Handle) (n : Cell α) c (g : Handle), a.cells[p]? = some n → n.children[c]? = some g →
    ∃ m : Cell α, a.cells[g]? = some m ∧ m.parent = some p ∧ m.symbol = some c ∧ m.depth = n.depth + 1
  /-- each node but the root is the child of its parent under its symbol, and one deeper; it was made after its parent -/
  parent : ∀ (g : Handle) (m : Cell α), a.cells[g]? = some m → g ≠ a.root → ∃ (p : Handle) (n : Cell α) (c : Char), m.parent = some p ∧ m.symbol = some c ∧
    a.cells[p]? = some n ∧ n.children[c]? = some g ∧ m.depth = n.depth + 1 ∧ p < g
  /-- the key of a live handle leads to its node, and has as many symbols as the node is deep -/
  node_keyOf : ∀ (g : Handle) (n : Cell α), a.cells[g]? = some n →
    ∃ key, a.keyOf? g = some key ∧ a.node? key = some g ∧ n.depth = key.length
  /-- the handle of the node at a key is live and leads to the key -/
  keyOf_node : ∀ key g, a.node? key = some g → g ∈ a.cells ∧ a.keyOf? g = some key
  /-- the ancestors of a node are the nodes at the strict prefixes of its key, nearest first and the root last -/
  ancestors : ∀ g key, a.keyOf? g = some key → (a.ancestors g).map some = (Trie.strictPrefixes key).map a.node?
  /-- the size is the number of nodes with a value -/
  size : a.cells.toList.countP (fun e => e.2.value.isSome) = a.size

theorem Mirrors.linked (h : a.Mirrors t) (hlinked : t.Linked) : a.Linked := by
  have hs := h.stores
  constructor
  case root =>
    obtain ⟨n, hn, hshows⟩ := hs.cell hs.rooted.root
    exact ⟨n, hn, hshows.parent, hshows.symbol, hshows.depth, hshows.value⟩
  case reachable =>
    intro g hg
    obtain ⟨n, hn⟩ := Option.isSome_iff_exists.mp (Std.ExtTreeMap.mem_iff_isSome_getElem?.mp hg)
    obtain ⟨key, v, hkey, -⟩ := hs.key_of_cell hn
    exact hs.reachable hkey
  case child =>
    intro p n c g hn hg
    obtain ⟨key, v, hkey, hshows⟩ := hs.key_of_cell hn
    rw [hshows.children, Option.map_eq_some_iff] at hg
    obtain ⟨m, hm, rfl⟩ := hg
    obtain ⟨n', hn', hshows'⟩ := hs.cell hm
    obtain ⟨hparent, hsymbol, hdepth⟩ := hshows'.of_concat hkey
    exact ⟨n', hn', hparent, hsymbol, by rw [hdepth, hshows.depth]⟩
  case parent =>
    intro g m hm hroot
    obtain ⟨key, v, hkey, hshows⟩ := hs.key_of_cell hm
    cases key using List.reverseRecOn with
    | nil =>
      rw [hs.rooted.root] at hkey
      cases hkey
      exact absurd rfl hroot
    | append_singleton key c =>
      obtain ⟨p, hp, hlt⟩ := hs.rooted.parent hkey
      obtain ⟨n, hn, hshows'⟩ := hs.cell hp
      obtain ⟨hparent, hsymbol, hdepth⟩ := hshows.of_concat hp
      refine ⟨p.1, n, c, hparent, hsymbol, hn, ?_, by rw [hdepth, hshows'.depth], hlt⟩
      rw [hshows'.children, hkey]
      rfl
  case node_keyOf =>
    intro g n hn
    obtain ⟨key, v, hkey, hshows⟩ := hs.key_of_cell hn
    exact ⟨key, hs.keyOf?_eq hkey, by rw [hs.node?_eq, hkey]; rfl, hshows.depth⟩
  case keyOf_node =>
    intro key g hg
    rw [hs.node?_eq, Option.map_eq_some_iff] at hg
    obtain ⟨m, hm, rfl⟩ := hg
    obtain ⟨n, hn, -⟩ := hs.cell hm
    exact ⟨Std.ExtTreeMap.mem_iff_isSome_getElem?.mpr (by rw [hn]; rfl), hs.keyOf?_eq hm⟩
  case ancestors =>
    intro g key hg
    obtain ⟨n, hn, -⟩ := Option.map_eq_some_iff.mp hg
    obtain ⟨key', v, hkey', -⟩ := hs.key_of_cell hn
    rw [hs.keyOf?_eq hkey'] at hg
    cases hg
    exact hs.ancestors_eq hkey'
  case size => exact h.size_eq hlinked

/-- an arena and a trie of which the same is said -/
structure Alike (a : Arena α) (t : Trie α) : Prop where
  root : a.root = t.root
  size : a.size = t.size
  get? : ∀ key, a.get? key = t.get? key
  node? : ∀ key, a.node? key = (t.node? key).map fun n => n.handle
  keyOf? : ∀ g, a.keyOf? g = t.keyOf? g
  /-- a call that follows has the same to say, and changes nothing if it is refused -/
  run : ∀ c : Trie.Call α, (c.runIn a).1 = (c.run t).1 ∧ ∀ e, (c.runIn a).1 = .error e → (c.runIn a).2 = a

theorem Mirrors.alike (h : a.Mirrors t) : a.Alike t := by
  constructor
  case root => exact h.root
  case size => exact h.size
  case get? => exact h.get?
  case node? =>
    intro key
    rw [h.stores.node?_eq, Trie.view?, Option.map_map]
    rfl
  case keyOf? =>
    intro g
    cases hkey : t.keyOf? g with
    | none =>
      rw [keyOf?, h.stale hkey]
      rfl
    | some key =>
      obtain ⟨v, hv⟩ := view?_of_keyOf? hkey
      exact h.stores.keyOf?_eq hv
  case run =>
    intro c
    obtain ⟨hanswer, -, hrefused⟩ := run_mirrors h c
    exact ⟨hanswer, hrefused⟩

end Arena

/-- **Links agree.** Calls, by key or by handle, live or stale, leave an arena in which the links down from the nodes and
the links up are the same links: all nodes are below the root, each node but the root is the child of its parent, handles
and keys lead to one another, and the size is the number of values. The trie of the same calls has the same links, and
says the same of each of them. -/
theorem Trie.calls_keep_links (calls : List (Call α)) :
    (Arena.ofCalls calls).Linked ∧ (ofCalls calls).Linked ∧ (Arena.ofCalls calls).Alike (ofCalls calls) := by
  have hmirrors := Arena.mirrors_ofCalls calls
  have hlinked := linked_of_tracks (tracks_ofCalls calls)
  exact ⟨hmirrors.linked hlinked, hlinked, hmirrors.alike⟩

end ClauseFold
