/-
The nodes of a trie and the links between them. Down from a node lead its children; up from its handle lead the parent,
the symbol and the depth that the origins note. The two are kept apart by every operation, and in each trie that calls
have made they say the same: nodes are children of their parents, keys lead to nodes and handles back to keys, and what is
not below the root is no node at all.

Results:
- `mem_nodes`, `nodup_handles`: the nodes are those that keys lead to, each with a handle of its own;
- `origin_of_child`: the origins know each child as its parent shows it;
- `steps_of_node?`, `ancestors_of_node?`: the ways down from the root and up to it;
- `linked_of_tracks`: all links of a trie that calls have made.
-/
import Mathlib.Logic.Relation
import Mathlib.Data.List.Infix
import ClauseFold.Proofs.Trie.FiniteMap

namespace ClauseFold

variable {α : Type}

/-- a link down from a node to one of its children -/
def Node.Edge (n m : Node α) : Prop := ∃ c, n.child? c = some m

/-! ## Nodes of a forest -/

namespace Forest

/-- all nodes of a forest, each ahead of what is below it -/
def nodes : Forest α → List (Node α)
  | nil => []
  | node _ h v ch sib => ⟨h, v, ch⟩ :: (ch.nodes ++ sib.nodes)

theorem length_nodes (f : Forest α) : f.nodes.length = f.nodeCount := by
  induction f with
  | nil => rfl
  | node c h v ch sib ihc ihs => rw [nodes, nodeCount, List.length_cons, List.length_append, ihc, ihs]

/-- there are as many entries as nodes with a value -/
theorem length_entriesFrom (f : Forest α) (path : List Char) :
    (f.entriesFrom path).length = f.nodes.countP fun n => n.value.isSome := by
  induction f generalizing path with
  | nil => rfl
  | node c h v ch sib ihc ihs =>
    rw [entriesFrom, nodes, List.length_append, List.length_append, ihc, ihs, List.countP_cons, List.countP_append]
    cases v <;> simp [Nat.add_comm]

/-- what is found below the first child, or among its siblings, is found in the forest -/
theorem find?_cons_of_children {f : Forest α} {key : List Char} {m : Node α} (hm : f.find? key = some m) (c : Char)
    (h : Handle) (v : Option α) (sib : Forest α) : (node c h v f sib).find? (c :: key) = some m := by
  have hkey : key ≠ [] := by
    intro hempty
    rw [hempty] at hm
    cases hm
  rw [find?_node, if_pos rfl, if_neg hkey, hm]

theorem find?_of_siblings {c : Char} {sib : Forest α} (habove : sib.Above c) {key : List Char} {m : Node α}
    (hm : sib.find? key = some m) (h : Handle) (v : Option α) (ch : Forest α) :
    (node c h v ch sib).find? key = some m := by
  cases key with
  | nil => cases hm
  | cons d ds =>
    have hdc : d ≠ c := by
      intro heq
      rw [heq, find?_of_above habove] at hm
      cases hm
    rw [find?_node, if_neg hdc, hm]

/-- the nodes of a forest are those that keys lead to -/
theorem mem_nodes {f : Forest α} (hf : f.Sorted) {m : Node α} : m ∈ f.nodes ↔ ∃ key, f.find? key = some m := by
  induction f with
  | nil =>
    simp only [nodes, List.not_mem_nil, false_iff]
    intro hkey
    obtain ⟨key, hkey⟩ := hkey
    cases key <;> cases hkey
  | node c h v ch sib ihc ihs =>
    obtain ⟨habove, hch, hsib⟩ := hf
    rw [nodes, List.mem_cons, List.mem_append, ihc hch, ihs hsib]
    refine ⟨?_, ?_⟩
    · intro hmem
      rcases hmem with rfl | ⟨key, hkey⟩ | ⟨key, hkey⟩
      · exact ⟨[c], by rw [find?_node, if_pos rfl, if_pos rfl]⟩
      · exact ⟨c :: key, find?_cons_of_children hkey c h v sib⟩
      · exact ⟨key, find?_of_siblings habove hkey h v ch⟩
    · intro hkey
      obtain ⟨_ | ⟨d, ds⟩, hkey⟩ := hkey
      · cases hkey
      · rw [find?_node] at hkey
        split_ifs at hkey with hdc hds
        · exact Or.inl (Option.some.inj hkey).symm
        · exact Or.inr (Or.inl ⟨ds, hkey⟩)
        · exact Or.inr (Or.inr ⟨d :: ds, hkey⟩)

/-- where handles tell keys apart, no two nodes of a forest have the same handle -/
theorem nodup_handles {f : Forest α} (hf : f.Sorted)
    (hinj : ∀ key key' m m', f.find? key = some m → f.find? key' = some m' → m.handle = m'.handle → key = key') :
    (f.nodes.map fun n => n.handle).Nodup := by
  induction f with
  | nil => exact List.nodup_nil
  | node c h v ch sib ihc ihs =>
    obtain ⟨habove, hch, hsib⟩ := hf
    have hown : (node c h v ch sib).find? [c] = some ⟨h, v, ch⟩ := by rw [find?_node, if_pos rfl, if_pos rfl]
    have hbelow : ∀ key m, ch.find? key = some m → (node c h v ch sib).find? (c :: key) = some m :=
      fun key m hm => find?_cons_of_children hm c h v sib
    have hbeside : ∀ key m, sib.find? key = some m → (node c h v ch sib).find? key = some m :=
      fun key m hm => find?_of_siblings habove hm h v ch
    have hnodupch := ihc hch fun key key' m m' hm hm' heq =>
      (List.cons.inj (hinj _ _ _ _ (hbelow _ _ hm) (hbelow _ _ hm') heq)).2
    have hnodupsib := ihs hsib fun key key' m m' hm hm' heq =>
      hinj _ _ _ _ (hbeside _ _ hm) (hbeside _ _ hm') heq
    rw [nodes, List.map_cons, List.nodup_cons, List.map_append, List.nodup_append]
    refine ⟨?_, hnodupch, hnodupsib, ?_⟩
    · intro hmem
      rw [List.mem_append, List.mem_map, List.mem_map] at hmem
      rcases hmem with ⟨m, hm, heq⟩ | ⟨m, hm, heq⟩
      · obtain ⟨key, hkey⟩ := (mem_nodes hch).mp hm
        have := hinj _ _ _ _ hown (hbelow _ _ hkey) heq.symm
        rw [(List.cons.inj this).2.symm] at hkey
        cases hkey
      · obtain ⟨key, hkey⟩ := (mem_nodes hsib).mp hm
        have := hinj _ _ _ _ hown (hbeside _ _ hkey) heq.symm
        rw [← this, find?_of_above habove] at hkey
        cases hkey
    · intro a ha b hb hab
      obtain ⟨m, hm, rfl⟩ := List.mem_map.mp ha
      obtain ⟨m', hm', rfl⟩ := List.mem_map.mp hb
      obtain ⟨key, hkey⟩ := (mem_nodes hch).mp hm
      obtain ⟨key', hkey'⟩ := (mem_nodes hsib).mp hm'
      have := hinj _ _ _ _ (hbelow _ _ hkey) (hbeside _ _ hkey') hab
      rw [← this, find?_of_above habove] at hkey'
      cases hkey'

/-- the origins know each child as the forest shows it -/
theorem recorded_child {origins : Array Origin} {parent : Handle} {depth : Nat} {f : Forest α}
    (h : f.Recorded origins parent depth) {c : Char} {m : Node α} (hm : f.child? c = some m) :
    origins[m.handle]? = some (.child parent c (depth + 1)) ∧ parent < m.handle ∧
      m.children.Recorded origins m.handle (depth + 1) := by
  induction f with
  | nil => cases hm
  | node d hd v ch sib _ ihs =>
    obtain ⟨horigin, hlt, hch, hsib⟩ := h
    rw [child?] at hm
    split_ifs at hm with hcd
    · cases hm
      rw [hcd]
      exact ⟨horigin, hlt, hch⟩
    · exact ihs hsib hm

end Forest

theorem Node.recorded_descend {origins : Array Origin} {n m : Node α} {depth : Nat} {key : List Char}
    (h : n.children.Recorded origins n.handle depth) (hm : n.descend? key = some m) :
    m.children.Recorded origins m.handle (depth + key.length) := by
  induction key generalizing n depth with
  | nil =>
    cases hm
    exact h
  | cons c cs ih =>
    obtain ⟨k, hk, hm⟩ := Option.bind_eq_some_iff.mp hm
    obtain ⟨-, -, hrecorded⟩ := Forest.recorded_child h hk
    have hlength : depth + (c :: cs).length = depth + 1 + cs.length := by
      rw [List.length_cons, Nat.add_assoc, Nat.add_comm 1]
    rw [hlength]
    exact ih hrecorded hm

/-! ## Nodes of a trie -/

namespace Trie

variable {t : Trie α}

/-- all nodes of a trie, the root first -/
def nodes (t : Trie α) : List (Node α) := t.rootNode :: t.forest.nodes

theorem length_nodes (t : Trie α) : t.nodes.length = t.nodeCount := by
  rw [nodes, List.length_cons, Forest.length_nodes]
  rfl

theorem mem_nodes (h : t.WellFormed) {n : Node α} : n ∈ t.nodes ↔ ∃ key, t.node? key = some n := by
  rw [nodes, List.mem_cons, Forest.mem_nodes h.sorted]
  refine ⟨?_, ?_⟩
  · intro hmem
    rcases hmem with rfl | ⟨key, hkey⟩
    · exact ⟨[], rfl⟩
    · cases key with
      | nil => cases hkey
      | cons c cs => exact ⟨c :: cs, hkey⟩
  · intro hkey
    obtain ⟨_ | ⟨c, cs⟩, hkey⟩ := hkey
    · exact Or.inl (Option.some.inj hkey).symm
    · exact Or.inr ⟨c :: cs, hkey⟩

/-- handles tell nodes apart -/
theorem key_eq_of_node? (h : t.WellFormed) {key key' : List Char} {n n' : Node α} (hn : t.node? key = some n)
    (hn' : t.node? key' = some n') (heq : n.handle = n'.handle) : key = key' :=
  key_eq_of_view? h (view?_of_node? hn) (view?_of_node? hn') heq

theorem nodup_handles (h : t.WellFormed) : (t.nodes.map fun n => n.handle).Nodup := by
  have hfind : ∀ {key m}, t.forest.find? key = some m → t.node? key = some m := by
    intro key m hm
    cases key with
    | nil => cases hm
    | cons c cs => exact hm
  rw [nodes, List.map_cons, List.nodup_cons]
  refine ⟨?_, ?_⟩
  · intro hmem
    obtain ⟨m, hm, heq⟩ := List.mem_map.mp hmem
    obtain ⟨key, hkey⟩ := (Forest.mem_nodes h.sorted).mp hm
    have hroot : t.node? [] = some t.rootNode := rfl
    rw [key_eq_of_node? h (hfind hkey) hroot heq] at hkey
    cases hkey
  · apply Forest.nodup_handles h.sorted
    intro key key' m m' hm hm' heq
    exact key_eq_of_node? h (hfind hm) (hfind hm') heq

/-- the nodes are found by their handles, and nothing else is -/
theorem at?_eq_some_iff_mem (h : t.WellFormed) {hd : Handle} {n : Node α} :
    t.at? hd = some n ↔ n ∈ t.nodes ∧ n.handle = hd := by
  rw [mem_nodes h]
  refine ⟨?_, ?_⟩
  · intro hn
    obtain ⟨hnode, hhandle⟩ := at?_eq_some_iff.mp hn
    exact ⟨⟨_, hnode⟩, hhandle⟩
  · intro hn
    obtain ⟨⟨key, hnode⟩, rfl⟩ := hn
    exact at?_of_node? h hnode

/-! ## Ways down and up -/

theorem node?_concat {key : List Char} {c : Char} {m : Node α} (hm : t.node? (key ++ [c]) = some m) :
    ∃ n, t.node? key = some n ∧ n.child? c = some m := by
  unfold node? at hm ⊢
  rw [Node.descend?_append] at hm
  obtain ⟨n, hn, hm⟩ := Option.bind_eq_some_iff.mp hm
  obtain ⟨k, hk, hm⟩ := Option.bind_eq_some_iff.mp hm
  cases hm
  exact ⟨n, hn, hk⟩

/-- the root leads to each node by way of children -/
theorem steps_of_node? {key : List Char} {n : Node α} (hn : t.node? key = some n) :
    Relation.ReflTransGen Node.Edge t.rootNode n := by
  induction key using List.reverseRecOn generalizing n with
  | nil =>
    cases hn
    exact .refl
  | append_singleton key c ih =>
    obtain ⟨k, hk, hc⟩ := node?_concat hn
    exact (ih hk).tail ⟨c, hc⟩

/-- the origins know each child as its parent shows it -/
theorem origin_of_child (h : t.WellFormed) {key : List Char} {n m : Node α} {c : Char} (hn : t.node? key = some n)
    (hm : n.child? c = some m) :
    t.origins[m.handle]? = some (.child n.handle c (key.length + 1)) ∧ n.handle < m.handle := by
  have hrecorded := Node.recorded_descend (n := t.rootNode) h.recorded hn
  rw [Nat.zero_add] at hrecorded
  obtain ⟨horigin, hlt, -⟩ := Forest.recorded_child hrecorded hm
  exact ⟨horigin, hlt⟩

theorem depth_of_node? (h : t.WellFormed) {key : List Char} {n : Node α} (hn : t.node? key = some n) :
    t.depth n.handle = key.length := by
  cases key using List.reverseRecOn with
  | nil =>
    cases hn
    show t.depth t.root = 0
    unfold depth
    rw [h.root]
    rfl
  | append_singleton key c =>
    obtain ⟨k, hk, hc⟩ := node?_concat hn
    unfold depth
    rw [(origin_of_child h hk hc).1, List.length_append]
    rfl

theorem ancestors_root (h : t.WellFormed) : t.ancestors t.root = [] := by
  unfold ancestors
  rw [ancestorsFrom, h.root]

theorem ancestors_of_child (h : t.WellFormed) {key : List Char} {n m : Node α} {c : Char} (hn : t.node? key = some n)
    (hm : n.child? c = some m) : t.ancestors m.handle = n.handle :: t.ancestors n.handle := by
  obtain ⟨horigin, hlt⟩ := origin_of_child h hn hm
  unfold ancestors
  rw [ancestorsFrom, horigin]
  exact if_pos hlt

/-- the prefixes of a key without the key itself, the longest first -/
def strictPrefixes (key : List Char) : List (List Char) := key.inits.dropLast.reverse

theorem strictPrefixes_concat (key : List Char) (c : Char) :
    strictPrefixes (key ++ [c]) = key :: strictPrefixes key := by
  have hinits : (key ++ [c]).inits = key.inits ++ [key ++ [c]] := by
    rw [List.inits_append]
    simp
  have hlast : key.inits = key.inits.dropLast ++ [key] := by
    cases key using List.reverseRecOn with
    | nil => rfl
    | append_singleton key d =>
      rw [List.inits_append]
      simp
  calc strictPrefixes (key ++ [c])
      = key.inits.reverse := by rw [strictPrefixes, hinits, List.dropLast_concat]
    _ = (key.inits.dropLast ++ [key]).reverse := by rw [← hlast]
    _ = key :: strictPrefixes key := by rw [List.reverse_append]; rfl

/-- the ancestors of a node are the nodes at the strict prefixes of its key, nearest first -/
theorem ancestors_of_node? (h : t.WellFormed) {key : List Char} {n : Node α} (hn : t.node? key = some n) :
    (t.ancestors n.handle).map some = (strictPrefixes key).map fun k => (t.node? k).map fun m => m.handle := by
  induction key using List.reverseRecOn generalizing n with
  | nil =>
    cases hn
    show (t.ancestors t.root).map some = []
    rw [ancestors_root h]
    rfl
  | append_singleton key c ih =>
    obtain ⟨k, hk, hc⟩ := node?_concat hn
    rw [strictPrefixes_concat, ancestors_of_child h hk hc, List.map_cons, List.map_cons, ih hk, hk]
    rfl

/-! ## All links -/

/-- what the nodes of a trie, their handles and their links have to do with one another -/
structure Linked (t : Trie α) : Prop where
  /-- no two nodes have one handle -/
  distinct : (t.nodes.map fun n => n.handle).Nodup
  count : t.nodes.length = t.nodeCount
  /-- the size is the number of nodes with a value -/
  size : t.nodes.countP (fun n => n.value.isSome) = t.size
  /-- live handles are those of the nodes, and lead to them -/
  live : ∀ h n, t.at? h = some n ↔ n ∈ t.nodes ∧ n.handle = h
  /-- the root has no parent, no symbol and no value -/
  root : t.at? t.root = some t.rootNode ∧ t.parent? t.root = none ∧ t.symbol? t.root = none ∧ t.depth t.root = 0 ∧
    t.rootNode.value = none
  /-- each node is below the root -/
  reachable : ∀ n ∈ t.nodes, Relation.ReflTransGen Node.Edge t.rootNode n
  /-- a child is a node, and knows its parent, its symbol and its depth -/
  child : ∀ n ∈ t.nodes, ∀ c m, n.child? c = some m → m ∈ t.nodes ∧ t.parent? m.handle = some n.handle ∧
    t.symbol? m.handle = some c ∧ t.depth m.handle = t.depth n.handle + 1
  /-- each node but the root is the child of its parent under its symbol, and one deeper -/
  parent : ∀ m ∈ t.nodes, m.handle ≠ t.root → ∃ n ∈ t.nodes, ∃ c, t.parent? m.handle = some n.handle ∧
    t.symbol? m.handle = some c ∧ n.child? c = some m ∧ t.depth m.handle = t.depth n.handle + 1
  /-- the key of a handle leads to its node, and has as many symbols as the node is deep -/
  node_keyOf : ∀ n ∈ t.nodes, ∃ key, t.keyOf? n.handle = some key ∧ t.node? key = some n ∧
    t.depth n.handle = key.length
  /-- the handle of the node at a key leads to the key -/
  keyOf_node : ∀ key n, t.node? key = some n → n ∈ t.nodes ∧ t.keyOf? n.handle = some key
  /-- the ancestors of a node are the nodes at the strict prefixes of its key, nearest first and the root last -/
  ancestors : ∀ n ∈ t.nodes, ∀ key, t.keyOf? n.handle = some key →
    (t.ancestors n.handle).map some = (strictPrefixes key).map fun k => (t.node? k).map fun m => m.handle

theorem child_linked (h : t.WellFormed) {key : List Char} {n m : Node α} {c : Char} (hn : t.node? key = some n)
    (hm : n.child? c = some m) :
    t.parent? m.handle = some n.handle ∧ t.symbol? m.handle = some c ∧ t.depth m.handle = t.depth n.handle + 1 := by
  have horigin := (origin_of_child h hn hm).1
  refine ⟨?_, ?_, ?_⟩
  · unfold parent?
    rw [horigin]
  · unfold symbol?
    rw [horigin]
  · rw [depth_of_node? h hn]
    unfold depth
    rw [horigin]
    rfl

theorem linked_of_tracks {m : Entries α} (htracks : t.Tracks m) : t.Linked := by
  have h := htracks.wellFormed
  have hnode : ∀ n ∈ t.nodes, ∃ key, t.node? key = some n := fun n hn => (mem_nodes h).mp hn
  have hkeyOf : ∀ {key n}, t.node? key = some n → t.keyOf? n.handle = some key :=
    fun hn => (keyOf?_eq_some_iff h).mpr ⟨_, hn, rfl⟩
  constructor
  case distinct => exact nodup_handles h
  case count => exact length_nodes t
  case size =>
    rw [← htracks.shows.length_entries, entries, Forest.length_entriesFrom]
    exact List.countP_cons_of_neg (by simp [rootNode])
  case live => exact fun hd n => at?_eq_some_iff_mem h
  case root =>
    have hroot : t.node? [] = some t.rootNode := rfl
    refine ⟨at?_of_node? h hroot, ?_, ?_, depth_of_node? h hroot, rfl⟩
    · unfold parent?
      rw [h.root]
    · unfold symbol?
      rw [h.root]
  case reachable =>
    intro n hn
    obtain ⟨key, hkey⟩ := hnode n hn
    exact steps_of_node? hkey
  case child =>
    intro n hn c m hm
    obtain ⟨key, hkey⟩ := hnode n hn
    exact ⟨(mem_nodes h).mpr ⟨key ++ [c], (node?_append_symbol hkey c).trans hm⟩, child_linked h hkey hm⟩
  case parent =>
    intro m hm hroot
    obtain ⟨key, hkey⟩ := hnode m hm
    cases key using List.reverseRecOn with
    | nil =>
      cases hkey
      exact absurd rfl hroot
    | append_singleton key c =>
      obtain ⟨n, hn, hc⟩ := node?_concat hkey
      obtain ⟨hparent, hsymbol, hdepth⟩ := child_linked h hn hc
      exact ⟨n, (mem_nodes h).mpr ⟨key, hn⟩, c, hparent, hsymbol, hc, hdepth⟩
  case node_keyOf =>
    intro n hn
    obtain ⟨key, hkey⟩ := hnode n hn
    exact ⟨key, hkeyOf hkey, hkey, depth_of_node? h hkey⟩
  case keyOf_node => exact fun key n hn => ⟨(mem_nodes h).mpr ⟨key, hn⟩, hkeyOf hn⟩
  case ancestors =>
    intro n hn key hkey
    obtain ⟨key', hkey'⟩ := hnode n hn
    rw [hkeyOf hkey'] at hkey
    cases hkey
    exact ancestors_of_node? h hkey'

end Trie

end ClauseFold
