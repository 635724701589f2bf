/-
The shape of a trie. A trie that is changed by key only has no nodes but those on the way to its entries: what a value needs
is made with it and goes with it. So two such tries with the same entries are the same but for their handles, whatever was
put, written over and removed on the way there.

Results:
- `Call.tidy`, `tidy_ofCalls`: calls by key leave no node that nothing needs;
- `Forest.bare_ext`: a tree is known, but for the handles, by the values at its keys;
- `walk_bare`, `calls_bare`: a visitor that does not look at handles sees no more of a tree than that;
- `shape_of_entries`: the entries of a trie decide its shape.
-/
import ClauseFold.Proofs.Trie.Pruning
import ClauseFold.Proofs.Trie.Traversal

namespace ClauseFold

variable {σ α : Type}

/-! ## Trees without handles -/

/-- a tree with the same handle everywhere -/
def Forest.bare : Forest α → Forest α
  | nil => nil
  | node c _ v ch sib => node c 0 v ch.bare sib.bare

/-- a node with nothing to see of its handle and those below it -/
def Node.bare (n : Node α) : Node α := ⟨0, n.value, n.children.bare⟩

/-- a call with nothing to see of handles -/
def WalkCall.bare : WalkCall α → WalkCall α
  | visit key node => visit key node.bare
  | leave key node => leave key node.bare

/-- a visitor that does not look at handles -/
def Visitor.Blind (v : Visitor σ α) : Prop :=
  ∀ path n n' s, Node.bare n = Node.bare n' → v.visit path n s = v.visit path n' s ∧ v.leave path n s = v.leave path n' s

namespace Forest

theorem bare_bare (f : Forest α) : f.bare.bare = f.bare := by
  induction f with
  | nil => rfl
  | node c h v ch sib ihc ihs => rw [bare, bare, ihc, ihs]

theorem nodeCount_bare (f : Forest α) : f.bare.nodeCount = f.nodeCount := by
  induction f with
  | nil => rfl
  | node c h v ch sib ihc ihs => rw [bare, nodeCount, nodeCount, ihc, ihs]

theorem symbols_bare (f : Forest α) : f.bare.symbols = f.symbols := by
  induction f with
  | nil => rfl
  | node c h v ch sib _ ihs => rw [bare, symbols, symbols, ihs]

theorem child?_bare (f : Forest α) (c : Char) : f.bare.child? c = (f.child? c).map Node.bare := by
  induction f with
  | nil => rfl
  | node d h v ch sib _ ihs =>
    rw [bare, child?, child?, ihs]
    split_ifs <;> rfl

/-- trees with values at the same keys begin with the same symbol: each first symbol is a symbol of the other tree, so
neither comes after the other -/
theorem first_eq {c d : Char} {h h' : Handle} {v v' : Option α} {ch sib ch' sib' : Forest α} (habove : sib.Above c)
    (habove' : sib'.Above d) (hsame : ∀ key, ((node c h v ch sib).view? key).map Prod.snd =
      ((node d h' v' ch' sib').view? key).map Prod.snd) : c = d := by
  by_contra hne
  have hc := hsame [c]
  have hd := hsame [d]
  rw [view?_first, view?_node, if_neg hne] at hc
  rw [view?_first, view?_node, if_neg (Ne.symm hne)] at hd
  by_cases hlt : c < d
  · rw [view?_of_above (habove'.of_lt hlt)] at hc
    cases hc
  · have hgt : d < c := Char.not_le.mp fun hle => hne (Char.le_antisymm hle (Char.not_lt.mp hlt))
    rw [view?_of_above (habove.of_lt hgt)] at hd
    cases hd

/-- a tree is known, but for the handles, by the values at its keys -/
theorem bare_ext {f g : Forest α} (hf : f.Sorted) (hg : g.Sorted)
    (hsame : ∀ key, (f.view? key).map Prod.snd = (g.view? key).map Prod.snd) : f.bare = g.bare := by
  induction f generalizing g with
  | nil =>
    cases g with
    | nil => rfl
    | node d h' v' ch' sib' =>
      have hd := hsame [d]
      rw [view?_nil, view?_first] at hd
      cases hd
  | node c h v ch sib ihc ihs =>
    obtain ⟨habove, hch, hsib⟩ := hf
    cases g with
    | nil =>
      have hc := hsame [c]
      rw [view?_nil, view?_first] at hc
      cases hc
    | node d h' v' ch' sib' =>
      obtain ⟨habove', hch', hsib'⟩ := hg
      obtain rfl : c = d := first_eq habove habove' hsame
      have hvalue : v = v' := by
        have hc := hsame [c]
        rw [view?_first, view?_first] at hc
        exact Option.some.inj hc
      have hbelow : ch.bare = ch'.bare := by
        apply ihc hch hch'
        intro key
        cases key with
        | nil => rfl
        | cons e es =>
          have hkey := hsame (c :: e :: es)
          rwa [view?_node, view?_node, if_pos rfl, if_pos rfl, if_neg (List.cons_ne_nil e es),
            if_neg (List.cons_ne_nil e es)] at hkey
      have hbeside : sib.bare = sib'.bare := by
        apply ihs hsib hsib'
        intro key
        cases key with
        | nil => rfl
        | cons e es =>
          by_cases hec : e = c
          · rw [hec, view?_of_above habove, view?_of_above habove']
          · have hkey := hsame (e :: es)
            rwa [view?_node, view?_node, if_neg hec, if_neg hec] at hkey
      rw [bare, bare, hvalue, hbelow, hbeside]

/-! ## Walks without handles -/

variable {v : Visitor σ α}

/-- a visitor that does not look at handles comes to the same end in the tree without them -/
theorem walk_bare (hv : v.Blind) (f : Forest α) (path : List Char) (s : σ) : f.bare.walk v path s = f.walk v path s := by
  induction f generalizing path s with
  | nil => rfl
  | node c h value ch sib ihc ihs =>
    have hsame : Node.bare ⟨0, value, ch.bare⟩ = Node.bare ⟨h, value, ch⟩ := by simp [Node.bare, bare_bare]
    rw [bare, walk, walk, (hv (c :: path) _ _ s hsame).1]
    simp only [(hv (c :: path) _ _ _ hsame).2, ihc, ihs]

/-- and is called in the same way -/
theorem calls_bare (hv : v.Blind) (f : Forest α) (path : List Char) (s : σ) :
    f.bare.calls v path s = (f.calls v path s).map WalkCall.bare := by
  induction f generalizing path s with
  | nil => rfl
  | node c h value ch sib ihc ihs =>
    have hsame : Node.bare ⟨0, value, ch.bare⟩ = Node.bare ⟨h, value, ch⟩ := by simp [Node.bare, bare_bare]
    rw [bare, Forest.calls, Forest.calls, (hv (c :: path) _ _ s hsame).1]
    by_cases hdone : v.isComplete s = true
    · rw [if_pos hdone, if_pos hdone]
      rfl
    · rw [if_neg hdone, if_neg hdone]
      rcases v.visit (c :: path) ⟨h, value, ch⟩ s with ⟨_ | _, s'⟩
      · simp [(hv (c :: path) _ _ _ hsame).2, ihs, WalkCall.bare, Node.bare]
      · simp [(hv (c :: path) _ _ _ hsame).2, ihc, ihs, walk_bare hv, WalkCall.bare, Node.bare]

end Forest

namespace Node

theorem child?_bare (n : Node α) (c : Char) : n.bare.child? c = (n.child? c).map Node.bare :=
  Forest.child?_bare n.children c

theorem descend?_bare (n : Node α) (key : List Char) : n.bare.descend? key = (n.descend? key).map Node.bare := by
  induction key generalizing n with
  | nil => rfl
  | cons c cs ih =>
    rw [descend?, descend?, child?_bare]
    cases n.child? c with
    | none => rfl
    | some m => exact ih m

end Node

/-! ## Calls by key -/

namespace Trie

/-- a call that names a key, or none, and no handle -/
def Call.ByKey : Call α → Prop
  | put _ _ => True
  | remove _ => True
  | clear => True
  | insertChild _ _ => False
  | setValue _ _ => False

/-- each node below the root is on the way to a value -/
def Tidy (t : Trie α) : Prop :=
  ∀ key, key ≠ [] → (t.view? key).isSome = true → ∃ k, key <+: k ∧ (t.get? k).isSome = true

variable {t t' : Trie α}

theorem tidy_of_nil (h : t.forest = .nil) : t.Tidy := by
  intro key hkey hsome
  rw [view?_eq t hkey, h, Forest.view?_nil] at hsome
  cases hsome

theorem Tidy.store (ht : t.Tidy) (h : t.WellFormed) {key : List Char} (hkey : key ≠ []) (a : α)
    (previous : Option α) : (t.store key a previous).Tidy := by
  intro k hk hsome
  rcases (isSome_view?_store h key a previous k).mp hsome with hway | hold
  · exact ⟨key, hway, by rw [get?_store h hkey, if_pos rfl]; rfl⟩
  · obtain ⟨k', hpre, hvalue⟩ := ht k hk hold
    refine ⟨k', hpre, ?_⟩
    rw [get?_store h hkey]
    split_ifs
    · rfl
    · exact hvalue

/-- what is left of a tidy trie after a removal is tidy: a node that nothing needs is on the way to the key, and idle -/
theorem Tidy.remove (ht : t.Tidy) (h : t.WellFormed) (key : List Char) : (t.remove key).2.Tidy := by
  cases hget : t.get? key with
  | none =>
    rw [remove_of_none hget]
    exact ht
  | some a =>
    -- a node off the way to the key is needed for what it was needed for before
    have hoff : ∀ k m, k ≠ [] → ¬k <+: key → View.drained t.view? key k = some m →
        ∃ k', k <+: k' ∧ ((t.remove key).2.get? k').isSome = true := by
      intro k m hk hway hm
      obtain ⟨v, hv⟩ := View.handle_of_drained hm
      obtain ⟨k', hpre, hvalue⟩ := ht k hk (by rw [hv]; rfl)
      refine ⟨k', hpre, ?_⟩
      rwa [get?_remove h, if_neg fun heq : k' = key => hway (heq ▸ hpre)]
    intro p hp hsome
    obtain ⟨m, hm⟩ := Option.isSome_iff_exists.mp hsome
    obtain ⟨hneeded, hdrained⟩ := (h.remove_pruned hget).of_some hm
    by_cases hway : p <+: key
    · obtain ⟨k, m', hpk, hm', hused⟩ : ∃ k m', p <+: k ∧ View.drained t.view? key k = some m' ∧
          ¬(k <+: key ∧ m'.2 = none) := by
        by_contra hnone
        refine hneeded ⟨hp, hway, ?_⟩
        intro k m' hpk hm'
        by_contra hused
        exact hnone ⟨k, m', hpk, hm', hused⟩
      by_cases hk : k <+: key
      · have hvalue : m'.2 ≠ none := fun hnone => hused ⟨hk, hnone⟩
        obtain ⟨n, hn, rfl⟩ := Option.map_eq_some_iff.mp hm'
        have hkey : k ≠ key := fun heq => hvalue (if_pos heq)
        refine ⟨k, hpk, ?_⟩
        rw [get?_remove h, if_neg hkey, get?_eq_view?, hn]
        simpa [hkey, Option.isSome_iff_ne_none] using hvalue
      · have hnonempty : k ≠ [] := by
          intro heq
          rw [heq] at hk
          exact hk List.nil_prefix
        obtain ⟨k', hpre, hvalue⟩ := hoff k m' hnonempty hk hm'
        exact ⟨k', hpk.trans hpre, hvalue⟩
    · exact hoff p m hp hway hdrained

/-- calls by key leave a tidy trie tidy -/
theorem Call.tidy {c : Call α} (hc : c.ByKey) (ht : t.Tidy) (h : t.WellFormed) : (c.run t).2.Tidy := by
  cases c with
  | put key value =>
    by_cases hkey : key = []
    · subst hkey
      exact ht
    · simp only [run, put_eq hkey, outcome]
      exact ht.store h hkey _ _
  | remove key => exact ht.remove h key
  | clear => exact tidy_of_nil rfl
  | insertChild parent symbol => exact hc.elim
  | setValue node value => exact hc.elim

theorem tidy_afterAll {m : Entries α} {calls : List (Call α)} (hcalls : ∀ c ∈ calls, c.ByKey) (ht : t.Tidy)
    (h : t.Tracks m) : (t.afterAll calls).Tidy := by
  induction calls generalizing t m with
  | nil => exact ht
  | cons c calls ih =>
    have hc : c.ByKey := hcalls c List.mem_cons_self
    exact ih (fun d hd => hcalls d (List.mem_cons_of_mem c hd)) (Call.tidy hc ht h.wellFormed) (run_refines h c).tracks

theorem tidy_ofCalls {calls : List (Call α)} (hcalls : ∀ c ∈ calls, c.ByKey) : (ofCalls calls).Tidy :=
  tidy_afterAll hcalls (tidy_of_nil rfl) tracks_empty

/-! ## Tries of the same entries -/

/-- a tidy trie has the nodes on the way to its entries, and no others -/
theorem Tidy.isSome_view?_iff (ht : t.Tidy) (h : t.WellFormed) (key : List Char) :
    (t.view? key).isSome = true ↔ key = [] ∨ ∃ e ∈ t.entries, key <+: e.1 := by
  refine ⟨?_, ?_⟩
  · intro hsome
    by_cases hkey : key = []
    · exact Or.inl hkey
    · obtain ⟨k, hpre, hvalue⟩ := ht key hkey hsome
      obtain ⟨a, ha⟩ := Option.isSome_iff_exists.mp hvalue
      exact Or.inr ⟨(k, a), (mem_entries h k a).mpr ha, hpre⟩
  · intro hway
    rcases hway with rfl | ⟨⟨k, a⟩, he, rest, rfl⟩
    · rfl
    · have hget := (mem_entries h _ a).mp he
      rw [get?_eq_view?] at hget
      obtain ⟨m, hm, -⟩ := Option.bind_eq_some_iff.mp hget
      have hend : (t.view? (key ++ rest)).isSome = true := by rw [hm]; rfl
      exact isSome_view?_of_append hend

/-- the entries of a tidy trie decide the tree below its root, but for the handles -/
theorem bare_eq (h : t.WellFormed) (h' : t'.WellFormed) (ht : t.Tidy) (ht' : t'.Tidy)
    (hentries : t.entries = t'.entries) : t.forest.bare = t'.forest.bare := by
  have hget : ∀ key, t.get? key = t'.get? key := by
    intro key
    apply Option.ext
    intro a
    rw [← mem_entries h, ← mem_entries h', hentries]
  apply Forest.bare_ext h.sorted h'.sorted
  intro key
  cases key with
  | nil => rfl
  | cons c cs =>
    have hne : c :: cs ≠ [] := List.cons_ne_nil c cs
    have hthere : (t.view? (c :: cs)).isSome = true ↔ (t'.view? (c :: cs)).isSome = true := by
      rw [ht.isSome_view?_iff h, ht'.isSome_view?_iff h', hentries]
    have hvalue := hget (c :: cs)
    rw [get?_eq_view?, get?_eq_view?] at hvalue
    rw [← view?_eq t hne, ← view?_eq t' hne]
    cases hV : t.view? (c :: cs) with
    | none =>
      rw [hV] at hthere
      rw [Option.not_isSome_iff_eq_none.mp fun hsome => Bool.false_ne_true (hthere.mpr hsome)]
    | some m =>
      rw [hV] at hthere hvalue
      obtain ⟨m', hm'⟩ := Option.isSome_iff_exists.mp (hthere.mp rfl)
      rw [hm'] at hvalue ⊢
      exact congrArg some hvalue

/-- tries that are the same but for their handles -/
structure SameShape (t t' : Trie α) : Prop where
  /-- the nodes are those on the way to the entries, and the root -/
  paths : ∀ key, (t.node? key).isSome = true ↔ key = [] ∨ ∃ e ∈ t.entries, key <+: e.1
  nodes : ∀ key, (t.node? key).map Node.bare = (t'.node? key).map Node.bare
  nodeCount : t.nodeCount = t'.nodeCount
  /-- what stands at one key in both has the same symbols below it, the same value and the same depth -/
  alike : ∀ key n n', t.node? key = some n → t'.node? key = some n' →
    n.children.symbols = n'.children.symbols ∧ n.value = n'.value ∧ t.depth n.handle = t'.depth n'.handle
  /-- a visitor that does not look at handles comes to the same end, by the same calls -/
  walks : ∀ (σ : Type) (v : Visitor σ α) (s : σ), v.Blind → t.accept v s = t'.accept v s ∧
    (t.accept v.recorded (s, [])).2.map WalkCall.bare = (t'.accept v.recorded (s, [])).2.map WalkCall.bare

theorem sameShape_of_bare (h : t.WellFormed) (h' : t'.WellFormed) (ht : t.Tidy)
    (hbare : t.forest.bare = t'.forest.bare) : t.SameShape t' := by
  have hnodes : ∀ key, (t.node? key).map Node.bare = (t'.node? key).map Node.bare := by
    intro key
    have hroot : t.rootNode.bare = t'.rootNode.bare := by simp [Node.bare, rootNode, hbare]
    rw [node?, node?, ← Node.descend?_bare, ← Node.descend?_bare, hroot]
  constructor
  case paths =>
    intro key
    rw [← ht.isSome_view?_iff h, view?, Option.isSome_map]
  case nodes => exact hnodes
  case nodeCount =>
    rw [nodeCount, nodeCount, ← Forest.nodeCount_bare t.forest, hbare, Forest.nodeCount_bare]
  case alike =>
    intro key n n' hn hn'
    have hsame := hnodes key
    rw [hn, hn'] at hsame
    have hbare : n.bare = n'.bare := Option.some.inj hsame
    have hchildren : n.children.bare = n'.children.bare := congrArg Node.children hbare
    have hvalue : n.bare.value = n'.bare.value := congrArg Node.value hbare
    refine ⟨?_, hvalue, ?_⟩
    · rw [← Forest.symbols_bare n.children, hchildren, Forest.symbols_bare]
    · rw [depth_of_node? h hn, depth_of_node? h' hn']
  case walks =>
    intro σ v s hv
    refine ⟨?_, ?_⟩
    · rw [accept_eq_walk, accept_eq_walk, ← Forest.walk_bare hv t.forest, hbare, Forest.walk_bare hv]
    · rw [accept_eq_walk, accept_eq_walk, Forest.walk_recorded, Forest.walk_recorded, List.nil_append, List.nil_append,
        ← Forest.calls_bare hv t.forest, hbare, Forest.calls_bare hv]

end Trie

/-! ## Arenas of the same entries -/

namespace Arena

variable {a a' : Arena α} {t t' : Trie α}

/-- arenas that are the same but for their handles -/
structure SameShape (a a' : Arena α) : Prop where
  nodeCount : a.cells.size = a'.cells.size
  paths : ∀ key, (a.node? key).isSome = (a'.node? key).isSome
  /-- what stands at one key in both has the same symbol, depth and value, and children for the same symbols -/
  alike : ∀ (key : List Char) (g g' : Handle) (n n' : Cell α), a.node? key = some g → a'.node? key = some g' →
    a.cells[g]? = some n → a'.cells[g']? = some n' →
      n.symbol = n'.symbol ∧ n.depth = n'.depth ∧ n.value = n'.value ∧ ∀ c : Char, c ∈ n.children ↔ c ∈ n'.children

theorem Mirrors.nodeCount (h : a.Mirrors t) : a.cells.size = t.nodeCount := by
  have hlength := h.perm_nodes.length_eq
  rwa [List.length_map, List.length_map, Std.ExtTreeMap.length_toList, Trie.length_nodes] at hlength

theorem Mirrors.sameShape (h : a.Mirrors t) (h' : a'.Mirrors t') (hsame : t.SameShape t') : a.SameShape a' := by
  have hview : ∀ key, (t.view? key).map Prod.snd = (t'.view? key).map Prod.snd := by
    intro key
    have hnodes := congrArg (Option.map Node.value) (hsame.nodes key)
    rw [Option.map_map, Option.map_map] at hnodes
    rw [Trie.view?, Trie.view?, Option.map_map, Option.map_map]
    exact hnodes
  have hisSome : ∀ key, ((t.view? key).map Prod.fst).isSome = ((t'.view? key).map Prod.fst).isSome := by
    intro key
    have hsome := congrArg Option.isSome (hview key)
    rwa [Option.isSome_map, Option.isSome_map, ← Option.isSome_map (f := Prod.fst),
      ← Option.isSome_map (f := Prod.fst)] at hsome
  constructor
  case nodeCount => rw [h.nodeCount, h'.nodeCount, hsame.nodeCount]
  case paths =>
    intro key
    rw [h.stores.node?_eq, h'.stores.node?_eq, hisSome]
  case alike =>
    intro key g g' n n' hg hg' hn hn'
    have hkey : ∀ {a : Arena α} {t : Trie α} {g : Handle} {n : Cell α}, a.Mirrors t → a.node? key = some g →
        a.cells[g]? = some n → ∃ v, t.view? key = some (g, v) ∧ n.Shows t.view? key v := by
      intro a t g n h hg hn
      rw [h.stores.node?_eq] at hg
      obtain ⟨m, hm, rfl⟩ := Option.map_eq_some_iff.mp hg
      obtain ⟨n₀, hn₀, hshows⟩ := h.stores.cell hm
      rw [hn] at hn₀
      cases hn₀
      exact ⟨m.2, hm, hshows⟩
    obtain ⟨v, hv, hshows⟩ := hkey h hg hn
    obtain ⟨v', hv', hshows'⟩ := hkey h' hg' hn'
    have hvalue := hview key
    rw [hv, hv'] at hvalue
    refine ⟨?_, ?_, ?_, ?_⟩
    · rw [hshows.symbol, hshows'.symbol]
    · rw [hshows.depth, hshows'.depth]
    · rw [hshows.value, hshows'.value]
      exact Option.some.inj hvalue
    · intro c
      rw [Std.ExtTreeMap.mem_iff_isSome_getElem?, Std.ExtTreeMap.mem_iff_isSome_getElem?, hshows.children,
        hshows'.children, hisSome]

end Arena

namespace Trie

/-- **The entries of a trie decide its shape.** Let two tries come from an empty one by calls by key, whichever and however
many, and end with the same entries. Then both have the nodes on the way to these entries and no others, with the same
children, depth and value at each key; and a walk is the same in both, call by call, for each visitor that does not look at
handles. -/
theorem shape_of_entries {calls calls' : List (Call α)} (h : ∀ c ∈ calls, c.ByKey) (h' : ∀ c ∈ calls', c.ByKey)
    (hentries : (ofCalls calls).entries = (ofCalls calls').entries) :
    (ofCalls calls).SameShape (ofCalls calls') ∧ (Arena.ofCalls calls).SameShape (Arena.ofCalls calls') := by
  have hmirrors := Arena.mirrors_ofCalls calls
  have hmirrors' := Arena.mirrors_ofCalls calls'
  have hbare := bare_eq hmirrors.wellFormed hmirrors'.wellFormed (tidy_ofCalls h) (tidy_ofCalls h') hentries
  have hsame := sameShape_of_bare hmirrors.wellFormed hmirrors'.wellFormed (tidy_ofCalls h) hbare
  exact ⟨hsame, hmirrors.sameShape hmirrors' hsame⟩

def onePut : List (Call Nat) := [.put ['a', 'b'] 1]

/-- the same value is put after others, and after others have gone, among them one below it -/
def manyCalls : List (Call Nat) :=
  [.put ['x'] 0, .clear, .put ['a', 'b', 'c'] 2, .put ['a', 'b'] 3, .remove ['a', 'b', 'c'], .put ['a', 'b'] 1]

theorem shape_of_entries_manyCalls :
    (∀ c ∈ onePut, c.ByKey) ∧ (∀ c ∈ manyCalls, c.ByKey) ∧ (ofCalls onePut).entries = (ofCalls manyCalls).entries ∧
    (ofCalls onePut).SameShape (ofCalls manyCalls) ∧ (Arena.ofCalls onePut).SameShape (Arena.ofCalls manyCalls) := by
  have hone : ∀ c ∈ onePut, c.ByKey := by simp [onePut, Call.ByKey]
  have hmany : ∀ c ∈ manyCalls, c.ByKey := by simp [manyCalls, Call.ByKey]
  have hentries : (ofCalls onePut).entries = (ofCalls manyCalls).entries := by decide
  exact ⟨hone, hmany, hentries, shape_of_entries hone hmany hentries⟩

end Trie

end ClauseFold
