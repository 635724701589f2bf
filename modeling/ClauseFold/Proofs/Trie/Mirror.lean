/-
A trie and its arena. The operations of `Trie` change a tree; those of `Arena` change nodes and links one after the other.
Side by side, from the empty trie on, both give the same answers and the same handles, and the arena always holds the nodes
of the trie with all their links.

Results:
- `Mirrors.put`, `Mirrors.remove`, `Mirrors.clear`, `Mirrors.insertChild_of_live`, `Mirrors.setValue`: the operations;
- `run_mirrors`: a call says the same of both;
- `mirrors_ofCalls`: so the two go on side by side after any calls.
-/
import Mathlib.Data.List.Induction
import ClauseFold.Proofs.Trie.FiniteMap
import ClauseFold.Proofs.Trie.Arena

namespace ClauseFold

variable {α : Type}

namespace Arena

/-- an arena that holds the nodes of a trie, and gives the same handles -/
structure Mirrors (a : Arena α) (t : Trie α) : Prop where
  wellFormed : t.WellFormed
  stores : a.Stores t.view?
  next : a.next = t.origins.size
  size : a.size = t.size

variable {a : Arena α} {t : Trie α}

theorem Mirrors.root (h : a.Mirrors t) : a.root = t.root := by
  have hroot := h.stores.rooted.root
  rw [Trie.view?_root] at hroot
  exact (congrArg Prod.fst (Option.some.inj hroot)).symm

/-- a root and nothing else -/
theorem stores_root {root next : Handle} (hlt : root < next) (size : Nat) :
    (⟨(∅ : Std.ExtTreeMap Handle (Cell α)).insert root (.fresh none none 0), next, root, size⟩ : Arena α).Stores
      fun key => if key = [] then some (root, none) else none := by
  have hsome : ∀ {key : List Char} {m : Handle × Option α},
      (if key = [] then some (root, none) else none : Option (Handle × Option α)) = some m →
        key = [] ∧ m = (root, none) := by
    intro key m hm
    split_ifs at hm with hkey
    · cases hm
      exact ⟨hkey, rfl⟩
  refine ⟨⟨rfl, ?_, ?_, ?_⟩, ?_, ?_⟩
  · intro key c m hm
    have hkey := (hsome hm).1
    simp at hkey
  · intro key key' m m' hm hm' _
    rw [(hsome hm).1, (hsome hm').1]
  · intro key m hm
    rw [(hsome hm).2]
    exact hlt
  · intro key m hm
    obtain ⟨rfl, rfl⟩ := hsome hm
    refine ⟨.fresh none none 0, Std.ExtTreeMap.getElem?_insert_self, rfl, rfl, rfl, rfl, ?_⟩
    intro c
    simp [Cell.fresh]
  · intro g n hg
    rw [Std.ExtTreeMap.getElem?_insert] at hg
    simp only [Std.LawfulEqOrd.compare_eq_iff_eq, Std.ExtTreeMap.getElem?_empty] at hg
    split_ifs at hg with hroot
    exact ⟨[], none, by rw [if_pos rfl, hroot]⟩

theorem view?_of_nil (h : t.forest = .nil) : t.view? = fun key => if key = [] then some (t.root, none) else none := by
  funext key
  cases key with
  | nil => rfl
  | cons c cs =>
    rw [Trie.view?_eq t (List.cons_ne_nil c cs), h, Forest.view?_nil, if_neg (List.cons_ne_nil c cs)]

theorem mirrors_empty : (empty : Arena α).Mirrors Trie.empty := by
  refine ⟨Trie.wellFormed_empty, ?_, rfl, rfl⟩
  rw [view?_of_nil rfl]
  exact stores_root Nat.one_pos 0

theorem Mirrors.clear (h : a.Mirrors t) : a.clear.Mirrors t.clear := by
  have hnext : t.clear.root = a.next := h.next.symm
  refine ⟨.clear t, ?_, ?_, rfl⟩
  · rw [view?_of_nil rfl, hnext]
    exact stores_root (Nat.lt_succ_self _) 0
  · show a.next + 1 = (t.origins.push .root).size
    rw [h.next, Array.size_push]

/-! ## Look-ups -/

theorem Stores.node?_eq {V : View α} (h : a.Stores V) (key : List Char) : a.node? key = (V key).map Prod.fst := by
  induction key using List.reverseRecOn with
  | nil =>
    rw [h.rooted.root]
    rfl
  | append_singleton key c ih =>
    unfold node? at ih ⊢
    rw [List.foldlM_append, ih]
    cases hV : V key with
    | none =>
      rw [h.rooted.none_below hV]
      rfl
    | some p =>
      obtain ⟨n, hn, hshows⟩ := h.cell hV
      show (a.child? p.1 c).bind pure = _
      rw [child?, hn, Option.bind_some, hshows.children]
      cases V (key ++ [c]) <;> rfl

theorem Stores.value_eq {V : View α} (h : a.Stores V) {key : List Char} {m : Handle × Option α} (hm : V key = some m) :
    (a.cells[m.1]?.bind fun n => n.value) = m.2 := by
  obtain ⟨n, hn, hshows⟩ := h.cell hm
  rw [hn, Option.bind_some, hshows.value]

/-- a handle that is stale for the trie is stale in the arena -/
theorem Mirrors.stale (h : a.Mirrors t) {g : Handle} (hg : t.keyOf? g = none) : a.cells[g]? = none := by
  apply h.stores.stale
  intro key v hkey
  rw [Trie.keyOf?_of_view? h.wellFormed hkey] at hg
  cases hg

theorem view?_of_keyOf? {g : Handle} {key : List Char} (hg : t.keyOf? g = some key) :
    ∃ v, t.view? key = some (g, v) := by
  obtain ⟨n, -, hn, rfl⟩ := Trie.node?_of_keyOf? hg
  exact ⟨n.value, Trie.view?_of_node? hn⟩

/-! ## Calls -/

theorem Mirrors.get? (h : a.Mirrors t) (key : List Char) : a.get? key = t.get? key := by
  rw [Arena.get?, h.stores.node?_eq, Trie.get?_eq_view?]
  cases hV : t.view? key with
  | none => rfl
  | some m => exact h.stores.value_eq hV

theorem Mirrors.insertChild_of_live (h : a.Mirrors t) {parent : Handle} {key : List Char}
    (hkey : t.keyOf? parent = some key) (c : Char) :
    ∃ g a' t', a.insertChild parent c = (.ok g, a') ∧ t.insertChild parent c = .ok (g, t') ∧ a'.Mirrors t' := by
  obtain ⟨n, hat, hn, rfl⟩ := Trie.node?_of_keyOf? hkey
  have hview : t.view? key = some (n.handle, n.value) := Trie.view?_of_node? hn
  have hchild := Trie.node?_append_symbol hn c
  obtain ⟨g, t', ht', hhas⟩ := Trie.insertChild_of_live h.wellFormed hkey c
  cases hm : n.child? c with
  | some m =>
    have hsame : t.insertChild n.handle c = .ok (m.handle, t) := by
      unfold Trie.insertChild
      simp only [hat, hm]
    rw [hm] at hchild
    exact ⟨m.handle, a, t, h.stores.insertChild_of_some hview (Trie.view?_of_node? hchild), hsame, h⟩
  | none =>
    have hnone : t.view? (key ++ [c]) = none := by
      unfold Trie.view?
      rw [hchild, hm]
      rfl
    have hmade : t.insertChild n.handle c = .ok (t.origins.size, t.insert id (key ++ [c])) := by
      unfold Trie.insertChild
      simp only [hat, hm]
      rw [Trie.path_of_view? h.wellFormed hview, List.reverse_reverse]
    rw [hmade] at ht'
    cases ht'
    refine ⟨a.next, _, _, h.stores.insertChild_of_none hview hnone, h.next ▸ hmade, hhas.wellFormed, ?_, ?_, h.size⟩
    · have hset : (t.insert id (key ++ [c])).view? = View.set t.view? (key ++ [c]) (some (a.next, none)) := by
        funext k
        rw [hhas.view?, Trie.get?_eq_view?, hnone, h.next]
        rfl
      rw [hset]
      exact h.stores.make hview hnone
    · have hway : (t.view? key).isSome = true := by rw [hview]; rfl
      rw [Trie.size_origins_insert, Trie.known_of_view? hway hnone, ← h.next]
      simp [make]

/-- where the nodes on the way to a key have been made, to set the value at its end is to store it at the key -/
theorem setValue_of_grown (h : t.WellFormed) {key : List Char} (hkey : key ≠ [])
    (hstores : a.Stores (t.grown key))
    (hnext : a.next = t.origins.size + (key.length - t.forest.known key)) (hsize : a.size = t.size) {g : Handle}
    {v : Option α} (hg : t.grown key key = some (g, v)) (value : α) :
    ∃ a', a.setValue g value = (.ok (t.get? key), a') ∧ a'.Mirrors (t.store key value (t.get? key)) := by
  have hvalue : t.get? key = v := by
    rw [Trie.get?_eq_view?, ← View.value_grow (Trie.known_view? t key) key.length key]
    exact congrArg (Option.bind · Prod.snd) hg
  refine ⟨a.write g (some value) (if v.isSome then a.size else a.size + 1), ?_, h.store _ _ _, ?_, ?_, ?_⟩
  · rw [hvalue]
    exact hstores.setValue hkey hg value
  · rw [Trie.view?_store h hkey value _ hg]
    exact hstores.write hkey hg _ _
  · show a.next = (t.insert (fun _ => some value) key).origins.size
    rw [hnext, Trie.size_origins_insert]
  · rw [hvalue]
    show (if v.isSome then a.size else a.size + 1) = if v.isSome then t.size else t.size + 1
    rw [hsize]

theorem Mirrors.put (h : a.Mirrors t) {key : List Char} (hkey : key ≠ []) (value : α) :
    ∃ a', a.put key value = (.ok (t.get? key), a') ∧ a'.Mirrors (t.store key value (t.get? key)) := by
  have hstart : View.grow t.view? t.origins.size (t.forest.known key) key ([] : List Char).length = t.view? :=
    View.grow_of_le (Nat.zero_le _)
  obtain ⟨g, a₁, v, hway, hstores, hnext, hsize, hg⟩ :=
    Stores.insertWay (p := (t.root, none)) (Trie.known_view? t key) (List.nil_append key) (hstart ▸ h.stores)
      (by rw [h.next]; simp) (by rw [hstart]; rfl)
  obtain ⟨a', hset, hmirrors⟩ :=
    setValue_of_grown h.wellFormed hkey hstores hnext (hsize.trans h.size) hg value
  refine ⟨a', ?_, hmirrors⟩
  rw [Arena.put, if_neg (by simpa using hkey), h.root, hway]
  exact hset

theorem Mirrors.setValue (h : a.Mirrors t) {g : Handle} {key : List Char} (hkey : key ≠ []) (hg : t.keyOf? g = some key)
    (value : α) :
    ∃ a', a.setValue g value = (.ok (t.get? key), a') ∧ a'.Mirrors (t.store key value (t.get? key)) := by
  obtain ⟨v, hv⟩ := view?_of_keyOf? hg
  have hthere : (t.view? key).isSome = true := by rw [hv]; rfl
  have hgrow : t.grown key = t.view? := Trie.grown_of_isSome hthere
  have hle : key.length ≤ t.forest.known key := (Trie.isSome_view?_iff t (List.prefix_refl key)).mp hthere
  refine setValue_of_grown (v := v) h.wellFormed hkey ?_ ?_ h.size ?_ value
  · rw [hgrow]
    exact h.stores
  · rw [Nat.sub_eq_zero_of_le hle, h.next]
    rfl
  · rw [hgrow, hv]

theorem Mirrors.remove (h : a.Mirrors t) (key : List Char) :
    ∃ a', a.remove key = (t.get? key, a') ∧ a'.Mirrors (t.remove key).2 := by
  unfold Arena.remove
  rw [h.stores.node?_eq, Trie.get?_eq_view?]
  cases hm : t.view? key with
  | none =>
    have hget : t.get? key = none := by rw [Trie.get?_eq_view?, hm]; rfl
    rw [Trie.remove_of_none hget]
    exact ⟨a, rfl, h⟩
  | some m =>
    obtain ⟨g, v⟩ := m
    have hcell : (a.cells[g]?.bind fun n => n.value) = v := h.stores.value_eq hm
    have hget : t.get? key = v := by rw [Trie.get?_eq_view?, hm]; rfl
    simp only [Option.map_some, Option.bind_some, hcell]
    cases v with
    | none =>
      rw [Trie.remove_of_none hget]
      exact ⟨a, rfl, h⟩
    | some value =>
      have hkey : key ≠ [] := by
        intro hempty
        rw [hempty] at hm
        cases hm
      have hwrite := h.stores.write hkey hm none (a.size - 1)
      obtain ⟨hnext, -, hsize⟩ := prune_fields (a.write g none (a.size - 1)) g
      refine ⟨_, rfl, h.wellFormed.remove key, ?_, ?_, ?_⟩
      · exact hwrite.prune (Trie.remove_prunes h.wellFormed hm) (View.set_self key _)
      · rw [hnext, Trie.remove_of_some hget]
        exact h.next
      · rw [hsize, Trie.remove_of_some hget]
        show a.size - 1 = t.size - 1
        rw [h.size]

end Arena

/-- what a call has to say, and the arena it leaves -/
def Trie.Call.runIn (a : Arena α) : Trie.Call α → Except TrieError (Trie.Answer α) × Arena α
  | put key value => ((a.put key value).1.map .previous, (a.put key value).2)
  | remove key => (.ok (.previous (a.remove key).1), (a.remove key).2)
  | clear => (.ok .done, a.clear)
  | insertChild parent symbol => ((a.insertChild parent symbol).1.map .child, (a.insertChild parent symbol).2)
  | setValue node value => ((a.setValue node value).1.map .previous, (a.setValue node value).2)

namespace Arena

def ofCalls (calls : List (Trie.Call α)) : Arena α := calls.foldl (fun a c => (c.runIn a).2) empty

variable {a : Arena α} {t : Trie α}

/-- a call says the same of a trie and of its arena, and leaves a trie and its arena; a call that is refused changes
nothing -/
theorem run_mirrors (h : a.Mirrors t) (c : Trie.Call α) :
    (c.runIn a).1 = (c.run t).1 ∧ (c.runIn a).2.Mirrors (c.run t).2 ∧
      ∀ e, (c.runIn a).1 = .error e → (c.runIn a).2 = a := by
  cases c with
  | put key value =>
    by_cases hkey : key = []
    · subst hkey
      exact ⟨rfl, h, fun _ _ => rfl⟩
    · obtain ⟨a', ha', h'⟩ := h.put hkey value
      simp only [Trie.Call.runIn, Trie.Call.run, ha', Trie.put_eq hkey]
      exact ⟨rfl, h', fun _ he => by cases he⟩
  | remove key =>
    obtain ⟨a', ha', h'⟩ := h.remove key
    simp only [Trie.Call.runIn, Trie.Call.run, ha', ← Trie.remove_fst]
    exact ⟨rfl, h', fun _ he => by cases he⟩
  | clear => exact ⟨rfl, h.clear, fun _ he => by cases he⟩
  | insertChild parent symbol =>
    cases hkey : t.keyOf? parent with
    | none =>
      have hstale : a.insertChild parent symbol = (.error .unknownNode, a) := by
        simp only [insertChild, h.stale hkey]
      simp only [Trie.Call.runIn, Trie.Call.run, hstale, Trie.insertChild_of_stale hkey]
      exact ⟨rfl, h, fun _ _ => trivial⟩
    | some key =>
      obtain ⟨g, a', t', ha', ht', h'⟩ := h.insertChild_of_live hkey symbol
      simp only [Trie.Call.runIn, Trie.Call.run, ha', ht']
      exact ⟨rfl, h', fun _ he => by cases he⟩
  | setValue node value =>
    by_cases hroot : node = t.root
    · have hrefused : a.setValue node value = (.error .emptyKey, a) := if_pos (hroot.trans h.root.symm)
      have hrefused' : t.setValue node value = .error .emptyKey := if_pos hroot
      simp only [Trie.Call.runIn, Trie.Call.run, hrefused, hrefused']
      exact ⟨rfl, h, fun _ _ => trivial⟩
    · cases hkey : t.keyOf? node with
      | none =>
        have hstale : a.setValue node value = (.error .unknownNode, a) := by
          simp only [setValue, h.root, if_neg hroot, h.stale hkey]
        simp only [Trie.Call.runIn, Trie.Call.run, hstale, Trie.setValue_of_stale hroot hkey]
        exact ⟨rfl, h, fun _ _ => trivial⟩
      | some key =>
        obtain ⟨hne, hput⟩ := Trie.setValue_of_live hroot hkey value
        obtain ⟨a', ha', h'⟩ := h.setValue hne hkey value
        simp only [Trie.Call.runIn, Trie.Call.run, ha', hput, Trie.put_eq hne]
        exact ⟨rfl, h', fun _ he => by cases he⟩

theorem mirrors_ofCalls (calls : List (Trie.Call α)) : (ofCalls calls).Mirrors (Trie.ofCalls calls) := by
  have hall : ∀ (a : Arena α) (t : Trie α), a.Mirrors t →
      (calls.foldl (fun a c => (c.runIn a).2) a).Mirrors (t.afterAll calls) := by
    induction calls with
    | nil => exact fun a t h => h
    | cons c calls ih => exact fun a t h => ih _ _ (run_mirrors h c).2.1
  exact hall empty Trie.empty mirrors_empty

end Arena

end ClauseFold
