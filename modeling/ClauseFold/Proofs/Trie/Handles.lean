/-
How long a handle is good for. A handle is given once, for one node at one key. As long as the node is there the handle
leads to it and to its key, whatever happens elsewhere; when the node has gone, by a removal or because all has been
cleared, the handle is stale, and it stays so even if there is a node at the same key again.

Results:
- `Call.precedes`, `precedes_afterAll`: calls give new handles only, and old ones keep their meaning or lose it;
- `WellFormed.removes`, `Arena.Mirrors.removes`: which handles a removal makes stale;
- `removal_prunes_idle_nodes`: removals and handles after any calls.
-/
import ClauseFold.Proofs.Trie.Pruning

namespace ClauseFold

variable {α : Type}

namespace Trie

variable {t t' t'' : Trie α}

/-! ## Handles that were given -/

/-- a trie and a later one: the handles of the first mean the same in the second, or nothing -/
structure Precedes (t t' : Trie α) : Prop where
  given : t.origins.size ≤ t'.origins.size
  keyOf? : ∀ g key, g < t.origins.size → t'.keyOf? g = some key → t.keyOf? g = some key

theorem Precedes.refl (t : Trie α) : t.Precedes t := ⟨Nat.le_refl _, fun _ _ _ hkey => hkey⟩

theorem Precedes.trans (h : t.Precedes t') (h' : t'.Precedes t'') : t.Precedes t'' := by
  refine ⟨h.given.trans h'.given, ?_⟩
  intro g key hg hkey
  exact h.keyOf? g key hg (h'.keyOf? g key (Nat.lt_of_lt_of_le hg h.given) hkey)

/-- it is enough to look at the nodes of the later trie -/
theorem Precedes.of_view? (hwf : t.WellFormed) (hgiven : t.origins.size ≤ t'.origins.size)
    (hold : ∀ {key m}, t'.view? key = some m → m.1 < t.origins.size → ∃ v, t.view? key = some (m.1, v)) :
    t.Precedes t' := by
  refine ⟨hgiven, ?_⟩
  intro g key hg hkey
  obtain ⟨v, hv⟩ := Arena.view?_of_keyOf? hkey
  obtain ⟨w, hw⟩ := hold hv hg
  exact keyOf?_of_view? hwf hw

/-- the nodes that are made on the way along a key have new handles -/
theorem view?_of_grown {key k : List Char} {m : Handle × Option α} (hm : t.grown key k = some m)
    (hlt : m.1 < t.origins.size) : t.view? k = some m := by
  by_cases hmade : k <+: key ∧ t.forest.known key < k.length ∧ k.length ≤ key.length
  · rw [grown, View.grow, if_pos hmade] at hm
    cases hm
    exact absurd hlt (Nat.not_lt.mpr (Nat.le_add_right _ _))
  · rwa [grown, View.grow_of_not hmade] at hm

theorem WellFormed.precedes_store (h : t.WellFormed) {key : List Char} (hkey : key ≠ []) (a : α)
    (previous : Option α) : t.Precedes (t.store key a previous) := by
  have hgrown : t.grown key key = some _ := View.grow_of_prefix (known_view? t key) (List.prefix_refl key)
  apply Precedes.of_view? h
  · show t.origins.size ≤ (t.insert (fun _ => some a) key).origins.size
    rw [size_origins_insert]
    exact Nat.le_add_right _ _
  · intro k m hm hlt
    rw [view?_store h hkey a previous hgrown] at hm
    rcases View.set_eq_some_iff.mp hm with ⟨hk, hvalue⟩ | ⟨-, hm⟩
    · cases hvalue
      rw [hk]
      exact ⟨_, view?_of_grown hgrown hlt⟩
    · exact ⟨m.2, view?_of_grown hm hlt⟩

theorem WellFormed.precedes_remove (h : t.WellFormed) (key : List Char) : t.Precedes (t.remove key).2 := by
  cases hget : t.get? key with
  | none =>
    rw [remove_of_none hget]
    exact .refl t
  | some a =>
    apply Precedes.of_view? h
    · rw [remove_of_some hget]
    · intro k m hm _
      exact View.handle_of_drained ((h.remove_pruned hget).of_some hm).2

/-- clearing makes all handles stale, that of the root too -/
theorem keyOf?_clear {g : Handle} (hg : g < t.origins.size) : t.clear.keyOf? g = none := by
  cases hkey : t.clear.keyOf? g with
  | none => rfl
  | some key =>
    obtain ⟨v, hv⟩ := Arena.view?_of_keyOf? hkey
    cases key with
    | nil =>
      cases hv
      exact absurd hg (Nat.lt_irrefl _)
    | cons c cs =>
      rw [view?_eq _ (List.cons_ne_nil c cs), clear, Forest.view?_nil] at hv
      cases hv

theorem precedes_clear (t : Trie α) : t.Precedes t.clear := by
  refine ⟨?_, ?_⟩
  · show t.origins.size ≤ (t.origins.push .root).size
    rw [Array.size_push]
    exact Nat.le_succ _
  · intro g key hg hkey
    rw [keyOf?_clear hg] at hkey
    cases hkey

theorem given_of_insertChild {parent node : Handle} {symbol : Char} (hok : t.insertChild parent symbol = .ok (node, t')) :
    t.origins.size ≤ t'.origins.size := by
  unfold insertChild at hok
  cases hat : t.at? parent with
  | none =>
    rw [hat] at hok
    cases hok
  | some n =>
    rw [hat] at hok
    cases hchild : n.child? symbol with
    | some child =>
      simp only [hchild] at hok
      cases hok
      exact Nat.le_refl _
    | none =>
      simp only [hchild] at hok
      cases hok
      rw [size_origins_insert]
      exact Nat.le_add_right _ _

theorem WellFormed.precedes_insertChild (h : t.WellFormed) {parent node : Handle} {symbol : Char}
    (hok : t.insertChild parent symbol = .ok (node, t')) : t.Precedes t' := by
  cases hkey : t.keyOf? parent with
  | none =>
    rw [insertChild_of_stale hkey] at hok
    cases hok
  | some key =>
    obtain ⟨node', t₁, hchild, hhas⟩ := insertChild_of_live h hkey symbol
    rw [hok] at hchild
    cases hchild
    apply Precedes.of_view? h (given_of_insertChild hok)
    intro k m hm hlt
    rw [hhas.view?] at hm
    split_ifs at hm with hk
    · cases hm
      rcases hhas.handle with ⟨-, hnew⟩ | ⟨m, hm, rfl⟩
      · rw [hnew] at hlt
        exact absurd hlt (Nat.lt_irrefl _)
      · exact ⟨m.2, by rw [hk, hm]⟩
    · exact ⟨m.2, hm⟩

/-! ## Calls -/

theorem precedes_put (h : t.WellFormed) (key : List Char) (value : α) :
    t.Precedes ((Call.put key value).run t).2 := by
  by_cases hkey : key = []
  · subst hkey
    exact .refl t
  · simp only [Call.run, put_eq hkey, Call.outcome]
    exact h.precedes_store hkey _ _

/-- a call gives new handles only, and leaves the old ones their meaning or takes it away -/
theorem Call.precedes (h : t.WellFormed) (c : Call α) : t.Precedes (c.run t).2 := by
  cases c with
  | put key value => exact precedes_put h key value
  | remove key => exact h.precedes_remove key
  | clear => exact precedes_clear t
  | insertChild parent symbol =>
    cases hok : t.insertChild parent symbol with
    | error e =>
      simp only [run, hok, outcome]
      exact .refl t
    | ok r =>
      simp only [run, hok, outcome]
      exact h.precedes_insertChild hok
  | setValue node value =>
    by_cases hroot : node = t.root
    · simp only [run, hroot, setValue_root, outcome]
      exact .refl t
    · cases hkey : t.keyOf? node with
      | none =>
        simp only [run, setValue_of_stale hroot hkey, outcome]
        exact .refl t
      | some key =>
        -- at a live node the call is a put at the key of the node
        have hset : (setValue node value).run t = (put key value).run t := by
          simp only [run, (setValue_of_live hroot hkey value).2]
        rw [hset]
        exact precedes_put h key value

theorem precedes_afterAll {m : Entries α} (h : t.Tracks m) (calls : List (Call α)) : t.Precedes (t.afterAll calls) := by
  induction calls generalizing t m with
  | nil => exact .refl t
  | cons c calls ih => exact (c.precedes h.wellFormed).trans (ih (run_refines h c).tracks)

theorem ofCalls_append (calls more : List (Call α)) : ofCalls (calls ++ more) = (ofCalls calls).afterAll more :=
  List.foldl_append

/-- a live handle leads to its key after any more calls, until it is stale; then it is stale for good -/
theorem keyOf?_ofCalls_append {calls : List (Call α)} {g : Handle} {key : List Char}
    (hkey : (ofCalls calls).keyOf? g = some key) (more : List (Call α)) :
    (ofCalls (calls ++ more)).keyOf? g = some key ∨ ∀ later, (ofCalls (calls ++ more ++ later)).keyOf? g = none := by
  have hprecedes : ∀ calls more : List (Call α), (ofCalls calls).Precedes (ofCalls (calls ++ more)) := by
    intro calls more
    rw [ofCalls_append]
    exact precedes_afterAll (tracks_ofCalls calls) more
  have hgiven : g < (ofCalls calls).origins.size := by
    obtain ⟨v, hv⟩ := Arena.view?_of_keyOf? hkey
    exact handle_lt (tracks_ofCalls calls).wellFormed hv
  cases hmore : (ofCalls (calls ++ more)).keyOf? g with
  | some key' =>
    left
    rw [(hprecedes calls more).keyOf? g key' hgiven hmore] at hkey
    exact hkey
  | none =>
    right
    intro later
    cases hlater : (ofCalls (calls ++ more ++ later)).keyOf? g with
    | none => rfl
    | some key' =>
      have hgiven' := Nat.lt_of_lt_of_le hgiven (hprecedes calls more).given
      rw [(hprecedes (calls ++ more) later).keyOf? g key' hgiven' hlater] at hmore
      cases hmore

/-! ## Removals -/

/-- what a removal does to the nodes of a trie and to their handles -/
structure Removes (t : Trie α) (key : List Char) : Prop where
  /-- where there is no value nothing happens -/
  nothing : (t.remove key).1 = none → (t.remove key).2 = t
  /-- otherwise the value goes, and with it the nodes that are idle then -/
  pruned : ∀ value, (t.remove key).1 = some value → (View.drained t.view? key).Pruned key (t.remove key).2.view?
  /-- their handles are stale, and all others are good for the same keys -/
  handles : ∀ value g p, (t.remove key).1 = some value → t.keyOf? g = some p →
    ((View.drained t.view? key).Idle key p → (t.remove key).2.keyOf? g = none) ∧
      (¬(View.drained t.view? key).Idle key p → (t.remove key).2.keyOf? g = some p)

theorem WellFormed.removes (h : t.WellFormed) (key : List Char) : t.Removes key := by
  have hwf := h.remove key
  constructor
  case nothing =>
    intro hnone
    rw [remove_fst] at hnone
    rw [remove_of_none hnone]
  case pruned =>
    intro value hvalue
    rw [remove_fst] at hvalue
    exact h.remove_pruned hvalue
  case handles =>
    intro value g p hvalue hp
    rw [remove_fst] at hvalue
    have hpruned := h.remove_pruned hvalue
    obtain ⟨v, hv⟩ := Arena.view?_of_keyOf? hp
    refine ⟨?_, ?_⟩
    · intro hidle
      cases hkey : (t.remove key).2.keyOf? g with
      | none => rfl
      | some k =>
        obtain ⟨w, hw⟩ := Arena.view?_of_keyOf? hkey
        obtain ⟨v', hv'⟩ := View.handle_of_drained (hpruned.of_some hw).2
        rw [key_eq_of_view? h hv' hv rfl, hpruned.gone p hidle] at hw
        cases hw
    · intro hneeded
      have hw := (hpruned.kept p hneeded).trans (View.drained_of_some hv)
      exact keyOf?_of_view? hwf hw

end Trie

namespace Arena

variable {a : Arena α} {t : Trie α}

/-- what a removal does to the nodes of an arena -/
structure Removes (a : Arena α) (key : List Char) : Prop where
  nothing : (a.remove key).1 = none → (a.remove key).2 = a
  pruned : ∀ value, (a.remove key).1 = some value → a.Pruned key (a.remove key).2

theorem Mirrors.removes (h : a.Mirrors t) (key : List Char) : a.Removes key := by
  obtain ⟨a', hremove, h'⟩ := h.remove key
  refine ⟨?_, ?_⟩
  · intro hnone
    unfold Arena.remove at hnone ⊢
    cases hnode : a.node? key with
    | none => rfl
    | some g =>
      cases hvalue : a.cells[g]?.bind fun n => n.value with
      | none => simp only [hvalue]
      | some value => simp [hnode, hvalue] at hnone
  · intro value hvalue
    rw [hremove] at hvalue ⊢
    exact h.stores.pruned h'.stores (h.wellFormed.remove_pruned hvalue)

end Arena

namespace Trie

/-- handles that are live after some calls lead to their keys after any more, until they are stale, and then for good -/
def HandlesLast (keyOf? : List (Call α) → Handle → Option (List Char)) : Prop :=
  ∀ calls more g key, keyOf? calls g = some key →
    keyOf? (calls ++ more) g = some key ∨ ∀ later, keyOf? (calls ++ more ++ later) g = none

/-- **A removal prunes the idle nodes, and handles last.** After any calls, by key or by handle, a removal that finds no
value changes nothing. One that finds a value takes it away together with the nodes that are idle then: those on the way
to the key that have at and below them only nodes on the way, none of them with a value. All other nodes keep their
handles, their keys, their links and their values. Over any further calls a live handle leads to the same key; once it is
stale, by a removal or by clearing, it is stale for good. -/
theorem removal_prunes_idle_nodes (calls : List (Call α)) (key : List Char) :
    (ofCalls calls).Removes key ∧ (Arena.ofCalls calls).Removes key ∧
    HandlesLast (fun calls : List (Call α) => (ofCalls calls).keyOf?) ∧
    HandlesLast (fun calls : List (Call α) => (Arena.ofCalls calls).keyOf?) ∧
    ∀ g p, (ofCalls calls).keyOf? g = some p →
      (ofCalls calls).clear.keyOf? g = none ∧ (Arena.ofCalls calls).clear.keyOf? g = none := by
  have hmirrors := Arena.mirrors_ofCalls calls
  have halike : ∀ (calls : List (Call α)) g, (Arena.ofCalls calls).keyOf? g = (ofCalls calls).keyOf? g :=
    fun calls => (Arena.mirrors_ofCalls calls).alike.keyOf?
  refine ⟨hmirrors.wellFormed.removes key, hmirrors.removes key, ?_, ?_, ?_⟩
  · intro calls more g key hkey
    exact keyOf?_ofCalls_append hkey more
  · intro calls more g key hkey
    simp only [halike] at hkey ⊢
    exact keyOf?_ofCalls_append hkey more
  · intro g p hp
    obtain ⟨v, hv⟩ := Arena.view?_of_keyOf? hp
    have hstale : (ofCalls calls).clear.keyOf? g = none := keyOf?_clear (handle_lt hmirrors.wellFormed hv)
    exact ⟨hstale, (hmirrors.clear.alike.keyOf? g).trans hstale⟩

end Trie

end ClauseFold
