/-
What a removal does to the nodes. When a value has gone, the nodes on the way to it that nothing needs any more are pruned,
from the end of the way up to the first node that is needed. These are the nodes with neither a value nor another way below
them, and no others: the rest keep their handles, their links and their values.

Results:
- `View.Prunes.pruned`: pruning takes away the idle nodes and leaves the rest;
- `WellFormed.remove_pruned`: so it does in a trie;
- `Arena.Stores.pruned`: and in an arena, cell by cell, with what the links say.
-/
import ClauseFold.Proofs.Trie.ArenaLinks

namespace ClauseFold

variable {α : Type}

/-! ## Idle nodes -/

namespace View

/-- a view without the value at a key, in which the nodes are still there -/
def drained (V : View α) (key : List Char) : View α := fun k => (V k).map fun m => (m.1, if k = key then none else m.2)

/-- a node on the way along a key that nothing needs: all nodes at it and below it are on the way too, and none holds a
value; the root is always needed -/
def Idle (V : View α) (key p : List Char) : Prop :=
  p ≠ [] ∧ p <+: key ∧ ∀ k m, p <+: k → V k = some m → k <+: key ∧ m.2 = none

/-- a view without the idle nodes on the way along a key -/
structure Pruned (V : View α) (key : List Char) (V' : View α) : Prop where
  gone : ∀ p, V.Idle key p → V' p = none
  kept : ∀ p, ¬V.Idle key p → V' p = V p

variable {V V' : View α} {key : List Char} {root next : Handle}

theorem drained_eq_set {m : Handle × Option α} (hm : V key = some m) : V.drained key = V.set key (some (m.1, none)) := by
  funext k
  unfold drained
  by_cases hk : k = key
  · rw [hk, hm, set_self]
    simp
  · rw [set_of_ne hk]
    simp [hk]

/-- the handles do not change when a value goes -/
theorem handle_of_drained {k : List Char} {m : Handle × Option α} (hm : V.drained key k = some m) :
    ∃ v, V k = some (m.1, v) := by
  obtain ⟨n, hn, rfl⟩ := Option.map_eq_some_iff.mp hm
  exact ⟨n.2, hn⟩

theorem drained_of_some {k : List Char} {m : Handle × Option α} (hm : V k = some m) :
    V.drained key k = some (m.1, if k = key then none else m.2) := by
  rw [drained, hm]
  rfl

/-- nodes that stay after pruning were there before -/
theorem Pruned.of_some (h : V.Pruned key V') {p : List Char} {m : Handle × Option α} (hm : V' p = some m) :
    ¬V.Idle key p ∧ V p = some m := by
  have hneeded : ¬V.Idle key p := by
    intro hidle
    rw [h.gone p hidle] at hm
    cases hm
  exact ⟨hneeded, by rw [← h.kept p hneeded, hm]⟩

/-- a node below a key is a child of it, or below a child of it -/
theorem Rooted.exists_child (h : V.Rooted root next) {rest : List Char} {c : Char} {m : Handle × Option α}
    (hm : V (key ++ c :: rest) = some m) : ∃ n, V (key ++ [c]) = some n := by
  induction rest using List.reverseRecOn generalizing m with
  | nil => exact ⟨m, hm⟩
  | append_singleton rest d ih =>
    rw [← List.cons_append, ← List.append_assoc] at hm
    obtain ⟨p, hp, -⟩ := h.parent hm
    exact ih hp

/-- when a leaf without a value goes, the idle nodes are the leaf and those that are idle then -/
theorem idle_concat_iff (h : V.Rooted root next) {c : Char} {g : Handle} (hg : V (key ++ [c]) = some (g, none))
    (hleaf : ∀ d, V (key ++ [c] ++ [d]) = none) (p : List Char) :
    V.Idle (key ++ [c]) p ↔ p = key ++ [c] ∨ (V.set (key ++ [c]) none).Idle key p := by
  refine ⟨?_, ?_⟩
  · intro hidle
    obtain ⟨hp, hway, hbelow⟩ := hidle
    rcases List.prefix_concat_iff.mp hway with heq | hway
    · exact Or.inl heq
    · refine Or.inr ⟨hp, hway, ?_⟩
      intro k m hpk hset
      obtain ⟨-, hm⟩ | ⟨hk, hm⟩ := set_eq_some_iff.mp hset
      · cases hm
      · obtain ⟨hkey, hvalue⟩ := hbelow k m hpk hm
        exact ⟨(List.prefix_concat_iff.mp hkey).resolve_left hk, hvalue⟩
  · intro hidle
    rcases hidle with rfl | ⟨hp, hway, hbelow⟩
    · refine ⟨by simp, List.prefix_refl _, ?_⟩
      intro k m hk hm
      obtain ⟨rest, rfl⟩ := hk
      cases rest with
      | nil =>
        rw [List.append_nil, hg] at hm
        cases hm
        exact ⟨by simp, rfl⟩
      | cons d ds =>
        obtain ⟨n, hn⟩ := h.exists_child hm
        rw [hleaf] at hn
        cases hn
    · refine ⟨hp, hway.trans (List.prefix_append key _), ?_⟩
      intro k m hpk hm
      by_cases hk : k = key ++ [c]
      · rw [hk, hg] at hm
        cases hm
        exact ⟨hk ▸ List.prefix_refl _, rfl⟩
      · obtain ⟨hkey, hvalue⟩ := hbelow k m hpk (set_eq_some_iff.mpr (Or.inr ⟨hk, hm⟩))
        exact ⟨hkey.trans (List.prefix_append key _), hvalue⟩

/-- pruning takes away the idle nodes and leaves the rest -/
theorem Prunes.pruned (h : V.Prunes key V') (hrooted : V.Rooted root next) : V.Pruned key V' := by
  induction h with
  | root V =>
    have hneeded : ∀ p, ¬V.Idle [] p := by
      intro p hidle
      exact hidle.1 (List.prefix_nil.mp hidle.2.1)
    exact ⟨fun p hidle => absurd hidle (hneeded p), fun p _ => rfl⟩
  | @stop V key m hm hused =>
    -- what the last node is needed for, all nodes above it are needed for
    have hneeded : ∀ p, ¬V.Idle key p := by
      intro p hidle
      obtain ⟨-, hway, hbelow⟩ := hidle
      rcases hused with hvalue | ⟨c, hc⟩
      · exact hvalue (hbelow key m hway hm).2
      · obtain ⟨n, hn⟩ := Option.ne_none_iff_exists'.mp hc
        have hlonger := (hbelow _ n (hway.trans (List.prefix_append key _)) hn).1.length_le
        rw [List.length_append, List.length_singleton] at hlonger
        exact absurd hlonger (Nat.not_succ_le_self _)
    exact ⟨fun p hidle => absurd hidle (hneeded p), fun p _ => rfl⟩
  | @drop V V' key c g hg hleaf _ ih =>
    obtain ⟨hgone, hkept⟩ := ih (hrooted.drop (by simp) hleaf)
    have hiff := idle_concat_iff hrooted hg hleaf
    refine ⟨?_, ?_⟩
    · intro p hidle
      by_cases hp : (V.set (key ++ [c]) none).Idle key p
      · exact hgone p hp
      · rw [hkept p hp, ((hiff p).mp hidle).resolve_right hp, set_self]
    · intro p hidle
      have hne : p ≠ key ++ [c] := fun heq => hidle ((hiff p).mpr (Or.inl heq))
      rw [hkept p fun hp => hidle ((hiff p).mpr (Or.inr hp)), set_of_ne hne]

end View

/-! ## Tries -/

namespace Trie

variable {t : Trie α}

/-- the nodes of a trie hang together -/
theorem WellFormed.rooted (h : t.WellFormed) : View.Rooted t.view? t.root t.origins.size := by
  refine ⟨view?_root t, ?_, fun hm hm' heq => key_eq_of_view? h hm hm' heq, fun hm => handle_lt h hm⟩
  intro key c m hm
  obtain ⟨n, hn, hhandle, -⟩ := node?_of_view? hm
  obtain ⟨p, hp, hchild⟩ := node?_concat hn
  exact ⟨(p.handle, p.value), view?_of_node? hp, hhandle ▸ (origin_of_child h hp hchild).2⟩

/-- a removal that finds a value takes it away and then the nodes that are idle -/
theorem WellFormed.remove_pruned (h : t.WellFormed) {key : List Char} {a : α} (hget : t.get? key = some a) :
    (View.drained t.view? key).Pruned key (t.remove key).2.view? := by
  obtain ⟨⟨g, v⟩, hm, rfl⟩ := Option.bind_eq_some_iff.mp ((get?_eq_view? t key).symm.trans hget)
  have hkey : key ≠ [] := by
    intro hempty
    rw [hempty] at hget
    cases hget
  rw [View.drained_eq_set hm]
  exact (remove_prunes h hm).pruned (h.rooted.write hkey hm none)

end Trie

/-! ## Arenas -/

namespace Arena

variable {a a' : Arena α} {V V' : View α} {key : List Char}

/-- which node stands at each key of an arena, and its value -/
def view? (a : Arena α) : View α := fun key => (a.node? key).bind fun g => a.cells[g]?.map fun n => (g, n.value)

theorem Stores.view?_eq (h : a.Stores V) : a.view? = V := by
  funext key
  rw [view?, h.node?_eq]
  cases hm : V key with
  | none => rfl
  | some m =>
    obtain ⟨n, hn, hshows⟩ := h.cell hm
    have hcell : a.cells[m.1]? = some n := hn
    simp [hcell, hshows.value]

/-- an arena without the value at a key and without the nodes that are idle then -/
structure Pruned (a : Arena α) (key : List Char) (a' : Arena α) : Prop where
  /-- the handles of idle nodes are stale -/
  gone : ∀ g p, a.keyOf? g = some p → (a.view?.drained key).Idle key p → a'.cells[g]? = none
  /-- all other nodes keep their keys, their links and their values, less an idle child and the value at the key -/
  kept : ∀ g p (n : Cell α), a.keyOf? g = some p → a.cells[g]? = some n → ¬(a.view?.drained key).Idle key p →
    a'.keyOf? g = some p ∧ ∃ n' : Cell α, a'.cells[g]? = some n' ∧ n'.symbol = n.symbol ∧ n'.depth = n.depth ∧
      n'.parent = n.parent ∧ n'.value = (if p = key then none else n.value) ∧
      ∀ c, ((a.view?.drained key).Idle key (p ++ [c]) → n'.children[c]? = none) ∧
        (¬(a.view?.drained key).Idle key (p ++ [c]) → n'.children[c]? = n.children[c]?)
  /-- no node is made -/
  known : ∀ g, g ∈ a'.cells → g ∈ a.cells

/-- a live node stands at its key -/
theorem Stores.view_of_keyOf? (h : a.Stores V) {g : Handle} {p : List Char} (hkey : a.keyOf? g = some p) :
    ∃ n v, a.cells[g]? = some n ∧ V p = some (g, v) ∧ n.Shows V p v := by
  obtain ⟨n, hn, -⟩ := Option.map_eq_some_iff.mp hkey
  obtain ⟨p', v, hp, hshows⟩ := h.key_of_cell hn
  rw [h.keyOf?_eq hp] at hkey
  cases hkey
  exact ⟨n, v, hn, hp, hshows⟩

/-- where the view is pruned, so is the arena -/
theorem Stores.pruned (h : a.Stores V) (h' : a'.Stores V') (hpruned : (V.drained key).Pruned key V') :
    a.Pruned key a' := by
  have hold : ∀ {k m}, V' k = some m → ∃ v, V k = some (m.1, v) := fun hm =>
    View.handle_of_drained (hpruned.of_some hm).2
  constructor
  case gone =>
    intro g p hkey hidle
    rw [h.view?_eq] at hidle
    obtain ⟨-, v, -, hp, -⟩ := h.view_of_keyOf? hkey
    apply h'.stale
    intro k w hk
    obtain ⟨v', hv'⟩ := hold hk
    rw [h.rooted.distinct hv' hp rfl, hpruned.gone p hidle] at hk
    cases hk
  case kept =>
    intro g p n hkey hn hneeded
    rw [h.view?_eq] at hneeded ⊢
    obtain ⟨n₀, v, hn₀, hp, hshows⟩ := h.view_of_keyOf? hkey
    rw [hn] at hn₀
    cases hn₀
    have hp' : V' p = some (g, if p = key then none else v) := by
      rw [hpruned.kept p hneeded, View.drained_of_some hp]
    obtain ⟨n', hn', hshows'⟩ := h'.cell hp'
    refine ⟨h'.keyOf?_eq hp', n', hn', ?_, ?_, ?_, ?_, ?_⟩
    · rw [hshows'.symbol, hshows.symbol]
    · rw [hshows'.depth, hshows.depth]
    · rw [hshows'.parent, hshows.parent]
      by_cases hroot : p = []
      · rw [if_pos hroot, if_pos hroot]
      · obtain ⟨q, hq, -⟩ := h'.rooted.parent_of_ne_nil hroot hp'
        obtain ⟨w, hw⟩ := hold hq
        rw [if_neg hroot, if_neg hroot, hq, hw]
        rfl
    · rw [hshows'.value, hshows.value]
    · intro c
      rw [hshows'.children, hshows.children]
      refine ⟨?_, ?_⟩
      · intro hidle
        rw [hpruned.gone _ hidle]
        rfl
      · intro hchild
        rw [hpruned.kept _ hchild, View.drained, Option.map_map]
        rfl
  case known =>
    intro g hg
    obtain ⟨n', hn'⟩ := Option.isSome_iff_exists.mp (Std.ExtTreeMap.mem_iff_isSome_getElem?.mp hg)
    obtain ⟨k, w, hk⟩ := h'.live hn'
    obtain ⟨v, hv⟩ := hold hk
    obtain ⟨n, hn, -⟩ := h.cell hv
    exact Std.ExtTreeMap.mem_iff_isSome_getElem?.mpr (by rw [hn]; rfl)

end Arena

end ClauseFold
