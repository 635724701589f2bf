/-
What taking values away does to a trie. A removal drops a value and then, on the way back up, each node that is left with
neither a value nor children. Dropped nodes held nothing, so no other key can tell; the nodes that stay keep their
handles, and what the origins say of them.

Results:
- `value?_erase`: a removal takes away the value at its key and no other;
- `WellFormed.remove`, `WellFormed.clear`: tries stay well formed;
- `get?_remove`: the same for a trie.
-/
import ClauseFold.Proofs.Trie.WellFormed

namespace ClauseFold

namespace Forest

variable {α : Type}

/-! ## Nodes that are dropped -/

theorem above_keep {b c : Char} (hbc : b < c) (h : Handle) (v : Option α) (ch : Forest α) {sib : Forest α}
    (hsib : sib.Above b) : (keep c h v ch sib).Above b := by
  unfold keep
  split
  · exact hsib
  · exact ⟨hbc, hsib⟩

theorem sorted_keep {c : Char} (h : Handle) (v : Option α) {ch sib : Forest α} (habove : sib.Above c)
    (hch : ch.Sorted) (hsib : sib.Sorted) : (keep c h v ch sib).Sorted := by
  unfold keep
  split
  · exact hsib
  · exact ⟨habove, hch, hsib⟩

/-- a node that is dropped held nothing -/
theorem value?_keep {c : Char} (h : Handle) (v : Option α) (ch : Forest α) {sib : Forest α} (habove : sib.Above c)
    (key : List Char) : (keep c h v ch sib).value? key = (node c h v ch sib).value? key := by
  unfold keep
  split
  · cases key with
    | nil => rfl
    | cons d ds =>
      rw [value?_node]
      split_ifs with hdc hds
      · rw [hdc, value?_of_above habove]
      · rw [hdc, value?_of_above habove, value?_eq_view?, view?_nil]
        rfl
      · rfl
  · rfl

/-! ## Removals -/

theorem above_erase {b : Char} (key : List Char) {f : Forest α} (h : f.Above b) : (f.erase key).Above b := by
  induction f with
  | nil => cases key <;> exact h
  | node d hd v ch sib _ ihs =>
    cases key with
    | nil => exact h
    | cons c cs =>
      rw [erase]
      by_cases hcd : c = d
      · rw [if_pos hcd]
        exact above_keep h.1 _ _ _ h.2
      · rw [if_neg hcd]
        exact ⟨h.1, ihs h.2⟩

theorem sorted_erase (key : List Char) {f : Forest α} (h : f.Sorted) : (f.erase key).Sorted := by
  induction f generalizing key with
  | nil => cases key <;> exact h
  | node d hd v ch sib ihc ihs =>
    obtain ⟨habove, hch, hsib⟩ := h
    cases key with
    | nil => exact ⟨habove, hch, hsib⟩
    | cons c cs =>
      rw [erase]
      by_cases hcd : c = d
      · rw [if_pos hcd]
        exact sorted_keep _ _ habove (ihc cs hch) hsib
      · rw [if_neg hcd]
        exact ⟨above_erase _ habove, hch, ihs _ hsib⟩

/-- the origins go on to know the nodes that stay -/
theorem recorded_erase (key : List Char) {origins : Array Origin} {parent : Handle} {depth : Nat} {f : Forest α}
    (h : f.Recorded origins parent depth) : (f.erase key).Recorded origins parent depth := by
  induction f generalizing key parent depth with
  | nil => cases key <;> exact h
  | node d hd v ch sib ihc ihs =>
    obtain ⟨horigin, hlt, hch, hsib⟩ := h
    cases key with
    | nil => exact ⟨horigin, hlt, hch, hsib⟩
    | cons c cs =>
      rw [erase]
      by_cases hcd : c = d
      · rw [if_pos hcd]
        unfold keep
        split
        · exact hsib
        · exact ⟨horigin, hlt, ihc cs hch, hsib⟩
      · rw [if_neg hcd]
        exact ⟨horigin, hlt, hch, ihs _ hsib⟩

/-- a removal takes away the value at its key and no other -/
theorem value?_erase {key : List Char} (hkey : key ≠ []) (key' : List Char) {f : Forest α} (hf : f.Sorted) :
    (f.erase key).value? key' = if key' = key then none else f.value? key' := by
  induction f generalizing key key' with
  | nil => cases key' <;> simp [erase, value?_eq_view?]
  | node d hd v ch sib ihc ihs =>
    obtain ⟨habove, hch, hsib⟩ := hf
    cases key with
    | nil => exact absurd rfl hkey
    | cons c cs =>
      cases key' with
      | nil => simp [value?, find?]
      | cons e es =>
        rw [erase]
        by_cases hcd : c = d
        · subst hcd
          rw [if_pos rfl, value?_keep _ _ _ habove, value?_node, value?_node]
          by_cases hec : e = c
          · subst hec
            cases cs with
            | nil => by_cases hes : es = [] <;> simp [erase, hes]
            | cons x xs => by_cases hes : es = [] <;> simp [hes, ihc (List.cons_ne_nil x xs) es hch]
          · simp [hec]
        · rw [if_neg hcd, value?_node, value?_node, ihs hkey _ hsib]
          by_cases hed : e = d
          · subst hed
            simp [Ne.symm hcd]
          · simp [hed]

end Forest

namespace Trie

variable {α : Type} {t : Trie α}

theorem remove_of_none {key : List Char} (h : t.get? key = none) : t.remove key = (none, t) := by
  unfold remove
  rw [h]

theorem remove_of_some {key : List Char} {a : α} (h : t.get? key = some a) :
    t.remove key = (some a, { t with forest := t.forest.erase key, size := t.size - 1 }) := by
  unfold remove
  rw [h]

/-- a removal tells what it takes away -/
theorem remove_fst (key : List Char) : (t.remove key).1 = t.get? key := by
  cases h : t.get? key with
  | none => rw [remove_of_none h]
  | some a => rw [remove_of_some h]

theorem WellFormed.remove (h : t.WellFormed) (key : List Char) : (t.remove key).2.WellFormed := by
  cases hget : t.get? key with
  | none =>
    rw [remove_of_none hget]
    exact h
  | some a =>
    rw [remove_of_some hget]
    exact ⟨Forest.sorted_erase key h.sorted, h.root, Forest.recorded_erase key h.recorded⟩

theorem get?_remove (h : t.WellFormed) (key k : List Char) :
    (t.remove key).2.get? k = if k = key then none else t.get? k := by
  cases hget : t.get? key with
  | none =>
    rw [remove_of_none hget]
    by_cases hk : k = key <;> simp [hk, hget]
  | some a =>
    have hkey : key ≠ [] := by
      intro hempty
      rw [hempty] at hget
      cases hget
    rw [remove_of_some hget, get?_eq_value?, get?_eq_value?]
    exact Forest.value?_erase hkey k h.sorted

theorem WellFormed.clear (t : Trie α) : t.clear.WellFormed := ⟨trivial, Array.getElem?_push_size, trivial⟩

end Trie

end ClauseFold
