/-
Lists of pairs in ascending order of key, and ordered maps as such lists. An ordered map lists its pairs in one way
only, so two accounts of the same pairs that are both in order are the same list.

Results:
- `Ascending.ext`: ascending lists with the same pairs are equal;
- `Ascending.toList_ofList`: a map made from an ascending list lists it again;
- `mem_before_iff`: what stands before an item of an ordered list;
- `getElem?_insert_eq_ite`: what is looked up behind an insertion;
- `values_eq_toList`: the values of a map are listed in order of key.
-/
import Std.Data.ExtTreeMap

namespace ClauseFold

/-- a map made from a list without repeated keys holds its pairs -/
theorem getElem?_ofList_of_distinct {κ β : Type} [Ord κ] [Std.TransOrd κ] [Std.LawfulEqOrd κ] [DecidableEq κ]
    {l : List (κ × β)} (h : l.Pairwise fun a b => ¬compare a.1 b.1 = .eq) {k : κ} {b : β} :
    (Std.ExtTreeMap.ofList l)[k]? = some b ↔ (k, b) ∈ l := by
  refine ⟨?_, ?_⟩
  · intro hget
    by_cases hk : k ∈ l.map Prod.fst
    · obtain ⟨⟨k', b'⟩, hb', rfl⟩ := List.mem_map.mp hk
      rw [Std.ExtTreeMap.getElem?_ofList_of_mem Std.ReflOrd.compare_self h hb'] at hget
      cases hget
      exact hb'
    · have hfalse : (l.map Prod.fst).contains k = false := by simpa using hk
      rw [Std.ExtTreeMap.getElem?_ofList_of_contains_eq_false hfalse] at hget
      cases hget
  · intro hmem
    exact Std.ExtTreeMap.getElem?_ofList_of_mem Std.ReflOrd.compare_self h hmem

/-- in an ordered list, what stands before an item is what is less than it -/
theorem mem_before_iff {α : Type} {less : α → α → Prop} (hasymm : ∀ {a b}, less a b → ¬less b a)
    {l before after : List α} {r d : α} (hl : l.Pairwise less) (h : l = before ++ r :: after) :
    d ∈ before ↔ d ∈ l ∧ less d r := by
  subst h
  obtain ⟨-, hbehind, hbefore⟩ := List.pairwise_append.mp hl
  refine ⟨?_, ?_⟩
  · intro hd
    exact ⟨List.mem_append_left _ hd, hbefore d hd r List.mem_cons_self⟩
  · rintro ⟨hd, hless⟩
    rw [List.mem_append, List.mem_cons] at hd
    rcases hd with hd | rfl | hd
    · exact hd
    · exact absurd hless (hasymm hless)
    · exact absurd hless (hasymm (List.rel_of_pairwise_cons hbehind hd))

/-- the keys go up -/
def Ascending {κ β : Type} [Ord κ] (l : List (κ × β)) : Prop := l.Pairwise fun a b => compare a.1 b.1 = .lt

namespace Ascending

variable {κ β : Type} [Ord κ]

theorem distinct {l : List (κ × β)} (h : Ascending l) : l.Pairwise fun a b => ¬compare a.1 b.1 = .eq := by
  apply h.imp
  intro a b hlt heq
  rw [hlt] at heq
  cases heq

theorem nodup [Std.ReflOrd κ] {l : List (κ × β)} (h : Ascending l) : l.Nodup := by
  apply h.imp
  intro a b hlt hab
  rw [hab, Std.ReflOrd.compare_self] at hlt
  cases hlt

variable [Std.TransOrd κ]

/-- ascending lists with the same pairs are equal -/
theorem ext {l l' : List (κ × β)} (h : Ascending l) (h' : Ascending l') (hmem : ∀ e, e ∈ l ↔ e ∈ l') : l = l' := by
  have hperm : l.Perm l' := (List.perm_ext_iff_of_nodup h.nodup h'.nodup).mpr hmem
  refine hperm.eq_of_pairwise ?_ h h'
  intro a b _ _ hab hba
  have hswap : compare b.1 a.1 = .gt := Std.OrientedCmp.gt_of_lt hab
  rw [hba] at hswap
  cases hswap

theorem toList (m : Std.ExtTreeMap κ β) : Ascending m.toList := Std.ExtTreeMap.ordered_keys_toList

variable [Std.LawfulEqOrd κ]

theorem mem_ofList [DecidableEq κ] {l : List (κ × β)} (h : Ascending l) {k : κ} {b : β} :
    (Std.ExtTreeMap.ofList l)[k]? = some b ↔ (k, b) ∈ l := getElem?_ofList_of_distinct h.distinct

/-- a map made from an ascending list lists it again -/
theorem toList_ofList [DecidableEq κ] {l : List (κ × β)} (h : Ascending l) : (Std.ExtTreeMap.ofList l).toList = l := by
  apply (toList _).ext h
  intro e
  rcases e with ⟨k, b⟩
  rw [Std.ExtTreeMap.mem_toList_iff_getElem?_eq_some, h.mem_ofList]

end Ascending

/-- maps that list the same pairs are equal -/
theorem ext_of_toList {κ β : Type} [Ord κ] [Std.TransOrd κ] [Std.LawfulEqOrd κ] {m m' : Std.ExtTreeMap κ β}
    (h : m.toList = m'.toList) : m = m' := by
  apply Std.ExtTreeMap.ext_getElem?
  intro k
  apply Option.ext
  intro b
  rw [← Std.ExtTreeMap.mem_toList_iff_getElem?_eq_some, ← Std.ExtTreeMap.mem_toList_iff_getElem?_eq_some, h]

/-- an insertion is seen at its key and nowhere else -/
theorem getElem?_insert_eq_ite {κ β : Type} [Ord κ] [Std.TransOrd κ] [Std.LawfulEqOrd κ] [DecidableEq κ]
    (m : Std.ExtTreeMap κ β) (k k' : κ) (b : β) : (m.insert k b)[k']? = if k = k' then some b else m[k']? := by
  rw [Std.ExtTreeMap.getElem?_insert]
  by_cases hk : k = k'
  · rw [if_pos hk, if_pos (by rw [hk]; exact Std.ReflOrd.compare_self)]
  · rw [if_neg hk, if_neg fun heq => hk (Std.LawfulEqOrd.eq_of_compare heq)]

/-- the values of a map are listed in order of key -/
theorem values_eq_toList {κ β : Type} [Ord κ] [Std.TransOrd κ] (m : Std.ExtTreeMap κ β) :
    m.values = m.toList.map Prod.snd := by
  obtain ⟨⟨q⟩⟩ := m
  induction q using Quotient.ind with
  | _ t =>
    show t.1.values = (Std.DTreeMap.Internal.Impl.Const.toList t.1).map Prod.snd
    rw [Std.DTreeMap.Internal.Impl.values_eq_map_snd, Std.DTreeMap.Internal.Impl.Const.toList_eq_toListModel_map]
    simp

end ClauseFold
