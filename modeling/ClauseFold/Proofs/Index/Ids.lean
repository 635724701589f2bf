/-
The ids of canonical formulas: from minus one downwards, in order of encoding, one for each encoding.

Results:
- `mem_assign`: what is numbered are the encodings;
- `canonicalRows_rows`: the canonical rows are read in the order in which the ids were given.
-/
import ClauseFold.Index.Basic
import ClauseFold.Proofs.Ascending

namespace ClauseFold

namespace CanonicalIds

/-- the canonical rows, an id and an encoding each, in order of encoding -/
def rows (ids : CanonicalIds) : List (Int × List Char) := ids.toList.map fun p => (p.2, p.1)

theorem mem_rows {ids : CanonicalIds} {id : Int} {encoding : List Char} :
    (id, encoding) ∈ ids.rows ↔ ids[encoding]? = some id := by
  unfold rows
  rw [← Std.ExtTreeMap.mem_toList_iff_getElem?_eq_some, List.mem_map]
  refine ⟨?_, ?_⟩
  · intro hrow
    rcases hrow with ⟨⟨e, i⟩, hmem, heq⟩
    cases heq
    exact hmem
  · intro hmem
    exact ⟨(encoding, id), hmem, rfl⟩

theorem ordered_rows (ids : CanonicalIds) : ids.rows.Pairwise fun a b => compare a.2 b.2 = .lt := by
  unfold rows
  rw [List.pairwise_map]
  exact Ascending.toList ids

/-- the encodings in order with their ids -/
theorem toList_assign (encodings : List (List Char)) :
    (assign encodings).toList =
      (Std.ExtTreeSet.ofList encodings).toList.zipIdx.map fun p => (p.1, -(Int.ofNat p.2) - 1) := by
  apply Ascending.toList_ofList
  have hkeys : ((Std.ExtTreeSet.ofList encodings).toList.zipIdx.map Prod.fst).Pairwise fun a b => compare a b = .lt := by
    rw [List.zipIdx_map_fst]
    exact Std.ExtTreeSet.ordered_toList
  unfold Ascending
  rw [List.pairwise_map]
  exact List.pairwise_map.mp hkeys

theorem mem_assign {encodings : List (List Char)} {encoding : List Char} :
    (∃ id, (assign encodings)[encoding]? = some id) ↔ encoding ∈ encodings := by
  have hset : encoding ∈ (Std.ExtTreeSet.ofList encodings).toList ↔ encoding ∈ encodings := by
    rw [Std.ExtTreeSet.mem_toList, Std.ExtTreeSet.mem_ofList, List.contains_iff_mem]
  rw [← hset]
  refine ⟨?_, ?_⟩
  · intro hnumbered
    rcases hnumbered with ⟨id, hid⟩
    rw [← Std.ExtTreeMap.mem_toList_iff_getElem?_eq_some, toList_assign, List.mem_map] at hid
    obtain ⟨p, hp, heq⟩ := hid
    cases heq
    exact List.fst_mem_of_mem_zipIdx hp
  · intro hmem
    obtain ⟨i, hi⟩ := List.mem_iff_getElem?.mp hmem
    refine ⟨-(Int.ofNat i) - 1, ?_⟩
    rw [← Std.ExtTreeMap.mem_toList_iff_getElem?_eq_some, toList_assign, List.mem_map]
    exact ⟨(encoding, i), List.mk_mem_zipIdx_iff_getElem?.mpr hi, rfl⟩

theorem neg_of_getElem?_assign {encodings : List (List Char)} {encoding : List Char} {id : Int}
    (h : (assign encodings)[encoding]? = some id) : id < 0 := by
  rw [← Std.ExtTreeMap.mem_toList_iff_getElem?_eq_some, toList_assign, List.mem_map] at h
  obtain ⟨p, -, heq⟩ := h
  cases heq
  simp only [Int.ofNat_eq_natCast]
  omega

/-- the ids go down -/
theorem descending_rows_assign (encodings : List (List Char)) :
    (assign encodings).rows.Pairwise fun a b => b.1 < a.1 := by
  unfold rows
  rw [toList_assign, List.map_map, List.pairwise_map]
  have hindices : ((Std.ExtTreeSet.ofList encodings).toList.zipIdx.map Prod.snd).Pairwise (· < ·) := by
    rw [List.zipIdx_map_snd]
    exact List.pairwise_lt_range'
  apply (List.pairwise_map.mp hindices).imp
  intro a b hlt
  simp only [Function.comp_apply, Int.ofNat_eq_natCast]
  omega

theorem ascending_reverse_rows_assign (encodings : List (List Char)) : Ascending (assign encodings).rows.reverse := by
  unfold Ascending
  rw [List.pairwise_reverse]
  exact (descending_rows_assign encodings).imp fun hlt => compareOfLessAndEq_eq_lt.mpr hlt

/-- the canonical rows are read in the order in which the ids were given -/
theorem canonicalRows_rows (encodings : List (List Char)) (nodes : Std.ExtTreeMap Int NodeRow) :
    Index.canonicalRows ⟨.ofList (assign encodings).rows, nodes⟩ = (assign encodings).rows := by
  have hasc := ascending_reverse_rows_assign encodings
  have hdistinct : (assign encodings).rows.Pairwise fun a b => ¬compare a.1 b.1 = .eq := by
    apply (descending_rows_assign encodings).imp
    intro a b hlt heq
    exact absurd (Std.LawfulEqOrd.eq_of_compare heq) (Int.ne_of_gt hlt)
  have hlist : (Std.ExtTreeMap.ofList (assign encodings).rows).toList = (assign encodings).rows.reverse := by
    apply (Ascending.toList _).ext hasc
    intro row
    rcases row with ⟨id, e⟩
    rw [Std.ExtTreeMap.mem_toList_iff_getElem?_eq_some, getElem?_ofList_of_distinct hdistinct, List.mem_reverse]
  unfold Index.canonicalRows
  rw [hlist, List.reverse_reverse]

end CanonicalIds

end ClauseFold
