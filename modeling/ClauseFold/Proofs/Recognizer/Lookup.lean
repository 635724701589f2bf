/-
Exact lookup in a recognizer that formulas were added to.

A formula is looked up under its encoding. Different formulas have different encodings, so a node that is reached holds
the formula itself or nothing. And no encoding goes on to another, so the way to a formula leads past no other formula:
what holds a formula is a leaf.

Results:
- `addAll_eq_ofCalls`: to add formulas is to put each into the trie under its encoding;
- `size_eq_card`: a recognizer counts the distinct formulas;
- `children_of_value`: a node with a value has nothing below it;
- `addAll_lookup`: all of it together, after any formulas were added.
-/
import Mathlib.Data.Finset.Card
import ClauseFold.Proofs.Trie.Links
import ClauseFold.Proofs.Recognizer.Patterns

namespace ClauseFold

/-- a strict prefix of a key lacks a symbol of it -/
theorem Trie.exists_of_mem_strictPrefixes {k key : List Char} (hk : k ∈ strictPrefixes key) :
    ∃ c cs, key = k ++ c :: cs := by
  induction key using List.reverseRecOn with
  | nil => cases hk
  | append_singleton key d ih =>
    rw [strictPrefixes_concat, List.mem_cons] at hk
    rcases hk with rfl | hk
    · exact ⟨d, [], rfl⟩
    · obtain ⟨c, cs, rfl⟩ := ih hk
      exact ⟨c, cs ++ [d], by rw [List.append_assoc, List.cons_append]⟩

namespace Recognizer

/-! ## Counting -/

/-- the calls that put formulas under their encodings -/
def putAll (fs : List Formula) : List (Trie.Call Formula) := fs.map fun f => .put f.encode f

theorem addAll_eq_afterAll (r : Recognizer) (fs : List Formula) :
    r.addAll fs = .ok ⟨r.trie.afterAll (putAll fs)⟩ := by
  induction fs generalizing r with
  | nil => rfl
  | cons f fs ih =>
    have hput : ((Trie.Call.put f.encode f).run r.trie).2 = r.trie.store f.encode f (r.trie.get? f.encode) := by
      rw [Trie.Call.run, Trie.put_eq f.encode_ne_nil]
      rfl
    calc r.addAll (f :: fs)
        = addAll ⟨r.trie.store f.encode f (r.trie.get? f.encode)⟩ fs := by rw [addAll, List.foldlM_cons, add_eq]; rfl
      _ = .ok ⟨(r.trie.store f.encode f (r.trie.get? f.encode)).afterAll (putAll fs)⟩ := ih _
      _ = .ok ⟨r.trie.afterAll (putAll (f :: fs))⟩ := by rw [← hput]; rfl

theorem addAll_eq_ofCalls (fs : List Formula) : empty.addAll fs = .ok ⟨Trie.ofCalls (putAll fs)⟩ :=
  addAll_eq_afterAll empty fs

/-- each formula that is held is the value of one entry -/
theorem values_perm {r : Recognizer} {patterns : List Formula} (h : r.Holds patterns) :
    r.trie.values.Perm patterns.dedup := by
  have hentries : r.trie.entries.Nodup := by
    apply (Trie.ascending_entries h.wellFormed).distinct.imp
    intro e e' hne heq
    rw [heq] at hne
    exact hne Std.ReflOrd.compare_self
  have hvalues : r.trie.values.Nodup := by
    apply hentries.map_on
    intro e he e' he' heq
    have hkey := ((mem_entries h e).mp he).2
    have hkey' := ((mem_entries h e').mp he').2
    apply Prod.ext
    · rw [← hkey, ← hkey', heq]
    · exact heq
  apply (List.perm_ext_iff_of_nodup hvalues patterns.nodup_dedup).mpr
  intro f
  rw [List.mem_dedup, Trie.values, List.mem_map]
  refine ⟨?_, ?_⟩
  · rintro ⟨e, he, rfl⟩
    exact ((mem_entries h e).mp he).1
  · intro hf
    exact ⟨(f.encode, f), (mem_entries h _).mpr ⟨hf, rfl⟩, rfl⟩

theorem size_eq_card {r : Recognizer} {fs : List Formula} (h : r.Holds fs) (hadd : empty.addAll fs = .ok r) :
    r.size = fs.toFinset.card := by
  rw [addAll_eq_ofCalls] at hadd
  cases hadd
  calc (Trie.ofCalls (putAll fs)).size
      = (Trie.ofCalls (putAll fs)).entries.length := (Trie.tracks_ofCalls _).shows.length_entries.symm
    _ = (Trie.ofCalls (putAll fs)).values.length := by rw [Trie.values, List.length_map]
    _ = fs.dedup.length := (values_perm h).length_eq
    _ = fs.toFinset.card := (List.card_toFinset fs).symm

/-! ## Nodes -/

section

variable {r : Recognizer} {patterns : List Formula}

theorem get?_encode (h : r.Holds patterns) (f : Formula) :
    r.trie.get? f.encode = if f ∈ patterns then some f else none := by
  apply Option.ext
  intro p
  rw [h.get?_eq_some, Option.ite_none_right_eq_some, Option.some.injEq]
  refine ⟨?_, ?_⟩
  · rintro ⟨hp, henc⟩
    cases Formula.encode_injective henc
    exact ⟨hp, rfl⟩
  · rintro ⟨hf, rfl⟩
    exact ⟨hf, rfl⟩

theorem find?_eq_some_iff (r : Recognizer) (f : Formula) {n : Node Formula} :
    r.find? f = some n ↔ r.trie.node? f.encode = some n ∧ n.value.isSome = true := by
  rw [find?, Node.locate_eq_descend?, Option.filter_eq_some_iff]
  rfl

/-- a formula that is held is found -/
theorem find?_of_mem (h : r.Holds patterns) {f : Formula} (hf : f ∈ patterns) :
    ∃ n, r.find? f = some n ∧ r.trie.node? f.encode = some n ∧ n.value = some f := by
  have hget : r.trie.get? f.encode = some f := by rw [get?_encode h, if_pos hf]
  obtain ⟨n, hn, hvalue⟩ := Option.bind_eq_some_iff.mp hget
  exact ⟨n, (find?_eq_some_iff r f).mpr ⟨hn, by rw [hvalue]; rfl⟩, hn, hvalue⟩

/-- no formula is found that is not held -/
theorem find?_of_not_mem (h : r.Holds patterns) {f : Formula} (hf : f ∉ patterns) : r.find? f = none := by
  cases hfind : r.find? f with
  | none => rfl
  | some n =>
    have hget : r.trie.get? f.encode = n.value := by rw [← find?_bind_value, hfind]; rfl
    rw [get?_encode h, if_neg hf] at hget
    have hvalue := ((find?_eq_some_iff r f).mp hfind).2
    rw [← hget] at hvalue
    cases hvalue

/-- a node with a value has nothing below it: something below would be on the way to another formula -/
theorem children_of_value (h : r.Holds patterns) (hspans : r.Spans patterns) {key : List Char} {n : Node Formula}
    (hn : r.trie.node? key = some n) {p : Formula} (hvalue : n.value = some p) : n.children = .nil := by
  have hp : p ∈ patterns ∧ p.encode = key := by
    rw [← h.get?_eq_some, Trie.get?, hn]
    exact hvalue
  cases hchildren : n.children with
  | nil => rfl
  | node c g v ch sib =>
    have hchild : n.child? c = some ⟨g, v, ch⟩ := by
      rw [Node.child?, hchildren, Forest.child?, if_pos rfl]
    have hview : (r.trie.view? (key ++ [c])).isSome = true := by
      rw [Trie.view?, Trie.node?_append_symbol hn, hchild]
      rfl
    rcases (hspans _).mp hview with hnil | ⟨q, -, hq⟩
    · exact absurd hnil (List.append_ne_nil_of_right_ne_nil _ (List.cons_ne_nil c []))
    · have hpq : p = q := Formula.eq_of_encode_prefix (hp.2 ▸ (List.prefix_append key [c]).trans hq)
      have hlength := hq.length_le
      rw [← hpq, hp.2, List.length_append, List.length_singleton] at hlength
      omega

/-- the way to a node leads past no value -/
theorem value_of_ancestor (h : r.Holds patterns) (hspans : r.Spans patterns) {key : List Char} {n : Node Formula}
    (hn : r.trie.node? key = some n) {g : Handle} (hg : g ∈ r.trie.ancestors n.handle) :
    ∃ m, r.trie.at? g = some m ∧ m.value = none := by
  have hancestor : some g ∈ (r.trie.ancestors n.handle).map some := List.mem_map_of_mem hg
  rw [Trie.ancestors_of_node? h.wellFormed hn] at hancestor
  obtain ⟨k, hk, hnode⟩ := List.mem_map.mp hancestor
  obtain ⟨m, hm, rfl⟩ := Option.map_eq_some_iff.mp hnode
  refine ⟨m, Trie.at?_of_node? h.wellFormed hm, ?_⟩
  cases hvalue : m.value with
  | none => rfl
  | some p =>
    -- `k` is a strict prefix, so its node has a child towards `key`
    obtain ⟨c, cs, rfl⟩ := Trie.exists_of_mem_strictPrefixes hk
    rw [Trie.node?, Node.descend?_append] at hn
    obtain ⟨m', hm', hn⟩ := Option.bind_eq_some_iff.mp hn
    cases hm.symm.trans hm'
    rw [Node.descend?, Node.child?, children_of_value h hspans hm hvalue] at hn
    cases hn

end

/-! ## All together -/

/-- what a recognizer says after formulas were added, and what its trie looks like -/
structure LooksUp (r : Recognizer) (fs : List Formula) : Prop where
  /-- to add one more tells the equal formula that was added before, if any -/
  add : ∀ f, ∃ r', r.add f = .ok (if f ∈ fs then some f else none, r') ∧ empty.addAll (fs ++ [f]) = .ok r'
  size : r.size = fs.toFinset.card
  find?_of_mem : ∀ f ∈ fs, ∃ n, r.find? f = some n ∧ r.trie.keyOf? n.handle = some f.encode ∧ n.value = some f
  find?_of_not_mem : ∀ f, f ∉ fs → r.find? f = none
  /-- a node with a value is a leaf -/
  leaf : ∀ n ∈ r.trie.nodes, n.value.isSome = true → n.children = .nil
  /-- a node that is found has no value above it -/
  ancestors : ∀ f n, r.find? f = some n → ∀ g ∈ r.trie.ancestors n.handle, ∃ m, r.trie.at? g = some m ∧ m.value = none

/-- **Exact lookup hits what was added, and that is in the leaves.** Formulas can be added in any order and as often as
one likes. Each addition tells whether an equal formula was there, equal formulas are counted once, a formula is found
exactly if it was added, and no node with a value has another node below it. -/
theorem addAll_lookup (fs : List Formula) : ∃ r, empty.addAll fs = .ok r ∧ r.LooksUp fs := by
  obtain ⟨r, hadd, h⟩ := addAll_empty fs
  have hspans : r.Spans fs := spans_addAll holds_empty spans_empty hadd
  refine ⟨r, hadd, ?_⟩
  constructor
  case add =>
    intro f
    have hone := add_eq r f
    rw [get?_encode h] at hone
    refine ⟨_, hone, ?_⟩
    have hthen : empty.addAll (fs ++ [f]) = empty.addAll fs >>= fun r => r.addAll [f] := List.foldlM_append
    rw [hthen, hadd]
    show r.addAll [f] = _
    rw [addAll, List.foldlM_cons, hone]
    rfl
  case size => exact size_eq_card h hadd
  case find?_of_mem =>
    intro f hf
    obtain ⟨n, hfind, hn, hvalue⟩ := find?_of_mem h hf
    exact ⟨n, hfind, Trie.keyOf?_of_view? h.wellFormed (Trie.view?_of_node? hn), hvalue⟩
  case find?_of_not_mem =>
    intro f hf
    exact find?_of_not_mem h hf
  case leaf =>
    intro n hn hvalue
    obtain ⟨key, hkey⟩ := (Trie.mem_nodes h.wellFormed).mp hn
    obtain ⟨p, hp⟩ := Option.isSome_iff_exists.mp hvalue
    exact children_of_value h hspans hkey hp
  case ancestors =>
    intro f n hfind g hg
    exact value_of_ancestor h hspans ((find?_eq_some_iff r f).mp hfind).1 hg

end Recognizer

end ClauseFold
