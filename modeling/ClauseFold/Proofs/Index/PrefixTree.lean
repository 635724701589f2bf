/-
What a compilation writes, row by row and without a trie. The canonical rows are the encodings of the canonical formulas,
and the node rows are the beginnings of the encodings of the patterns, both in ascending order; the id of a row is the
place of its key in the order. A writer that goes over a trie with a table of ids writes just these rows, and so it does
not matter in which order, or how often, a source lists its formulas.

Results:
- `rowsFrom_eq`: the rows of a forest, from any numbering of its keys in order;
- `exists_prefixTree`: a source without a fault is compiled into its prefix tree;
- `PrefixTree.unique`: sources of the same formulas have the same prefix tree;
- `indexInto_writes_prefixTree`: both for every compilation that goes well.
-/
import ClauseFold.Proofs.Index.Transaction
import ClauseFold.Proofs.Trie.Listing

namespace ClauseFold

/-! ## Places in an ascending list -/

/-- a list of the keys of a kind, in ascending order and each once -/
structure Lists (l : List (List Char)) (kind : List Char → Prop) : Prop where
  ascending : l.Pairwise (· < ·)
  mem : ∀ key, key ∈ l ↔ kind key

/-- the place of a key in a list, from one on, and zero where it is not in the list -/
def place (l : List (List Char)) (key : List Char) : Int :=
  match l.idxOf? key with
  | none => noId
  | some n => n + 1

theorem Lists.nodup {l : List (List Char)} {kind : List Char → Prop} (h : Lists l kind) : l.Nodup := by
  apply h.ascending.imp
  intro a b hlt heq
  rw [heq] at hlt
  exact List.lt_irrefl b hlt

/-- there is one such list only -/
theorem Lists.unique {l l' : List (List Char)} {kind kind' : List Char → Prop} (h : Lists l kind) (h' : Lists l' kind')
    (hkind : ∀ key, kind key ↔ kind' key) : l = l' := by
  have hperm : l.Perm l' := by
    rw [List.perm_ext_iff_of_nodup h.nodup h'.nodup]
    intro key
    rw [h.mem, h'.mem, hkind]
  exact hperm.eq_of_pairwise (fun a b _ _ hab hba => absurd hba (List.lt_asymm hab)) h.ascending h'.ascending

theorem lists_keys {β : Type} {l : List (List Char × β)} (h : Ascending l) {kind : List Char → Prop}
    (hmem : ∀ key, (∃ b, (key, b) ∈ l) ↔ kind key) : Lists (l.map Prod.fst) kind := by
  refine ⟨?_, ?_⟩
  · rw [List.pairwise_map]
    exact h.imp fun hlt => (compare_eq_lt_iff _ _).mp hlt
  · intro key
    rw [← hmem, List.mem_map]
    refine ⟨?_, ?_⟩
    · intro hkey
      obtain ⟨e, he, rfl⟩ := hkey
      exact ⟨e.2, he⟩
    · intro hkey
      obtain ⟨b, hb⟩ := hkey
      exact ⟨_, hb, rfl⟩

theorem place_getElem {l : List (List Char)} (hl : l.Nodup) {n : Nat} (hn : n < l.length) : place l l[n] = n + 1 := by
  have hfind : l.idxOf? l[n] = some n := by
    rw [List.idxOf?_eq_some_iff]
    exact ⟨hn, rfl, fun m hm => (List.pairwise_iff_getElem.mp hl m n (Nat.lt_trans hm hn) hn hm)⟩
  unfold place
  rw [hfind]

theorem place_of_not_mem {l : List (List Char)} {key : List Char} (h : key ∉ l) : place l key = noId := by
  unfold place
  rw [List.idxOf?_eq_none_iff.mpr h]

/-- places go up -/
theorem Lists.place_lt {l : List (List Char)} {kind : List Char → Prop} (h : Lists l kind) {a b : List Char}
    (hb : b ∈ l) (hab : a < b) : place l a < place l b := by
  obtain ⟨n, hn, rfl⟩ := List.getElem_of_mem hb
  rw [place_getElem h.nodup hn]
  by_cases ha : a ∈ l
  · obtain ⟨m, hm, rfl⟩ := List.getElem_of_mem ha
    rw [place_getElem h.nodup hm]
    have hmn : m < n := by
      by_contra hnot
      rcases Nat.lt_or_eq_of_le (Nat.not_lt.mp hnot) with hlt | heq
      · exact List.lt_asymm hab (List.pairwise_iff_getElem.mp h.ascending n m hn hm hlt)
      · subst heq
        exact List.lt_irrefl _ hab
    omega
  · rw [place_of_not_mem ha, noId]
    omega

/-! ## The rows of a forest -/

namespace Forest

/-- the keys of a list have the ids from `next` on, in order -/
def Numbered {β : Type} (ids : List Char → Int) (next : Int) (l : List (List Char × β)) : Prop :=
  ∀ (n : Nat) e, l[n]? = some e → ids e.1 = next + n

theorem Numbered.cons {β : Type} {ids : List Char → Int} {next : Int} {e : List Char × β} {l : List (List Char × β)}
    (h : Numbered ids next (e :: l)) : ids e.1 = next ∧ Numbered ids (next + 1) l := by
  refine ⟨?_, ?_⟩
  · simpa using h 0 e rfl
  · intro n e' he'
    have hid := h (n + 1) e' he'
    omega

theorem Numbered.append {β : Type} {ids : List Char → Int} {next : Int} {l l' : List (List Char × β)}
    (h : Numbered ids next (l ++ l')) : Numbered ids next l ∧ Numbered ids (next + l.length) l' := by
  refine ⟨?_, ?_⟩
  · intro n e he
    obtain ⟨hn, -⟩ := List.getElem?_eq_some_iff.mp he
    exact h n e (by rw [List.getElem?_append_left hn, he])
  · intro n e he
    have hid := h (l.length + n) e (by rw [List.getElem?_append_right (by omega), Nat.add_sub_cancel_left, he])
    omega

/-- the places in an ascending list are a numbering of it -/
theorem numbered_place {β : Type} {l : List (List Char × β)} (hl : (l.map Prod.fst).Nodup) :
    Numbered (place (l.map Prod.fst)) 1 l := by
  intro n e he
  obtain ⟨hn, rfl⟩ := List.getElem?_eq_some_iff.mp he
  have hplace := place_getElem hl (n := n) (by rwa [List.length_map])
  rw [List.getElem_map] at hplace
  omega

/-- the rows of a forest, from any numbering of its keys in order: a row has the last symbol of its key, and its parent
is the row of the key without that symbol -/
theorem rowsFrom_eq {ids : List Char → Int} (idOf : Formula → Int) {fo : Forest Formula} {path : List Char} {next : Int}
    (h : Numbered ids next (fo.listing path)) :
    fo.rowsFrom idOf (ids path.reverse) next = (fo.listing path).map fun e =>
      (ids e.1, ⟨e.1.getLast?.toList, ids e.1.dropLast, (e.2.map idOf).getD noId⟩) := by
  induction fo generalizing path next with
  | nil => rfl
  | node c hd v ch sib ihc ihs =>
    rw [listing_node] at h ⊢
    obtain ⟨hown, hrest⟩ := h.cons
    obtain ⟨hch, hsib⟩ := hrest.append
    rw [length_listing] at hsib
    have hlast : ((c :: path).reverse).getLast?.toList = [c] := by simp
    have hinit : ((c :: path).reverse).dropLast = path.reverse := by simp
    simp only at hown
    rw [rowsFrom, List.map_cons, List.map_append, ← ihc hch, ← ihs hsib, hlast, hinit, hown]

end Forest

/-! ## Canonical rows -/

namespace CanonicalIds

/-- the encodings that are numbered, in order -/
def encodings (ids : CanonicalIds) : List (List Char) := ids.toList.map Prod.fst

theorem lists_encodings (l : List (List Char)) : Lists (assign l).encodings fun e => e ∈ l := by
  apply lists_keys (Ascending.toList _)
  intro key
  rw [← mem_assign]
  simp only [Std.ExtTreeMap.mem_toList_iff_getElem?_eq_some]

/-- the id of an encoding is its place, downwards -/
theorem rows_assign (l : List (List Char)) :
    (assign l).rows = (assign l).encodings.map fun e => (-place (assign l).encodings e, e) := by
  have hkeys : (assign l).encodings = (Std.ExtTreeSet.ofList l).toList := by
    unfold encodings
    rw [toList_assign, List.map_map]
    exact List.zipIdx_map_fst 0 _
  have hnodup := (lists_encodings l).nodup
  unfold rows
  rw [hkeys] at hnodup ⊢
  rw [toList_assign, List.map_map]
  apply List.ext_getElem
  · simp
  · intro n hn hn'
    rw [List.length_map] at hn'
    simp only [List.getElem_map, List.getElem_zipIdx, Function.comp_apply, place_getElem hnodup hn', Int.ofNat_eq_natCast,
      Prod.mk.injEq, and_true]
    omega

theorem getElem?_assign {l : List (List Char)} {e : List Char} (he : e ∈ l) :
    (assign l)[e]? = some (-place (assign l).encodings e) := by
  rw [← mem_rows, rows_assign, List.mem_map]
  exact ⟨e, ((lists_encodings l).mem e).mpr he, rfl⟩

end CanonicalIds

/-! ## The prefix tree of a source -/

namespace RuleSource

/-- the id of what replaces the pattern that a key encodes, if it encodes one -/
def canonicalColumn (source : RuleSource) (encodings : List (List Char)) (key : List Char) : Int :=
  match source.patterns.find? fun p => p.encode = key with
  | none => noId
  | some p => (source.canonicalOf p).elim noId fun c => -place encodings c.encode

/-- an index that holds the sorted prefix tree of the patterns of a source: `encodings` are those of the canonical
formulas, `keys` those of the patterns, and `prefixes` what a key begins with -/
structure PrefixTree (source : RuleSource) (encodings prefixes keys : List (List Char)) (i : Index) : Prop where
  listsEncodings : Lists encodings fun e => ∃ c ∈ source.canonical, c.encode = e
  listsPrefixes : Lists prefixes fun k => k ≠ [] ∧ ∃ p ∈ source.patterns, k <+: p.encode
  listsKeys : Lists keys fun k => ∃ p ∈ source.patterns, p.encode = k
  canonicalRows : i.canonicalRows = encodings.map fun e => (-place encodings e, e)
  nodeRows : i.nodeRows = prefixes.map fun k =>
    (place prefixes k, ⟨k.getLast?.toList, place prefixes k.dropLast, source.canonicalColumn encodings k⟩)

variable {source : RuleSource}

theorem canonicalColumn_encode (encodings : List (List Char)) {p : Formula} (hp : p ∈ source.patterns) :
    source.canonicalColumn encodings p.encode =
      (source.canonicalOf p).elim noId fun c => -place encodings c.encode := by
  unfold canonicalColumn
  cases hfind : source.patterns.find? fun q => q.encode = p.encode with
  | none =>
    have hnot := List.find?_eq_none.mp hfind p hp
    simp at hnot
  | some q =>
    have hencode : q.encode = p.encode := by simpa using List.find?_some hfind
    rw [Formula.encode_injective hencode]

theorem canonicalColumn_of_not (encodings : List (List Char)) {key : List Char}
    (h : ∀ p ∈ source.patterns, p.encode ≠ key) : source.canonicalColumn encodings key = noId := by
  have hfind : (source.patterns.find? fun p => p.encode = key) = none := by
    rw [List.find?_eq_none]
    intro p hp
    simpa using h p hp
  unfold canonicalColumn
  rw [hfind]

/-- the id that the writer finds for a pattern is the place of what replaces it -/
theorem idOf_eq {p : Formula} (h : source.Replaces p) :
    source.idOf source.canonicalIds p =
      (source.canonicalOf p).elim noId fun c => -place source.canonicalIds.encodings c.encode := by
  obtain ⟨c, hmem, hc⟩ := h
  unfold idOf canonicalIds
  rw [hc, Option.bind_some, CanonicalIds.getElem?_assign (List.mem_map_of_mem hmem)]
  rfl

section

variable {r : Recognizer}

/-- the nodes of the trie that is walked are those on the way to the patterns -/
theorem lists_prefixes (hr : r.Holds source.patterns) (hspans : r.Spans source.patterns) :
    Lists ((r.trie.forest.listing []).map Prod.fst) fun k => k ≠ [] ∧ ∃ p ∈ source.patterns, k <+: p.encode := by
  apply lists_keys (Forest.ascending_listing hr.wellFormed.sorted)
  intro key
  simp only [Forest.mem_listing hr.wellFormed.sorted]
  by_cases hkey : key = []
  · subst hkey
    simp [Forest.view?, Forest.find?]
  · have hway := hspans key
    rw [Trie.view?_eq _ hkey, Option.isSome_iff_exists] at hway
    simp only [hkey, false_or] at hway
    simp only [ne_eq, hkey, not_false_eq_true, true_and, ← hway, Option.map_eq_some_iff]
    refine ⟨?_, ?_⟩
    · intro h
      obtain ⟨v, n, hn, -⟩ := h
      exact ⟨n, hn⟩
    · intro h
      obtain ⟨n, hn⟩ := h
      exact ⟨n.2, n, hn, rfl⟩

theorem lists_keys_of_patterns (hr : r.Holds source.patterns) :
    Lists (r.trie.entries.map Prod.fst) fun k => ∃ p ∈ source.patterns, p.encode = k := by
  apply lists_keys (Trie.ascending_entries hr.wellFormed)
  intro key
  simp only [Recognizer.mem_entries hr]

theorem canonicalColumn_of_mem_listing (hr : r.Holds source.patterns) (h : ∀ p ∈ source.patterns, source.Replaces p)
    {e : List Char × Option Formula} (he : e ∈ r.trie.forest.listing []) :
    (e.2.map (source.idOf source.canonicalIds)).getD noId =
      source.canonicalColumn source.canonicalIds.encodings e.1 := by
  obtain ⟨key, v⟩ := e
  have hget : r.trie.get? key = v := by
    rw [Trie.get?_eq_value?, Forest.value?_eq_view?]
    obtain ⟨n, hn, rfl⟩ := Option.map_eq_some_iff.mp ((Forest.mem_listing hr.wellFormed.sorted).mp he)
    rw [hn]
    rfl
  cases v with
  | none =>
    rw [canonicalColumn_of_not]
    · rfl
    · intro p hp hkey
      rw [(hr.get?_eq_some key p).mpr ⟨hp, hkey⟩] at hget
      cases hget
  | some p =>
    obtain ⟨hp, rfl⟩ := (hr.get?_eq_some key p).mp hget
    rw [canonicalColumn_encode _ hp, ← idOf_eq (h p hp)]
    rfl

end

/-- a source without a fault is compiled into its prefix tree -/
theorem exists_prefixTree (h : ∀ p ∈ source.patterns, source.Replaces p) :
    ∃ encodings prefixes keys i, source.PrefixTree encodings prefixes keys i ∧
      source.indexInto .empty = (.ok ⟨encodings.length, prefixes.length, keys.length⟩, .ofStore (some i)) := by
  obtain ⟨r, hadd, hr⟩ := Recognizer.addAll_empty source.patterns
  have hspans := Recognizer.spans_addAll Recognizer.holds_empty Recognizer.spans_empty hadd
  obtain ⟨i, hcompile, hcanonical, hnodes⟩ := compileInto_none hadd hr h
  have hencodings : Lists source.canonicalIds.encodings fun e => ∃ c ∈ source.canonical, c.encode = e := by
    refine ⟨(CanonicalIds.lists_encodings _).ascending, ?_⟩
    intro e
    rw [canonicalIds, (CanonicalIds.lists_encodings _).mem, List.mem_map]
  have hprefixes := lists_prefixes hr hspans
  have hcount : source.canonicalIds.encodings.length = source.canonicalIds.size := by
    rw [CanonicalIds.encodings, List.length_map, Std.ExtTreeMap.length_toList]
  refine ⟨_, _, _, i, ⟨hencodings, hprefixes, lists_keys_of_patterns hr, ?_, ?_⟩, ?_⟩
  · rw [hcanonical]
    exact CanonicalIds.rows_assign _
  · have hroot : place ((r.trie.forest.listing []).map Prod.fst) [] = noId := by
      apply place_of_not_mem
      rw [hprefixes.mem]
      exact fun hnil => hnil.1 rfl
    have hrows := Forest.rowsFrom_eq (source.idOf source.canonicalIds) (Forest.numbered_place hprefixes.nodup)
    rw [List.reverse_nil, hroot] at hrows
    rw [hnodes, hrows, List.map_map]
    apply List.map_congr_left
    intro e he
    simp only [Function.comp_apply, canonicalColumn_of_mem_listing hr h he]
  · rw [indexInto_empty, hcompile, List.length_map, List.length_map, Forest.length_listing, hcount]

/-! ## What the prefix tree depends on -/

namespace PrefixTree

variable {encodings prefixes keys : List (List Char)} {i : Index}

/-- without its last symbol a prefix is a prefix still, or empty -/
theorem dropLast_mem (h : source.PrefixTree encodings prefixes keys i) {k : List Char} (hk : k ∈ prefixes) :
    k.dropLast = [] ∨ k.dropLast ∈ prefixes := by
  obtain ⟨-, p, hp, hprefix⟩ := (h.listsPrefixes.mem k).mp hk
  by_cases hnil : k.dropLast = []
  · exact Or.inl hnil
  · exact Or.inr ((h.listsPrefixes.mem _).mpr ⟨hnil, p, hp, (List.dropLast_prefix k).trans hprefix⟩)

/-- the row of a parent comes first -/
theorem parent_lt (h : source.PrefixTree encodings prefixes keys i) {row : Int × NodeRow} (hrow : row ∈ i.nodeRows) :
    row.2.parent < row.1 := by
  rw [h.nodeRows, List.mem_map] at hrow
  obtain ⟨k, hk, rfl⟩ := hrow
  have hne := ((h.listsPrefixes.mem k).mp hk).1
  have hlt : k.dropLast < k := by
    have hlonger : compare (k.dropLast ++ []) (k.dropLast ++ [k.getLast hne]) = .lt :=
      Forest.compare_append_left k.dropLast [] [k.getLast hne]
    rw [List.append_nil, List.dropLast_append_getLast] at hlonger
    exact (compare_eq_lt_iff _ _).mp hlonger
  exact h.listsPrefixes.place_lt hk hlt

end PrefixTree

/-- sources of the same formulas, each in an order of its own, that replace patterns alike -/
structure Same (a b : RuleSource) : Prop where
  canonical : ∀ f, f ∈ a.canonical ↔ f ∈ b.canonical
  patterns : ∀ p, p ∈ a.patterns ↔ p ∈ b.patterns
  canonicalOf : ∀ p ∈ a.patterns, a.canonicalOf p = b.canonicalOf p

variable {other : RuleSource}

theorem Same.replaces (h : source.Same other) (hall : ∀ p ∈ source.patterns, source.Replaces p) :
    ∀ p ∈ other.patterns, other.Replaces p := by
  intro p hp
  rw [← h.patterns] at hp
  obtain ⟨c, hmem, hc⟩ := hall p hp
  exact ⟨c, (h.canonical c).mp hmem, (h.canonicalOf p hp).symm.trans hc⟩

theorem Same.canonicalColumn (h : source.Same other) (encodings : List (List Char)) (key : List Char) :
    source.canonicalColumn encodings key = other.canonicalColumn encodings key := by
  by_cases hkey : ∃ p ∈ source.patterns, p.encode = key
  · obtain ⟨p, hp, rfl⟩ := hkey
    rw [canonicalColumn_encode encodings hp, canonicalColumn_encode encodings ((h.patterns p).mp hp), h.canonicalOf p hp]
  · rw [canonicalColumn_of_not encodings fun p hp henc => hkey ⟨p, hp, henc⟩,
      canonicalColumn_of_not encodings fun p hp henc => hkey ⟨p, (h.patterns p).mpr hp, henc⟩]

/-- sources of the same formulas have the same prefix tree -/
theorem PrefixTree.unique {encodings prefixes keys encodings' prefixes' keys' : List (List Char)} {i i' : Index}
    (hsame : source.Same other) (h : source.PrefixTree encodings prefixes keys i)
    (h' : other.PrefixTree encodings' prefixes' keys' i') :
    encodings = encodings' ∧ prefixes = prefixes' ∧ keys = keys' ∧ i = i' := by
  have hencodings : encodings = encodings' :=
    h.listsEncodings.unique h'.listsEncodings fun k => by simp only [hsame.canonical]
  have hprefixes : prefixes = prefixes' :=
    h.listsPrefixes.unique h'.listsPrefixes fun k => by simp only [hsame.patterns]
  have hkeys : keys = keys' :=
    h.listsKeys.unique h'.listsKeys fun k => by simp only [hsame.patterns]
  subst hencodings hprefixes hkeys
  have hcanonical : i.canonical = i'.canonical := by
    apply ext_of_toList
    apply List.reverse_injective
    exact h.canonicalRows.trans h'.canonicalRows.symm
  have hnodes : i.nodes = i'.nodes := by
    apply ext_of_toList
    refine h.nodeRows.trans (Eq.trans ?_ h'.nodeRows.symm)
    simp only [hsame.canonicalColumn]
  refine ⟨rfl, rfl, rfl, ?_⟩
  cases i
  cases i'
  cases hcanonical
  cases hnodes
  rfl

/-- a compilation that goes well went into a database that was ready, and the source is without a fault -/
theorem of_indexInto {db db' : Database} {summary : IndexSummary} (h : source.indexInto db = (.ok summary, db')) :
    db = .empty ∧ ∀ p ∈ source.patterns, source.Replaces p := by
  rcases indexInto_cases source db with ⟨hready, hreplaces, -⟩ | ⟨p, -, herror⟩ | ⟨cause, -, herror⟩
  · exact ⟨hready.eq_empty, hreplaces⟩
  · rw [herror] at h
    cases h
  · rw [herror] at h
    cases h

/-- sources of the same formulas are compiled into the same rows -/
theorem indexInto_of_same {db db' : Database} {summary : IndexSummary} (hsame : source.Same other)
    (h : source.indexInto db = (.ok summary, db')) : other.indexInto db = (.ok summary, db') := by
  obtain ⟨rfl, hreplaces⟩ := of_indexInto h
  obtain ⟨encodings, prefixes, keys, i, htree, hok⟩ := exists_prefixTree hreplaces
  obtain ⟨encodings', prefixes', keys', i', htree', hok'⟩ := exists_prefixTree (hsame.replaces hreplaces)
  obtain ⟨rfl, rfl, rfl, rfl⟩ := htree.unique hsame htree'
  rw [hok', ← hok, h]

/-- **The relations are the sorted prefix tree.** A compilation that goes well leaves one canonical row for each encoding
of a canonical formula, with the ids from minus one down in ascending order, and one node row for each non-empty prefix of
the encoding of a pattern, with the ids from one up in ascending order. A node row has the last symbol of its prefix; its
parent is the row of the prefix without that symbol, which comes first, or none; and its canonical id is that of what
replaces the pattern, if the prefix is the encoding of one. The summary counts the three kinds of keys. Sources of the same
formulas, in whatever order and however often they are listed, leave the same rows. -/
theorem indexInto_writes_prefixTree {db db' : Database} {summary : IndexSummary}
    (h : source.indexInto db = (.ok summary, db')) :
    (∃ encodings prefixes keys i, db' = .ofStore (some i) ∧ source.PrefixTree encodings prefixes keys i ∧
      summary = ⟨encodings.length, prefixes.length, keys.length⟩ ∧
      (∀ k ∈ prefixes, k.dropLast = [] ∨ k.dropLast ∈ prefixes) ∧
      (∀ row ∈ i.nodeRows, row.2.parent < row.1) ∧
      ∀ p ∈ source.patterns, ∃ c, source.canonicalOf p = some c ∧ c.encode ∈ encodings) ∧
    ∀ other : RuleSource, source.Same other → other.indexInto db = (.ok summary, db') := by
  refine ⟨?_, fun other hsame => indexInto_of_same hsame h⟩
  obtain ⟨rfl, hreplaces⟩ := of_indexInto h
  obtain ⟨encodings, prefixes, keys, i, htree, hok⟩ := exists_prefixTree hreplaces
  rw [hok] at h
  cases h
  refine ⟨encodings, prefixes, keys, i, rfl, htree, rfl, fun k => htree.dropLast_mem, fun row => htree.parent_lt, ?_⟩
  intro p hp
  obtain ⟨c, hmem, hc⟩ := hreplaces p hp
  exact ⟨c, hc, (htree.listsEncodings.mem _).mpr ⟨c, hmem, rfl⟩⟩

theorem lists_of_negatedConstants {encodings prefixes keys : List (List Char)} {i : Index}
    (h : negatedConstants.PrefixTree encodings prefixes keys i) :
    encodings = [['F'], ['T']] ∧ prefixes = [['-'], ['-', 'F'], ['-', 'T']] ∧ keys = [['-', 'F'], ['-', 'T']] := by
  refine ⟨?_, ?_, ?_⟩
  · refine h.listsEncodings.unique ⟨by decide, ?_⟩ fun _ => Iff.rfl
    simp [negatedConstants, Formula.constSymbol, symbolTrue, symbolFalse, eq_comm, or_comm]
  · refine h.listsPrefixes.unique ⟨by decide, ?_⟩ fun _ => Iff.rfl
    intro k
    have hway : (∃ p ∈ negatedConstants.patterns, k <+: p.encode) ↔ k <+: ['-', 'F'] ∨ k <+: ['-', 'T'] := by
      simp only [negatedConstants, List.mem_cons, List.not_mem_nil, or_false, exists_eq_or_imp, exists_eq_left,
        Formula.encode_neg, Formula.encode_const, Formula.constSymbol, symbolTrue, symbolFalse, symbolNeg]
      grind
    rw [hway]
    simp only [List.prefix_cons_iff, List.prefix_nil, List.mem_cons, List.not_mem_nil, or_false]
    grind
  · refine h.listsKeys.unique ⟨by decide, ?_⟩ fun _ => Iff.rfl
    simp [negatedConstants, Formula.constSymbol, symbolTrue, symbolFalse, symbolNeg, eq_comm, or_comm]

theorem indexInto_writes_prefixTree_negatedConstants :
    ∃ i, negatedConstants.indexInto .empty = (.ok ⟨2, 3, 2⟩, .ofStore (some i)) ∧
      i.canonicalRows = [(-1, ['F']), (-2, ['T'])] ∧
      i.nodeRows = [(1, ⟨['-'], 0, 0⟩), (2, ⟨['F'], 1, -2⟩), (3, ⟨['T'], 1, -1⟩)] ∧
      ∀ other : RuleSource, negatedConstants.Same other →
        other.indexInto .empty = (.ok ⟨2, 3, 2⟩, .ofStore (some i)) := by
  obtain ⟨_, _, _, _, -, hok⟩ := exists_prefixTree replaces_negatedConstants
  obtain ⟨⟨encodings, prefixes, keys, i, hdb, htree, hsummary, -⟩, hother⟩ := indexInto_writes_prefixTree hok
  obtain ⟨rfl, rfl, rfl⟩ := lists_of_negatedConstants htree
  rw [hsummary, hdb] at hok hother
  refine ⟨i, hok, ?_, ?_, hother⟩
  · rw [htree.canonicalRows]
    decide
  · rw [htree.nodeRows]
    simp [canonicalColumn, negatedConstants, Formula.constSymbol, symbolTrue, symbolFalse, symbolNeg, place, noId,
      List.find?_cons, List.idxOf?_cons]

end RuleSource

end ClauseFold
