/-
What an arena holds. An arena stores a view if its cells are the nodes of the view with all their links, and there are no
others. Each change of an arena is a change of what it stores at one key, or along one way.

Results:
- `Stores.make`, `Stores.write`, `Stores.drop`: a node more, another value, a node less;
- `Stores.insertChild_of_some`, `Stores.insertChild_of_none`, `Stores.setValue`: the calls by handle;
- `Stores.insertWay`, `Stores.prune`: the loops along a key and back.
-/
import ClauseFold.Trie.Arena
import ClauseFold.Proofs.Trie.Views

namespace ClauseFold

variable {α : Type}

/-! ## Cells -/

/-- a cell with the links of the node at a key -/
structure Cell.Shows (n : Cell α) (V : View α) (key : List Char) (value : Option α) : Prop where
  symbol : n.symbol = key.getLast?
  depth : n.depth = key.length
  parent : n.parent = if key = [] then none else (V key.dropLast).map Prod.fst
  value : n.value = value
  children : ∀ c, n.children[c]? = (V (key ++ [c])).map Prod.fst

/-- the links of a node depend on the handles of the nodes next to it only -/
theorem Cell.Shows.congr {n : Cell α} {V V' : View α} {key : List Char} {value : Option α} (h : n.Shows V key value)
    (hparent : key ≠ [] → (V' key.dropLast).map Prod.fst = (V key.dropLast).map Prod.fst)
    (hchildren : ∀ c, (V' (key ++ [c])).map Prod.fst = (V (key ++ [c])).map Prod.fst) : n.Shows V' key value := by
  refine ⟨h.symbol, h.depth, ?_, h.value, ?_⟩
  · rw [h.parent]
    by_cases hkey : key = []
    · rw [if_pos hkey, if_pos hkey]
    · rw [if_neg hkey, if_neg hkey, hparent hkey]
  · intro c
    rw [h.children, hchildren]

/-- a node below the root knows its parent, its symbol and its depth -/
theorem Cell.Shows.of_concat {n : Cell α} {V : View α} {key : List Char} {c : Char} {value : Option α}
    (h : n.Shows V (key ++ [c]) value) {p : Handle × Option α} (hp : V key = some p) :
    n.parent = some p.1 ∧ n.symbol = some c ∧ n.depth = key.length + 1 := by
  refine ⟨?_, ?_, ?_⟩
  · rw [h.parent, if_neg (by simp), List.dropLast_concat, hp]
    rfl
  · rw [h.symbol, List.getLast?_concat]
  · rw [h.depth, List.length_append, List.length_singleton]

/-- an arena whose cells are the nodes of a view, with all their links, and nothing else -/
structure Arena.Stores (a : Arena α) (V : View α) : Prop where
  rooted : V.Rooted a.root a.next
  cell : ∀ {key : List Char} {m : Handle × Option α}, V key = some m →
    ∃ n, a.cells[m.1]? = some n ∧ n.Shows V key m.2
  live : ∀ {h : Handle} {n : Cell α}, a.cells[h]? = some n → ∃ key v, V key = some (h, v)

theorem getElem?_modify_eq {β γ : Type} [Ord β] [Std.TransOrd β] [Std.LawfulEqOrd β] [DecidableEq β]
    (m : Std.ExtTreeMap β γ) (k k' : β) (f : γ → γ) : (m.modify k f)[k']? = if k' = k then m[k]?.map f else m[k']? := by
  rw [Std.ExtTreeMap.getElem?_modify]
  simp only [Std.LawfulEqOrd.compare_eq_iff_eq, @eq_comm _ k]

namespace Arena

variable {a : Arena α} {V : View α}

/-- a handle that is at no key is stale -/
theorem Stores.stale (h : a.Stores V) {g : Handle} (hg : ∀ key v, V key ≠ some (g, v)) : a.cells[g]? = none := by
  cases hn : a.cells[g]? with
  | none => rfl
  | some n =>
    obtain ⟨key, v, hkey⟩ := h.live hn
    exact absurd hkey (hg key v)

/-! ## A node more -/

theorem cells_make {p : Handle} {n : Cell α} (hn : a.cells[p]? = some n) (hp : p ≠ a.next) (c : Char) (depth : Nat)
    (g : Handle) :
    (a.make p c depth).cells[g]? =
      if g = p then some { n with children := n.children.insert c a.next }
      else if g = a.next then some (.fresh (some p) (some c) depth)
      else a.cells[g]? := by
  have hinsert : ∀ k, (a.cells.insert a.next (.fresh (some p) (some c) depth))[k]? =
      if k = a.next then some (.fresh (some p) (some c) depth) else a.cells[k]? := by
    intro k
    rw [Std.ExtTreeMap.getElem?_insert]
    simp only [Std.LawfulEqOrd.compare_eq_iff_eq, @eq_comm _ a.next]
  rw [make, getElem?_modify_eq, hinsert, hinsert, if_neg hp, hn]
  rfl

/-- a new node stands at its key, and nothing else changes -/
theorem Stores.make (h : a.Stores V) {key : List Char} {p : Handle × Option α} (hp : V key = some p) {c : Char}
    (hnone : V (key ++ [c]) = none) :
    (a.make p.1 c (key.length + 1)).Stores (V.set (key ++ [c]) (some (a.next, none))) := by
  obtain ⟨n, hn, hshows⟩ := h.cell hp
  have hcells := cells_make hn (Nat.ne_of_lt (h.rooted.next hp)) c (key.length + 1)
  have hold : ∀ {k m}, V k = some m → V.set (key ++ [c]) (some (a.next, none)) k = some m := by
    intro k m hm
    refine View.set_eq_some_iff.mpr (Or.inr ⟨?_, hm⟩)
    intro heq
    rw [heq, hnone] at hm
    cases hm
  have hparent : ∀ {k m}, V k = some m → k ≠ [] →
      (V.set (key ++ [c]) (some (a.next, none)) k.dropLast).map Prod.fst = (V k.dropLast).map Prod.fst := by
    intro k m hm hne
    obtain ⟨q, hq, -⟩ := h.rooted.parent_of_ne_nil hne hm
    rw [hold hq, hq]
  refine ⟨h.rooted.make hp hnone, ?_, ?_⟩
  · intro k m hset
    rcases View.set_eq_some_iff.mp hset with ⟨hk, hm⟩ | ⟨-, hm⟩
    · cases hm
      rw [hk]
      refine ⟨.fresh (some p.1) (some c) (key.length + 1), ?_, ?_, ?_, ?_, rfl, ?_⟩
      · rw [hcells, if_neg (Nat.ne_of_lt (h.rooted.next hp)).symm, if_pos rfl]
      · simp [Cell.fresh]
      · simp [Cell.fresh]
      · rw [if_neg (by simp), List.dropLast_concat, hold hp]
        rfl
      · intro d
        rw [View.set_of_ne (by simp), h.rooted.none_below hnone]
        simp [Cell.fresh]
    · obtain ⟨n', hn', hshows'⟩ := h.cell hm
      by_cases hkp : m.1 = p.1
      · -- the parent has a child more
        obtain rfl := h.rooted.distinct hm hp hkp
        rw [hp] at hm
        cases hm
        refine ⟨{ n with children := n.children.insert c a.next }, by rw [hcells, if_pos rfl], hshows.symbol,
          hshows.depth, ?_, hshows.value, ?_⟩
        · rw [hshows.parent]
          split_ifs with hempty
          · rfl
          · exact (hparent hp hempty).symm
        · intro d
          simp only [Std.ExtTreeMap.getElem?_insert, Std.LawfulEqOrd.compare_eq_iff_eq]
          by_cases hcd : c = d
          · rw [if_pos hcd, hcd, View.set_self]
            rfl
          · rw [if_neg hcd, hshows.children, View.set_of_ne (by simpa using Ne.symm hcd)]
      · refine ⟨n', by rw [hcells, if_neg hkp, if_neg (Nat.ne_of_lt (h.rooted.next hm)), hn'],
          hshows'.congr (hparent hm) ?_⟩
        intro d
        rw [View.set_of_ne]
        intro heq
        obtain ⟨rfl, -⟩ := List.append_inj' heq rfl
        rw [hp] at hm
        cases hm
        exact hkp rfl
  · intro g n' hg
    rw [hcells] at hg
    split_ifs at hg with hgp hgnext
    · exact ⟨key, p.2, by rw [hold hp, hgp]⟩
    · exact ⟨key ++ [c], none, by rw [View.set_self, hgnext]⟩
    · obtain ⟨k, v, hk⟩ := h.live hg
      exact ⟨k, v, hold hk⟩

/-! ## Another value -/

/-- another value stands at a key, and nothing else changes -/
theorem Stores.write (h : a.Stores V) {key : List Char} (hkey : key ≠ []) {g : Handle} {v : Option α}
    (hg : V key = some (g, v)) (w : Option α) (size : Nat) : (a.write g w size).Stores (V.set key (some (g, w))) := by
  obtain ⟨n, hn, hshows⟩ := h.cell hg
  have hcells : ∀ k, (a.write g w size).cells[k]? = if k = g then some { n with value := w } else a.cells[k]? := by
    intro k
    rw [Arena.write, getElem?_modify_eq, hn]
    rfl
  have hhandles : ∀ k, (V.set key (some (g, w)) k).map Prod.fst = (V k).map Prod.fst := by
    intro k
    by_cases hk : k = key
    · rw [hk, View.set_self, hg]
      rfl
    · rw [View.set_of_ne hk]
  refine ⟨h.rooted.write hkey hg w, ?_, ?_⟩
  · intro k m hset
    rcases View.set_eq_some_iff.mp hset with ⟨hk, hm⟩ | ⟨hk, hm⟩
    · cases hm
      rw [hk]
      refine ⟨{ n with value := w }, by rw [hcells, if_pos rfl], hshows.symbol, hshows.depth, ?_, rfl, ?_⟩
      · rw [hhandles]
        exact hshows.parent
      · intro c
        rw [hhandles]
        exact hshows.children c
    · obtain ⟨n', hn', hshows'⟩ := h.cell hm
      have hne : m.1 ≠ g := fun heq => hk (h.rooted.distinct hm hg heq)
      exact ⟨n', by rw [hcells, if_neg hne, hn'], hshows'.congr (fun _ => hhandles _) fun c => hhandles _⟩
  · intro k n' hk
    rw [hcells] at hk
    split_ifs at hk with hkg
    · exact ⟨key, w, by rw [View.set_self, hkg]⟩
    · obtain ⟨k', v', hk'⟩ := h.live hk
      refine ⟨k', v', View.set_eq_some_iff.mpr (Or.inr ⟨?_, hk'⟩)⟩
      intro heq
      rw [heq, hg] at hk'
      cases hk'
      exact hkg rfl

/-! ## A node less -/

/-- a node without children stands nowhere any more, and nothing else changes -/
theorem Stores.drop (h : a.Stores V) {key : List Char} {c : Char} {p m : Handle × Option α} (hp : V key = some p)
    (hm : V (key ++ [c]) = some m) (hleaf : ∀ d, V (key ++ [c] ++ [d]) = none) :
    (a.drop m.1 p.1 c).Stores (V.set (key ++ [c]) none) := by
  obtain ⟨n, hn, hshows⟩ := h.cell hp
  have hpm : p.1 ≠ m.1 := by
    intro heq
    have hkeys := h.rooted.distinct hp hm heq
    simp at hkeys
  have hcells : ∀ k, (a.drop m.1 p.1 c).cells[k]? =
      if k = p.1 then some { n with children := n.children.erase c }
      else if k = m.1 then none else a.cells[k]? := by
    intro k
    have herase : ∀ g, (a.cells.erase m.1)[g]? = if g = m.1 then none else a.cells[g]? := by
      intro g
      rw [Std.ExtTreeMap.getElem?_erase]
      simp only [Std.LawfulEqOrd.compare_eq_iff_eq, @eq_comm _ m.1]
    rw [Arena.drop, getElem?_modify_eq, herase, herase, if_neg hpm, hn]
    rfl
  have hkept : ∀ {k q}, V k = some q → q.1 ≠ m.1 → V.set (key ++ [c]) none k = some q := by
    intro k q hq hne
    refine View.set_eq_some_iff.mpr (Or.inr ⟨?_, hq⟩)
    intro hk
    rw [hk, hm] at hq
    cases hq
    exact hne rfl
  refine ⟨h.rooted.drop (by simp) hleaf, ?_, ?_⟩
  · intro k q hset
    rcases View.set_eq_some_iff.mp hset with ⟨-, hq⟩ | ⟨hk, hq⟩
    · cases hq
    · obtain ⟨n', hn', hshows'⟩ := h.cell hq
      have hqm : q.1 ≠ m.1 := fun heq => hk (h.rooted.distinct hq hm heq)
      have hparent : k ≠ [] → (V.set (key ++ [c]) none k.dropLast).map Prod.fst = (V k.dropLast).map Prod.fst := by
        intro hne
        rw [View.set_of_ne]
        intro heq
        rw [← List.dropLast_concat_getLast hne, heq, hleaf] at hq
        cases hq
      by_cases hqp : q.1 = p.1
      · -- the parent has a child less
        obtain rfl := h.rooted.distinct hq hp hqp
        rw [hp] at hq
        cases hq
        refine ⟨{ n with children := n.children.erase c }, by rw [hcells, if_pos rfl], hshows.symbol, hshows.depth, ?_,
          hshows.value, ?_⟩
        · rw [hshows.parent]
          split_ifs with hempty
          · rfl
          · exact (hparent hempty).symm
        · intro d
          simp only [Std.ExtTreeMap.getElem?_erase, Std.LawfulEqOrd.compare_eq_iff_eq]
          by_cases hcd : c = d
          · rw [if_pos hcd, hcd, View.set_self]
            rfl
          · rw [if_neg hcd, hshows.children, View.set_of_ne (by simpa using Ne.symm hcd)]
      · refine ⟨n', by rw [hcells, if_neg hqp, if_neg hqm, hn'], hshows'.congr hparent ?_⟩
        intro d
        rw [View.set_of_ne]
        intro heq
        obtain ⟨rfl, -⟩ := List.append_inj' heq rfl
        rw [hp] at hq
        cases hq
        exact hqp rfl
  · intro g n' hg
    rw [hcells] at hg
    split_ifs at hg with hgp hgm
    · exact ⟨key, p.2, by rw [hkept hp hpm, hgp]⟩
    · obtain ⟨k, v, hk⟩ := h.live hg
      exact ⟨k, v, hkept hk hgm⟩

/-! ## Calls by handle -/

theorem Stores.insertChild_of_some (h : a.Stores V) {key : List Char} {c : Char} {p m : Handle × Option α}
    (hp : V key = some p) (hm : V (key ++ [c]) = some m) : a.insertChild p.1 c = (.ok m.1, a) := by
  obtain ⟨n, hn, hshows⟩ := h.cell hp
  have hchild : n.children[c]? = some m.1 := by rw [hshows.children, hm]; rfl
  simp only [insertChild, hn, hchild]

theorem Stores.insertChild_of_none (h : a.Stores V) {key : List Char} {c : Char} {p : Handle × Option α}
    (hp : V key = some p) (hnone : V (key ++ [c]) = none) :
    a.insertChild p.1 c = (.ok a.next, a.make p.1 c (key.length + 1)) := by
  obtain ⟨n, hn, hshows⟩ := h.cell hp
  have hchild : n.children[c]? = none := by rw [hshows.children, hnone]; rfl
  simp only [insertChild, hn, hchild, hshows.depth]

theorem Stores.ne_root (h : a.Stores V) {key : List Char} (hkey : key ≠ []) {m : Handle × Option α}
    (hm : V key = some m) : m.1 ≠ a.root := by
  intro heq
  exact hkey (h.rooted.distinct hm h.rooted.root heq)

theorem Stores.setValue (h : a.Stores V) {key : List Char} (hkey : key ≠ []) {g : Handle} {v : Option α}
    (hg : V key = some (g, v)) (value : α) :
    a.setValue g value = (.ok v, a.write g (some value) (if v.isSome then a.size else a.size + 1)) := by
  obtain ⟨n, hn, hshows⟩ := h.cell hg
  have hroot : g ≠ a.root := h.ne_root hkey hg
  have hcell : a.cells[g]? = some n := hn
  simp only [Arena.setValue, if_neg hroot, hcell, hshows.value]

end Arena

/-! ## Ways -/

namespace Arena

variable {a : Arena α} {V V' : View α}

/-- on the way along a key an arena makes the nodes that are missing, one after the other -/
theorem Stores.insertWay {next known : Nat} {key : List Char}
    (hknown : V.Known key known) {before cs : List Char}
    (hkey : before ++ cs = key) (h : a.Stores (V.grow next known key before.length))
    (hnext : a.next = next + (before.length - known)) {p : Handle × Option α}
    (hp : V.grow next known key before.length before = some p) :
    ∃ g a' v, a.insertWay p.1 cs = (.ok g, a') ∧ a'.Stores (V.grow next known key key.length) ∧
      a'.next = next + (key.length - known) ∧ a'.size = a.size ∧
      V.grow next known key key.length key = some (g, v) := by
  induction cs generalizing a before p with
  | nil =>
    rw [List.append_nil] at hkey
    subst hkey
    exact ⟨p.1, a, p.2, rfl, h, hnext, rfl, hp⟩
  | cons c cs ih =>
    have hlength : (before ++ [c]).length = before.length + 1 := by simp
    have hway : before ++ [c] <+: key := ⟨cs, by rw [← hkey]; simp⟩
    have hsplit : before ++ [c] ++ cs = key := by rw [← hkey]; simp
    have hat : V.grow next known key before.length (before ++ [c]) = V (before ++ [c]) := by
      apply View.grow_of_not
      intro hk
      omega
    have hthere := hknown (before ++ [c]) hway
    rw [hlength] at hthere
    by_cases hle : before.length + 1 ≤ known
    · obtain ⟨m, hm⟩ := Option.isSome_iff_exists.mp (hthere.mpr hle)
      have hsame : V.grow next known key (before.length + 1) = V.grow next known key before.length := by
        rw [View.grow_of_le hle, View.grow_of_le (Nat.le_of_succ_le hle)]
      have hnext' : a.next = next + ((before ++ [c]).length - known) := by
        have hmissing : before.length + 1 - known = before.length - known := by omega
        rw [hlength, hnext, hmissing]
      rw [Arena.insertWay, h.insertChild_of_some hp (hat.trans hm)]
      refine ih hsplit ?_ hnext' ?_
      · rw [hlength, hsame]
        exact h
      · rw [hlength, hsame, hat, hm]
    · have hnone : V (before ++ [c]) = none := by
        rw [← Option.not_isSome_iff_eq_none, hthere]
        exact hle
      have hgrow : V.grow next known key (before.length + 1) = _ :=
        View.grow_succ (Nat.le_of_not_lt hle) hway hlength
      rw [← hnext] at hgrow
      have hnext' : (a.make p.1 c (before.length + 1)).next = next + ((before ++ [c]).length - known) := by
        have hmissing : before.length + 1 - known = before.length - known + 1 := by omega
        show a.next + 1 = _
        rw [hlength, hnext, hmissing]
        rfl
      have hstores : (a.make p.1 c (before.length + 1)).Stores (V.grow next known key (before ++ [c]).length) := by
        rw [hlength, hgrow]
        exact h.make hp (hat.trans hnone)
      have hmade : V.grow next known key (before ++ [c]).length (before ++ [c]) = some (a.next, none) := by
        rw [hlength, hgrow, View.set_self]
      rw [Arena.insertWay, h.insertChild_of_none hp (hat.trans hnone)]
      exact ih hsplit hstores hnext' hmade

/-- pruning takes nodes away and changes nothing else -/
theorem prune_fields (a : Arena α) (h : Handle) :
    (a.prune h).next = a.next ∧ (a.prune h).root = a.root ∧ (a.prune h).size = a.size := by
  fun_induction prune a h with
  | case1 => exact ⟨rfl, rfl, rfl⟩
  | case2 => exact ⟨rfl, rfl, rfl⟩
  | case3 => exact ⟨rfl, rfl, rfl⟩
  | case4 a h hroot n hn hidle parent symbol hparent hsymbol ih => exact ih
  | case5 => exact ⟨rfl, rfl, rfl⟩

theorem prune_of_used {h : Handle} {n : Cell α} (hn : a.cells[h]? = some n)
    (hused : (n.value.isSome || !n.children.isEmpty) = true) : a.prune h = a := by
  rw [Arena.prune]
  split_ifs with hroot
  · rfl
  · split
    case h_1 => rfl
    case h_2 n' hn' =>
      rw [hn] at hn'
      cases hn'
      rw [if_pos hused]

theorem prune_of_idle {h p : Handle} {c : Char} {n : Cell α} (hroot : h ≠ a.root) (hn : a.cells[h]? = some n)
    (hidle : ¬(n.value.isSome || !n.children.isEmpty) = true) (hparent : n.parent = some p) (hsymbol : n.symbol = some c) :
    a.prune h = (a.drop h p c).prune p := by
  rw [Arena.prune, if_neg hroot]
  split
  case h_1 hnone =>
    rw [hn] at hnone
    cases hnone
  case h_2 n' hn' =>
    rw [hn] at hn'
    cases hn'
    rw [if_neg hidle, hparent, hsymbol]

theorem children_isEmpty_iff {n : Cell α} {key : List Char} {v : Option α} (h : n.Shows V key v) :
    n.children.isEmpty = true ↔ ∀ c, V (key ++ [c]) = none := by
  rw [Std.ExtTreeMap.isEmpty_iff]
  refine ⟨?_, ?_⟩
  · intro hempty c
    have hchild := h.children c
    rw [hempty] at hchild
    simpa using hchild.symm
  · intro hnone
    apply Std.ExtTreeMap.ext_getElem?
    intro c
    rw [h.children, hnone c]
    simp

/-- an arena that is pruned stores the view that is pruned -/
theorem Stores.prune (h : a.Stores V) {key : List Char} (hprunes : V.Prunes key V') {m : Handle × Option α}
    (hm : V key = some m) : (a.prune m.1).Stores V' := by
  induction hprunes generalizing a m with
  | root V =>
    rw [h.rooted.root] at hm
    cases hm
    rw [Arena.prune, if_pos rfl]
    exact h
  | @stop V key m' hm' hused =>
    rw [hm'] at hm
    cases hm
    obtain ⟨n, hn, hshows⟩ := h.cell hm'
    have hcell : (n.value.isSome || !n.children.isEmpty) = true := by
      rw [Bool.or_eq_true, Bool.not_eq_true', Bool.eq_false_iff, ne_eq, children_isEmpty_iff hshows, hshows.value]
      rcases hused with hvalue | ⟨c, hc⟩
      · exact Or.inl (Option.isSome_iff_ne_none.mpr hvalue)
      · exact Or.inr fun hnone => hc (hnone c)
    rw [prune_of_used hn hcell]
    exact h
  | @drop V V' key c g hg hleaf _ ih =>
    rw [hg] at hm
    cases hm
    obtain ⟨n, hn, hshows⟩ := h.cell hg
    obtain ⟨p, hp, -⟩ := h.rooted.parent hg
    have hidle : ¬(n.value.isSome || !n.children.isEmpty) = true := by
      rw [hshows.value, (children_isEmpty_iff hshows).mpr hleaf]
      exact Bool.false_ne_true
    obtain ⟨hparent, hsymbol, -⟩ := hshows.of_concat hp
    have hkept : V.set (key ++ [c]) none key = some p := by rw [View.set_of_ne (by simp), hp]
    rw [prune_of_idle (h.ne_root (by simp) hg) hn hidle hparent hsymbol]
    exact ih (h.drop hp hg hleaf) hkept

end Arena

end ClauseFold
