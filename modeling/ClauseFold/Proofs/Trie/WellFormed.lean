/-
A trie seen downwards and upwards. Downwards the forest shows for each way a handle and a value; upwards the origins say
of each handle of which node and under which symbol it was made. In a well-formed trie the two agree, and so a handle
leads to its node and to its key.

Results:
- `WellFormed.insert`: changes keep a trie well formed;
- `path_of_view?`, `at?_of_node?`: the handle of the node at a key leads back to the key and to the node;
- `put_eq`, `insertChild_spec`, `setValue_spec`: what the operations do to the view;
- `entries_ext`: tries that hold the same values list them in the same way.
-/
import ClauseFold.Recognizer.Basic
import ClauseFold.Proofs.Trie.View

namespace ClauseFold

/-! ## Origins -/

/-- origins are only ever added -/
def Origin.Extends (before after : Array Origin) : Prop := ∀ (h : Handle) o, before[h]? = some o → after[h]? = some o

theorem Origin.extends_push (origins : Array Origin) (o : Origin) : Extends origins (origins.push o) := by
  intro h x hx
  obtain ⟨hlt, -⟩ := Array.getElem?_eq_some_iff.mp hx
  rw [Array.getElem?_push_lt hlt, ← Array.getElem?_eq_getElem hlt, hx]

namespace Trie

variable {α : Type}

theorem extends_originsOfBranch (origins : Array Origin) (parent : Handle) (depth : Nat) (cs : List Char) :
    Origin.Extends origins (originsOfBranch origins parent depth cs) := by
  induction cs generalizing origins parent depth with
  | nil => exact fun _ _ h => h
  | cons c cs ih => exact fun h o ho => ih _ _ _ h o (Origin.extends_push origins _ h o ho)

/-- the depth that the origins note for a handle -/
def depthIn (origins : Array Origin) (h : Handle) : Nat :=
  match origins[h]? with
  | some o => o.depth
  | none => 0

theorem pathFrom_root {origins : Array Origin} {h : Handle} (ho : origins[h]? = some .root) :
    pathFrom origins h = [] := by
  rw [pathFrom, ho]

theorem pathFrom_child {origins : Array Origin} {h parent : Handle} {c : Char} {depth : Nat}
    (ho : origins[h]? = some (.child parent c depth)) (hlt : parent < h) :
    pathFrom origins h = c :: pathFrom origins parent := by
  rw [pathFrom, ho]
  exact if_pos hlt

end Trie

namespace Forest

variable {α : Type}

/-- the origins know each node as the forest below `parent` shows it -/
def Recorded (origins : Array Origin) (parent : Handle) (depth : Nat) : Forest α → Prop
  | nil => True
  | node c h _ ch sib =>
    origins[h]? = some (.child parent c (depth + 1)) ∧ parent < h ∧ ch.Recorded origins h (depth + 1) ∧
      sib.Recorded origins parent depth

theorem Recorded.mono {before after : Array Origin} (hext : Origin.Extends before after) {f : Forest α}
    {parent : Handle} {depth : Nat} (h : f.Recorded before parent depth) : f.Recorded after parent depth := by
  induction f generalizing parent depth with
  | nil => trivial
  | node c hd v ch sib ihc ihs =>
    obtain ⟨horigin, hlt, hch, hsib⟩ := h
    exact ⟨hext _ _ horigin, hlt, ihc hch, ihs hsib⟩

theorem recorded_branch (value : Option α) (c : Char) (cs : List Char) {origins : Array Origin} {parent : Handle}
    {depth : Nat} {sib : Forest α} (hparent : parent < origins.size) (h : sib.Recorded origins parent depth) :
    (branch value origins.size c cs sib).Recorded (Trie.originsOfBranch origins parent depth (c :: cs)) parent
      depth := by
  induction cs generalizing origins parent depth c sib with
  | nil =>
    exact ⟨Array.getElem?_push_size, hparent, trivial, h.mono (Origin.extends_push origins _)⟩
  | cons d ds ih =>
    have hpush := Origin.extends_push origins (.child parent c (depth + 1))
    have hrest := Trie.extends_originsOfBranch (origins.push (.child parent c (depth + 1))) origins.size (depth + 1)
      (d :: ds)
    have hnew : (nil : Forest α).Recorded (origins.push (.child parent c (depth + 1))) origins.size (depth + 1) :=
      trivial
    have hbelow := ih d (by rw [Array.size_push]; exact Nat.lt_succ_self _) hnew
    rw [Array.size_push] at hbelow
    exact ⟨hrest _ _ Array.getElem?_push_size, hparent, hbelow, (h.mono hpush).mono hrest⟩

theorem reach_of_above {c : Char} {f : Forest α} (h : f.Above c) (here : Handle) (cs : List Char) :
    f.reach here (c :: cs) = (here, c :: cs) := by
  induction f with
  | nil => rfl
  | node d _ v ch sib _ ihs => rw [reach, if_neg (Char.ne_of_lt h.1), ihs h.2]

/-- what is made at a change is recorded when its origins have been added -/
theorem recorded_insert (update : Option α → Option α) (key : List Char) {origins : Array Origin} {parent : Handle}
    {depth : Nat} {f : Forest α} (hf : f.Sorted) (hparent : parent < origins.size)
    (hdepth : Trie.depthIn origins parent = depth) (h : f.Recorded origins parent depth) :
    (f.insert update origins.size key).Recorded
      (Trie.originsOfBranch origins (f.reach parent key).1 (Trie.depthIn origins (f.reach parent key).1)
        (f.reach parent key).2) parent depth := by
  induction f generalizing key parent depth with
  | nil =>
    cases key with
    | nil => trivial
    | cons c cs =>
      rw [insert, reach, hdepth]
      · exact recorded_branch _ _ _ hparent trivial
      · simp
  | node d hd v ch sib ihc ihs =>
    obtain ⟨habove, hsch, hssib⟩ := hf
    obtain ⟨horigin, hlt, hch, hsib⟩ := h
    cases key with
    | nil => exact ⟨horigin, hlt, hch, hsib⟩
    | cons c cs =>
      rw [insert, reach]
      by_cases hcd : c = d
      · rw [if_pos hcd, if_pos hcd]
        have hsize : hd < origins.size := (Array.getElem?_eq_some_iff.mp horigin).1
        have hdepthd : Trie.depthIn origins hd = depth + 1 := by unfold Trie.depthIn; rw [horigin]; rfl
        have hext := Trie.extends_originsOfBranch origins (ch.reach hd cs).1
          (Trie.depthIn origins (ch.reach hd cs).1) (ch.reach hd cs).2
        exact ⟨hext _ _ horigin, hlt, ihc cs hsch hsize hdepthd hch, hsib.mono hext⟩
      · rw [if_neg hcd, if_neg hcd]
        by_cases hltcd : c < d
        · rw [if_pos hltcd, reach_of_above (habove.of_lt hltcd), hdepth]
          exact recorded_branch _ _ _ hparent ⟨horigin, hlt, hch, hsib⟩
        · rw [if_neg hltcd]
          have hext := Trie.extends_originsOfBranch origins (sib.reach parent (c :: cs)).1
            (Trie.depthIn origins (sib.reach parent (c :: cs)).1) (sib.reach parent (c :: cs)).2
          exact ⟨hext _ _ horigin, hlt, hch.mono hext, ihs (c :: cs) hssib hparent hdepth hsib⟩

/-- the way up from a node is the way down to it -/
theorem pathFrom_of_view? {origins : Array Origin} {parent : Handle} {depth : Nat} {f : Forest α}
    (h : f.Recorded origins parent depth) {key : List Char} {n : Handle × Option α} (hn : f.view? key = some n) :
    Trie.pathFrom origins n.1 = key.reverse ++ Trie.pathFrom origins parent ∧ parent < n.1 ∧ n.1 < origins.size := by
  induction f generalizing key parent depth with
  | nil => rw [view?_nil] at hn; cases hn
  | node d hd v ch sib ihc ihs =>
    obtain ⟨horigin, hlt, hch, hsib⟩ := h
    cases key with
    | nil => cases hn
    | cons c cs =>
      rw [view?_node] at hn
      split_ifs at hn with hcd hcs
      · cases hn
        have hsize : hd < origins.size := (Array.getElem?_eq_some_iff.mp horigin).1
        refine ⟨?_, hlt, hsize⟩
        rw [Trie.pathFrom_child horigin hlt, hcd, hcs]
        rfl
      · obtain ⟨hpath, hhd, hsize⟩ := ihc hch hn
        refine ⟨?_, Nat.lt_trans hlt hhd, hsize⟩
        rw [hpath, Trie.pathFrom_child horigin hlt, hcd]
        simp
      · exact ihs hsib hn

end Forest

namespace Trie

variable {α : Type}

/-! ## Well-formed tries -/

/-- children are in order, and the origins know the root and all nodes below it -/
structure WellFormed (t : Trie α) : Prop where
  sorted : t.forest.Sorted
  root : t.origins[t.root]? = some .root
  recorded : t.forest.Recorded t.origins t.root 0

/-- the handle and the value of the node at a key -/
def view? (t : Trie α) (key : List Char) : Option (Handle × Option α) := (t.node? key).map fun n => (n.handle, n.value)

theorem node?_eq_find? (t : Trie α) {key : List Char} (hkey : key ≠ []) : t.node? key = t.forest.find? key := by
  cases key with
  | nil => exact absurd rfl hkey
  | cons c cs => rfl

theorem view?_eq (t : Trie α) {key : List Char} (hkey : key ≠ []) : t.view? key = t.forest.view? key := by
  unfold view? Forest.view?
  rw [node?_eq_find? t hkey]

@[simp] theorem view?_root (t : Trie α) : t.view? [] = some (t.root, none) := rfl

theorem get?_eq_view? (t : Trie α) (key : List Char) : t.get? key = (t.view? key).bind Prod.snd := by
  unfold get? view?
  cases t.node? key <;> rfl

theorem get?_eq_value? (t : Trie α) (key : List Char) : t.get? key = t.forest.value? key := by
  cases key with
  | nil => rfl
  | cons c cs => rw [get?_eq_view?, view?_eq t (List.cons_ne_nil c cs), Forest.value?_eq_view?]

theorem wellFormed_empty : (empty : Trie α).WellFormed := ⟨trivial, rfl, trivial⟩

variable {t : Trie α}

theorem WellFormed.root_lt (h : t.WellFormed) : t.root < t.origins.size := (Array.getElem?_eq_some_iff.mp h.root).1

theorem WellFormed.insert (h : t.WellFormed) (update : Option α → Option α) (key : List Char) :
    (t.insert update key).WellFormed := by
  have hdepth : depthIn t.origins t.root = 0 := by unfold depthIn; rw [h.root]; rfl
  refine ⟨Forest.sorted_insert _ _ _ h.sorted, ?_, ?_⟩
  · exact extends_originsOfBranch _ _ _ _ _ _ h.root
  · exact Forest.recorded_insert update key h.sorted h.root_lt hdepth h.recorded

theorem WellFormed.store (h : t.WellFormed) (key : List Char) (value : α) (previous : Option α) :
    (t.store key value previous).WellFormed := by
  obtain ⟨hsorted, hroot, hrecorded⟩ := h.insert (fun _ => some value) key
  exact ⟨hsorted, hroot, hrecorded⟩

/-- the handle of the node at a key leads back to the key -/
theorem path_of_view? (h : t.WellFormed) {key : List Char} {n : Handle × Option α} (hn : t.view? key = some n) :
    t.path n.1 = key.reverse := by
  cases key with
  | nil => rw [view?_root, Option.some.injEq] at hn; rw [← hn]; exact pathFrom_root h.root
  | cons c cs =>
    rw [view?_eq t (List.cons_ne_nil c cs)] at hn
    have hpath := (Forest.pathFrom_of_view? h.recorded hn).1
    rw [pathFrom_root h.root, List.append_nil] at hpath
    exact hpath

theorem handle_lt (h : t.WellFormed) {key : List Char} {n : Handle × Option α} (hn : t.view? key = some n) :
    n.1 < t.origins.size := by
  cases key with
  | nil => rw [view?_root, Option.some.injEq] at hn; rw [← hn]; exact h.root_lt
  | cons c cs =>
    rw [view?_eq t (List.cons_ne_nil c cs)] at hn
    exact (Forest.pathFrom_of_view? h.recorded hn).2.2

/-- different keys have nodes of different handles -/
theorem key_eq_of_view? (h : t.WellFormed) {key key' : List Char} {n n' : Handle × Option α}
    (hn : t.view? key = some n) (hn' : t.view? key' = some n') (heq : n.1 = n'.1) : key = key' := by
  have hpath := path_of_view? h hn
  rw [heq, path_of_view? h hn'] at hpath
  exact (List.reverse_inj.mp hpath).symm

theorem view?_of_node? {key : List Char} {n : Node α} (hn : t.node? key = some n) :
    t.view? key = some (n.handle, n.value) := by
  unfold view?
  rw [hn]
  rfl

theorem node?_of_view? {key : List Char} {n : Handle × Option α} (hn : t.view? key = some n) :
    ∃ m, t.node? key = some m ∧ m.handle = n.1 ∧ m.value = n.2 := by
  unfold view? at hn
  obtain ⟨m, hm, rfl⟩ := Option.map_eq_some_iff.mp hn
  exact ⟨m, hm, rfl, rfl⟩

/-- the handle of the node at a key leads back to the node -/
theorem at?_of_node? (h : t.WellFormed) {key : List Char} {n : Node α} (hn : t.node? key = some n) :
    t.at? n.handle = some n := by
  unfold at?
  rw [path_of_view? h (view?_of_node? hn), List.reverse_reverse, hn]
  simp [Option.filter]

theorem keyOf?_of_view? (h : t.WellFormed) {key : List Char} {n : Handle × Option α} (hn : t.view? key = some n) :
    t.keyOf? n.1 = some key := by
  obtain ⟨m, hm, hhandle, -⟩ := node?_of_view? hn
  unfold keyOf?
  rw [path_of_view? h hn, ← hhandle, at?_of_node? h hm, List.reverse_reverse]
  rfl

theorem node?_append_symbol {key : List Char} {n : Node α} (hn : t.node? key = some n) (c : Char) :
    t.node? (key ++ [c]) = n.child? c := by
  unfold node? at hn ⊢
  rw [Node.descend?_append, hn, Option.bind_some, Node.descend?]
  cases n.child? c <;> rfl

/-- the way along a key is there for as many symbols as are known -/
theorem isSome_view?_iff (t : Trie α) {key k : List Char} (hk : k <+: key) :
    (t.view? k).isSome = true ↔ k.length ≤ t.forest.known key := by
  obtain ⟨rest, rfl⟩ := hk
  cases k with
  | nil => simp
  | cons c cs =>
    have hne : c :: cs ≠ [] := List.cons_ne_nil c cs
    rw [view?_eq t hne]
    exact Forest.isSome_view?_iff hne rest

theorem isSome_view?_of_append {key rest : List Char} (h : (t.view? (key ++ rest)).isSome = true) :
    (t.view? key).isSome = true := by
  rw [isSome_view?_iff t (List.prefix_append key rest)]
  have hall := (isSome_view?_iff t (List.prefix_refl (key ++ rest))).mp h
  rw [List.length_append] at hall
  exact Nat.le_of_add_right_le hall

/-- a way that ends one symbol before the end of a key -/
theorem known_of_view? {key : List Char} {c : Char} (hway : (t.view? key).isSome = true)
    (hnone : t.view? (key ++ [c]) = none) : t.forest.known (key ++ [c]) = key.length := by
  have hle := (isSome_view?_iff t (List.prefix_append key [c])).mp hway
  have hlt := mt (isSome_view?_iff t (List.prefix_refl (key ++ [c]))).mpr (by rw [hnone]; simp)
  rw [List.length_append, List.length_singleton] at hlt
  omega

/-! ## Operations -/

/-- a change keeps all handles, and the values at other keys -/
theorem view?_insert_of_some (h : t.WellFormed) (update : Option α → Option α) {key k : List Char} (hkey : key ≠ [])
    {n : Handle × Option α} (hn : t.view? k = some n) :
    (t.insert update key).view? k = some (n.1, if k = key then update n.2 else n.2) := by
  cases k with
  | nil =>
    rw [if_neg (Ne.symm hkey), view?_root]
    rw [view?_root] at hn
    exact hn
  | cons c cs =>
    have hk : c :: cs ≠ [] := List.cons_ne_nil c cs
    rw [view?_eq t hk] at hn
    rw [view?_eq _ hk, insert]
    by_cases hpre : c :: cs <+: key
    · obtain ⟨rest, rfl⟩ := hpre
      rw [Forest.view?_insert_append update t.origins.size hk rest h.sorted, hn]
      have hrest : c :: cs = c :: cs ++ rest ↔ rest = [] := List.self_eq_append_right
      simp only [hrest]
    · have hne : c :: cs ≠ key := by
        intro heq
        exact hpre (heq ▸ List.prefix_refl _)
      rw [Forest.view?_insert_elsewhere update _ hpre h.sorted, hn, if_neg hne]

/-- where the way to a key is there, a change at the key does nothing elsewhere -/
theorem view?_insert_of_ne (h : t.WellFormed) (update : Option α → Option α) {key k : List Char} {c : Char}
    (hway : (t.view? key).isSome = true) (hk : k ≠ key ++ [c]) : (t.insert update (key ++ [c])).view? k = t.view? k := by
  by_cases hpre : k <+: key
  · obtain ⟨rest, rfl⟩ := hpre
    obtain ⟨n, hn⟩ := Option.isSome_iff_exists.mp (isSome_view?_of_append hway)
    rw [view?_insert_of_some h update (by simp) hn, if_neg hk, hn]
  · cases k with
    | nil => exact absurd List.nil_prefix hpre
    | cons d ds =>
      have hne : d :: ds ≠ [] := List.cons_ne_nil d ds
      have hnot : ¬d :: ds <+: key ++ [c] := by
        rw [List.prefix_concat_iff]
        intro hlonger
        rcases hlonger with heq | hp
        · exact hk heq
        · exact hpre hp
      rw [view?_eq _ hne, view?_eq _ hne, insert, Forest.view?_insert_elsewhere update _ hnot h.sorted]

theorem put_eq {key : List Char} (hkey : key ≠ []) (a : α) :
    t.put key a = .ok (t.get? key, t.store key a (t.get? key)) := by
  unfold put
  rw [if_neg (by simpa using hkey)]

theorem get?_store (h : t.WellFormed) {key : List Char} (hkey : key ≠ []) (a : α) (previous : Option α)
    (k : List Char) : (t.store key a previous).get? k = if k = key then some a else t.get? k := by
  rw [get?_eq_value?, get?_eq_value?]
  exact Forest.value?_insert _ _ hkey k h.sorted

/-- after a value was stored, there are the nodes of before and those on the way to it -/
theorem isSome_view?_store (h : t.WellFormed) (key : List Char) (a : α) (previous : Option α) (k : List Char) :
    ((t.store key a previous).view? k).isSome = true ↔ k <+: key ∨ (t.view? k).isSome = true := by
  cases k with
  | nil => simp
  | cons c cs =>
    have hk : c :: cs ≠ [] := List.cons_ne_nil c cs
    have hstore : (t.store key a previous).view? (c :: cs) =
        (t.forest.insert (fun _ => some a) t.origins.size key).view? (c :: cs) := view?_eq _ hk
    rw [hstore, view?_eq t hk]
    by_cases hway : c :: cs <+: key
    · obtain ⟨rest, rfl⟩ := hway
      rw [Forest.view?_insert_append _ _ hk rest h.sorted]
      simp
    · rw [Forest.view?_insert_elsewhere _ _ hway h.sorted]
      simp [hway]

/-- a node that is made at the end of a way that is there gets the next handle and no value -/
theorem view?_insert_id (h : t.WellFormed) {key : List Char} {c : Char} (hway : (t.view? key).isSome = true)
    (hnone : t.view? (key ++ [c]) = none) :
    (t.insert id (key ++ [c])).view? (key ++ [c]) = some (t.origins.size, none) := by
  have hne : key ++ [c] ≠ [] := by simp
  have hforest : t.forest.view? (key ++ [c]) = none := by rw [← view?_eq t hne, hnone]
  have hinsert := Forest.view?_insert_append id t.origins.size hne [] h.sorted
  rw [List.append_nil, hforest, known_of_view? hway hnone, List.length_append, List.length_singleton] at hinsert
  rw [view?_eq _ hne, insert, hinsert]
  simp

/-- `t'` is `t` with a child `child` under the symbol `c` of the node at `key`, be it made or there before -/
structure HasChild (t : Trie α) (key : List Char) (c : Char) (child : Handle) (t' : Trie α) : Prop where
  wellFormed : t'.WellFormed
  root : t'.root = t.root
  /-- a child that is made has a handle that was not given before -/
  handle : (t.view? (key ++ [c]) = none ∧ child = t.origins.size) ∨ ∃ m, t.view? (key ++ [c]) = some m ∧ m.1 = child
  view? : ∀ k, t'.view? k = if k = key ++ [c] then some (child, t.get? (key ++ [c])) else t.view? k

theorem HasChild.view?_child {key : List Char} {c : Char} {child : Handle} {t' : Trie α}
    (h : HasChild t key c child t') : t'.view? (key ++ [c]) = some (child, t.get? (key ++ [c])) := by
  rw [h.view?, if_pos rfl]

/-- nodes that were there stay as they are -/
theorem HasChild.view?_of_some {key : List Char} {c : Char} {child : Handle} {t' : Trie α}
    (h : HasChild t key c child t') {k : List Char} {n : Handle × Option α} (hn : t.view? k = some n) :
    t'.view? k = some n := by
  by_cases hk : k = key ++ [c]
  · rcases h.handle with ⟨hnone, -⟩ | ⟨m, hm, hchild⟩
    · rw [hk, hnone] at hn
      cases hn
    · rw [hk, hm] at hn
      cases hn
      rw [hk, h.view?_child, get?_eq_view?, hm, ← hchild]
      rfl
  · rw [h.view?, if_neg hk, hn]

/-- no value changes -/
theorem HasChild.get? {key : List Char} {c : Char} {child : Handle} {t' : Trie α} (h : HasChild t key c child t')
    (k : List Char) : t'.get? k = t.get? k := by
  rw [get?_eq_view? t', h.view?]
  by_cases hk : k = key ++ [c]
  · rw [if_pos hk, hk]
    rfl
  · rw [if_neg hk, ← get?_eq_view?]

theorem insertChild_spec (h : t.WellFormed) {key : List Char} {n : Handle × Option α} (hn : t.view? key = some n)
    (c : Char) : ∃ child t', t.insertChild n.1 c = .ok (child, t') ∧ HasChild t key c child t' := by
  obtain ⟨m, hm, hhandle, -⟩ := node?_of_view? hn
  have hat : t.at? n.1 = some m := hhandle ▸ at?_of_node? h hm
  have hchild := node?_append_symbol hm c
  unfold insertChild
  rw [hat]
  cases hc : m.child? c with
  | some child =>
    rw [hc] at hchild
    refine ⟨child.handle, t, by simp only [hc], h, rfl, Or.inr ⟨_, view?_of_node? hchild, rfl⟩, ?_⟩
    intro k
    by_cases hk : k = key ++ [c]
    · rw [if_pos hk, hk, view?_of_node? hchild, get?, hchild]
      rfl
    · rw [if_neg hk]
  | none =>
    rw [hc] at hchild
    have hnone : t.view? (key ++ [c]) = none := by
      unfold view?
      rw [hchild]
      rfl
    have hway : (t.view? key).isSome = true := by
      rw [hn]
      rfl
    refine ⟨t.origins.size, t.insert id (key ++ [c]), ?_, h.insert _ _, rfl, Or.inl ⟨hnone, rfl⟩, ?_⟩
    · simp only [hc, path_of_view? h hn, List.reverse_reverse]
    · intro k
      by_cases hk : k = key ++ [c]
      · rw [if_pos hk, hk, get?_eq_view?, hnone]
        exact view?_insert_id h hway hnone
      · rw [if_neg hk, view?_insert_of_ne h id hway hk]

/-- storing a value at a node changes nothing else -/
theorem setValue_spec (h : t.WellFormed) {key : List Char} {c : Char} {n : Handle × Option α}
    (hn : t.view? (key ++ [c]) = some n) (a : α) :
    ∃ t', t.setValue n.1 a = .ok (n.2, t') ∧ t'.WellFormed ∧ t'.root = t.root ∧
      ∀ k, t'.view? k = if k = key ++ [c] then some (n.1, some a) else t.view? k := by
  obtain ⟨m, hm, hhandle, hvalue⟩ := node?_of_view? hn
  have hat : t.at? n.1 = some m := hhandle ▸ at?_of_node? h hm
  have hroot : n.1 ≠ t.root := by
    intro heq
    have hempty := key_eq_of_view? h hn (view?_root t) heq
    exact absurd hempty (by simp)
  have hnode : (t.view? (key ++ [c])).isSome = true := by rw [hn]; rfl
  have hway : (t.view? key).isSome = true := isSome_view?_of_append hnode
  refine ⟨t.store (key ++ [c]) a n.2, ?_, h.store _ _ _, rfl, ?_⟩
  · unfold setValue
    simp only [if_neg hroot, hat, path_of_view? h hn, List.reverse_reverse, hvalue]
  · intro k
    have hstore : (t.store (key ++ [c]) a n.2).view? k = (t.insert (fun _ => some a) (key ++ [c])).view? k := rfl
    rw [hstore]
    by_cases hk : k = key ++ [c]
    · rw [if_pos hk, hk, view?_insert_of_some h _ (by simp) hn, if_pos rfl]
    · rw [if_neg hk, view?_insert_of_ne h _ hway hk]

/-! ## Entries -/

theorem mem_entries (h : t.WellFormed) (key : List Char) (a : α) : (key, a) ∈ t.entries ↔ t.get? key = some a := by
  rw [entries, Forest.mem_entriesFrom h.sorted, get?_eq_value?]
  simp

theorem ascending_entries (h : t.WellFormed) : Ascending t.entries := Forest.ascending_entriesFrom h.sorted []

/-- tries that hold the same values list them in the same way -/
theorem entries_ext {t' : Trie α} (h : t.WellFormed) (h' : t'.WellFormed) (hget : ∀ key, t.get? key = t'.get? key) :
    t.entries = t'.entries := by
  apply (ascending_entries h).ext (ascending_entries h')
  intro e
  rcases e with ⟨key, a⟩
  rw [mem_entries h, mem_entries h', hget]

end Trie

end ClauseFold
