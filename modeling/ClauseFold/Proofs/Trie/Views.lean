/-
Which node stands at each key. The operations of a trie come down to small changes of this view: nodes are made on the way
along a key, a value is written, and nodes that are of no more use are pruned from the end of a way up.

Results:
- `View.Rooted`: the nodes of a view hang together, and so they do after each small change;
- `View.grow`, `View.Prunes`: a way that is made, and one that is pruned;
- `Trie.view?_store`, `Trie.remove_prunes`: the operations of a trie in small changes.
-/
import ClauseFold.Proofs.Trie.Removal

namespace ClauseFold

variable {α : Type}

/-! ## Views -/

/-- which node stands at each key, and its value -/
abbrev View (α : Type) := List Char → Option (Handle × Option α)

namespace View

/-- a view with another node, or none, at one key -/
def set (V : View α) (key : List Char) (m : Option (Handle × Option α)) : View α := fun k => if k = key then m else V k

variable {V : View α}

@[simp] theorem set_self (key : List Char) (m : Option (Handle × Option α)) : V.set key m key = m := if_pos rfl

theorem set_of_ne {key k : List Char} (h : k ≠ key) (m : Option (Handle × Option α)) : V.set key m k = V k := if_neg h

/-- what stands in a view with another node at one key -/
theorem set_eq_some_iff {key k : List Char} {m : Option (Handle × Option α)} {n : Handle × Option α} :
    V.set key m k = some n ↔ (k = key ∧ m = some n) ∨ (k ≠ key ∧ V k = some n) := by
  by_cases hk : k = key
  · rw [hk, set_self]
    simp
  · rw [set_of_ne hk]
    simp [hk]

/-- a view of nodes that hang together: each has a parent that was there before it, and a handle of its own -/
structure Rooted (V : View α) (root next : Handle) : Prop where
  root : V [] = some (root, none)
  parent : ∀ {key : List Char} {c : Char} {m : Handle × Option α}, V (key ++ [c]) = some m →
    ∃ p, V key = some p ∧ p.1 < m.1
  distinct : ∀ {key key' : List Char} {m m' : Handle × Option α}, V key = some m → V key' = some m' → m.1 = m'.1 →
    key = key'
  next : ∀ {key : List Char} {m : Handle × Option α}, V key = some m → m.1 < next

variable {root next : Handle}

theorem Rooted.parent_of_ne_nil (h : V.Rooted root next) {key : List Char} (hkey : key ≠ []) {m : Handle × Option α}
    (hm : V key = some m) : ∃ p, V key.dropLast = some p ∧ p.1 < m.1 := by
  rw [← List.dropLast_concat_getLast hkey] at hm
  exact h.parent hm

/-- below a key with no node there is none -/
theorem Rooted.none_below (h : V.Rooted root next) {key : List Char} (hkey : V key = none) (c : Char) :
    V (key ++ [c]) = none := by
  cases hc : V (key ++ [c]) with
  | none => rfl
  | some m =>
    obtain ⟨p, hp, -⟩ := h.parent hc
    rw [hkey] at hp
    cases hp

/-- a new node with the next handle below a node -/
theorem Rooted.make (h : V.Rooted root next) {key : List Char} {p : Handle × Option α} (hp : V key = some p) {c : Char}
    (hnone : V (key ++ [c]) = none) : (V.set (key ++ [c]) (some (next, none))).Rooted root (next + 1) := by
  have hold : ∀ {k m}, V k = some m → V.set (key ++ [c]) (some (next, none)) k = some m := by
    intro k m hm
    rw [set_of_ne, hm]
    intro heq
    rw [heq, hnone] at hm
    cases hm
  constructor
  case root => exact hold h.root
  case parent =>
    intro k d m hset
    rcases set_eq_some_iff.mp hset with ⟨hk, hm⟩ | ⟨-, hm⟩
    · cases hm
      obtain ⟨rfl, -⟩ := List.append_inj' hk rfl
      exact ⟨p, hold hp, h.next hp⟩
    · obtain ⟨q, hq, hlt⟩ := h.parent hm
      exact ⟨q, hold hq, hlt⟩
  case distinct =>
    intro k k' m m' hset hset' heq
    rcases set_eq_some_iff.mp hset with ⟨hk, hm⟩ | ⟨-, hm⟩ <;>
      rcases set_eq_some_iff.mp hset' with ⟨hk', hm'⟩ | ⟨-, hm'⟩
    · rw [hk, hk']
    · cases hm
      exact absurd heq.symm (Nat.ne_of_lt (h.next hm'))
    · cases hm'
      exact absurd heq (Nat.ne_of_lt (h.next hm))
    · exact h.distinct hm hm' heq
  case next =>
    intro k m hset
    rcases set_eq_some_iff.mp hset with ⟨-, hm⟩ | ⟨-, hm⟩
    · cases hm
      exact Nat.lt_succ_self next
    · exact Nat.lt_succ_of_lt (h.next hm)

/-- a view with the same handles at the same keys, or fewer, with no node cut off from its parent -/
theorem Rooted.mono (h : V.Rooted root next) {W : View α} (hroot : W [] = some (root, none))
    (hold : ∀ {key m}, W key = some m → ∃ v, V key = some (m.1, v))
    (hparent : ∀ {key c m}, W (key ++ [c]) = some m → ∃ p, W key = some p) : W.Rooted root next := by
  refine ⟨hroot, ?_, ?_, ?_⟩
  · intro key c m hm
    obtain ⟨p, hp⟩ := hparent hm
    obtain ⟨v, hv⟩ := hold hm
    obtain ⟨w, hw⟩ := hold hp
    obtain ⟨q, hq, hlt⟩ := h.parent hv
    rw [hw] at hq
    cases hq
    exact ⟨p, hp, hlt⟩
  · intro key key' m m' hm hm' heq
    obtain ⟨v, hv⟩ := hold hm
    obtain ⟨v', hv'⟩ := hold hm'
    exact h.distinct hv hv' heq
  · intro key m hm
    obtain ⟨v, hv⟩ := hold hm
    have hlt : (m.1, v).1 < next := h.next hv
    exact hlt

/-- another value at a node below the root -/
theorem Rooted.write (h : V.Rooted root next) {key : List Char} (hkey : key ≠ []) {g : Handle} {v : Option α}
    (hg : V key = some (g, v)) (w : Option α) : (V.set key (some (g, w))).Rooted root next := by
  have hold : ∀ {k m}, V.set key (some (g, w)) k = some m → ∃ v, V k = some (m.1, v) := by
    intro k m hset
    rcases set_eq_some_iff.mp hset with ⟨hk, hm⟩ | ⟨-, hm⟩
    · cases hm
      exact ⟨v, by rw [hk, hg]⟩
    · exact ⟨m.2, hm⟩
  refine h.mono ?_ hold ?_
  · rw [set_of_ne (Ne.symm hkey), h.root]
  · intro k c m hset
    obtain ⟨v', hv'⟩ := hold hset
    obtain ⟨p, hp, -⟩ := h.parent hv'
    by_cases hk : k = key
    · exact ⟨_, set_eq_some_iff.mpr (Or.inl ⟨hk, rfl⟩)⟩
    · exact ⟨p, set_eq_some_iff.mpr (Or.inr ⟨hk, hp⟩)⟩

/-- no node at a key below which there is none -/
theorem Rooted.drop (h : V.Rooted root next) {key : List Char} (hkey : key ≠ []) (hleaf : ∀ c, V (key ++ [c]) = none) :
    (V.set key none).Rooted root next := by
  have hsome : ∀ {k m}, V.set key none k = some m → V k = some m := by
    intro k m hset
    rcases set_eq_some_iff.mp hset with ⟨-, hm⟩ | ⟨-, hm⟩
    · cases hm
    · exact hm
  refine h.mono ?_ (fun hset => ⟨_, hsome hset⟩) ?_
  · rw [set_of_ne (Ne.symm hkey), h.root]
  · intro k c m hset
    have hm := hsome hset
    obtain ⟨p, hp, -⟩ := h.parent hm
    refine ⟨p, set_eq_some_iff.mpr (Or.inr ⟨?_, hp⟩)⟩
    intro hk
    rw [hk, hleaf] at hm
    cases hm

end View

/-! ## A way that is made -/

namespace View

/-- of the way along a key the first `known` symbols are there, and no more -/
def Known (V : View α) (key : List Char) (known : Nat) : Prop :=
  ∀ k, k <+: key → ((V k).isSome = true ↔ k.length ≤ known)

/-- a view with the nodes that are missing on the way along a key, up to `count` symbols of it; the first `known` are there,
and handles are given from `next` on -/
def grow (V : View α) (next known : Nat) (key : List Char) (count : Nat) : View α := fun k =>
  if k <+: key ∧ known < k.length ∧ k.length ≤ count then some (next + (k.length - known - 1), none) else V k

variable {V : View α} {next known : Nat} {key : List Char}

theorem grow_of_not {k : List Char} {count : Nat} (h : ¬(k <+: key ∧ known < k.length ∧ k.length ≤ count)) :
    V.grow next known key count k = V k := if_neg h

/-- up to what is there already nothing is missing -/
theorem grow_of_le {count : Nat} (h : count ≤ known) : V.grow next known key count = V := by
  funext k
  apply grow_of_not
  intro hk
  omega

/-- one symbol more on the way is one node more -/
theorem grow_succ {count : Nat} (hcount : known ≤ count) {k : List Char} (hk : k <+: key) (hlength : k.length = count + 1) :
    V.grow next known key (count + 1) = (V.grow next known key count).set k (some (next + (count - known), none)) := by
  funext k'
  by_cases heq : k' = k
  · rw [heq, set_self, grow, if_pos ⟨hk, by omega, by omega⟩]
    congr 3
    omega
  · rw [set_of_ne heq]
    have hsame : (k' <+: key ∧ known < k'.length ∧ k'.length ≤ count + 1) ↔
        (k' <+: key ∧ known < k'.length ∧ k'.length ≤ count) := by
      refine ⟨?_, ?_⟩
      · intro hk'
        obtain ⟨hpre, hlt, hle⟩ := hk'
        refine ⟨hpre, hlt, Nat.le_of_lt_succ (Nat.lt_of_le_of_ne hle ?_)⟩
        intro hlength'
        exact heq ((List.prefix_of_prefix_length_le hpre hk (by omega)).eq_of_length (by omega))
      · intro hk'
        exact ⟨hk'.1, hk'.2.1, by omega⟩
    simp only [grow, hsame]

/-- on the way along the whole key a node is there, or is made -/
theorem grow_of_prefix (hknown : V.Known key known) {k : List Char} (hk : k <+: key) :
    V.grow next known key key.length k =
      some (match V k with
        | some m => m
        | none => (next + (k.length - known - 1), none)) := by
  have hthere := hknown k hk
  cases hV : V k with
  | some m =>
    rw [hV] at hthere
    rw [grow_of_not, hV]
    intro hmissing
    exact Nat.not_le_of_lt hmissing.2.1 (hthere.mp rfl)
  | none =>
    rw [hV] at hthere
    have hlt : known < k.length := by
      apply Nat.lt_of_not_le
      intro hle
      cases hthere.mpr hle
    rw [grow, if_pos ⟨hk, hlt, hk.length_le⟩]

/-- nodes that are made hold nothing -/
theorem value_grow (hknown : V.Known key known) (count : Nat) (k : List Char) :
    (V.grow next known key count k).bind Prod.snd = (V k).bind Prod.snd := by
  by_cases hk : k <+: key ∧ known < k.length ∧ k.length ≤ count
  · have hnone : V k = none := by
      rw [← Option.not_isSome_iff_eq_none, hknown k hk.1]
      exact Nat.not_le_of_lt hk.2.1
    rw [grow, if_pos hk, hnone]
    rfl
  · rw [grow_of_not hk]

end View

namespace Forest

theorem length_reach (f : Forest α) (here : Handle) (key : List Char) :
    (f.reach here key).2.length = key.length - f.known key := by
  induction f generalizing here key with
  | nil => cases key <;> simp [reach, known]
  | node d h v ch sib ihc ihs =>
    cases key with
    | nil => simp [reach, known]
    | cons c cs =>
      rw [reach, known]
      split_ifs
      · rw [ihc, List.length_cons, Nat.add_sub_add_right]
      · exact ihs here (c :: cs)

end Forest

namespace Trie

theorem size_originsOfBranch (origins : Array Origin) (parent : Handle) (depth : Nat) (cs : List Char) :
    (originsOfBranch origins parent depth cs).size = origins.size + cs.length := by
  induction cs generalizing origins parent depth with
  | nil => rfl
  | cons c cs ih =>
    rw [originsOfBranch, ih, Array.size_push, List.length_cons]
    omega

/-- a change makes as many handles as there are nodes missing on the way to its key -/
theorem size_origins_insert (t : Trie α) (update : Option α → Option α) (key : List Char) :
    (t.insert update key).origins.size = t.origins.size + (key.length - t.forest.known key) := by
  rw [insert, size_originsOfBranch, Forest.length_reach]

/-- the view of a trie with all nodes on the way along a key -/
def grown (t : Trie α) (key : List Char) : View α :=
  View.grow t.view? t.origins.size (t.forest.known key) key key.length

theorem known_view? (t : Trie α) (key : List Char) : View.Known t.view? key (t.forest.known key) :=
  fun _ hk => isSome_view?_iff t hk

/-- where all nodes on the way are there, none is missing -/
theorem grown_of_isSome {t : Trie α} {key : List Char} (hkey : (t.view? key).isSome = true) : t.grown key = t.view? :=
  View.grow_of_le ((isSome_view?_iff t (List.prefix_refl key)).mp hkey)

/-- to store a value at a key is to make the nodes that are missing on the way, and then to write the value -/
theorem view?_store {t : Trie α} (h : t.WellFormed) {key : List Char} (hkey : key ≠ []) (a : α) (previous : Option α)
    {m : Handle × Option α} (hm : t.grown key key = some m) :
    (t.store key a previous).view? = (t.grown key).set key (some (m.1, some a)) := by
  funext k
  cases k with
  | nil =>
    rw [View.set_of_ne (Ne.symm hkey), grown, View.grow_of_not (by simp)]
    rfl
  | cons c cs =>
    have hk : c :: cs ≠ [] := List.cons_ne_nil c cs
    have hstore : (t.store key a previous).view? (c :: cs) =
        (t.forest.insert (fun _ => some a) t.origins.size key).view? (c :: cs) := view?_eq _ hk
    rw [hstore]
    by_cases hway : c :: cs <+: key
    · have hprefix := hway
      obtain ⟨rest, hrest⟩ := hprefix
      have hend : rest = [] ↔ c :: cs = key := by
        rw [← hrest]
        exact List.self_eq_append_right.symm
      have hgrow : t.grown key (c :: cs) = _ := View.grow_of_prefix (known_view? t key) hway
      rw [← hrest, Forest.view?_insert_append _ _ hk rest h.sorted, hrest, ← view?_eq t hk]
      by_cases hkey : c :: cs = key
      · rw [hkey] at hgrow ⊢
        rw [hm, Option.some.injEq] at hgrow
        rw [View.set_self, hgrow]
        cases t.view? key <;> simp [hend.mpr hkey]
      · rw [View.set_of_ne hkey, hgrow]
        cases t.view? (c :: cs) <;> simp [mt hend.mp hkey]
    · have hne : c :: cs ≠ key := by
        intro heq
        exact hway (heq ▸ List.prefix_refl _)
      rw [Forest.view?_insert_elsewhere _ _ hway h.sorted, View.set_of_ne hne, grown,
        View.grow_of_not fun hk => hway hk.1, view?_eq t hk]

end Trie

/-! ## A way that is pruned -/

/-- what is left of a view when, from the node at a key up, nodes without a value and children go -/
inductive View.Prunes : View α → List Char → View α → Prop where
  | root (V : View α) : Prunes V [] V
  | stop {V : View α} {key : List Char} {m : Handle × Option α} (hm : V key = some m)
    (hused : m.2 ≠ none ∨ ∃ c, V (key ++ [c]) ≠ none) : Prunes V key V
  | drop {V V' : View α} {key : List Char} {c : Char} {g : Handle} (hg : V (key ++ [c]) = some (g, none))
    (hleaf : ∀ d, V (key ++ [c] ++ [d]) = none) (h : Prunes (V.set (key ++ [c]) none) key V') :
    Prunes V (key ++ [c]) V'

namespace View

/-- a view with another forest below one key -/
def graft (V : View α) (key : List Char) (f : Forest α) : View α := fun k =>
  if key <+: k ∧ k ≠ key then f.view? (k.drop key.length) else V k

variable {V V' : View α} {key : List Char}

theorem graft_append (V : View α) (key : List Char) (f : Forest α) (c : Char) (cs : List Char) :
    V.graft key f (key ++ c :: cs) = f.view? (c :: cs) := by
  rw [graft, if_pos ⟨List.prefix_append key _, by simp⟩, List.drop_left]

theorem graft_self (V : View α) (key : List Char) (f : Forest α) : V.graft key f key = V key := by
  rw [graft, if_neg (by simp)]

theorem graft_of_not {k : List Char} (h : ¬key <+: k) (f : Forest α) : V.graft key f k = V k := by
  rw [graft, if_neg fun hk => h hk.1]

/-- a node with a child stays, so that nothing above it goes -/
theorem Prunes.eq_of_child (h : V.Prunes key V') {c : Char} {m : Handle × Option α} (hm : V (key ++ [c]) = some m) :
    V' = V := by
  cases h with
  | root => rfl
  | stop => rfl
  | drop hg hleaf =>
    rw [hleaf] at hm
    cases hm

/-- to keep a node below a key only where it is of use is one step of pruning -/
theorem prunes_keep {c : Char} {g : Handle} {v : Option α} {ch : Forest α} (hg : V (key ++ [c]) = some (g, v))
    (hch : ∀ d ds, V (key ++ [c] ++ d :: ds) = ch.view? (d :: ds)) {W : View α}
    (hbelow : ∀ cs, W (key ++ [c] ++ cs) = (Forest.keep c g v ch .nil).view? (c :: cs))
    (helse : ∀ k, ¬key ++ [c] <+: k → W k = V k) (h : W.Prunes key V') : V.Prunes (key ++ [c]) V' := by
  by_cases hdropped : v = none ∧ ch = .nil
  · obtain ⟨rfl, rfl⟩ := hdropped
    have hleaf : ∀ d ds, V (key ++ [c] ++ d :: ds) = none := by
      intro d ds
      rw [hch, Forest.view?_nil]
    have hW : W = V.set (key ++ [c]) none := by
      funext k
      by_cases hk : key ++ [c] <+: k
      · obtain ⟨cs, rfl⟩ := hk
        have hnone : W (key ++ [c] ++ cs) = none := (hbelow cs).trans (Forest.view?_nil _)
        rw [hnone]
        cases cs with
        | nil => rw [List.append_nil, set_self]
        | cons d ds => rw [set_of_ne (by simp), hleaf]
      · rw [helse k hk, set_of_ne]
        intro heq
        exact hk (heq ▸ List.prefix_refl _)
    rw [hW] at h
    exact .drop hg (fun d => hleaf d []) h
  · have hkeep : Forest.keep c g v ch .nil = .node c g v ch .nil := by
      unfold Forest.keep
      split
      · exact absurd ⟨rfl, rfl⟩ hdropped
      · rfl
    have hW : W = V := by
      funext k
      by_cases hk : key ++ [c] <+: k
      · obtain ⟨cs, rfl⟩ := hk
        rw [hbelow, hkeep, Forest.view?_node, if_pos rfl]
        cases cs with
        | nil => rw [if_pos rfl, List.append_nil, hg]
        | cons d ds => rw [if_neg (List.cons_ne_nil d ds), hch]
      · exact helse k hk
    rw [hW] at h
    rw [h.eq_of_child hg]
    refine .stop hg ?_
    by_cases hv : v = none
    · cases ch with
      | nil => exact absurd ⟨hv, rfl⟩ hdropped
      | node d hd w ch sib =>
        refine Or.inr ⟨d, ?_⟩
        rw [hch, Forest.view?_first]
        exact Option.some_ne_none _
    · exact Or.inl hv

end View

namespace Forest

variable {f : Forest α}

/-- below its child an erased key changes that child, or drops it; beside it nothing changes -/
theorem view?_erase_of_child {c : Char} {h : Handle} {v : Option α} {ch : Forest α} (hf : f.Sorted)
    (hchild : f.child? c = some ⟨h, v, ch⟩) (cs : List Char) (d : Char) (ds : List Char) :
    (f.erase (c :: cs)).view? (d :: ds) =
      if d = c then (keep c h (if cs.isEmpty then none else v) (ch.erase cs) nil).view? (d :: ds)
      else f.view? (d :: ds) := by
  induction f with
  | nil => cases hchild
  | node e he ve che sib _ ihs =>
    obtain ⟨habove, -, hsib⟩ := hf
    rw [child?] at hchild
    rw [erase]
    by_cases hce : c = e
    · rw [if_pos hce] at hchild ⊢
      cases hchild
      subst hce
      unfold keep
      split
      case h_1 =>
        by_cases hdc : d = c
        · rw [if_pos hdc, hdc, view?_of_above habove, view?_nil]
        · rw [if_neg hdc, view?_node, if_neg hdc]
      case h_2 =>
        by_cases hdc : d = c
        · rw [if_pos hdc, view?_node, view?_node, if_pos hdc, if_pos hdc]
        · rw [if_neg hdc, view?_node, view?_node, if_neg hdc, if_neg hdc]
    · rw [if_neg hce] at hchild ⊢
      rw [view?_node, view?_node, ihs hsib hchild]
      by_cases hde : d = e
      · have hdc : d ≠ c := by
          rw [hde]
          exact Ne.symm hce
        rw [if_pos hde, if_neg hdc, if_pos hde]
      · rw [if_neg hde, if_neg hde]

variable {c : Char} {h : Handle} {v : Option α} {ch : Forest α}

theorem view?_of_child (hchild : f.child? c = some ⟨h, v, ch⟩) (cs : List Char) :
    f.view? (c :: cs) = if cs = [] then some (h, v) else ch.view? cs := by
  cases cs with
  | nil => simp [view?, find?, hchild, Node.descend?]
  | cons d ds => simp [view?, find?, hchild, Node.descend?, Node.child?]

theorem exists_child {cs : List Char} {m : Handle × Option α} (hm : f.view? (c :: cs) = some m) :
    ∃ h v ch, f.child? c = some ⟨h, v, ch⟩ := by
  obtain ⟨n, hn, -⟩ := Option.map_eq_some_iff.mp hm
  obtain ⟨k, hk, -⟩ := Option.bind_eq_some_iff.mp hn
  exact ⟨k.handle, k.value, k.children, hk⟩

theorem Sorted.of_child (hf : f.Sorted) (hchild : f.child? c = some ⟨h, v, ch⟩) : ch.Sorted := by
  induction f with
  | nil => cases hchild
  | node d _ _ che sib _ ihs =>
    rw [child?] at hchild
    split_ifs at hchild with hcd
    · cases hchild
      exact hf.2.1
    · exact ihs hf.2.2 hchild

/-- to erase a key is to take its value away and then to prune -/
theorem erase_prunes {cs : List Char} (hf : f.Sorted) {m : Handle × Option α} (hm : f.view? cs = some m)
    {V V' : View α} {key : List Char} (hV : ∀ d ds, V (key ++ d :: ds) = f.view? (d :: ds))
    (hprunes : (V.graft key (f.erase cs)).Prunes key V') :
    (V.set (key ++ cs) (some (m.1, none))).Prunes (key ++ cs) V' := by
  induction cs generalizing f key V with
  | nil => cases hm
  | cons c cs ih =>
    obtain ⟨h, v, ch, hchild⟩ := exists_child hm
    have hview := view?_of_child hchild
    have hbelow : ∀ ds, V.graft key (f.erase (c :: cs)) (key ++ [c] ++ ds) =
        (keep c h (if cs.isEmpty then none else v) (ch.erase cs) nil).view? (c :: ds) := by
      intro ds
      rw [List.append_assoc, List.singleton_append, View.graft_append, view?_erase_of_child hf hchild, if_pos rfl]
    have helse : ∀ k, ¬key ++ [c] <+: k → V.graft key (f.erase (c :: cs)) k = V k := by
      intro k hk
      by_cases hway : key <+: k
      · obtain ⟨rest, rfl⟩ := hway
        cases rest with
        | nil => rw [List.append_nil, View.graft_self]
        | cons d ds =>
          have hdc : d ≠ c := by
            intro hdc
            exact hk ⟨ds, by rw [hdc]; simp⟩
          rw [View.graft_append, view?_erase_of_child hf hchild, if_neg hdc, hV]
      · rw [View.graft_of_not hway]
    have hkey : key ++ c :: cs = key ++ [c] ++ cs := by simp
    cases cs with
    | nil =>
      rw [hview, if_pos rfl] at hm
      cases hm
      refine View.prunes_keep (View.set_self _ _) ?_ hbelow ?_ hprunes
      · intro d ds
        rw [View.set_of_ne (by simp), List.append_assoc, List.singleton_append, hV, hview,
          if_neg (List.cons_ne_nil d ds)]
        cases ch <;> rfl
      · intro k hk
        rw [helse k hk, View.set_of_ne]
        intro heq
        exact hk (heq ▸ List.prefix_refl _)
    | cons d ds =>
      rw [hview, if_neg (List.cons_ne_nil d ds)] at hm
      have hV' : ∀ e es, V (key ++ [c] ++ e :: es) = ch.view? (e :: es) := by
        intro e es
        rw [List.append_assoc, List.singleton_append, hV, hview, if_neg (List.cons_ne_nil e es)]
      rw [hkey]
      refine ih (hf.of_child hchild) hm hV' (View.prunes_keep (v := v) ?_ ?_ hbelow ?_ hprunes)
      · rw [View.graft_self, hV, hview, if_pos rfl]
      · intro e es
        rw [View.graft_append]
      · intro k hk
        rw [helse k hk, View.graft_of_not hk]

end Forest

namespace Trie

/-- to remove a key is to take its value away and then to prune -/
theorem remove_prunes {t : Trie α} (h : t.WellFormed) {key : List Char} {g : Handle} {a : α}
    (hm : t.view? key = some (g, some a)) :
    (View.set t.view? key (some (g, none))).Prunes key (t.remove key).2.view? := by
  have hkey : key ≠ [] := by
    intro hempty
    rw [hempty] at hm
    cases hm
  have hget : t.get? key = some a := by
    rw [get?_eq_view?, hm]
    rfl
  have hforest : t.forest.view? key = some (g, some a) := by rw [← view?_eq t hkey, hm]
  have hV : ∀ d ds, t.view? ([] ++ d :: ds) = t.forest.view? (d :: ds) := fun d ds => view?_eq t (List.cons_ne_nil d ds)
  have hview : (t.remove key).2.view? = View.graft t.view? [] (t.forest.erase key) := by
    funext k
    rw [remove_of_some hget]
    cases k with
    | nil =>
      rw [View.graft_self]
      rfl
    | cons d ds =>
      rw [view?_eq _ (List.cons_ne_nil d ds)]
      exact (View.graft_append t.view? [] _ d ds).symm
  rw [hview]
  exact Forest.erase_prunes h.sorted hforest hV (.root _)

end Trie

end ClauseFold
