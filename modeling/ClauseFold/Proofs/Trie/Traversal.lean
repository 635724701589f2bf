/-
The calls of a walk. A walk visits a node, then walks its children if the visitor wants that, and then leaves the node; the
calls that it makes are written down by the recursion over the tree. The calls at and below a node stand together: first
the visit, then those below it, then the way out.

Results:
- `walk_recorded`: a visitor that writes down its calls writes down those of the recursion;
- `find?_of_mem_calls`: each call is about the node at the key it is given;
- `nested_calls`: the calls at and below a node;
- `entries_calls`: who goes on everywhere meets all entries in order;
- `accept_makes_calls`: so it is for any visitor of a trie, and of its arena.
-/
import ClauseFold.Proofs.Trie.ArenaWalk

namespace ClauseFold

variable {σ α : Type}

/-! ## Calls -/

/-- a call of a visitor, with the key of the node -/
inductive WalkCall (α : Type) where
  | visit (key : List Char) (node : Node α)
  | leave (key : List Char) (node : Node α)

namespace WalkCall

def key : WalkCall α → List Char
  | visit key _ => key
  | leave key _ => key

def node : WalkCall α → Node α
  | visit _ node => node
  | leave _ node => node

def visited? : WalkCall α → Option (List Char)
  | visit key _ => some key
  | leave _ _ => none

def left? : WalkCall α → Option (List Char)
  | visit _ _ => none
  | leave key _ => some key

/-- what is met on the way into a node with a value -/
def entry? : WalkCall α → Option (List Char × α)
  | visit key node => node.value.map fun a => (key, a)
  | leave _ _ => none

@[simp] theorem visited?_visit (key : List Char) (n : Node α) : (visit key n).visited? = some key := rfl

@[simp] theorem visited?_leave (key : List Char) (n : Node α) : (leave key n).visited? = none := rfl

@[simp] theorem left?_visit (key : List Char) (n : Node α) : (visit key n).left? = none := rfl

@[simp] theorem left?_leave (key : List Char) (n : Node α) : (leave key n).left? = some key := rfl

end WalkCall

/-- a visitor that writes down the calls that are made to it -/
def Visitor.recorded (v : Visitor σ α) : Visitor (σ × List (WalkCall α)) α where
  visit := fun path n s => ((v.visit path n s.1).1, (v.visit path n s.1).2, s.2 ++ [.visit path.reverse n])
  leave := fun path n s => (v.leave path n s.1, s.2 ++ [.leave path.reverse n])
  isComplete := fun s => v.isComplete s.1

namespace Forest

/-- the calls for the children of a node. They are taken in order, until the visitor is done; each is visited, then its own
children are walked if the visitor wants that, and then it is left -/
def calls (v : Visitor σ α) (path : List Char) : Forest α → σ → List (WalkCall α)
  | nil, _ => []
  | node c h value ch sib, s =>
    if v.isComplete s then []
    else
      match v.visit (c :: path) ⟨h, value, ch⟩ s with
      | (true, s') =>
        .visit (c :: path).reverse ⟨h, value, ch⟩ :: (ch.calls v (c :: path) s' ++
          .leave (c :: path).reverse ⟨h, value, ch⟩ ::
            sib.calls v path (v.leave (c :: path) ⟨h, value, ch⟩ (ch.walk v (c :: path) s')))
      | (false, s') =>
        .visit (c :: path).reverse ⟨h, value, ch⟩ :: .leave (c :: path).reverse ⟨h, value, ch⟩ ::
          sib.calls v path (v.leave (c :: path) ⟨h, value, ch⟩ s')

variable {v : Visitor σ α}

/-- a visitor that writes down its calls goes where it would go anyway, and writes down the calls of the recursion -/
theorem walk_recorded (f : Forest α) (path : List Char) (s : σ) (calls : List (WalkCall α)) :
    f.walk v.recorded path (s, calls) = (f.walk v path s, calls ++ f.calls v path s) := by
  induction f generalizing path s calls with
  | nil => simp [walk, Forest.calls]
  | node c h value ch sib ihc ihs =>
    rw [walk, walk, Forest.calls]
    by_cases hdone : v.isComplete s = true
    · have hdone' : v.recorded.isComplete (s, calls) = true := hdone
      rw [if_pos hdone', if_pos hdone, if_pos hdone, List.append_nil]
    · have hdone' : ¬v.recorded.isComplete (s, calls) = true := hdone
      rw [if_neg hdone', if_neg hdone, if_neg hdone]
      have hleave : ∀ s calls, v.recorded.leave (c :: path) ⟨h, value, ch⟩ (s, calls) =
          (v.leave (c :: path) ⟨h, value, ch⟩ s, calls ++ [.leave (c :: path).reverse ⟨h, value, ch⟩]) := fun _ _ => rfl
      rcases hvisit : v.visit (c :: path) ⟨h, value, ch⟩ s with ⟨enters, s'⟩
      have hvisit' : v.recorded.visit (c :: path) ⟨h, value, ch⟩ (s, calls) =
          (enters, s', calls ++ [.visit (c :: path).reverse ⟨h, value, ch⟩]) := by simp only [Visitor.recorded, hvisit]
      rw [hvisit']
      cases enters with
      | false => simp only [hleave, ihs, List.append_assoc, List.cons_append, List.nil_append]
      | true => simp only [hleave, ihc, ihs, List.append_assoc, List.cons_append, List.nil_append]

/-- what can happen at the first child: the visitor is done, or visits the child and then walks its children or not -/
theorem calls_node (path : List Char) (c : Char) (h : Handle) (value : Option α) (ch sib : Forest α) (s : σ) :
    (node c h value ch sib).calls v path s = [] ∨ ∃ below s',
      (below = [] ∨ ∃ s'', below = ch.calls v (c :: path) s'') ∧
      (node c h value ch sib).calls v path s = .visit (c :: path).reverse ⟨h, value, ch⟩ ::
        (below ++ .leave (c :: path).reverse ⟨h, value, ch⟩ :: sib.calls v path s') := by
  rw [Forest.calls]
  by_cases hdone : v.isComplete s = true
  · exact Or.inl (if_pos hdone)
  · rw [if_neg hdone]
    right
    rcases v.visit (c :: path) ⟨h, value, ch⟩ s with ⟨_ | _, s'⟩
    · exact ⟨[], _, Or.inl rfl, rfl⟩
    · exact ⟨_, _, Or.inr ⟨s', rfl⟩, rfl⟩

/-- each call is about the node that the key leads to -/
theorem find?_of_mem_calls {f : Forest α} (hf : f.Sorted) {path : List Char} {s : σ} {e : WalkCall α}
    (he : e ∈ f.calls v path s) : ∃ k, e.key = path.reverse ++ k ∧ f.find? k = some e.node := by
  induction f generalizing path s with
  | nil => cases he
  | node c h value ch sib ihc ihs =>
    obtain ⟨habove, hch, hsib⟩ := hf
    have hown : (node c h value ch sib).find? [c] = some ⟨h, value, ch⟩ := by rw [find?_node, if_pos rfl, if_pos rfl]
    rcases calls_node (v := v) path c h value ch sib s with hnone | ⟨below, s', hbelow, hcalls⟩
    · rw [hnone] at he
      cases he
    · rw [hcalls, List.mem_cons, List.mem_append, List.mem_cons] at he
      rcases he with rfl | he | rfl | he
      · exact ⟨[c], List.reverse_cons, hown⟩
      · rcases hbelow with rfl | ⟨s'', rfl⟩
        · cases he
        · obtain ⟨k, hk, hfind⟩ := ihc hch he
          exact ⟨c :: k, by rw [hk]; simp, find?_cons_of_children hfind c h value sib⟩
      · exact ⟨[c], List.reverse_cons, hown⟩
      · obtain ⟨k, hk, hfind⟩ := ihs hsib he
        exact ⟨k, hk, find?_of_siblings habove hfind h value ch⟩

/-- below a child, keys go on behind its symbol -/
theorem key_of_mem_below {ch : Forest α} (hch : ch.Sorted) {path : List Char} {c : Char} {s : σ} {e : WalkCall α}
    (he : e ∈ ch.calls v (c :: path) s) : ∃ d ds, e.key = path.reverse ++ c :: d :: ds := by
  obtain ⟨k, hk, hfind⟩ := find?_of_mem_calls hch he
  cases k with
  | nil => cases hfind
  | cons d ds => exact ⟨d, ds, by rw [hk]; simp⟩

/-- beside a child, keys go on with another symbol -/
theorem key_of_mem_beside {sib : Forest α} {c : Char} (habove : sib.Above c) (hsib : sib.Sorted) {path : List Char} {s : σ}
    {e : WalkCall α} (he : e ∈ sib.calls v path s) : ∃ d ds, e.key = path.reverse ++ d :: ds ∧ d ≠ c := by
  obtain ⟨k, hk, hfind⟩ := find?_of_mem_calls hsib he
  cases k with
  | nil => cases hfind
  | cons d ds =>
    refine ⟨d, ds, hk, ?_⟩
    intro hdc
    rw [hdc, find?_of_above habove] at hfind
    cases hfind

end Forest

/-! ## Nesting -/

namespace WalkCall

/-- the calls at a key and below it -/
def within (key : List Char) (calls : List (WalkCall α)) : List (WalkCall α) := calls.filter fun e => key <+: e.key

/-- at a key and below it there are no calls, or the visit of its node, then those below it, and then the way out -/
def Nested (calls : List (WalkCall α)) (key : List Char) : Prop :=
  within key calls = [] ∨ ∃ n below, within key calls = visit key n :: (below ++ [leave key n]) ∧ ∀ e ∈ below, e.key ≠ key

theorem within_cons_of_not {key : List Char} {e : WalkCall α} (h : ¬key <+: e.key) (calls : List (WalkCall α)) :
    within key (e :: calls) = within key calls := List.filter_cons_of_neg (by simpa using h)

theorem within_cons_of_below {key : List Char} {e : WalkCall α} (h : key <+: e.key) (calls : List (WalkCall α)) :
    within key (e :: calls) = e :: within key calls := List.filter_cons_of_pos (by simpa using h)

theorem within_append (key : List Char) (before after : List (WalkCall α)) :
    within key (before ++ after) = within key before ++ within key after := List.filter_append before after

/-- what goes on with another symbol than a key is neither at the key nor below it -/
theorem within_eq_nil {path ds : List Char} {d : Char} {calls : List (WalkCall α)}
    (h : ∀ e ∈ calls, ∃ x xs, e.key = path ++ x :: xs ∧ x ≠ d) : within (path ++ d :: ds) calls = [] := by
  rw [within, List.filter_eq_nil_iff]
  intro e he hpre
  obtain ⟨x, xs, hx, hne⟩ := h e he
  rw [decide_eq_true_eq, hx, List.prefix_append_right_inj, List.cons_prefix_cons] at hpre
  exact hne hpre.1.symm

theorem within_eq_self {key : List Char} {calls : List (WalkCall α)} (h : ∀ e ∈ calls, key <+: e.key) :
    within key calls = calls := List.filter_eq_self.mpr fun e he => by simpa using h e he

/-- how often a kind of call is made at a key can be counted among the calls at and below it -/
theorem count_within {kind : WalkCall α → Option (List Char)} (hkind : ∀ e k, kind e = some k → e.key = k)
    (key : List Char) (calls : List (WalkCall α)) :
    (calls.filterMap kind).count key = ((within key calls).filterMap kind).count key := by
  induction calls with
  | nil => rfl
  | cons e calls ih =>
    by_cases hpre : key <+: e.key
    · rw [within_cons_of_below hpre, List.filterMap_cons, List.filterMap_cons]
      cases hk : kind e with
      | none => exact ih
      | some k => simp only [List.count_cons, ih]
    · rw [within_cons_of_not hpre, ← ih, List.filterMap_cons]
      cases hk : kind e with
      | none => rfl
      | some k =>
        have hne : k ≠ key := by
          intro heq
          rw [hkind e k hk, heq] at hpre
          exact hpre (List.prefix_refl key)
        exact List.count_cons_of_ne hne

theorem count_eq_zero {kind : WalkCall α → Option (List Char)} (hkind : ∀ e k, kind e = some k → e.key = k)
    {key : List Char} {calls : List (WalkCall α)} (h : ∀ e ∈ calls, e.key ≠ key) :
    (calls.filterMap kind).count key = 0 := by
  rw [List.count_eq_zero, List.mem_filterMap]
  intro hmem
  obtain ⟨e, he, hk⟩ := hmem
  exact h e he (hkind e key hk)

theorem key_of_visited {e : WalkCall α} {k : List Char} (h : e.visited? = some k) : e.key = k := by
  cases e with
  | visit key node => exact Option.some.inj h
  | leave key node => cases h

theorem key_of_left {e : WalkCall α} {k : List Char} (h : e.left? = some k) : e.key = k := by
  cases e with
  | visit key node => cases h
  | leave key node => exact Option.some.inj h

/-- where calls are nested, a node is visited once at most, and left as often -/
theorem Nested.once {calls : List (WalkCall α)} {key : List Char} (h : Nested calls key) :
    (calls.filterMap visited?).count key ≤ 1 ∧
      (calls.filterMap left?).count key = (calls.filterMap visited?).count key := by
  rw [count_within (fun _ _ => key_of_visited) key, count_within (fun _ _ => key_of_left) key]
  rcases h with hnone | ⟨n, below, hsome, hbelow⟩
  · rw [hnone]
    exact ⟨Nat.zero_le 1, rfl⟩
  · have hvisits := count_eq_zero (fun _ _ => key_of_visited) hbelow
    have hleaves := count_eq_zero (fun _ _ => key_of_left) hbelow
    rw [hsome]
    simp [List.filterMap_cons, hvisits, hleaves]

end WalkCall

namespace Forest

variable {v : Visitor σ α}

open WalkCall in
/-- the calls of a walk are nested -/
theorem nested_calls {f : Forest α} (hf : f.Sorted) (path : List Char) (s : σ) (d : Char) (ds : List Char) :
    Nested (f.calls v path s) (path.reverse ++ d :: ds) := by
  induction f generalizing path s d ds with
  | nil => exact Or.inl rfl
  | node c h value ch sib ihc ihs =>
    obtain ⟨habove, hch, hsib⟩ := hf
    have hagree : ∀ {e es}, path.reverse ++ d :: ds <+: path.reverse ++ e :: es ↔ d = e ∧ ds <+: es := by
      intro e es
      rw [List.prefix_append_right_inj, List.cons_prefix_cons]
    rcases calls_node (v := v) path c h value ch sib s with hnone | ⟨below, s', hbelow, hcalls⟩
    · exact Or.inl (by rw [hnone]; rfl)
    have hkey : (c :: path).reverse = path.reverse ++ [c] := List.reverse_cons
    have hunder : ∀ e ∈ below, ∃ x xs, e.key = path.reverse ++ c :: x :: xs := by
      intro e he
      rcases hbelow with rfl | ⟨s'', rfl⟩
      · cases he
      · exact key_of_mem_below hch he
    rw [hcalls, hkey]
    by_cases hdc : d = c
    · subst hdc
      have hbeside : within (path.reverse ++ d :: ds) (sib.calls v path s') = [] :=
        within_eq_nil fun e he => key_of_mem_beside habove hsib he
      cases ds with
      | nil =>
        -- the key of the child itself: all that is called below it stands between the visit and the way out
        right
        refine ⟨⟨h, value, ch⟩, below, ?_, ?_⟩
        · have hall : within (path.reverse ++ [d]) below = below := by
            apply within_eq_self
            intro e he
            obtain ⟨x, xs, hx⟩ := hunder e he
            rw [hx, hagree]
            exact ⟨rfl, List.nil_prefix⟩
          have hsame : path.reverse ++ [d] <+: path.reverse ++ [d] := List.prefix_refl _
          rw [within_cons_of_below hsame, within_append, within_cons_of_below hsame, hall, hbeside]
        · intro e he
          obtain ⟨x, xs, hx⟩ := hunder e he
          rw [hx]
          simp
      | cons x xs =>
        have hlonger : ¬path.reverse ++ d :: x :: xs <+: path.reverse ++ [d] := by simp [hagree]
        have hdeeper : Nested below (path.reverse ++ d :: x :: xs) := by
          rcases hbelow with rfl | ⟨s'', rfl⟩
          · exact Or.inl rfl
          · have hnested := ihc hch (d :: path) s'' x xs
            rwa [hkey, List.append_assoc, List.singleton_append] at hnested
        unfold Nested at hdeeper ⊢
        rwa [within_cons_of_not hlonger, within_append, within_cons_of_not hlonger, hbeside, List.append_nil]
    · have hother : ¬path.reverse ++ d :: ds <+: path.reverse ++ [c] := by simp [hagree, hdc]
      have hnone : within (path.reverse ++ d :: ds) below = [] := by
        apply within_eq_nil
        intro e he
        obtain ⟨x, xs, hx⟩ := hunder e he
        exact ⟨c, x :: xs, hx, fun heq => hdc heq.symm⟩
      have hrest := ihs hsib path s' d ds
      unfold Nested at hrest ⊢
      rwa [within_cons_of_not hother, within_append, within_cons_of_not hother, hnone, List.nil_append]

/-- a visitor that goes on everywhere meets all entries, in order -/
theorem entries_calls (hvisit : ∀ path n s, (v.visit path n s).1 = true) (hdone : ∀ s, v.isComplete s = false)
    (f : Forest α) (path : List Char) (s : σ) :
    (f.calls v path s).filterMap WalkCall.entry? = f.entriesFrom path := by
  induction f generalizing path s with
  | nil => rfl
  | node c h value ch sib ihc ihs =>
    have hgoes := hvisit (c :: path) ⟨h, value, ch⟩ s
    rw [Forest.calls, hdone, entriesFrom]
    rcases hv : v.visit (c :: path) ⟨h, value, ch⟩ s with ⟨enters, s'⟩
    rw [hv] at hgoes
    obtain rfl : enters = true := hgoes
    cases value with
    | none => simp [WalkCall.entry?, List.filterMap_cons, ihc, ihs]
    | some a => simp [WalkCall.entry?, List.filterMap_cons, ihc, ihs]

end Forest

/-! ## Walks of a trie -/

namespace Trie

/-- what a visitor sees of a trie -/
structure WalksTree (t : Trie α) (v : Visitor σ α) (s : σ) : Prop where
  /-- the calls are those of the recursion over the tree, from the root on -/
  calls : t.accept v.recorded (s, []) = (t.forest.walk v [] s, t.forest.calls v [] s)
  /-- and so is the state at the end -/
  accept : t.accept v s = t.forest.walk v [] s
  /-- children are taken in order of symbol -/
  sorted : t.forest.Sorted
  /-- a call is about the node at its key, which is the key of the node; the root is never visited -/
  known : ∀ e ∈ t.forest.calls v [] s, e.key ≠ [] ∧ t.node? e.key = some e.node ∧ t.keyOf? e.node.handle = some e.key
  /-- what is called below a node is called between its visit and the way out of it -/
  nested : ∀ key, key ≠ [] → WalkCall.Nested (t.forest.calls v [] s) key
  /-- a node is visited once at most, and left as often -/
  once : ∀ key, ((t.forest.calls v [] s).filterMap WalkCall.visited?).count key ≤ 1 ∧
    ((t.forest.calls v [] s).filterMap WalkCall.left?).count key =
      ((t.forest.calls v [] s).filterMap WalkCall.visited?).count key
  /-- who goes on everywhere and is never done meets the nodes with a value in the order of the entries -/
  entries : (∀ path n s, (v.visit path n s).1 = true) → (∀ s, v.isComplete s = false) →
    (t.forest.calls v [] s).filterMap WalkCall.entry? = t.entries

theorem WellFormed.walksTree {t : Trie α} (h : t.WellFormed) (v : Visitor σ α) (s : σ) : t.WalksTree v s := by
  have hknown : ∀ e ∈ t.forest.calls v [] s,
      e.key ≠ [] ∧ t.node? e.key = some e.node ∧ t.keyOf? e.node.handle = some e.key := by
    intro e he
    obtain ⟨k, hk, hfind⟩ := Forest.find?_of_mem_calls h.sorted he
    cases k with
    | nil => cases hfind
    | cons c cs =>
      have hkey : e.key = c :: cs := hk
      have hnode : t.node? e.key = some e.node := by
        rw [hkey]
        exact hfind
      exact ⟨by simp [hkey], hnode, (keyOf?_eq_some_iff h).mpr ⟨_, hnode, rfl⟩⟩
  have hnested : ∀ key, key ≠ [] → WalkCall.Nested (t.forest.calls v [] s) key := by
    intro key hkey
    cases key with
    | nil => exact absurd rfl hkey
    | cons c cs => exact Forest.nested_calls h.sorted [] s c cs
  constructor
  case calls => rw [accept_eq_walk, Forest.walk_recorded, List.nil_append]
  case accept => exact accept_eq_walk t v s
  case sorted => exact h.sorted
  case known => exact hknown
  case nested => exact hnested
  case once =>
    intro key
    by_cases hkey : key = []
    · have hroot : ∀ e ∈ t.forest.calls v [] s, e.key ≠ key := fun e he => hkey ▸ (hknown e he).1
      rw [WalkCall.count_eq_zero (fun _ _ => WalkCall.key_of_visited) hroot,
        WalkCall.count_eq_zero (fun _ _ => WalkCall.key_of_left) hroot]
      exact ⟨Nat.zero_le 1, rfl⟩
    · exact (hnested key hkey).once
  case entries => exact fun hvisit hdone => Forest.entries_calls hvisit hdone t.forest [] s

/-- **A walk makes the calls of the recursion.** After any calls to a trie, a walk by any visitor makes the calls that the
recursion over the tree makes: each child in order of symbol, as long as the visitor is not done, is visited with its full
key, walked if the visitor wants that, and left with the same key. So the calls are nested, and each node is visited once
at most and left after all that was visited below it. In the arena, where a walk goes from handle to handle, it comes to
an end and makes the same calls. -/
theorem accept_makes_calls (calls : List (Call α)) (v : Visitor σ α) (s : σ) :
    (ofCalls calls).WalksTree v s ∧
    ∀ w : HandleVisitor σ, (Arena.ofCalls calls).Walks w ((Arena.ofCalls calls).walkStart s)
      ⟨[], [], (ofCalls calls).forest.walk w.onNodes [] s⟩ := by
  have hmirrors := Arena.mirrors_ofCalls calls
  refine ⟨hmirrors.wellFormed.walksTree v s, ?_⟩
  intro w
  rw [← accept_eq_walk]
  exact hmirrors.walks w s

end Trie

end ClauseFold
