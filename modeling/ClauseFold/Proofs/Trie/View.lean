/-
What a trie holds, seen from the outside. The view of a forest gives for each way down the handle and the value of the
node at its end. Children in ascending order of symbol make the view faithful: no child hides another, and the entries
come in order of key.

Results:
- `sorted_insert`: children stay in order;
- `view?_insert_append`, `view?_insert_elsewhere`: what a change at a key does to the view. Nodes that are there keep
  their handles, the ways that are missing get handles in order of length, and only the value at the key changes;
- `value?_insert`: the same for values alone;
- `mem_entriesFrom`, `ascending_entriesFrom`: the entries are the keys with a value, in order.
-/
import Mathlib.Tactic.SplitIfs
import ClauseFold.Trie.Basic
import ClauseFold.Proofs.Ascending

namespace ClauseFold

namespace Forest

variable {α : Type}

/-! ## Children in order -/

/-- all children come after `c` -/
def Above (c : Char) : Forest α → Prop
  | nil => True
  | node d _ _ _ sib => c < d ∧ sib.Above c

def Sorted : Forest α → Prop
  | nil => True
  | node c _ _ ch sib => sib.Above c ∧ ch.Sorted ∧ sib.Sorted

theorem Above.of_lt {c d : Char} {f : Forest α} (h : f.Above d) (hcd : c < d) : f.Above c := by
  induction f with
  | nil => trivial
  | node e _ _ _ sib _ ihs => exact ⟨Char.lt_trans hcd h.1, ihs h.2⟩

theorem above_branch {b c : Char} (hbc : b < c) (value : Option α) (next : Handle) (cs : List Char) {sib : Forest α}
    (h : sib.Above b) : (branch value next c cs sib).Above b := by
  cases cs with
  | nil => exact ⟨hbc, h⟩
  | cons d ds => exact ⟨hbc, h⟩

theorem sorted_branch {c : Char} (value : Option α) (next : Handle) (cs : List Char) {sib : Forest α}
    (habove : sib.Above c) (hsorted : sib.Sorted) : (branch value next c cs sib).Sorted := by
  induction cs generalizing c next sib with
  | nil => exact ⟨habove, trivial, hsorted⟩
  | cons d ds ih => exact ⟨habove, ih (next + 1) trivial trivial, hsorted⟩

theorem above_insert {b c : Char} (hbc : b < c) (update : Option α → Option α) (next : Handle) (cs : List Char)
    {f : Forest α} (h : f.Above b) : (f.insert update next (c :: cs)).Above b := by
  induction f with
  | nil => exact above_branch hbc _ _ _ trivial
  | node d _ v ch sib _ ihs =>
    rw [insert]
    by_cases hcd : c = d
    · rw [if_pos hcd]; exact h
    · rw [if_neg hcd]
      by_cases hlt : c < d
      · rw [if_pos hlt]; exact above_branch hbc _ _ _ h
      · rw [if_neg hlt]; exact ⟨h.1, ihs h.2⟩

theorem sorted_insert (update : Option α → Option α) (next : Handle) (key : List Char) {f : Forest α}
    (h : f.Sorted) : (f.insert update next key).Sorted := by
  induction f generalizing key with
  | nil =>
    cases key with
    | nil => exact h
    | cons c cs => exact sorted_branch _ _ _ trivial trivial
  | node d _ v ch sib ihc ihs =>
    obtain ⟨habove, hch, hsib⟩ := h
    cases key with
    | nil => exact ⟨habove, hch, hsib⟩
    | cons c cs =>
      rw [insert]
      by_cases hcd : c = d
      · rw [if_pos hcd]
        exact ⟨habove, ihc cs hch, hsib⟩
      · rw [if_neg hcd]
        by_cases hlt : c < d
        · rw [if_pos hlt]
          exact sorted_branch _ _ _ ⟨hlt, habove.of_lt hlt⟩ ⟨habove, hch, hsib⟩
        · have hdc : d < c := Char.not_le.mp fun hle => hcd (Char.le_antisymm hle (Char.not_lt.mp hlt))
          rw [if_neg hlt]
          exact ⟨above_insert hdc _ _ _ habove, hch, ihs (c :: cs) hsib⟩

/-! ## The view -/

/-- the node at the end of a way of one symbol or more -/
def find? (f : Forest α) : List Char → Option (Node α)
  | [] => none
  | c :: cs => (f.child? c).bind fun n => n.descend? cs

/-- the handle and the value at the end of a way of one symbol or more -/
def view? (f : Forest α) (key : List Char) : Option (Handle × Option α) :=
  (f.find? key).map fun n => (n.handle, n.value)

/-- the value at the end of a way of one symbol or more -/
def value? (f : Forest α) (key : List Char) : Option α := (f.find? key).bind fun n => n.value

/-- for how many of the first symbols of a key there are nodes -/
def known : Forest α → List Char → Nat
  | _, [] => 0
  | nil, _ => 0
  | node d _ _ ch sib, c :: cs => if c = d then ch.known cs + 1 else sib.known (c :: cs)

theorem value?_eq_view? (f : Forest α) (key : List Char) : f.value? key = (f.view? key).bind Prod.snd := by
  unfold value? view?
  cases f.find? key with
  | none => rfl
  | some n => rfl

@[simp] theorem view?_nil (key : List Char) : (nil : Forest α).view? key = none := by
  cases key <;> rfl

theorem find?_node (c d : Char) (cs : List Char) (h : Handle) (v : Option α) (ch sib : Forest α) :
    (node d h v ch sib).find? (c :: cs) =
      if c = d then if cs = [] then some ⟨h, v, ch⟩ else ch.find? cs else sib.find? (c :: cs) := by
  simp only [find?, child?]
  split_ifs with hcd hcs
  · rw [hcs]
    rfl
  · cases cs with
    | nil => exact absurd rfl hcs
    | cons e es => rfl
  · rfl

theorem find?_of_above {c : Char} {f : Forest α} (h : f.Above c) (cs : List Char) : f.find? (c :: cs) = none := by
  induction f with
  | nil => rfl
  | node d _ v ch sib _ ihs => rw [find?_node, if_neg (Char.ne_of_lt h.1), ihs h.2]

theorem view?_node (c d : Char) (cs : List Char) (h : Handle) (v : Option α) (ch sib : Forest α) :
    (node d h v ch sib).view? (c :: cs) =
      if c = d then if cs = [] then some (h, v) else ch.view? cs else sib.view? (c :: cs) := by
  simp only [view?, find?_node]
  split_ifs <;> rfl

theorem view?_first (c : Char) (h : Handle) (v : Option α) (ch sib : Forest α) :
    (node c h v ch sib).view? [c] = some (h, v) := by rw [view?_node, if_pos rfl, if_pos rfl]

theorem view?_of_above {c : Char} {f : Forest α} (h : f.Above c) (cs : List Char) : f.view? (c :: cs) = none := by
  rw [view?, find?_of_above h]
  rfl

theorem known_of_above {c : Char} {f : Forest α} (h : f.Above c) (cs : List Char) : f.known (c :: cs) = 0 := by
  induction f with
  | nil => rfl
  | node d _ v ch sib _ ihs => rw [known, if_neg (Char.ne_of_lt h.1), ihs h.2]

/-- a way is there as far as it is known -/
theorem isSome_view?_iff {f : Forest α} {key : List Char} (hkey : key ≠ []) (rest : List Char) :
    (f.view? key).isSome = true ↔ key.length ≤ f.known (key ++ rest) := by
  induction f generalizing key with
  | nil =>
    cases key with
    | nil => exact absurd rfl hkey
    | cons c cs => simp [known]
  | node d h v ch sib ihc ihs =>
    cases key with
    | nil => exact absurd rfl hkey
    | cons c cs =>
      rw [view?_node, List.cons_append, known]
      by_cases hcd : c = d
      · rw [if_pos hcd, if_pos hcd, List.length_cons, Nat.add_le_add_iff_right]
        by_cases hcs : cs = []
        · simp [hcs]
        · rw [if_neg hcs, ihc hcs]
      · rw [if_neg hcd, if_neg hcd, ihs hkey]
        rfl

/-! ## Changes -/

theorem view?_branch_append (value : Option α) (next : Handle) {c : Char} {cs key rest : List Char} (hkey : key ≠ [])
    (hcs : c :: cs = key ++ rest) (sib : Forest α) :
    (branch value next c cs sib).view? key =
      some (next + (key.length - 1), if rest = [] then value else none) := by
  induction cs generalizing c next sib key with
  | nil =>
    cases key with
    | nil => exact absurd rfl hkey
    | cons e es =>
      rw [List.cons_append, List.cons.injEq] at hcs
      obtain ⟨rfl, hes⟩ := hcs
      obtain ⟨rfl, rfl⟩ := List.append_eq_nil_iff.mp hes.symm
      simp [branch, view?_node]
  | cons d ds ih =>
    cases key with
    | nil => exact absurd rfl hkey
    | cons e es =>
      rw [List.cons_append, List.cons.injEq] at hcs
      obtain ⟨rfl, hes⟩ := hcs
      rw [branch, view?_node, if_pos rfl]
      cases es with
      | nil =>
        rw [List.nil_append] at hes
        rw [if_pos rfl, if_neg (hes ▸ List.cons_ne_nil d ds)]
        rfl
      | cons x xs =>
        rw [if_neg (List.cons_ne_nil x xs), ih (next + 1) (List.cons_ne_nil x xs) hes]
        simp only [List.length_cons, Nat.add_sub_cancel]
        rw [Nat.add_assoc, Nat.add_comm 1]

theorem view?_branch_elsewhere (value : Option α) (next : Handle) {c : Char} {cs key : List Char}
    (hkey : ¬key <+: c :: cs) {sib : Forest α} (h : sib.Above c) :
    (branch value next c cs sib).view? key = sib.view? key := by
  induction cs generalizing c next sib key with
  | nil =>
    cases key with
    | nil => rfl
    | cons e es =>
      rw [List.cons_prefix_cons, List.prefix_nil] at hkey
      rw [branch, view?_node]
      split_ifs with hec hes
      · exact absurd ⟨hec, hes⟩ hkey
      · rw [hec, view?_of_above h, view?_nil]
      · rfl
  | cons d ds ih =>
    cases key with
    | nil => rfl
    | cons e es =>
      rw [List.cons_prefix_cons] at hkey
      rw [branch, view?_node]
      split_ifs with hec hes
      · exact absurd ⟨hec, hes ▸ List.nil_prefix⟩ hkey
      · have hnil : (nil : Forest α).Above d := trivial
        rw [hec, view?_of_above h, ih (next + 1) (fun hp => hkey ⟨hec, hp⟩) hnil, view?_nil]
      · rfl

/-- on the way along the key that is changed, nodes that are there keep their handles and new ones get the next; the
value changes at the end of the way only -/
theorem view?_insert_append (update : Option α → Option α) (next : Handle) {key : List Char} (hkey : key ≠ [])
    (rest : List Char) {f : Forest α} (hf : f.Sorted) :
    (f.insert update next (key ++ rest)).view? key =
      some (match f.view? key with
        | some (h, v) => (h, if rest = [] then update v else v)
        | none => (next + (key.length - f.known (key ++ rest) - 1), if rest = [] then update none else none)) := by
  induction f generalizing key with
  | nil =>
    cases key with
    | nil => exact absurd rfl hkey
    | cons c cs =>
      have hcs : c :: (cs ++ rest) = (c :: cs) ++ rest := rfl
      rw [List.cons_append, insert, view?_branch_append _ _ hkey hcs, view?_nil]
      rfl
  | node d h v ch sib ihc ihs =>
    obtain ⟨habove, hch, hsib⟩ := hf
    cases key with
    | nil => exact absurd rfl hkey
    | cons c cs =>
      rw [List.cons_append, insert, view?_node, known]
      by_cases hcd : c = d
      · subst hcd
        rw [if_pos rfl, if_pos rfl, if_pos rfl, view?_node, if_pos rfl]
        cases cs with
        | nil => cases rest <;> simp
        | cons x xs =>
          rw [if_neg (List.cons_ne_nil x xs), if_neg (List.cons_ne_nil x xs), ihc (List.cons_ne_nil x xs) hch]
          simp only [List.length_cons, Nat.add_sub_add_right]
      · rw [if_neg hcd, if_neg hcd, if_neg hcd]
        by_cases hlt : c < d
        · have hcs : c :: (cs ++ rest) = (c :: cs) ++ rest := rfl
          rw [if_pos hlt, view?_branch_append _ _ hkey hcs, view?_of_above (habove.of_lt hlt),
            known_of_above (habove.of_lt hlt)]
          rfl
        · rw [if_neg hlt, view?_node, if_neg hcd]
          exact ihs hkey hsib

/-- off the way along the key that is changed nothing happens -/
theorem view?_insert_elsewhere (update : Option α → Option α) (next : Handle) {key key' : List Char}
    (hkey : ¬key' <+: key) {f : Forest α} (hf : f.Sorted) :
    (f.insert update next key).view? key' = f.view? key' := by
  induction f generalizing key key' with
  | nil =>
    cases key with
    | nil => rfl
    | cons c cs => exact view?_branch_elsewhere _ _ hkey (c := c) trivial
  | node d h v ch sib ihc ihs =>
    obtain ⟨habove, hch, hsib⟩ := hf
    cases key with
    | nil => rfl
    | cons c cs =>
      cases key' with
      | nil => rfl
      | cons e es =>
        rw [insert]
        by_cases hcd : c = d
        · rw [if_pos hcd, view?_node, view?_node]
          rw [List.cons_prefix_cons, hcd] at hkey
          by_cases hed : e = d
          · have hes : es ≠ [] := fun hes => hkey ⟨hed, hes ▸ List.nil_prefix⟩
            rw [if_pos hed, if_pos hed, if_neg hes, if_neg hes]
            exact ihc (fun hp => hkey ⟨hed, hp⟩) hch
          · rw [if_neg hed, if_neg hed]
        · rw [if_neg hcd]
          by_cases hlt : c < d
          · rw [if_pos hlt]
            exact view?_branch_elsewhere _ _ hkey ⟨hlt, habove.of_lt hlt⟩
          · rw [if_neg hlt, view?_node, view?_node, ihs hkey hsib]

theorem value?_insert (update : Option α → Option α) (next : Handle) {key : List Char} (hkey : key ≠ [])
    (key' : List Char) {f : Forest α} (hf : f.Sorted) :
    (f.insert update next key).value? key' = if key' = key then update (f.value? key) else f.value? key' := by
  simp only [value?_eq_view?]
  by_cases hpre : key' <+: key
  · obtain ⟨rest, rfl⟩ := hpre
    cases key' with
    | nil => rw [if_neg (Ne.symm hkey)]; rfl
    | cons c cs =>
      rw [view?_insert_append update next (List.cons_ne_nil c cs) rest hf]
      cases rest with
      | nil => simp only [List.append_nil, if_true]; cases f.view? (c :: cs) <;> rfl
      | cons x xs =>
        rw [if_neg fun h => List.cons_ne_nil x xs (List.self_eq_append_right.mp h)]
        cases f.view? (c :: cs) <;> rfl
  · have hne : key' ≠ key := by
      intro heq
      exact hpre (heq ▸ List.prefix_refl key')
    rw [view?_insert_elsewhere update next hpre hf, if_neg hne]

/-! ## Entries -/

theorem value?_node (c d : Char) (cs : List Char) (h : Handle) (v : Option α) (ch sib : Forest α) :
    (node d h v ch sib).value? (c :: cs) =
      if c = d then if cs = [] then v else ch.value? cs else sib.value? (c :: cs) := by
  simp only [value?_eq_view?, view?_node]
  split_ifs <;> rfl

theorem value?_of_above {c : Char} {f : Forest α} (h : f.Above c) (cs : List Char) : f.value? (c :: cs) = none := by
  rw [value?_eq_view?, view?_of_above h]
  rfl

theorem prefix_of_mem_entriesFrom {f : Forest α} {path : List Char} {e : List Char × α} (he : e ∈ f.entriesFrom path) :
    path.reverse <+: e.1 := by
  induction f generalizing path with
  | nil => cases he
  | node c h v ch sib ihc ihs =>
    rw [entriesFrom, List.mem_append, List.mem_append] at he
    have hlonger : path.reverse <+: (c :: path).reverse := by rw [List.reverse_cons]; exact List.prefix_append _ _
    rcases he with hown | hch | hsib
    · rw [Option.mem_toList, Option.map_eq_some_iff] at hown
      obtain ⟨a, -, rfl⟩ := hown
      exact hlonger
    · exact hlonger.trans (ihc hch)
    · exact ihs hsib

/-- the entries are the keys with a value, each behind the way here -/
theorem mem_entriesFrom {f : Forest α} (hf : f.Sorted) (path key : List Char) (a : α) :
    (key, a) ∈ f.entriesFrom path ↔ ∃ rest, key = path.reverse ++ rest ∧ f.value? rest = some a := by
  induction f generalizing path with
  | nil =>
    simp only [entriesFrom, List.not_mem_nil, false_iff]
    intro hvalue
    rcases hvalue with ⟨rest, -, h⟩
    rw [value?_eq_view?, view?_nil] at h
    cases h
  | node c h v ch sib ihc ihs =>
    obtain ⟨habove, hch, hsib⟩ := hf
    rw [entriesFrom, List.mem_append, List.mem_append, ihc hch, ihs hsib]
    refine ⟨?_, ?_⟩
    · intro hentry
      rcases hentry with hown | ⟨rest, rfl, hrest⟩ | ⟨rest, rfl, hrest⟩
      · rw [Option.mem_toList, Option.map_eq_some_iff] at hown
        obtain ⟨b, rfl, hb⟩ := hown
        cases hb
        exact ⟨[c], by simp, by simp [value?_node]⟩
      · have hne : rest ≠ [] := by
          intro hnil
          rw [hnil] at hrest
          cases hrest
        exact ⟨c :: rest, by simp, by simp [value?_node, hne, hrest]⟩
      · refine ⟨rest, rfl, ?_⟩
        cases rest with
        | nil => cases hrest
        | cons d ds =>
          have hdc : d ≠ c := by
            intro heq
            rw [heq, value?_of_above habove] at hrest
            cases hrest
          rw [value?_node, if_neg hdc, hrest]
    · intro hvalue
      rcases hvalue with ⟨rest, rfl, hrest⟩
      cases rest with
      | nil => cases hrest
      | cons d ds =>
        rw [value?_node] at hrest
        split_ifs at hrest with hdc hds
        · left
          rw [Option.mem_toList, Option.map_eq_some_iff]
          exact ⟨a, hrest, by simp [hdc, hds]⟩
        · exact Or.inr (Or.inl ⟨ds, by simp [hdc], hrest⟩)
        · exact Or.inr (Or.inr ⟨d :: ds, rfl, hrest⟩)

theorem compare_append_left (path a b : List Char) : compare (path ++ a) (path ++ b) = compare a b := by
  induction path with
  | nil => rfl
  | cons c cs ih => rw [List.cons_append, List.cons_append, List.compare_cons_cons, Std.ReflOrd.compare_self, ih]; rfl

theorem compare_cons_of_lt {c d : Char} (h : c < d) (a b : List Char) : compare (c :: a) (d :: b) = .lt := by
  have hcd : compare c d = .lt := compareOfLessAndEq_eq_lt.mpr h
  rw [List.compare_cons_cons, hcd]
  rfl

theorem lt_of_value? {f : Forest α} {b c : Char} {cs : List Char} {a : α} (h : f.Above b)
    (hv : f.value? (c :: cs) = some a) : b < c := by
  induction f with
  | nil => cases hv
  | node d _ v ch sib _ ihs =>
    rw [value?_node] at hv
    by_cases hcd : c = d
    · rw [hcd]; exact h.1
    · rw [if_neg hcd] at hv
      exact ihs h.2 hv

theorem compare_of_mem_entriesFrom {f : Forest α} (hf : f.Sorted) {c : Char} (h : f.Above c) {path rest : List Char}
    {e : List Char × α} (he : e ∈ f.entriesFrom path) : compare (path.reverse ++ c :: rest) e.1 = .lt := by
  obtain ⟨key, hkey, hv⟩ := (mem_entriesFrom hf path e.1 e.2).mp he
  cases key with
  | nil => cases hv
  | cons d ds => rw [hkey, compare_append_left, compare_cons_of_lt (lt_of_value? h hv)]

/-- the entries come in order of key -/
theorem ascending_entriesFrom {f : Forest α} (hf : f.Sorted) (path : List Char) : Ascending (f.entriesFrom path) := by
  induction f generalizing path with
  | nil => exact List.Pairwise.nil
  | node c h v ch sib ihc ihs =>
    obtain ⟨habove, hch, hsib⟩ := hf
    have hown : ∀ e ∈ (v.map fun a => ((c :: path).reverse, a)).toList, e.1 = path.reverse ++ [c] := by
      intro e he
      rw [Option.mem_toList, Option.map_eq_some_iff] at he
      obtain ⟨a, -, rfl⟩ := he
      exact List.reverse_cons
    have hchild : ∀ e ∈ ch.entriesFrom (c :: path), ∃ x xs, e.1 = path.reverse ++ c :: x :: xs := by
      intro e he
      obtain ⟨key, hkey, hv⟩ := (mem_entriesFrom hch (c :: path) e.1 e.2).mp he
      cases key with
      | nil => cases hv
      | cons x xs => exact ⟨x, xs, by rw [hkey]; simp⟩
    unfold Ascending
    rw [entriesFrom, List.pairwise_append, List.pairwise_append]
    refine ⟨?_, ⟨ihc hch (c :: path), ihs hsib path, ?_⟩, ?_⟩
    · cases v with
      | none => exact List.Pairwise.nil
      | some a => exact List.pairwise_singleton _ _
    · intro e he e' he'
      obtain ⟨x, xs, hkey⟩ := hchild e he
      rw [hkey]
      exact compare_of_mem_entriesFrom hsib habove he'
    · intro e he e' he'
      rw [hown e he]
      rcases List.mem_append.mp he' with he' | he'
      · obtain ⟨x, xs, hkey⟩ := hchild e' he'
        rw [hkey, compare_append_left, List.compare_cons_cons, Std.ReflOrd.compare_self]
        rfl
      · exact compare_of_mem_entriesFrom hsib habove he'

end Forest

end ClauseFold
