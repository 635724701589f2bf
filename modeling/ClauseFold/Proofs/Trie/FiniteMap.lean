/-
A trie as a finite map. Calls by key and calls by handle may come in any order, some of them refused; next to the trie a
map from keys to values goes through the same calls, where a handle counts for the key that it stands for. Nothing that
is asked about keys and values can tell the two apart.

Results:
- `keyOf?_eq_some_iff`: a handle is live exactly if it is the handle of the node at its key;
- `setValue_of_live`: to store a value at a live node is to put it at the key of the node;
- `run_refines`: a call says of the trie what it says of the map, and leaves them in step;
- `calls_refine_map`: so it is after any calls, with all that can be asked about keys and values.
-/
import ClauseFold.Proofs.Trie.Removal

namespace ClauseFold

/-- lists are compared by the code points of their symbols, and a prefix comes ahead of its extensions -/
theorem compare_eq_lt_iff (a b : List Char) : compare a b = .lt ↔ a < b := by
  induction a generalizing b with
  | nil => cases b <;> simp
  | cons c cs ih =>
    cases b with
    | nil => simp
    | cons d ds =>
      have hhead : compare c d = .lt ↔ c < d := compareOfLessAndEq_eq_lt
      rw [List.compare_cons_cons, List.cons_lt_cons_iff, Ordering.then_eq_lt, hhead, ih,
        Std.LawfulEqOrd.compare_eq_iff_eq]

namespace Trie

/-! ## Calls -/

/-- the values of a trie by key, as a map of their own -/
abbrev Entries (α : Type) := Std.ExtTreeMap (List Char) α

/-- a call that may change a trie; a handle may be live or stale -/
inductive Call (α : Type) where
  | put (key : List Char) (value : α)
  | remove (key : List Char)
  | clear
  | insertChild (parent : Handle) (symbol : Char)
  | setValue (node : Handle) (value : α)

/-- what a call that is not refused has to say -/
inductive Answer (α : Type) where
  /-- the value that stood there before -/
  | previous (value : Option α)
  | child (node : Handle)
  | done

variable {α : Type}

def Answer.value? : Answer α → Option α
  | previous value => value
  | child _ => none
  | done => none

/-- what a change has to say, and the trie after it; a change that is refused leaves the trie as it was -/
def Call.outcome {β : Type} (t : Trie α) (say : β → Answer α) :
    Except TrieError (β × Trie α) → Except TrieError (Answer α) × Trie α
  | .ok (b, t') => (.ok (say b), t')
  | .error e => (.error e, t)

/-- what a call has to say, and the trie it leaves -/
def Call.run (t : Trie α) : Call α → Except TrieError (Answer α) × Trie α
  | put key value => outcome t .previous (t.put key value)
  | remove key => outcome t .previous (.ok (t.remove key))
  | clear => (.ok .done, t.clear)
  | insertChild parent symbol => outcome t .child (t.insertChild parent symbol)
  | setValue node value => outcome t .previous (t.setValue node value)

/-- what a call has to say of a map, and the map it leaves; a handle counts for the key that it stands for in `t` -/
def Call.onMap (t : Trie α) (m : Entries α) : Call α → Except TrieError (Option α) × Entries α
  | put key value => if key = [] then (.error .emptyKey, m) else (.ok m[key]?, m.insert key value)
  | remove key => (.ok m[key]?, m.erase key)
  | clear => (.ok none, ∅)
  | insertChild parent _ =>
    match t.keyOf? parent with
    | none => (.error .unknownNode, m)
    | some _ => (.ok none, m)
  | setValue node value =>
    if node = t.root then (.error .emptyKey, m)
    else
      match t.keyOf? node with
      | none => (.error .unknownNode, m)
      | some key => (.ok m[key]?, m.insert key value)

def afterAll (t : Trie α) (calls : List (Call α)) : Trie α := calls.foldl (fun t c => (c.run t).2) t

/-- the map after some calls, beside the trie that goes through them too -/
def entriesAfter (t : Trie α) (m : Entries α) : List (Call α) → Entries α
  | [] => m
  | c :: calls => entriesAfter (c.run t).2 (c.onMap t m).2 calls

def ofCalls (calls : List (Call α)) : Trie α := empty.afterAll calls

/-- the map that the same calls make of an empty one -/
def entriesOfCalls (calls : List (Call α)) : Entries α := empty.entriesAfter ∅ calls

/-! ## Live handles -/

variable {t : Trie α}

theorem at?_eq_some_iff {h : Handle} {n : Node α} :
    t.at? h = some n ↔ t.node? (t.path h).reverse = some n ∧ n.handle = h := by
  unfold at?
  rw [Option.filter_eq_some_iff, decide_eq_true_eq]

/-- a live handle leads to a key, and the node at that key has the handle -/
theorem node?_of_keyOf? {h : Handle} {key : List Char} (hkey : t.keyOf? h = some key) :
    ∃ n, t.at? h = some n ∧ t.node? key = some n ∧ n.handle = h := by
  obtain ⟨n, hn, rfl⟩ := Option.map_eq_some_iff.mp hkey
  obtain ⟨hnode, hhandle⟩ := at?_eq_some_iff.mp hn
  exact ⟨n, hn, hnode, hhandle⟩

theorem keyOf?_eq_some_iff (hwf : t.WellFormed) {h : Handle} {key : List Char} :
    t.keyOf? h = some key ↔ ∃ n, t.node? key = some n ∧ n.handle = h := by
  refine ⟨?_, ?_⟩
  · intro hkey
    obtain ⟨n, -, hnode⟩ := node?_of_keyOf? hkey
    exact ⟨n, hnode⟩
  · intro hnode
    obtain ⟨n, hn, rfl⟩ := hnode
    exact keyOf?_of_view? hwf (view?_of_node? hn)

theorem keyOf?_eq_none_iff {h : Handle} : t.keyOf? h = none ↔ t.at? h = none := Option.map_eq_none_iff

theorem insertChild_of_stale {parent : Handle} (h : t.keyOf? parent = none) (symbol : Char) :
    t.insertChild parent symbol = .error .unknownNode := by
  unfold insertChild
  rw [keyOf?_eq_none_iff.mp h]

theorem insertChild_of_live (hwf : t.WellFormed) {parent : Handle} {key : List Char} (h : t.keyOf? parent = some key)
    (symbol : Char) : ∃ node t', t.insertChild parent symbol = .ok (node, t') ∧ HasChild t key symbol node t' := by
  obtain ⟨n, -, hn, rfl⟩ := node?_of_keyOf? h
  exact insertChild_spec hwf (view?_of_node? hn) symbol

theorem size_of_insertChild {parent node : Handle} {symbol : Char} {t' : Trie α}
    (h : t.insertChild parent symbol = .ok (node, t')) : t'.size = t.size := by
  unfold insertChild at h
  cases hat : t.at? parent with
  | none => rw [hat] at h; cases h
  | some n =>
    rw [hat] at h
    cases hchild : n.child? symbol with
    | none => simp only [hchild] at h; cases h; rfl
    | some child => simp only [hchild] at h; cases h; rfl

theorem setValue_root (value : α) : t.setValue t.root value = .error .emptyKey := if_pos rfl

theorem setValue_of_stale {node : Handle} (hroot : node ≠ t.root) (h : t.keyOf? node = none) (value : α) :
    t.setValue node value = .error .unknownNode := by
  unfold setValue
  rw [if_neg hroot, keyOf?_eq_none_iff.mp h]

/-- to store a value at a live node is to put it at the key of the node -/
theorem setValue_of_live {node : Handle} {key : List Char} (hroot : node ≠ t.root) (h : t.keyOf? node = some key)
    (value : α) : key ≠ [] ∧ t.setValue node value = t.put key value := by
  obtain ⟨n, hat, hn, hhandle⟩ := node?_of_keyOf? h
  have hkey : key ≠ [] := by
    intro hempty
    rw [hempty] at hn
    cases hn
    exact hroot hhandle.symm
  have hpath : (t.path node).reverse = key := by
    unfold keyOf? at h
    rw [hat] at h
    exact Option.some.inj h
  have hget : t.get? key = n.value := by
    unfold get?
    rw [hn]
    rfl
  refine ⟨hkey, ?_⟩
  unfold setValue
  rw [if_neg hroot, hat, put_eq hkey, hget, hpath]

/-! ## The map beside the trie -/

/-- a well-formed trie that holds the values of a map -/
structure Tracks (t : Trie α) (m : Entries α) : Prop where
  wellFormed : t.WellFormed
  get? : ∀ key : List Char, t.get? key = m[key]?
  size : t.size = m.size

theorem tracks_empty : (empty : Trie α).Tracks ∅ := by
  refine ⟨wellFormed_empty, ?_, rfl⟩
  intro key
  rw [get?_eq_value?]
  simp [empty, Forest.value?_eq_view?]

variable {m : Entries α}

theorem Tracks.contains (h : t.Tracks m) (key : List Char) : m.contains key = (t.get? key).isSome := by
  rw [Std.ExtTreeMap.contains_eq_isSome_getElem?, h.get?]

theorem Tracks.put (h : t.Tracks m) {key : List Char} (hkey : key ≠ []) (a : α) :
    (t.store key a (t.get? key)).Tracks (m.insert key a) := by
  refine ⟨h.wellFormed.store _ _ _, ?_, ?_⟩
  · intro k
    rw [get?_store h.wellFormed hkey, Std.ExtTreeMap.getElem?_insert, h.get?]
    simp only [Std.LawfulEqOrd.compare_eq_iff_eq, @eq_comm _ key]
  · rw [Std.ExtTreeMap.size_insert, h.contains, ← h.size]
    rfl

theorem Tracks.remove (h : t.Tracks m) (key : List Char) : (t.remove key).2.Tracks (m.erase key) := by
  refine ⟨h.wellFormed.remove key, ?_, ?_⟩
  · intro k
    rw [get?_remove h.wellFormed, Std.ExtTreeMap.getElem?_erase, h.get?]
    simp only [Std.LawfulEqOrd.compare_eq_iff_eq, @eq_comm _ key]
  · rw [Std.ExtTreeMap.size_erase, h.contains, ← h.size]
    cases hget : t.get? key with
    | none => simp [remove_of_none hget]
    | some a => simp [remove_of_some hget]

theorem tracks_clear (t : Trie α) : t.clear.Tracks ∅ := by
  refine ⟨.clear t, ?_, rfl⟩
  intro key
  rw [get?_eq_value?]
  simp [clear, Forest.value?_eq_view?]

theorem Tracks.insertChild (h : t.Tracks m) {parent node : Handle} {symbol : Char} {t' : Trie α}
    (hok : t.insertChild parent symbol = .ok (node, t')) : t'.Tracks m := by
  have hsize : t'.size = t.size := size_of_insertChild hok
  cases hkey : t.keyOf? parent with
  | none => rw [insertChild_of_stale hkey] at hok; cases hok
  | some key =>
    obtain ⟨node', t'', hchild, hhas⟩ := insertChild_of_live h.wellFormed hkey symbol
    rw [hchild] at hok
    cases hok
    exact ⟨hhas.wellFormed, fun k => by rw [hhas.get?, h.get?], by rw [hsize, h.size]⟩

/-- a call says of the trie what it says of the map, and leaves them in step -/
structure Call.Refines (c : Call α) (t : Trie α) (m : Entries α) : Prop where
  answer : (c.run t).1.map Answer.value? = (c.onMap t m).1
  tracks : (c.run t).2.Tracks (c.onMap t m).2

theorem Call.Refines.of_eq {c : Call α} {answer : Except TrieError (Answer α)} {said : Except TrieError (Option α)}
    {t' : Trie α} {m' : Entries α} (hrun : c.run t = (answer, t')) (hmap : c.onMap t m = (said, m'))
    (hanswer : answer.map Answer.value? = said) (h : t'.Tracks m') : c.Refines t m := by
  constructor
  · rw [hrun, hmap, hanswer]
  · rw [hrun, hmap]
    exact h

theorem refines_put (h : t.Tracks m) (key : List Char) (value : α) : (Call.put key value).Refines t m := by
  by_cases hkey : key = []
  · subst hkey
    exact ⟨rfl, h⟩
  · have hrun : (Call.put key value).run t = (.ok (.previous (t.get? key)), t.store key value (t.get? key)) := by
      simp only [Call.run, put_eq hkey, Call.outcome]
    have hmap : (Call.put key value).onMap t m = (.ok m[key]?, m.insert key value) := if_neg hkey
    exact .of_eq hrun hmap (by rw [h.get?]; rfl) (h.put hkey value)

theorem refines_remove (h : t.Tracks m) (key : List Char) : (Call.remove key).Refines t m := by
  have hrun : (Call.remove key).run t = (.ok (.previous (t.get? key)), (t.remove key).2) := by
    simp only [Call.run, Call.outcome, ← remove_fst]
  exact .of_eq hrun rfl (by rw [h.get?]; rfl) (h.remove key)

theorem refines_insertChild (h : t.Tracks m) (parent : Handle) (symbol : Char) :
    (Call.insertChild parent symbol).Refines t m := by
  cases hkey : t.keyOf? parent with
  | none =>
    have hrun : (Call.insertChild parent symbol).run t = (.error .unknownNode, t) := by
      simp only [Call.run, insertChild_of_stale hkey, Call.outcome]
    have hmap : (Call.insertChild parent symbol).onMap t m = (.error .unknownNode, m) := by
      simp only [Call.onMap, hkey]
    exact .of_eq hrun hmap rfl h
  | some key =>
    obtain ⟨node, t', hchild, -⟩ := insertChild_of_live h.wellFormed hkey symbol
    have hrun : (Call.insertChild parent symbol).run t = (.ok (.child node), t') := by
      simp only [Call.run, hchild, Call.outcome]
    have hmap : (Call.insertChild parent symbol).onMap t m = (.ok none, m) := by simp only [Call.onMap, hkey]
    exact .of_eq hrun hmap rfl (h.insertChild hchild)

theorem refines_setValue (h : t.Tracks m) (node : Handle) (value : α) : (Call.setValue node value).Refines t m := by
  by_cases hroot : node = t.root
  · have hrun : (Call.setValue node value).run t = (.error .emptyKey, t) := by
      simp only [Call.run, hroot, setValue_root, Call.outcome]
    have hmap : (Call.setValue node value).onMap t m = (.error .emptyKey, m) := if_pos hroot
    exact .of_eq hrun hmap rfl h
  · cases hkey : t.keyOf? node with
    | none =>
      have hrun : (Call.setValue node value).run t = (.error .unknownNode, t) := by
        simp only [Call.run, setValue_of_stale hroot hkey, Call.outcome]
      have hmap : (Call.setValue node value).onMap t m = (.error .unknownNode, m) := by
        simp only [Call.onMap, if_neg hroot, hkey]
      exact .of_eq hrun hmap rfl h
    | some key =>
      -- at a live node the call is a put at the key of the node, for the trie and for the map
      obtain ⟨hne, hset⟩ := setValue_of_live hroot hkey value
      have hrun : (Call.setValue node value).run t = (Call.put key value).run t := by simp only [Call.run, hset]
      have hmap : (Call.setValue node value).onMap t m = (Call.put key value).onMap t m := by
        simp only [Call.onMap, if_neg hroot, if_neg hne, hkey]
      obtain ⟨hanswer, htracks⟩ := refines_put h key value
      exact ⟨by rw [hrun, hmap]; exact hanswer, by rw [hrun, hmap]; exact htracks⟩

/-- a call says of the trie what it says of the map, and leaves them in step -/
theorem run_refines (h : t.Tracks m) (c : Call α) : c.Refines t m := by
  cases c with
  | put key value => exact refines_put h key value
  | remove key => exact refines_remove h key
  | clear => exact ⟨rfl, tracks_clear t⟩
  | insertChild parent symbol => exact refines_insertChild h parent symbol
  | setValue node value => exact refines_setValue h node value

theorem tracks_afterAll (h : t.Tracks m) (calls : List (Call α)) :
    (t.afterAll calls).Tracks (t.entriesAfter m calls) := by
  induction calls generalizing t m with
  | nil => exact h
  | cons c calls ih => exact ih (run_refines h c).tracks

theorem tracks_ofCalls (calls : List (Call α)) : (ofCalls calls).Tracks (entriesOfCalls calls) :=
  tracks_afterAll tracks_empty calls

theorem Call.outcome_of_error {β : Type} {say : β → Answer α} {r : Except TrieError (β × Trie α)} {e : TrieError}
    (h : (outcome t say r).1 = .error e) : (outcome t say r).2 = t := by
  cases r with
  | ok p => cases h
  | error e' => rfl

/-- a call that is refused changes nothing -/
theorem run_of_error {c : Call α} {e : TrieError} (h : (c.run t).1 = .error e) : (c.run t).2 = t := by
  cases c with
  | put key value => exact Call.outcome_of_error h
  | remove key => exact Call.outcome_of_error h
  | clear => cases h
  | insertChild parent symbol => exact Call.outcome_of_error h
  | setValue node value => exact Call.outcome_of_error h

/-! ## What can be asked -/

/-- all that can be asked of a trie about keys and values, as a map answers it -/
structure Shows (t : Trie α) (m : Entries α) : Prop where
  get? : ∀ key : List Char, t.get? key = m[key]?
  contains : ∀ key : List Char, t.contains key = m.contains key
  size : t.size = m.size
  isEmpty : t.isEmpty = m.isEmpty
  entries : t.entries = m.toList
  keys : t.keys = m.keys
  values : t.values = m.values
  /-- the root never holds a value -/
  root : ([] : List Char) ∉ m
  length_entries : t.entries.length = t.size
  /-- each key once, in order of code points -/
  ascending : t.entries.Pairwise fun a b => a.1 < b.1

theorem Tracks.shows (h : t.Tracks m) : t.Shows m := by
  have hentries : t.entries = m.toList := by
    apply (ascending_entries h.wellFormed).ext (Ascending.toList m)
    intro e
    rw [mem_entries h.wellFormed, h.get?, Std.ExtTreeMap.mem_toList_iff_getElem?_eq_some]
  constructor
  case get? => exact h.get?
  case contains =>
    intro key
    rw [h.contains]
    rfl
  case size => exact h.size
  case isEmpty =>
    rw [isEmpty, h.size, Std.ExtTreeMap.isEmpty_eq_size_beq_zero]
  case entries => exact hentries
  case keys => rw [keys, hentries, Std.ExtTreeMap.map_fst_toList_eq_keys]
  case values => rw [values, hentries, values_eq_toList]
  case root =>
    have hroot : m.contains [] = false := h.contains []
    rw [← Std.ExtTreeMap.contains_iff_mem, hroot]
    exact Bool.false_ne_true
  case length_entries => rw [hentries, Std.ExtTreeMap.length_toList, h.size]
  case ascending =>
    apply (ascending_entries h.wellFormed).imp
    intro a b hab
    exact (compare_eq_lt_iff a.1 b.1).mp hab

/-- **A trie is a finite map.** Let a trie and a map, both empty, go through any calls, by key or by handle, live or
stale. Then all that can be asked about keys and values is answered alike, and so is the next call, whichever it is: it
gives the previous value or is refused for the same reason, and if it is refused nothing has changed. A child that is
asked for at a live node is the node at the longer key. -/
theorem calls_refine_map (calls : List (Call α)) (c : Call α) :
    (ofCalls calls).Shows (entriesOfCalls calls) ∧
    (c.run (ofCalls calls)).1.map Answer.value? = (c.onMap (ofCalls calls) (entriesOfCalls calls)).1 ∧
    (∀ e, (c.run (ofCalls calls)).1 = .error e → (c.run (ofCalls calls)).2 = ofCalls calls) ∧
    ∀ parent symbol key, (ofCalls calls).keyOf? parent = some key → ∃ node t',
      (ofCalls calls).insertChild parent symbol = .ok (node, t') ∧ t'.keyOf? node = some (key ++ [symbol]) := by
  have htracks := tracks_ofCalls calls
  refine ⟨htracks.shows, (run_refines htracks c).answer, fun e => run_of_error, ?_⟩
  intro parent symbol key hkey
  obtain ⟨node, t', hchild, hhas⟩ := insertChild_of_live htracks.wellFormed hkey symbol
  exact ⟨node, t', hchild, keyOf?_of_view? hhas.wellFormed hhas.view?_child⟩

end Trie

end ClauseFold
