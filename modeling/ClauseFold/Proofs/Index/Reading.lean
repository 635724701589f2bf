/-
The reading of node rows without a trie. Each row spells a key, the key of its parent and one symbol more, and some keys
get a rule; that is all a reader of node rows has to remember. `spell` reads rows that way, with two maps. The reader
proper keeps a trie, handles and a table by handle instead, and `Spells` says how the one stands for the other.

Results:
- `readNode_spells`: a row is read by both or by neither, with the same error, and the two stay in step;
- `readNodes_spells`: the same for all rows;
- `canonicalOf_spells`: what replaces a pattern by the table is what its rule says.
-/
import ClauseFold.Repository.Indexed
import ClauseFold.Proofs.Outcome
import ClauseFold.Proofs.Recognizer.Patterns

namespace ClauseFold.IndexReader

/-- what node rows say: the key that each id spells, and the rules -/
structure Spelling where
  keys : Std.ExtTreeMap Int (List Char)
  rules : ByEncoding Rule

def Spelling.empty : Spelling := ⟨∅, ∅⟩

def parentKey (a : Spelling) (id : Int) (row : NodeRow) : Except IndexError (List Char) :=
  if row.parent = noId then .ok []
  else
    match a.keys[row.parent]? with
    | some key => .ok key
    | none => .error (.orphan id row.parent)

def spellKey (a : Spelling) (id : Int) (row : NodeRow) : Except Error (List Char × Spelling) :=
  match row.symbol with
  | [c] => do
    let parent ← (parentKey a id row).mapError .index
    return (parent ++ [c], { a with keys := a.keys.insert id (parent ++ [c]) })
  | _ => .error (.index (.symbol id))

def spellRule (canonical : Std.ExtTreeMap Int Formula) (a : Spelling) (key : List Char) (id : Int) (row : NodeRow) :
    Except Error Spelling :=
  if row.canonical = noId then .ok a
  else
    match canonical[row.canonical]? with
    | none => .error (.index (.unknownCanonicalId id row.canonical))
    | some replacement => do
      let pattern ← Formula.read? key
      return { a with rules := a.rules.insert key ⟨pattern, replacement⟩ }

def spell (canonical : Std.ExtTreeMap Int Formula) (a : Spelling) (row : Int × NodeRow) : Except Error Spelling := do
  let (key, a') ← spellKey a row.1 row.2
  spellRule canonical a' key row.1 row.2

/-- a trie with its tables that stands for what node rows say -/
structure Spells (a : Spelling) (s : Nodes) : Prop where
  wellFormed : s.trie.WellFormed
  /-- an id that spells a key is that of the node at the key -/
  known : ∀ {id : Int} {key : List Char}, a.keys[id]? = some key →
    ∃ n, s.byId[id]? = some n.1 ∧ s.trie.view? key = some n
  unknown : ∀ {id : Int}, a.keys[id]? = none → s.byId[id]? = none
  /-- values are the patterns of the rules -/
  patterns : ∀ key : List Char, s.trie.get? key = (a.rules[key]?).map fun r => r.pattern
  /-- the table has what replaces the patterns -/
  replaced : ∀ {key : List Char} {n : Handle × Option Formula}, s.trie.view? key = some n →
    s.replacements[n.1]? = (a.rules[key]?).map fun r => r.canonical
  /-- the table is about nodes of the trie -/
  placed : ∀ {h : Handle} {f : Formula}, s.replacements[h]? = some f → ∃ key n, s.trie.view? key = some n ∧ n.1 = h

theorem spells_empty : Spells .empty ⟨Trie.empty, ∅, ∅⟩ := by
  refine ⟨Trie.wellFormed_empty, ?_, ?_, ?_, ?_, ?_⟩
  · intro id key h
    simp [Spelling.empty] at h
  · intro id _
    simp
  · intro key
    rw [Trie.get?_eq_value?, Forest.value?_eq_view?]
    simp [Trie.empty, Spelling.empty]
  · intro key n _
    simp [Spelling.empty]
  · intro h f hf
    simp at hf

theorem parentOf_spells {a : Spelling} {s : Nodes} (h : Spells a s) (id : Int) (row : NodeRow) :
    (∃ e, parentKey a id row = .error e ∧ parentOf s id row = .error e) ∨
      ∃ key n, parentKey a id row = .ok key ∧ parentOf s id row = .ok n.1 ∧ s.trie.view? key = some n := by
  unfold parentKey parentOf
  by_cases hroot : row.parent = noId
  · rw [if_pos hroot, if_pos hroot]
    exact Or.inr ⟨[], _, rfl, rfl, Trie.view?_root s.trie⟩
  · rw [if_neg hroot, if_neg hroot]
    cases hkey : a.keys[row.parent]? with
    | none =>
      rw [h.unknown hkey]
      exact Or.inl ⟨_, rfl, rfl⟩
    | some key =>
      obtain ⟨n, hn, hview⟩ := h.known hkey
      rw [hn]
      exact Or.inr ⟨key, n, rfl, rfl, hview⟩

/-- a node that is made stands for the key that its row spells -/
theorem Spells.insertChild {a : Spelling} {s : Nodes} (h : Spells a s) (id : Int) {key : List Char}
    {parent : Handle × Option Formula} (hparent : s.trie.view? key = some parent) (c : Char) :
    ∃ n t', s.trie.insertChild parent.1 c = .ok (n.1, t') ∧ t'.view? (key ++ [c]) = some n ∧
      Spells { a with keys := a.keys.insert id (key ++ [c]) } { s with trie := t', byId := s.byId.insert id n.1 } := by
  obtain ⟨child, t', hinsert, hchild⟩ := Trie.insertChild_spec h.wellFormed hparent c
  have hnode := hchild.view?_child
  refine ⟨(child, s.trie.get? (key ++ [c])), t', hinsert, hnode, hchild.wellFormed, ?_, ?_, ?_, ?_, ?_⟩
  · intro i k hk
    rw [Std.ExtTreeMap.getElem?_insert] at hk ⊢
    by_cases hi : compare id i = .eq
    · rw [if_pos hi] at hk ⊢
      cases hk
      exact ⟨_, rfl, hnode⟩
    · rw [if_neg hi] at hk ⊢
      obtain ⟨n, hn, hkview⟩ := h.known hk
      exact ⟨n, hn, hchild.view?_of_some hkview⟩
  · intro i hi
    rw [Std.ExtTreeMap.getElem?_insert] at hi ⊢
    by_cases heq : compare id i = .eq
    · rw [if_pos heq] at hi
      cases hi
    · rw [if_neg heq] at hi ⊢
      exact h.unknown hi
  · intro k
    rw [hchild.get?, h.patterns]
  · intro k n hn
    by_cases hk : k = key ++ [c]
    · rw [hk, hnode] at hn
      cases hn
      rcases hchild.handle with ⟨hnone, hfresh⟩ | ⟨m, hm, rfl⟩
      · have hempty : s.replacements[child]? = none := by
          rw [Option.eq_none_iff_forall_ne_some]
          intro f hf
          obtain ⟨k', m, hm, heq⟩ := h.placed hf
          have hlt := Trie.handle_lt h.wellFormed hm
          rw [heq, hfresh] at hlt
          exact Nat.lt_irrefl _ hlt
        have hrule : (a.rules[key ++ [c]]?).map (fun r => r.pattern) = none := by
          rw [← h.patterns, Trie.get?_eq_view?, hnone]
          rfl
        rw [hk, hempty, Option.map_eq_none_iff.mp hrule]
        rfl
      · rw [hk, h.replaced hm]
    · rw [hchild.view?, if_neg hk] at hn
      exact h.replaced hn
  · intro i f hf
    obtain ⟨k, n, hn, hi⟩ := h.placed hf
    exact ⟨k, n, hchild.view?_of_some hn, hi⟩

/-- a pattern that is stored at a node is the rule of its key -/
theorem Spells.setValue {a : Spelling} {s : Nodes} (h : Spells a s) {key : List Char} {c : Char}
    {n : Handle × Option Formula} (hn : s.trie.view? (key ++ [c]) = some n) (r : Rule) :
    ∃ previous t', s.trie.setValue n.1 r.pattern = .ok (previous, t') ∧
      Spells { a with rules := a.rules.insert (key ++ [c]) r }
        { s with trie := t', replacements := s.replacements.insert n.1 r.canonical } := by
  obtain ⟨t', hset, hwf, -, hview⟩ := Trie.setValue_spec h.wellFormed hn r.pattern
  have hnode : t'.view? (key ++ [c]) = some (n.1, some r.pattern) := by rw [hview, if_pos rfl]
  have hkept : ∀ {k m}, s.trie.view? k = some m → ∃ v, t'.view? k = some (m.1, v) := by
    intro k m hm
    by_cases hk : k = key ++ [c]
    · rw [hk, hn] at hm
      cases hm
      exact ⟨_, by rw [hk, hnode]⟩
    · exact ⟨m.2, by rw [hview, if_neg hk, hm]⟩
  have hrules : ∀ k, (a.rules.insert (key ++ [c]) r)[k]? = if k = key ++ [c] then some r else a.rules[k]? := by
    intro k
    rw [getElem?_insert_eq_ite]
    simp only [@eq_comm _ k]
  refine ⟨n.2, t', hset, hwf, ?_, h.unknown, ?_, ?_, ?_⟩
  · intro i k hk
    obtain ⟨m, hm, hkview⟩ := h.known hk
    obtain ⟨v, hv⟩ := hkept hkview
    exact ⟨(m.1, v), hm, hv⟩
  · intro k
    rw [hrules, Trie.get?_eq_view?, hview]
    by_cases hk : k = key ++ [c]
    · rw [if_pos hk, if_pos hk]
      rfl
    · rw [if_neg hk, if_neg hk, ← Trie.get?_eq_view?, h.patterns]
  · intro k m hm
    rw [hrules, Std.ExtTreeMap.getElem?_insert]
    rw [hview] at hm
    by_cases hk : k = key ++ [c]
    · rw [if_pos hk] at hm ⊢
      cases hm
      rw [if_pos Std.ReflOrd.compare_self]
      rfl
    · rw [if_neg hk] at hm ⊢
      have hne : ¬compare n.1 m.1 = .eq := by
        intro heq
        exact hk (Trie.key_eq_of_view? h.wellFormed hm hn (Std.LawfulEqOrd.eq_of_compare heq).symm)
      rw [if_neg hne, h.replaced hm]
  · intro i f hf
    rw [Std.ExtTreeMap.getElem?_insert] at hf
    by_cases hi : compare n.1 i = .eq
    · exact ⟨key ++ [c], _, hnode, Std.LawfulEqOrd.eq_of_compare hi⟩
    · rw [if_neg hi] at hf
      obtain ⟨k, m, hm, rfl⟩ := h.placed hf
      obtain ⟨v, hv⟩ := hkept hm
      exact ⟨k, _, hv, rfl⟩

/-! ## Rows -/

theorem addNode_spells {a : Spelling} {s : Nodes} (h : Spells a s) (id : Int) (row : NodeRow) :
    (∃ e, spellKey a id row = .error e ∧ addNode s id row = .error e) ∨
      ∃ key c a' n s', spellKey a id row = .ok (key ++ [c], a') ∧ addNode s id row = .ok (n.1, s') ∧ Spells a' s' ∧
        s'.trie.view? (key ++ [c]) = some n := by
  unfold spellKey addNode
  rcases row.symbol with _ | ⟨c, _ | ⟨d, rest⟩⟩
  · exact Or.inl ⟨_, rfl, rfl⟩
  · rcases parentOf_spells h id row with ⟨e, hspell, hread⟩ | ⟨key, parent, hspell, hread, hview⟩
    · simp only [hspell, hread]
      exact Or.inl ⟨_, rfl, rfl⟩
    · obtain ⟨n, t', hinsert, hnode, h'⟩ := h.insertChild id hview c
      refine Or.inr ⟨key, c, _, n, _, ?_, ?_, h', hnode⟩
      · simp only [hspell]
        rfl
      · simp only [hread]
        show (s.trie.insertChild parent.1 c).mapError Error.trie >>= _ = _
        rw [hinsert]
        rfl
  · exact Or.inl ⟨_, rfl, rfl⟩

theorem addPattern_spells {canonical : Std.ExtTreeMap Int Formula} {a : Spelling} {s : Nodes} (h : Spells a s)
    {key : List Char} {c : Char} {n : Handle × Option Formula} (hn : s.trie.view? (key ++ [c]) = some n) (id : Int)
    (row : NodeRow) :
    (∃ e, spellRule canonical a (key ++ [c]) id row = .error e ∧ addPattern canonical s n.1 id row = .error e) ∨
      ∃ a' s', spellRule canonical a (key ++ [c]) id row = .ok a' ∧ addPattern canonical s n.1 id row = .ok s' ∧
        Spells a' s' := by
  unfold spellRule addPattern
  by_cases hnone : row.canonical = noId
  · rw [if_pos hnone, if_pos hnone]
    exact Or.inr ⟨a, s, rfl, rfl, h⟩
  · rw [if_neg hnone, if_neg hnone, Trie.keyOf?_of_view? h.wellFormed hn]
    cases canonical[row.canonical]? with
    | none => exact Or.inl ⟨_, rfl, rfl⟩
    | some replacement =>
      cases hread : Formula.read? (key ++ [c]) with
      | error e =>
        refine Or.inl ⟨e, rfl, ?_⟩
        simp only [hread]
        rfl
      | ok pattern =>
        obtain ⟨previous, t', hset, h'⟩ := h.setValue hn ⟨pattern, replacement⟩
        refine Or.inr ⟨_, _, rfl, ?_, h'⟩
        simp only [hread]
        show (s.trie.setValue n.1 pattern).mapError Error.trie >>= _ = _
        rw [hset]
        rfl

/-- a row is read with a trie and without one alike, and the two stay in step -/
theorem readNode_spells {canonical : Std.ExtTreeMap Int Formula} {a : Spelling} {s : Nodes} (h : Spells a s)
    (row : Int × NodeRow) :
    (∃ e, spell canonical a row = .error e ∧ readNode canonical s row = .error e) ∨
      ∃ a' s', spell canonical a row = .ok a' ∧ readNode canonical s row = .ok s' ∧ Spells a' s' := by
  unfold spell readNode
  rcases addNode_spells h row.1 row.2 with ⟨e, hspell, hread⟩ | ⟨key, c, a₁, n, s₁, hspell, hread, h₁, hn⟩
  · rw [hspell, hread]
    exact Or.inl ⟨e, rfl, rfl⟩
  · rw [hspell, hread]
    exact addPattern_spells h₁ hn row.1 row.2

theorem readNodes_spells {canonical : Std.ExtTreeMap Int Formula} {a : Spelling} {s : Nodes} (h : Spells a s)
    (rows : List (Int × NodeRow)) :
    (∃ e, rows.foldlM (spell canonical) a = .error e ∧ rows.foldlM (readNode canonical) s = .error e) ∨
      ∃ a' s', rows.foldlM (spell canonical) a = .ok a' ∧ rows.foldlM (readNode canonical) s = .ok s' ∧
        Spells a' s' := by
  induction rows generalizing a s with
  | nil => exact Or.inr ⟨a, s, rfl, rfl, h⟩
  | cons row rows ih =>
    rw [List.foldlM_cons, List.foldlM_cons]
    rcases readNode_spells h row with ⟨e, hspell, hread⟩ | ⟨a₁, s₁, hspell, hread, h₁⟩
    · rw [hspell, hread]
      exact Or.inl ⟨e, rfl, rfl⟩
    · rw [hspell, hread]
      exact ih h₁

/-! ## What was read -/

theorem canonicalOf_spells {a : Spelling} {s : Nodes} (h : Spells a s) (f : Formula) :
    canonicalOf ⟨s.trie⟩ s.replacements f = (a.rules[f.encode]?).map fun r => r.canonical := by
  unfold canonicalOf Recognizer.find?
  rw [Node.locate_eq_descend?]
  have hpatterns := h.patterns f.encode
  change ((s.trie.node? f.encode).filter _).bind _ = _
  unfold Trie.get? at hpatterns
  cases hnode : s.trie.node? f.encode with
  | none =>
    rw [hnode] at hpatterns
    have hrule : a.rules[f.encode]? = none := Option.map_eq_none_iff.mp hpatterns.symm
    rw [hrule]
    rfl
  | some n =>
    rw [hnode] at hpatterns
    have hreplaced := h.replaced (Trie.view?_of_node? hnode)
    simp only [Option.bind_some] at hpatterns
    cases hrule : a.rules[f.encode]? with
    | none =>
      rw [hrule] at hpatterns
      simp [Option.filter, hpatterns]
    | some r =>
      rw [hrule] at hpatterns hreplaced
      simp [Option.filter, hpatterns, hreplaced]

end ClauseFold.IndexReader
