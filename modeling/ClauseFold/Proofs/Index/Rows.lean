/-
The node rows of a compilation, as a list. `rowsFrom` goes over a forest and numbers the nodes as it meets them, with no
table from nodes to ids: the id of a parent comes down with the recursion. The writer finds that id in its table instead,
which holds the ids of all nodes above the one it is at. It ends at the first entry that it cannot write, and what it says
then is what is wrong with that entry.

Results:
- `walk_error`: the writer ends with the first fault in the order of the entries;
- `walk_visitor`: where there is none, the writer writes the rows of the forest;
- `ascending_rowsFrom`: the ids go up;
- `compileInto_none`, `compileNodes_of_fault`: what a source is compiled into, and why it is not.
-/
import ClauseFold.Index.Compile
import ClauseFold.Proofs.Index.Ids
import ClauseFold.Proofs.Recognizer.Patterns
import ClauseFold.Proofs.Trie.Links

namespace ClauseFold

namespace Forest

/-- the rows of the nodes below a node with the id `parent`, from the id `next` on; `idOf` has the ids of what replaces
patterns -/
def rowsFrom (idOf : Formula → Int) (parent next : Int) : Forest Formula → List (Int × NodeRow)
  | nil => []
  | node c _ v ch sib =>
    (next, ⟨[c], parent, (v.map idOf).getD noId⟩) ::
      (ch.rowsFrom idOf next (next + 1) ++ sib.rowsFrom idOf parent (next + 1 + ch.nodeCount))

/-- ids are given one after the other -/
theorem bounds_of_mem_rowsFrom {idOf : Formula → Int} {fo : Forest Formula} {parent next : Int} {e : Int × NodeRow}
    (he : e ∈ fo.rowsFrom idOf parent next) : next ≤ e.1 ∧ e.1 < next + fo.nodeCount := by
  induction fo generalizing parent next with
  | nil => cases he
  | node c h v ch sib ihc ihs =>
    rw [nodeCount]
    rw [rowsFrom, List.mem_cons, List.mem_append] at he
    rcases he with rfl | hch | hsib
    · simp only
      omega
    · have hbounds := ihc hch
      omega
    · have hbounds := ihs hsib
      omega

/-- the ids go up -/
theorem ascending_rowsFrom (idOf : Formula → Int) (fo : Forest Formula) (parent next : Int) :
    Ascending (fo.rowsFrom idOf parent next) := by
  induction fo generalizing parent next with
  | nil => exact List.Pairwise.nil
  | node c h v ch sib ihc ihs =>
    unfold Ascending
    rw [rowsFrom, List.pairwise_cons, List.pairwise_append]
    refine ⟨?_, ihc _ _, ihs _ _, ?_⟩
    · intro e he
      apply compareOfLessAndEq_eq_lt.mpr
      rcases List.mem_append.mp he with he | he
      · have hbounds := bounds_of_mem_rowsFrom he
        simp only
        omega
      · have hbounds := bounds_of_mem_rowsFrom he
        simp only
        omega
    · intro e he e' he'
      apply compareOfLessAndEq_eq_lt.mpr
      have hbefore := bounds_of_mem_rowsFrom he
      have hafter := bounds_of_mem_rowsFrom he'
      omega

end Forest

/-- the id of what replaces a formula -/
def RuleSource.idOf (source : RuleSource) (ids : CanonicalIds) (p : Formula) : Int :=
  ((source.canonicalOf p).bind fun c => ids[c.encode]?).getD noId

namespace NodeWriter

variable {source : RuleSource} {ids : CanonicalIds} {t : Trie Formula}

/-- the id of a parent is in the table, or the parent is the root -/
def ParentId (t : Trie Formula) (s : State) (parent : Handle) (id : Int) : Prop :=
  (parent = t.root ∧ id = noId) ∨ (parent ≠ t.root ∧ s.ids[parent]? = some id)

theorem ParentId.congr {s s' : State} {parent : Handle} {id : Int} (h : ParentId t s parent id)
    (hids : s'.ids[parent]? = s.ids[parent]?) : ParentId t s' parent id := by
  rcases h with hroot | ⟨hne, hid⟩
  · exact Or.inl hroot
  · exact Or.inr ⟨hne, hids.trans hid⟩

theorem parentId_eq {s : State} {parent : Handle} {id : Int} (h : ParentId t s parent id) {n : Node Formula} {c : Char}
    {depth : Nat} (ho : t.origins[n.handle]? = some (.child parent c depth)) : parentId t s n = .ok id := by
  have hparent : t.parent? n.handle = some parent := by unfold Trie.parent?; rw [ho]
  unfold parentId
  rw [hparent]
  rcases h with ⟨hroot, rfl⟩ | ⟨hroot, hid⟩
  · simp only [if_pos hroot]
  · simp only [if_neg hroot, hid]

/-- the state with the row of a node -/
def State.withRow (s : State) (h : Handle) (row : NodeRow) (isRule : Bool) : State :=
  { s with
    rows := s.rows.insert s.next row
    ids := s.ids.insert h s.next
    next := s.next + 1
    rules := if isRule then s.rules + 1 else s.rules }

theorem ids_withRow (s : State) {x h : Handle} (hlt : x < h) (row : NodeRow) (isRule : Bool) :
    (s.withRow h row isRule).ids[x]? = s.ids[x]? := by
  have hne : ¬compare h x = .eq := by
    intro heq
    exact Nat.ne_of_gt hlt (Std.LawfulEqOrd.eq_of_compare heq)
  rw [State.withRow, Std.ExtTreeMap.getElem?_insert, if_neg hne]

/-- a node that is written is in the table, and it is not the root -/
theorem ParentId.withRow {s : State} {h : Handle} (hroot : t.root < h) (row : NodeRow) (isRule : Bool) :
    ParentId t (s.withRow h row isRule) h s.next :=
  Or.inr ⟨Nat.ne_of_gt hroot, Std.ExtTreeMap.getElem?_insert_self⟩

/-- what is wrong with an entry, if something is -/
def fault? (source : RuleSource) (ids : CanonicalIds) (e : List Char × Formula) : Option Error :=
  match replacementId source ids e.1 e.2 with
  | .ok _ => none
  | .error x => some (.index x)

theorem replacementId_of_fault {key : List Char} {p : Formula} (h : fault? source ids (key, p) = none) :
    replacementId source ids key p = .ok (source.idOf ids p) := by
  unfold fault? replacementId at h
  unfold replacementId RuleSource.idOf
  split_ifs at h ⊢ with hdecode
  cases hc : source.canonicalOf p with
  | none => simp [hc] at h
  | some c =>
    cases hid : ids[c.encode]? with
    | none => simp [hc, hid] at h
    | some id => simp [hid]

theorem fault?_encode (source : RuleSource) (ids : CanonicalIds) (p : Formula) :
    fault? source ids (p.encode, p) =
      match source.canonicalOf p with
      | none => some (.index (.noRule p.encode))
      | some c =>
        match ids[c.encode]? with
        | none => some (.index (.missingCanonical c))
        | some _ => none := by
  have hdecode : (Formula.decode? p.encode).toOption = some p := by rw [Formula.decode_encode]; rfl
  unfold fault? replacementId
  rw [if_pos hdecode]
  cases hc : source.canonicalOf p with
  | none => rfl
  | some c => cases hid : ids[c.encode]? <;> simp only [hid]

theorem write_of_no_fault {s : State} {c : Char} {path : List Char} {n : Node Formula} {id : Int}
    (hparent : parentId t s n = .ok id)
    (hfault : (n.value.map fun p => ((c :: path).reverse, p)).toList.findSome? (fault? source ids) = none) :
    write source ids t (c :: path) n s =
      .ok (s.withRow n.handle ⟨[c], id, (n.value.map (source.idOf ids)).getD noId⟩ n.value.isSome) := by
  unfold write
  rw [hparent]
  cases hvalue : n.value with
  | none => rfl
  | some p =>
    rw [hvalue] at hfault
    have hid := replacementId_of_fault (List.findSome?_eq_none_iff.mp hfault _ (List.mem_singleton.mpr rfl))
    simp only [hid]
    rfl

theorem write_of_fault {s : State} {c : Char} {path : List Char} {n : Node Formula} {id : Int}
    (hparent : parentId t s n = .ok id) {p : Formula} (hvalue : n.value = some p) {e : Error}
    (hfault : fault? source ids ((c :: path).reverse, p) = some e) : write source ids t (c :: path) n s = .error e := by
  unfold fault? at hfault
  unfold write
  rw [hparent, hvalue]
  cases hid : replacementId source ids (c :: path).reverse p with
  | ok x =>
    rw [hid] at hfault
    cases hfault
  | error x =>
    rw [hid] at hfault
    cases hfault
    simp only [hid]
    rfl

/-! ## The walk -/

/-- after an error nothing is written -/
theorem walk_of_error {s : State} (herror : s.error.isSome = true) (fo : Forest Formula) (path : List Char) :
    fo.walk (visitor source ids t) path s = s := by
  cases fo with
  | nil => rfl
  | node c h v ch sib =>
    rw [Forest.walk]
    exact if_pos herror

theorem visitor_goes_on {s : State} (herror : s.error = none) : ¬(visitor source ids t).isComplete s = true := by
  show ¬s.error.isSome = true
  rw [herror]
  exact Bool.false_ne_true

/-- a node that is written is followed by the nodes below it and then by those beside it -/
theorem walk_of_write {c : Char} {h : Handle} {v : Option Formula} {ch : Forest Formula} {path : List Char}
    {s s₁ : State} (herror : s.error = none) (hwrite : write source ids t (c :: path) ⟨h, v, ch⟩ s = .ok s₁)
    (sib : Forest Formula) :
    (Forest.node c h v ch sib).walk (visitor source ids t) path s =
      sib.walk (visitor source ids t) path (ch.walk (visitor source ids t) (c :: path) s₁) := by
  have hvisit : (visitor source ids t).visit (c :: path) ⟨h, v, ch⟩ s = (true, s₁) := by
    simp only [visitor, hwrite]
  rw [Forest.walk, if_neg (visitor_goes_on herror), hvisit]
  rfl

/-- a node that is not written is followed by nothing -/
theorem walk_of_write_error {c : Char} {h : Handle} {v : Option Formula} {ch : Forest Formula} {path : List Char}
    {s : State} (herror : s.error = none) {e : Error} (hwrite : write source ids t (c :: path) ⟨h, v, ch⟩ s = .error e)
    (sib : Forest Formula) :
    (Forest.node c h v ch sib).walk (visitor source ids t) path s = { s with error := some e } := by
  have hvisit : (visitor source ids t).visit (c :: path) ⟨h, v, ch⟩ s = (false, { s with error := some e }) := by
    simp only [visitor, hwrite]
  rw [Forest.walk, if_neg (visitor_goes_on herror), hvisit]
  exact walk_of_error rfl sib path

/-- the first fault in the order of the entries ends the writing; the ids of the nodes above stay in the table -/
theorem walk_error {fo : Forest Formula} (path : List Char) {s : State} {parent : Handle} {depth : Nat} {id : Int}
    (hrecorded : fo.Recorded t.origins parent depth) (hroot : t.root ≤ parent) (hparent : ParentId t s parent id)
    (herror : s.error = none) :
    (fo.walk (visitor source ids t) path s).error = (fo.entriesFrom path).findSome? (fault? source ids) ∧
      ∀ x : Handle, x ≤ parent → (fo.walk (visitor source ids t) path s).ids[x]? = s.ids[x]? := by
  induction fo generalizing path s parent depth id with
  | nil => exact ⟨herror, fun _ _ => rfl⟩
  | node c h v ch sib ihc ihs =>
    obtain ⟨horigin, hlt, hch, hsib⟩ := hrecorded
    have hrooth : t.root < h := Nat.lt_of_le_of_lt hroot hlt
    have hparentId := parentId_eq (n := ⟨h, v, ch⟩) hparent horigin
    rw [Forest.entriesFrom, List.findSome?_append, List.findSome?_append]
    cases hown : (v.map fun p => ((c :: path).reverse, p)).toList.findSome? (fault? source ids) with
    | some e =>
      obtain ⟨entry, hentry, hfault⟩ := List.exists_of_findSome?_eq_some hown
      obtain ⟨p, hp, rfl⟩ := Option.map_eq_some_iff.mp (Option.mem_toList.mp hentry)
      rw [walk_of_write_error herror (write_of_fault hparentId hp hfault)]
      exact ⟨rfl, fun _ _ => rfl⟩
    | none =>
      rw [walk_of_write herror (write_of_no_fault hparentId hown), Option.none_or]
      have hnode := ParentId.withRow (s := s) hrooth ⟨[c], id, (v.map (source.idOf ids)).getD noId⟩ v.isSome
      obtain ⟨hbelow, habove⟩ := ihc (c :: path) hch (Nat.le_of_lt hrooth) hnode herror
      have hids : ∀ x : Handle, x ≤ parent → _ := fun x hx =>
        (habove x (Nat.le_of_lt (Nat.lt_of_le_of_lt hx hlt))).trans (ids_withRow s (Nat.lt_of_le_of_lt hx hlt) _ _)
      cases hfirst : (ch.entriesFrom (c :: path)).findSome? (fault? source ids) with
      | some e =>
        rw [hfirst] at hbelow
        rw [walk_of_error (by rw [hbelow]; rfl)]
        exact ⟨hbelow, hids⟩
      | none =>
        rw [hfirst] at hbelow
        -- nodes below `h` have handles above it, so the id of `parent` is still in the table
        obtain ⟨hrest, hbeside⟩ := ihs path hsib hroot (hparent.congr (hids parent (Nat.le_refl _))) hbelow
        exact ⟨hrest, fun x hx => (hbeside x hx).trans (hids x hx)⟩

/-- what the writer does to its state over a forest below a node of the id `id` -/
structure Wrote (source : RuleSource) (ids : CanonicalIds) (fo : Forest Formula) (path : List Char) (id : Int)
    (s s' : State) : Prop where
  next : s'.next = s.next + fo.nodeCount
  rules : s'.rules = s.rules + (fo.entriesFrom path).length
  rows : s'.rows = s.rows.insertMany (fo.rowsFrom (source.idOf ids) id s.next)
  /-- the table has the nodes of the forest now -/
  known : ∀ x : Handle, x ∈ s'.ids ↔ x ∈ s.ids ∨ x ∈ fo.nodes.map fun n => n.handle

theorem Wrote.node {c : Char} {h : Handle} {v : Option Formula} {ch sib : Forest Formula} {path : List Char} {id : Int}
    {s s₂ s₃ : State} (hbelow : Wrote source ids ch (c :: path) s.next
      (s.withRow h ⟨[c], id, (v.map (source.idOf ids)).getD noId⟩ v.isSome) s₂)
    (hrest : Wrote source ids sib path id s₂ s₃) : Wrote source ids (.node c h v ch sib) path id s s₃ := by
  have hnext : s₂.next = s.next + 1 + ch.nodeCount := hbelow.next
  refine ⟨?_, ?_, ?_, ?_⟩
  · rw [hrest.next, hnext, Forest.nodeCount]
    omega
  · have hown : (s.withRow h ⟨[c], id, (v.map (source.idOf ids)).getD noId⟩ v.isSome).rules =
        s.rules + (v.map fun a => ((c :: path).reverse, a)).toList.length := by
      cases v <;> rfl
    rw [hrest.rules, hbelow.rules, hown, Forest.entriesFrom, List.length_append, List.length_append]
    omega
  · rw [hrest.rows, hbelow.rows, hnext, Forest.rowsFrom, Std.ExtTreeMap.insertMany_cons,
      Std.ExtTreeMap.insertMany_append]
    rfl
  · intro x
    have hown : x ∈ (s.withRow h ⟨[c], id, (v.map (source.idOf ids)).getD noId⟩ v.isSome).ids ↔ x = h ∨ x ∈ s.ids := by
      rw [State.withRow, Std.ExtTreeMap.mem_insert, Std.LawfulEqOrd.compare_eq_iff_eq, eq_comm]
    rw [hrest.known, hbelow.known, hown, Forest.nodes, List.map_cons, List.map_append, List.mem_cons, List.mem_append]
    grind

/-- over a forest without a fault the writer writes the rows of the forest -/
theorem walk_visitor {fo : Forest Formula} {path : List Char} {s : State} {parent : Handle} {depth : Nat} {id : Int}
    (hfault : (fo.entriesFrom path).findSome? (fault? source ids) = none)
    (hrecorded : fo.Recorded t.origins parent depth) (hroot : t.root ≤ parent) (hparent : ParentId t s parent id)
    (herror : s.error = none) : Wrote source ids fo path id s (fo.walk (visitor source ids t) path s) := by
  induction fo generalizing path s parent depth id with
  | nil =>
    refine ⟨?_, rfl, rfl, ?_⟩
    · simp [Forest.walk, Forest.nodeCount]
    · simp [Forest.walk, Forest.nodes]
  | node c h v ch sib ihc ihs =>
    obtain ⟨horigin, hlt, hch, hsib⟩ := hrecorded
    have hrooth : t.root < h := Nat.lt_of_le_of_lt hroot hlt
    rw [Forest.entriesFrom, List.findSome?_append, List.findSome?_append, Option.or_eq_none_iff,
      Option.or_eq_none_iff] at hfault
    obtain ⟨hown, hfaultch, hfaultsib⟩ := hfault
    rw [walk_of_write herror (write_of_no_fault (parentId_eq (n := ⟨h, v, ch⟩) hparent horigin) hown)]
    have hnode := ParentId.withRow (s := s) hrooth ⟨[c], id, (v.map (source.idOf ids)).getD noId⟩ v.isSome
    obtain ⟨hbelow, habove⟩ := walk_error (c :: path) hch (Nat.le_of_lt hrooth) hnode herror
    have hparent₂ := hparent.congr ((habove parent (Nat.le_of_lt hlt)).trans (ids_withRow s hlt _ _))
    exact Wrote.node (ihc hfaultch hch (Nat.le_of_lt hrooth) hnode herror)
      (ihs hfaultsib hsib hroot hparent₂ (hbelow.trans hfaultch))

/-- at the end each node has an id -/
theorem Wrote.size_ids {s : State} (hwf : t.WellFormed) {path : List Char} {id : Int}
    (h : Wrote source ids t.forest path id start s) : s.ids.size = t.forest.nodeCount := by
  have hnodup : (t.forest.nodes.map fun n => n.handle).Nodup := (List.nodup_cons.mp (Trie.nodup_handles hwf)).2
  have hperm : s.ids.keys.Perm (t.forest.nodes.map fun n => n.handle) := by
    rw [List.perm_ext_iff_of_nodup Std.ExtTreeMap.nodup_keys hnodup]
    intro x
    rw [Std.ExtTreeMap.mem_keys, h.known]
    simp [start]
  rw [← Std.ExtTreeMap.length_keys, hperm.length_eq, List.length_map, Forest.length_nodes]

end NodeWriter

/-! ## Compilation -/

namespace RuleSource

def canonicalIds (source : RuleSource) : CanonicalIds := .assign (source.canonical.map Formula.encode)

variable {source : RuleSource} {r : Recognizer}

theorem compileInto_eq (hadd : Recognizer.empty.addAll source.patterns = .ok r) :
    source.compileInto none = (source.compileNodes source.canonicalIds r).bind fun written =>
      .ok (⟨.ofList source.canonicalIds.rows, written.rows⟩,
        ⟨source.canonicalIds.size, written.ids.size, written.rules⟩) := by
  unfold compileInto
  rw [hadd]
  rfl

theorem error_of_walk (hr : r.Holds source.patterns) :
    (r.trie.accept (NodeWriter.visitor source source.canonicalIds r.trie) NodeWriter.start).error =
      r.trie.entries.findSome? (NodeWriter.fault? source source.canonicalIds) := by
  rw [Trie.accept_eq_walk]
  exact (NodeWriter.walk_error [] hr.wellFormed.recorded (Nat.le_refl _) (Or.inl ⟨rfl, rfl⟩) rfl).1

theorem mem_canonicalIds {f : Formula} :
    (∃ id, source.canonicalIds[f.encode]? = some id) ↔ f ∈ source.canonical := by
  unfold canonicalIds
  rw [CanonicalIds.mem_assign, List.mem_map]
  refine ⟨?_, ?_⟩
  · intro h
    obtain ⟨g, hg, henc⟩ := h
    rw [← Formula.encode_injective henc]
    exact hg
  · intro hf
    exact ⟨f, hf, rfl⟩

/-- a pattern without a fault: the source says what replaces it, and lists that as canonical -/
def Replaces (source : RuleSource) (p : Formula) : Prop := ∃ c ∈ source.canonical, source.canonicalOf p = some c

/-- what is said of a pattern that the source does not replace -/
def refusal (source : RuleSource) (p : Formula) : IndexError :=
  match source.canonicalOf p with
  | none => .noRule p.encode
  | some c => .missingCanonical c

theorem idOf_of_replaces {p : Formula} (h : source.Replaces p) :
    ∃ c, source.canonicalOf p = some c ∧
      source.canonicalIds[c.encode]? = some (source.idOf source.canonicalIds p) := by
  obtain ⟨c, hmem, hc⟩ := h
  obtain ⟨id, hid⟩ := mem_canonicalIds.mpr hmem
  refine ⟨c, hc, ?_⟩
  unfold idOf
  rw [hc, Option.bind_some, hid]
  rfl

theorem fault?_of_replaces {p : Formula} (h : source.Replaces p) :
    NodeWriter.fault? source source.canonicalIds (p.encode, p) = none := by
  obtain ⟨c, hc, hid⟩ := idOf_of_replaces h
  rw [NodeWriter.fault?_encode]
  simp only [hc, hid]

theorem fault?_of_not_replaces {p : Formula} (h : ¬source.Replaces p) :
    NodeWriter.fault? source source.canonicalIds (p.encode, p) = some (.index (source.refusal p)) := by
  rw [NodeWriter.fault?_encode]
  unfold refusal
  cases hc : source.canonicalOf p with
  | none => rfl
  | some c =>
    cases hid : source.canonicalIds[c.encode]? with
    | none => simp only [hid]
    | some id => exact absurd ⟨c, mem_canonicalIds.mp ⟨id, hid⟩, hc⟩ h

theorem findSome?_fault_eq_none (hr : r.Holds source.patterns) :
    r.trie.entries.findSome? (NodeWriter.fault? source source.canonicalIds) = none ↔
      ∀ p ∈ source.patterns, source.Replaces p := by
  rw [List.findSome?_eq_none_iff]
  refine ⟨?_, ?_⟩
  · intro hnone p hp
    by_contra hnot
    have hfault := hnone (p.encode, p) ((Recognizer.mem_entries hr _).mpr ⟨hp, rfl⟩)
    rw [fault?_of_not_replaces hnot] at hfault
    cases hfault
  · intro hall e he
    obtain ⟨hmem, hkey⟩ := (Recognizer.mem_entries hr e).mp he
    have hnone := fault?_of_replaces (hall e.2 hmem)
    rwa [hkey] at hnone

/-- the first fault in the patterns of a source ends the writing of its node rows -/
theorem compileNodes_of_fault (hr : r.Holds source.patterns) {e : Error}
    (hfault : r.trie.entries.findSome? (NodeWriter.fault? source source.canonicalIds) = some e) :
    source.compileNodes source.canonicalIds r = .error e := by
  unfold compileNodes
  simp only [error_of_walk hr, hfault]

theorem compileNodes_of_replaces (hr : r.Holds source.patterns) (hreplaces : ∀ p ∈ source.patterns, source.Replaces p) :
    source.compileNodes source.canonicalIds r =
      .ok (r.trie.accept (NodeWriter.visitor source source.canonicalIds r.trie) NodeWriter.start) := by
  unfold compileNodes
  simp only [error_of_walk hr, (findSome?_fault_eq_none hr).mpr hreplaces]

/-- a source without a fault is compiled into the rows of its patterns -/
theorem compileInto_none (hadd : Recognizer.empty.addAll source.patterns = .ok r) (hr : r.Holds source.patterns)
    (hreplaces : ∀ p ∈ source.patterns, source.Replaces p) :
    ∃ i, source.compileInto none =
        .ok (i, ⟨source.canonicalIds.size, r.trie.forest.nodeCount, r.trie.entries.length⟩) ∧
      i.canonicalRows = source.canonicalIds.rows ∧
      i.nodeRows = r.trie.forest.rowsFrom (source.idOf source.canonicalIds) noId 1 := by
  have hfault := (findSome?_fault_eq_none hr).mpr hreplaces
  obtain ⟨written, hwritten⟩ : ∃ written, written =
    r.trie.accept (NodeWriter.visitor source source.canonicalIds r.trie) NodeWriter.start := ⟨_, rfl⟩
  have hwrote := NodeWriter.walk_visitor (s := NodeWriter.start) hfault hr.wellFormed.recorded (Nat.le_refl _)
    (Or.inl ⟨rfl, rfl⟩) rfl
  rw [← Trie.accept_eq_walk, ← hwritten] at hwrote
  have hnodes : source.compileNodes source.canonicalIds r = .ok written := by
    rw [compileNodes_of_replaces hr hreplaces, hwritten]
  have hrules : written.rules = r.trie.entries.length := by
    rw [hwrote.rules]
    exact Nat.zero_add _
  refine ⟨⟨.ofList source.canonicalIds.rows, written.rows⟩, ?_, ?_, ?_⟩
  · rw [compileInto_eq hadd, hnodes, ← hwrote.size_ids hr.wellFormed, ← hrules]
    rfl
  · exact CanonicalIds.canonicalRows_rows (source.canonical.map Formula.encode) written.rows
  · have hrows : written.rows = .ofList (r.trie.forest.rowsFrom (source.idOf source.canonicalIds) noId 1) := by
      rw [hwrote.rows, Std.ExtTreeMap.ofList_eq_insertMany_empty]
      rfl
    unfold Index.nodeRows
    rw [hrows]
    exact (Forest.ascending_rowsFrom _ _ _ _).toList_ofList

end RuleSource

end ClauseFold
