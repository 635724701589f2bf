/-
A rule set compiled into an index and read back. The reader goes over the rows that the writer made, and spells again the
keys that the rows were written for; so the rules and canonical formulas that come out are those that went in.

Results:
- `readCanonicals`: the canonical rows of formulas read as these formulas;
- `spell_rowsFrom`: the node rows of a forest spell its entries;
- `compileInto_represents`: the index of a rule set is written and read without an error, and what is read represents the
  set.
-/
import Mathlib.Data.Set.List
import ClauseFold.Proofs.Index.Rows
import ClauseFold.Proofs.Repository.Represents

namespace ClauseFold

theorem Formula.read?_encode (f : Formula) : read? f.encode = .ok f := by
  unfold read?
  rw [decode_encode]
  rfl

namespace IndexReader

/-- the canonical rows of formulas read as these formulas -/
theorem readCanonicals (formulas : List (Int × Formula)) (c : Canonical) :
    (formulas.map fun p => (p.1, p.2.encode)).foldlM readCanonical c =
      .ok ⟨c.byId.insertMany formulas, c.byEncoding.insertMany (formulas.map fun p => (p.2.encode, p.2))⟩ := by
  induction formulas generalizing c with
  | nil => rfl
  | cons p formulas ih =>
    have hread : readCanonical c (p.1, p.2.encode) =
        .ok ⟨c.byId.insert p.1 p.2, c.byEncoding.insert p.2.encode p.2⟩ := by
      unfold readCanonical
      rw [Formula.read?_encode]
      rfl
    rw [List.map_cons, List.foldlM_cons, hread]
    show (formulas.map fun p => (p.1, p.2.encode)).foldlM readCanonical _ = _
    rw [ih, List.map_cons, Std.ExtTreeMap.insertMany_cons, Std.ExtTreeMap.insertMany_cons]

/-- the key that belongs to the id of a parent -/
def ParentKey (a : Spelling) (parent : Int) (key : List Char) : Prop :=
  (parent = noId ∧ key = []) ∨ (parent ≠ noId ∧ a.keys[parent]? = some key)

theorem ParentKey.congr {a a' : Spelling} {parent : Int} {key : List Char} (h : ParentKey a parent key)
    (hkeys : a'.keys[parent]? = a.keys[parent]?) : ParentKey a' parent key := by
  rcases h with hroot | ⟨hne, hkey⟩
  · exact Or.inl hroot
  · exact Or.inr ⟨hne, hkeys.trans hkey⟩

theorem parentKey_eq {a : Spelling} {id : Int} {row : NodeRow} {key : List Char} (h : ParentKey a row.parent key) :
    parentKey a id row = .ok key := by
  unfold parentKey
  rcases h with ⟨hroot, rfl⟩ | ⟨hroot, hkey⟩
  · rw [if_pos hroot]
  · rw [if_neg hroot, hkey]

section

variable {canonical : Std.ExtTreeMap Int Formula} {idOf : Formula → Int} {replacement : Formula → Formula}

/-- an entry that can be written and read back: its key is the encoding, and its id that of what replaces it -/
def Readable (canonical : Std.ExtTreeMap Int Formula) (idOf : Formula → Int) (replacement : Formula → Formula)
    (e : List Char × Formula) : Prop :=
  e.2.encode = e.1 ∧ idOf e.2 ≠ noId ∧ canonical[idOf e.2]? = some (replacement e.2)

/-- an entry with what replaces its formula, as an entry of a rule -/
def ruleEntry (replacement : Formula → Formula) (e : List Char × Formula) : List Char × Rule :=
  (e.1, ⟨e.2, replacement e.2⟩)

/-- what is said with one row more, which is that of a node at `key` -/
def Spelling.withRow (replacement : Formula → Formula) (a : Spelling) (id : Int) (key : List Char) (v : Option Formula) :
    Spelling :=
  ⟨a.keys.insert id key, a.rules.insertMany ((v.map fun p => (key, p)).toList.map (ruleEntry replacement))⟩

theorem keys_withRow (a : Spelling) {id next : Int} (hlt : id < next) (key : List Char) (v : Option Formula) :
    (a.withRow replacement next key v).keys[id]? = a.keys[id]? := by
  have hne : ¬compare next id = .eq := by
    intro heq
    exact absurd (Std.LawfulEqOrd.eq_of_compare heq) (Int.ne_of_gt hlt)
  rw [Spelling.withRow, Std.ExtTreeMap.getElem?_insert, if_neg hne]

/-- a row spells the key of its node, and adds the rule that ends there -/
theorem spell_row {a : Spelling} {parent next : Int} {path : List Char} (hparent : ParentKey a parent path.reverse)
    (c : Char) {v : Option Formula}
    (hv : ∀ p, v = some p → Readable canonical idOf replacement ((c :: path).reverse, p)) :
    spell canonical a (next, ⟨[c], parent, (v.map idOf).getD noId⟩) =
      .ok (a.withRow replacement next (c :: path).reverse v) := by
  have hkey : parentKey a next ⟨[c], parent, (v.map idOf).getD noId⟩ = .ok path.reverse := parentKey_eq hparent
  unfold spell spellKey
  simp only [hkey]
  rw [List.reverse_cons] at hv ⊢
  cases v with
  | none => rfl
  | some p =>
    obtain ⟨hencode, hid, hcanonical⟩ := hv p rfl
    simp only at hencode hid hcanonical
    show spellRule canonical _ (path.reverse ++ [c]) next ⟨[c], parent, idOf p⟩ = _
    unfold spellRule
    rw [if_neg hid, hcanonical, ← hencode]
    simp only [Formula.read?_encode]
    rfl

/-- what the node rows of a forest add, whose ids begin at `next` -/
structure Spelled (replacement : Formula → Formula) (fo : Forest Formula) (path : List Char) (next : Int)
    (a a' : Spelling) : Prop where
  /-- the keys of ids that were given before are still there -/
  before : ∀ id, id < next → a'.keys[id]? = a.keys[id]?
  rules : a'.rules = a.rules.insertMany ((fo.entriesFrom path).map (ruleEntry replacement))

theorem Spelled.node {c : Char} {h : Handle} {v : Option Formula} {ch sib : Forest Formula} {path : List Char}
    {next : Int} {a a₂ a₃ : Spelling}
    (hbelow : Spelled replacement ch (c :: path) (next + 1) (a.withRow replacement next (c :: path).reverse v) a₂)
    (hrest : Spelled replacement sib path (next + 1 + ch.nodeCount) a₂ a₃) :
    Spelled replacement (.node c h v ch sib) path next a a₃ := by
  refine ⟨?_, ?_⟩
  · intro id hid
    rw [hrest.before id (by omega), hbelow.before id (by omega), keys_withRow a hid]
  · rw [hrest.rules, hbelow.rules, Forest.entriesFrom, List.map_append, List.map_append,
      Std.ExtTreeMap.insertMany_append, Std.ExtTreeMap.insertMany_append]
    rfl

/-- the node rows of a forest spell its entries -/
theorem spell_rowsFrom {fo : Forest Formula} {path : List Char}
    (hentries : ∀ e ∈ fo.entriesFrom path, Readable canonical idOf replacement e) {a : Spelling} {parent next : Int}
    (hparent : ParentKey a parent path.reverse) (hlt : parent < next) (hpos : 0 < next) :
    ∃ a', (fo.rowsFrom idOf parent next).foldlM (spell canonical) a = .ok a' ∧
      Spelled replacement fo path next a a' := by
  induction fo generalizing path a parent next with
  | nil => exact ⟨a, rfl, fun _ _ => rfl, rfl⟩
  | node c h v ch sib ihc ihs =>
    rw [Forest.entriesFrom] at hentries
    have hrow : spell canonical a (next, ⟨[c], parent, (v.map idOf).getD noId⟩) =
        .ok (a.withRow replacement next (c :: path).reverse v) := by
      apply spell_row hparent
      intro p hp
      subst hp
      exact hentries ((c :: path).reverse, p) (List.mem_append_left _ (by simp))
    have hnode : ParentKey (a.withRow replacement next (c :: path).reverse v) next (c :: path).reverse :=
      Or.inr ⟨Int.ne_of_gt hpos, Std.ExtTreeMap.getElem?_insert_self⟩
    obtain ⟨a₂, hread₂, hbelow⟩ :=
      ihc (fun e he => hentries e (List.mem_append_right _ (List.mem_append_left _ he))) hnode (Int.lt_succ next)
        (by omega)
    -- the rows below have ids from `next` on, and `parent` is less
    have hparent₂ := hparent.congr ((hbelow.before parent (by omega)).trans (keys_withRow a hlt _ _))
    obtain ⟨a₃, hread₃, hrest⟩ :=
      ihs (fun e he => hentries e (List.mem_append_right _ (List.mem_append_right _ he))) hparent₂
        (show parent < next + 1 + ch.nodeCount by omega) (by omega)
    refine ⟨a₃, ?_, hbelow.node hrest⟩
    rw [Forest.rowsFrom, List.foldlM_cons, hrow]
    show (ch.rowsFrom idOf next (next + 1) ++ _).foldlM (spell canonical) _ = _
    rw [List.foldlM_append, hread₂]
    exact hread₃

end

end IndexReader

/-! ## Rule sets -/

namespace RuleSet

variable {s : RuleSet}

theorem mem_canonicalIds (hs : s.Closed) {f : Formula} :
    (∃ id, s.source.canonicalIds[f.encode]? = some id) ↔ s.canonical[f.encode]? = some f := by
  rw [RuleSource.mem_canonicalIds, ← mem_canonicalFormulas hs]
  rfl

/-- what replaces a pattern, and the formula itself where it is no pattern -/
def replacementOf (s : RuleSet) (p : Formula) : Formula := (s.canonicalOf p).getD p

theorem replaced_of_mem_patterns (hs : s.Closed) {p : Formula} (hp : p ∈ s.patterns) :
    s.rules[p.encode]? = some ⟨p, s.replacementOf p⟩ ∧ s.canonicalOf p = some (s.replacementOf p) ∧
      s.replacementOf p ∈ s.canonicalFormulas := by
  obtain ⟨r, hr, rfl⟩ := (mem_patterns hs.keyed).mp hp
  have hof : s.canonicalOf r.pattern = some r.canonical := by
    unfold canonicalOf
    rw [hr]
    rfl
  have hreplacement : s.replacementOf r.pattern = r.canonical := by
    unfold replacementOf
    rw [hof]
    rfl
  rw [hreplacement]
  exact ⟨hr, hof, (mem_canonicalFormulas hs).mpr (hs.replaced hr)⟩

theorem replaces_of_mem_patterns (hs : s.Closed) {p : Formula} (hp : p ∈ s.patterns) : s.source.Replaces p := by
  obtain ⟨-, hof, hmem⟩ := replaced_of_mem_patterns hs hp
  exact ⟨_, hmem, hof⟩

/-- the canonical rows are the encodings of canonical formulas -/
theorem exists_formulas (s : RuleSet) : ∃ formulas : List (Int × Formula),
    (formulas.map fun p => (p.1, p.2.encode)) = s.source.canonicalIds.rows ∧
      ∀ id f, (id, f) ∈ formulas ↔ s.source.canonicalIds[f.encode]? = some id := by
  have hencoded : ∀ row ∈ s.source.canonicalIds.rows, row ∈ Set.range fun p : Int × Formula => (p.1, p.2.encode) := by
    intro row hrow
    rcases row with ⟨id, encoding⟩
    obtain ⟨f, -, rfl⟩ := List.mem_map.mp (CanonicalIds.mem_assign.mp ⟨id, CanonicalIds.mem_rows.mp hrow⟩)
    exact ⟨(id, f), rfl⟩
  have hrange : s.source.canonicalIds.rows ∈ Set.range (List.map fun p : Int × Formula => (p.1, p.2.encode)) := by
    rw [Set.range_list_map]
    exact hencoded
  obtain ⟨formulas, hformulas⟩ := hrange
  refine ⟨formulas, hformulas, ?_⟩
  intro id f
  rw [← CanonicalIds.mem_rows, ← hformulas, List.mem_map]
  refine ⟨?_, ?_⟩
  · intro h
    exact ⟨(id, f), h, rfl⟩
  · intro h
    rcases h with ⟨⟨id', f'⟩, hmem, heq⟩
    rw [Prod.mk.injEq] at heq
    rcases heq with ⟨rfl, henc⟩
    rw [← Formula.encode_injective henc]
    exact hmem

/-- the rows of the canonical formulas read as the canonical formulas -/
theorem readCanonicals_rows (hs : s.Closed) :
    ∃ c, s.source.canonicalIds.rows.foldlM IndexReader.readCanonical ⟨∅, ∅⟩ = .ok c ∧ c.byEncoding = s.canonical ∧
      ∀ (id : Int) (f : Formula), c.byId[id]? = some f ↔ s.source.canonicalIds[f.encode]? = some id := by
  obtain ⟨formulas, hformulas, hmem⟩ := exists_formulas s
  have hids : formulas.Pairwise fun a b => ¬compare a.1 b.1 = .eq := by
    have hdescending : s.source.canonicalIds.rows.Pairwise fun a b => b.1 < a.1 :=
      CanonicalIds.descending_rows_assign (s.canonicalFormulas.map Formula.encode)
    rw [← hformulas, List.pairwise_map] at hdescending
    apply hdescending.imp
    intro a b hlt heq
    exact absurd (Std.LawfulEqOrd.eq_of_compare heq) (Int.ne_of_gt hlt)
  have hencodings : Ascending (formulas.map fun p => (p.2.encode, p.2)) := by
    have hordered := CanonicalIds.ordered_rows s.source.canonicalIds
    rw [← hformulas, List.pairwise_map] at hordered
    unfold Ascending
    rw [List.pairwise_map]
    exact hordered
  have hread := IndexReader.readCanonicals formulas ⟨∅, ∅⟩
  rw [hformulas, ← Std.ExtTreeMap.ofList_eq_insertMany_empty, ← Std.ExtTreeMap.ofList_eq_insertMany_empty] at hread
  refine ⟨_, hread, ?_, ?_⟩
  · apply Std.ExtTreeMap.ext_getElem?
    intro key
    apply Option.ext
    intro f
    rw [hencodings.mem_ofList, List.mem_map]
    refine ⟨?_, ?_⟩
    · intro h
      rcases h with ⟨⟨id, g⟩, hg, heq⟩
      cases heq
      exact (mem_canonicalIds hs).mp ⟨id, (hmem id g).mp hg⟩
    · intro hf
      have hkey := hs.canonical_key hf
      obtain ⟨id, hid⟩ := (mem_canonicalIds hs).mpr (by rw [hkey]; exact hf)
      exact ⟨(id, f), (hmem id f).mpr hid, by rw [hkey]⟩
  · intro id f
    rw [getElem?_ofList_of_distinct hids, hmem]

/-- a trie that holds the patterns has the rules, each pattern with what replaces it -/
theorem ofList_entries (hs : s.Closed) {r : Recognizer} (hr : r.Holds s.patterns) :
    Std.ExtTreeMap.ofList (r.trie.entries.map (IndexReader.ruleEntry s.replacementOf)) compare = s.rules := by
  have hascending : Ascending (r.trie.entries.map (IndexReader.ruleEntry s.replacementOf)) := by
    unfold Ascending
    rw [List.pairwise_map]
    exact Trie.ascending_entries hr.wellFormed
  apply Std.ExtTreeMap.ext_getElem?
  intro key
  apply Option.ext
  intro rule
  rw [hascending.mem_ofList, List.mem_map]
  refine ⟨?_, ?_⟩
  · intro h
    rcases h with ⟨e, he, heq⟩
    obtain ⟨hmem, hkey⟩ := (Recognizer.mem_entries hr e).mp he
    obtain ⟨hrule, -, -⟩ := replaced_of_mem_patterns hs hmem
    cases heq
    rw [← hkey, hrule]
  · intro hrule
    have hkey := hs.rule_key hrule
    have hmem : rule.pattern ∈ s.patterns := (mem_patterns hs.keyed).mpr ⟨rule, by rw [hkey]; exact hrule, rfl⟩
    obtain ⟨hown, -, -⟩ := replaced_of_mem_patterns hs hmem
    rw [hkey, hrule, Option.some.injEq] at hown
    exact ⟨(key, rule.pattern), (Recognizer.mem_entries hr _).mpr ⟨hmem, hkey⟩, by rw [IndexReader.ruleEntry, ← hown]⟩

end RuleSet

namespace Repository

/-- an index of closed rules is written and read without an error, and what is read represents the rules -/
theorem compileInto_represents_of_closed {s : RuleSet} (hs : s.Closed) (m : Matching) :
    ∃ i summary repo, s.source.compileInto none = .ok (i, summary) ∧ ofIndex i m = .ok repo ∧ repo.Represents s m := by
  obtain ⟨r, hadd, hr⟩ := Recognizer.addAll_empty s.source.patterns
  obtain ⟨i, hcompile, hcanonicalRows, hnodeRows⟩ :=
    RuleSource.compileInto_none hadd hr fun p => RuleSet.replaces_of_mem_patterns hs
  obtain ⟨c, hcanonical, hbyEncoding, hbyId⟩ := RuleSet.readCanonicals_rows hs
  have hreadable : ∀ e ∈ r.trie.forest.entriesFrom [],
      IndexReader.Readable c.byId (s.source.idOf s.source.canonicalIds) s.replacementOf e := by
    intro e he
    obtain ⟨hmem, hkey⟩ := (Recognizer.mem_entries hr e).mp he
    obtain ⟨-, hof, -⟩ := RuleSet.replaced_of_mem_patterns hs hmem
    obtain ⟨c', hc', hid⟩ := RuleSource.idOf_of_replaces (RuleSet.replaces_of_mem_patterns hs hmem)
    cases hof.symm.trans hc'
    exact ⟨hkey, Int.ne_of_lt (CanonicalIds.neg_of_getElem?_assign hid), (hbyId _ _).mpr hid⟩
  have hroot : IndexReader.ParentKey .empty noId ([] : List Char).reverse := Or.inl ⟨rfl, rfl⟩
  obtain ⟨a, hspell, hspelled⟩ := IndexReader.spell_rowsFrom hreadable hroot (show noId < 1 by decide) (by decide)
  have hsame : a.rules = s.rules := by
    rw [hspelled.rules, ← RuleSet.ofList_entries hs hr, Std.ExtTreeMap.ofList_eq_insertMany_empty]
    rfl
  have hset : (⟨a.rules, c.byEncoding⟩ : RuleSet) = s := by rw [hsame, hbyEncoding]
  obtain ⟨repo, hread, hrepresents⟩ := ofIndex_represents (hcanonicalRows ▸ hcanonical) (hnodeRows ▸ hspell)
    (by rw [hset]; exact hs.keyed) m
  rw [hset] at hrepresents
  exact ⟨i, _, repo, hcompile, hread, hrepresents⟩

/-- the index of a rule set is written and read without an error, and what is read represents the set -/
theorem compileInto_represents {s : RuleSet} (hs : s.WellFormed) (m : Matching) :
    ∃ i summary repo, s.source.compileInto none = .ok (i, summary) ∧ ofIndex i m = .ok repo ∧ repo.Represents s m :=
  compileInto_represents_of_closed hs.closed m

end Repository

end ClauseFold
