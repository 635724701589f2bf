/-
Which rows can be read, and what they say. Rows come from anywhere: rows that are their own parent, ids that lead nowhere or
to a later row, several rows for one node, texts of any kind. `Coherent` tells, without a reader, which rows fit together,
where `Chain` goes up the parents of a row and spells a key on the way. A reader goes over the rows once and asks of each
row only what it knows by then; so it has to be seen that it knows what the rows say.

Results:
- `FirstFault.unique`, `FirstFault.not_coherent`: rows have one first fault at most, and none if they are coherent;
- `readCanonical_step`, `spell_step`: a row is read if it fits, and otherwise it is refused for what is wrong with it first;
- `ofIndex_cases`: rows are refused for their first fault, or they are coherent and read for what they say;
- `ofIndex_decides`: which rows make a repository, which error the others give, and what is known of each formula.
-/
import ClauseFold.Proofs.Repository.Recompilation

namespace ClauseFold

namespace Index

/-- the row of an id spells a key, by the symbols from the root along its parents down to it -/
inductive Chain (i : Index) : Int → List Char → Prop where
  | top {id canonical : Int} {c : Char} (row : (id, ⟨[c], noId, canonical⟩) ∈ i.nodeRows) : Chain i id [c]
  | under {id parent canonical : Int} {c : Char} {key : List Char} (row : (id, ⟨[c], parent, canonical⟩) ∈ i.nodeRows)
      (inner : parent ≠ noId) (above : Chain i parent key) : Chain i id (key ++ [c])

/-- the parent of a row is the root, or there is a row of a lesser id for it -/
def Placed (i : Index) (id : Int) (row : NodeRow) : Prop := row.parent = noId ∨ row.parent < id ∧ row.parent ∈ i.nodes

/-- nothing is wrong with a node row -/
structure Fits (i : Index) (id : Int) (row : NodeRow) : Prop where
  symbol : ∃ c, row.symbol = [c]
  parent : i.Placed id row
  canonical : row.canonical = noId ∨ row.canonical ∈ i.canonical
  pattern : row.canonical ≠ noId → ∃ f : Formula, i.Chain id f.encode

/-- rows that fit together -/
structure Coherent (i : Index) : Prop where
  canonical : ∀ r ∈ i.canonicalRows, ∃ f : Formula, f.encode = r.2
  nodes : ∀ r ∈ i.nodeRows, i.Fits r.1 r.2

/-- what is wrong with a node row first: its symbol, its parent, its canonical row, or the key that it spells -/
inductive NodeFault (i : Index) (id : Int) (row : NodeRow) : Error → Prop where
  | symbol (not_single : ∀ c, row.symbol ≠ [c]) : NodeFault i id row (.index (.symbol id))
  | orphan {c : Char} (symbol : row.symbol = [c]) (not_placed : ¬i.Placed id row) :
      NodeFault i id row (.index (.orphan id row.parent))
  | canonical {c : Char} (symbol : row.symbol = [c]) (placed : i.Placed id row) (named : row.canonical ≠ noId)
      (missing : row.canonical ∉ i.canonical) : NodeFault i id row (.index (.unknownCanonicalId id row.canonical))
  | pattern {c : Char} {key : List Char} {d : DecodeError} (symbol : row.symbol = [c]) (placed : i.Placed id row)
      (named : row.canonical ≠ noId) (present : row.canonical ∈ i.canonical) (chain : i.Chain id key)
      (undecodable : Formula.decode? key = .error d) : NodeFault i id row (.read (.decode d))

/-- what is wrong with the first row that is wrong: of the canonical rows the one of the greatest id, and if these are all
right, of the node rows the one of the least id -/
inductive FirstFault (i : Index) : Error → Prop where
  | canonical {id : Int} {text : List Char} {d : DecodeError} (row : (id, text) ∈ i.canonicalRows)
      (undecodable : Formula.decode? text = .error d)
      (first : ∀ r ∈ i.canonicalRows, id < r.1 → ∃ f : Formula, f.encode = r.2) : FirstFault i (.read (.decode d))
  | node {id : Int} {row : NodeRow} {e : Error} (canonical : ∀ r ∈ i.canonicalRows, ∃ f : Formula, f.encode = r.2)
      (here : (id, row) ∈ i.nodeRows) (fault : i.NodeFault id row e)
      (first : ∀ r ∈ i.nodeRows, r.1 < id → i.Fits r.1 r.2) : FirstFault i e

/-- of some rows, the one of the greatest id among those that have a canonical row and spell a key -/
structure Last (i : Index) (rows : List (Int × NodeRow)) (key : List Char) (id : Int) (row : NodeRow) : Prop where
  mem : (id, row) ∈ rows
  named : row.canonical ≠ noId
  chain : i.Chain id key
  greatest : ∀ r ∈ rows, r.2.canonical ≠ noId → i.Chain r.1 key → r.1 ≤ id

variable {i : Index}

/-! ## Rows in order -/

theorem mem_nodeRows {id : Int} {row : NodeRow} : (id, row) ∈ i.nodeRows ↔ i.nodes[id]? = some row :=
  Std.ExtTreeMap.mem_toList_iff_getElem?_eq_some

theorem mem_canonicalRows {id : Int} {text : List Char} :
    (id, text) ∈ i.canonicalRows ↔ i.canonical[id]? = some text := by
  unfold canonicalRows
  rw [List.mem_reverse, Std.ExtTreeMap.mem_toList_iff_getElem?_eq_some]

theorem eq_of_mem_nodeRows {id : Int} {row row' : NodeRow} (h : (id, row) ∈ i.nodeRows)
    (h' : (id, row') ∈ i.nodeRows) : row = row' := Option.some.inj ((mem_nodeRows.mp h).symm.trans (mem_nodeRows.mp h'))

theorem eq_of_mem_canonicalRows {id : Int} {text text' : List Char} (h : (id, text) ∈ i.canonicalRows)
    (h' : (id, text') ∈ i.canonicalRows) : text = text' :=
  Option.some.inj ((mem_canonicalRows.mp h).symm.trans (mem_canonicalRows.mp h'))

theorem ascending_nodeRows (i : Index) : i.nodeRows.Pairwise fun a b => a.1 < b.1 :=
  (Ascending.toList i.nodes).imp Int.compare_eq_lt.mp

theorem descending_canonicalRows (i : Index) : i.canonicalRows.Pairwise fun a b => b.1 < a.1 :=
  List.pairwise_reverse.mpr ((Ascending.toList i.canonical).imp Int.compare_eq_lt.mp)

section

variable {done rest : List (Int × NodeRow)} {r : Int × NodeRow}

/-- the node rows that have been read before a row are those of lesser ids -/
theorem mem_done_iff (h : i.nodeRows = done ++ r :: rest) {d : Int × NodeRow} :
    d ∈ done ↔ d ∈ i.nodeRows ∧ d.1 < r.1 := mem_before_iff Int.lt_asymm i.ascending_nodeRows h

theorem lt_of_done (h : i.nodeRows = done ++ r :: rest) {d : Int × NodeRow} (hd : d ∈ done) : d.1 < r.1 :=
  ((mem_done_iff h).mp hd).2

/-- and the canonical rows those of greater ids -/
theorem mem_doneCanonical_iff {done rest : List (Int × List Char)} {r d : Int × List Char}
    (h : i.canonicalRows = done ++ r :: rest) : d ∈ done ↔ d ∈ i.canonicalRows ∧ r.1 < d.1 :=
  mem_before_iff Int.lt_asymm i.descending_canonicalRows h

theorem exists_done_iff (h : i.nodeRows = done ++ r :: rest) {id : Int} :
    (∃ row, (id, row) ∈ done) ↔ id < r.1 ∧ id ∈ i.nodes := by
  simp only [mem_done_iff h, mem_nodeRows, Std.ExtTreeMap.mem_iff_isSome_getElem?, Option.isSome_iff_exists]
  exact ⟨fun ⟨row, hrow, hlt⟩ => ⟨hlt, row, hrow⟩, fun ⟨hlt, row, hrow⟩ => ⟨row, hrow, hlt⟩⟩

end

/-! ## Chains -/

/-- a row spells one key at most -/
theorem Chain.unique {id : Int} {key key' : List Char} (h : i.Chain id key) (h' : i.Chain id key') : key = key' := by
  induction h generalizing key' with
  | top row =>
    cases h' with
    | top row' =>
      cases eq_of_mem_nodeRows row row'
      rfl
    | under row' inner' _ =>
      cases eq_of_mem_nodeRows row row'
      exact absurd rfl inner'
  | under row inner _ ih =>
    cases h' with
    | top row' =>
      cases eq_of_mem_nodeRows row row'
      exact absurd rfl inner
    | under row' _ above' =>
      cases eq_of_mem_nodeRows row row'
      rw [ih above']

/-! ## Faults -/

theorem not_encoding {text : List Char} {d : DecodeError} (h : Formula.decode? text = .error d) :
    ¬∃ f : Formula, f.encode = text := by
  rintro ⟨f, rfl⟩
  rw [Formula.decode_encode] at h
  cases h

theorem NodeFault.not_fits {id : Int} {row : NodeRow} {e : Error} (h : i.NodeFault id row e) : ¬i.Fits id row := by
  intro hfits
  cases h with
  | symbol not_single =>
    obtain ⟨c, hc⟩ := hfits.symbol
    exact not_single c hc
  | orphan _ not_placed => exact not_placed hfits.parent
  | canonical _ _ named missing => exact hfits.canonical.elim named missing
  | pattern _ _ named _ chain undecodable =>
    obtain ⟨f, hf⟩ := hfits.pattern named
    exact not_encoding undecodable ⟨f, hf.unique chain⟩

/-- a row has one first fault at most -/
theorem NodeFault.unique {id : Int} {row : NodeRow} {e e' : Error} (h : i.NodeFault id row e)
    (h' : i.NodeFault id row e') : e = e' := by
  cases h with
  | symbol not_single =>
    cases h' with
    | symbol _ => rfl
    | orphan symbol _ | canonical symbol _ _ _ | pattern symbol _ _ _ _ _ => exact absurd symbol (not_single _)
  | orphan symbol not_placed =>
    cases h' with
    | symbol not_single => exact absurd symbol (not_single _)
    | orphan _ _ => rfl
    | canonical _ placed _ _ | pattern _ placed _ _ _ _ => exact absurd placed not_placed
  | canonical symbol placed _ missing =>
    cases h' with
    | symbol not_single => exact absurd symbol (not_single _)
    | orphan _ not_placed => exact absurd placed not_placed
    | canonical _ _ _ _ => rfl
    | pattern _ _ _ present _ _ => exact absurd present missing
  | pattern symbol placed _ present chain undecodable =>
    cases h' with
    | symbol not_single => exact absurd symbol (not_single _)
    | orphan _ not_placed => exact absurd placed not_placed
    | canonical _ _ _ missing => exact absurd present missing
    | pattern _ _ _ _ chain' undecodable' =>
      rw [chain.unique chain', undecodable'] at undecodable
      cases undecodable
      rfl

theorem FirstFault.not_coherent {e : Error} (h : i.FirstFault e) : ¬i.Coherent := by
  intro hcoherent
  cases h with
  | canonical row undecodable _ => exact not_encoding undecodable (hcoherent.canonical _ row)
  | node _ here fault _ => exact fault.not_fits (hcoherent.nodes _ here)

/-- rows have one first fault at most -/
theorem FirstFault.unique {e e' : Error} (h : i.FirstFault e) (h' : i.FirstFault e') : e = e' := by
  cases h with
  | @canonical id text d row undecodable first =>
    cases h' with
    | @canonical id' text' d' row' undecodable' first' =>
      rcases Int.lt_trichotomy id id' with hlt | rfl | hlt
      · exact absurd (first _ row' hlt) (not_encoding undecodable')
      · rw [eq_of_mem_canonicalRows row row', undecodable'] at undecodable
        cases undecodable
        rfl
      · exact absurd (first' _ row hlt) (not_encoding undecodable)
    | node canonical _ _ _ => exact absurd (canonical _ row) (not_encoding undecodable)
  | @node id row _ canonical here fault first =>
    cases h' with
    | canonical row' undecodable' _ => exact absurd (canonical _ row') (not_encoding undecodable')
    | @node id' row' _ _ here' fault' first' =>
      rcases Int.lt_trichotomy id id' with hlt | rfl | hlt
      · exact absurd (first' _ here hlt) fault.not_fits
      · cases eq_of_mem_nodeRows here here'
        exact fault.unique fault'
      · exact absurd (first _ here' hlt) fault'.not_fits

/-! ## Last rows -/

section

variable {rows : List (Int × NodeRow)} {key : List Char} {id : Int} {row : NodeRow}

/-- the last row of a key stays so behind rows that say nothing of the key -/
theorem Last.append (h : i.Last rows key id row) {r : Int × NodeRow} (hr : r.2.canonical ≠ noId → ¬i.Chain r.1 key) :
    i.Last (rows ++ [r]) key id row := by
  refine ⟨List.mem_append_left _ h.mem, h.named, h.chain, ?_⟩
  intro d hd hnamed hchain
  rcases List.mem_append.mp hd with hd | hd
  · exact h.greatest d hd hnamed hchain
  · cases List.mem_singleton.mp hd
    exact absurd hchain (hr hnamed)

theorem last_concat (hless : ∀ d ∈ rows, d.1 < id) (hnamed : row.canonical ≠ noId) (hchain : i.Chain id key) :
    i.Last (rows ++ [(id, row)]) key id row := by
  refine ⟨List.mem_append_right _ (List.mem_singleton_self _), hnamed, hchain, ?_⟩
  intro d hd _ _
  rcases List.mem_append.mp hd with hd | hd
  · exact Int.le_of_lt (hless d hd)
  · cases List.mem_singleton.mp hd
    exact Int.le_refl _

/-- of some rows, at most one is the last one of a key -/
theorem Last.unique (hrows : ∀ r ∈ rows, r ∈ i.nodeRows) (h : i.Last rows key id row) {id' : Int} {row' : NodeRow}
    (h' : i.Last rows key id' row') : row = row' := by
  have hid : id = id' := Int.le_antisymm (h'.greatest _ h.mem h.named h.chain) (h.greatest _ h'.mem h'.named h'.chain)
  subst hid
  exact eq_of_mem_nodeRows (hrows _ h.mem) (hrows _ h'.mem)

end

end Index

namespace IndexReader

variable {i : Index}

/-! ## Canonical rows -/

/-- canonical rows that were read hold encodings, and have their formulas by id -/
structure ReadsCanonical (rows : List (Int × List Char)) (c : Canonical) : Prop where
  encodes : ∀ r ∈ rows, ∃ f : Formula, f.encode = r.2
  byId : ∀ {id : Int} {f : Formula}, c.byId[id]? = some f ↔ (id, f.encode) ∈ rows

/-- a canonical row is read if it holds an encoding, and otherwise it is refused as that text is -/
theorem readCanonical_step {done rest : List (Int × List Char)} {r : Int × List Char} {c : Canonical}
    (hrows : i.canonicalRows = done ++ r :: rest) (h : ReadsCanonical done c) :
    (∃ e, readCanonical c r = .error e ∧ ∃ d, Formula.decode? r.2 = .error d ∧ e = .read (.decode d)) ∨
      ∃ c', readCanonical c r = .ok c' ∧ ReadsCanonical (done ++ [r]) c' := by
  unfold readCanonical Formula.read?
  cases hdecode : Formula.decode? r.2 with
  | error d => exact Or.inl ⟨_, rfl, d, rfl, rfl⟩
  | ok f =>
    have hencode := Formula.encode_of_decode hdecode
    refine Or.inr ⟨_, rfl, ?_, ?_⟩
    · intro d hd
      rw [List.mem_append, List.mem_singleton] at hd
      rcases hd with hd | rfl
      · exact h.encodes d hd
      · exact ⟨f, hencode⟩
    · intro id g
      rw [getElem?_insert_eq_ite, List.mem_append, List.mem_singleton]
      by_cases hid : r.1 = id
      · -- the id is new, so what was read before says nothing of it
        have hnew : (id, g.encode) ∉ done := by
          intro hmem
          exact Int.lt_irrefl _ (hid ▸ ((Index.mem_doneCanonical_iff hrows).mp hmem).2)
        rw [if_pos hid, Option.some.injEq, or_iff_right hnew, Prod.ext_iff, ← hencode]
        refine ⟨fun hfg => ⟨hid.symm, congrArg Formula.encode hfg.symm⟩, fun hrow => ?_⟩
        exact (Formula.encode_injective hrow.2).symm
      · rw [if_neg hid, h.byId]
        exact ⟨Or.inl, fun hmem => hmem.resolve_right fun hrow => hid (congrArg Prod.fst hrow).symm⟩

/-- an id that can be looked up is that of a canonical row -/
theorem ReadsCanonical.mem_iff {c : Canonical} (hc : ReadsCanonical i.canonicalRows c) {id : Int} :
    id ∈ i.canonical ↔ ∃ f, c.byId[id]? = some f := by
  rw [Std.ExtTreeMap.mem_iff_isSome_getElem?, Option.isSome_iff_exists]
  refine ⟨?_, ?_⟩
  · rintro ⟨text, htext⟩
    have hrow := Index.mem_canonicalRows.mpr htext
    obtain ⟨f, hf⟩ := hc.encodes _ hrow
    exact ⟨f, hc.byId.mpr (by rw [hf]; exact hrow)⟩
  · rintro ⟨f, hf⟩
    exact ⟨f.encode, Index.mem_canonicalRows.mp (hc.byId.mp hf)⟩

/-! ## Node rows -/

/-- keys that were noted for rows are those that the rows spell -/
structure NotesKeys (i : Index) (rows : List (Int × NodeRow)) (keys : Std.ExtTreeMap Int (List Char)) : Prop where
  chain : ∀ {id : Int} {key : List Char}, keys[id]? = some key → i.Chain id key
  known : ∀ {id : Int}, (∃ key, keys[id]? = some key) ↔ ∃ row, (id, row) ∈ rows

/-- for each key, the last row that names a canonical row says what the rule is -/
structure NotesRules (i : Index) (canonical : Std.ExtTreeMap Int Formula) (rows : List (Int × NodeRow))
    (rules : ByEncoding Rule) : Prop where
  last : ∀ {key : List Char} {r : Rule}, rules[key]? = some r →
    ∃ id row, i.Last rows key id row ∧ canonical[row.canonical]? = some r.canonical
  ruled : ∀ {key : List Char} {id : Int} {row : NodeRow}, (id, row) ∈ rows → row.canonical ≠ noId → i.Chain id key →
    ∃ r, rules[key]? = some r

/-- node rows that were read fit, and their keys and their rules were noted -/
structure ReadsNodes (i : Index) (canonical : Std.ExtTreeMap Int Formula) (rows : List (Int × NodeRow)) (a : Spelling) :
    Prop where
  fits : ∀ r ∈ rows, i.Fits r.1 r.2
  keys : NotesKeys i rows a.keys
  rules : NotesRules i canonical rows a.rules

section

variable {canonical : Std.ExtTreeMap Int Formula} {done rest : List (Int × NodeRow)} {id : Int} {row : NodeRow}
  {a : Spelling}

theorem NotesKeys.insert {keys : Std.ExtTreeMap Int (List Char)} (h : NotesKeys i done keys) {key : List Char}
    (hchain : i.Chain id key) : NotesKeys i (done ++ [(id, row)]) (keys.insert id key) := by
  refine ⟨?_, ?_⟩
  · intro id' key' hkey
    rw [getElem?_insert_eq_ite] at hkey
    by_cases hid : id = id'
    · rw [if_pos hid] at hkey
      cases hkey
      exact hid ▸ hchain
    · rw [if_neg hid] at hkey
      exact h.chain hkey
  · intro id'
    rw [getElem?_insert_eq_ite]
    by_cases hid : id = id'
    · rw [if_pos hid, ← hid]
      exact ⟨fun _ => ⟨row, List.mem_append_right _ (List.mem_singleton_self _)⟩, fun _ => ⟨key, rfl⟩⟩
    · rw [if_neg hid, h.known]
      refine exists_congr fun row' => ?_
      rw [List.mem_append, List.mem_singleton, Prod.mk.injEq]
      exact ⟨Or.inl, fun hmem => hmem.resolve_right fun hnew => hid hnew.1.symm⟩

section

variable {rules : ByEncoding Rule}

/-- a row that names no canonical row changes no rule -/
theorem NotesRules.append (h : NotesRules i canonical done rules) (hnone : row.canonical = noId) :
    NotesRules i canonical (done ++ [(id, row)]) rules := by
  refine ⟨?_, ?_⟩
  · intro key r hr
    obtain ⟨id', row', hlast, hcanonical⟩ := h.last hr
    exact ⟨id', row', hlast.append fun hnamed => absurd hnone hnamed, hcanonical⟩
  · intro key id' row' hmem hnamed hchain
    rcases List.mem_append.mp hmem with hmem | hmem
    · exact h.ruled hmem hnamed hchain
    · cases List.mem_singleton.mp hmem
      exact absurd hnone hnamed

/-- a key has a rule exactly if a row that names a canonical row spells it -/
theorem NotesRules.none_iff (h : NotesRules i canonical done rules) (f : Formula) :
    (rules[f.encode]?).map (fun r => r.canonical) = none ↔
      ∀ r ∈ done, r.2.canonical ≠ noId → ¬i.Chain r.1 f.encode := by
  rw [Option.map_eq_none_iff]
  refine ⟨?_, ?_⟩
  · intro hnone r hr hnamed hchain
    obtain ⟨rule, hrule⟩ := h.ruled hr hnamed hchain
    rw [hnone] at hrule
    cases hrule
  · intro hfree
    rw [Option.eq_none_iff_forall_ne_some]
    intro rule hrule
    obtain ⟨id, row, hlast, -⟩ := h.last hrule
    exact hfree _ hlast.mem hlast.named hlast.chain

/-- and the rule has the canonical formula that the last of these rows names -/
theorem NotesRules.some_iff {c : Canonical} (hc : ReadsCanonical i.canonicalRows c)
    (h : NotesRules i c.byId i.nodeRows rules) (f g : Formula) :
    (rules[f.encode]?).map (fun r => r.canonical) = some g ↔
      ∃ id row, i.Last i.nodeRows f.encode id row ∧ (row.canonical, g.encode) ∈ i.canonicalRows := by
  rw [Option.map_eq_some_iff]
  refine ⟨?_, ?_⟩
  · rintro ⟨r, hr, rfl⟩
    obtain ⟨id, row, hlast, hcanonical⟩ := h.last hr
    exact ⟨id, row, hlast, hc.byId.mp hcanonical⟩
  · rintro ⟨id, row, hlast, hcanonical⟩
    obtain ⟨r, hr⟩ := h.ruled hlast.mem hlast.named hlast.chain
    obtain ⟨id', row', hlast', hcanonical'⟩ := h.last hr
    refine ⟨r, hr, ?_⟩
    rw [hlast'.unique (fun _ hmem => hmem) hlast, hc.byId.mpr hcanonical] at hcanonical'
    exact (Option.some.inj hcanonical').symm

/-- a row that names one says what the rule of its key is, in place of the rows before it -/
theorem NotesRules.insert (h : NotesRules i canonical done rules) (hless : ∀ d ∈ done, d.1 < id) {key : List Char}
    (hchain : i.Chain id key) (hnamed : row.canonical ≠ noId) {r : Rule}
    (hr : canonical[row.canonical]? = some r.canonical) :
    NotesRules i canonical (done ++ [(id, row)]) (rules.insert key r) := by
  refine ⟨?_, ?_⟩
  · intro key' r' hr'
    rw [getElem?_insert_eq_ite] at hr'
    by_cases hkey : key = key'
    · rw [if_pos hkey] at hr'
      cases hr'
      cases hkey
      exact ⟨id, row, Index.last_concat hless hnamed hchain, hr⟩
    · rw [if_neg hkey] at hr'
      obtain ⟨id', row', hlast, hcanonical⟩ := h.last hr'
      exact ⟨id', row', hlast.append fun _ hother => hkey (hchain.unique hother), hcanonical⟩
  · intro key' id' row' hmem hnamed' hchain'
    rw [getElem?_insert_eq_ite]
    by_cases hkey : key = key'
    · rw [if_pos hkey]
      exact ⟨r, rfl⟩
    · rw [if_neg hkey]
      rcases List.mem_append.mp hmem with hmem | hmem
      · exact h.ruled hmem hnamed' hchain'
      · cases List.mem_singleton.mp hmem
        exact absurd (hchain.unique hchain') hkey

end

/-- the key of the parent is known exactly if the row has a place -/
theorem parentKey_step (hrows : i.nodeRows = done ++ (id, row) :: rest) (h : ReadsNodes i canonical done a) :
    (parentKey a id row = .error (.orphan id row.parent) ∧ ¬i.Placed id row) ∨
      ∃ key, parentKey a id row = .ok key ∧ i.Placed id row ∧
        ∀ c, row.symbol = [c] → i.Chain id (key ++ [c]) := by
  have hhere : (id, row) ∈ i.nodeRows := hrows ▸ List.mem_append_right _ List.mem_cons_self
  unfold parentKey
  by_cases hroot : row.parent = noId
  · rw [if_pos hroot]
    refine Or.inr ⟨[], rfl, Or.inl hroot, ?_⟩
    intro c hc
    obtain ⟨symbol, parent, canonicalId⟩ := row
    cases hroot
    cases hc
    exact .top hhere
  · rw [if_neg hroot]
    have hknown : (∃ key, a.keys[row.parent]? = some key) ↔ row.parent < id ∧ row.parent ∈ i.nodes :=
      h.keys.known.trans (Index.exists_done_iff hrows)
    cases hkey : a.keys[row.parent]? with
    | none =>
      refine Or.inl ⟨rfl, ?_⟩
      rintro (hparent | hparent)
      · exact hroot hparent
      · obtain ⟨key, hsome⟩ := hknown.mpr hparent
        rw [hkey] at hsome
        cases hsome
    | some key =>
      refine Or.inr ⟨key, rfl, Or.inr (hknown.mp ⟨key, hkey⟩), ?_⟩
      intro c hc
      obtain ⟨symbol, parent, canonicalId⟩ := row
      cases hc
      exact .under hhere hroot (h.keys.chain hkey)

/-- the key of a row that has one symbol and a place is noted -/
theorem spellKey_step (hrows : i.nodeRows = done ++ (id, row) :: rest) (h : ReadsNodes i canonical done a) :
    (∃ e, spellKey a id row = .error e ∧ i.NodeFault id row e) ∨
      ∃ key c, spellKey a id row = .ok (key, { a with keys := a.keys.insert id key }) ∧ row.symbol = [c] ∧
        i.Placed id row ∧ i.Chain id key := by
  unfold spellKey
  rcases hsymbol : row.symbol with _ | ⟨c, _ | ⟨d, more⟩⟩
  · exact Or.inl ⟨_, rfl, .symbol (by simp [hsymbol])⟩
  · rcases parentKey_step hrows h with ⟨hlost, hplaced⟩ | ⟨key, hkey, hplaced, hchain⟩
    · simp only [hlost]
      exact Or.inl ⟨_, rfl, .orphan hsymbol hplaced⟩
    · simp only [hkey]
      exact Or.inr ⟨key ++ [c], c, rfl, rfl, hplaced, hchain c hsymbol⟩
  · exact Or.inl ⟨_, rfl, .symbol (by simp [hsymbol])⟩

/-- with its key known, a row fits if its canonical row is there and the key can be decoded, where it needs them -/
theorem spellRule_step {c : Canonical} (hc : ReadsCanonical i.canonicalRows c) {symbol : Char}
    (hsymbol : row.symbol = [symbol]) (hplaced : i.Placed id row) {key : List Char} (hchain : i.Chain id key)
    (a : Spelling) :
    (∃ e, spellRule c.byId a key id row = .error e ∧ i.NodeFault id row e) ∨
      i.Fits id row ∧ (row.canonical = noId ∧ spellRule c.byId a key id row = .ok a ∨
        row.canonical ≠ noId ∧ ∃ r : Rule, c.byId[row.canonical]? = some r.canonical ∧
          spellRule c.byId a key id row = .ok { a with rules := a.rules.insert key r }) := by
  unfold spellRule
  by_cases hnone : row.canonical = noId
  · rw [if_pos hnone]
    exact Or.inr ⟨⟨⟨symbol, hsymbol⟩, hplaced, Or.inl hnone, fun hnamed => absurd hnone hnamed⟩, Or.inl ⟨hnone, rfl⟩⟩
  · rw [if_neg hnone]
    cases hreplacement : c.byId[row.canonical]? with
    | none =>
      refine Or.inl ⟨_, rfl, .canonical hsymbol hplaced hnone ?_⟩
      intro hpresent
      obtain ⟨f, hf⟩ := hc.mem_iff.mp hpresent
      rw [hreplacement] at hf
      cases hf
    | some replacement =>
      have hpresent := hc.mem_iff.mpr ⟨replacement, hreplacement⟩
      unfold Formula.read?
      cases hdecode : Formula.decode? key with
      | error d => exact Or.inl ⟨_, rfl, .pattern hsymbol hplaced hnone hpresent hchain hdecode⟩
      | ok pattern =>
        have hencode := Formula.encode_of_decode hdecode
        refine Or.inr ⟨⟨⟨symbol, hsymbol⟩, hplaced, Or.inr hpresent, fun _ => ⟨pattern, ?_⟩⟩, Or.inr ⟨hnone, ?_⟩⟩
        · rw [hencode]
          exact hchain
        · exact ⟨⟨pattern, replacement⟩, rfl, rfl⟩

/-- a row is read if it fits, and otherwise it is refused for what is wrong with it first -/
theorem spell_step {c : Canonical} (hc : ReadsCanonical i.canonicalRows c)
    (hrows : i.nodeRows = done ++ (id, row) :: rest) (h : ReadsNodes i c.byId done a) :
    (∃ e, spell c.byId a (id, row) = .error e ∧ i.NodeFault id row e) ∨
      ∃ a', spell c.byId a (id, row) = .ok a' ∧ ReadsNodes i c.byId (done ++ [(id, row)]) a' := by
  unfold spell
  rcases spellKey_step hrows h with ⟨e, hkey, hfault⟩ | ⟨key, symbol, hkey, hsymbol, hplaced, hchain⟩
  · simp only [hkey]
    exact Or.inl ⟨e, rfl, hfault⟩
  · simp only [hkey]
    have hkeys : NotesKeys i (done ++ [(id, row)]) (a.keys.insert id key) := h.keys.insert hchain
    have hfits : i.Fits id row → ∀ r ∈ done ++ [(id, row)], i.Fits r.1 r.2 := fun hrow r hr =>
      (List.mem_append.mp hr).elim (h.fits r) fun hr => List.mem_singleton.mp hr ▸ hrow
    rcases spellRule_step hc hsymbol hplaced hchain { a with keys := a.keys.insert id key } with
      ⟨e, hrule, hfault⟩ | ⟨hrow, ⟨hnone, hrule⟩ | ⟨hnamed, r, hr, hrule⟩⟩
    · exact Or.inl ⟨e, hrule, hfault⟩
    · exact Or.inr ⟨_, hrule, hfits hrow, hkeys, h.rules.append hnone⟩
    · have hless : ∀ d ∈ done, d.1 < id := fun d hd => Index.lt_of_done hrows hd
      exact Or.inr ⟨_, hrule, hfits hrow, hkeys, h.rules.insert hless hchain hnamed hr⟩

end

/-! ## All rows -/

theorem readCanonicals_cases (i : Index) :
    (∃ e, i.canonicalRows.foldlM readCanonical ⟨∅, ∅⟩ = .error e ∧ i.FirstFault e) ∨
      ∃ c, i.canonicalRows.foldlM readCanonical ⟨∅, ∅⟩ = .ok c ∧ ReadsCanonical i.canonicalRows c := by
  have hstart : ReadsCanonical [] ⟨∅, ∅⟩ := by
    refine ⟨fun _ hr => absurd hr List.not_mem_nil, ?_⟩
    intro id f
    simp
  rcases foldlM_cases (fun hrows h => readCanonical_step hrows h) hstart with
    ⟨done, r, rest, c, e, hrows, hc, ⟨d, hd, rfl⟩, herror⟩ | hread
  · refine Or.inl ⟨_, herror, .canonical (hrows ▸ List.mem_append_right _ List.mem_cons_self) hd ?_⟩
    intro r' hr' hlt
    exact hc.encodes r' ((Index.mem_doneCanonical_iff hrows).mpr ⟨hr', hlt⟩)
  · exact Or.inr hread

theorem spellRows_cases {c : Canonical} (hc : ReadsCanonical i.canonicalRows c) :
    (∃ e, i.nodeRows.foldlM (spell c.byId) .empty = .error e ∧ i.FirstFault e) ∨
      ∃ a, i.nodeRows.foldlM (spell c.byId) .empty = .ok a ∧ ReadsNodes i c.byId i.nodeRows a := by
  have hstart : ReadsNodes i c.byId [] .empty := by
    refine ⟨fun _ hr => absurd hr List.not_mem_nil, ⟨?_, ?_⟩, ⟨?_, ?_⟩⟩
    · intro id key hkey
      simp [Spelling.empty] at hkey
    · intro id
      simp [Spelling.empty]
    · intro key r hr
      simp [Spelling.empty] at hr
    · intro key id row hmem
      exact absurd hmem List.not_mem_nil
  rcases foldlM_cases (fun hrows h => spell_step hc hrows h) hstart with
    ⟨done, r, rest, a, e, hrows, ha, hfault, herror⟩ | hread
  · refine Or.inl ⟨e, herror, .node hc.encodes (hrows ▸ List.mem_append_right _ List.mem_cons_self) hfault ?_⟩
    intro r' hr' hlt
    exact ha.fits r' ((Index.mem_done_iff hrows).mpr ⟨hr', hlt⟩)
  · exact Or.inr hread

end IndexReader

namespace Repository

/-- rows are refused for their first fault, or they are coherent and read for what they say -/
theorem ofIndex_cases (i : Index) (m : Matching) :
    (∃ e, ofIndex i m = .error e ∧ i.FirstFault e) ∨
      ∃ c a repo, ofIndex i m = .ok repo ∧ IndexReader.ReadsCanonical i.canonicalRows c ∧
        IndexReader.ReadsNodes i c.byId i.nodeRows a ∧
        ∀ f, repo.source.canonicalOf f = (a.rules[f.encode]?).map fun r => r.canonical := by
  rcases IndexReader.readCanonicals_cases i with ⟨e, herror, hfault⟩ | ⟨c, hcanonical, hc⟩
  · refine Or.inl ⟨e, ?_, hfault⟩
    unfold ofIndex
    rw [herror]
    rfl
  · rcases IndexReader.spellRows_cases hc with ⟨e, herror, hfault⟩ | ⟨a, hspell, ha⟩
    · rcases @IndexReader.readNodes_spells c.byId _ _ IndexReader.spells_empty i.nodeRows with
        ⟨e', hspell, hread⟩ | ⟨a, s, hspell, -, -⟩
      · rw [herror] at hspell
        cases hspell
        refine Or.inl ⟨e, ?_, hfault⟩
        unfold ofIndex
        rw [hcanonical]
        show i.nodeRows.foldlM (IndexReader.readNode c.byId) ⟨Trie.empty, ∅, ∅⟩ >>= _ = _
        rw [hread]
        rfl
      · rw [herror] at hspell
        cases hspell
    · have hkeyed : RuleSet.Keyed ⟨a.rules, c.byEncoding⟩ := (IndexReader.keyed_of_spell hspell).key
      obtain ⟨repo, hrepo, hrepresents⟩ := ofIndex_represents hcanonical hspell hkeyed m
      exact Or.inr ⟨c, a, repo, hrepo, hc, ha, hrepresents.canonicalOf⟩

end Repository

/-- **An index is read exactly if its rows fit together.** Otherwise the error is that of the first row with a fault, and of
the first fault of that row. What is read replaces a formula with the canonical formula that is named by the last of the
rows which spell the encoding of the formula and name one, and nothing else. -/
theorem Repository.ofIndex_decides (i : Index) (m : Matching) :
    ((∃ repo, ofIndex i m = .ok repo) ↔ i.Coherent) ∧ (∀ e, ofIndex i m = .error e ↔ i.FirstFault e) ∧
      ∀ repo, ofIndex i m = .ok repo → ∀ f,
        (∀ g, repo.source.canonicalOf f = some g ↔
          ∃ id row, i.Last i.nodeRows f.encode id row ∧ (row.canonical, g.encode) ∈ i.canonicalRows) ∧
        (repo.source.canonicalOf f = none ↔ ∀ r ∈ i.nodeRows, r.2.canonical ≠ noId → ¬i.Chain r.1 f.encode) := by
  rcases ofIndex_cases i m with ⟨e, herror, hfault⟩ | ⟨c, a, repo, hrepo, hc, ha, hof⟩
  · rw [herror]
    refine ⟨⟨?_, fun h => absurd h hfault.not_coherent⟩, ?_, ?_⟩
    · rintro ⟨repo, hrepo⟩
      cases hrepo
    · intro e'
      exact ⟨fun h => Except.error.inj h ▸ hfault, fun h => congrArg Except.error (hfault.unique h)⟩
    · intro repo hrepo
      cases hrepo
  · have hcoherent : i.Coherent := ⟨hc.encodes, ha.fits⟩
    rw [hrepo]
    refine ⟨⟨fun _ => hcoherent, fun _ => ⟨repo, rfl⟩⟩, ?_, ?_⟩
    · intro e
      refine ⟨?_, fun h => absurd hcoherent h.not_coherent⟩
      intro h
      cases h
    · intro repo' hsame f
      cases hsame
      rw [hof]
      exact ⟨ha.rules.some_iff hc f, ha.rules.none_iff f⟩

/-- two nodes of one symbol at the root, and so two rows for the negation of the true constant -/
def forkedIndex : Index where
  canonical := .ofList [(-2, ['F']), (-1, ['T'])]
  nodes := .ofList ([(3, ⟨['-'], 0, 0⟩), (5, ⟨['-'], 0, 0⟩), (6, ⟨['T'], 5, -1⟩), (7, ⟨['T'], 3, -2⟩)] :
    List (Int × NodeRow))

/-- a row that is its own parent, behind a row without a fault -/
def loopedIndex : Index where
  canonical := .ofList [(-1, ['T'])]
  nodes := .ofList ([(2, ⟨['F'], 0, 0⟩), (4, ⟨['-'], 4, -1⟩)] : List (Int × NodeRow))

theorem Repository.ofIndex_decides_forked :
    (∃ repo, ofIndex forkedIndex .byInstance = .ok repo ∧
      repo.source.canonicalOf (.neg (.const true)) = some (.const false)) ∧
    ofIndex loopedIndex .exact = .error (.index (.orphan 4 4)) := by
  have htrue : (Formula.const true).encode = ['T'] := Formula.encode_const true
  have hfalse : (Formula.const false).encode = ['F'] := Formula.encode_const false
  have hencode : (Formula.neg (.const true)).encode = ['-', 'T'] := by
    rw [Formula.encode_neg, htrue]
    rfl
  refine ⟨?_, ?_⟩
  · have hrows : forkedIndex.nodeRows =
        [(3, ⟨['-'], 0, 0⟩), (5, ⟨['-'], 0, 0⟩), (6, ⟨['T'], 5, -1⟩), (7, ⟨['T'], 3, -2⟩)] := rfl
    have hcanonical : forkedIndex.canonicalRows = [(-1, ['T']), (-2, ['F'])] := rfl
    have hthird : forkedIndex.Chain 3 ['-'] :=
      .top (show (3, ⟨['-'], 0, 0⟩) ∈ forkedIndex.nodeRows by simp [hrows])
    have hfifth : forkedIndex.Chain 5 ['-'] :=
      .top (show (5, ⟨['-'], 0, 0⟩) ∈ forkedIndex.nodeRows by simp [hrows])
    have hsixth : forkedIndex.Chain 6 ['-', 'T'] :=
      .under (show (6, ⟨['T'], 5, -1⟩) ∈ forkedIndex.nodeRows by simp [hrows]) (by decide) hfifth
    have hseventh : forkedIndex.Chain 7 ['-', 'T'] :=
      .under (show (7, ⟨['T'], 3, -2⟩) ∈ forkedIndex.nodeRows by simp [hrows]) (by decide) hthird
    have hcoherent : forkedIndex.Coherent := by
      refine ⟨?_, ?_⟩
      · rw [hcanonical, List.forall_mem_cons, List.forall_mem_singleton]
        exact ⟨⟨_, htrue⟩, ⟨_, hfalse⟩⟩
      · rw [hrows, List.forall_mem_cons, List.forall_mem_cons, List.forall_mem_cons, List.forall_mem_singleton]
        refine ⟨⟨⟨_, rfl⟩, Or.inl rfl, Or.inl rfl, fun hnamed => absurd rfl hnamed⟩,
          ⟨⟨_, rfl⟩, Or.inl rfl, Or.inl rfl, fun hnamed => absurd rfl hnamed⟩,
          ⟨⟨_, rfl⟩, Or.inr ⟨by decide, rfl⟩, Or.inr rfl, fun _ => ⟨_, hencode ▸ hsixth⟩⟩,
          ⟨⟨_, rfl⟩, Or.inr ⟨by decide, rfl⟩, Or.inr rfl, fun _ => ⟨_, hencode ▸ hseventh⟩⟩⟩
    obtain ⟨hread, -, hof⟩ := ofIndex_decides forkedIndex .byInstance
    obtain ⟨repo, hrepo⟩ := hread.mpr hcoherent
    have hlast : forkedIndex.Last forkedIndex.nodeRows ['-', 'T'] 7 ⟨['T'], 3, -2⟩ := by
      refine ⟨by simp [hrows], by decide, hseventh, ?_⟩
      rw [hrows, List.forall_mem_cons, List.forall_mem_cons, List.forall_mem_cons, List.forall_mem_singleton]
      exact ⟨fun _ _ => by decide, fun _ _ => by decide, fun _ _ => by decide, fun _ _ => by decide⟩
    exact ⟨repo, hrepo, ((hof repo hrepo _).1 _).mpr ⟨7, _, hencode ▸ hlast, by simp [hcanonical, hfalse]⟩⟩
  · have hrows : loopedIndex.nodeRows = [(2, ⟨['F'], 0, 0⟩), (4, ⟨['-'], 4, -1⟩)] := rfl
    have hcanonical : loopedIndex.canonicalRows = [(-1, ['T'])] := rfl
    have hhere : (4, ⟨['-'], 4, -1⟩) ∈ loopedIndex.nodeRows := by simp [hrows]
    refine ((ofIndex_decides loopedIndex .exact).2.1 _).mpr (.node ?_ hhere (.orphan rfl ?_) ?_)
    · rw [hcanonical, List.forall_mem_singleton]
      exact ⟨_, htrue⟩
    · rintro (hroot | ⟨hless, -⟩)
      · cases hroot
      · exact absurd hless (by decide)
    · rw [hrows, List.forall_mem_cons, List.forall_mem_singleton]
      refine ⟨fun _ => ⟨⟨_, rfl⟩, Or.inl rfl, Or.inl rfl, fun hnamed => absurd rfl hnamed⟩, ?_⟩
      intro hless
      exact absurd hless (by decide)

end ClauseFold
