/-
Compilation into a database, all or nothing. A compilation makes the parts of an index and writes rows before it finds out
what is wrong with a pattern, and the fault that it finds is the first in the order of the walk. What it leaves behind is
nothing: either the database objected to a statement, or the transaction takes back what was written.

Results:
- `forM_perform_of_none`, `forM_perform_of_some`: statements one after the other, up to the first objection;
- `indexInto_ofStore`: in the database of a store, compilation is what it is in the store;
- `indexInto_cases`: the three ways that a compilation can end, for every source and every database;
- `indexInto_all_or_nothing`: when it goes well, what it leaves if it does not, and which error it ends with;
- `indexInto_without_tables`: that there is no table of an index yet is not enough.
-/
import ClauseFold.Index.Database
import ClauseFold.Proofs.Index.Rows

namespace ClauseFold

namespace Database

theorem store_ofStore (store : Option Index) : (ofStore store).store = store := by
  cases store <;> rfl

theorem ofStore_inj {store store' : Option Index} : ofStore store = ofStore store' ↔ store = store' := by
  refine ⟨?_, fun h => h ▸ rfl⟩
  intro h
  rw [← store_ofStore store, h, store_ofStore]

/-! ## Work -/

theorem Work.on_bind_of_ok {α β : Type} {work : Work α} {db db' : Database} {a : α} (h : work.on db = (.ok a, db'))
    (k : α → Work β) : (work >>= k).on db = (k a).on db' := by
  unfold Work.on at h
  show ExceptT.bindCont k (work.run.run db).1 (work.run.run db).2 = _
  rw [h]
  rfl

theorem Work.on_bind_of_error {α β : Type} {work : Work α} {db db' : Database} {e : Error}
    (h : work.on db = (.error e, db')) (k : α → Work β) : (work >>= k).on db = (.error e, db') := by
  unfold Work.on at h
  show ExceptT.bindCont k (work.run.run db).1 (work.run.run db).2 = _
  rw [h]
  rfl

theorem transact_of_ok {α : Type} {work : Work α} {db db' : Database} {a : α} (h : work.on db = (.ok a, db')) :
    db.transact work = (.ok a, db') := by
  unfold transact
  rw [h]

/-- work that fails leaves no trace -/
theorem transact_of_error {α : Type} {work : Work α} {db : Database} {e : Error} (h : (work.on db).1 = .error e) :
    db.transact work = (.error e, db) := by
  unfold transact
  generalize work.on db = ended at h ⊢
  obtain ⟨outcome, db'⟩ := ended
  cases h
  rfl

/-! ## Statements -/

variable {db : Database} {statement : Statement} {cause : StoreFailure}

theorem perform_of_none (h : db.objection? statement = none) : (perform statement).on db = (.ok (), db.after statement) := by
  show (heed (db.objection? statement) >>= fun _ => modify (·.after statement) : Work Unit).on db = _
  rw [h]
  rfl

theorem perform_of_some (h : db.objection? statement = some cause) :
    (perform statement).on db = (.error (.index (.store cause)), db) := by
  show (heed (db.objection? statement) >>= fun _ => modify (·.after statement) : Work Unit).on db = _
  rw [h]
  rfl

theorem refuses_after (db : Database) (statement : Statement) : (db.after statement).refuses = db.refuses := by
  cases statement with
  | make part => cases part <;> rfl
  | _ => rfl

theorem holder?_after {part : IndexPart} (h : statement ≠ .make part) :
    (db.after statement).holder? part = db.holder? part := by
  cases statement with
  | make made =>
    have hne : made ≠ part := fun heq => h (by rw [heq])
    cases made <;> cases part <;> simp [after, holder?] at hne ⊢
  | _ => rfl

/-- no statement stands in the way of another one -/
theorem objection?_after {other : Statement} (h : statement ≠ other) :
    (db.after statement).objection? other = db.objection? other := by
  cases other with
  | make part => rw [objection?, objection?, holder?_after h, refuses_after]
  | _ => exact congrFun (refuses_after db statement) _

theorem forM_perform_of_none {statements : List Statement} (hdistinct : statements.Nodup)
    (h : ∀ statement ∈ statements, db.objection? statement = none) :
    (statements.forM perform).on db = (.ok (), statements.foldl after db) := by
  induction statements generalizing db with
  | nil => rfl
  | cons statement statements ih =>
    obtain ⟨hother, hdistinct⟩ := List.nodup_cons.mp hdistinct
    rw [List.forall_mem_cons] at h
    show (perform statement >>= fun _ => statements.forM perform).on db = _
    rw [Work.on_bind_of_ok (perform_of_none h.1)]
    refine ih hdistinct ?_
    intro other hmem
    rw [objection?_after (ne_of_mem_of_not_mem hmem hother).symm]
    exact h.2 other hmem

theorem objection?_foldl_after {statements : List Statement} (h : statement ∉ statements) :
    (statements.foldl after db).objection? statement = db.objection? statement := by
  induction statements generalizing db with
  | nil => rfl
  | cons earlier statements ih =>
    rw [List.mem_cons, not_or] at h
    rw [List.foldl_cons, ih h.2, objection?_after (Ne.symm h.1)]

/-- the first objection ends statements -/
theorem forM_perform_of_some {statements : List Statement} (hdistinct : statements.Nodup)
    (h : statements.findSome? db.objection? = some cause) :
    ∃ db', (statements.forM perform).on db = (.error (.index (.store cause)), db') := by
  obtain ⟨before, statement, rest, rfl, hobjection, hbefore⟩ := List.findSome?_eq_some_iff.mp h
  obtain ⟨hdistinct, -, hapart⟩ := List.nodup_append.mp hdistinct
  have hnew : statement ∉ before := fun hmem => hapart statement hmem statement List.mem_cons_self rfl
  rw [← objection?_foldl_after hnew] at hobjection
  refine ⟨before.foldl after db, ?_⟩
  have hgone := forM_perform_of_none hdistinct hbefore
  rw [List.forM_eq_forM] at hgone ⊢
  rw [List.forM_append, Work.on_bind_of_ok hgone]
  exact Work.on_bind_of_error (perform_of_some hobjection) _

/-- what a compilation asks before it knows of a fault in the patterns -/
def askedAhead : List Statement := opening ++ [.insertNodes]

/-- what a compilation asks, in order -/
def asked : List Statement := askedAhead ++ [.commit]

theorem mem_asked (statement : Statement) : statement ∈ asked := by
  cases statement with
  | make part => cases part <;> decide
  | _ => decide

/-- a database that nothing keeps from an index: none of its names is taken, and no statement is refused -/
structure Ready (db : Database) : Prop where
  free : ∀ part, db.holder? part = none
  willing : ∀ statement, db.refuses statement = none

theorem Ready.eq_empty (h : db.Ready) : db = .empty := by
  obtain ⟨canonical, nodes, nodeLookup, refuses⟩ := db
  obtain rfl : canonical = none := Option.map_eq_none_iff.mp (h.free .canonical)
  obtain rfl : nodes = none := Option.map_eq_none_iff.mp (h.free .nodes)
  obtain rfl : nodeLookup = none := h.free .nodeLookup
  obtain rfl : refuses = fun _ => none := funext h.willing
  rfl

theorem ready_iff : db.Ready ↔ asked.findSome? db.objection? = none := by
  rw [List.findSome?_eq_none_iff]
  refine ⟨?_, ?_⟩
  · rintro h statement -
    rw [h.eq_empty]
    cases statement with
    | make part => cases part <;> rfl
    | _ => rfl
  · intro h
    have hmake : ∀ part, db.holder? part = none ∧ db.refuses (.make part) = none := by
      intro part
      have hnone := h (.make part) (mem_asked _)
      rwa [objection?, Option.or_eq_none_iff, Option.map_eq_none_iff] at hnone
    refine ⟨fun part => (hmake part).1, ?_⟩
    intro statement
    cases statement with
    | make part => exact (hmake part).2
    | begin => exact h .begin (mem_asked _)
    | insertCanonicals => exact h .insertCanonicals (mem_asked _)
    | insertNodes => exact h .insertNodes (mem_asked _)
    | commit => exact h .commit (mem_asked _)

theorem objection?_holding_insertNodes (i : Index) :
    (db.holding i).objection? .insertNodes = db.objection? .insertNodes := rfl

theorem objection?_holding_commit (i : Index) : (db.holding i).objection? .commit = db.objection? .commit := rfl

/-! ## Rows -/

theorem insertCanonical_on {m : Std.ExtTreeMap Int (List Char)} {row : Int × List Char} (h : row.1 ∉ m)
    (hrows : db.canonical = some (.relation m)) :
    (insertCanonical row).on db = (.ok (), { db with canonical := some (.relation (m.insert row.1 row.2)) }) := by
  obtain ⟨canonical, nodes, nodeLookup, refuses⟩ := db
  cases hrows
  show Work.on (if row.1 ∈ m then _ else _) _ = _
  rw [if_neg h]
  rfl

/-- rows of different ids are written one after the other -/
theorem insertCanonicals_on {rows : List (Int × List Char)} (hdistinct : rows.Pairwise fun a b => a.1 ≠ b.1)
    {m : Std.ExtTreeMap Int (List Char)} (hfresh : ∀ row ∈ rows, row.1 ∉ m) (hrows : db.canonical = some (.relation m)) :
    (rows.forM insertCanonical).on db = (.ok (), { db with canonical := some (.relation (m.insertMany rows)) }) := by
  induction rows generalizing m db with
  | nil =>
    obtain ⟨canonical, nodes, nodeLookup, refuses⟩ := db
    cases hrows
    rfl
  | cons row rows ih =>
    obtain ⟨hrow, hdistinct⟩ := List.pairwise_cons.mp hdistinct
    have hrest : ∀ r ∈ rows, r.1 ∉ m.insert row.1 row.2 := by
      intro r hr hmem
      rw [Std.ExtTreeMap.mem_insert, Std.LawfulEqOrd.compare_eq_iff_eq] at hmem
      rcases hmem with heq | hmem
      · exact hrow r hr heq
      · exact hfresh r (List.mem_cons_of_mem _ hr) hmem
    show (insertCanonical row >>= fun _ => rows.forM insertCanonical).on _ = _
    rw [Work.on_bind_of_ok (insertCanonical_on (hfresh row List.mem_cons_self) hrows), ih hdistinct hrest rfl,
      Std.ExtTreeMap.insertMany_cons]

theorem insertCanonicals_of_assign (encodings : List (List Char)) (hrows : db.canonical = some (.relation ∅)) :
    ((CanonicalIds.assign encodings).rows.forM insertCanonical).on db =
      (.ok (), { db with canonical := some (.relation (.ofList (CanonicalIds.assign encodings).rows)) }) := by
  have hdistinct : (CanonicalIds.assign encodings).rows.Pairwise fun a b => a.1 ≠ b.1 :=
    (CanonicalIds.descending_rows_assign encodings).imp fun hlt => (Int.ne_of_lt hlt).symm
  rw [insertCanonicals_on hdistinct (by simp) hrows, Std.ExtTreeMap.ofList_eq_insertMany_empty]

/-- the node rows are written as the walk makes them, those ahead of an error included -/
theorem writeNodes_on (source : RuleSource) (ids : CanonicalIds) (r : Recognizer) (hrows : db.nodes = some (.relation ∅)) :
    (writeNodes source ids r).on db =
      (source.compileNodes ids r, { db with
        nodes := some (.relation (r.trie.accept (NodeWriter.visitor source ids r.trie) NodeWriter.start).rows) }) := by
  obtain ⟨canonical, nodes, nodeLookup, refuses⟩ := db
  cases hrows
  show (finish (r.trie.accept (NodeWriter.visitor source ids r.trie) NodeWriter.start)).on
    ⟨canonical, some (.relation (r.trie.accept (NodeWriter.visitor source ids r.trie) NodeWriter.start).rows), nodeLookup,
      refuses⟩ = _
  unfold RuleSource.compileNodes finish
  generalize r.trie.accept (NodeWriter.visitor source ids r.trie) NodeWriter.start = written
  cases herror : written.error <;> simp only [herror] <;> rfl

end Database

namespace RuleSource

variable {source : RuleSource} {r : Recognizer} {db : Database}

/-- the work of a compilation once all its parts are made and the canonical rows are written -/
def indexingNodes (source : RuleSource) (r : Recognizer) : Database.Work IndexSummary := do
  Database.perform .insertNodes
  let written ← Database.writeNodes source source.canonicalIds r
  Database.perform .commit
  return ⟨source.canonicalIds.size, written.ids.size, written.rules⟩

def indexing (source : RuleSource) (r : Recognizer) : Database.Work IndexSummary := do
  Database.opening.forM Database.perform
  source.canonicalIds.rows.forM Database.insertCanonical
  source.indexingNodes r

theorem compileNodes_eq_ok {ids : CanonicalIds} {r : Recognizer} {written : NodeWriter.State}
    (h : source.compileNodes ids r = .ok written) :
    written = r.trie.accept (NodeWriter.visitor source ids r.trie) NodeWriter.start := by
  unfold compileNodes at h
  simp only at h
  split at h
  · cases h
  · exact (Except.ok.inj h).symm

theorem indexInto_eq_transact (hadd : Recognizer.empty.addAll source.patterns = .ok r) (db : Database) :
    source.indexInto db = db.transact (source.indexing r) := by
  unfold indexInto
  rw [hadd]
  rfl

/-- once nothing has objected to the opening, it is for the node rows -/
theorem indexing_on (h : ∀ statement ∈ Database.opening, db.objection? statement = none) :
    (source.indexing r).on db = (source.indexingNodes r).on (db.holding ⟨.ofList source.canonicalIds.rows, ∅⟩) := by
  unfold indexing
  rw [Database.Work.on_bind_of_ok (Database.forM_perform_of_none (by decide) h)]
  exact Database.Work.on_bind_of_ok (Database.insertCanonicals_of_assign _ rfl) _

theorem indexingNodes_of_objection {cause : StoreFailure} (h : db.objection? .insertNodes = some cause) :
    (source.indexingNodes r).on db = (.error (.index (.store cause)), db) :=
  Database.Work.on_bind_of_error (Database.perform_of_some h) _

section Walk

variable (hrows : db.nodes = some (.relation ∅)) (hwilling : db.objection? .insertNodes = none)

include hrows hwilling

theorem indexingNodes_of_fault {e : Error} (hnodes : source.compileNodes source.canonicalIds r = .error e) :
    ∃ db', (source.indexingNodes r).on db = (.error e, db') := by
  have hwrite := Database.writeNodes_on source source.canonicalIds r hrows
  rw [hnodes] at hwrite
  unfold indexingNodes
  rw [Database.Work.on_bind_of_ok (Database.perform_of_none hwilling)]
  exact ⟨_, Database.Work.on_bind_of_error hwrite _⟩

/-- without a fault it is for the database to commit -/
theorem indexingNodes_of_written {written : NodeWriter.State}
    (hnodes : source.compileNodes source.canonicalIds r = .ok written) :
    (source.indexingNodes r).on db = (do
        Database.perform .commit
        return ⟨source.canonicalIds.size, written.ids.size, written.rules⟩ : Database.Work IndexSummary).on
      { db with nodes := some (.relation written.rows) } := by
  have hwrite := Database.writeNodes_on source source.canonicalIds r hrows
  rw [hnodes, ← compileNodes_eq_ok hnodes] at hwrite
  unfold indexingNodes
  rw [Database.Work.on_bind_of_ok (Database.perform_of_none hwilling)]
  exact Database.Work.on_bind_of_ok hwrite _

end Walk

/-! ## Ends of a compilation -/

/-- an objection ahead of the node rows ends a compilation -/
theorem indexInto_of_objection {cause : StoreFailure} (h : Database.askedAhead.findSome? db.objection? = some cause) :
    source.indexInto db = (.error (.index (.store cause)), db) := by
  obtain ⟨r, hadd, -⟩ := Recognizer.addAll_empty source.patterns
  rw [indexInto_eq_transact hadd]
  apply Database.transact_of_error
  rw [Database.askedAhead, List.findSome?_append, Option.or_eq_some_iff] at h
  rcases h with hopening | ⟨hopening, hnodes⟩
  · obtain ⟨db', hfailed⟩ := Database.forM_perform_of_some (by decide) hopening
    unfold indexing
    rw [Database.Work.on_bind_of_error hfailed]
  · rw [List.findSome?_singleton, ← Database.objection?_holding_insertNodes] at hnodes
    rw [indexing_on (List.findSome?_eq_none_iff.mp hopening), indexingNodes_of_objection hnodes]

section Walk

variable (hahead : ∀ statement ∈ Database.askedAhead, db.objection? statement = none)

include hahead

theorem willing_of_ahead (i : Index) : (db.holding i).objection? .insertNodes = none :=
  (List.forall_mem_append.mp hahead).2 .insertNodes (List.mem_singleton_self _)

/-- a fault ends a compilation once the patterns are gone through -/
theorem indexInto_of_fault (hadd : Recognizer.empty.addAll source.patterns = .ok r) {e : Error}
    (hnodes : source.compileNodes source.canonicalIds r = .error e) : source.indexInto db = (.error e, db) := by
  obtain ⟨db', hfailed⟩ := indexingNodes_of_fault rfl (willing_of_ahead hahead ⟨.ofList source.canonicalIds.rows, ∅⟩) hnodes
  rw [indexInto_eq_transact hadd]
  apply Database.transact_of_error
  rw [indexing_on (List.forall_mem_append.mp hahead).1, hfailed]

variable {written : NodeWriter.State} (hnodes : source.compileNodes source.canonicalIds r = .ok written)

include hnodes

/-- without a fault the database has the last word -/
theorem indexing_of_written :
    (source.indexing r).on db = (do
        Database.perform .commit
        return ⟨source.canonicalIds.size, written.ids.size, written.rules⟩ : Database.Work IndexSummary).on
      (db.holding ⟨.ofList source.canonicalIds.rows, written.rows⟩) := by
  rw [indexing_on (List.forall_mem_append.mp hahead).1]
  exact indexingNodes_of_written rfl (willing_of_ahead hahead _) hnodes

theorem indexInto_of_commit (hadd : Recognizer.empty.addAll source.patterns = .ok r) {cause : StoreFailure}
    (hcommit : db.objection? .commit = some cause) : source.indexInto db = (.error (.index (.store cause)), db) := by
  rw [indexInto_eq_transact hadd]
  apply Database.transact_of_error
  rw [← Database.objection?_holding_commit ⟨.ofList source.canonicalIds.rows, written.rows⟩] at hcommit
  rw [indexing_of_written hahead hnodes, Database.Work.on_bind_of_error (Database.perform_of_some hcommit)]

theorem indexInto_of_written (hadd : Recognizer.empty.addAll source.patterns = .ok r)
    (hcommit : db.objection? .commit = none) :
    source.indexInto db = (.ok ⟨source.canonicalIds.size, written.ids.size, written.rules⟩,
      db.holding ⟨.ofList source.canonicalIds.rows, written.rows⟩) := by
  rw [indexInto_eq_transact hadd]
  apply Database.transact_of_ok
  rw [← Database.objection?_holding_commit ⟨.ofList source.canonicalIds.rows, written.rows⟩] at hcommit
  rw [indexing_of_written hahead hnodes, Database.Work.on_bind_of_ok (Database.perform_of_none hcommit)]
  rfl

end Walk

/-- in an empty database, compilation is what it is in a store without relations -/
theorem indexInto_empty (source : RuleSource) :
    source.indexInto .empty =
      match source.compileInto none with
      | .ok (i, summary) => (.ok summary, .ofStore (some i))
      | .error e => (.error e, .empty) := by
  obtain ⟨r, hadd, -⟩ := Recognizer.addAll_empty source.patterns
  have hahead : ∀ statement ∈ Database.askedAhead, Database.empty.objection? statement = none := by decide
  rw [compileInto_eq hadd]
  cases hnodes : source.compileNodes source.canonicalIds r with
  | error e => exact indexInto_of_fault hahead hadd hnodes
  | ok written => exact indexInto_of_written hahead hnodes hadd rfl

/-- in the database of a store, compilation is what it is in the store -/
theorem indexInto_ofStore (source : RuleSource) (store : Option Index) :
    source.indexInto (.ofStore store) =
      match source.compileInto store with
      | .ok (i, summary) => (.ok summary, .ofStore (some i))
      | .error e => (.error e, .ofStore store) := by
  cases store with
  | none => exact indexInto_empty source
  | some i =>
    obtain ⟨r, hadd, -⟩ := Recognizer.addAll_empty source.patterns
    have htaken : source.compileInto (some i) = .error (.index (.store (.nameTaken .canonical .table))) := by
      unfold compileInto
      rw [hadd]
      rfl
    rw [htaken]
    exact indexInto_of_objection rfl

/-! ## The first fault -/

/-- the pattern that is at fault, of several the one with the least encoding -/
structure FirstOffender (source : RuleSource) (p : Formula) : Prop where
  pattern : p ∈ source.patterns
  offends : ¬source.Replaces p
  first : ∀ q ∈ source.patterns, ¬source.Replaces q → q ≠ p → p.encode < q.encode

theorem exists_firstOffender {r : Recognizer} (hr : r.Holds source.patterns) {e : Error}
    (h : r.trie.entries.findSome? (NodeWriter.fault? source source.canonicalIds) = some e) :
    ∃ p, source.FirstOffender p ∧ e = .index (source.refusal p) := by
  obtain ⟨before, ⟨key, p⟩, after, hentries, hfault, hnone⟩ := List.findSome?_eq_some_iff.mp h
  obtain ⟨hmem, hkey⟩ := (Recognizer.mem_entries hr (key, p)).mp (hentries ▸ List.mem_append_right _ List.mem_cons_self)
  simp only at hmem hkey
  subst hkey
  have hoffends : ¬source.Replaces p := by
    intro hreplaces
    rw [fault?_of_replaces hreplaces] at hfault
    cases hfault
  refine ⟨p, ⟨hmem, hoffends, ?_⟩, ?_⟩
  · intro q hq hqoffends hne
    have hqentry : (q.encode, q) ∈ before ++ (p.encode, p) :: after :=
      hentries ▸ (Recognizer.mem_entries hr _).mpr ⟨hq, rfl⟩
    have hordered : Ascending (before ++ (p.encode, p) :: after) := hentries ▸ Trie.ascending_entries hr.wellFormed
    rcases List.mem_append.mp hqentry with hbefore | hrest
    · have hqfault := hnone _ hbefore
      rw [fault?_of_not_replaces hqoffends] at hqfault
      cases hqfault
    · rcases List.mem_cons.mp hrest with hsame | hafter
      · exact absurd (Prod.mk.inj hsame).2 hne
      · have hlt := (List.pairwise_cons.mp (List.pairwise_append.mp hordered).2.1).1 _ hafter
        exact (compare_eq_lt_iff _ _).mp hlt
  · rw [fault?_of_not_replaces hoffends] at hfault
    exact (Option.some.inj hfault).symm

/-- the node rows are written unless a pattern is at fault -/
theorem compileNodes_cases (hr : r.Holds source.patterns) :
    ((∀ p ∈ source.patterns, source.Replaces p) ∧
        ∃ written, source.compileNodes source.canonicalIds r = .ok written) ∨
      ∃ p, source.FirstOffender p ∧
        source.compileNodes source.canonicalIds r = .error (.index (source.refusal p)) := by
  cases hfault : r.trie.entries.findSome? (NodeWriter.fault? source source.canonicalIds) with
  | none =>
    have hreplaces := (findSome?_fault_eq_none hr).mp hfault
    exact Or.inl ⟨hreplaces, _, compileNodes_of_replaces hr hreplaces⟩
  | some e =>
    obtain ⟨p, hp, rfl⟩ := exists_firstOffender hr hfault
    exact Or.inr ⟨p, hp, compileNodes_of_fault hr hfault⟩

theorem indexInto_of_replaces (h : ∀ p ∈ source.patterns, source.Replaces p) :
    ∃ summary i, source.indexInto .empty = (.ok summary, .ofStore (some i)) := by
  obtain ⟨r, hadd, hr⟩ := Recognizer.addAll_empty source.patterns
  obtain ⟨i, hcompile, -⟩ := compileInto_none hadd hr h
  exact ⟨_, i, by rw [indexInto_empty, hcompile]⟩

theorem refusal_cases (source : RuleSource) (p : Formula) :
    (source.canonicalOf p = none ∧ source.refusal p = .noRule p.encode) ∨
      ∃ c, source.canonicalOf p = some c ∧ source.refusal p = .missingCanonical c := by
  unfold refusal
  cases source.canonicalOf p with
  | none => exact Or.inl ⟨rfl, rfl⟩
  | some c => exact Or.inr ⟨c, rfl, rfl⟩

/-- the three ways that a compilation can end -/
theorem indexInto_cases (source : RuleSource) (db : Database) :
    (db.Ready ∧ (∀ p ∈ source.patterns, source.Replaces p) ∧
        ∃ summary i, source.indexInto db = (.ok summary, .ofStore (some i))) ∨
      (∃ p, source.FirstOffender p ∧ source.indexInto db = (.error (.index (source.refusal p)), db)) ∨
      ∃ cause, Database.asked.findSome? db.objection? = some cause ∧
        source.indexInto db = (.error (.index (.store cause)), db) := by
  obtain ⟨r, hadd, hr⟩ := Recognizer.addAll_empty source.patterns
  cases hobjection : Database.askedAhead.findSome? db.objection? with
  | some cause =>
    refine Or.inr (Or.inr ⟨cause, ?_, indexInto_of_objection hobjection⟩)
    rw [Database.asked, List.findSome?_append, hobjection, Option.some_or]
  | none =>
    have hahead := List.findSome?_eq_none_iff.mp hobjection
    rcases compileNodes_cases hr with ⟨hreplaces, written, hnodes⟩ | ⟨p, hp, hnodes⟩
    · have hasked : Database.asked.findSome? db.objection? = db.objection? .commit := by
        rw [Database.asked, List.findSome?_append, hobjection, Option.none_or, List.findSome?_singleton]
      cases hcommit : db.objection? .commit with
      | some cause =>
        exact Or.inr (Or.inr ⟨cause, hasked.trans hcommit, indexInto_of_commit hahead hnodes hadd hcommit⟩)
      | none =>
        have hready : db.Ready := Database.ready_iff.mpr (hasked.trans hcommit)
        obtain rfl := hready.eq_empty
        exact Or.inl ⟨hready, hreplaces, indexInto_of_replaces hreplaces⟩
    · exact Or.inr (Or.inl ⟨p, hp, indexInto_of_fault hahead hadd hnodes⟩)

/-- **Compilation is all or nothing, with a determined error.** It goes well exactly if the database is ready for an index
and the source replaces each of its patterns with a formula that it lists as canonical. Otherwise the database is left as it
was. If only the patterns are at fault, the error is that of the one with the least encoding among those at fault: that
nothing replaces it, or that what replaces it is not canonical. If only the database is, the error is the first of its
objections. A key that does not read back, an orphan, an empty key and an unknown node are never met. -/
theorem indexInto_all_or_nothing (source : RuleSource) (db : Database) :
    ((∃ summary db', source.indexInto db = (.ok summary, db')) ↔
      db.Ready ∧ ∀ p ∈ source.patterns, ∃ c ∈ source.canonical, source.canonicalOf p = some c) ∧
    ∀ e db', source.indexInto db = (.error e, db') →
      db' = db ∧
      (db.Ready → ∃ p, source.FirstOffender p ∧
        ((source.canonicalOf p = none ∧ e = .index (.noRule p.encode)) ∨
          ∃ c, source.canonicalOf p = some c ∧ e = .index (.missingCanonical c))) ∧
      ((∀ p ∈ source.patterns, ∃ c ∈ source.canonical, source.canonicalOf p = some c) →
        ∃ cause, Database.asked.findSome? db.objection? = some cause ∧ e = .index (.store cause)) ∧
      (∀ key, e ≠ .index (.encodingCollision key)) ∧ (∀ id parent, e ≠ .index (.orphan id parent)) ∧
      e ≠ .trie .emptyKey ∧ e ≠ .trie .unknownNode := by
  rcases indexInto_cases source db with ⟨hready, hreplaces, summary, i, hok⟩ | ⟨p, hp, herror⟩ | ⟨cause, hcause, herror⟩
  · refine ⟨⟨fun _ => ⟨hready, hreplaces⟩, fun _ => ⟨_, _, hok⟩⟩, ?_⟩
    intro e db' h
    rw [hok] at h
    cases h
  · refine ⟨⟨?_, ?_⟩, ?_⟩
    · intro h
      obtain ⟨summary, db', h⟩ := h
      rw [herror] at h
      cases h
    · intro h
      exact absurd (h.2 p hp.pattern) hp.offends
    · intro e db' h
      rw [herror] at h
      cases h
      have hfault : ¬∀ p ∈ source.patterns, ∃ c ∈ source.canonical, source.canonicalOf p = some c := fun hreplaces =>
        hp.offends (hreplaces p hp.pattern)
      rcases refusal_cases source p with ⟨hof, hrefusal⟩ | ⟨c, hof, hrefusal⟩
      · rw [hrefusal]
        exact ⟨rfl, fun _ => ⟨p, hp, Or.inl ⟨hof, rfl⟩⟩, fun hreplaces => absurd hreplaces hfault, by simp⟩
      · rw [hrefusal]
        exact ⟨rfl, fun _ => ⟨p, hp, Or.inr ⟨c, hof, rfl⟩⟩, fun hreplaces => absurd hreplaces hfault, by simp⟩
  · have hnot : ¬db.Ready := by
      rw [Database.ready_iff, hcause]
      exact Option.some_ne_none cause
    refine ⟨⟨?_, fun h => absurd h.1 hnot⟩, ?_⟩
    · intro h
      obtain ⟨summary, db', h⟩ := h
      rw [herror] at h
      cases h
    · intro e db' h
      rw [herror] at h
      cases h
      exact ⟨rfl, fun hready => absurd hready hnot, fun _ => ⟨cause, hcause, rfl⟩, by simp⟩

end RuleSource

namespace Database

/-- neither relation is there, as far as tables go -/
def WithoutTables (db : Database) : Prop := db.holder? .canonical ≠ some .table ∧ db.holder? .nodes ≠ some .table

instance (db : Database) : Decidable db.WithoutTables := inferInstanceAs (Decidable (_ ∧ _))

def readOnlyEmpty : Database where
  canonical := none
  nodes := none
  nodeLookup := none
  refuses
    | .begin | .commit => none
    | _ => some .readOnly

/-- a database where a view has the name of the canonical relation -/
def viewed : Database := { empty with canonical := some (.other .view) }

/-- a database with an index whose relations have got other names; what finds the rows of a parent keeps its name -/
def renamed : Database := { empty with nodeLookup := some .index }

end Database

namespace RuleSource

/-- the constants, each the replacement of the negation of the other; one negation is listed twice -/
def negatedConstants : RuleSource where
  canonical := [.const true, .const false]
  patterns := [.neg (.const true), .neg (.const false), .neg (.const true)]
  canonicalOf
    | .neg (.const b) => some (.const !b)
    | _ => none

theorem replaces_negatedConstants : ∀ p ∈ negatedConstants.patterns, negatedConstants.Replaces p := by
  simp [negatedConstants, Replaces]

/-- that there is no table of an index, and no fault in the source, is not enough: the database may be there to be read only,
and names are shared with what is no table -/
theorem indexInto_without_tables :
    (∀ p ∈ negatedConstants.patterns, ∃ c ∈ negatedConstants.canonical, negatedConstants.canonicalOf p = some c) ∧
    (Database.readOnlyEmpty.WithoutTables ∧
      negatedConstants.indexInto .readOnlyEmpty = (.error (.index (.store .readOnly)), .readOnlyEmpty)) ∧
    (Database.viewed.WithoutTables ∧
      negatedConstants.indexInto .viewed = (.error (.index (.store (.nameTaken .canonical .view))), .viewed)) ∧
    (Database.renamed.WithoutTables ∧
      negatedConstants.indexInto .renamed = (.error (.index (.store (.nameTaken .nodeLookup .index))), .renamed)) :=
  ⟨replaces_negatedConstants, ⟨by decide, indexInto_of_objection rfl⟩, ⟨by decide, indexInto_of_objection rfl⟩,
    ⟨by decide, indexInto_of_objection rfl⟩⟩

end RuleSource

end ClauseFold
