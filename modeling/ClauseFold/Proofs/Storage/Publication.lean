/-
Publication of an index is atomic, whatever the files are and whichever step fails: the path holds the whole new index, or
what it held before. The exception is a path that is also the place of the store beside it. A path that begins with `file:`
can be one, as the name of a store is then a URI.

Results:
- `keepsApart_of_path`: at any other path, the store and its journal are kept at other places;
- `openStore_spec`, `compileTo_eq_ok`, `writeRelations_spec`: what the steps do;
- `publication_atomic`: the whole of it;
- `publication_of_uri`: a path where a publication fails and has changed what the path holds.
-/
import ClauseFold.Proofs.Index.Transaction
import ClauseFold.Proofs.Storage.FileSystem
import ClauseFold.Proofs.Text.Lines
import ClauseFold.Storage.Publication

namespace ClauseFold

/-! ## The place beside a path -/

namespace Path

theorem exists_splitOn_append (p : Path) :
    ∃ front last, ∀ tail, '/' ∉ tail → (p ++ tail).splitOn '/' = front ++ [last ++ tail] := by
  induction p with
  | nil =>
    refine ⟨[], [], ?_⟩
    intro tail htail
    exact Text.splitOn_of_not_mem htail
  | cons c p ih =>
    obtain ⟨front, last, hcut⟩ := ih
    by_cases hc : c = '/'
    · refine ⟨[] :: front, last, ?_⟩
      intro tail htail
      rw [hc, List.cons_append, Text.splitOn_cons_self, hcut tail htail]
      rfl
    · have hsymbol : '/' ∉ [c] := by simpa using Ne.symm hc
      cases front with
      | nil =>
        refine ⟨[], c :: last, ?_⟩
        intro tail htail
        rw [List.cons_append, ← List.singleton_append, Text.splitOn_append hsymbol, hcut tail htail]
        rfl
      | cons name front =>
        refine ⟨(c :: name) :: front, last, ?_⟩
        intro tail htail
        rw [List.cons_append, ← List.singleton_append, Text.splitOn_append hsymbol, hcut tail htail]
        rfl

/-- the names of a path, and of the path beside it -/
theorem names_unfinished (p : Path) :
    ∃ front last, names p = front ++ (if last.isEmpty then [] else [last]) ∧
      names (unfinished p) = front ++ [last ++ ".partial".toList] := by
  obtain ⟨front, last, hcut⟩ := exists_splitOn_append p
  refine ⟨front.filter fun n => !n.isEmpty, last, ?_, ?_⟩
  · have hp := hcut [] List.not_mem_nil
    rw [List.append_nil, List.append_nil] at hp
    unfold names
    rw [hp, List.filter_append]
    cases last <;> rfl
  · have hbeside := hcut ".partial".toList (by decide)
    unfold names unfinished
    rw [hbeside, List.filter_append]
    simp

/-- a path leads to a name or to no deeper place than the directory of that name is; the path beside it leads to a longer
name in the same directory -/
theorem target_unfinished (start : Location) (p : Path) :
    ∃ above last, start.target (names (unfinished p)) = (last ++ ".partial".toList) :: above ∧
      (start.target (names p) = last :: above ∨ (start.target (names p)).length ≤ above.length) := by
  obtain ⟨front, last, hnames, hbeside⟩ := names_unfinished p
  have hlength : 2 < (last ++ ".partial".toList).length := by
    rw [List.length_append]
    have hpartial : ".partial".toList.length = 8 := by decide
    omega
  have hhere : last ++ ".partial".toList ≠ Location.here := fun heq => by
    rw [heq] at hlength
    revert hlength
    decide
  have hback : last ++ ".partial".toList ≠ Location.back := fun heq => by
    rw [heq] at hlength
    revert hlength
    decide
  refine ⟨start.target front, last, ?_, ?_⟩
  · rw [hbeside, Location.target_append]
    unfold Location.after
    rw [if_neg hhere, if_neg hback]
  · rw [hnames]
    split
    · rw [List.append_nil]
      exact Or.inr (Nat.le_refl _)
    · rw [Location.target_append]
      unfold Location.after
      split
      · exact Or.inr (Nat.le_refl _)
      · split
        · right
          rw [List.length_tail]
          omega
        · exact Or.inl rfl

theorem hasSlashEnd_unfinished (p : Path) : hasSlashEnd (unfinished p) = false := by
  have hlast : (unfinished p).getLast? = some 'l' := by
    unfold unfinished
    rw [List.getLast?_append]
    rfl
  unfold hasSlashEnd
  rw [hlast]
  rfl

theorem start_unfinished (fs : FileSystem) (p : Path) : fs.start (unfinished p) = fs.start p := by
  cases p <;> rfl

/-- a name that goes on is another name -/
theorem ne_of_longer {above place : Location} {last ext : List Char} (hext : ext ≠ [])
    (h : place = last :: above ∨ place.length ≤ above.length) : place ≠ (last ++ ext) :: above := by
  rintro rfl
  rcases h with heq | hlength
  · exact hext (List.append_right_eq_self.mp (List.cons.inj heq).1)
  · rw [List.length_cons] at hlength
    omega

end Path

/-! ## Stores -/

namespace FileSystem

variable {fs fs' : FileSystem} {store : Store}

theorem storeStep_eq_some {place q : Location} {name : List Char} (h : fs.storeStep place name = some q) :
    q = place.after name := by
  unfold storeStep at h
  unfold Location.after
  split at h
  · rename_i hhere
    rw [if_pos hhere]
    exact (Option.some.inj h).symm
  · rename_i hhere
    split at h
    · rename_i hback
      rw [if_neg hhere, if_pos hback]
      exact (Option.some.inj h).symm
    · rename_i hback
      rw [if_neg hhere, if_neg hback]
      split at h
      · cases h
      · split at h
        · exact (Option.some.inj h).symm
        · split at h
          · cases h
          · exact (Option.some.inj h).symm
        · cases h

/-- the place of a store, by the names in its name -/
def storeTarget (fs : FileSystem) (name : StoreName) : Location := (fs.start name.file).target (Path.names name.file)

theorem storePlace?_eq_some {name : StoreName} {q : Location} (h : fs.storePlace? name.file = some q) :
    q = fs.storeTarget name := by
  have hfold : ∀ (names : List (List Char)) (place : Location), names.foldlM fs.storeStep place = some q →
      q = place.target names := by
    intro names
    induction names with
    | nil => exact fun _ h => (Option.some.inj h).symm
    | cons name names ih =>
      intro place h
      rw [List.foldlM_cons] at h
      obtain ⟨next, hnext, hrest⟩ := Option.bind_eq_some_iff.mp h
      rw [ih next hrest, storeStep_eq_some hnext]
      rfl
  exact hfold _ _ (Option.eq_some_of_filter_eq_some h)

theorem openAt?_spec {access : Access} {place : Location} (h : fs.openAt? access place = some (store, fs')) :
    Confined fs fs' (fun q => store.place? = some q) ∧ ∀ q, store.place? = some q → q = place := by
  unfold openAt? at h
  split at h
  · cases h
    exact ⟨.refl _ _, fun q hq => by cases hq⟩
  · cases h
    exact ⟨.refl _ _, fun q hq => (Option.some.inj hq).symm⟩
  · cases h
  · cases h
    exact ⟨.refl _ _, fun q hq => (Option.some.inj hq).symm⟩
  · rename_i hentry
    split at h
    · cases h
      have hnone : fs.entryAt? place ≠ some .directory := by
        rw [hentry]
        exact Option.some_ne_none _ |>.symm
      have hfile : Entry.file [] ≠ .directory := fun heq => by cases heq
      exact ⟨(Confined.put hnone hfile).mono fun q hq => by rw [hq], fun q hq => (Option.some.inj hq).symm⟩
    · cases h
  · cases h

/-- opening a store makes at most the store, which is kept where its name says -/
theorem openStore_spec {offered : Access} {text : List Char} (h : fs.openStore offered text = .ok (store, fs')) :
    Confined fs fs' (fun q => store.place? = some q) ∧
      ∀ q, store.place? = some q → ∃ name, StoreName.ofText offered text = .ok name ∧ q = fs.storeTarget name := by
  obtain ⟨name, hname, h⟩ := bind_eq_ok.mp h
  split at h
  · cases h
    exact ⟨.refl _ _, fun q hq => by cases hq⟩
  · split at h
    · cases h
    · rename_i opened hopened
      cases h
      obtain ⟨place, hplace, hopen⟩ := Option.bind_eq_some_iff.mp hopened
      obtain ⟨hconfined, honly⟩ := openAt?_spec hopen
      refine ⟨hconfined, ?_⟩
      intro q hq
      exact ⟨name, hname, (honly q hq).trans (storePlace?_eq_some hplace)⟩

theorem entryAt?_of_relations {place : Location} (hplace : store.place? = some place) (h : fs.relations store = .ok none) :
    fs.entryAt? place ≠ some .directory := by
  intro hdirectory
  have hunreadable : fs.relationsAt place = .error .unreadable := by
    unfold relationsAt
    rw [hdirectory]
  unfold relations at h
  simp only [hplace, hunreadable] at h
  split at h
  · rename_i heq
    cases heq
  · cases h
  · cases h

/-- dropping a journal takes away nothing else -/
theorem dropJournal_spec (fs : FileSystem) (place : Location) :
    Confined fs (fs.dropJournal place) (fun q => q = journalPlace place) ∧
      ∀ q e, (fs.dropJournal place).entryAt? q = some e → fs.entryAt? q = some e := by
  have herase : fs.entryAt? (journalPlace place) ≠ some .directory →
      Confined fs (fs.erase (journalPlace place)) (fun q => q = journalPlace place) ∧
        ∀ q e, (fs.erase (journalPlace place)).entryAt? q = some e → fs.entryAt? q = some e := by
    intro hne
    refine ⟨.erase hne, ?_⟩
    intro q e hq
    by_cases hjournal : q = journalPlace place
    · rw [hjournal, entryAt?_erase_self hne] at hq
      cases hq
    · rwa [entryAt?_erase_of_ne hjournal] at hq
  unfold dropJournal
  split
  · rename_i hentry
    exact herase (by rw [hentry]; simp)
  · rename_i hentry
    exact herase (by rw [hentry]; simp)
  · exact ⟨.refl _ _, fun q e hq => hq⟩

/-- writing relations into a store drops its journal, and puts the relations where it is kept -/
theorem writeRelations_spec (i : Index) (h : ∀ place, store.place? = some place → fs.entryAt? place ≠ some .directory) :
    Confined fs (fs.writeRelations i store)
        (fun q => ∃ place, store.place? = some place ∧ (q = place ∨ q = journalPlace place)) ∧
      ∀ q e, (fs.writeRelations i store).entryAt? q = some e →
        (store.place? = some q ∧ e = .index i) ∨ (store.place? ≠ some q ∧ fs.entryAt? q = some e) := by
  unfold writeRelations
  cases hplace : store.place? with
  | none => exact ⟨.refl _ _, fun q e hq => Or.inr ⟨Option.some_ne_none q |>.symm, hq⟩⟩
  | some place =>
    obtain ⟨hdrop, honly⟩ := dropJournal_spec fs place
    have hne : (fs.dropJournal place).entryAt? place ≠ some .directory :=
      fun hdirectory => h place hplace ((hdrop.directories place).mp hdirectory)
    have hindex : Entry.index i ≠ .directory := fun heq => by cases heq
    refine ⟨(hdrop.trans (Confined.put hne hindex)).mono ?_, ?_⟩
    · intro q hq
      exact ⟨place, rfl, hq.symm⟩
    · intro q e hq
      by_cases hstore : q = place
      · rw [hstore, entryAt?_put_self hne] at hq
        exact Or.inl ⟨by rw [hstore], (Option.some.inj hq).symm⟩
      · rw [entryAt?_put_of_ne hstore] at hq
        exact Or.inr ⟨fun heq => hstore (Option.some.inj heq).symm, honly q e hq⟩

end FileSystem

/-- a store that is ready for an index is one without relations -/
theorem FileSystem.relations_of_ready {fs : FileSystem} {store : Store} {db : Database} (h : fs.database store = .ok db)
    (hready : db.Ready) : fs.relations store = .ok none := by
  obtain ⟨present, hpresent, hdb⟩ := bind_eq_ok.mp h
  cases hdb
  cases present with
  | none => exact hpresent
  | some i => exact absurd (hready.free .canonical) (Option.some_ne_none _)

theorem FileSystem.database_eq_empty {fs : FileSystem} {store : Store} (hrelations : fs.relations store = .ok none)
    (hwritable : fs.checkWritable store = .ok ()) : fs.database store = .ok .empty := by
  unfold FileSystem.database
  rw [hrelations, hwritable]
  show Except.ok _ = Except.ok _
  congr 1
  simp only [Database.ofStore, Database.empty]

theorem RuleSource.compileTo_eq (source : RuleSource) {fs : FileSystem} {store : Store} {db : Database}
    (h : fs.database store = .ok db) :
    source.compileTo fs store = (source.indexInto db).1.map fun summary =>
      (summary, (source.indexInto db).2.store.elim fs fun i => fs.writeRelations i store) := by
  unfold compileTo
  rw [h]
  rfl

/-- a source is compiled only into a store without relations, as it is into an empty database -/
theorem RuleSource.compileTo_eq_ok {source : RuleSource} {fs fs' : FileSystem} {store : Store} {summary : IndexSummary}
    (h : source.compileTo fs store = .ok (summary, fs')) :
    ∃ i, source.indexInto .empty = (.ok summary, .ofStore (some i)) ∧ fs' = fs.writeRelations i store ∧
      ∀ place, store.place? = some place → fs.entryAt? place ≠ some .directory := by
  obtain ⟨db, hdb, -⟩ := bind_eq_ok.mp h
  rw [mapError_eq_ok] at hdb
  rw [compileTo_eq source hdb] at h
  rcases indexInto_cases source db with ⟨hready, -, _, i, hok⟩ | ⟨p, -, herror⟩ | ⟨cause, -, herror⟩
  · have hrelations := FileSystem.relations_of_ready hdb hready
    rw [hok] at h
    cases h
    rw [hready.eq_empty] at hok
    exact ⟨i, hok, rfl, fun place hplace => FileSystem.entryAt?_of_relations hplace hrelations⟩
  · rw [herror] at h
    cases h
  · rw [herror] at h
    cases h

/-- a source that replaces its patterns is compiled into a store without relations that can be written -/
theorem RuleSource.exists_compileTo {source : RuleSource} {fs : FileSystem} {store : Store}
    (hrelations : fs.relations store = .ok none) (hwritable : fs.checkWritable store = .ok ())
    (hreplaces : ∀ p ∈ source.patterns, source.Replaces p) :
    ∃ i summary, source.compileTo fs store = .ok (summary, fs.writeRelations i store) := by
  obtain ⟨summary, i, hindex⟩ := indexInto_of_replaces hreplaces
  refine ⟨i, summary, ?_⟩
  rw [compileTo_eq source (FileSystem.database_eq_empty hrelations hwritable), hindex]
  rfl

/-! ## Where a publication works -/

namespace FileSystem

variable {fs fs' : FileSystem} {path : Path} {place : Location}

theorem Confined.storeTarget {changed : Location → Prop} (h : Confined fs fs' changed) (name : StoreName) :
    fs'.storeTarget name = fs.storeTarget name := by
  unfold FileSystem.storeTarget start
  rw [h.base]

/-- the places beside a path: the one the path beside it leads to, the one of the store of that name, and its journal -/
def Beside (fs : FileSystem) (path : Path) (q : Location) : Prop :=
  fs.locate (Path.unfinished path) = .ok q ∨
    ∃ name, StoreName.ofText .create (Path.unfinished path) = .ok name ∧
      (q = fs.storeTarget name ∨ q = journalPlace (fs.storeTarget name))

/-- the store beside a path, and its journal, are not kept at the place of the path -/
def KeepsApart (fs : FileSystem) (path : Path) : Prop :=
  ∀ name place, StoreName.ofText .create (Path.unfinished path) = .ok name → fs.locate path = .ok place →
    place ≠ fs.storeTarget name ∧ place ≠ journalPlace (fs.storeTarget name)

/-- a path and the path beside it lead to different places -/
theorem locate_unfinished_ne (h : fs.locate path = .ok place) : fs.locate (Path.unfinished path) ≠ .ok place := by
  intro hbeside
  obtain ⟨above, last, htarget, hpath⟩ := Path.target_unfinished (fs.start path) path
  rw [← eq_target_of_locate h] at hpath
  have hplace := eq_target_of_locate hbeside
  rw [Path.start_unfinished, htarget] at hplace
  exact Path.ne_of_longer (by decide) hpath hplace

theorem not_beside_of_keepsApart (hapart : fs.KeepsApart path) (h : fs.locate path = .ok place) :
    ¬fs.Beside path place := by
  rintro (hbeside | ⟨name, hname, hstore | hjournal⟩)
  · exact locate_unfinished_ne h hbeside
  · exact (hapart name place hname h).1 hstore
  · exact (hapart name place hname h).2 hjournal

end FileSystem

/-- what is put behind a path does not make a URI of it -/
theorem Path.isUri_unfinished {path : Path} (h : StoreName.scheme.isPrefixOf path = false) :
    StoreName.scheme.isPrefixOf (unfinished path) = false := by
  rw [Bool.eq_false_iff, ne_eq, List.isPrefixOf_iff_prefix] at h ⊢
  intro hprefix
  rcases List.prefix_or_prefix_of_prefix hprefix (List.prefix_append path ".partial".toList) with hscheme | ⟨rest, hrest⟩
  · exact h hscheme
  · -- the scheme would go on with the dot
    rw [← hrest] at h hprefix
    obtain ⟨more, hmore⟩ := (List.prefix_append_right_inj path).mp hprefix
    cases rest with
    | nil => exact h (by rw [List.append_nil])
    | cons c rest =>
      have hdot : c = '.' := (List.cons.inj hmore).1
      have hscheme : '.' ∉ StoreName.scheme := by decide
      exact hscheme (by rw [← hrest, hdot]; simp)

/-- at a path that is no URI the store is kept beside the path -/
theorem FileSystem.keepsApart_of_path (fs : FileSystem) {path : Path} (h : StoreName.scheme.isPrefixOf path = false) :
    fs.KeepsApart path := by
  intro name place hname hplace
  have hfile : name.file = Path.unfinished path := by
    unfold StoreName.ofText at hname
    rw [Path.isUri_unfinished h] at hname
    cases hname
    rfl
  obtain ⟨above, last, htarget, hpath⟩ := Path.target_unfinished (fs.start path) path
  rw [← eq_target_of_locate hplace] at hpath
  have hstore : fs.storeTarget name = (last ++ ".partial".toList) :: above := by
    unfold storeTarget
    rw [hfile, Path.start_unfinished, htarget]
  rw [hstore]
  refine ⟨Path.ne_of_longer (by decide) hpath, ?_⟩
  have hjournal : journalPlace ((last ++ ".partial".toList) :: above) =
      (last ++ (".partial".toList ++ "-journal".toList)) :: above := by
    rw [← List.append_assoc]
    rfl
  rw [hjournal]
  exact Path.ne_of_longer (by decide) hpath

/-! ## The steps of a publication -/

namespace Publication

theorem during_eq_ok {α : Type} {faults : Faults} {step : Step} {result : Except Error α} {a : α}
    (h : faults.during step result = .ok a) : result = .ok a := by
  unfold Faults.during at h
  split at h
  · cases h
  · exact mapError_eq_ok.mp h

theorem during_eq_error {α : Type} {faults : Faults} {step : Step} {result : Except Error α} {e : Step × Error}
    (h : faults.during step result = .error e) : e.1 = step := by
  unfold Faults.during at h
  split at h
  · cases h
    rfl
  · cases result with
    | error e' =>
      cases h
      rfl
    | ok a => cases h

/-- the files while a publication works beside a path, behind its first step -/
structure Working (fs fs' : FileSystem) (path : Path) : Prop where
  confined : FileSystem.Confined fs fs' (fs.Beside path)
  noDirectory : ∀ q, fs'.locate (Path.unfinished path) = .ok q → fs'.entryAt? q ≠ some .directory

namespace Working

variable {fs fs' fs'' : FileSystem} {path : Path} {store : Store}

/-- further work -/
theorem next (h : Working fs fs' path) {changed : Location → Prop} (hconfined : FileSystem.Confined fs' fs'' changed)
    (hchanged : ∀ q, changed q → fs.Beside path q) : Working fs fs'' path := by
  refine ⟨(h.confined.trans hconfined).mono fun q hq => hq.elim id (hchanged q), ?_⟩
  intro q hq hdirectory
  exact h.noDirectory q (hconfined.locate_eq_ok.mp hq) ((hconfined.directories q).mp hdirectory)

theorem of_cleared (h : fs.ensureAbsent (Path.unfinished path) = .ok fs') :
    Working fs fs' path ∧ fs'.held (Path.unfinished path) = none := by
  obtain ⟨hconfined, hnone⟩ := FileSystem.ensureAbsent_spec h
  refine ⟨⟨hconfined.mono fun q hq => Or.inl hq, ?_⟩, hnone⟩
  intro q hq
  rw [FileSystem.held_of_locate hq] at hnone
  rw [hnone]
  exact Option.some_ne_none _ |>.symm

/-- the store that is opened is one of the places beside the path -/
theorem beside_of_store (h : Working fs fs' path)
    (hopen : fs'.openStore .create (Path.unfinished path) = .ok (store, fs'')) {place : Location}
    (hplace : store.place? = some place) : fs.Beside path place ∧ fs.Beside path (FileSystem.journalPlace place) := by
  obtain ⟨name, hname, rfl⟩ := (FileSystem.openStore_spec hopen).2 place hplace
  rw [h.confined.storeTarget]
  exact ⟨Or.inr ⟨name, hname, Or.inl rfl⟩, Or.inr ⟨name, hname, Or.inr rfl⟩⟩

theorem opened (h : Working fs fs' path) (hopen : fs'.openStore .create (Path.unfinished path) = .ok (store, fs'')) :
    Working fs fs'' path :=
  h.next (FileSystem.openStore_spec hopen).1 fun _ hq => (h.beside_of_store hopen hq).1

theorem withdraw (h : Working fs fs' path) :
    Working fs (fs'.withdraw (Path.unfinished path)) path ∧
      (fs'.withdraw (Path.unfinished path)).held (Path.unfinished path) = none := by
  obtain ⟨hconfined, hnone⟩ := FileSystem.withdraw_spec fs' (Path.unfinished path)
  exact ⟨h.next hconfined fun q hq => Or.inl (h.confined.locate_eq_ok.mp hq), hnone h.noDirectory⟩

theorem held (h : Working fs fs' path) (hapart : fs.KeepsApart path) : fs'.held path = fs.held path :=
  h.confined.held fun _ hplace => FileSystem.not_beside_of_keepsApart hapart hplace

theorem written (h : Working fs fs' path)
    (hopen : fs'.openStore .create (Path.unfinished path) = .ok (store, fs''))
    (hplace : ∀ place, store.place? = some place → fs''.entryAt? place ≠ some .directory) (i : Index) :
    Working fs (fs''.writeRelations i store) path := by
  apply (h.opened hopen).next (FileSystem.writeRelations_spec i hplace).1
  rintro q ⟨place, hstore, rfl | rfl⟩
  · exact (h.beside_of_store hopen hstore).1
  · exact (h.beside_of_store hopen hstore).2

/-- what a step has left that failed behind the first one -/
theorem abandoned {e : Step × Error} {step : Step} (h : Working fs fs' path) (he : e.1 = step)
    (hnone : step = .compile ∨ step = .close → fs'.held (Path.unfinished path) = none) :
    (fs.KeepsApart path → fs'.held path = fs.held path) ∧
      (e.1 = .compile ∨ e.1 = .close → fs'.held (Path.unfinished path) = none) := by
  rw [he]
  exact ⟨h.held, hnone⟩

end Working

/-- what is moved to a path from beside it, where there was nothing, is what has been written -/
theorem rename_unfinished {cleared made moved : FileSystem} {path : Path} {store : Store} {i : Index}
    (hnone : cleared.held (Path.unfinished path) = none)
    (hmade : FileSystem.Confined cleared made fun q => store.place? = some q)
    (hplace : ∀ place, store.place? = some place → made.entryAt? place ≠ some .directory)
    (h : (made.writeRelations i store).rename (Path.unfinished path) path = .ok moved) :
    moved.held path = some (.index i) ∧ moved.held (Path.unfinished path) = none := by
  obtain ⟨hwritten, hentries⟩ := FileSystem.writeRelations_spec i hplace
  obtain ⟨place, goal, e, hbeside, hpath, he, hgoal, rfl⟩ :=
    FileSystem.rename_eq_ok (Path.hasSlashEnd_unfinished path) h
  have hindex : e = .index i := by
    rcases hentries place e he with ⟨-, hindex⟩ | ⟨hstore, hentry⟩
    · exact hindex
    · rw [hmade.elsewhere place hstore] at hentry
      rw [FileSystem.held_of_locate ((hmade.trans hwritten).locate_eq_ok.mp hbeside), hentry] at hnone
      cases hnone
  subst hindex
  have hne : goal ≠ place := by
    rintro rfl
    exact FileSystem.locate_unfinished_ne hpath hbeside
  have hfile : (made.writeRelations i store).entryAt? place ≠ some .directory := by
    rw [he]
    intro heq
    cases heq
  have herased := FileSystem.Confined.erase hfile
  have hgoalErased : ((made.writeRelations i store).erase place).entryAt? goal ≠ some .directory := by
    rwa [FileSystem.entryAt?_erase_of_ne hne]
  have hmoved := herased.trans (FileSystem.Confined.put (e := .index i) hgoalErased (fun heq => by cases heq))
  constructor
  · rw [FileSystem.held_of_locate (hmoved.locate_eq_ok.mpr hpath), FileSystem.entryAt?_put_self hgoalErased]
  · rw [FileSystem.held_of_locate (hmoved.locate_eq_ok.mpr hbeside), FileSystem.entryAt?_put_of_ne (Ne.symm hne),
      FileSystem.entryAt?_erase_self hfile]

end Publication

open Publication

/-- **Publication is atomic.** Whatever the files are, the source is, and whichever steps fail for other reasons: a
publication that goes well leaves at the path exactly the relations that the source is compiled into in an empty database,
and nothing beside the path; one that fails leaves what the path held, unless the store beside the path is kept at the path
itself, and it leaves nothing beside the path if the compilation has failed. The store is kept elsewhere wherever the path
is no URI. -/
theorem publication_atomic (faults : Faults) (source : RuleSource) (fs : FileSystem) (path : Path) :
    (match source.publishUnder faults fs path with
      | (.ok summary, fs') =>
        ∃ i, source.indexInto .empty = (.ok summary, .ofStore (some i)) ∧ fs'.held path = some (.index i) ∧
          fs'.held (Path.unfinished path) = none
      | (.error (step, _), fs') =>
        (fs.KeepsApart path → fs'.held path = fs.held path) ∧
          (step = .compile ∨ step = .close → fs'.held (Path.unfinished path) = none)) ∧
      (StoreName.scheme.isPrefixOf path = false → fs.KeepsApart path) := by
  refine ⟨?_, fs.keepsApart_of_path⟩
  rcases hresult : source.publishUnder faults fs path with ⟨ended, fs'⟩
  unfold RuleSource.publishUnder at hresult
  simp only at hresult
  split at hresult
  · rename_i e he
    cases hresult
    refine ⟨fun _ => rfl, ?_⟩
    rw [during_eq_error he]
    simp
  · rename_i cleared hclear
    obtain ⟨hcleared, hnone⟩ := Working.of_cleared (mapError_eq_ok.mp (during_eq_ok hclear))
    split at hresult
    · rename_i e he
      cases hresult
      exact hcleared.abandoned (during_eq_error he) (by simp)
    · rename_i store made hmade
      have hopen := mapError_eq_ok.mp (during_eq_ok hmade)
      split at hresult
      · rename_i e he
        cases hresult
        exact (hcleared.opened hopen).abandoned (during_eq_error he) (by simp)
      · split at hresult
        · rename_i e he
          cases hresult
          obtain ⟨hworking, hgone⟩ := (hcleared.opened hopen).withdraw
          exact hworking.abandoned (during_eq_error he) fun _ => hgone
        · rename_i summary written hcompiled
          obtain ⟨i, hindex, rfl, hplace⟩ := source.compileTo_eq_ok (during_eq_ok hcompiled)
          have hwritten := hcleared.written hopen hplace i
          split at hresult
          · rename_i e he
            cases hresult
            obtain ⟨hworking, hgone⟩ := hwritten.withdraw
            exact hworking.abandoned (during_eq_error he) fun _ => hgone
          · split at hresult
            · rename_i e he
              cases hresult
              exact hwritten.abandoned (during_eq_error he) (by simp)
            · rename_i moved hmoved
              cases hresult
              exact ⟨i, hindex, rename_unfinished hnone (FileSystem.openStore_spec hopen).1 hplace
                (mapError_eq_ok.mp (during_eq_ok hmoved))⟩

/-- a publication where a file and what is left of an earlier publication are in the way: undisturbed, the index replaces
the file; where the compilation breaks off, the file is what it was. Nothing is left beside it either way. -/
theorem publication_atomic_replacing :
    let fs := (FileSystem.empty.supply ['i'] (.file [1])).supply "i.partial".toList (.file [2])
    let faults : Faults := fun step => if step = .compile then some (.index (.store .readOnly)) else none
    let source : RuleSource := ⟨[.const false], [.neg (.const true)], fun _ => some (.const false)⟩
    (∃ summary i, (source.publishUnder noFaults fs ['i']).1 = .ok summary ∧
      (source.publishUnder noFaults fs ['i']).2.held ['i'] = some (.index i) ∧
      (source.publishUnder noFaults fs ['i']).2.held "i.partial".toList = none) ∧
    (source.publishUnder faults fs ['i']).1 = .error (.compile, .index (.store .readOnly)) ∧
    (source.publishUnder faults fs ['i']).2.held ['i'] = some (.file [1]) ∧
    (source.publishUnder faults fs ['i']).2.held "i.partial".toList = none := by
  intro fs faults source
  constructor
  · let place : Location := "i.partial".toList :: fs.base
    let store : Store := ⟨some place, true⟩
    let made := (fs.erase place).put place (.file [])
    obtain ⟨i, summary, hcompiled⟩ : ∃ i summary,
        source.compileTo made store = .ok (summary, made.writeRelations i store) :=
      RuleSource.exists_compileTo rfl rfl fun _ _ => ⟨.const false, List.mem_singleton_self _, rfl⟩
    have hclear : fs.ensureAbsent (Path.unfinished ['i']) = .ok (fs.erase place) := rfl
    have hopen : (fs.erase place).openStore .create (Path.unfinished ['i']) = .ok (store, made) := rfl
    have hmove : (made.writeRelations i store).rename (Path.unfinished ['i']) ['i'] =
        .ok (((made.writeRelations i store).erase place).put (['i'] :: fs.base) (.index i)) := rfl
    have hended : (source.publishUnder noFaults fs ['i']).1 = .ok summary := by
      unfold RuleSource.publishUnder Faults.during noFaults
      simp only [hclear, hopen, hcompiled, hmove, Except.mapError]
    have hatomic := (publication_atomic noFaults source fs ['i']).1
    rcases hresult : source.publishUnder noFaults fs ['i'] with ⟨ended, fs'⟩
    rw [hresult] at hatomic hended
    subst hended
    obtain ⟨i', -, hheld, hgone⟩ := hatomic
    exact ⟨summary, i', rfl, hheld, hgone⟩
  · obtain ⟨hatomic, hapart⟩ := publication_atomic faults source fs ['i']
    have hended : (source.publishUnder faults fs ['i']).1 = .error (.compile, .index (.store .readOnly)) := rfl
    rcases hresult : source.publishUnder faults fs ['i'] with ⟨ended, fs'⟩
    rw [hresult] at hatomic hended
    subst hended
    obtain ⟨hheld, hgone⟩ := hatomic
    exact ⟨rfl, hheld (hapart rfl), hgone (Or.inl rfl)⟩

/-! ## A path that is a URI -/

namespace StoreName

/-- a text without an escape stands for itself -/
theorem decode_of_no_escape {text : List Char} (h : '%' ∉ text) : decode text = text := by
  have hbytes : bytesOf text = Text.utf8 text := by
    induction text with
    | nil =>
      rw [bytesOf]
      rfl
    | cons c text ih =>
      have hc : c ≠ '%' := fun heq => h (heq ▸ List.mem_cons_self)
      rw [bytesOf, if_neg hc, ih fun hmem => h (List.mem_cons_of_mem c hmem), Text.utf8_cons]
  have hread := Text.lineOfBytes_utf8 text
  unfold Text.lineOfBytes at hread
  unfold decode
  rw [hbytes]
  cases hs : String.fromUTF8? ⟨(Text.utf8 text).toArray⟩ with
  | none => rfl
  | some s =>
    rw [hs] at hread
    exact Except.ok.inj hread

/-- what comes behind `?` is no part of the name -/
theorem ofText_uri : ofText .create "file:x?/../x.partial".toList = .ok ⟨['x'], .create, false⟩ := by
  have hauthority : withoutAuthority "x?/../x.partial".toList = .ok "x?/../x.partial".toList := rfl
  have hshown : (cut '#' "x?/../x.partial".toList).1 = "x?/../x.partial".toList := by decide
  have hcut : cut '?' "x?/../x.partial".toList = (['x'], "/../x.partial".toList) := by decide
  have hoptions : optionsOf "/../x.partial".toList = [("/../x.partial".toList, [])] := by
    have hsplit : "/../x.partial".toList.splitOn '&' = ["/../x.partial".toList] := by decide
    have hcut : cut '=' "/../x.partial".toList = ("/../x.partial".toList, []) := by decide
    have hname : decode "/../x.partial".toList = "/../x.partial".toList := decode_of_no_escape (by decide)
    have hvalue : decode [] = [] := decode_of_no_escape List.not_mem_nil
    unfold optionsOf option?
    rw [hsplit]
    simp only [List.filterMap_cons, hcut, hname, hvalue]
    rfl
  have hfile : decode ['x'] = ['x'] := decode_of_no_escape (by decide)
  change ofBody .create "x?/../x.partial".toList = _
  unfold ofBody
  simp only [hauthority, bind, Except.bind, hshown, hcut, hoptions, hfile]
  rfl

end StoreName

/-- **At a URI a publication can fail and change what the path holds.** The path leads to `x` through a directory `file:x?`.
The store beside the path has a URI for its name, of which `/../x.partial` is the query, so it is kept at `x`; there is
then nothing to be moved. -/
theorem publication_of_uri :
    let fs := FileSystem.empty.supply "file:x?".toList .directory
    let path : Path := "file:x?/../x".toList
    let source : RuleSource := ⟨[.const false], [.neg (.const true)], fun _ => some (.const false)⟩
    (source.publish fs path).1 = .error (.index (.file .missing)) ∧ fs.held path = none ∧
      ∃ i, (source.publish fs path).2.held path = some (.index i) := by
  intro fs path source
  let place : Location := ['x'] :: fs.base
  let store : Store := ⟨some place, true⟩
  let made := fs.put place (.file [])
  obtain ⟨i, summary, hcompiled⟩ : ∃ i summary,
      source.compileTo made store = .ok (summary, made.writeRelations i store) :=
    RuleSource.exists_compileTo rfl rfl fun _ _ => ⟨.const false, List.mem_singleton_self _, rfl⟩
  have hclear : fs.ensureAbsent (Path.unfinished path) = .ok fs := rfl
  have hopen : fs.openStore .create (Path.unfinished path) = .ok (store, made) := by
    change (StoreName.ofText .create "file:x?/../x.partial".toList >>= _) = _
    rw [StoreName.ofText_uri]
    rfl
  have hmove : (made.writeRelations i store).rename (Path.unfinished path) path = .error .missing := rfl
  have hpublish : source.publish fs path = (.error (.index (.file .missing)), made.writeRelations i store) := by
    unfold RuleSource.publish RuleSource.publishUnder Faults.during noFaults
    simp only [hclear, hopen, hcompiled, hmove, Except.mapError]
  rw [hpublish]
  exact ⟨rfl, rfl, i, rfl⟩

end ClauseFold
