/-
File systems and the ways through them. No call makes a directory or takes one away, so a path that leads to a place
before a call leads there after it, and a call changes what is held at the few places that it writes to. Which place a
path leads to, if it leads anywhere, can be told from its names alone.

Results:
- `held_eq`: what a path holds, by the place that it leads to;
- `eq_target_of_locate`: the place of a path, by its names;
- `Confined.held`: a change elsewhere leaves alone what a path holds;
- `ensureAbsent_spec`, `withdraw_spec`, `rename_eq_ok`: what the calls do.
-/
import ClauseFold.Proofs.Outcome
import ClauseFold.Storage.FileSystem

namespace ClauseFold

/-! ## Places by name -/

namespace Location

/-- the place that a name leads to from a place -/
def after (place : Location) (name : List Char) : Location :=
  if name = here then place else if name = back then place.tail else name :: place

/-- the place that names lead to from a place -/
def target (place : Location) (names : List (List Char)) : Location := names.foldl after place

theorem target_append (place : Location) (front : List (List Char)) (name : List Char) :
    place.target (front ++ [name]) = (place.target front).after name := by
  unfold target
  rw [List.foldl_append]
  rfl

end Location

/-- what stays as it was when something changes: the directories, and what is at all places but a few -/
structure FileSystem.Confined (fs fs' : FileSystem) (changed : Location → Prop) : Prop where
  base : fs'.base = fs.base
  directories : ∀ q, fs'.entryAt? q = some .directory ↔ fs.entryAt? q = some .directory
  elsewhere : ∀ q, ¬changed q → fs'.entryAt? q = fs.entryAt? q

namespace FileSystem

variable {fs fs' fs'' : FileSystem} {p : Path} {place : Location}

/-! ## Ways -/

theorem follow_eq_ok {name : List Char} {q : Location} (h : fs.follow place name = .ok q) :
    fs.entryAt? place = some .directory ∧ q = place.after name := by
  unfold follow at h
  unfold Location.after
  split at h
  · cases h
  · rename_i hdirectory
    refine ⟨hdirectory, ?_⟩
    split at h
    · rename_i hhere
      rw [if_pos hhere]
      exact (Except.ok.inj h).symm
    · rename_i hhere
      split at h
      · rename_i hback
        rw [if_neg hhere, if_pos hback]
        exact (Except.ok.inj h).symm
      · rename_i hback
        split at h
        · cases h
        · rw [if_neg hhere, if_neg hback]
          exact (Except.ok.inj h).symm
  · cases h

theorem target_of_foldlM {names : List (List Char)} {q : Location} (h : names.foldlM fs.follow place = .ok q) :
    q = place.target names := by
  induction names generalizing place with
  | nil => exact (Except.ok.inj h).symm
  | cons name names ih =>
    rw [List.foldlM_cons] at h
    obtain ⟨next, hnext, hrest⟩ := bind_eq_ok.mp h
    rw [ih hrest, (follow_eq_ok hnext).2]
    rfl

theorem foldlM_of_followAll {names : List (List Char)} (h : fs.followAll p names = .ok place) :
    names.foldlM fs.follow (fs.start p) = .ok place := by
  unfold followAll at h
  split at h
  · cases h
  · split at h
    · cases h
    · exact h

theorem followAll_append (fs : FileSystem) (p : Path) (front : List (List Char)) (name : List Char) :
    fs.followAll p (front ++ [name]) = fs.followAll p front >>= fun place => fs.follow place name := by
  unfold followAll
  split
  · rfl
  · split
    · rfl
    · rw [List.foldlM_append]
      congr 1
      funext q
      rw [List.foldlM_cons]
      cases fs.follow q name <;> rfl

/-- the place that a path leads to, by its names: a slash at the end makes no difference -/
theorem eq_target_of_locate (h : fs.locate p = .ok place) : place = (fs.start p).target (Path.names p) := by
  have htarget := target_of_foldlM (foldlM_of_followAll h)
  rw [htarget]
  unfold Path.steps
  split
  · rw [Location.target_append]
    exact if_pos rfl
  · rfl

/-! ## What a path holds -/

/-- what a path leads to, if it leads to anything -/
def held (fs : FileSystem) (p : Path) : Option Entry := (fs.entry p).toOption

theorem held_eq (fs : FileSystem) (p : Path) : fs.held p = (fs.locate p).toOption.bind fs.entryAt? := by
  unfold held entry
  cases fs.locate p with
  | error e => rfl
  | ok place =>
    simp only [bind, Except.bind, Except.toOption, Option.bind_some]
    cases fs.entryAt? place <;> rfl

theorem held_of_locate (h : fs.locate p = .ok place) : fs.held p = fs.entryAt? place := by
  rw [held_eq, h]
  rfl

/-! ## Changes at a place -/

theorem isOuter_of_entryAt? (h : fs.entryAt? place ≠ some .directory) : ¬fs.isOuter place = true := by
  intro houter
  exact h (if_pos houter)

theorem entryAt?_put_self (h : fs.entryAt? place ≠ some .directory) (e : Entry) :
    (fs.put place e).entryAt? place = some e := by
  have houter : ¬fs.isOuter place = true := isOuter_of_entryAt? h
  refine (if_neg houter).trans ?_
  exact Std.ExtTreeMap.getElem?_insert_self

theorem entryAt?_put_of_ne {q : Location} (h : q ≠ place) (e : Entry) : (fs.put place e).entryAt? q = fs.entryAt? q := by
  have hentries : (fs.put place e).entries[q]? = fs.entries[q]? := by
    unfold put
    rw [Std.ExtTreeMap.getElem?_insert, if_neg]
    intro heq
    exact h (Std.LawfulEqOrd.eq_of_compare heq).symm
  unfold entryAt?
  rw [hentries]
  rfl

theorem entryAt?_erase_self (h : fs.entryAt? place ≠ some .directory) : (fs.erase place).entryAt? place = none := by
  have houter : ¬fs.isOuter place = true := isOuter_of_entryAt? h
  refine (if_neg houter).trans ?_
  exact Std.ExtTreeMap.getElem?_erase_self

theorem entryAt?_erase_of_ne {q : Location} (h : q ≠ place) : (fs.erase place).entryAt? q = fs.entryAt? q := by
  have hentries : (fs.erase place).entries[q]? = fs.entries[q]? := by
    unfold erase
    rw [Std.ExtTreeMap.getElem?_erase, if_neg]
    intro heq
    exact h (Std.LawfulEqOrd.eq_of_compare heq).symm
  unfold entryAt?
  rw [hentries]
  rfl

namespace Confined

theorem refl (fs : FileSystem) (changed : Location → Prop) : Confined fs fs changed :=
  ⟨rfl, fun _ => Iff.rfl, fun _ _ => rfl⟩

theorem trans {first second : Location → Prop} (h : Confined fs fs' first) (h' : Confined fs' fs'' second) :
    Confined fs fs'' fun q => first q ∨ second q := by
  refine ⟨h'.base.trans h.base, fun q => (h'.directories q).trans (h.directories q), ?_⟩
  intro q hq
  rw [h'.elsewhere q fun hsecond => hq (Or.inr hsecond), h.elsewhere q fun hfirst => hq (Or.inl hfirst)]

theorem mono {changed changed' : Location → Prop} (h : Confined fs fs' changed) (hsub : ∀ q, changed q → changed' q) :
    Confined fs fs' changed' :=
  ⟨h.base, h.directories, fun q hq => h.elsewhere q fun hchanged => hq (hsub q hchanged)⟩

/-- nothing but the place differs, and it holds no directory on either side -/
theorem of_place (hbase : fs'.base = fs.base) (hbefore : fs.entryAt? place ≠ some .directory)
    (hafter : fs'.entryAt? place ≠ some .directory) (helsewhere : ∀ q, q ≠ place → fs'.entryAt? q = fs.entryAt? q) :
    Confined fs fs' fun q => q = place := by
  refine ⟨hbase, ?_, helsewhere⟩
  intro q
  by_cases hq : q = place
  · rw [hq]
    exact ⟨fun h => absurd h hafter, fun h => absurd h hbefore⟩
  · rw [helsewhere q hq]

theorem put (h : fs.entryAt? place ≠ some .directory) {e : Entry} (he : e ≠ .directory) :
    Confined fs (fs.put place e) fun q => q = place := by
  refine of_place rfl h ?_ ?_
  · rw [entryAt?_put_self h]
    exact fun heq => he (Option.some.inj heq)
  · intro q hq
    exact entryAt?_put_of_ne hq e

theorem erase (h : fs.entryAt? place ≠ some .directory) : Confined fs (fs.erase place) fun q => q = place := by
  refine of_place rfl h ?_ ?_
  · rw [entryAt?_erase_self h]
    exact Option.some_ne_none _ |>.symm
  · intro q hq
    exact entryAt?_erase_of_ne hq

theorem follow {changed : Location → Prop} (h : Confined fs fs' changed) (place : Location) (name : List Char) :
    (fs'.follow place name).toOption = (fs.follow place name).toOption := by
  by_cases hdirectory : fs.entryAt? place = some .directory
  · have hdirectory' := (h.directories place).mpr hdirectory
    unfold FileSystem.follow
    rw [hdirectory, hdirectory']
  · have hdirectory' : fs'.entryAt? place ≠ some .directory := fun h' => hdirectory ((h.directories place).mp h')
    have hnone : ∀ {fs : FileSystem}, fs.entryAt? place ≠ some .directory → (fs.follow place name).toOption = none := by
      intro fs hne
      cases hfollow : fs.follow place name with
      | error e => rfl
      | ok q => exact absurd (follow_eq_ok hfollow).1 hne
    rw [hnone hdirectory, hnone hdirectory']

/-- a path leads to the same place as before -/
theorem locate {changed : Location → Prop} (h : Confined fs fs' changed) (p : Path) :
    (fs'.locate p).toOption = (fs.locate p).toOption := by
  have hfold : ∀ (names : List (List Char)) (place : Location),
      (names.foldlM fs'.follow place).toOption = (names.foldlM fs.follow place).toOption := by
    intro names
    induction names with
    | nil => exact fun _ => rfl
    | cons name names ih =>
      intro place
      have hfollow := h.follow place name
      rw [List.foldlM_cons, List.foldlM_cons]
      cases hfs : fs.follow place name with
      | error e =>
        cases hfs' : fs'.follow place name with
        | error e' => rfl
        | ok q =>
          rw [hfs, hfs'] at hfollow
          cases hfollow
      | ok q =>
        rw [hfs] at hfollow
        rw [toOption_eq_some.mp hfollow]
        exact ih q
  have hstart : fs'.start p = fs.start p := by
    unfold start
    rw [h.base]
  unfold FileSystem.locate followAll
  rw [hstart]
  split
  · rfl
  · split
    · rfl
    · exact hfold _ _

theorem locate_eq_ok {changed : Location → Prop} (h : Confined fs fs' changed) :
    fs'.locate p = .ok place ↔ fs.locate p = .ok place := by
  rw [← toOption_eq_some, ← toOption_eq_some, h.locate]

/-- a change elsewhere leaves alone what a path holds -/
theorem held {changed : Location → Prop} (h : Confined fs fs' changed)
    (hp : ∀ place, fs.locate p = .ok place → ¬changed place) : fs'.held p = fs.held p := by
  rw [held_eq, held_eq, h.locate]
  cases hplace : fs.locate p with
  | error e => rfl
  | ok place => exact h.elsewhere place (hp place hplace)

end Confined

/-! ## Calls -/

theorem remove_of_entry (hplace : fs.locate p = .ok place) {e : Entry} (hentry : fs.entryAt? place = some e)
    (he : e ≠ .directory) : fs.remove p = .ok (fs.erase place) := by
  unfold remove
  cases e with
  | directory => exact absurd rfl he
  | file bytes => simp only [hplace, bind, Except.bind, hentry]
  | index i => simp only [hplace, bind, Except.bind, hentry]

theorem remove_eq_ok (h : fs.remove p = .ok fs') :
    ∃ place, fs.locate p = .ok place ∧ fs.entryAt? place ≠ some .directory ∧ fs' = fs.erase place := by
  obtain ⟨place, hplace, h⟩ := bind_eq_ok.mp h
  split at h
  · cases h
  · cases h
  · rename_i e hne hentry
    refine ⟨place, hplace, ?_, (Except.ok.inj h).symm⟩
    rw [hentry]
    intro heq
    exact hne (Option.some.inj heq)

/-- a file that is taken away is gone, and all else stays -/
theorem remove_spec (h : fs.remove p = .ok fs') :
    Confined fs fs' (fun q => fs.locate p = .ok q) ∧ fs'.held p = none := by
  obtain ⟨place, hplace, hentry, rfl⟩ := remove_eq_ok h
  have hconfined := Confined.erase hentry
  refine ⟨hconfined.mono fun q hq => hq ▸ hplace, ?_⟩
  rw [held_of_locate (hconfined.locate_eq_ok.mpr hplace), entryAt?_erase_self hentry]

theorem ensureAbsent_spec (h : fs.ensureAbsent p = .ok fs') :
    Confined fs fs' (fun q => fs.locate p = .ok q) ∧ fs'.held p = none := by
  unfold ensureAbsent at h
  split at h
  · rename_i e hentry
    cases h
    refine ⟨.refl _ _, ?_⟩
    unfold held
    rw [hentry]
    rfl
  · exact remove_spec h

theorem withdraw_spec (fs : FileSystem) (p : Path) :
    Confined fs (fs.withdraw p) (fun q => fs.locate p = .ok q) ∧
      ((∀ q, fs.locate p = .ok q → fs.entryAt? q ≠ some .directory) → (fs.withdraw p).held p = none) := by
  cases hremove : fs.remove p with
  | ok fs' =>
    have hwithdraw : fs.withdraw p = fs' := by
      unfold withdraw
      rw [hremove]
      rfl
    obtain ⟨hconfined, hheld⟩ := remove_spec hremove
    rw [hwithdraw]
    exact ⟨hconfined, fun _ => hheld⟩
  | error e =>
    have hwithdraw : fs.withdraw p = fs := by
      unfold withdraw
      rw [hremove]
      rfl
    rw [hwithdraw]
    refine ⟨.refl _ _, ?_⟩
    intro h
    cases hplace : fs.locate p with
    | error e' =>
      rw [held_eq, hplace]
      rfl
    | ok place =>
      rw [held_of_locate hplace]
      cases hentry : fs.entryAt? place with
      | none => rfl
      | some entry =>
        -- what is there is no directory, so it is taken away
        have hne : entry ≠ .directory := fun heq => h place hplace (heq ▸ hentry)
        rw [remove_of_entry hplace hentry hne] at hremove
        cases hremove

theorem directoryOf_eq_ok {directory : Location} (h : fs.directoryOf p = .ok directory) :
    fs.followAll p (Path.names p).dropLast = .ok directory := by
  obtain ⟨place, hplace, h⟩ := bind_eq_ok.mp h
  split at h
  · cases h
  · rwa [← Except.ok.inj h]
  · cases h

/-- where a path ends in a name, it leads to where the name leads to from the directory it is in -/
theorem locate_of_directoryOf {directory : Location} {name : List Char} (hslash : Path.hasSlashEnd p = false)
    (hname : Path.lastName? p = some name) (h : fs.directoryOf p = .ok directory) :
    fs.locate p = fs.follow directory name := by
  have hlast : (Path.names p).getLast? = some name := Option.eq_some_of_filter_eq_some hname
  obtain ⟨front, hnames⟩ := List.getLast?_eq_some_iff.mp hlast
  have hfront : (Path.names p).dropLast = front := by rw [hnames, List.dropLast_concat]
  have hsteps : Path.steps p = front ++ [name] := by
    unfold Path.steps
    rw [hslash, hnames]
    rfl
  unfold locate
  rw [hsteps, followAll_append, ← hfront, directoryOf_eq_ok h]
  rfl

theorem rename_eq_ok {source target : Path} (hslash : Path.hasSlashEnd source = false)
    (h : fs.rename source target = .ok fs') :
    ∃ place goal moved, fs.locate source = .ok place ∧ fs.locate target = .ok goal ∧ fs.entryAt? place = some moved ∧
      fs.entryAt? goal ≠ some .directory ∧ fs' = (fs.erase place).put goal moved := by
  obtain ⟨sourceDirectory, hsource, h⟩ := bind_eq_ok.mp h
  obtain ⟨targetDirectory, htarget, h⟩ := bind_eq_ok.mp h
  split at h
  · rename_i sourceName targetName hsourceName htargetName
    obtain ⟨place, hplace, h⟩ := bind_eq_ok.mp h
    split at h
    · cases h
    · rename_i moved hmoved
      obtain ⟨goal, hgoal, h⟩ := bind_eq_ok.mp h
      split at h
      · cases h
      · rename_i htargetSlash
        split at h
        · cases h
        · rename_i hentry
          refine ⟨place, goal, moved, ?_, ?_, hmoved, hentry, (Except.ok.inj h).symm⟩
          · rw [locate_of_directoryOf hslash hsourceName hsource, hplace]
          · rw [locate_of_directoryOf (Bool.eq_false_iff.mpr htargetSlash) htargetName htarget, hgoal]
  · cases h

end FileSystem

end ClauseFold
