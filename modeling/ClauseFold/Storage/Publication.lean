/-
Publication of an index at a path. The index is written beside the path first and then moved there, so that the path holds
either what it held before or the whole new index. What an earlier publication may have left beside the path is taken
away, and so is what a compilation that fails has written there.

The place beside the path is named in two ways, as a path and as a store. The two names may lead to different places, as
the name of a store that begins with `file:` is a URI; then there is nothing to be moved, and the publication fails.
-/
import ClauseFold.Index.Database
import ClauseFold.Repository.Indexed
import ClauseFold.Storage.Store

namespace ClauseFold

/-- where an index is written before it is complete -/
def Path.unfinished (p : Path) : Path := p ++ ".partial".toList

/-- an opened store as a database: where nothing can be written, no part of an index can be made -/
def FileSystem.database (fs : FileSystem) (store : Store) : Except StoreFailure Database := do
  let present ← fs.relations store
  return { Database.ofStore present with
    refuses := fun statement =>
      match statement, fs.checkWritable store with
      | .make _, .error e => some e
      | _, _ => none }

def RuleSource.compileTo (source : RuleSource) (fs : FileSystem) (store : Store) :
    Except Error (IndexSummary × FileSystem) := do
  let db ← (fs.database store).mapError fun e => .index (.store e)
  let (ended, db') := source.indexInto db
  ended.map fun summary => (summary, db'.store.elim fs fun i => fs.writeRelations i store)

namespace Publication

/-- the steps of a publication, in order -/
inductive Step where
  /-- what an earlier publication has left beside the path is taken away -/
  | clear
  /-- the store beside the path is made -/
  | create
  | connect
  | compile
  | close
  /-- what is beside the path is moved to the path -/
  | move
deriving DecidableEq, Repr

/-- the steps that fail for a reason outside the files, as by a device that is full, each with its error -/
abbrev Faults := Step → Option Error

def noFaults : Faults := fun _ => none

/-- what comes of a step, with the step at an error -/
def Faults.during {α : Type} (faults : Faults) (step : Step) (result : Except Error α) : Except (Step × Error) α :=
  match faults step with
  | some e => .error (step, e)
  | none => result.mapError fun e => (step, e)

end Publication

/-- compiles a source and publishes the index at a path, where some steps may fail for other reasons -/
def RuleSource.publishUnder (source : RuleSource) (faults : Publication.Faults) (fs : FileSystem) (path : Path) :
    Except (Publication.Step × Error) IndexSummary × FileSystem :=
  let beside := Path.unfinished path
  match faults.during .clear ((fs.ensureAbsent beside).mapError fun e => .index (.file e)) with
  | .error e => (.error e, fs)
  | .ok cleared =>
    match faults.during .create ((cleared.openStore .create beside).mapError fun e => .index (.store e)) with
    | .error e => (.error e, cleared)
    | .ok (store, made) =>
      match faults.during .connect (.ok ()) with
      | .error e => (.error e, made)
      | .ok () =>
        match faults.during .compile (source.compileTo made store) with
        | .error e => (.error e, made.withdraw beside)
        | .ok (summary, written) =>
          match faults.during .close (.ok ()) with
          | .error e => (.error e, written.withdraw beside)
          | .ok () =>
            match faults.during .move ((written.rename beside path).mapError fun e => .index (.file e)) with
            | .error e => (.error e, written)
            | .ok published => (.ok summary, published)

def RuleSource.publish (source : RuleSource) (fs : FileSystem) (path : Path) :
    Except Error IndexSummary × FileSystem :=
  let (ended, fs') := source.publishUnder Publication.noFaults fs path
  (ended.mapError fun e => e.2, fs')

def FileSystem.readStore (fs : FileSystem) (text : List Char) : Except StoreFailure (Option Index) := do
  let (store, opened) ← fs.openStore .readOnly text
  opened.relations store

/-- the files after a store has been opened for reading: a name may ask for a store to be made -/
def FileSystem.afterReading (fs : FileSystem) (text : List Char) : FileSystem :=
  match fs.openStore .readOnly text with
  | .ok (_, opened) => opened
  | .error _ => fs

def Repository.openAt (fs : FileSystem) (path : Path) (m : Matching) : Except Error Repository := do
  let present ← (fs.readStore path).mapError fun e => .index (.store e)
  ofStore present m

end ClauseFold
