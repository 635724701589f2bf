/-
A database that an index is compiled into. A compilation makes the parts of an index, each under a name of its own, writes
the canonical rows and then the node rows, all of it in one transaction. There are two ways in which a database can object.
The name of a part may stand for something already, be it a table, a view or an index: they share their names. And a
database may refuse a statement for a reason of its own, as one does that can only be read.

Work on a database may fail half-way; as a transaction it then leaves the database as it was.
-/
import ClauseFold.Index.Compile

namespace ClauseFold

namespace Database

/-- what a compilation asks of a database; an insertion is asked for once, ahead of its rows -/
inductive Statement where
  | begin
  | make (part : IndexPart)
  | insertCanonicals
  | insertNodes
  | commit
deriving DecidableEq, Repr

/-- what the name of a relation stands for: the relation with its rows, or something else that no compilation looks into -/
inductive Named (Rows : Type) where
  | relation (rows : Rows)
  | other (kind : EntryKind)

def Named.kind {Rows : Type} : Named Rows → EntryKind
  | relation _ => .table
  | other kind => kind

end Database

/-- what the names of an index stand for in a database, as far as they do, and which statements it refuses for reasons of
its own -/
structure Database where
  canonical : Option (Database.Named (Std.ExtTreeMap Int (List Char)))
  nodes : Option (Database.Named (Std.ExtTreeMap Int NodeRow))
  nodeLookup : Option EntryKind
  refuses : Database.Statement → Option StoreFailure

namespace Database

/-- a database that has none of the names and refuses nothing -/
def empty : Database := ⟨none, none, none, fun _ => none⟩

def holding (db : Database) (i : Index) : Database :=
  { db with canonical := some (.relation i.canonical), nodes := some (.relation i.nodes), nodeLookup := some .index }

/-- the database of a store, which has a whole index or nothing of one -/
def ofStore : Option Index → Database
  | none => empty
  | some i => empty.holding i

/-- the index that a database holds, if both relations are there -/
def store (db : Database) : Option Index :=
  match db.canonical, db.nodes with
  | some (.relation canonical), some (.relation nodes) => some ⟨canonical, nodes⟩
  | _, _ => none

/-- what the name of a part stands for, in whatever case of letters it is written there -/
def holder? (db : Database) : IndexPart → Option EntryKind
  | .canonical => db.canonical.map Named.kind
  | .nodes => db.nodes.map Named.kind
  | .nodeLookup => db.nodeLookup

/-- why a statement is not carried out, if so; that a name is taken is found out first -/
def objection? (db : Database) : Statement → Option StoreFailure
  | .make part => ((db.holder? part).map (.nameTaken part ·)).or (db.refuses (.make part))
  | statement => db.refuses statement

def after (db : Database) : Statement → Database
  | .make .canonical => { db with canonical := some (.relation ∅) }
  | .make .nodes => { db with nodes := some (.relation ∅) }
  | .make .nodeLookup => { db with nodeLookup := some .index }
  | _ => db

/-- work on a database, which may fail; what it has changed by then stays changed -/
abbrev Work (α : Type) := ExceptT Error (StateM Database) α

/-- what work says, and the database that it leaves -/
def Work.on {α : Type} (work : Work α) (db : Database) : Except Error α × Database := work.run.run db

/-- work in a transaction: if it fails, the database is left as it was -/
def transact {α : Type} (work : Work α) (db : Database) : Except Error α × Database :=
  match work.on db with
  | (.ok a, db') => (.ok a, db')
  | (.error e, _) => (.error e, db)

/-- fails with an objection, if there is one -/
def heed : Option StoreFailure → Work Unit
  | some cause => throw (.index (.store cause))
  | none => return ()

/-- carries a statement out, unless the database objects -/
def perform (statement : Statement) : Work Unit := do
  heed ((← get).objection? statement)
  modify (·.after statement)

/-- what is asked ahead of the first row: the parts of an index are made, without rows -/
def opening : List Statement := [.begin, .make .canonical, .make .nodes, .make .nodeLookup, .insertCanonicals]

/-- writes a canonical row, under an id of its own -/
def insertCanonical (row : Int × List Char) : Work Unit := do
  match (← get).canonical with
  | some (.relation rows) =>
    if row.1 ∈ rows then throw (.index (.store .canonicalIdTwice))
    modify fun db => { db with canonical := some (.relation (rows.insert row.1 row.2)) }
  | _ => throw (.index (.store .noRelations))

/-- fails with what ended the writing of node rows, if something did -/
def finish (written : NodeWriter.State) : Work NodeWriter.State :=
  match written.error with
  | some e => throw e
  | none => return written

/-- writes the node rows of the patterns in a recognizer, up to the first error -/
def writeNodes (source : RuleSource) (ids : CanonicalIds) (r : Recognizer) : Work NodeWriter.State := do
  match (← get).nodes with
  | some (.relation rows) =>
    let written := r.trie.accept (NodeWriter.visitor source ids r.trie) { NodeWriter.start with rows := rows }
    modify fun db => { db with nodes := some (.relation written.rows) }
    finish written
  | _ => throw (.index (.store .noNodeRelation))

end Database

/-- compiles a source into a database that has nothing of an index yet -/
def RuleSource.indexInto (source : RuleSource) (db : Database) : Except Error IndexSummary × Database :=
  match Recognizer.empty.addAll source.patterns with
  | .error e => (.error (.trie e), db)
  | .ok r =>
    let ids := CanonicalIds.assign (source.canonical.map Formula.encode)
    db.transact do
      Database.opening.forM Database.perform
      (ids.toList.map fun p => (p.2, p.1)).forM Database.insertCanonical
      Database.perform .insertNodes
      let written ← Database.writeNodes source ids r
      Database.perform .commit
      return ⟨ids.size, written.ids.size, written.rules⟩

end ClauseFold
