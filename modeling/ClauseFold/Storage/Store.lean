/-
Stores in a file system. A name of a store is not followed like a path: `.` and empty names are left out and `..`
drops the name before it, whether or not there is anything at the place dropped. So a slash at the end asks for
nothing, and the way may lead through what does not exist; but not through a file. The way is shorter than other paths
may be, and counts from the root.

Beside a store may lie the journal of a change that was not completed. A change of the store drops it. A store that may
only be read cannot do that, so it is not read while the journal has something to say.
-/
import ClauseFold.Storage.FileSystem
import ClauseFold.Storage.StoreName

namespace ClauseFold

/-- an opened store -/
structure Store where
  /-- where it is kept, unless it is kept in memory -/
  place? : Option Location
  writable : Bool
deriving DecidableEq, Repr

/-- the bytes that the path from the root to a place takes -/
def Location.pathLength : Location → Nat
  | [] => 0
  | name :: above => pathLength above + 1 + byteLength name

namespace FileSystem

/-- the longest way to a store, in bytes, with what may be gone back later -/
def storeWayLimit : Nat := 511

/-- the longest path from the root to a store, in bytes -/
def storePathLimit : Nat := 504

/-- goes on by a name of a store -/
def storeStep (fs : FileSystem) (place : Location) (name : List Char) : Option Location :=
  if name = Location.here then some place
  else if name = Location.back then some place.tail
  else if storeWayLimit < Location.pathLength (name :: place) then none
  else
    match fs.entryAt? place with
    | none => some (name :: place)
    | some .directory => if Path.nameLimit < byteLength name then none else some (name :: place)
    | some _ => none

/-- whether there can be a store at a place, as far as the place itself says -/
def isStorePlace (place : Location) : Bool := !place.isEmpty && Location.pathLength place ≤ storePathLimit

/-- the place that the name of a store leads to -/
def storePlace? (fs : FileSystem) (file : List Char) : Option Location :=
  ((Path.names file).foldlM fs.storeStep (fs.start file)).filter isStorePlace

/-- opens the store at a place, which is made if it is missing and may be made -/
def openAt? (fs : FileSystem) (access : Access) (place : Location) : Option (Store × FileSystem) :=
  match access, fs.entryAt? place with
  | .memory, _ => some (⟨none, true⟩, fs)
  | .readOnly, some _ => some (⟨some place, false⟩, fs)
  | _, some .directory => none
  | _, some _ => some (⟨some place, true⟩, fs)
  | .create, none =>
    match fs.entryAt? place.tail with
    | some .directory => some (⟨some place, true⟩, fs.put place (.file []))
    | _ => none
  | _, none => none

def openStore (fs : FileSystem) (offered : Access) (text : List Char) :
    Except StoreFailure (Store × FileSystem) := do
  let name ← StoreName.ofText offered text
  if name.inMemory then .ok (⟨none, name.access ≠ .readOnly⟩, fs)
  else
    match (fs.storePlace? name.file).bind (fs.openAt? name.access) with
    | none => .error (.cannotOpen text)
    | some opened => .ok opened

/-! ## Journals -/

def journalPlace : Location → Location
  | [] => []
  | name :: place => (name ++ "-journal".toList) :: place

def journalFits (place : Location) : Bool :=
  match journalPlace place with
  | [] => false
  | name :: _ => byteLength name ≤ Path.nameLimit

/-- what the journal of a store that is only read has to say -/
def journalFailure? (fs : FileSystem) (place : Location) : Option StoreFailure :=
  match fs.entryAt? (journalPlace place) with
  | some .directory => some .unreadable
  | some (.file (first :: _)) => if first = 0 then none else some .readOnly
  | some (.index _) => some .readOnly
  | _ => none

/-! ## Contents -/

/-- the relations that a store at a place holds; a file that is empty, or a single byte, is a store without relations -/
def relationsAt (fs : FileSystem) (place : Location) : Except StoreFailure (Option Index) :=
  match fs.entryAt? place with
  | some (.index i) => .ok (some i)
  | some (.file []) | some (.file [_]) => .ok none
  | some (.file _) => .error .noIndex
  | _ => .error .unreadable

/-- the relations that an opened store holds; a journal has nothing to say about a store without relations -/
def relations (fs : FileSystem) (store : Store) : Except StoreFailure (Option Index) :=
  match store.place? with
  | none => .ok none
  | some place =>
    match fs.relationsAt place, if store.writable then none else fs.journalFailure? place with
    | .ok none, _ => .ok none
    | _, some e => .error e
    | found, none => found

/-- whether relations can be written into a store without any -/
def checkWritable (fs : FileSystem) (store : Store) : Except StoreFailure Unit :=
  match store.writable, store.place? with
  | false, _ => .error .readOnly
  | true, none => .ok ()
  | true, some place =>
    match journalFits place, fs.entryAt? (journalPlace place) with
    | false, _ | _, some .directory => .error .noJournal
    | _, _ => .ok ()

def dropJournal (fs : FileSystem) (place : Location) : FileSystem :=
  match fs.entryAt? (journalPlace place) with
  | some (.file _) | some (.index _) => fs.erase (journalPlace place)
  | _ => fs

/-- writes relations into a store without any -/
def writeRelations (fs : FileSystem) (i : Index) (store : Store) : FileSystem :=
  match store.place? with
  | none => fs
  | some place => (fs.dropJournal place).put place (.index i)

end FileSystem

end ClauseFold
