/-
The program. It looks at the places that a command names and at those on the way to them, runs the command on what it
sees there, prints what the command prints, and leaves in the places that a command writes to what the command leaves
there.
-/
import ClauseFold.CommandLine.Run
import ClauseFold.Index.Layout

namespace ClauseFold.Main

open CommandLine

def placePath (place : Location) : String := String.ofList ('/' :: ['/'].intercalate place.reverse)

/-- the status of a system call that met a directory -/
def isDirectoryCode : UInt32 := 21

/-- what a place holds -/
def look (place : Location) : IO (Option Entry) := do
  try
    let bytes := (← IO.FS.readBinFile (placePath place)).toList
    return some (match Index.ofBytes? bytes with
      | some i => .index i
      | none => .file bytes)
  catch
    | .inappropriateType _ code _ => return if code = isDirectoryCode then some .directory else none
    | _ => return none

/-- the places that some names lead along, from `place` on, if each of them leads somewhere -/
def trail (place : Location) : List (List Char) → List Location
  | [] => []
  | name :: rest =>
    let next :=
      if name = Location.here then place
      else if name = Location.back then place.tail
      else name :: place
    next :: trail next rest

def placesOf (fs : FileSystem) (p : Path) : List Location := trail (fs.start p) (Path.steps p)

/-- the places along the name of a store, and that of its journal -/
def placesOfStore (fs : FileSystem) (offered : Access) (text : List Char) : List Location :=
  match StoreName.ofText offered text with
  | .error _ => []
  | .ok name =>
    let places := trail (fs.start name.file) (Path.names name.file)
    places ++ places.getLast?.toList.map FileSystem.journalPlace

/-- the places that a command may write to -/
def written (fs : FileSystem) : Command → List Location
  | .solve o =>
    match o.rules with
    | .file _ => []
    | .index p => placesOfStore fs .readOnly p
  | .index o =>
    let beside := Path.unfinished o.output
    (placesOf fs o.output).getLast?.toList ++ (placesOf fs beside).getLast?.toList ++ placesOfStore fs .create beside
  | _ => []

/-- the places that a command reads or writes, and those on the way to them -/
def named (fs : FileSystem) (c : Command) : List Location :=
  let read := match c with
    | .solve o =>
      let rules := match o.rules with
        | .file p => placesOf fs p
        | .index _ => []
      rules ++ o.paths.flatMap (placesOf fs)
    | .index o => placesOf fs o.rules ++ placesOf fs o.output ++ placesOf fs (Path.unfinished o.output)
    | _ => []
  read ++ written fs c

def note (fs : FileSystem) (place : Location) : IO FileSystem := do
  if fs.isOuter place then return fs
  match ← look place with
  | some e => return fs.put place e
  | none => return fs.erase place

/-- the bytes of what a place holds, unless it is a directory -/
def bytesAt? (fs : FileSystem) (place : Location) : Option (List UInt8) :=
  match fs.entryAt? place with
  | some (.file bytes) => some bytes
  | some (.index i) => some i.toBytes
  | _ => none

/-- puts bytes in a file at once: they are written beside it and then moved there -/
def replaceFile (path : String) (bytes : List UInt8) : IO Unit := do
  let beside := path ++ ".partial"
  IO.FS.writeBinFile beside ⟨bytes.toArray⟩
  IO.FS.rename beside path

/-- leaves in a place what a command leaves there -/
def keep (before after : FileSystem) (place : Location) : IO Unit := do
  match bytesAt? before place, bytesAt? after place with
  | some _, none => IO.FS.removeFile (placePath place)
  | old, some bytes => if old ≠ some bytes then replaceFile (placePath place) bytes
  | none, none => pure ()

def runMain (args : List String) : IO UInt32 := do
  let texts := args.map String.toList
  let ⟨base⟩ ← IO.currentDir
  let here := { FileSystem.empty with base := (Path.names base.toList).reverse }
  let places := match parse? texts with
    | some c => named here c
    | none => []
  let before ← places.foldlM note here
  let outcome := run before texts
  IO.print outcome.output
  match parse? texts with
  | some c => (written here c).forM (keep before outcome.files)
  | none => IO.eprint (unlines helpLines)
  return outcome.code.toUInt32

end ClauseFold.Main

def main (args : List String) : IO UInt32 := ClauseFold.Main.runMain args
