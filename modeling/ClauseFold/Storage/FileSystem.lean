/-
File systems, as far as commands can tell them apart: which paths lead to a file, to an index or to a directory. There are
no links. How an index is laid out in bytes is left open; read as a text it begins with a line that is none.

A path is followed name by name, from the base directory, or from the root if it begins with a slash. `.` stays and
`..` goes back. Whatever a further name is asked of has to be a directory, also where that name is `.` or `..`, and a
slash at the end asks for a directory too. A path without any symbol leads nowhere.
-/
import ClauseFold.Index.Basic
import ClauseFold.Text.Lines

namespace ClauseFold

/-- a path as it is written -/
abbrev Path := List Char

/-- the names on the way from the root to a place, the last one first -/
abbrev Location := List (List Char)

inductive Entry where
  | file (bytes : List UInt8)
  | index (i : Index)
  | directory

/-- what every place holds that holds something, the base directory and what it is in aside -/
structure FileSystem where
  entries : Std.ExtTreeMap Location Entry
  /-- where a path begins that does not begin with a slash -/
  base : Location

def byteLength (text : List Char) : Nat := (String.ofList text).utf8ByteSize

/-! ## Places -/

/-- asks to stay at a place -/
def Location.here : List Char := ['.']

/-- asks to go back from a place to the one it is in; the root is in itself -/
def Location.back : List Char := ['.', '.']

namespace Path

def names (p : Path) : List (List Char) := (p.splitOn '/').filter fun n => !n.isEmpty

def hasSlashEnd (p : Path) : Bool := p.getLast? = some '/'

/-- the names to follow: a slash at the end asks to stay in a directory -/
def steps (p : Path) : List (List Char) := if hasSlashEnd p then names p ++ [Location.here] else names p

/-- the last name of a path, unless the path goes nowhere new by it -/
def lastName? (p : Path) : Option (List Char) :=
  (names p).getLast?.filter fun n => n ≠ Location.here && n ≠ Location.back

/-- the longest path, in bytes -/
def limit : Nat := 4095

/-- the longest name, in bytes -/
def nameLimit : Nat := 255

end Path

namespace FileSystem

/-- what there is in every system, away from the base directory: some directories, and a file that is always empty -/
def standardPlaces : List (Location × Entry) :=
  (["dev", "etc", "tmp", "usr", "var"].map fun n => ([n.toList], Entry.directory)) ++
    [(["null".toList, "dev".toList], .file [])]

/-- an empty base directory, two names below the root -/
def empty : FileSystem := ⟨.ofList standardPlaces, ["workingdir".toList, "tmp".toList]⟩

/-- whether a place is the base directory, or one that it is in -/
def isOuter (fs : FileSystem) (place : Location) : Bool := place.isSuffixOf fs.base

def entryAt? (fs : FileSystem) (place : Location) : Option Entry :=
  if fs.isOuter place then some .directory else fs.entries[place]?

def start (fs : FileSystem) (p : Path) : Location := if p.head? = some '/' then [] else fs.base

/-- follows a name from a place, which has to be a directory -/
def follow (fs : FileSystem) (place : Location) (name : List Char) : Except FileFailure Location :=
  match fs.entryAt? place with
  | none => .error .missing
  | some .directory =>
    if name = Location.here then .ok place
    else if name = Location.back then .ok place.tail
    else if Path.nameLimit < byteLength name then .error .nameTooLong
    else .ok (name :: place)
  | some _ => .error .notDirectory

/-- follows some names of a path from where it begins; there may be nothing at the place they lead to -/
def followAll (fs : FileSystem) (p : Path) (names : List (List Char)) : Except FileFailure Location :=
  if p.isEmpty then .error .missing
  else if Path.limit < byteLength p then .error .nameTooLong
  else names.foldlM fs.follow (fs.start p)

/-- the place that a path leads to -/
def locate (fs : FileSystem) (p : Path) : Except FileFailure Location := fs.followAll p (Path.steps p)

/-- what a path leads to -/
def entry (fs : FileSystem) (p : Path) : Except FileFailure Entry := do
  match fs.entryAt? (← fs.locate p) with
  | none => .error .missing
  | some e => .ok e

def lines (fs : FileSystem) (p : Path) : Except FileFailure (List Text.Line) :=
  (fs.entry p).map fun
    | .file bytes => Text.linesOfBytes bytes
    | .index _ => [.error .notText]
    | .directory => Text.linesOfDirectory

def put (fs : FileSystem) (place : Location) (e : Entry) : FileSystem :=
  { fs with entries := fs.entries.insert place e }

/-- puts directories at a place and on the way to it -/
def putDirectories (fs : FileSystem) : Location → FileSystem
  | [] => fs
  | name :: above =>
    if fs.isOuter (name :: above) then fs else (fs.putDirectories above).put (name :: above) .directory

/-- puts something where a path without `.` and `..` leads to, with the directories that it is in -/
def supply (fs : FileSystem) (p : Path) (e : Entry) : FileSystem :=
  let place := (Path.names p).reverse ++ fs.start p
  (fs.putDirectories place.tail).put place e

def erase (fs : FileSystem) (place : Location) : FileSystem := { fs with entries := fs.entries.erase place }

/-- takes a file away; a directory stays -/
def remove (fs : FileSystem) (p : Path) : Except FileFailure FileSystem := do
  let place ← fs.locate p
  match fs.entryAt? place with
  | none => .error .missing
  | some .directory => .error .directory
  | some _ => .ok (fs.erase place)

/-- takes a file away, if there is one that can be taken away -/
def withdraw (fs : FileSystem) (p : Path) : FileSystem := (fs.remove p).toOption.getD fs

def ensureAbsent (fs : FileSystem) (p : Path) : Except FileFailure FileSystem :=
  match fs.entry p with
  | .error _ => .ok fs
  | .ok _ => fs.remove p

/-- the directory that the last name of a path is in -/
def directoryOf (fs : FileSystem) (p : Path) : Except FileFailure Location := do
  let place ← fs.followAll p (Path.names p).dropLast
  match fs.entryAt? place with
  | none => .error .missing
  | some .directory => .ok place
  | some _ => .error .notDirectory

/-- moves a file to a path, where it replaces a file; a directory is not replaced -/
def rename (fs : FileSystem) (source target : Path) : Except FileFailure FileSystem := do
  let sourceDirectory ← fs.directoryOf source
  let targetDirectory ← fs.directoryOf target
  match Path.lastName? source, Path.lastName? target with
  | some sourceName, some targetName =>
    let place ← fs.follow sourceDirectory sourceName
    match fs.entryAt? place with
    | none => .error .missing
    | some moved =>
      let goal ← fs.follow targetDirectory targetName
      if Path.hasSlashEnd target then .error .notDirectory
      else
        match fs.entryAt? goal with
        | some .directory => .error .directory
        | _ => .ok ((fs.erase place).put goal moved)
  | _, _ => .error .inUse

/-- the names in the base directory, in order -/
def names (fs : FileSystem) : List (List Char) :=
  fs.entries.keys.filterMap fun
    | [] => none
    | name :: above => if above = fs.base then some name else none

end FileSystem

end ClauseFold
