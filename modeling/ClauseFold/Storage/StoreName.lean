/-
The names of stores. A store is a file that holds the relations of an index, or holds nothing yet; it may also be kept
in memory only. It is named by a path, or by a URI of the scheme `file`:

    file:[//authority]path[?option=value&option=value...][#...]

In the path and the options `%` and two hexadecimal digits stand for a byte, and what follows a byte of value zero is
left out. The authority has to be empty or `localhost`. An option without a name says nothing. The option `mode` says
what the store may be used for, and may ask for less than is offered, not for more; `cache` has to be one of two words,
which make no difference here; `vfs` names one of the ways to get at files.
-/
import ClauseFold.Error

namespace ClauseFold

inductive Access where
  /-- to read what is there -/
  | readOnly
  /-- to read and to change what is there -/
  | readWrite
  /-- to read and to change, and to make the store if it is missing -/
  | create
  /-- nothing but the memory is used -/
  | memory
deriving DecidableEq, Repr

namespace Access

def word : Access → List Char
  | readOnly => "ro".toList
  | readWrite => "rw".toList
  | create => "rwc".toList
  | memory => "memory".toList

def ofWord? (w : List Char) : Option Access := [readOnly, readWrite, create, memory].find? fun a => a.word = w

/-- whether an access may be asked for where `offered` is offered -/
def allows (offered asked : Access) : Bool :=
  match offered, asked with
  | _, memory | memory, _ | create, _ => true
  | readWrite, a => a ≠ create
  | readOnly, a => a = readOnly

end Access

/-- the file of a store, and what it may be used for -/
structure StoreName where
  file : List Char
  access : Access
  /-- whether the way to get at files that is asked for gets at none -/
  withoutFiles : Bool
deriving DecidableEq, Repr

namespace StoreName

/-! ## Escapes -/

def hexValue? (c : Char) : Option Nat :=
  if c.isDigit then some (c.toNat - '0'.toNat)
  else if 'a' ≤ c ∧ c ≤ 'f' then some (c.toNat - 'a'.toNat + 10)
  else if 'A' ≤ c ∧ c ≤ 'F' then some (c.toNat - 'A'.toNat + 10)
  else none

/-- the byte that two digits after `%` stand for -/
def escaped? : List Char → Option Nat
  | high :: low :: _ => do return 16 * (← hexValue? high) + (← hexValue? low)
  | _ => none

/-- the bytes of a text with escapes, up to a byte of value zero that is escaped -/
def bytesOf (text : List Char) : List UInt8 :=
  match text with
  | [] => []
  | c :: rest =>
    match if c = '%' then escaped? rest else none with
    | none => String.utf8EncodeChar c ++ bytesOf rest
    | some n => if n = 0 then [] else UInt8.ofNat n :: bytesOf (rest.drop 2)
termination_by text.length
decreasing_by
  all_goals simp only [List.length_cons, List.length_drop]; omega

/-- a text with its escapes taken for what they stand for; if no text comes out it stands as it is written -/
def decode (text : List Char) : List Char :=
  match String.fromUTF8? ⟨(bytesOf text).toArray⟩ with
  | some s => s.toList
  | none => text

/-! ## Options -/

/-- a text up to a mark, and the text after the mark -/
def cut (mark : Char) (text : List Char) : List Char × List Char :=
  let first := text.takeWhile fun c => c ≠ mark
  (first, text.drop (first.length + 1))

/-- the option that a part of a query writes, if it has a name -/
def option? (part : List Char) : Option (List Char × List Char) :=
  let (name, value) := cut '=' part
  let name := decode name
  if name.isEmpty then none else some (name, decode value)

def optionsOf (query : List Char) : List (List Char × List Char) := (query.splitOn '&').filterMap option?

def narrow (offered : Access) (o : List Char × List Char) : Except StoreFailure Access :=
  if o.1 = "cache".toList then
    if o.2 = "shared".toList ∨ o.2 = "private".toList then .ok offered else .error (.unknownMode "cache" o.2)
  else if o.1 = "mode".toList then
    match Access.ofWord? o.2 with
    | none => .error (.unknownMode "access" o.2)
    | some asked => if offered.allows asked then .ok asked else .error (.modeNotAllowed o.2)
  else .ok offered

/-- the ways to get at files -/
def systems : List (List Char) := ["unix", "unix-none", "unix-dotfile", "unix-excl"].map String.toList

/-- a way that gets at no files -/
def memorySystem : List Char := "memdb".toList

/-- whether no files are got at in the way that the last option of that kind names -/
def leavesFiles (options : List (List Char × List Char)) : Except StoreFailure Bool :=
  match options.reverse.lookup "vfs".toList with
  | none => .ok false
  | some name =>
    if name = memorySystem then .ok true
    else if name ∈ systems then .ok false
    else .error (.unknownSystem name)

/-! ## Names -/

def withoutAuthority : List Char → Except StoreFailure (List Char)
  | '/' :: '/' :: rest =>
    let authority := rest.takeWhile fun c => c ≠ '/'
    if authority.isEmpty ∨ authority = "localhost".toList then .ok (rest.drop authority.length)
    else .error (.unknownAuthority authority)
  | body => .ok body

/-- the store that the part of a URI after its scheme names, where `offered` is offered -/
def ofBody (offered : Access) (body : List Char) : Except StoreFailure StoreName := do
  let shown := (cut '#' (← withoutAuthority body)).1
  let (path, query) := cut '?' shown
  let options := optionsOf query
  let access ← options.foldlM narrow offered
  return ⟨decode path, access, ← leavesFiles options⟩

/-- what a URI begins with -/
def scheme : List Char := "file:".toList

/-- the store that a text names, where `offered` is offered -/
def ofText (offered : Access) (text : List Char) : Except StoreFailure StoreName :=
  if scheme.isPrefixOf text then ofBody offered (text.drop scheme.length) else .ok ⟨text, offered, false⟩

def inMemory (s : StoreName) : Bool :=
  s.access = .memory || s.withoutFiles || s.file.isEmpty || s.file = ":memory:".toList

end StoreName

end ClauseFold
