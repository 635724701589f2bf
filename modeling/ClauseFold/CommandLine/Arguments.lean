/-
The arguments of the command line. An argument is an option, a cluster of short options, the value of the option before
it, a path, or the mark after which all is paths. An option has a long name and may have a short one; its value is
attached to it or is the next argument. Options and paths mix freely, and no option is given twice.

What the arguments ask for is a command, or nothing where they are wrong.
-/
import ClauseFold.Reduction
import ClauseFold.Repository.Basic
import ClauseFold.Storage.FileSystem

namespace ClauseFold.CommandLine

inductive OptionName where
  | rules
  | index
  | matching
  | passLimit
  | stats
  | showFormula
  | output
  | verify
  | help
deriving DecidableEq, Repr

structure OptionForm where
  name : OptionName
  long : List Char
  short : Option Char
  hasValue : Bool
deriving DecidableEq, Repr

def rulesForm : OptionForm := ⟨.rules, "rules".toList, some 'r', true⟩

def helpForm : OptionForm := ⟨.help, "help".toList, some 'h', false⟩

def solveForms : List OptionForm :=
  [rulesForm, ⟨.index, "index".toList, some 'i', true⟩, ⟨.matching, "matching".toList, some 'm', true⟩,
    ⟨.passLimit, "pass-limit".toList, none, true⟩, ⟨.stats, "stats".toList, some 's', false⟩,
    ⟨.showFormula, "show-formula".toList, none, false⟩, helpForm]

def indexForms : List OptionForm :=
  [rulesForm, ⟨.output, "output".toList, some 'o', true⟩, ⟨.verify, "verify".toList, none, false⟩, helpForm]

/-! ## Sorting the arguments -/

/-- the arguments sorted so far -/
structure Sorted where
  /-- the options given, with their values, the latest first -/
  given : List (OptionName × List Char)
  /-- the paths given, the latest first -/
  paths : List Path
  /-- the option whose value is to come -/
  awaiting : Option OptionName
  /-- whether all that is to come is paths -/
  onlyPaths : Bool
deriving DecidableEq, Repr

namespace Sorted

def start : Sorted := ⟨[], [], none, false⟩

def value? (s : Sorted) (name : OptionName) : Option (List Char) := s.given.lookup name

def has (s : Sorted) (name : OptionName) : Bool := (s.value? name).isSome

/-- notes an option, which must not have been given before -/
def give (s : Sorted) (name : OptionName) (value : List Char) : Option Sorted :=
  if s.given.any fun g => g.1 = name then none else some { s with given := (name, value) :: s.given, awaiting := none }

/-- notes an option whose value is the next argument -/
def await (s : Sorted) (name : OptionName) : Option Sorted :=
  if s.given.any fun g => g.1 = name then none else some { s with awaiting := some name }

/-- sorts an argument that begins with two dashes, by what comes after them -/
def long (forms : List OptionForm) (s : Sorted) (body : List Char) : Option Sorted :=
  let name := body.takeWhile fun c => c ≠ '='
  match forms.find? fun o => o.long = name, body.drop name.length with
  | none, _ => none
  | some o, [] => if o.hasValue then s.await o.name else s.give o.name []
  | some o, _ :: value => if o.hasValue then s.give o.name value else none

/-- sorts an argument that begins with one dash, by what comes after it -/
def cluster (forms : List OptionForm) (s : Sorted) : List Char → Option Sorted
  | [] => some s
  | c :: rest =>
    match forms.find? fun o => o.short = some c with
    | none => none
    | some o =>
      if o.hasValue then
        match rest with
        | [] => s.await o.name
        | '=' :: value => s.give o.name value
        | value => s.give o.name value
      else
        match s.give o.name [] with
        | none => none
        | some s' => if o.name = .help then some s' else s'.cluster forms rest

/-- sorts an argument; what comes after a request for help does not matter -/
def step (forms : List OptionForm) (s : Sorted) (arg : List Char) : Option Sorted :=
  if s.has .help then some s
  else if s.onlyPaths then some { s with paths := arg :: s.paths }
  else
    match arg with
    | '-' :: c :: rest =>
      if s.awaiting.isSome then none
      else if c = '-' then if rest.isEmpty then some { s with onlyPaths := true } else s.long forms rest
      else s.cluster forms (c :: rest)
    | _ =>
      match s.awaiting with
      | some name => s.give name arg
      | none => some { s with paths := arg :: s.paths }

end Sorted

/-- sorts all arguments of a command; no option may be left without its value -/
def sort? (forms : List OptionForm) (args : List (List Char)) : Option Sorted := do
  let s ← args.foldlM (Sorted.step forms) Sorted.start
  if s.awaiting.isSome then none else some s

/-! ## Commands -/

inductive RulesFrom where
  | file (path : Path)
  | index (path : Path)
deriving DecidableEq, Repr

structure SolveOptions where
  rules : RulesFrom
  matching : Matching
  passLimit : Nat
  stats : Bool
  showFormula : Bool
  paths : List Path
deriving DecidableEq, Repr

structure IndexOptions where
  rules : Path
  output : Path
  verify : Bool
deriving DecidableEq, Repr

inductive Command where
  | solve (o : SolveOptions)
  | index (o : IndexOptions)
  | help
  | version
  /-- nothing at all -/
  | nothing
deriving DecidableEq, Repr

/-- a path that is given has to say something -/
def path? (text : List Char) : Option Path := if text.isEmpty then none else some text

/-- the value of an option, read by `read`; the option may be missing, but not be wrong -/
def optional {α : Type} (s : Sorted) (name : OptionName) (read : List Char → Option α) : Option (Option α) :=
  match s.value? name with
  | none => some none
  | some text => (read text).map some

/-- rules come from a rule file or an index, and not from both -/
def rulesFrom? (rules index : Option Path) : Option RulesFrom :=
  match rules, index with
  | some p, none => some (.file p)
  | none, some p => some (.index p)
  | _, _ => none

/-- what folding is asked for by sorted arguments; values are read even where help is asked for -/
def solve? (s : Sorted) : Option Command := do
  let rules ← optional s .rules path?
  let index ← optional s .index path?
  let matching ← optional s .matching fun w => Matching.ofWord? (String.ofList w)
  let passLimit ← optional s .passLimit (Text.readNumeral Text.countBound)
  let paths ← s.paths.reverse.mapM path?
  if s.has .help then some .help
  else if paths.isEmpty then none
  else
    let source ← rulesFrom? rules index
    some (.solve ⟨source, matching.getD .exact, passLimit.getD defaultPassLimit, s.has .stats, s.has .showFormula,
      paths⟩)

/-- what compiling is asked for by sorted arguments; values are read even where help is asked for -/
def index? (s : Sorted) : Option Command := do
  let rules ← optional s .rules path?
  let output ← optional s .output path?
  if !s.paths.isEmpty then none
  else if s.has .help then some .help
  else some (.index ⟨← rules, ← output, s.has .verify⟩)

def helpTopics : List String := ["solve", "index", "help"]

/-- help is asked for in general, or about one command -/
def help? : List (List Char) → Option Command
  | [] => some .help
  | [topic] => if String.ofList topic ∈ helpTopics then some .help else none
  | _ => none

/-- an option ahead of all commands; of a cluster of short ones the first is enough -/
def general? : List Char → Option Command
  | '-' :: 'h' :: _ => some .help
  | '-' :: 'V' :: _ => some .version
  | word =>
    if word = "--help".toList then some .help
    else if word = "--version".toList then some .version
    else none

/-- what the arguments ask for, unless they are wrong; the mark after which all is paths asks for nothing by itself -/
def parse? : List (List Char) → Option Command
  | [] | [['-', '-']] => some .nothing
  | word :: args =>
    let w := String.ofList word
    if w = "solve" then (sort? solveForms args).bind solve?
    else if w = "index" then (sort? indexForms args).bind index?
    else if w = "help" then help? args
    else general? word

end ClauseFold.CommandLine
