/-
Running a command: what it prints, the status it ends with, and what it leaves in the files. Folding ends with 10 if
the clauses are satisfiable, 20 if they are not, and 0 if that is not known. Wrong input ends with 1, and anything else
that goes wrong with 2.
-/
import ClauseFold.CommandLine.Arguments
import ClauseFold.Fold.Dimacs
import ClauseFold.Rules.File
import ClauseFold.Rules.Verification
import ClauseFold.Storage.Publication

namespace ClauseFold.CommandLine

/-- what a command comes to -/
structure Outcome where
  code : Nat
  output : String
  files : FileSystem

/-- what is printed when help is asked for, or nothing at all -/
def helpLines : List String :=
  ["Folds CNF formulas into a single term, reducing by a library of equivalences as it goes", "",
    "Usage: termsat [COMMAND]", "", "Commands:", "  solve  Fold and reduce DIMACS CNF files",
    "  index  Compile a rule file into an index",
    "  help   Print this message or the help of the given subcommand(s)", "", "Options:", "  -h, --help     Print help",
    "  -V, --version  Print version"]

/-- lines with their ends -/
def unlines (lines : List String) : String := String.join (lines.map fun l => l ++ "\n")

def pathText (p : Path) : String := String.ofList p

/-- the status for wrong input, and for all other errors -/
def exitCode : Error → Nat
  | .read _ | .rule _ => 1
  | _ => 2

def verdictCode : Report → Nat
  | .unknown => 0
  | .satisfiable => 10
  | .unsatisfiable => 20

def readRules (fs : FileSystem) (p : Path) : Except Error RuleSet := do
  let lines ← (fs.lines p).mapError fun e => .read (.file e)
  (RuleSet.ofLines lines).mapError .read

/-- what is printed where rules cannot be read -/
def rulesFailure (p : Path) (e : Error) : Nat × List String :=
  (exitCode e, ["c Error reading rules from " ++ pathText p ++ ": " ++ e.message])

/-! ## Folding clause files -/

/-- the repository that a run looks rules up in, or what is printed where there is none -/
def repository (fs : FileSystem) (o : SolveOptions) : Except (Nat × List String) Repository :=
  match o.rules with
  | .file p =>
    match readRules fs p with
    | .error e => .error (rulesFailure p e)
    | .ok s =>
      (Repository.ofRuleSet s o.matching).mapError fun e => (2, ["c Error loading rules: " ++ (Error.trie e).message])
  | .index p =>
    (Repository.openAt fs p o.matching).mapError fun e =>
      (exitCode e, ["c Error opening index " ++ pathText p ++ ": " ++ e.message])

/-- the labels of the running counts, which appear when the first clause is folded -/
def countLabels : List String := ["c CLAUSES", "c LENGTH", "c PEAK", "c TIME"]

/-- the files that a run sees once its rules are opened -/
def filesSeen (fs : FileSystem) (o : SolveOptions) : FileSystem :=
  match o.rules with
  | .file _ => fs
  | .index p => fs.afterReading p

/-- what is printed where a clause file cannot be folded -/
def foldFailure (p : Path) (e : Error) : List String :=
  let line := "c Error folding " ++ pathText p ++ ": " ++ e.message
  match e with
  | .reduction (.passLimit limit) =>
    [line, "c No fixpoint within " ++ toString limit ++ " passes, the rules may not terminate"]
  | _ => [line]

/-- folds a clause file; the lines printed so far come before those it adds -/
def foldFile (fs : FileSystem) (how : Folding) (stats : Bool) (state : Fold × List String) (p : Path) :
    Except (Nat × List String) (Fold × List String) :=
  match fs.lines p with
  | .error e => .error (1, state.2 ++ ["c Error reading " ++ pathText p ++ ": " ++ e.text])
  | .ok lines =>
    let (result, s) := state.1.readDimacs how lines
    let labels := if stats && state.1.clauses = 0 && 0 < s.clauses then countLabels else []
    match result with
    | .error e => .error (exitCode e, state.2 ++ labels ++ foldFailure p e)
    | .ok d =>
      let folded := if stats then ["c Folded " ++ toString d.clauses ++ " clauses from " ++ pathText p] else []
      .ok (s, state.2 ++ labels ++ folded)

def summaryLines (o : SolveOptions) (s : Fold) : List String :=
  let counts :=
    if o.stats then
      ["c Folded " ++ toString s.clauses ++ " clauses, peak length " ++ toString s.peak ++ ", final length " ++
        toString s.length]
    else []
  let formula :=
    match o.showFormula, s.formula with
    | true, some f => ["c " ++ f.encoding]
    | _, _ => []
  counts ++ formula ++ ["s " ++ s.report.text]

def solve (fs : FileSystem) (o : SolveOptions) : Nat × List String :=
  let result := do
    let r ← repository fs o
    o.paths.foldlM (foldFile fs ⟨r.replacement?, o.passLimit⟩ o.stats) (Fold.empty, [])
  match result with
  | .error ended => ended
  | .ok (s, lines) => (verdictCode s.report, lines ++ summaryLines o s)

/-! ## Compiling a rule file -/

/-- checks the rules if that is asked for -/
def verified (o : IndexOptions) (s : RuleSet) : Except (Nat × List String) (List String) :=
  if o.verify then
    match s.verify with
    | .error e => .error (1, ["c Rule verification failed: " ++ e.text])
    | .ok () => .ok ["c Verified " ++ toString s.size ++ " rules"]
  else .ok []

def publish (fs : FileSystem) (o : IndexOptions) (s : RuleSet) (lines : List String) :
    (Nat × List String) × FileSystem :=
  match s.source.publish fs o.output with
  | (.error e, fs') => ((exitCode e, lines ++ ["c Error indexing: " ++ e.message]), fs')
  | (.ok c, fs') =>
    ((0, lines ++ ["c Indexed " ++ toString c.canonical ++ " canonical formulas and " ++ toString c.rules ++
      " rules over " ++ toString c.nodes ++ " nodes"]), fs')

def index (fs : FileSystem) (o : IndexOptions) : (Nat × List String) × FileSystem :=
  match readRules fs o.rules with
  | .error e => (rulesFailure o.rules e, fs)
  | .ok s =>
    match verified o s with
    | .error ended => (ended, fs)
    | .ok lines => publish fs o s lines

/-! ## Commands -/

def Command.run (fs : FileSystem) : Command → (Nat × List String) × FileSystem
  | .solve o => (CommandLine.solve (filesSeen fs o) o, filesSeen fs o)
  | .index o => CommandLine.index fs o
  | .help => ((0, helpLines), fs)
  | .version => ((0, ["termsat 0.1.0"]), fs)
  | .nothing => ((1, helpLines), fs)

/-- runs what the arguments ask for; wrong arguments print nothing here -/
def run (fs : FileSystem) (args : List (List Char)) : Outcome :=
  match parse? args with
  | none => ⟨2, "", fs⟩
  | some c =>
    let ((code, lines), fs') := c.run fs
    ⟨code, unlines lines, fs'⟩

end ClauseFold.CommandLine
