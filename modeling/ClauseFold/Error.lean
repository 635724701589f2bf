/-
What can go wrong, part by part, as causes that carry the formulas, lines and ids concerned. The wording of all
messages is here and nowhere else: an error has a group, a label within the group, and details; its message is put
together from the three.
-/
import ClauseFold.Formula.Encoding
import ClauseFold.Text.Quoted

namespace ClauseFold

inductive FormulaError where
  /-- variables are numbered from one -/
  | zeroVariable
deriving DecidableEq, Repr

inductive TrieError where
  /-- the empty key is the key of the root, which holds no value -/
  | emptyKey
  /-- a handle of no node that is in the trie -/
  | unknownNode
deriving DecidableEq, Repr

inductive RuleError where
  /-- the pattern is its own canonical formula -/
  | trivial (pattern : Formula)
  /-- the pattern has another canonical formula already -/
  | conflict (pattern : Formula)
  /-- a formula would be canonical and a pattern -/
  | canonicalPattern (formula : Formula)
  /-- a variable of the canonical formula does not stand in the pattern -/
  | unboundVariable (canonical : Formula) (id : VarId)
  /-- pattern and canonical formula differ on some valuation -/
  | unsound (pattern : Formula)
  /-- too many variables to go through all valuations -/
  | unverifiable (pattern : Formula)
deriving DecidableEq, Repr

/-- why a path could not be opened, removed or renamed -/
inductive FileFailure where
  | missing
  | directory
  | notDirectory
  /-- a directory that cannot be given away -/
  | inUse
  /-- a name or a path of more bytes than may be -/
  | nameTooLong
deriving DecidableEq, Repr

/-- errors in texts that are read -/
inductive ReadError where
  | decode (e : DecodeError)
  /-- a problem line that does not say `p cnf` and two counts -/
  | problemSpecification
  /-- a second problem line, or one after the first clause -/
  | misplacedProblem (line : Nat)
  /-- a line that cannot be read -/
  | line (line : Nat)
  | literal (text : List Char)
  /-- a line of a rule file with more than two words -/
  | ruleLine (line : Nat)
  | rule (line : Nat) (e : RuleError)
  | file (cause : FileFailure)
  /-- a line of a rule file that is no text -/
  | notText
deriving DecidableEq, Repr

/-- the parts of an index in a database, each under a name of its own: the two relations, and what finds the node rows of a
parent -/
inductive IndexPart where
  | canonical
  | nodes
  | nodeLookup
deriving DecidableEq, Repr

/-- what a name can stand for in a database -/
inductive EntryKind where
  | table
  | view
  | index
deriving DecidableEq, Repr

/-- what the store of an index refuses -/
inductive StoreFailure where
  /-- there are no relations to read -/
  | noRelations
  /-- there is no node relation to write to -/
  | noNodeRelation
  /-- the name of a part of an index stands for something already -/
  | nameTaken (part : IndexPart) (kind : EntryKind)
  /-- two canonical rows of one id -/
  | canonicalIdTwice
  /-- two node rows of one id -/
  | nodeIdTwice
  /-- the path cannot be opened -/
  | cannotOpen (path : List Char)
  /-- a file that is no index -/
  | noIndex
  /-- what was opened cannot be read -/
  | unreadable
  /-- a change of a store that may only be read -/
  | readOnly
  /-- there can be no journal beside the store -/
  | noJournal
  /-- a store in the name of someone else -/
  | unknownAuthority (authority : List Char)
  /-- an option with a value that it does not have -/
  | unknownMode (kind : String) (value : List Char)
  /-- an option that asks for more than is offered -/
  | modeNotAllowed (value : List Char)
  /-- a way to get at files that there is not -/
  | unknownSystem (name : List Char)
  /-- a reason of a database's own, in its own words -/
  | refused (words : List Char)
deriving DecidableEq, Repr

/-- errors in writing or reading an index -/
inductive IndexError where
  | store (cause : StoreFailure)
  | file (cause : FileFailure)
  /-- the canonical formula of a pattern is not among the canonical formulas -/
  | missingCanonical (canonical : Formula)
  /-- a node row whose parent has not been read -/
  | orphan (id parent : Int)
  /-- a node row with the id of no canonical row -/
  | unknownCanonicalId (id canonical : Int)
  /-- a node row that does not hold one symbol -/
  | symbol (id : Int)
  /-- a key that does not read back as the pattern stored there -/
  | encodingCollision (key : List Char)
  /-- a pattern without a canonical formula -/
  | noRule (key : List Char)
deriving DecidableEq, Repr

inductive ReductionError where
  /-- each of so many passes made a replacement -/
  | passLimit (limit : Nat)
  /-- a pass did not end with one formula -/
  | unbalanced
deriving DecidableEq, Repr

inductive Error where
  | formula (e : FormulaError)
  | index (e : IndexError)
  | read (e : ReadError)
  | reduction (e : ReductionError)
  | rule (e : RuleError)
  | trie (e : TrieError)
deriving DecidableEq, Repr

/-! ## Wording -/

def details (parts : List String) : String := "(" ++ ", ".intercalate parts ++ ")"

/-- details by name, in braces -/
def namedDetails (parts : List (String × Int)) : String :=
  " \x7b " ++ ", ".intercalate (parts.map fun p => p.1 ++ ": " ++ toString p.2) ++ " \x7d"

def quoteFormula (f : Formula) : String := Text.quoteText f.encode

def FormulaError.label : FormulaError → String
  | zeroVariable => "ZeroVariable"

def TrieError.label : TrieError → String
  | emptyKey => "EmptyKey"
  | unknownNode => "UnknownNode"

def RuleError.label : RuleError → String
  | trivial _ => "Trivial"
  | conflict _ => "Conflict"
  | canonicalPattern _ => "CanonicalPattern"
  | unboundVariable _ _ => "UnboundVariable"
  | unsound _ => "Unsound"
  | unverifiable _ => "Unverifiable"

def RuleError.details : RuleError → String
  | trivial f | conflict f | canonicalPattern f | unsound f | unverifiable f => ClauseFold.details [quoteFormula f]
  | unboundVariable f v => ClauseFold.details [quoteFormula f, toString v.val]

/-- the error without its group -/
def RuleError.text (e : RuleError) : String := e.label ++ e.details

def FileFailure.text : FileFailure → String
  | missing => "No such file or directory (os error 2)"
  | directory => "Is a directory (os error 21)"
  | notDirectory => "Not a directory (os error 20)"
  | inUse => "Device or resource busy (os error 16)"
  | nameTooLong => "File name too long (os error 36)"

def DecodeError.label : DecodeError → String
  | unexpectedEnd => "UnexpectedEnd"
  | unexpectedSymbol _ _ => "UnexpectedSymbol"
  | trailingSymbols _ => "TrailingSymbols"
  | number _ => "Variable"

def DecodeError.details : DecodeError → String
  | unexpectedEnd => ""
  | unexpectedSymbol p c => ClauseFold.details [toString p, Text.quoteChar c]
  | trailingSymbols p | number p => ClauseFold.details [toString p]

def ReadError.label : ReadError → String
  | decode e => e.label
  | problemSpecification => "ProblemSpecification"
  | misplacedProblem _ => "MisplacedProblem"
  | line _ => "Line"
  | literal _ => "Literal"
  | ruleLine _ => "RuleLine"
  | rule _ _ => "Rule"
  | file _ | notText => "Io"

def ReadError.details : ReadError → String
  | decode e => e.details
  | problemSpecification => ""
  | misplacedProblem n | line n | ruleLine n => ClauseFold.details [toString n]
  | literal text => ClauseFold.details [Text.quoteText text]
  | rule n e => ClauseFold.details [toString n, e.text]
  | file cause => ClauseFold.details [Text.quoteText cause.text.toList]
  | notText => ClauseFold.details [Text.quoteText "stream did not contain valid UTF-8".toList]

/-- the node relation of an index in the words of a table store, as what is left once the canonical relation is made -/
def nodeRelationText : String :=
  "\n\nCREATE TABLE NONCANONICAL (\n    ID INTEGER NOT NULL,\n    SYMBOL CHAR(1) NOT NULL,\n" ++
  "    PARENT INTEGER NOT NULL,\n    CANONICAL_ID INTEGER NOT NULL,\n    PRIMARY KEY (ID)\n);\n" ++
  "\nCREATE INDEX NONCANONICAL_INDEX_1 ON NONCANONICAL (PARENT, SYMBOL);\n"

def relationsText : String :=
  "\nCREATE TABLE CANONICAL (\n    ID INTEGER NOT NULL,\n    FORMULA VARCHAR(100) NOT NULL,\n    PRIMARY KEY (ID)\n);" ++
  nodeRelationText

def EntryKind.text : EntryKind → String
  | table => "table"
  | view => "view"
  | index => "index"

/-- that a name stands for something already; where a relation is to be made, what was to be done is told with it -/
def IndexPart.takenText : IndexPart → EntryKind → String
  | canonical, .index => "there is already an index named CANONICAL"
  | canonical, kind => kind.text ++ " CANONICAL already exists in " ++ relationsText ++ " at offset 14"
  | nodes, .index => "there is already an index named NONCANONICAL"
  | nodes, kind => kind.text ++ " NONCANONICAL already exists in " ++ nodeRelationText ++ " at offset 15"
  | nodeLookup, .index => "index NONCANONICAL_INDEX_1 already exists"
  | nodeLookup, _ => "there is already a table named NONCANONICAL_INDEX_1"

def StoreFailure.text : StoreFailure → String
  | noRelations => "no such table: CANONICAL"
  | noNodeRelation => "no such table: NONCANONICAL"
  | nameTaken part kind => part.takenText kind
  | canonicalIdTwice => "UNIQUE constraint failed: CANONICAL.ID"
  | nodeIdTwice => "UNIQUE constraint failed: NONCANONICAL.ID"
  | cannotOpen path => "unable to open database file: " ++ String.ofList path
  | noIndex => "file is not a database"
  | unreadable => "disk I/O error"
  | readOnly => "attempt to write a readonly database"
  | noJournal => "unable to open database file"
  | unknownAuthority authority => "invalid uri authority: " ++ String.ofList authority
  | unknownMode kind value => "no such " ++ kind ++ " mode: " ++ String.ofList value
  | modeNotAllowed value => "access mode not allowed: " ++ String.ofList value
  | unknownSystem name => "no such vfs: " ++ String.ofList name
  | refused words => String.ofList words

def IndexError.label : IndexError → String
  | store _ => "Database"
  | file _ => "Io"
  | missingCanonical _ => "MissingCanonical"
  | orphan _ _ => "Orphan"
  | unknownCanonicalId _ _ => "UnknownCanonicalId"
  | symbol _ => "Symbol"
  | encodingCollision _ => "EncodingCollision"
  | noRule _ => "NoRule"

def IndexError.details : IndexError → String
  | store cause => ClauseFold.details [Text.quoteText cause.text.toList]
  | file cause => ClauseFold.details [Text.quoteText cause.text.toList]
  | missingCanonical f => ClauseFold.details [quoteFormula f]
  | orphan id parent => namedDetails [("id", id), ("parent", parent)]
  | unknownCanonicalId id canonical => namedDetails [("id", id), ("canonical", canonical)]
  | symbol id => ClauseFold.details [toString id]
  | encodingCollision key | noRule key => ClauseFold.details [Text.quoteText key]

def ReductionError.label : ReductionError → String
  | passLimit _ => "PassLimit"
  | unbalanced => "Unbalanced"

def ReductionError.details : ReductionError → String
  | passLimit limit => ClauseFold.details [toString limit]
  | unbalanced => ""

namespace Error

/-- the part of the library that an error comes from -/
def group : Error → String
  | formula _ => "Formula"
  | index _ => "Index"
  | read _ => "Parse"
  | reduction _ => "Reduction"
  | rule _ => "Rule"
  | trie _ => "Trie"

def label : Error → String
  | formula e => e.label
  | index e => e.label
  | read e => e.label
  | reduction e => e.label
  | rule e => e.label
  | trie e => e.label

def details : Error → String
  | formula _ => ""
  | index e => e.details
  | read e => e.details
  | reduction e => e.details
  | rule e => e.details
  | trie _ => ""

def message (e : Error) : String := e.group ++ " error: " ++ e.label ++ e.details

end Error

/-- the formula that a text encodes -/
def Formula.read? (text : List Char) : Except Error Formula := (Formula.decode? text).mapError fun e => .read (.decode e)

def Formula.ofId? (id : Nat) : Except FormulaError Formula :=
  match VarId.ofNat? id with
  | some v => .ok (.var v)
  | none => .error .zeroVariable

end ClauseFold
