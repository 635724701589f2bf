import ClauseFold.Main
import ClauseFold.Proofs.Fold.Counters
import ClauseFold.Proofs.Fold.Layout
import ClauseFold.Proofs.Fold.Renaming
import ClauseFold.Proofs.Fold.Soundness
import ClauseFold.Proofs.Reduction.Limit
import ClauseFold.Proofs.Formula.Decoding
import ClauseFold.Proofs.Recognizer.Instances
import ClauseFold.Proofs.Rules.Consistency
import ClauseFold.Proofs.Storage.Publication
import ClauseFold.Proofs.Trie.ArenaLinks
import ClauseFold.Proofs.Rules.Files
import ClauseFold.Index.Database
import ClauseFold.Proofs.Index.PrefixTree
import ClauseFold.Proofs.Repository.Recompilation
import ClauseFold.Proofs.Fold.Variables
import ClauseFold.Proofs.Rules.Verification
import ClauseFold.Proofs.Index.Loading
import ClauseFold.Proofs.Fold.Interruption
import ClauseFold.Proofs.Trie.Handles
import ClauseFold.Proofs.Trie.ArenaWalk
import ClauseFold.Proofs.Trie.Traversal
import ClauseFold.Proofs.Trie.Shape
import ClauseFold.Proofs.Recognizer.Lookup
import ClauseFold.Proofs.Formula.Readability
import ClauseFold.Proofs.Formula.Preorder
import ClauseFold.Proofs.Formula.Defects
import ClauseFold.Proofs.Recognizer.Undoing
import ClauseFold.Proofs.Formula.Substitution
