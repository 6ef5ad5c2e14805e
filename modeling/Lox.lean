import Lox.Console
import Lox.Heap.Inspect
import Lox.Main
import Lox.Proofs.Scoping.Visit
import Lox.Proofs.Grammar.Cursor
import Lox.Proofs.Grammar.Trees
import Lox.Proofs.Heap.Fits
import Lox.Proofs.Machine.Preservation
import Lox.Proofs.Scoping.Distances
import Lox.Proofs.Scoping.Keywords
import Lox.Proofs.Session.History
import Lox.Proofs.Session.Lookup
import Lox.Proofs.Grammar.Completeness
import Lox.Proofs.Grammar.Language
import Lox.Proofs.Lexical.Agreement
import Lox.Proofs.Lexical.Declarations
import Lox.Proofs.Lexical.Equivalence
import Lox.Proofs.Session.Rejected
import Lox.Proofs.Session.Pieces
import Lox.Proofs.Session.InternalFaults
import Lox.Proofs.Scoping.Offences
import Lox.Proofs.Session.Confinement
import Lox.Proofs.Session.WellFounded
import Lox.Proofs.Session.NodeIds
import Lox.Proofs.Heap.Layout
import Lox.Proofs.Machine.Layout
import Lox.Proofs.Token.Tiling
import Lox.Proofs.Machine.Outcomes
import Lox.Proofs.Scoping.Supers
import Lox.Proofs.Session.Returns
import Lox.Proofs.Heap.Activations
import Lox.Proofs.Machine.Activations
import Lox.Proofs.Machine.Unseen
import Lox.Proofs.Machine.Calls
import Lox.Proofs.Session.Timeline
import Lox.Proofs.Session.Dispatch
import Lox.Proofs.Session.Instances
import Lox.Proofs.Grammar.Progress
import Lox.Proofs.Grammar.Termination
import Lox.Proofs.Grammar.Independence
import Lox.Proofs.Scoping.Declared
import Lox.Proofs.Grammar.Written
import Lox.Proofs.Scoping.SourceOrder
import Lox.Proofs.Number.Nearest
import Lox.Proofs.Token.Longest
import Lox.Proofs.Token.Separated
import Lox.Proofs.Grammar.Closing
import Lox.Proofs.Machine.ForLoop
import Lox.Proofs.Session.Truncation
import Lox.Proofs.Number.Reading
import Lox.Proofs.Token.Fixed
import Lox.Proofs.Tree.Unplaced
import Lox.Proofs.Grammar.Legible
import Lox.Proofs.Tree.Words
import Lox.Proofs.Tree.Polish
import Lox.Proofs.Tree.Forms
import Lox.Proofs.Tree.Prefix
import Lox.Proofs.Number.Scanning
import Lox.Proofs.Heap.Chains
