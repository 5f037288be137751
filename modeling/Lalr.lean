import Lalr.Automaton.Basic
import Lalr.Automaton.Build
import Lalr.Automaton.Printer
import Lalr.Command
import Lalr.FileTree
import Lalr.First
import Lalr.Generator
import Lalr.Grammar.Basic
import Lalr.Grammar.Catalogue
import Lalr.Grammar.Definition
import Lalr.Grammar.Error
import Lalr.Grammar.Printer
import Lalr.IdSet
import Lalr.Item
import Lalr.Listing
import Lalr.Lookahead
import Lalr.Main
import Lalr.Parser.Entries
import Lalr.Parser.Generated
import Lalr.Parser.Machine
import Lalr.Parser.Session
import Lalr.Proofs.Automaton.Canonical
import Lalr.Proofs.Automaton.Construction
import Lalr.Proofs.Automaton.Discovery
import Lalr.Proofs.Automaton.Items
import Lalr.Proofs.Automaton.Path
import Lalr.Proofs.Automaton.ViablePrefix
import Lalr.Proofs.Automaton.Worklist
import Lalr.Proofs.Closure
import Lalr.Proofs.Closure.Least
import Lalr.Proofs.Command
import Lalr.Proofs.Diagnostic.DeadProduction
import Lalr.Proofs.Expression.Conflicts
import Lalr.Proofs.Expression.Decisions
import Lalr.Proofs.Expression.Grammar
import Lalr.Proofs.Expression.Operators
import Lalr.Proofs.Expression.Parse
import Lalr.Proofs.Expression.Tree
import Lalr.Proofs.Extension.Calls
import Lalr.Proofs.Extension.Grammar
import Lalr.Proofs.Extension.Output
import Lalr.Proofs.FileTree
import Lalr.Proofs.First
import Lalr.Proofs.First.Constraints
import Lalr.Proofs.Grammar.Completion
import Lalr.Proofs.Grammar.Context
import Lalr.Proofs.Grammar.Declared
import Lalr.Proofs.Grammar.Derivation
import Lalr.Proofs.Grammar.FailedCalls
import Lalr.Proofs.Grammar.Faults
import Lalr.Proofs.Grammar.Interleaving
import Lalr.Proofs.Grammar.Lawful
import Lalr.Proofs.Grammar.Numbers
import Lalr.Proofs.Grammar.Validation
import Lalr.Proofs.Grammar.WellFormed
import Lalr.Proofs.Lookahead.Arrivals
import Lalr.Proofs.Lookahead.Exact
import Lalr.Proofs.Lookahead.Flow
import Lalr.Proofs.Lookahead.InPlace
import Lalr.Proofs.Lookahead.Rest
import Lalr.Proofs.Parser.Completeness
import Lalr.Proofs.Parser.Conservation
import Lalr.Proofs.Parser.DefaultReductions
import Lalr.Proofs.Parser.Endless
import Lalr.Proofs.Parser.LexerErrors
import Lalr.Proofs.Parser.Prefix
import Lalr.Proofs.Parser.Reductions
import Lalr.Proofs.Parser.Run
import Lalr.Proofs.Parser.Safety
import Lalr.Proofs.Parser.Shape
import Lalr.Proofs.Parser.Soundness
import Lalr.Proofs.Parser.Source
import Lalr.Proofs.Parser.Stability
import Lalr.Proofs.Parser.Stack
import Lalr.Proofs.Parser.Step
import Lalr.Proofs.Parser.Termination
import Lalr.Proofs.Parser.Transcript
import Lalr.Proofs.Parser.Tree
import Lalr.Proofs.Parser.Waiting
import Lalr.Proofs.Saturation
import Lalr.Proofs.Strict.Automaton
import Lalr.Proofs.Strict.Grammar
import Lalr.Proofs.Strict.Lookahead
import Lalr.Proofs.Strict.Output
import Lalr.Proofs.Strict.Printer
import Lalr.Proofs.Table.Answers
import Lalr.Proofs.Table.Conflicts
import Lalr.Proofs.Table.Exact
import Lalr.Proofs.Table.Filling
import Lalr.Symbol
import Lalr.Table.Basic
import Lalr.Table.Build
import Lalr.Text
import Lalr.WorkQueue
