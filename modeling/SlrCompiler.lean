import SlrCompiler.Proofs.Automaton.Closure
import SlrCompiler.Proofs.Automaton.Completion
import SlrCompiler.Proofs.Automaton.Numbering
import SlrCompiler.Proofs.Automaton.ValidItems
import SlrCompiler.Proofs.Automaton.ViablePrefix
import SlrCompiler.Proofs.Finite.Saturation
import SlrCompiler.Proofs.Grammar.Derivation
import SlrCompiler.Proofs.Grammar.Lookahead
import SlrCompiler.Proofs.Grammar.Resolution
import SlrCompiler.Proofs.Grammar.WellFormed
import SlrCompiler.Proofs.Recognition.Completeness
import SlrCompiler.Proofs.Recognition.ConflictFree
import SlrCompiler.Proofs.Recognition.Path
import SlrCompiler.Proofs.Recognition.Soundness
import SlrCompiler.Proofs.Recognition.StepBound
import SlrCompiler.Proofs.Recognition.Termination
import SlrCompiler.Proofs.Recognition.ValidPrefix
import SlrCompiler.Proofs.Specification.Rule
import SlrCompiler.Proofs.Table.Cells
import SlrCompiler.Proofs.Table.ParseTable
import SlrCompiler.Proofs.Table.Justification
import SlrCompiler.Proofs.Specification.Braces
import SlrCompiler.Proofs.Specification.StartSymbol
import SlrCompiler.Proofs.Compilation.Bounds
import SlrCompiler.Proofs.Specification.Refusals
import SlrCompiler.Proofs.Compilation.Outcome
import SlrCompiler.Proofs.Recognition.Trees
import SlrCompiler.Proofs.Operators.Paths
import SlrCompiler.Proofs.Operators.Grouping
import SlrCompiler.Proofs.Operators.Language
import SlrCompiler.Proofs.Operators.Specification
import SlrCompiler.Proofs.Grammar.Symbols
import SlrCompiler.Proofs.Table.Acceptance
import SlrCompiler.Proofs.Specification.RulesGrammar
import SlrCompiler.Proofs.Grammar.DeclaredPrecedence
import SlrCompiler.Proofs.Json.Table
import SlrCompiler.Proofs.Table.Displacement
import SlrCompiler.Proofs.Specification.QuotedComments
import SlrCompiler.Proofs.Table.ConflictLog
import SlrCompiler.Proofs.Grammar.NameResolution
import SlrCompiler.Proofs.Specification.ActionCode
import SlrCompiler.Proofs.Grammar.LookaheadLoops
import SlrCompiler.Proofs.Specification.ActionSource
import SlrCompiler.Proofs.Automaton.ClosureOperator
import SlrCompiler.Proofs.Grammar.ExactLookahead
import SlrCompiler.Proofs.Recognition.Consumption
import SlrCompiler.Proofs.Specification.DeclaredSymbols
import SlrCompiler.Proofs.Automaton.AccessingSymbol
import SlrCompiler.Proofs.Specification.CommentRemoval
import SlrCompiler.Proofs.Specification.LineNumbers
import SlrCompiler.Proofs.Automaton.Discovery
import SlrCompiler.Proofs.Journal
import SlrCompiler.Proofs.Workbench
