import Formula.Builtin
import Formula.Debug
import Formula.Engine
import Formula.Error
import Formula.Expr
import Formula.Json
import Formula.Lexer
import Formula.Lowering
import Formula.Name
import Formula.Number.Binary
import Formula.Number.Decimal
import Formula.Number.Digits
import Formula.Number.Print
import Formula.Number.Shortest
import Formula.Operator
import Formula.Options
import Formula.Options.Text
import Formula.Parser
import Formula.Parser.Basic
import Formula.Postfix
import Formula.Program
import Formula.Proofs.Display.Folded
import Formula.Proofs.Display.Infix
import Formula.Proofs.Display.Reread
import Formula.Proofs.Display.RoundTrip
import Formula.Proofs.Display.Shown
import Formula.Proofs.Evaluation.Afresh
import Formula.Proofs.Evaluation.Agreement
import Formula.Proofs.Evaluation.Building
import Formula.Proofs.Evaluation.Calls
import Formula.Proofs.Evaluation.Constant
import Formula.Proofs.Evaluation.FoldTree
import Formula.Proofs.Evaluation.Folding
import Formula.Proofs.Evaluation.Heights
import Formula.Proofs.Evaluation.InPlace
import Formula.Proofs.Evaluation.Inlining
import Formula.Proofs.Evaluation.Invocations
import Formula.Proofs.Evaluation.Live
import Formula.Proofs.Evaluation.Lockstep
import Formula.Proofs.Evaluation.Meaning
import Formula.Proofs.Evaluation.Named
import Formula.Proofs.Evaluation.Residue
import Formula.Proofs.Evaluation.Reuse
import Formula.Proofs.Evaluation.Safety
import Formula.Proofs.Evaluation.Sizing
import Formula.Proofs.Fits
import Formula.Proofs.Grammar
import Formula.Proofs.Lexing.Cuts
import Formula.Proofs.Lexing.Layout
import Formula.Proofs.Lexing.Lexemes
import Formula.Proofs.Lexing.LongestMatch
import Formula.Proofs.Lexing.Munch
import Formula.Proofs.Lexing.Spelling
import Formula.Proofs.Lexing.Splice
import Formula.Proofs.Lexing.Tiling
import Formula.Proofs.Number.Doubles
import Formula.Proofs.Number.Reading
import Formula.Proofs.Number.Rounding
import Formula.Proofs.Parser.Arity
import Formula.Proofs.Parser.Balance
import Formula.Proofs.Parser.Blocked
import Formula.Proofs.Parser.Calls
import Formula.Proofs.Parser.Completeness
import Formula.Proofs.Parser.Depth
import Formula.Proofs.Parser.FirstError
import Formula.Proofs.Parser.Follow
import Formula.Proofs.Parser.Fragments
import Formula.Proofs.Parser.Layout
import Formula.Proofs.Parser.Names
import Formula.Proofs.Parser.NodeTokens
import Formula.Proofs.Parser.Overlong
import Formula.Proofs.Parser.Places
import Formula.Proofs.Parser.Prefix
import Formula.Proofs.Parser.Reach
import Formula.Proofs.Parser.Reading
import Formula.Proofs.Parser.Sentence
import Formula.Proofs.Parser.Soundness
import Formula.Proofs.Parser.Substitution
import Formula.Proofs.Store.Atomic
import Formula.Proofs.Store.Bindings
import Formula.Proofs.Store.Closing
import Formula.Proofs.Store.Coherent
import Formula.Proofs.Store.Compilation
import Formula.Proofs.Store.Disjoint
import Formula.Proofs.Store.Events
import Formula.Proofs.Store.Journal
import Formula.Proofs.Store.Layout
import Formula.Proofs.Store.Log
import Formula.Proofs.Store.Protocol
import Formula.Proofs.Store.Size
import Formula.Proofs.Store.Slots
import Formula.Proofs.Store.Stacks
import Formula.Proofs.Store.Twins
import Formula.Proofs.Store.Views
import Formula.Proofs.Symbols
import Formula.Proofs.Symbols.Acceptance
import Formula.Proofs.Symbols.Bounded
import Formula.Proofs.Symbols.NameWords
import Formula.Proofs.Symbols.Resolution
import Formula.Render
import Formula.Run
import Formula.Script
import Formula.Session
import Formula.Session.Behaviour
import Formula.Store
import Formula.Symbols
import Formula.Table
import Formula.Text
import Formula.Text.Blank
import Formula.Text.Quoted
import Formula.Text.Unseen
import Formula.Token
import Formula.Proofs.Evaluation.Pending
import Formula.Proofs.Store.Lifetimes
