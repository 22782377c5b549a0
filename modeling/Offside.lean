import Offside.Main
import Offside.Proofs.Dfa.Evaluation
import Offside.Proofs.Dfa.Language
import Offside.Proofs.Dfa.Live
import Offside.Proofs.Dfa.Merge
import Offside.Proofs.Dfa.Run
import Offside.Proofs.Dfa.Subset
import Offside.Proofs.Diagnostic.Caret
import Offside.Proofs.Diagnostic.ErrorLine
import Offside.Proofs.FinalBreak.Debt
import Offside.Proofs.FinalBreak.Decoding
import Offside.Proofs.FinalBreak.Parse
import Offside.Proofs.FinalBreak.Run
import Offside.Proofs.FinalBreak.Scanners
import Offside.Proofs.FinalBreak.Tokens
import Offside.Proofs.FinalBreak.Turn
import Offside.Proofs.Grammar.Actions
import Offside.Proofs.Grammar.Beginnings
import Offside.Proofs.Grammar.Blocks
import Offside.Proofs.Grammar.Brackets
import Offside.Proofs.Grammar.Conflicts
import Offside.Proofs.Grammar.FirstSets
import Offside.Proofs.Grammar.Forms
import Offside.Proofs.Grammar.Lawful
import Offside.Proofs.Grammar.LeftRecursion
import Offside.Proofs.Grammar.LineEnds
import Offside.Proofs.Grammar.Numbering
import Offside.Proofs.Grammar.Productive
import Offside.Proofs.Grammar.Reference
import Offside.Proofs.Grammar.Rejections
import Offside.Proofs.Lexer.AsyncKinds
import Offside.Proofs.Lexer.AsyncWords
import Offside.Proofs.Lexer.Balance
import Offside.Proofs.Lexer.BeforeBreaks
import Offside.Proofs.Lexer.BlankLines
import Offside.Proofs.Lexer.Columns
import Offside.Proofs.Lexer.Comments
import Offside.Proofs.Lexer.Continuations
import Offside.Proofs.Lexer.Conventions
import Offside.Proofs.Lexer.Counters
import Offside.Proofs.Lexer.Cursors
import Offside.Proofs.Lexer.Encodings
import Offside.Proofs.Lexer.Ends
import Offside.Proofs.Lexer.Gaps
import Offside.Proofs.Lexer.Idle
import Offside.Proofs.Lexer.Insertions
import Offside.Proofs.Lexer.Layout
import Offside.Proofs.Lexer.Levels
import Offside.Proofs.Lexer.LineStarts
import Offside.Proofs.Lexer.Literals
import Offside.Proofs.Lexer.LongComments
import Offside.Proofs.Lexer.Lowered
import Offside.Proofs.Lexer.Margins
import Offside.Proofs.Lexer.Places
import Offside.Proofs.Lexer.PragmaLines
import Offside.Proofs.Lexer.RecodedScans
import Offside.Proofs.Lexer.Scanners
import Offside.Proofs.Lexer.Stops
import Offside.Proofs.Lexer.Stretches
import Offside.Proofs.Lexer.Tiling
import Offside.Proofs.Lexer.Tokens
import Offside.Proofs.Lexer.Turns
import Offside.Proofs.Lexer.View
import Offside.Proofs.Lookup
import Offside.Proofs.Nfa.Build
import Offside.Proofs.Nfa.Closure
import Offside.Proofs.Nfa.Live
import Offside.Proofs.Nfa.Path
import Offside.Proofs.Outcome
import Offside.Proofs.Parse.Attempt
import Offside.Proofs.Parse.Encodings
import Offside.Proofs.Parse.Ending
import Offside.Proofs.Parse.Features
import Offside.Proofs.Parse.Fidelity
import Offside.Proofs.Parse.Finish
import Offside.Proofs.Parse.PragmaRooms
import Offside.Proofs.Parse.Pragmas
import Offside.Proofs.Parse.Protocol
import Offside.Proofs.Parse.Single
import Offside.Proofs.Parse.Steps
import Offside.Proofs.Parse.Unfinished
import Offside.Proofs.Parse.Watching
import Offside.Proofs.Pattern.Choices
import Offside.Proofs.Pattern.Language
import Offside.Proofs.Pattern.Relabelling
import Offside.Proofs.PragmaRooms
import Offside.Proofs.Pushdown.Alike
import Offside.Proofs.Pushdown.Completeness
import Offside.Proofs.Pushdown.DepthCaps
import Offside.Proofs.Pushdown.Features
import Offside.Proofs.Pushdown.Hints
import Offside.Proofs.Pushdown.LineEnds
import Offside.Proofs.Pushdown.Moves
import Offside.Proofs.Pushdown.Needs
import Offside.Proofs.Pushdown.Soundness
import Offside.Proofs.Pushdown.Stack
import Offside.Proofs.Pushdown.Traces
import Offside.Proofs.Pushdown.Turns
import Offside.Proofs.Pushdown.ViablePrefix
import Offside.Proofs.Rule.Printer
import Offside.Proofs.Rule.RoundTrip
import Offside.Proofs.Source.Conflicts
import Offside.Proofs.Source.CookieComments
import Offside.Proofs.Source.Cookies
import Offside.Proofs.Source.Declarations
import Offside.Proofs.Source.Lossless
import Offside.Proofs.Source.Reading
import Offside.Proofs.Source.Sizes
import Offside.Proofs.Text.Breaks
import Offside.Proofs.Text.Decoding
import Offside.Proofs.Text.Prefixes
import Offside.Proofs.Text.Quoted
import Offside.Proofs.Text.Recoding
import Offside.Proofs.Tree.Derivation
import Offside.Proofs.Tree.Dump
import Offside.Proofs.Tree.Shape
