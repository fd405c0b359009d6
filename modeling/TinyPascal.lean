import TinyPascal.Source.Span
import TinyPascal.Token.Basic
import TinyPascal.Token.Lexeme
import TinyPascal.Token.Stream
import TinyPascal.Token.Scan
import TinyPascal.Tree.Basic
import TinyPascal.Tree.Parser.Basic
import TinyPascal.Tree.Parser.Expr
import TinyPascal.Tree.Parser.Stmt
import TinyPascal.Tree.Parser.Program
import TinyPascal.Tree.Read
import TinyPascal.Scope.Symbol
import TinyPascal.Scope.Table
import TinyPascal.Typing.Error
import TinyPascal.Typing.Expr
import TinyPascal.Typing.Program
import TinyPascal.Code.Instr
import TinyPascal.Code.Supply
import TinyPascal.Code.Lower
import TinyPascal.Code.Render
import TinyPascal.Tree.Dump
import TinyPascal.Diagnostic
import TinyPascal.Compile
import TinyPascal.CommandLine
import TinyPascal.Main
import TinyPascal.Proofs.Code.Names
import TinyPascal.Proofs.Tree.Occurrences
import TinyPascal.Proofs.Code.Lowering
import TinyPascal.Proofs.Code.Sections
import TinyPascal.Proofs.Semantics.BigStep
import TinyPascal.Proofs.Semantics.Machine
import TinyPascal.Proofs.Semantics.Match
import TinyPascal.Proofs.Semantics.Expressions
import TinyPascal.Proofs.Semantics.Statements
import TinyPascal.Proofs.Semantics.Forward
import TinyPascal.Proofs.Semantics.Backward
import TinyPascal.Proofs.Semantics.Linking
import TinyPascal.Proofs.Typing.Checks
import TinyPascal.Proofs.Code.StrayJumps
import TinyPascal.Proofs.Compile
import TinyPascal.Proofs.Semantics.Preservation
import TinyPascal.Proofs.Scope.Mapped
import TinyPascal.Proofs.Scope.Marks
import TinyPascal.Proofs.Typing.Rules
import TinyPascal.Proofs.Typing.Decides
import TinyPascal.Proofs.Grammar.Rules
import TinyPascal.Proofs.Grammar.Expressions
import TinyPascal.Proofs.Grammar.Statements
import TinyPascal.Proofs.Grammar.Programs
import TinyPascal.Proofs.Grammar.Sentences
import TinyPascal.Proofs.Code.Temporaries
import TinyPascal.Proofs.Code.Jumps
import TinyPascal.Proofs.Code.TypedCode
import TinyPascal.Proofs.Grammar.Remainder
import TinyPascal.Proofs.Code.TypePreservation
import TinyPascal.Proofs.Token.Tiling
import TinyPascal.Proofs.Grammar.Readers
import TinyPascal.Proofs.Grammar.Lookahead
import TinyPascal.Proofs.Grammar.ViablePrefix
import TinyPascal.Proofs.Tree.Print
import TinyPascal.Proofs.Grammar.Written
import TinyPascal.Proofs.Grammar.Normal
import TinyPascal.Proofs.Grammar.RoundTrip
import TinyPascal.Proofs.Tree.Spans
import TinyPascal.Proofs.Scope.History
import TinyPascal.Proofs.Typing.FinishedTable
import TinyPascal.Proofs.Code.Numbering
import TinyPascal.Proofs.Typing.Blame
import TinyPascal.Proofs.Diagnostic
import TinyPascal.Proofs.Code.Listing
import TinyPascal.Proofs.Token.Printing
import TinyPascal.Proofs.Typing.DeclarationOrder
import TinyPascal.Proofs.Tree.Spelling
import TinyPascal.Proofs.Code.Legible
import TinyPascal.Proofs.Code.ThreeAddress
import TinyPascal.Proofs.Token.Cuts
import TinyPascal.Proofs.Token.Locality
import TinyPascal.Proofs.Code.Mirror
import TinyPascal.Proofs.Token.Maximal
import TinyPascal.Proofs.Semantics.Activations
import TinyPascal.Proofs.Semantics.Operands
import TinyPascal.Proofs.Code.SingleUse
import TinyPascal.Proofs.Code.FirstStray
import TinyPascal.Proofs.Code.Renumbering
import TinyPascal.Proofs.Grammar.ReadPrefix
import TinyPascal.Proofs.Tree.Core
import TinyPascal.Proofs.Typing.Core
import TinyPascal.Proofs.Parentheses
import TinyPascal.Proofs.Token.Listing
import TinyPascal.Proofs.Token.LetterCase
import TinyPascal.Proofs.Typing.Analyzer
import TinyPascal.Proofs.Typing.Balance
import TinyPascal.Proofs.Code.Generator
import TinyPascal.Proofs.Source.Merging
import TinyPascal.Proofs.Grammar.Agreement
import TinyPascal.Proofs.Grammar.Progress
