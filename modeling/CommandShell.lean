import CommandShell.Grammar.Clause
import CommandShell.Grammar.Lexeme.Written
import CommandShell.Line.Written
import CommandShell.Main
import CommandShell.Matching.Sentence
import CommandShell.Matching.Lineup
import CommandShell.Session.Mark
import CommandShell.Tree.Arena
import CommandShell.Tree.Outline
import CommandShell.Tree.Sketch
import CommandShell.Tree.Path
import CommandShell.Proofs.Outcome
import CommandShell.Proofs.Tree.Frontier
import CommandShell.Proofs.Tree.Links
import CommandShell.Proofs.Rule.Spelling
import CommandShell.Proofs.Tree.Assembly
import CommandShell.Proofs.Tree.Growth
import CommandShell.Proofs.Tree.Walk
import CommandShell.Proofs.Tree.Language
import CommandShell.Proofs.Matching.Acceptance
import CommandShell.Proofs.Matching.Passing
import CommandShell.Proofs.Matching.Sentence
import CommandShell.Proofs.Grammar.Compiled
import CommandShell.Proofs.Matching.Greedy
import CommandShell.Proofs.Rule.Fewest
import CommandShell.Proofs.Matching.Minimum
import CommandShell.Proofs.Line.Quoting
import CommandShell.Proofs.Matching.Verdict
import CommandShell.Proofs.Grammar.Clause
import CommandShell.Proofs.Grammar.Lexemes
import CommandShell.Proofs.Grammar.Notation
import CommandShell.Proofs.Grammar.Names
import CommandShell.Proofs.Grammar.Positional
import CommandShell.Proofs.Tree.Flags
import CommandShell.Proofs.Matching.Completion
import CommandShell.Proofs.Matching.Narrowing
import CommandShell.Proofs.Line.Typing
import CommandShell.Proofs.Grammar.Limit
import CommandShell.Proofs.Grammar.Nesting
import CommandShell.Proofs.Span
import CommandShell.Proofs.Tree.Symbols
import CommandShell.Proofs.Tree.Exploration
import CommandShell.Proofs.Tree.Building
import CommandShell.Proofs.Grammar.Spans
import CommandShell.Proofs.Grammar.Places
import CommandShell.Proofs.Tree.Shape
import CommandShell.Proofs.Tree.Arena
import CommandShell.Proofs.Tree.Outline
import CommandShell.Proofs.Matching.Leading
import CommandShell.Proofs.Matching.Early
import CommandShell.Proofs.Matching.Assignment
import CommandShell.Proofs.Argument.Accumulation
import CommandShell.Proofs.Argument.Gathering
import CommandShell.Proofs.Tree.Spoken
import CommandShell.Proofs.Tree.Residual
import CommandShell.Proofs.Rule.Lineup
import CommandShell.Proofs.Matching.Turns
import CommandShell.Proofs.Matching.Lineup
import CommandShell.Proofs.Line.Standing
import CommandShell.Proofs.Line.OpenQuote
import CommandShell.Proofs.Line.Committed
import CommandShell.Proofs.Line.Partition
import CommandShell.Proofs.Distinct
import CommandShell.Proofs.Shell.Declarations
import CommandShell.Proofs.Shell.Execution
import CommandShell.Proofs.Shell.Registration
import CommandShell.Proofs.Shell.Candidates
import CommandShell.Proofs.Shell.Demo
import CommandShell.Proofs.Shell.Diagnostics
import CommandShell.Proofs.Session.Failing
import CommandShell.Proofs.Session.Painting
