import ScriptSyntax.Main
import ScriptSyntax.CommandLine
import ScriptSyntax.Session
import ScriptSyntax.SourceReader
import ScriptSyntax.Proofs.Lookahead
import ScriptSyntax.Proofs.RoundTrip
import ScriptSyntax.Proofs.Progress
import ScriptSyntax.Proofs.Lexemes
import ScriptSyntax.Proofs.Splitting
import ScriptSyntax.Proofs.Tiling
import ScriptSyntax.Proofs.Settling
import ScriptSyntax.Proofs.Programs
import ScriptSyntax.Proofs.Joining
import ScriptSyntax.Proofs.Formation
import ScriptSyntax.Proofs.Sessions
import ScriptSyntax.Proofs.Rereading
import ScriptSyntax.Proofs.LayingOut
import ScriptSyntax.Proofs.Slices
import ScriptSyntax.Proofs.Carets
import ScriptSyntax.Proofs.Output
import ScriptSyntax.Proofs.Precedence
import ScriptSyntax.Proofs.Reports
import ScriptSyntax.Proofs.Gaps
import ScriptSyntax.Proofs.Outlines
import ScriptSyntax.Proofs.Leaves
import ScriptSyntax.Proofs.Failing
import ScriptSyntax.Proofs.StatementLists
import ScriptSyntax.Proofs.BlankLines
import ScriptSyntax.Proofs.LinePoints
import ScriptSyntax.Proofs.Literals
import ScriptSyntax.Proofs.Blanks
import ScriptSyntax.Proofs.LayoutSteps
import ScriptSyntax.Proofs.NumberLiterals
import ScriptSyntax.Proofs.Tables
import ScriptSyntax.Proofs.Bounds
import ScriptSyntax.Proofs.TokenLines
import ScriptSyntax.Proofs.Rounds
