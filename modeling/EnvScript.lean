import EnvScript.Main
import EnvScript.Proofs.Success
import EnvScript.Proofs.Glob.Longest
import EnvScript.Proofs.Glob.Regex
import EnvScript.Proofs.Glob.Language
import EnvScript.Proofs.Glob.Bracket
import EnvScript.Proofs.Replacement.Parted
import EnvScript.Proofs.Replacement.Literal
import EnvScript.Proofs.Word.Leading
import EnvScript.Proofs.Token.Stream
import EnvScript.Proofs.Command.Lookahead
import EnvScript.Proofs.Command.Parser
import EnvScript.Proofs.Script.Grammar
import EnvScript.Proofs.Command.Accepted
import EnvScript.Proofs.Script.Success
import EnvScript.Proofs.Script.Failure
import EnvScript.Proofs.Script.Quoted
import EnvScript.Proofs.Script.Active
import EnvScript.Proofs.Script.Errors
import EnvScript.Proofs.Script.Printed
import EnvScript.Proofs.Expansion.Supported
import EnvScript.Proofs.Token.Partition
import EnvScript.Proofs.Word.Rendering
import EnvScript.Proofs.Expansion.Agreement
import EnvScript.Proofs.Script.Agreement
import EnvScript.Proofs.Script.Tighter
import EnvScript.Proofs.Word.Styled
import EnvScript.Proofs.Script.Styled
import EnvScript.Proofs.Command.Positions
import EnvScript.Proofs.Script.Positions
import EnvScript.Proofs.Word.Moved
import EnvScript.Proofs.Script.Separated
import EnvScript.Proofs.Script.LineEnds
import EnvScript.Proofs.Expansion.Unescaped
import EnvScript.Proofs.Token.Resumed
import EnvScript.Proofs.Token.Spacing
import EnvScript.Proofs.Script.Compound
import EnvScript.Proofs.Spec.Substring
import EnvScript.Proofs.Command.WellFormed
import EnvScript.Proofs.Word.Normal
import EnvScript.Proofs.Command.Calls
import EnvScript.Proofs.Token.Nesting
import EnvScript.Proofs.Command.Rounds
import EnvScript.Proofs.Spec.Separator
import EnvScript.Proofs.Word.Assignment
