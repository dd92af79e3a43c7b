import MissionScript.Expression.Journal
import MissionScript.Program.Run
import MissionScript.Proofs.Expression.Infix
import MissionScript.Proofs.Expression.Postfix
import MissionScript.Proofs.Program.CommandMode
import MissionScript.Proofs.Program.Declared
import MissionScript.Proofs.Program.Fault
import MissionScript.Proofs.Program.Owners
import MissionScript.Proofs.Block.Code
import MissionScript.Proofs.Text.Line
import MissionScript.Proofs.Block.Rendering
import MissionScript.Proofs.Block.Comments
import MissionScript.Proofs.Expression.WellFormed
import MissionScript.Proofs.Expression.Pieces
import MissionScript.Proofs.Expression.Replay
import MissionScript.Proofs.Block.Attachment
import MissionScript.Proofs.Function.Kinds
import MissionScript.Proofs.Expression.Session
import MissionScript.Proofs.Lexeme.Strings
import MissionScript.Proofs.Expression.Nesting
import MissionScript.Proofs.Expression.Parentheses
import MissionScript.Proofs.Cell.Cut
import MissionScript.Proofs.Expression.Structure
import MissionScript.Proofs.Expression.Arithmetic
import MissionScript.Proofs.Statement.Assignment
import MissionScript.Proofs.Program.Timing
import MissionScript.Proofs.Lexeme.Citation
import MissionScript.Proofs.Program.Equation
import MissionScript.Proofs.Expression.Chain
import MissionScript.Proofs.Expression.Names
import MissionScript.Proofs.Statement.Label
import MissionScript.Proofs.Statement.Declaration
import MissionScript.Proofs.Expression.Blanks
import MissionScript.Proofs.Block.Continuation
import MissionScript.Proofs.Cell.Segments
import MissionScript.Proofs.Expression.CallStage
import MissionScript.Proofs.Expression.Placement
import MissionScript.Proofs.Cell.Split
import MissionScript.Proofs.Program.Mode
