import Reckon.Main
import Reckon.Proofs.Reduction.Program
import Reckon.Proofs.Reduction.Sentences
import Reckon.Proofs.Syntax.Tree
import Reckon.Proofs.Syntax.Derivable
import Reckon.Proofs.Descent.Matching
import Reckon.Proofs.Descent.Complete
import Reckon.Proofs.Pushdown.Complete
import Reckon.Proofs.Pushdown.Sound
import Reckon.Proofs.Descent.Errors
import Reckon.Proofs.Pushdown.Errors
import Reckon.Proofs.Code.Encoding
import Reckon.Proofs.Code.Truncation
import Reckon.Proofs.Compile.Item
import Reckon.Proofs.Compile.Code
import Reckon.Proofs.Compile.Numbering
import Reckon.Proofs.Compile.Shape
import Reckon.Proofs.Compile.Layout
import Reckon.Proofs.Compile.Execution
import Reckon.Proofs.Compile.Simulation
import Reckon.Proofs.Compile.Composing
import Reckon.Proofs.Compile.Statements
import Reckon.Proofs.Compile.Rendering
import Reckon.Proofs.Compile.Runs
import Reckon.Proofs.Compile.Total
import Reckon.Proofs.Compile.Safety
import Reckon.Proofs.Compile.Evaluating
import Reckon.Proofs.Compile.Pooling
import Reckon.Proofs.Compile.Segments
import Reckon.Proofs.Compile.Lone
import Reckon.Proofs.Compile.Missing
import Reckon.Proofs.Compile.Labels
import Reckon.Proofs.Compile.Jumps
import Reckon.Proofs.Compile.Increment
import Reckon.Proofs.Compile.Taking
import Reckon.Proofs.Compile.Brackets
import Reckon.Proofs.Compile.Places
import Reckon.Proofs.Reduction.Place
import Reckon.Proofs.Reduction.Ending
import Reckon.Proofs.Machine.Effect
import Reckon.Proofs.Machine.Limit
import Reckon.Proofs.Machine.Names
import Reckon.Proofs.Machine.Jumping
import Reckon.Proofs.Grammar.Order
import Reckon.Proofs.Grammar.Relations
import Reckon.Proofs.Compile.Sparing
import Reckon.Proofs.Compile.Making
import Reckon.Proofs.Reduction.Trace
import Reckon.Proofs.Descent.Attempts
import Reckon.Proofs.Token.Lexical
import Reckon.Proofs.Token.Splitting
import Reckon.Proofs.Token.Scanning
import Reckon.Proofs.Token.Meaning
import Reckon.Proofs.Token.Lines
import Reckon.Proofs.Token.Tables
import Reckon.Proofs.Token.Findings
import Reckon.Proofs.Single.Written
import Reckon.Proofs.Token.Respelling
import Reckon.Proofs.Token.Writing
import Reckon.Recogniser.Table
import Reckon.Proofs.Grammar.Visiting
import Reckon.Proofs.Descent.Ending
import Reckon.Proofs.Pushdown.Turns
import Reckon.Proofs.Token.Joining
import Reckon.Proofs.Compile.Unclosed
import Reckon.Proofs.Compile.Negation
import Reckon.Proofs.Code.Literals
import Reckon.Proofs.Compile.Fresh
import Reckon.Proofs.Compile.Naming
