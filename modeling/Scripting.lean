import Scripting.Proofs.Jumps
import Scripting.Proofs.Lines
import Scripting.Proofs.Depth
import Scripting.Proofs.Equality
import Scripting.Proofs.Sessions
import Scripting.Proofs.Document.RoundTrip
import Scripting.Proofs.Purity
import Scripting.Proofs.Token.Lossless
import Scripting.Proofs.Arithmetic
import Scripting.Proofs.Ranges
import Scripting.Proofs.Rounding
import Scripting.Proofs.Binding
import Scripting.Proofs.Scopes
import Scripting.Proofs.Imports.Effects
import Scripting.Proofs.Reraising
import Scripting.Proofs.Formats
import Scripting.Proofs.Templates
import Scripting.Proofs.Finding
import Scripting.Proofs.Extremes
import Scripting.Proofs.Token.BlankLines
import Scripting.Proofs.Token.LineEnds
import Scripting.Proofs.Grammar.Progress
import Scripting.Proofs.FloatTexts
