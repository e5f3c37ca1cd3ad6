import ShaderCost.Main
import ShaderCost.Proofs.Cost.CircleCounts
import ShaderCost.Proofs.Cost.Identity
import ShaderCost.Proofs.Cost.Layout
import ShaderCost.Proofs.Cost.ReportedCircle
import ShaderCost.Proofs.Grammar.LegalShapes
import ShaderCost.Proofs.Grammar.Typing
import ShaderCost.Proofs.Report.Enumeration
import ShaderCost.Proofs.Report.ShownLines
import ShaderCost.Proofs.Token.Relexing
import ShaderCost.Proofs.Cost.Multipliers
import ShaderCost.Proofs.Watch.Delivery
import ShaderCost.Proofs.Command.ExitStatus
import ShaderCost.Proofs.Grammar.Precedence
import ShaderCost.Proofs.Grammar.UnreadableTokens
import ShaderCost.Proofs.Grammar.Overloads
import ShaderCost.Proofs.Cost.Owners
import ShaderCost.Proofs.Grammar.MacroUses
import ShaderCost.Proofs.Grammar.Scoping
import ShaderCost.Proofs.Grammar.StructContainment
import ShaderCost.Proofs.Grammar.WriteTargets
import ShaderCost.Proofs.Grammar.Accesses
import ShaderCost.Proofs.Cost.AccessWidths
import ShaderCost.Proofs.Token.Delimiters
import ShaderCost.Proofs.Report.HotLines
import ShaderCost.Proofs.Analysis.Schedules
import ShaderCost.Proofs.Watch.Coverage
import ShaderCost.Proofs.Cost.Saturation
import ShaderCost.Proofs.Settings.Persistence
import ShaderCost.Proofs.Grammar.IntegerLiterals
import ShaderCost.Proofs.Shape.OperandOrder
