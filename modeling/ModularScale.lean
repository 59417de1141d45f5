import ModularScale.CommandLine.Directory
import ModularScale.Main
import ModularScale.Proofs.Css.Comments
import ModularScale.Proofs.Css.NestedRule
import ModularScale.Proofs.Document.Faults
import ModularScale.Proofs.Document.Reparsing
import ModularScale.Proofs.Sizing.Locality
import ModularScale.Proofs.Sizing.SourceOrder
import ModularScale.Proofs.Sizing.WidthBlock
import ModularScale.Proofs.Css.Sections
import ModularScale.Proofs.Document.PrintedNames
import ModularScale.Proofs.Document.Trimming
import ModularScale.Proofs.Document.Reach
import ModularScale.Proofs.Sizing.Reached
import ModularScale.Proofs.Css.Cursor
import ModularScale.Proofs.Css.CursorReading
import ModularScale.Proofs.Decimal.Coefficient
import ModularScale.Proofs.Decimal.Unsigned
import ModularScale.Proofs.Document.Attaching
import ModularScale.Proofs.Json.Compact
import ModularScale.Proofs.Json.SettingsText
import ModularScale.Proofs.Sizing.RootPercentage
import ModularScale.Proofs.Document.Siblings
import ModularScale.Proofs.Document.Splices
import ModularScale.Proofs.Document.InTurn
import ModularScale.Proofs.Sizing.StepEffect
import ModularScale.Proofs.Sizing.RootEffect
import ModularScale.Proofs.Sizing.MeasureEffect
import ModularScale.Proofs.CommandLine.Outcome
import ModularScale.Proofs.Sizing.MeasureRange
import ModularScale.Proofs.Sizing.Refusal
import ModularScale.Proofs.Sizing.StepCalls
import ModularScale.Proofs.Document.Effects
import ModularScale.Proofs.Sizing.NearestScope
import ModularScale.Proofs.Css.WrittenLength
import ModularScale.Proofs.Text.CamelCase
import ModularScale.Proofs.Scale.DashedNames
