import TradePlan.Main
import TradePlan.Proofs.Outcome
import TradePlan.Proofs.Postorder
import TradePlan.Proofs.Machine
import TradePlan.Proofs.Conversion
import TradePlan.Proofs.Grammar
import TradePlan.Proofs.Rounding
import TradePlan.Proofs.DecimalText
import TradePlan.Proofs.Steps
import TradePlan.Proofs.Leaves
import TradePlan.Proofs.Lexing
import TradePlan.Proofs.Rendering
import TradePlan.Proofs.Written
import TradePlan.Proofs.Nesting
import TradePlan.Proofs.Stretches
import TradePlan.Proofs.Arguments
import TradePlan.Proofs.Finiteness
import TradePlan.Proofs.Validation
import TradePlan.Proofs.Infix
import TradePlan.Proofs.JsonText
import TradePlan.Proofs.RuleFiles
import TradePlan.Proofs.StoreRuns
import TradePlan.Proofs.RuleStore
import TradePlan.Proofs.Ladder
import TradePlan.Proofs.NumberOrder
import TradePlan.Proofs.Tiers
import TradePlan.Proofs.LadderOrder
import TradePlan.Proofs.SettingsTexts
import TradePlan.Proofs.Unpacking
import TradePlan.Proofs.Division
import TradePlan.Proofs.ValidSettings
import TradePlan.Proofs.ShortNumbers
import TradePlan.Proofs.SavedRules
import TradePlan.Proofs.Mentions
import TradePlan.Proofs.Aliases
import TradePlan.Proofs.Contents
import TradePlan.Proofs.Balance
import TradePlan.Proofs.Substitution
import TradePlan.Proofs.Variables
import TradePlan.Proofs.Lexemes
import TradePlan.Proofs.Spacing
import TradePlan.Proofs.NameFaults
import TradePlan.Proofs.FileTables
import TradePlan.Proofs.KeptFiles
import TradePlan.Proofs.LargestPosition
import TradePlan.Proofs.Signs
import TradePlan.Proofs.Counts
import TradePlan.Proofs.PositionLimits
import TradePlan.Proofs.StopSides
import TradePlan.Proofs.Chronology
import TradePlan.Proofs.Carets
import TradePlan.Proofs.LetterCase
import TradePlan.Proofs.Spellings
import TradePlan.Proofs.RecordLines
import TradePlan.Proofs.FirstFault
