import LogicWiring.Board
import LogicWiring.Build
import LogicWiring.ByteText
import LogicWiring.CommandLine
import LogicWiring.Compile
import LogicWiring.CompileError
import LogicWiring.Diagnostic
import LogicWiring.Document
import LogicWiring.Document.Reader
import LogicWiring.Document.Writer
import LogicWiring.Drawing
import LogicWiring.FanIn
import LogicWiring.FanIn.FreshId
import LogicWiring.Frame
import LogicWiring.Graph
import LogicWiring.Instruction
import LogicWiring.Json.Fault
import LogicWiring.Json.Numeral
import LogicWiring.Json.Quoted
import LogicWiring.Json.Record
import LogicWiring.Json.Token
import LogicWiring.Json.Tree
import LogicWiring.Json.Value
import LogicWiring.Listing
import LogicWiring.Liveness
import LogicWiring.Main
import LogicWiring.Node
import LogicWiring.Opcode
import LogicWiring.Order
import LogicWiring.Program
import LogicWiring.Project
import LogicWiring.Provenance
import LogicWiring.Report
import LogicWiring.Sha256
import LogicWiring.Slots
import LogicWiring.Stage
import LogicWiring.Text.Blank
import LogicWiring.Text.Decimal
import LogicWiring.Proofs.Placing
import LogicWiring.Proofs.SlotTable
import LogicWiring.Proofs.LiveNodes
import LogicWiring.Proofs.Controller
import LogicWiring.Proofs.Dataflow
import LogicWiring.Proofs.Decoding
import LogicWiring.Proofs.Emission
import LogicWiring.Proofs.Simulation
import LogicWiring.Proofs.Grouping
import LogicWiring.Proofs.MergeEmission
import LogicWiring.Proofs.SingleDriver
import LogicWiring.Proofs.Failures
import LogicWiring.Proofs.Limits
import LogicWiring.Proofs.CycleRejection
import LogicWiring.Proofs.Builds
import LogicWiring.Proofs.ReadBack
import LogicWiring.Proofs.Compiled
import LogicWiring.Proofs.SlotUse
import LogicWiring.Proofs.Acceptance
import LogicWiring.Proofs.PinUse
import LogicWiring.Proofs.InstructionFormat
import LogicWiring.Proofs.Framing
import LogicWiring.Proofs.SameWiring
import LogicWiring.Proofs.Redrawing
import LogicWiring.Proofs.WrittenText
import LogicWiring.Proofs.SavedDocument
import LogicWiring.Proofs.Building
import LogicWiring.Proofs.DrawnAlike
import LogicWiring.Proofs.Lexemes
import LogicWiring.Proofs.Grammar
import LogicWiring.Proofs.Records
import LogicWiring.Proofs.Rearranged
import LogicWiring.Proofs.Conversion
import LogicWiring.Proofs.OrderFound
import LogicWiring.Proofs.CanonicalOrder
import LogicWiring.Proofs.LivePaths
import LogicWiring.Proofs.Outputs
import LogicWiring.Proofs.Outcomes
import LogicWiring.Proofs.AnalogReads
import LogicWiring.Proofs.OrderCheck
import LogicWiring.Proofs.Reordering
import LogicWiring.Proofs.SlotNumbers
import LogicWiring.Proofs.WireOrder
import LogicWiring.Proofs.ListingReader
import LogicWiring.Proofs.DrawingReader
import LogicWiring.Proofs.PinLabels
import LogicWiring.Proofs.ByteLists
import LogicWiring.Proofs.FreshIds
import LogicWiring.Proofs.LookUps
import LogicWiring.Proofs.GraphTables
