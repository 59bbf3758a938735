import RegisterMachine.Operation.Host
import RegisterMachine.Main
import RegisterMachine.Proofs.Touches
import RegisterMachine.Proofs.Phases
import RegisterMachine.Proofs.Step
import RegisterMachine.Proofs.Assembly
import RegisterMachine.Proofs.Refinement
import RegisterMachine.Proofs.Acceptance
import RegisterMachine.Proofs.DoubleBits
import RegisterMachine.Proofs.Rounding
import RegisterMachine.Proofs.ShortestDigits
import RegisterMachine.Proofs.DecimalText
import RegisterMachine.Proofs.Numeral
import RegisterMachine.Proofs.FloatReading
import RegisterMachine.Proofs.FirstForm
import RegisterMachine.Proofs.Printing
import RegisterMachine.Proofs.LineReading
import RegisterMachine.Proofs.Hosting
import RegisterMachine.Proofs.Shapes
import RegisterMachine.Proofs.ProgramCounter
import RegisterMachine.Proofs.TextOrder
import RegisterMachine.Proofs.Lookup
import RegisterMachine.Proofs.RegisterUse
import RegisterMachine.Proofs.Resumption
import RegisterMachine.Proofs.WellFormed
import RegisterMachine.Proofs.Listing
import RegisterMachine.Proofs.CoverageSet
import RegisterMachine.Proofs.Independence
import RegisterMachine.Proofs.Statistics
import RegisterMachine.Proofs.Halting
import RegisterMachine.Proofs.Walking
import RegisterMachine.Proofs.StandardOperations
import RegisterMachine.Proofs.Euclid
import RegisterMachine.Proofs.Fibonacci
import RegisterMachine.Proofs.Validation
import RegisterMachine.Proofs.Faults
import RegisterMachine.Proofs.Translation
import RegisterMachine.Proofs.Layout
import RegisterMachine.Proofs.Spans
import RegisterMachine.Proofs.OneAndAll
import RegisterMachine.Proofs.Interruption
import RegisterMachine.Proofs.ValueReading
import RegisterMachine.Proofs.ListRepresentations
import RegisterMachine.Proofs.Arithmetic
import RegisterMachine.Proofs.Comparison
import RegisterMachine.Proofs.Brackets
import RegisterMachine.Proofs.StepPhases
import RegisterMachine.Proofs.HaltRequests
import RegisterMachine.Proofs.StackHistory
import RegisterMachine.Proofs.CoverageStore
import RegisterMachine.Proofs.CoverageEdits
import RegisterMachine.Proofs.WireDecoding
import RegisterMachine.Proofs.Hottest
import RegisterMachine.Proofs.RegisterNames
import RegisterMachine.Proofs.WordValues
import RegisterMachine.Proofs.InitialValues
import RegisterMachine.Proofs.Descent
import RegisterMachine.Proofs.Enclosure
import RegisterMachine.Proofs.FormKinds
import RegisterMachine.Proofs.FormAfterForm
import RegisterMachine.Proofs.Progress
