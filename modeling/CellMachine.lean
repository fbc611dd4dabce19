import CellMachine.Main
import CellMachine.Proofs.Dispatch
import CellMachine.Proofs.Isolation
import CellMachine.Proofs.Wire.Acceptance
import CellMachine.Proofs.Allowance
import CellMachine.Proofs.FrameIndependence
import CellMachine.Proofs.Termination
import CellMachine.Proofs.CoreResults
import CellMachine.Proofs.Fractions
import CellMachine.Proofs.DataInvariant
import CellMachine.Proofs.CopyInOut
import CellMachine.Proofs.Unambiguity
import CellMachine.Proofs.CoreOperations
import CellMachine.Proofs.Signature.RoundTrip
import CellMachine.Proofs.NamedBinding
import CellMachine.Proofs.BatchResolution
import CellMachine.Proofs.ListBuilding
import CellMachine.Proofs.Wire.Delimiting
import CellMachine.Proofs.Wire.Groups
import CellMachine.Proofs.FractionValues
import CellMachine.Proofs.Powers
import CellMachine.Proofs.ExactArithmetic
import CellMachine.Proofs.ExactComparison
import CellMachine.Proofs.TableHistory
import CellMachine.Proofs.OperandIndependence
import CellMachine.Proofs.StackEffect
import CellMachine.Proofs.OperatorCalls
import CellMachine.Proofs.SingleReport
import CellMachine.Proofs.OwnerCheck
import CellMachine.Proofs.Registration
import CellMachine.Proofs.LineNumbers
import CellMachine.Proofs.Signature.Entries
