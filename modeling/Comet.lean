import Comet.Main
import Comet.Proofs.Debug.BreakpointStop
import Comet.Proofs.Debug.InputGate
import Comet.Proofs.Debug.PlainRefinement
import Comet.Proofs.Debug.Finished
import Comet.Proofs.Debug.Goal
import Comet.Proofs.Debug.Iteration
import Comet.Proofs.Debug.InputAtHand
import Comet.Proofs.Assembly.Listing
import Comet.Proofs.Assembly.Reading
import Comet.Proofs.Assembly.Counter
import Comet.Proofs.Assembly.Realized
import Comet.Proofs.Assembly.Image
import Comet.Proofs.Assembly.LineMap
import Comet.Proofs.Assembly.Rows
import Comet.Proofs.Assembly.Restriction
import Comet.Proofs.Assembly.Progress
import Comet.Proofs.Assembly.Entries
import Comet.Proofs.Assembly.Contract
import Comet.Proofs.Assembly.Placement
import Comet.Proofs.Assembly.TransferStatement
import Comet.Proofs.Machine.StackEffect
import Comet.Proofs.Machine.FaultAddress
import Comet.Proofs.Machine.FaultEffect
import Comet.Proofs.Machine.RepeatedShift
import Comet.Proofs.Machine.Integers
import Comet.Proofs.Machine.StraightLine
import Comet.Proofs.Machine.Transfer
import Comet.Proofs.Debug.InputOffer
import Comet.Proofs.Debug.StackFrames
import Comet.Proofs.Debug.Waiting
import Comet.Proofs.Debug.Reattempt
import Comet.Proofs.Debug.Relaunch
import Comet.Proofs.Debug.CallHistory
import Comet.Proofs.Adapter.Command
import Comet.Proofs.Adapter.Exchange
import Comet.Proofs.Adapter.RefusedLaunch
import Comet.Proofs.Debug.Conclusion
import Comet.Proofs.Adapter.Served
import Comet.Proofs.Assembly.StringConstants
import Comet.Proofs.Assembly.ConstantGrammar
import Comet.Proofs.Assembly.LabelUse
import Comet.Proofs.Assembly.Reported
import Comet.Proofs.Assembly.Remarks
import Comet.Proofs.Debug.AfterEnd
import Comet.Proofs.Adapter.Listening
import Comet.Proofs.Adapter.MissingLength
import Comet.Proofs.Machine.Echo
import Comet.Proofs.Assembly.RegisterStatements
import Comet.Proofs.Debug.BreakpointTable
import Comet.Proofs.Debug.BreakpointHistory
import Comet.Proofs.Debug.BreakpointEvent
import Comet.Proofs.Adapter.Conversation
import Comet.Proofs.Adapter.BreakpointLines
import Comet.Proofs.Machine.LostOutput
