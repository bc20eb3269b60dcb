import KeyLime.Kernel
import KeyLime.Record
import KeyLime.Parse
import KeyLime.Forward
import KeyLime.Master
import KeyLime.Transition
import KeyLime.Run
import KeyLime.Resume
import KeyLime.Writes
import KeyLime.Decode
import KeyLime.Stages
import KeyLime.Handle
import KeyLime.Schedule
import KeyLime.Descriptors
import KeyLime.Delivery
import KeyLime.Registry
import KeyLime.Frames
import KeyLime.Ready
import KeyLime.Effects
import KeyLime.Call
import KeyLime.Retiring
import KeyLime.Edge
import KeyLime.Routing
import KeyLime.Ledger
import KeyLime.Conservation
import KeyLime.Results
import KeyLime.Targets
import KeyLime.Losses
import KeyLime.Closed
import KeyLime.Idle
import KeyLime.Peers
import KeyLime.Recovery
import KeyLime.Beats
import KeyLime.Parked
import KeyLime.Linked
import KeyLime.Queue
import KeyLime.Monitor
import KeyLime.Job
import KeyLime.Pipeline
import KeyLime.Wiring
import KeyLime.Places
import KeyLime.Shutdown
import KeyLime.Outputs
import KeyLime.Intake
import KeyLime.Receive
import KeyLime.Streams
import KeyLime.Stored
import KeyLime.Senders
import KeyLime.Chunks
import KeyLime.Spares
import KeyLime.Payloads
import KeyLime.Balance
import KeyLime.Scheduler
import KeyLime.Printer
import KeyLime.Reschedule
import KeyLime.Names
import KeyLime.Slots
import KeyLime.Vector
import KeyLime.Contents
import KeyLime.Ownership
import KeyLime.Listing
import KeyLime.Cluster
import KeyLime.Framing
import KeyLime.Choice
import KeyLime.Completion
import KeyLime.Naming
import KeyLime.ShortReads
import KeyLime.Answers
import KeyLime.Resending
import KeyLime.Headers
import KeyLime.Overrun
import KeyLime.Paths
import KeyLime.Prompt
import KeyLime.Temporaries
import KeyLime.Mutex
import KeyLime.Writers
import KeyLime.Lines
import KeyLime.Growth
import KeyLime.Reduction
import KeyLime.PutSteps
import KeyLime.Threads
import KeyLime.Atomic
import KeyLime.Router
import KeyLime.Codec
import KeyLime.Session
import KeyLime.Passage
import KeyLime.Wire
import KeyLime.Return
import KeyLime.Draining
import KeyLime.Settling
import KeyLime.Teardown
import KeyLime.Rest
import KeyLime.Journal
import KeyLime.Dispatch
import KeyLime.Accuracy
import KeyLime.Possession
import KeyLime.Holders
