import Concurrit.Model.Tree
import Concurrit.Model.Manager
import Concurrit.Lib.Runs
import Concurrit.Model.Dsl
import Concurrit.Model.Explorer
import Concurrit.Lib.Walk
import Concurrit.Model.Heap
import Concurrit.Model.Stack
import Concurrit.Model.Path
import Concurrit.Model.Shortcut
import Concurrit.Model.Backtrack
import Concurrit.Model.Operations
import Concurrit.Model.EndExecution
import Concurrit.Model.Exceptions
import Concurrit.Model.Explore
import Concurrit.Model.Coroutine
import Concurrit.Model.Positions
import Concurrit.Model.Search
import Concurrit.Model.Coherence
import Concurrit.Model.Closing
import Concurrit.Model.Coverage
import Concurrit.Model.Ending
import Concurrit.Model.Progress
import Concurrit.Model.Orderly
import Concurrit.Model.ScriptTree
import Concurrit.Model.Exhaustive
import Concurrit.Model.Settled
import Concurrit.Model.Covering
import Concurrit.Model.Replay
import Concurrit.Model.Marking
import Concurrit.Lib.Transfer
import Concurrit.Lib.Bytes
import Concurrit.Model.EventPipe
import Concurrit.Model.AuxState
import Concurrit.Model.Locality
import Concurrit.Model.Protocol
import Concurrit.Model.Reference
import Concurrit.Model.Current
import Concurrit.Model.Constraints
import Concurrit.Model.Offers
import Concurrit.Model.Operators
import Concurrit.Model.Exclusion
import Concurrit.Model.WakeUp
import Concurrit.Model.ConcurrentPipe
import Concurrit.Model.Broadcast
import Concurrit.Model.Shadows
import Concurrit.Model.ServerRoles
import Concurrit.Model.ServerReplies
import Concurrit.Model.ServerEnds
import Concurrit.Model.ServerProgress
import Concurrit.Model.Interposition
import Concurrit.Model.JoinProgress
import Concurrit.Model.Calls
import Concurrit.Model.Activations
import Concurrit.Lib.Formula
import Concurrit.Model.Captures
import Concurrit.Model.FirstConstraint
import Concurrit.Model.Insertion
import Concurrit.Model.RestartStack
import Concurrit.Model.ForallIdentity
import Concurrit.Model.NodeSteps
import Concurrit.Model.Retries
import Concurrit.Model.ThreadEnd
import Concurrit.Model.ForallProgress
import Concurrit.Lib.Stream
import Concurrit.Model.EndOfStream
import Concurrit.Model.Group
import Concurrit.Model.Mailbox
import Concurrit.Model.ThreadExpressions
import Concurrit.Model.Mutex
import Concurrit.Model.Suite
import Concurrit.Model.Channel
import Concurrit.Model.Requests
import Concurrit.Model.Counit
import Concurrit.Model.CounitRun
import Concurrit.Model.CounitFile
import Concurrit.Model.LineFile
import Concurrit.Model.Instrumenter
import Concurrit.Model.RoundRobin
import Concurrit.Model.CounitSteps
import Concurrit.Model.CounitLockstep
import Concurrit.Model.CounitTrace
import Concurrit.Model.CounitForall
import Concurrit.Model.CounitMembers
import Concurrit.Model.CounitRecord
import Concurrit.Model.CounitReplay
import Concurrit.Model.Senders
import Concurrit.Model.RemoteCalls
import Concurrit.Model.Notices
import Concurrit.Lib.Choices
import Concurrit.Model.CounitWays
import Concurrit.Model.CounitChoices
import Concurrit.Model.CounitOnce
import Concurrit.Model.MemoryTrace
import Concurrit.Model.PipeOpen
import Concurrit.Model.Verdict
