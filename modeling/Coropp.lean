import Coropp.Lib.Transition
import Coropp.EventLoop
import Coropp.StackCopy
import Coropp.PrivateStacks
import Coropp.EventPoll
import Coropp.WaitLedger
import Coropp.PollHistory
import Coropp.EventSelect
import Coropp.Waiters
import Coropp.Sync
import Coropp.System
import Coropp.Tokens
import Coropp.FifoWakeups
import Coropp.File
import Coropp.Buffer
import Coropp.BufferCuts
import Coropp.FirstMatch
import Coropp.GetErrors
import Coropp.ReadExact
import Coropp.Smtp
import Coropp.SmtpEnvelope
import Coropp.SmtpEnd
import Coropp.EmailAddr
import Coropp.Chunking
import Coropp.Conservation
import Coropp.FifoOrder
import Coropp.S2n
import Coropp.S2nRead
import Coropp.Ssl
import Coropp.Descriptors
import Coropp.Ownership
import Coropp.Blocking
import Coropp.Expiry
import Coropp.OpenWaits
import Coropp.Timers
import Coropp.Timeout
import Coropp.MainContext
import Coropp.Reentry
import Coropp.ResumeValue
import Coropp.Exit
import Coropp.EventKqueue
import Coropp.Programs
import Coropp.Tables
import Coropp.Write
import Coropp.PollErrors
import Coropp.NextProtos
import Coropp.Connect
import Coropp.ConnectFailures
import Coropp.Lib.Pieces
import Coropp.Lines
import Coropp.EchoSession
import Coropp.EchoClient
import Coropp.EchoExchange
import Coropp.EchoSystem
import Coropp.EchoProgress
import Coropp.EchoCompletion
import Coropp.WakeSteps
import Coropp.WakeCauses
import Coropp.Refinement
import Coropp.Lost
import Coropp.Deadlock
import Coropp.SmtpDialogue
import Coropp.S2nWrite
import Coropp.PollTimes
import Coropp.Portability
