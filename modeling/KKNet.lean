import KKNet.LinkedCells
import KKNet.ListOverlay
import KKNet.Results
import KKNet.BlockBuffer
import KKNet.BlockLayout
import KKNet.BlockQueue
import KKNet.BlockScatter
import KKNet.BlockReject
import KKNet.BlockAccept
import KKNet.OrderedSet
import KKNet.Runs
import KKNet.BlockCalls
import KKNet.BlockCapacity
import KKNet.BlockTruth
import KKNet.BlockIdentity
import KKNet.BlockHop
import KKNet.BlockPaths
import KKNet.BlockLine
import KKNet.Lines
import KKNet.BlockLines
import KKNet.PollSelect
import KKNet.PollRegistry
import KKNet.PollDescriptors
import KKNet.PollBound
import KKNet.FreeNumbers
import KKNet.Tallies
import KKNet.EventloopLoad
import KKNet.Connection
import KKNet.ConnectionStream
import KKNet.BlockString
import KKNet.ConnectionDelivery
import KKNet.ConnectionPending
import KKNet.ConnectionInput
import KKNet.ConnectionFlood
import KKNet.Arenas
import KKNet.ConnectionSends
import KKNet.ConnectionClose
import KKNet.Eventloop
import KKNet.EventloopWakeup
import KKNet.TimerQueue
import KKNet.TimerBook
import KKNet.TimerRuns
import KKNet.TimerArm
import KKNet.TimerFire
import KKNet.TimerCancel
import KKNet.TimerRelease
import KKNet.EventDispatch
import KKNet.PollSets
import KKNet.EventloopTasks
import KKNet.EventloopProgress
import KKNet.ConnectionInterest
import KKNet.ConnectionHalfClose
import KKNet.Server
import KKNet.ServerLifetime
import KKNet.ServerRegistry
import KKNet.ServerRelease
import KKNet.ClientConnector
import KKNet.ConnectorAttempts
import KKNet.ConnectorRetries
import KKNet.ConnectorHandler
import KKNet.Client
import KKNet.ClientAgreement
import KKNet.Monitors
import KKNet.BlockingQueue
import KKNet.BlockingQueueMoves
import KKNet.Progress
import KKNet.ThreadPool
import KKNet.ThreadPoolDrain
import KKNet.EventloopPool
import KKNet.CountDownLatch
import KKNet.PoolStart
import KKNet.PoolHandshake
import KKNet.PoolReturn
import KKNet.Wheels
import KKNet.TimeWheel
import KKNet.TimeWheelExpiry
import KKNet.TimeWheelLife
