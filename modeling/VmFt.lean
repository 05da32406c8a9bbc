import VmFt.Lib.Transition
import VmFt.Lib.WorkerPool
import VmFt.Lib.Majority
import VmFt.Lib.Bitmap
import VmFt.Lib.Memory
import VmFt.Lib.Buckets
import VmFt.Lib.Cursor
import VmFt.Lib.Spool
import VmFt.Lib.Session
import VmFt.Lib.Framing
import VmFt.Lib.Ranking
import VmFt.Lib.Overlay
import VmFt.Lib.Scatter
import VmFt.Lib.GQueue
import VmFt.Dare.Sid
import VmFt.Dare.Log
import VmFt.Dare.Server
import VmFt.Dare.Election
import VmFt.Dare.Replication
import VmFt.Dare.Recovery
import VmFt.Dare.Group
import VmFt.Dare.Moves
import VmFt.Dare.SidOrder
import VmFt.Dare.Steps
import VmFt.Dare.Votes
import VmFt.Dare.ElectionSafety
import VmFt.Dare.Phases
import VmFt.Dare.Entries
import VmFt.Dare.OwnTerm
import VmFt.Dare.Terms
import VmFt.Dare.Rejoin
import VmFt.Dare.Followers
import VmFt.Dare.QueuePairs
import VmFt.Dare.Ring
import VmFt.Dare.RingAppend
import VmFt.Dare.RingLayout
import VmFt.Dare.RingQueue
import VmFt.Dare.RingTrail
import VmFt.Dare.ServerLog
import VmFt.Dare.RingRecovery
import VmFt.Dare.Join
import VmFt.Dare.ConfigLog
import VmFt.Dare.PruningSafe
import VmFt.Dare.SmRecovery
import VmFt.Dare.Kvs
import VmFt.Dare.Tailq
import VmFt.Dare.ApplyOnce
import VmFt.Dare.HeadEntries
import VmFt.Dare.Requests
import VmFt.Dare.Submit
import VmFt.Dare.LogRefinement
import VmFt.Dare.Pipeline
import VmFt.Dare.PipelineCompletion
import VmFt.Dare.PipelineInv
import VmFt.Dare.PipelineSound
import VmFt.Dare.PipelineUpdate
import VmFt.Dare.NcBuffer
import VmFt.Dare.StepDown
import VmFt.Dare.CommitRule
import VmFt.Dare.WaitMajority
import VmFt.Dare.WorkCompletion
import VmFt.Dare.SmReply
import VmFt.Dare.ForcedPruning
import VmFt.Dare.SendQueue
import VmFt.Dare.FinishResize
import VmFt.Net.Mirror
import VmFt.Net.InputRing
import VmFt.Net.BatchLimit
import VmFt.Net.SendToGuest
import VmFt.Colo.OutputBuffer
import VmFt.Colo.Primary
import VmFt.Colo.OutputCommit
import VmFt.Colo.Transaction
import VmFt.Colo.Input
import VmFt.Colo.InputCut
import VmFt.Colo.CheckpointRequest
import VmFt.Colo.Failover
import VmFt.Colo.LockBalance
import VmFt.Colo.PrimaryFailover
import VmFt.Colo.Exchange
import VmFt.Ram.Layout
import VmFt.Ram.HashList
import VmFt.Ram.Search
import VmFt.Ram.Checkpoint
import VmFt.Ram.Convergence
import VmFt.Ram.HashWorkers
import VmFt.Ram.HashBarrier
import VmFt.Ram.Completion
import VmFt.Proxy.RecordStore
import VmFt.Rdma.Blocks
import VmFt.Rdma.Write
import VmFt.Rdma.Merge
import VmFt.Rdma.Drain
import VmFt.Block.Replication
import VmFt.ColoProxy.Connection
import VmFt.ColoProxy.Rewriter
import VmFt.ColoProxy.CompareOrder
import VmFt.ColoProxy.CompareConserve
import VmFt.Colo.SizedBuffer
import VmFt.Colo.DeviceState
