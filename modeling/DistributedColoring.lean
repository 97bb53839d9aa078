import DistributedColoring.GuardedRun
import DistributedColoring.ReplicatedLog
import DistributedColoring.PetersonLock
import DistributedColoring.StampedFlood
import DistributedColoring.GreedyColoring
import DistributedColoring.Dialogue
import DistributedColoring.RingBuffer
import DistributedColoring.MinimalColor
import DistributedColoring.CText
import DistributedColoring.Client
import DistributedColoring.Deployment
import DistributedColoring.Steps
import DistributedColoring.LocalShape
import DistributedColoring.Bookkeeping
import DistributedColoring.EdgeLock
import DistributedColoring.History
import DistributedColoring.FrozenColors
import DistributedColoring.Serializability
import DistributedColoring.CrossingTurns
import DistributedColoring.DeadlockFreedom
import DistributedColoring.CrashFreedom
import DistributedColoring.Replay
import DistributedColoring.Mesh
import DistributedColoring.MeshRefinement
import DistributedColoring.MeshConsistency
import DistributedColoring.CommandLog
import DistributedColoring.Throughput
import DistributedColoring.AddGraph
import DistributedColoring.AddGraphFaults
import DistributedColoring.FetchKeys
import DistributedColoring.WorkAssignment
import DistributedColoring.Reload
import DistributedColoring.KeyNames
import DistributedColoring.Dispatch
import DistributedColoring.FailSafe
import DistributedColoring.CallOutcomes
import DistributedColoring.ColorSet
import DistributedColoring.ChosenColor
import DistributedColoring.OneServer
import DistributedColoring.CheckColor
import DistributedColoring.Pipeline
import DistributedColoring.Monitor
import DistributedColoring.Completion
import DistributedColoring.SoloRun
import DistributedColoring.FairTrace
import DistributedColoring.RemainingWork
import DistributedColoring.LogDelivery
import DistributedColoring.Completable
import DistributedColoring.FairTermination
import DistributedColoring.WholeExperiment
import DistributedColoring.LongNumbers
import DistributedColoring.ByteMemory
import DistributedColoring.CircularWindow
import DistributedColoring.ReplicationBacklog
import DistributedColoring.StreamParser
import DistributedColoring.SplitArgs
import DistributedColoring.QueryBuffer
import DistributedColoring.QueryParsing
import DistributedColoring.ClientInput
import DistributedColoring.ReplicationStream
import DistributedColoring.ReplicationLink
import DistributedColoring.WaitCommand
import DistributedColoring.IntSet
import DistributedColoring.SetType
import DistributedColoring.SetCommands
import DistributedColoring.EncodedGraph
