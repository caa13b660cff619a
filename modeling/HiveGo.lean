import HiveGo.DerivedUnion
import HiveGo.SubtractReactive
import HiveGo.SetHistory
import HiveGo.SerixPresence
import HiveGo.SerixCanonical
import HiveGo.SerixLocality
import HiveGo.SequenceRuns
import HiveGo.WaitGroup
import HiveGo.BatchedWriterStop
import HiveGo.BatchedWriterUpdates
import HiveGo.DerivedVariable
import HiveGo.VariableChain
import HiveGo.MapDBRealms
import HiveGo.IterationAgreement
import HiveGo.SerixMapScalars
import HiveGo.SerixMapRules
import HiveGo.SubscriptionCounts
import HiveGo.SerixInterfaceRegistry
import HiveGo.AuthenticatedMapReopen
import HiveGo.WorkerPoolShutdown
import HiveGo.OrderedDaemonShutdown
import HiveGo.SafeMul
import HiveGo.Timestamp
import HiveGo.LinkedMapRefines
import HiveGo.DsListMoves
import HiveGo.PriorityQueueRefines
import HiveGo.SerializableOrderedMap
import HiveGo.EventDelivery
import HiveGo.EventTicker
import HiveGo.Backoff
import HiveGo.StreamObjects
import HiveGo.BytesFilter
import HiveGo.Walker
import HiveGo.Debounce
import HiveGo.RingBuffer
import HiveGo.TimedQueue
import HiveGo.TimeHeap
import HiveGo.ShutdownHandler
import HiveGo.Ticker
import HiveGo.DAGMutexExclusion
