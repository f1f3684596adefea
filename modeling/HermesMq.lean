import HermesMq.Machine
import HermesMq.OrdMap
import HermesMq.WriteBehind
import HermesMq.TopK
import HermesMq.Watermark
import HermesMq.Types
import HermesMq.Group
import HermesMq.DoneSet
import HermesMq.Topic
import HermesMq.TopicLemmas
import HermesMq.Queue
import HermesMq.QueueSteps
import HermesMq.QueueInvariants
import HermesMq.QueueHistory
import HermesMq.GroupExpiry
import HermesMq.QueueLease
import HermesMq.QueueValidate
import HermesMq.QueueHealth
import HermesMq.Codec
import HermesMq.RaftTypes
import HermesMq.StateMachine
import HermesMq.TopicLimit
import HermesMq.ProduceBatch
import HermesMq.AckCommute
import HermesMq.LeaseIds
import HermesMq.Isolation
import HermesMq.SelectionReference
import HermesMq.Starvation
import HermesMq.AckBatch
import HermesMq.GroupLimit
import HermesMq.TopicLog
import HermesMq.DedupWindow
import HermesMq.QueueLimits
import HermesMq.DeliveryGate
import HermesMq.Retention
import HermesMq.SubTracking
import HermesMq.TrackingRuns
import HermesMq.PushSession
import HermesMq.Subscription
import HermesMq.Prefetch
import HermesMq.Storage
import HermesMq.LogStore
import HermesMq.LogSystem
import HermesMq.LogInvariant
import HermesMq.LogReader
import HermesMq.LogDurability
import HermesMq.LogRange
import HermesMq.LogRefinement
import HermesMq.SnapshotStore
import HermesMq.InstallSnapshot
import HermesMq.Recovery
import HermesMq.PurgeRetry
import HermesMq.ClientProtocol
import HermesMq.ClientConnection
import HermesMq.Gate
import HermesMq.PeerProtocol
import HermesMq.TokenGate
import HermesMq.Frame
import HermesMq.FrameStream
import HermesMq.PeerConnection
import HermesMq.Wire
import HermesMq.ClientWire
import HermesMq.ClientPort
import HermesMq.ReplicationFrame
import HermesMq.PollResponse
import HermesMq.TokenBucket
import HermesMq.RateLimiter
import HermesMq.TopicSettings
import HermesMq.Layout
import HermesMq.EntryLayout
import HermesMq.PeerStream
import HermesMq.StateLayout
import HermesMq.SnapshotBytes
import HermesMq.Cluster
import HermesMq.RatedDelivery
import HermesMq.Journal
import HermesMq.NodeSystem
import HermesMq.NodeInvariant
import HermesMq.NodeRestart
import HermesMq.QuietGate
import HermesMq.Broadcast
import HermesMq.Wakeups
import HermesMq.Batcher
import HermesMq.ProducePipeline
import HermesMq.AckPipeline
import HermesMq.SessionClose
import HermesMq.Broker
import HermesMq.BrokerTopics
import HermesMq.BrokerConsumers
import HermesMq.BrokerRefinement
