import GfdProof.Transition
import GfdProof.WorkStreams
import GfdProof.Descriptor
import GfdProof.PollingLoop
import GfdProof.DescriptorRing
import GfdProof.DoubleBuffer
import GfdProof.GatherHandshake
import GfdProof.Script
import GfdProof.BucketScatter
import GfdProof.RadixSort
import GfdProof.BatchPlan
import GfdProof.HostThread
import GfdProof.CopyEngine
import GfdProof.QueueRuns
import GfdProof.SgBlock
import GfdProof.TileLoop
import GfdProof.SlotRing
import GfdProof.SgQueue
import GfdProof.SgLists
import GfdProof.RegionPool
import GfdProof.SgPool
import GfdProof.SgTermination
import GfdProof.SgSession
import GfdProof.CallProgress
import GfdProof.PollingProgress
import GfdProof.RingProgress
import GfdProof.BatchGroups
import GfdProof.TileSignals
import GfdProof.TilePipeline
import GfdProof.CopyEngineManager
import GfdProof.CopyEngineFailure
import GfdProof.CopyEngineRuns
import GfdProof.SessionConfig
import GfdProof.Scratch
import GfdProof.EntryMoves
import GfdProof.TiledBatch
import GfdProof.TiledCalls
import GfdProof.TileCounts
import GfdProof.StagingPool
import GfdProof.GatherCalls
import GfdProof.DirectSubmit
import GfdProof.DirectEntries
import GfdProof.DirectRuns
import GfdProof.QueueCompletion
import GfdProof.ChunkTuning
import GfdProof.TokenLayout
import GfdProof.ParallelGather
import GfdProof.StreamAlignment
import GfdProof.SgBackpressure
import GfdProof.SgChecks
import GfdProof.SgRounds
import GfdProof.QueueSpace
import GfdProof.SafeWrite
import GfdProof.DeferredEvents
import GfdProof.DeferredCompletion
import GfdProof.DeferredSignals
import GfdProof.StagingRelease
import GfdProof.PcieTopology
import GfdProof.StagingInflight
import GfdProof.CallBodies
import GfdProof.StagingReuse
import GfdProof.RadixArrays
import GfdProof.BatchMoves
import GfdProof.PendingWrites
import GfdProof.PendingCopies
import GfdProof.BatchDelivery
import GfdProof.PublishedSlots
import GfdProof.QueueDelivery
import GfdProof.TileArrivals
import GfdProof.ListArrivals
import GfdProof.ListRing
import GfdProof.ListCompletion
import GfdProof.PipelineDelivery
