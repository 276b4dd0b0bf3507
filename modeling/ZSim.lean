import ZSim.MemoryHierarchy
import ZSim.CoherenceCtrls
import ZSim.DirectoryAgreement
import ZSim.TopController
import ZSim.TopControllerFrame
import ZSim.ParentCache
import ZSim.ParentCacheInvariant
import ZSim.ParentCacheSafety
import ZSim.CacheHierarchy
import ZSim.HierarchyInvalidate
import ZSim.HierarchyInvariant
import ZSim.HierarchySegments
import ZSim.HierarchySteps
import ZSim.DirtyData
import ZSim.RequestFlags
import ZSim.ZArray
import ZSim.ZArrayWalk
import ZSim.ZArrayRefinement
import ZSim.LinkedList
import ZSim.PrioQueue
import ZSim.PrioQueueWindow
import ZSim.PrioQueueSearch
import ZSim.PrioQueueRefinement
import ZSim.Lockstep
import ZSim.SetAssocLRU
import ZSim.FilterCache
import ZSim.LRUOrder
import ZSim.FilterCacheSimulation
import ZSim.FilterCacheTransparent
import ZSim.TimingEvent
import ZSim.TimingEventChildren
import ZSim.TimingEventInvariant
import ZSim.TimingEventDelivery
import ZSim.TimingEventDag
import ZSim.TimingEventRun
import ZSim.LRUStack
import ZSim.UtilityMonitor
import ZSim.UtilityMonitorList
import ZSim.UtilityMonitorMisses
import ZSim.UMonMonitor
import ZSim.Lookahead
import ZSim.LookaheadValid
import ZSim.Barrier
import ZSim.BarrierInvariant
import ZSim.BarrierPhase
import ZSim.BarrierRuns
import ZSim.CareRepl
import ZSim.CareReuse
import ZSim.TimingCache
import ZSim.TimingCacheMSHR
import ZSim.TimingCachePMC
import ZSim.Prefetcher
import ZSim.PrefetcherRuns
import ZSim.SumUpdate
import ZSim.Futex
import ZSim.FutexAccounting
import ZSim.DDRMemory
import ZSim.DDRActWindow
import ZSim.DDRQueues
import ZSim.DDRWakeup
import ZSim.DDRServed
import ZSim.DDRLegal
import ZSim.DDRLegalRuns
import ZSim.InList
import ZSim.InListSpec
import ZSim.IdealLRUArray
import ZSim.IdealLRURefinement
import ZSim.PartInfo
import ZSim.IdealLRUPart
import ZSim.IdealLRUPartLists
import ZSim.WayPart
import ZSim.WayPartVictims
import ZSim.Vantage
import ZSim.VantageCounts
import ZSim.VantageTargets
import ZSim.EventQueue
import ZSim.AdaptiveEvents
import ZSim.AdaptiveEventRuns
import ZSim.HDF5Stats
import ZSim.HDF5StatsLayout
import ZSim.HDF5StatsDump
import ZSim.HDF5StatsRecords
import ZSim.CoreRecorder
import ZSim.CoreCycles
import ZSim.ProcessCycles
import ZSim.EventGraph
import ZSim.TimingRecords
import ZSim.TimingRecordEvents
import ZSim.TimingRecordRuns
import ZSim.BinaryFloat
import ZSim.FirstBest
import ZSim.CareDTRM
import ZSim.CareTraining
import ZSim.SRRIPRepl
import ZSim.SRRIPVictim
import ZSim.LRUVictim
import ZSim.LFURepl
import ZSim.LFUVictim
import ZSim.PolicyCache
import ZSim.InvalidFirst
import ZSim.DetailedMemActs
import ZSim.DetailedMemBus
import ZSim.OOOTiming
import ZSim.OOORecorderClocks
import ZSim.BranchPredictor
import ZSim.ReorderBuffer
import ZSim.DecodeBbl
import ZSim.NRURepl
import ZSim.TreeLRU
import ZSim.ProfViol
import ZSim.DecoderTemplates
import ZSim.WindowRuns
import ZSim.PredicatedOps
import ZSim.WeavePhaseLimit
import ZSim.H3Hash
import ZSim.DDRClocks
import ZSim.TagPort
import ZSim.AddressInjective
import ZSim.SlabAlloc
import ZSim.MemScheduler
import ZSim.DDRFairness
import ZSim.DDRActSpacing
import ZSim.PrefetchMirror
import ZSim.SchedulerCoherent
import ZSim.SortTraceOrder
import ZSim.StatsFilter
import ZSim.PartIndices
import ZSim.ParseMaskGrammar
import ZSim.GroupHierarchy
import ZSim.SleepWake
import ZSim.MemControllerWake
import ZSim.PowerDownRuns
import ZSim.InListRuns
import ZSim.DDRActOrder
import ZSim.TraceReplay
import ZSim.CrossingRuns
import ZSim.FutexRefinement
import ZSim.FutexProgress
import ZSim.RWMutex
import ZSim.CacheLockRuns
import ZSim.SimThreads
import ZSim.PhaseClocks
import ZSim.ProcessRuns
import ZSim.PortVirtualizer
