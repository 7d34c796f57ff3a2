import MovingHeap.Foreign.Interface
import MovingHeap.Mutator.Access
import MovingHeap.Mutator.Allocation
import MovingHeap.Mutator.Exceptions
import MovingHeap.Mutator.Frames
import MovingHeap.Mutator.Globals
import MovingHeap.Mutator.Queries
import MovingHeap.Record.Host
import MovingHeap.Script.ForeignSession
import MovingHeap.Script.Session
import MovingHeap.Proofs.ArenaContents
import MovingHeap.Proofs.FixedSlots
import MovingHeap.Proofs.Outcome
import MovingHeap.Proofs.Packing
import MovingHeap.Proofs.FixedOperations
import MovingHeap.Proofs.FixedLifetime
import MovingHeap.Proofs.Cells
import MovingHeap.Proofs.Evolution
import MovingHeap.Proofs.Contract
import MovingHeap.Proofs.Graph
import MovingHeap.Proofs.RootTables
import MovingHeap.Proofs.Pass
import MovingHeap.Proofs.Tracing
import MovingHeap.Proofs.Relocation
import MovingHeap.Proofs.Scanning
import MovingHeap.Proofs.ScanLoops
import MovingHeap.Proofs.CollectionSteps
import MovingHeap.Proofs.RootVisits
import MovingHeap.Proofs.HeapGraph
import MovingHeap.Proofs.Transport
import MovingHeap.Proofs.Regularity
import MovingHeap.Proofs.Tiling
import MovingHeap.Proofs.Settlement
import MovingHeap.Proofs.MinorCollection
import MovingHeap.Proofs.FullCollection
import MovingHeap.Proofs.MutatorSteps
import MovingHeap.Proofs.Lasting
import MovingHeap.Proofs.Steadiness
import MovingHeap.Proofs.WellFormedness
import MovingHeap.Proofs.MemoryChanges
import MovingHeap.Proofs.RootChanges
import MovingHeap.Proofs.Upkeep
import MovingHeap.Proofs.Conformance
import MovingHeap.Proofs.Courses
import MovingHeap.Proofs.Destructors
import MovingHeap.Proofs.Forwards
import MovingHeap.Proofs.Handlers
import MovingHeap.Proofs.Histories
import MovingHeap.Proofs.Lifetimes
import MovingHeap.Proofs.Recording
import MovingHeap.Proofs.RecordContract
import MovingHeap.Proofs.Initialisation
import MovingHeap.Proofs.Likeness
import MovingHeap.Proofs.Unnoticed
import MovingHeap.Proofs.NewObjects
import MovingHeap.Proofs.FieldStores
import MovingHeap.Proofs.FieldWrites
import MovingHeap.Proofs.Programs
import MovingHeap.Proofs.Places
import MovingHeap.Proofs.Births
import MovingHeap.Proofs.Pairs
import MovingHeap.Proofs.Simulation
import MovingHeap.Proofs.PairedObjects
import MovingHeap.Proofs.Resumption
import MovingHeap.Proofs.Executions
import MovingHeap.Proofs.Invisibility
import MovingHeap.Proofs.Guarantees
import MovingHeap.Proofs.Strides
import MovingHeap.Proofs.Maintenance
import MovingHeap.Proofs.RecordedSlots
import MovingHeap.Proofs.FreshObjects
import MovingHeap.Proofs.FixedRuns
import MovingHeap.Proofs.IntactSlots
import MovingHeap.Proofs.LinkedSlots
import MovingHeap.Proofs.LinkedChanges
import MovingHeap.Proofs.LinkedSweeps
import MovingHeap.Proofs.Counting
import MovingHeap.Proofs.ScanBounds
import MovingHeap.Proofs.Termination
import MovingHeap.Proofs.VisitingOrder
import MovingHeap.Proofs.OrderedVisits
import MovingHeap.Proofs.OrderedTracing
import MovingHeap.Proofs.OrderedCollections
import MovingHeap.Proofs.Twins
import MovingHeap.Proofs.MinorBeforeFull
import MovingHeap.Proofs.OrderedHosts
import MovingHeap.Proofs.Safeguards
import MovingHeap.Proofs.FlatFrames
import MovingHeap.Proofs.FrameHistories
import MovingHeap.Proofs.StoppedCollections
import MovingHeap.Proofs.FailedOperations
import MovingHeap.Proofs.Routines
import MovingHeap.Proofs.ExceptBlocks
import MovingHeap.Proofs.BarrierRuns
import MovingHeap.Proofs.Promotions
import MovingHeap.Proofs.RenamedCopies
import MovingHeap.Proofs.DedupWindow
import MovingHeap.Proofs.RootWalks
import MovingHeap.Proofs.MarkedSlots
import MovingHeap.Proofs.ConstantHistories
import MovingHeap.Proofs.ModuleSlots
import MovingHeap.Proofs.ModuleHistories
import MovingHeap.Proofs.LockedHeaps
import MovingHeap.Proofs.Alongside
import MovingHeap.Proofs.AgreeingMemory
import MovingHeap.Proofs.PreciseForwarding
import MovingHeap.Proofs.PreciseScanning
import MovingHeap.Proofs.PreciseRoots
import MovingHeap.Proofs.PreciseCollections
import MovingHeap.Proofs.Precision
import MovingHeap.Proofs.Completions
import MovingHeap.Proofs.Ledgers
import MovingHeap.Proofs.Turns
import MovingHeap.Proofs.Accounts
import MovingHeap.Proofs.FixedGrowth
import MovingHeap.Proofs.BirthBlocks
import MovingHeap.Proofs.Passages
import MovingHeap.Proofs.Midway
import MovingHeap.Proofs.RepeatedVisits
import MovingHeap.Proofs.IdempotentForwarding
import MovingHeap.Proofs.Classification
import MovingHeap.Proofs.Reservations
import MovingHeap.Proofs.SweptSlots
import MovingHeap.Proofs.PassageInvariants
import MovingHeap.Proofs.Evacuations
import MovingHeap.Proofs.CheckedForwarding
import MovingHeap.Proofs.TombstoneChases
import MovingHeap.Proofs.SlotSizes
import MovingHeap.Proofs.WordEncoding
import MovingHeap.Proofs.RegionExtents
