import Libesp.Schemes.Machine
import Libesp.Schemes.Objects
import Libesp.Schemes.Cursor
import Libesp.Schemes.Memory
import Libesp.Schemes.Bytes
import Libesp.Schemes.Keyed
import Libesp.Schemes.Probe
import Libesp.Schemes.Bracket
import Libesp.Schemes.Nesting
import Libesp.Schemes.Tickets
import Libesp.Schemes.Budget
import Libesp.Schemes.Linear
import Libesp.Queue.LocklessRing
import Libesp.Queue.RingThreads
import Libesp.Queue.RingCursors
import Libesp.Queue.RingDelivery
import Libesp.Queue.RingAccounting
import Libesp.Queue.RingProgress
import Libesp.Queue.BoundedFifo
import Libesp.Queue.RingLinear
import Libesp.Map.PointerHash
import Libesp.Map.HashThreads
import Libesp.Map.HashAlone
import Libesp.Map.HashEntries
import Libesp.Map.HashReferences
import Libesp.Map.HashChains
import Libesp.Map.HashProgress
import Libesp.Map.HashErrors
import Libesp.Map.HashGrowth
import Libesp.Map.TableNames
import Libesp.Map.OrderedMap
import Libesp.Map.HashLinear
import Libesp.Event
import Libesp.Queue.RingOverflow
import Libesp.Queue.BlockDequeue
import Libesp.Stream.RawEventWriter
import Libesp.Stream.Conservation
import Libesp.Stream.FlushRounds
import Libesp.Stream.DrainLoop
import Libesp.Stream.QuietLoop
import Libesp.Stream.Shutdown
import Libesp.Uplift.ReadRecord
import Libesp.Uplift.StringBuffer
import Libesp.Uplift.CutFile
import Libesp.Uplift.FileStore
import Libesp.Uplift.ProbeValues
import Libesp.Uplift.SessionFile
import Libesp.Uplift.SessionTables
import Libesp.Uplift.LiveSession
import Libesp.Uplift.GrowingFile
import Libesp.Uplift.AnyFile
import Libesp.Uplift.WholeZones
import Libesp.Stack.SlabStack
import Libesp.Context.Context
import Libesp.Context.Names
import Libesp.Context.Rings
import Libesp.Context.Recording
import Libesp.Context.CallForest
import Libesp.Context.DepthLimit
import Libesp.Context.Pausing
import Libesp.Context.Resolvable
import Libesp.Context.EventIds
import Libesp.Context.Scenes
import Libesp.Context.NestedZones
import Libesp.Context.ThreadLives
import Libesp.Context.Sessions
import Libesp.Context.Processes
import Libesp.Context.Accesses
import Libesp.Context.Handoffs
import Libesp.Context.AccessProgress
import Libesp.Context.AccessEffects
import Libesp.Context.AccessForest
import Libesp.Timing.Timespec
import Libesp.Timing.Timestamps
import Libesp.Timing.PerformanceCounter
