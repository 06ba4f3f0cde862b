import ParSweet.Locks.Progress
import ParSweet.Locks.FlagProgress
import ParSweet.Sets.Linearizable
import ParSweet.TestTokens
import ParSweet.Sets.TestSets
import ParSweet.Maps.TestMaps
import ParSweet.Barrier.Progress
import ParSweet.Barrier.Wakeup
import ParSweet.ToySoldiersSim.TileOrder
import ParSweet.Sets.LockOrder
import ParSweet.Sets.HandOverHand
import ParSweet.Sets.SingleThread
import ParSweet.Locks.BackoffLock
import ParSweet.Locks.CLHLock
import ParSweet.Locks.CLHNodes
import ParSweet.Locks.FlagLock
import ParSweet.Locks.JavaCLHLock
import ParSweet.Locks.MCSHandOff
import ParSweet.Locks.ALock
import ParSweet.Locks.JavaALock
import ParSweet.Locks.IdLock
import ParSweet.Locks.Isolation
import ParSweet.Locks.TwoCounterLock
import ParSweet.Sets.FineGrainedSet
import ParSweet.Sets.LazySet
import ParSweet.Sets.OptimisticSet
import ParSweet.Concurrent.Segment
import ParSweet.Maps.Disjoint
import ParSweet.Maps.OverLocks
import ParSweet.Maps.JavaLockHashMap
import ParSweet.Maps.JavaSetBasedMap
import ParSweet.PsweetStats
import ParSweet.Sets.Traversal
import ParSweet.Sets.Throwing
import ParSweet.Sets.Interference
import ParSweet.Concurrent.Mutexes
import ParSweet.ToySoldiersSim.DeadSoldiers
import ParSweet.ToySoldiersSim.LockByLock
