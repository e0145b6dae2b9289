import Durable7.FingerTree.AncestralSliceQueue.Histories
import Durable7.FingerTree.BilateralAncestralDeque.Histories
import Durable7.FingerTree.IntervalMap.Histories
import Durable7.FingerTree.IntervalTree.Histories
import Durable7.FingerTree.Measured.Histories
import Durable7.FingerTree.PersistentDeltaMap.Histories
import Durable7.FingerTree.PersistentMonotoneActionHeap.Histories
import Durable7.FingerTree.PersistentRunDeltaVector.Histories
import Durable7.FingerTree.PriorityQueue
import Durable7.FingerTree.DabaLite
import Durable7.FingerTree.ChunkedDabaLite.Audit
import Durable7.FingerTree.SortedDeque
import Durable7.FingerTree.PrioritySearchQueue.Histories
import Durable7.FingerTree.RangeUpdateSequence.Edits
import Durable7.FingerTree.SortedCollections
import Durable7.Hamt.BiMap
import Durable7.Hamt.HashBag.Histories
import Durable7.Hamt.MerklePersistence.BlockFormat
import Durable7.Hamt.MerklePersistence.BudgetSafety
import Durable7.Hamt.MerklePersistence.MergeShortcuts
import Durable7.Hamt.MerklePersistence.ProofSoundness
import Durable7.Hamt.MerklePersistence.Synchronization
import Durable7.Hamt.MerkleSearchTree.Cursor
import Durable7.Hamt.MerkleSearchTree.Diff
import Durable7.Hamt.PersistentDirectedGraph
import Durable7.Hamt.PersistentIndexedMap.Histories
import Durable7.Hamt.PersistentMapPatch.Laws
import Durable7.FingerTree.PersistentChunkedBitSet.Histories
import Durable7.FingerTree.ReversibleDeque.Histories
import Durable7.FingerTree.MeasuredRope.Text
import Durable7.Ordered.PersistentOrderedMultimap
import Durable7.Hamt.MerkleCodecs
import Durable7.Hamt.SecureHash
import Durable7.FingerTree.SortedBag.Probes
