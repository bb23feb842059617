import UncNode.Lib.MerkleTree
import UncNode.Chain.Doomslug
import UncNode.Chain.DoomslugTimer
import UncNode.Chain.DoomslugApprovals
import UncNode.Chain.DoomslugReadiness
import UncNode.Primitives.Merkle
import UncNode.Primitives.Merklize
import UncNode.Primitives.U64
import UncNode.Primitives.Rand
import UncNode.Chain.BlockProof
import UncNode.Chain.TransactionPool
import UncNode.Runtime.Actions
import UncNode.Runtime.Fees
import UncNode.Runtime.GasCounter
import UncNode.Runtime.ReceiptManager
import UncNode.Lib.RecordSum
import UncNode.Runtime.StorageUsage
import UncNode.Runtime.ReplayProtection
import UncNode.Store.FlatStorage
import UncNode.Lib.LittleEndian
import UncNode.Store.Refcount
import UncNode.Lib.CommonPrefix
import UncNode.Trie.Node
import UncNode.Trie.NibbleSlice
import UncNode.Trie.MemTrieUpdate
import UncNode.Trie.InsertDelete
import UncNode.Trie.StateRoot
import UncNode.Trie.Iterator
import UncNode.Lib.LinkedChain
import UncNode.Trie.Arena
import UncNode.Lib.BinaryHeap
import UncNode.Epoch.ShardAssignment
import UncNode.Epoch.ValidatorSelection
import UncNode.Epoch.Proposals
import UncNode.Epoch.Kickout
import UncNode.Epoch.Reward
import UncNode.Lib.PartialMap
import UncNode.Epoch.Aggregator
import UncNode.Lib.SortedMap
import UncNode.Store.TrieUpdate
import UncNode.Epoch.Sampling
import UncNode.Runtime.BalanceChecker
import UncNode.Lib.Bitmap
import UncNode.Lib.Borsh
import UncNode.Trie.MemTrieNode
import UncNode.Lib.RcHeap
import UncNode.Trie.MemTrieRefcount
import UncNode.Trie.MemTrieLookup
import UncNode.Lib.Outcome
import UncNode.Trie.Construction
import UncNode.Trie.RightmostPath
import UncNode.Trie.ConstructionCorrect
