import Rbitcoin.Script.VerifyScript
import Rbitcoin.Script.Multisig
import Rbitcoin.Script.OpSuccess
import Rbitcoin.Mempool.Optimality
import Rbitcoin.Mempool.Replacement
import Rbitcoin.Mempool.Clusters
import Rbitcoin.Mempool.Budget
import Rbitcoin.Store.HeadRuns
import Rbitcoin.Mempool.OrphanPeers
import Rbitcoin.Mempool.OrphanRefusal
import Rbitcoin.Mempool.PackedCost
import Rbitcoin.Mempool.BlockTemplate
import Rbitcoin.Mempool.WorstChunks
import Rbitcoin.Mempool.SlotOwners
import Rbitcoin.Store.BdzBuild
import Rbitcoin.Store.BdzScatter
import Rbitcoin.Store.PackedParts
import Rbitcoin.Store.PackedInputs
import Rbitcoin.Store.LocatorStops
import Rbitcoin.Net.AsMapSafety
import Rbitcoin.Net.Compact
import Rbitcoin.Net.PeerRate
import Rbitcoin.Ibd.HeavierPath
import Rbitcoin.Tx.Merkle
import Rbitcoin.Store.ShAlloc
import Rbitcoin.Ibd.PruneAnchor
import Rbitcoin.Store.TxStat
