import Rbitcoin.Lib.Bytes
import Rbitcoin.Lib.Map
import Rbitcoin.Lib.Reach
import Rbitcoin.Mempool.Linearize
import Mathlib.Data.Prod.Lex

/-! The graph of live transactions: an entry for each, the spends between them in both directions,
and the indexes that follow each insert and remove. Hash maps are finite maps; ordered sets are
walked in their order. -/

namespace Rbitcoin.Mempool

open Ordered

/-- A transaction hash, as the number in whose order the ordered sets keep it. -/
abbrev Txid := Nat
abbrev Wtxid := Nat

structure OutPoint where
  txid : Txid
  vout : Nat
  deriving DecidableEq, Repr

structure TxOut where
  value : Nat
  scriptPubkey : Bytes
  deriving DecidableEq, Repr

/-- A transaction as the mempool reads it: its ids and weight are what the bitcoin crate computes
from its bytes. -/
structure Transaction where
  txid : Txid
  wtxid : Wtxid
  version : Int
  input : List OutPoint
  output : List TxOut
  weight : Nat
  deriving DecidableEq, Repr

/-- The outpoints of the outputs. The index is cast to 32 bits. -/
def Transaction.outpoints (tx : Transaction) (txid : Txid) : List OutPoint :=
  (List.range tx.output.length).map fun vout => ⟨txid, vout % 2 ^ 32⟩

theorem satAdd_eq (a b : Nat) : satAdd a b = min (a + b) u64Max := rfl

theorem foldl_satAdd {α : Type} (f : α → Nat) (l : List α) {cum : Nat} (small : cum ≤ u64Max) :
    l.foldl (fun cum a => satAdd cum (f a)) cum = min (cum + (l.map f).sum) u64Max := by
  induction l generalizing cum with
  | nil => exact (min_eq_left small).symm
  | cons a l ih =>
    have next : satAdd cum (f a) ≤ u64Max := min_le_right _ _
    rw [List.foldl_cons, ih next, List.map_cons, List.sum_cons, satAdd_eq]
    omega

def satMul (a b : Nat) : Nat := min (a * b) u64Max

def clampI64 (x : Int) : Int := max (-2 ^ 63) (min x (2 ^ 63 - 1))

/-- The cast of a `u64` to `i64`, which wraps. -/
def asI64 (x : Nat) : Int := if x < 2 ^ 63 then x else x - 2 ^ 64

def maxBlockSigopsCost : Nat := 80000

def sigopsAdjustedWeight (weight sigopCost bytesPerSigop : Nat) : Nat :=
  max weight (satMul sigopCost bytesPerSigop)

def vbytesCeil (weight : Nat) : Nat :=
  if u64Max - 4 < weight then u64Max / 4 else (weight + 3) / 4

def feeRateSatPerKvb (feeSat weight : Nat) : Nat :=
  let vsize := vbytesCeil weight
  if vsize = 0 then 0 else satMul feeSat 1000 / vsize

/-- A live transaction and its neighbours. -/
structure TxEntry where
  txid : Txid
  wtxid : Wtxid
  feeSat : Nat
  weight : Nat
  sigopCost : Nat
  slot : Nat
  parents : Finset Txid
  children : Finset Txid
  deriving DecidableEq

def TxEntry.adjustedWeight (e : TxEntry) (bytesPerSigop : Nat) : Nat :=
  sigopsAdjustedWeight e.weight e.sigopCost bytesPerSigop

/-- Transactions that are mined together, with their fee and weight. -/
structure Chunk where
  txids : List Txid
  feeSat : Nat
  weight : Nat
  deriving DecidableEq, Repr

def Chunk.feeRateSatPerKvb (c : Chunk) : Nat := Mempool.feeRateSatPerKvb c.feeSat c.weight

/-- The weight of the chunks with a rate above the given one. -/
def weightAbove (chunks : List Chunk) (rateSatPerKvb : Nat) : Nat :=
  ((chunks.filter fun c => rateSatPerKvb < c.feeRateSatPerKvb).map Chunk.weight).sum

/-- The 64-bit sum wraps around. -/
def weightAboveFromChunks (chunks : List Chunk) (rateSatPerKvb : Nat) : Nat :=
  weightAbove chunks rateSatPerKvb % 2 ^ 64

/-- The rates of chunks in descending order and the weights of their prefixes. -/
structure StockAbove where
  rates : List Nat
  prefixes : List Nat

namespace StockAbove

open List

def fromBestFirst (chunks : List Chunk) : StockAbove where
  rates := chunks.map Chunk.feeRateSatPerKvb
  prefixes := chunks.scanl (fun cum ch => satAdd cum ch.weight) 0

/-- The weight in front of the partition point, if that is an index. -/
def above (s : StockAbove) (rateSatPerKvb : Nat) : Option Nat :=
  s.prefixes[(s.rates.takeWhile (rateSatPerKvb < ·)).length]?

variable {chunks : List Chunk} {rate : Nat}

theorem takeWhile_rate (best : chunks.Pairwise fun a b => b.feeRateSatPerKvb ≤ a.feeRateSatPerKvb) :
    (chunks.takeWhile fun c => rate < c.feeRateSatPerKvb) =
      chunks.filter fun c => rate < c.feeRateSatPerKvb := by
  induction chunks with
  | nil => rfl
  | cons ch chunks ih =>
    obtain ⟨first, rest⟩ := pairwise_cons.mp best
    by_cases higher : rate < ch.feeRateSatPerKvb
    · simp [higher, ih rest]
    · have none : ∀ c ∈ chunks, c.feeRateSatPerKvb ≤ rate := fun c mem =>
        (first c mem).trans (not_lt.mp higher)
      simpa [takeWhile_cons, filter_cons, higher] using none

/-- **Weight above a rate.** The suffix sums of chunks in descending order give the weight of those
above the rate, saturated, which is the direct sum while that fits. -/
theorem above_fromBestFirst
    (best : chunks.Pairwise fun a b => b.feeRateSatPerKvb ≤ a.feeRateSatPerKvb) :
    (fromBestFirst chunks).above rate = some (min (weightAbove chunks rate) u64Max) ∧
      (weightAbove chunks rate ≤ u64Max →
        (fromBestFirst chunks).above rate = some (weightAboveFromChunks chunks rate)) := by
  have sum : (fromBestFirst chunks).above rate =
      some (min (weightAbove chunks rate) u64Max) := by
    have inside := (takeWhile_sublist (l := chunks) fun c => rate < c.feeRateSatPerKvb).length_le
    have taken := prefix_iff_eq_take.mp
      ( takeWhile_prefix (l := chunks) fun c => decide (rate < c.feeRateSatPerKvb))
    rw [above, fromBestFirst, takeWhile_map, Function.comp_def, length_map, getElem?_scanl,
      if_pos inside, ← taken, foldl_satAdd _ _ (Nat.zero_le _), Nat.zero_add, takeWhile_rate best,
      weightAbove]
  refine ⟨sum, fun fits => ?_⟩
  have small : weightAbove chunks rate < 2 ^ 64 := Nat.lt_of_le_pred (by decide) fits
  rw [sum, weightAboveFromChunks, min_eq_left fits, Nat.mod_eq_of_lt small]

theorem above_fromBestFirst_ties :
    (fromBestFirst [⟨[1], 2, 4⟩, ⟨[2], 1, 4⟩, ⟨[3], 1, 4⟩]).above 1000 = some 4 :=
  (above_fromBestFirst (by decide)).2 (by decide)

/-- Chunks at the rate itself are left out. -/
theorem above_at_rate :
    (fromBestFirst [⟨[1], 1, 4⟩]).above 1000 ≠
      some ((([⟨[1], 1, 4⟩] : List Chunk).filter fun c => 1000 ≤ c.feeRateSatPerKvb).map
        Chunk.weight).sum := by
  decide

end StockAbove

/-- A connected component of live transactions, in mining order. -/
structure Cluster where
  members : Finset Txid
  totalWeight : Nat
  linearization : List Txid
  chunks : List Chunk

/-- The live transactions, the indexes over them and the limits. -/
structure TxGraph where
  entries : Map Txid TxEntry
  byWtxid : Map Wtxid Txid
  /-- Outpoints of live transactions that live transactions spend. -/
  spends : Map OutPoint Txid
  /-- All outpoints that live transactions spend. -/
  conflicts : Map OutPoint Txid
  created : Finset OutPoint
  totalWeight : Nat
  chunkCache : Option (List Chunk)
  /-- The chunk of the least rate of each cluster. -/
  worstChunks : Map (Nat ×ₗ Txid) Chunk
  worstRepRate : Map Txid Nat
  clusterCountLimit : Nat
  clusterVsizeLimit : Nat
  bytesPerSigop : Nat
  blockReservedSigops : Nat

namespace TxGraph

def new : TxGraph where
  entries := ∅
  byWtxid := ∅
  spends := ∅
  conflicts := ∅
  created := ∅
  totalWeight := 0
  chunkCache := none
  worstChunks := ∅
  worstRepRate := ∅
  clusterCountLimit := 64
  clusterVsizeLimit := 101000
  bytesPerSigop := 20
  blockReservedSigops := 400

variable (g : TxGraph) (txid : Txid)

def get : Option TxEntry := g.entries.lookup txid
def contains : Bool := (g.get txid).isSome
def live : Finset Txid := g.entries.keys

def invalidateChunkCache : TxGraph := { g with chunkCache := none }

variable (op : OutPoint)

def mempoolUtxo : Bool := op ∈ g.created && (g.spends.lookup op).isNone

/-- The transaction that created an outpoint: one of the created outpoints, or any of a live
transaction. -/
def creator : Option Txid :=
  if op ∈ g.created ∨ g.contains op.txid then some op.txid else none

def conflictTxid : Option Txid := g.conflicts.lookup op

def weightOf (t : Txid) : Nat := ((g.get t).map (·.weight)).getD 0
def parentsOf (t : Txid) : List Txid := ((g.get t).map fun e => ascending e.parents).getD []
def childrenOf (t : Txid) : List Txid := ((g.get t).map fun e => ascending e.children).getD []
def neighbours (t : Txid) : List Txid := g.parentsOf t ++ g.childrenOf t

/-- Everything that a walk over the graph can meet. -/
def nodes : Finset Txid := g.live ∪ g.live.biUnion fun t => (g.neighbours t).toFinset

def conflictSet (direct : List Txid) : Finset Txid :=
  let seeds := (direct.filter g.contains).dedup
  (Reach.walk g.childrenOf g.nodes.card seeds seeds.toFinset).2

/-- The least id of the component of `start`, which is marked as seen. -/
def componentRep (start : Txid) (seen : Finset Txid) : Option (Txid × Finset Txid) :=
  if g.contains start then
    let (taken, seen) := Reach.walk g.neighbours g.nodes.card [start] (insert start seen)
    some (taken.foldl min start, seen)
  else none

/-- Count and weight of what the seeds are connected to without the `except`ed transactions. The
sum wraps. -/
def connectedWeightExcept (seeds except : Finset Txid) : Nat × Nat :=
  let start := (ascending seeds).filter fun t => t ∉ except ∧ g.contains t
  let next := fun t => (g.neighbours t).filter (· ∉ except)
  let seen := (Reach.walk next g.nodes.card start start.toFinset).2
  (seen.card,
    ((ascending seen).filterMap fun t => (g.get t).map (·.weight)).sum % 2 ^ 64)

def rawWeightOf (set : Finset Txid) : Nat :=
  ((ascending set).filterMap g.get).foldl (fun w e => satAdd w e.weight) 0

/-- The component of a live transaction. A neighbour that is not live ends the walk. -/
def componentMembers : Option (Finset Txid × Nat) :=
  if g.contains txid then
    let (taken, members) := Reach.walk g.neighbours g.nodes.card [txid] {txid}
    if taken.all g.contains then some (members, g.rawWeightOf members) else none
  else none

def clusterRep : Option Txid :=
  (g.componentMembers txid).bind fun c => (ascending c.1).head?

def adjustedWeightOf : Nat :=
  ((g.get txid).map fun e => e.adjustedWeight g.bytesPerSigop).getD 0

def setFeeWeight (set : Finset Txid) : Nat × Nat :=
  ((ascending set).filterMap g.get).foldl
    (fun (fee, w) e => (satAdd fee e.feeSat, satAdd w (e.adjustedWeight g.bytesPerSigop))) (0, 0)

variable (delta : Txid → Int)

def modifiedFee (t : Txid) : Int :=
  clampI64 (((g.get t).map fun e => asI64 e.feeSat).getD 0 + delta t)

def feeFracOf (t : Txid) : FeeFrac := ⟨g.modifiedFee delta t, g.adjustedWeightOf t⟩

def depGraph (members : List Txid) : DepGraph :=
  DepGraph.new (members.map (g.feeFracOf delta)) (members.map fun t =>
    (g.parentsOf t).filterMap fun p => if p ∈ members then some (members.idxOf p) else none)

def linearizeDelta (members : Finset Txid) : List Txid :=
  let ids := ascending members
  (g.depGraph delta ids).linearize.map fun i => ids.getD i 0

def chunkifyDelta (lin : List Txid) : List Chunk :=
  let lin := lin.filter g.contains
  (DepGraph.cut (DepGraph.chunkLengths (lin.map (g.feeFracOf delta))) lin).map fun txids =>
    let (fee, weight) := txids.foldl (fun (fee, w) t =>
      (clampI128 (fee + g.modifiedFee delta t), satAdd w (g.adjustedWeightOf t))) ((0 : Int), 0)
    { txids, feeSat := min fee.toNat u64Max, weight }

def clusterFromMembers (members : Finset Txid) (totalWeight : Nat) (delta : Txid → Int) : Cluster :=
  let linearization := g.linearizeDelta delta members
  { members, totalWeight, linearization, chunks := g.chunkifyDelta delta linearization }

def clusterOf : Option Cluster :=
  (g.componentMembers txid).map fun (members, weight) =>
    g.clusterFromMembers members weight fun _ => 0

def dropClusterIndex (rep : Txid) : TxGraph :=
  match g.worstRepRate.lookup rep with
  | none => g
  | some rate =>
    { g with
      worstRepRate := g.worstRepRate.erase rep
      worstChunks := g.worstChunks.erase (toLex (rate, rep)) }

def leastRate (chunks : List Chunk) : Option (Nat × Chunk) :=
  chunks.foldl (fun best ch =>
    let rate := ch.feeRateSatPerKvb
    match best with
    | none => some (rate, ch)
    | some (least, _) => if rate < least then some (rate, ch) else best) none

def putRow (rep : Txid) (rate : Nat) (ch : Chunk) : TxGraph :=
  { g with
    worstRepRate := g.worstRepRate.insert rep rate
    worstChunks := g.worstChunks.insert (toLex (rate, rep)) ch }

def indexClusterOf : TxGraph :=
  match g.clusterOf txid with
  | none => g
  | some c =>
    match (ascending c.members).head? with
    | none => g
    | some rep =>
      let g := g.dropClusterIndex rep
      match leastRate c.chunks with
      | none => g
      | some (rate, ch) => g.putRow rep rate ch

def worstChunk : Option (Txid × Chunk) :=
  (ascending g.worstChunks.keys).head?.bind fun key =>
    (g.worstChunks.lookup key).map fun ch => ((ofLex key).2, ch)

/-- The cost that a recomputation gives, with the cluster ranked again. -/
def setSigopCost (cost : Nat) : TxGraph :=
  match g.get txid with
  | none => g
  | some e =>
    { g with
      entries := g.entries.insert txid { e with sigopCost := cost }
      chunkCache := none }.indexClusterOf txid

/-- Every cluster is ranked again. `keys` is the order in which the hash map gives the entries. -/
def setBytesPerSigop (keys : List Txid) (bytesPerSigop : Nat) : TxGraph :=
  keys.foldl indexClusterOf
    { g with bytesPerSigop, chunkCache := none, worstChunks := ∅, worstRepRate := ∅ }

/-- The representatives of the components of some transactions. -/
def repsOf (ids : List Txid) (st : Finset Txid × Finset Txid) : Finset Txid × Finset Txid :=
  ids.foldl (fun (seen, reps) t =>
    if t ∈ seen then (seen, reps)
    else
      match g.componentRep t seen with
      | none => (seen, reps)
      | some (rep, seen) => (seen, insert rep reps)) st

variable (tx : Transaction)

/-- The components that a transaction joins lose their rows. -/
def dropJoined : TxGraph :=
  let st := g.repsOf ((tx.input.filter (· ∈ g.created)).map (·.txid)) (∅, ∅)
  let (_, reps) := g.repsOf ((tx.outpoints txid).filterMap g.conflicts.lookup) st
  (ascending reps).foldl dropClusterIndex g

def spentParents : Finset Txid :=
  ((tx.input.filter (· ∈ g.created)).map (·.txid)).toFinset

def linkParents (parents : Finset Txid) : TxGraph :=
  { g with entries := g.entries.modifyAll (ascending parents) fun e =>
      { e with children := insert txid e.children } }

def noteSpends : TxGraph :=
  { g with
    conflicts := g.conflicts.insertAll tx.input txid
    spends := g.spends.insertAll (tx.input.filter (· ∈ g.created)) txid }

def noteEntry (e : TxEntry) (tx : Transaction) : TxGraph :=
  { g with
    created := g.created ∪ (tx.outpoints e.txid).toFinset
    totalWeight := satAdd g.totalWeight e.weight
    byWtxid := g.byWtxid.insert e.wtxid e.txid
    entries := g.entries.insert e.txid e }

/-- A child accepted while its parent was confirmed. -/
def linkChild : TxGraph :=
  match g.conflicts.lookup op with
  | none => g
  | some child =>
    if child = txid then g
    else
      { g with
        entries :=
          (g.entries.modify child fun e => { e with parents := insert txid e.parents }).modify txid
            fun e => { e with children := insert child e.children }
        spends := g.spends.insert op child }

def insert (entry : TxEntry) (tx : Transaction) : TxGraph :=
  let txid := entry.txid
  let g := g.invalidateChunkCache.dropJoined txid tx
  let parents := g.spentParents tx
  let g := ((g.linkParents txid parents).noteSpends txid tx).noteEntry { entry with parents } tx
  ((tx.outpoints txid).foldl (fun g op => g.linkChild txid op) g).indexClusterOf txid

def dropEntry (e : TxEntry) : TxGraph :=
  { g with
    entries :=
      (Map.modifyAll (g.entries.erase txid) (ascending e.parents) fun p =>
        { p with children := p.children.erase txid }).modifyAll (ascending e.children) fun c =>
          { c with parents := c.parents.erase txid }
    totalWeight := g.totalWeight - e.weight
    byWtxid :=
      if g.byWtxid.lookup e.wtxid = some txid then g.byWtxid.erase e.wtxid else g.byWtxid }

def dropSpends : TxGraph :=
  { g with
    spends := g.spends.eraseAll tx.input txid
    conflicts := g.conflicts.eraseAll tx.input txid
    created := g.created \ (tx.outpoints txid).toFinset }

/-- The cluster of a transaction loses its row. -/
def dropClusterOf : TxGraph :=
  match g.clusterRep txid with
  | none => g
  | some rep => g.dropClusterIndex rep

/-- The clusters that a removed transaction leaves behind are ranked again. -/
def reindex (n : Txid) : TxGraph :=
  if g.contains n then (g.dropClusterOf n).indexClusterOf n else g

def remove : TxGraph × Option TxEntry :=
  let g := g.invalidateChunkCache
  let neighbours := g.neighbours txid
  let g := g.dropClusterOf txid
  match g.entries.lookup txid with
  | none => (g, none)
  | some e =>
    (neighbours.foldl reindex ((g.dropEntry txid e).dropSpends txid tx), some e)

end TxGraph

end Rbitcoin.Mempool
