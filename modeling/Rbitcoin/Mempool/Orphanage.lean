import Rbitcoin.Mempool.Graph

/-! Transactions that wait for a parent. Rows are kept by txid, by wtxid and by missing parent, with
the weight that each peer has announced; the oldest leaves when there is no room. An orphan that is
lifted out for a new try leaves a note, so that a peer that disconnects meanwhile is not named when
it is parked again. The order in which a hash set is walked is an input. -/

namespace Rbitcoin.Mempool

open Ordered

abbrev Peer := Nat

/-- A parked transaction. -/
structure OrphanEntry where
  tx : Transaction
  wtxid : Wtxid
  weight : Nat
  /-- Parents that were neither live nor confirmed when it was parked. -/
  missing : Finset Txid
  announcers : Finset Peer
  arrivedMs : Nat
  deriving DecidableEq

structure OrphanSnapshot where
  tx : Transaction
  announcers : List Peer
  takenGen : Nat
  deriving DecidableEq

/-- What is known of an orphan that is out for another try. -/
structure TakenOrphan where
  announcers : Finset Peer
  /-- The last announcer disconnected while the orphan was out. -/
  drop : Bool
  gen : Nat
  deriving DecidableEq

/-- A peer leaves; the note says so when it was the last. -/
def TakenOrphan.withdraw (peer : Peer) (t : TakenOrphan) : TakenOrphan :=
  if peer ∈ t.announcers then
    { t with announcers := t.announcers.erase peer
             drop := t.drop || t.announcers.erase peer = ∅ }
  else t

/-- The parked transactions, the queue of their arrival and their weights by peer. -/
structure Orphanage where
  byTxid : Map Txid OrphanEntry
  byWtxid : Map Wtxid Txid
  byParent : Map Txid (Finset Txid)
  fifo : List Txid
  totalWeight : Nat
  peerWeight : Map Peer Nat
  maxWeight : Nat
  maxCount : Nat
  taken : Map Txid TakenOrphan
  nextTakenGen : Nat

namespace Orphanage

def reservedWeightPerPeer : Nat := 404000
def maxOrphanTxWeight : Nat := 404000
def expireMs : Nat := 20 * 60 * 1000

def withLimits (maxWeight maxCount : Nat) : Orphanage where
  byTxid := ∅
  byWtxid := ∅
  byParent := ∅
  fifo := []
  totalWeight := 0
  peerWeight := ∅
  maxWeight := max maxWeight maxOrphanTxWeight
  maxCount := max maxCount 1
  taken := ∅
  nextTakenGen := 0

def new : Orphanage := withLimits (reservedWeightPerPeer * 25) 3000

variable (o : Orphanage) (txid : Txid)

def contains : Bool := (o.byTxid.lookup txid).isSome
def containsWtxid (wtxid : Wtxid) : Bool := (o.byWtxid.lookup wtxid).isSome
def missingOf : Option (Finset Txid) := (o.byTxid.lookup txid).map (·.missing)

def announcersOf : List Peer :=
  ((o.byTxid.lookup txid).map fun e => ascending e.announcers).getD []

variable (peer : Peer)

def peerOrphanWeight : Nat := (o.peerWeight.lookup peer).getD 0

def addPeerWeight (weight : Nat) : Orphanage :=
  { o with peerWeight := o.peerWeight.insert peer (satAdd (o.peerOrphanWeight peer) weight) }

def subPeerWeight (weight : Nat) : Orphanage :=
  let next := o.peerOrphanWeight peer - weight
  { o with
    peerWeight := if next = 0 then o.peerWeight.erase peer else o.peerWeight.insert peer next }

def unaccount (e : OrphanEntry) : Orphanage :=
  (ascending e.announcers).foldl (fun o peer => o.subPeerWeight peer e.weight)
    { o with totalWeight := o.totalWeight - e.weight }

def addAnnouncer : Orphanage :=
  match o.byTxid.lookup txid with
  | none => o
  | some e =>
    if peer ∈ e.announcers then o
    else
      { o with
        byTxid := o.byTxid.insert txid { e with announcers := insert peer e.announcers } }
      |>.addPeerWeight peer e.weight

def addAnnouncerWtxid (wtxid : Wtxid) (peer : Peer) : Orphanage :=
  match o.byWtxid.lookup wtxid with
  | none => o
  | some txid => o.addAnnouncer txid peer

/-- The row of a parent loses a child, and goes when it was the last. -/
def unlistChild (txid parent : Txid) : Orphanage :=
  match o.byParent.lookup parent with
  | none => o
  | some set =>
    { o with
      byParent :=
        if set.erase txid = ∅ then o.byParent.erase parent
        else o.byParent.insert parent (set.erase txid) }

/-- The place in the queue is left and skipped later. -/
def removeTxid : Orphanage :=
  match o.byTxid.lookup txid with
  | none => o
  | some e =>
    let o := { o with byTxid := o.byTxid.erase txid, byWtxid := o.byWtxid.erase e.wtxid }
    (ascending e.missing).foldl (fun o parent => o.unlistChild txid parent) (o.unaccount e)

def expire (nowMs : Nat) : Orphanage :=
  let stale := (ascending o.byTxid.keys).filter fun txid =>
    (o.byTxid.lookup txid).any fun e => expireMs ≤ nowMs - e.arrivedMs
  stale.foldl removeTxid o

def announcersWithinReserve : Bool :=
  match o.byTxid.lookup txid with
  | none => false
  | some e =>
    (ascending e.announcers).any fun peer => o.peerOrphanWeight peer ≤ reservedWeightPerPeer

/-- The peer is taken off the oldest orphan that it announced. -/
def evictOneFromPeer : Orphanage × Bool :=
  match o.fifo.find? fun txid => (o.byTxid.lookup txid).any (peer ∈ ·.announcers) with
  | none => (o, false)
  | some txid =>
    match o.byTxid.lookup txid with
    | none => (o, false)
    | some e =>
      let left := e.announcers.erase peer
      let o := { o with byTxid := o.byTxid.insert txid { e with announcers := left } }
      let o := o.subPeerWeight peer e.weight
      let o := if left = ∅ then o.removeTxid txid else o
      ({ o with fifo := o.fifo.filter o.contains }, true)

/-- Walk the queue to the first orphan that may go; those passed over stay in front. -/
def evictFrom (honorReserve : Bool) : Orphanage → List Txid → List Txid → Orphanage × Bool
  | o, skipped, [] => ({ o with fifo := skipped }, false)
  | o, skipped, txid :: fifo =>
    if ¬o.contains txid then evictFrom honorReserve o skipped fifo
    else if honorReserve && o.announcersWithinReserve txid then
      evictFrom honorReserve o (skipped ++ [txid]) fifo
    else ({ o.removeTxid txid with fifo := skipped ++ fifo }, true)

def evictOldestFiltered (honorReserve : Bool) : Orphanage × Bool :=
  evictFrom honorReserve o [] o.fifo

/-- The reserve is a preference: when all are within it, the oldest goes. -/
def evictOldest : Orphanage × Bool :=
  match o.evictOldestFiltered true with
  | (o, true) => (o, true)
  | (o, false) => o.evictOldestFiltered false

/-- Each round takes the peer off one orphan. -/
def fitPeer (peer : Peer) (weight : Nat) : Nat → Orphanage → Orphanage × Bool
  | 0, o => (o, false)
  | rounds + 1, o =>
    if satAdd (o.peerOrphanWeight peer) weight ≤ reservedWeightPerPeer then (o, true)
    else
      match o.evictOneFromPeer peer with
      | (o, true) => fitPeer peer weight rounds o
      | (o, false) => (o, false)

def fitAll (weight : Nat) : Nat → Orphanage → Orphanage
  | 0, o => o
  | rounds + 1, o =>
    if o.byTxid.keys ≠ ∅ ∧
        (o.maxCount ≤ o.byTxid.keys.card ∨ o.maxWeight < satAdd o.totalWeight weight) then
      match o.evictOldest with
      | (o, true) => fitAll weight rounds o
      | (o, false) => o
    else o

variable (tx : Transaction) (missing : Finset Txid) (announcer : Option Peer)

def park (nowMs : Nat) : Orphanage :=
  let o :=
    { o with
      byParent := (ascending missing).foldl (fun rows parent =>
        rows.insert parent (insert tx.txid ((rows.lookup parent).getD ∅))) o.byParent
      byWtxid := o.byWtxid.insert tx.wtxid tx.txid
      byTxid := o.byTxid.insert tx.txid
        { tx, wtxid := tx.wtxid, weight := tx.weight, missing
          announcers := announcer.toFinset, arrivedMs := nowMs }
      fifo := o.fifo ++ [tx.txid]
      totalWeight := satAdd o.totalWeight tx.weight }
  match announcer with
  | some peer => o.addPeerWeight peer tx.weight
  | none => o

/-- A new orphan, once there is room for it. The flag says whether it was parked. -/
def insertRoomy (nowMs : Nat) : Orphanage × Bool :=
  if maxOrphanTxWeight < tx.weight then (o, false)
  else
    let (o, fits) :=
      match announcer with
      | some peer => fitPeer peer tx.weight (o.byTxid.keys.card + 1) o
      | none => (o, true)
    if ¬fits then (o, false)
    else
      let o := fitAll tx.weight (o.byTxid.keys.card + 1) o
      if o.maxCount ≤ o.byTxid.keys.card then (o, false)
      else if o.maxWeight - o.totalWeight < tx.weight then (o, false)
      else (o.park tx missing announcer nowMs, true)

def insertFromAt (nowMs : Nat) : Orphanage × Bool :=
  if missing = ∅ then (o, false)
  else
    let o := o.expire nowMs
    match o.byTxid.lookup tx.txid with
    | some e =>
      if e.wtxid = tx.wtxid then
        (match announcer with
          | some peer => o.addAnnouncer tx.txid peer
          | none => o, false)
      else (o.removeTxid tx.txid).insertRoomy tx missing announcer nowMs
    | none => o.insertRoomy tx missing announcer nowMs

/-- Zero is never given. -/
def allocTakenGen : Orphanage :=
  let next := (o.nextTakenGen + 1) % 2 ^ 64
  { o with nextTakenGen := if next = 0 then 1 else next }

/-- An orphan is out of the pool. -/
def noteTaken (announcers : Finset Peer) : Orphanage × Nat :=
  let o := o.allocTakenGen
  ({ o with taken := o.taken.insert txid ⟨announcers, false, o.nextTakenGen⟩ }, o.nextTakenGen)

def takeTxid : Orphanage × Option Transaction :=
  (o.removeTxid txid, (o.byTxid.lookup txid).map (·.tx))

/-- Lift out one child of a parent whose row is gone already. -/
def takeChild (parent cid : Txid) : Orphanage × Option OrphanSnapshot :=
  match o.byTxid.lookup cid with
  | none => (o, none)
  | some e =>
    let o := { o with byTxid := o.byTxid.erase cid, byWtxid := o.byWtxid.erase e.wtxid }
    let o := ((ascending e.missing).filter (· ≠ parent)).foldl
      (fun o p => o.unlistChild cid p) (o.unaccount e)
    let (o, gen) := o.noteTaken cid e.announcers
    (o, some ⟨e.tx, ascending e.announcers, gen⟩)

def takeChildren (parent : Txid) : Orphanage → List Txid → Orphanage × List OrphanSnapshot
  | o, [] => (o, [])
  | o, cid :: rest =>
    let (o, child) := o.takeChild parent cid
    let (o, children) := takeChildren parent o rest
    (o, child.toList ++ children)

/-- All orphans that miss a parent, in the order in which the set is walked. -/
def takeChildrenOf (order : Finset Txid → List Txid) (parent : Txid) :
    Orphanage × List OrphanSnapshot :=
  match o.byParent.lookup parent with
  | none => (o, [])
  | some children =>
    takeChildren parent { o with byParent := o.byParent.erase parent } (order children)

inductive TakenClaim
  | keep (announcers : List Peer)
  | drop

def claimTaken : Orphanage × Option TakenClaim :=
  match o.taken.lookup txid with
  | none => (o, none)
  | some t =>
    ({ o with taken := o.taken.erase txid },
      some (if t.drop then .drop else .keep (ascending t.announcers)))

/-- The note goes unless a later lift has made a new one. -/
def forgetTakenGen (gen : Nat) : Orphanage :=
  if gen ≠ 0 ∧ (o.taken.lookup txid).any (·.gen = gen) then
    { o with taken := o.taken.erase txid }
  else o

/-- A peer no longer announces an orphan. -/
def withdraw (txid : Txid) : Orphanage :=
  match o.byTxid.lookup txid with
  | none => o
  | some e =>
    { o with byTxid := o.byTxid.insert txid { e with announcers := e.announcers.erase peer } }
    |>.subPeerWeight peer e.weight

/-- The peer leaves all orphans, those that are out too; what nobody announces any more goes. -/
def eraseForPeer : Orphanage :=
  let hit := (ascending o.byTxid.keys).filter fun txid =>
    (o.byTxid.lookup txid).any (peer ∈ ·.announcers)
  let last := hit.filter fun txid => (o.byTxid.lookup txid).any (·.announcers.card = 1)
  let o := last.foldl removeTxid (hit.foldl (withdraw · peer) o)
  { o with
    fifo := o.fifo.filter o.contains
    taken := o.taken.modifyAll (ascending o.taken.keys) (TakenOrphan.withdraw peer) }

/-- Orphans that a block confirms go; their children stay. -/
def eraseForBlock (blockTxids : List Txid) : Orphanage :=
  let confirmed := (ascending o.byTxid.keys).filter (· ∈ blockTxids)
  let o := confirmed.foldl removeTxid o
  { o with fifo := o.fifo.filter o.contains }

/-! ### What the pool does to the orphanage

The flag says whether the transaction is live in the graph. -/

def parkOrphanFrom (live : Bool) (tx : Transaction) (missing : Finset Txid)
    (announcer : Option Peer) (nowMs : Nat) : Orphanage :=
  if live then o
  else if o.contains tx.txid && o.containsWtxid tx.wtxid then
    match announcer with
    | some peer => o.addAnnouncer tx.txid peer
    | none => o
  else (o.insertFromAt tx missing announcer nowMs).1

def addAnnouncers (peers : List Peer) : Orphanage :=
  peers.foldl (fun o peer => o.addAnnouncer txid peer) o

/-- A lifted orphan is parked again, under the peers of its note if it has one. -/
def parkAnnounced (live : Bool) (tx : Transaction) (missing : Finset Txid) (announcers : List Peer)
    (nowMs : Nat) : Orphanage :=
  match o.claimTaken tx.txid with
  | (o, some .drop) => o
  | (o, some (.keep peers)) =>
    (o.parkOrphanFrom live tx missing peers.head? nowMs).addAnnouncers tx.txid peers.tail
  | (o, none) =>
    (o.parkOrphanFrom live tx missing announcers.head? nowMs).addAnnouncers tx.txid announcers.tail

def liftParkedMember : Orphanage × Option OrphanSnapshot :=
  match o.byTxid.lookup txid with
  | none => (o, none)
  | some e =>
    let (o, gen) := (o.removeTxid txid).noteTaken txid e.announcers
    (o, some ⟨e.tx, ascending e.announcers, gen⟩)

end Orphanage

end Rbitcoin.Mempool
