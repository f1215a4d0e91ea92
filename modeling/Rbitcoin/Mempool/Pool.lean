import Rbitcoin.Mempool.GraphIndexes
import Rbitcoin.Mempool.Orphanage

/-! The pool of live transactions over its slot table, and the commit of a prepared transaction:
the plan that reads the graph, the conflicts it removes, a slot, the insert and the trim. A failed
call keeps what it has changed, so every function gives the state beside its result. The outcomes of
writes to the slot file are inputs, taken in order from `Store.io`. Syncs change no state here and
their results are dropped by every caller. -/

namespace Rbitcoin.Mempool

open Ordered

inductive MempoolError
  | io
  | corrupt (reason : String)
  | full
  deriving DecidableEq, Repr

/-- Why a transaction is not accepted. -/
inductive AcceptError
  | policy (reason : String)
  | checkTransaction (reason : String)
  | missingPrevout (op : OutPoint)
  | orphaned (txid : Txid) (missing : Finset Txid) (fresh : Bool)
  | duplicate (txid : Txid)
  | clusterTooLarge (count weight : Nat)
  | packageTooLarge (count weight : Nat)
  | packageEmpty
  | packageNotTopo
  | rbfInsufficient
  | rbfInsufficientSibling
  | coinbase
  | inputsDuplicate
  | immatureCoinbase
  | notFinal
  | nonBip68Final
  | notFound (txid : Txid)
  | durable (reason : String)
  | script (reason : String)
  | tooManySigops (cost : Nat)
  deriving DecidableEq

def AcceptError.ofMempool : MempoolError → AcceptError
  | .full => .policy "mempool full"
  | .io => .durable "io"
  | .corrupt reason => .durable reason

inductive SlotStatus
  | free
  | live
  | dead
  deriving DecidableEq, Repr

/-- A row of the slot file. -/
structure Slot where
  status : SlotStatus
  txid : Txid
  acceptSecs : Nat
  /-- The record has reached the body file. -/
  persisted : Bool
  trustKept : Bool
  deriving DecidableEq, Repr

def Slot.empty : Slot := ⟨.free, 0, 0, false, false⟩

/-- The files behind the pool. -/
structure Store where
  slots : List Slot
  growPinned : Bool
  /-- The outcomes of the writes to come; a write past the end succeeds. -/
  io : List Bool
  deriving DecidableEq, Repr

namespace Store

def defaultSlotCap : Nat := 131072
def maxSlotCap : Nat := 1048576

variable (s : Store)

def write : Store × Bool :=
  match s.io with
  | [] => (s, true)
  | ok :: io => ({ s with io }, ok)

def findFreeSlot : Option Nat := s.slots.findIdx? (·.status ≠ .live)
def hasFreeSlot : Bool := s.findFreeSlot.isSome

/-- Twice the slots, which are kept when the write that publishes them fails. -/
def growSlots : Store × Except MempoolError Unit :=
  let cap := s.slots.length
  let newCap := min (max (cap * 2) (cap + min defaultSlotCap 16384)) maxSlotCap
  if s.growPinned ∨ maxSlotCap ≤ cap ∨ newCap ≤ cap then (s, .error .full)
  else
    let grown := { s with slots := s.slots ++ List.replicate (newCap - cap) Slot.empty }
    let (s, ok) := grown.write
    if ok then
      ({ s with slots := s.slots.map fun slot => { slot with persisted := true } }, .ok ())
    else (s, .error .io)

def allocSlot : Store × Except MempoolError Nat :=
  match s.findFreeSlot with
  | some slot => (s, .ok slot)
  | none =>
    match s.growSlots with
    | (s, .error e) => (s, .error e)
    | (s, .ok ()) =>
      match s.findFreeSlot with
      | some slot => (s, .ok slot)
      | none => (s, .error .full)

/-- A record that does not encode is refused before anything changes. -/
def appendLiveTx (packs : Bool) (txid : Txid) (acceptSecs : Nat) :
    Store × Except MempoolError Nat :=
  if packs then
    match s.allocSlot with
    | (s, .error e) => (s, .error e)
    | (s, .ok slot) =>
      ({ s with slots := s.slots.set slot ⟨.live, txid, acceptSecs, false, false⟩ }, .ok slot)
  else (s, .error (.corrupt "packed"))

/-- The slot is dead in memory even when its write fails. -/
def markSlotDead (slot : Nat) : Store × Except MempoolError Unit :=
  match s.slots[slot]? with
  | none => (s, .error (.corrupt "slot OOB"))
  | some row =>
    if row.status ≠ .live then (s, .ok ())
    else
      let s := { s with slots := s.slots.set slot { row with status := .dead } }
      if row.persisted then
        let (s, ok) := s.write
        (s, if ok then .ok () else .error .io)
      else (s, .ok ())

def liveAcceptSecs (slot : Nat) : Option Nat :=
  match s.slots[slot]? with
  | some row => if row.status = .live then some row.acceptSecs else none
  | none => none

def setSlotTrustKept (slot : Nat) (on : Bool) : Store :=
  { s with slots := s.slots.modify slot fun row => { row with trustKept := on } }

end Store

def maxStandardTxWeight : Nat := 400000
def trucVersion : Int := 3
def trucMaxVsize : Nat := 10000
def trucChildMaxVsize : Nat := 1000
def incrementalRelayFeeRate : Nat := 100
def rbfrRatioNum : Nat := 5
def rbfrRatioDen : Nat := 4
def rollingFeeHalflifeMs : Nat := 12 * 60 * 60 * 1000

def meetsMinRelayFeeAt (feeSat weight satKvb : Nat) : Bool :=
  if satKvb = 0 then true
  else
    let vsize := vbytesCeil weight
    if vsize = 0 then false else satMul vsize satKvb ≤ satMul feeSat 1000

def isUnspendable (script : Bytes) : Bool := script.head? = some 0x6a || 10000 < script.length

def isDust (out : TxOut) : Bool := out.value = 0 && !isUnspendable out.scriptPubkey

def dustVouts (tx : Transaction) : List Nat :=
  ((List.range tx.output.length).filter fun i => (tx.output[i]?).any isDust).map (· % 2 ^ 32)

def decayedRelayFloor (rolling minRelay elapsedMs : Nat) : Nat :=
  let rolling := max rolling minRelay
  if elapsedMs < rollingFeeHalflifeMs then rolling
  else
    let steps := elapsedMs / rollingFeeHalflifeMs
    let excess := rolling - minRelay
    satAdd minRelay (if 63 ≤ steps then 0 else excess / 2 ^ steps)

def relayFloor (minRelay rolling updatedMs nowMs : Nat) (nearFull : Bool) : Nat :=
  let bumped := if nearFull then satAdd minRelay incrementalRelayFeeRate else minRelay
  let rollingNow :=
    if nearFull then max rolling minRelay
    else decayedRelayFloor rolling minRelay (nowMs - updatedMs)
  max bumped rollingNow

/-- More fee than everything replaced, a higher rate, and the relay of the new size paid on top. -/
def rbfPaysForReplacement (newFee newWeight oldFee oldWeight : Nat) : Bool :=
  let newV := vbytesCeil newWeight
  let oldV := vbytesCeil oldWeight
  let inc := satAdd (satMul newV incrementalRelayFeeRate) 999 / 1000
  oldFee < newFee && newV ≠ 0 && oldV ≠ 0 && oldFee * newV < newFee * oldV && inc ≤ newFee - oldFee

/-- A rate at least 5/4 of that of the direct conflicts together. -/
def pureRbfrPays (newFee newWeight directFee directWeight : Nat) : Bool :=
  let newV := vbytesCeil newWeight
  let oldV := vbytesCeil directWeight
  newV ≠ 0 && oldV ≠ 0 &&
    directFee * rbfrRatioNum * newV % 2 ^ 128 ≤ newFee * rbfrRatioDen * oldV % 2 ^ 128

def rbfAllowsReplacement
    (newFee newWeight conflictFee conflictWeight directFee directWeight : Nat) : Bool :=
  rbfPaysForReplacement newFee newWeight conflictFee conflictWeight ||
    pureRbfrPays newFee newWeight directFee directWeight

inductive SiblingEviction
  | off
  | on
  | ifPaysFloor
  deriving DecidableEq, Repr

/-- A checked transaction, ready for the commit. -/
structure PreparedAdmit where
  txid : Txid
  wtxid : Wtxid
  feeSat : Nat
  feeDelta : Int
  weight : Nat
  sigopCost : Nat
  prevouts : List TxOut
  /-- For each input, whether a confirmed coin was resolved. -/
  chainCoins : List Bool
  keepAcceptSecs : Option Nat
  trustWarn : Option (List String)
  keepMark : Bool
  siblingEviction : SiblingEviction
  deriving DecidableEq, Repr

/-- An accepted transaction, what it replaced and what was evicted for it. -/
structure AcceptResult where
  txid : Txid
  feeSat : Nat
  weight : Nat
  slot : Nat
  acceptSecs : Nat
  replaced : List Txid
  replacedTxs : List Transaction
  replacedAcceptSecs : Map Txid Nat
  replacedTrust : List Txid
  evicted : List Txid

/-- The mempool: live set, files, orphans, fee floors and what a failed accept has to put back. -/
structure Pool where
  store : Store
  graph : TxGraph
  bodies : Bodies
  maxWeight : Nat
  orphanage : Orphanage
  minRelaySatKvb : Nat
  rollingMinSatKvb : Nat
  rollingUpdatedMs : Nat
  recentInvalid : Finset Txid
  lastEvicted : List Txid
  undoneReplacements : List Transaction
  undoneAcceptSecs : Map Txid Nat
  trustKept : Finset Txid

/-- The clocks of a call, and which records the store can encode. -/
structure Clock where
  nowMs : Nat
  nowSecs : Nat
  packs : Transaction → Bool

namespace Pool

variable (p : Pool) (clock : Clock)

def mempoolMinFeeSatKvb : Nat :=
  let nearFull := p.maxWeight < satAdd p.graph.totalWeight maxStandardTxWeight
  relayFloor p.minRelaySatKvb p.rollingMinSatKvb p.rollingUpdatedMs clock.nowMs nearFull

def noteEvictedFeerate (rate : Nat) : Pool :=
  let decayed :=
    decayedRelayFloor p.rollingMinSatKvb p.minRelaySatKvb (clock.nowMs - p.rollingUpdatedMs)
  { p with rollingMinSatKvb := max decayed (satAdd rate 1), rollingUpdatedMs := clock.nowMs }

/-- A live transaction leaves the graph after its slot is dead; a failed write keeps it there. -/
def unlinkTxid (txid : Txid) : Pool × Except AcceptError Unit :=
  match p.graph.get txid with
  | none => (p, .error (.notFound txid))
  | some entry =>
    match p.bodies.lookup txid with
    | none => (p, .error (.durable "body missing"))
    | some tx =>
      match p.store.markSlotDead entry.slot with
      | (store, .error e) => ({ p with store }, .error (.ofMempool e))
      | (store, .ok ()) =>
        ({ p with
            store
            graph := (p.graph.remove txid tx).1
            bodies := p.bodies.erase txid
            trustKept := p.trustKept.erase txid }, .ok ())

/-- Unlink in order. The result names those that left. -/
def unlinkAll : Pool → List Txid → Pool × List Txid
  | p, [] => (p, [])
  | p, t :: ts =>
    match p.unlinkTxid t with
    | (p, .ok ()) =>
      let (p, gone) := unlinkAll p ts
      (p, t :: gone)
    | (p, .error _) => unlinkAll p ts

/-- The live spenders of some outpoints and their descendants. -/
def unlinkConflicts (spent : List OutPoint) : Pool × List Txid :=
  let direct := spent.filterMap p.graph.conflictTxid
  if direct = [] then (p, []) else p.unlinkAll (ascending (p.graph.conflictSet direct))

def unlinkTree (txid : Txid) : Pool × List Txid :=
  let outs := ((p.bodies.lookup txid).map (·.output.length % 2 ^ 32)).getD 0
  let (p, gone) := p.unlinkConflicts ((List.range outs).map fun vout => ⟨txid, vout⟩)
  match p.unlinkTxid txid with
  | (p, .ok ()) => (p, gone ++ [txid])
  | (p, .error _) => (p, gone)

/-- When the eviction loop may stop. -/
inductive EvictUntil
  | freeSlot
  | weightBudget
  deriving DecidableEq

def evictDone (until' : EvictUntil) : Bool :=
  match until' with
  | .freeSlot => p.store.hasFreeSlot
  | .weightBudget => p.graph.totalWeight ≤ p.maxWeight

/-- The trees of a chunk, but not of the protected transaction itself. -/
def unlinkChunk (protect : Option Txid) : Pool → List Txid → Pool × List Txid
  | p, [] => (p, [])
  | p, t :: ts =>
    if protect = some t ∨ ¬p.graph.contains t then unlinkChunk protect p ts
    else
      let (p, gone) := p.unlinkTree t
      let (p, more) := unlinkChunk protect p ts
      (p, gone ++ more)

variable (protect : Option Txid)

/-- One pass over the worst chunk. Nothing leaves when it is the protected transaction alone. -/
def evictWorstChunkOnce : Pool × List Txid :=
  match p.graph.worstChunk with
  | none => (p, [])
  | some (_, chunk) =>
    if chunk.txids.length = 1 ∧ protect = chunk.txids.head? then (p, [])
    else unlinkChunk protect (p.noteEvictedFeerate clock chunk.feeRateSatPerKvb) chunk.txids

/-- Each round that goes on has unlinked a transaction. -/
def evictRounds (clock : Clock) (protect : Option Txid) (until' : EvictUntil) :
    Nat → Pool → Pool × List Txid
  | 0, p => (p, [])
  | rounds + 1, p =>
    if p.evictDone until' then (p, [])
    else
      match p.evictWorstChunkOnce clock protect with
      | (p, []) => (p, [])
      | (p, gone) =>
        let (p, more) := evictRounds clock protect until' rounds p
        (p, gone ++ more)

def evictWorstChunks (until' : EvictUntil) : Pool × List Txid :=
  evictRounds clock protect until' (p.graph.live.card + 1) p

def ensureFreeSlot : Pool × Except AcceptError (List Txid) :=
  if p.store.hasFreeSlot then (p, .ok [])
  else
    let (store, grown) := p.store.growSlots
    let p := { p with store }
    let evict := fun (_ : Unit) =>
      let (p, gone) := p.evictWorstChunks clock protect .freeSlot
      if p.store.hasFreeSlot then (p, Except.ok gone)
      else ({ p with lastEvicted := gone }, Except.error (AcceptError.policy "mempool full"))
    match grown with
    | .ok () => if p.store.hasFreeSlot then (p, .ok []) else evict ()
    | .error .full => evict ()
    | .error e => (p, .error (.ofMempool e))

structure ConflictScan where
  directConflicts : Finset Txid
  parentTxids : Finset Txid

/-- One input: its live spender is a conflict, its live creator a parent. -/
def noteConflictAndParent (txid : Txid) (op : OutPoint) (scan : ConflictScan) :
    Except AcceptError (ConflictScan × Option Txid) :=
  let scan :=
    match p.graph.conflictTxid op with
    | some c =>
      if c ≠ txid then { scan with directConflicts := insert c scan.directConflicts } else scan
    | none => scan
  match p.graph.creator op with
  | none => .ok (scan, none)
  | some creator =>
    if p.graph.mempoolUtxo op then
      .ok ({ scan with parentTxids := insert creator scan.parentTxids }, some creator)
    else
      match p.graph.conflictTxid op with
      | some c =>
        .ok (⟨insert c scan.directConflicts, insert creator scan.parentTxids⟩, some creator)
      | none =>
        match p.bodies.lookup creator with
        | none => .error (.durable "parent body missing")
        | some parent =>
          if parent.output.length ≤ op.vout then .error (.missingPrevout op)
          else .error (.policy "mempool double-spend")

def scanConflictsAndParents (txid : Txid) (chainCoins : List Bool) :
    Nat → List OutPoint → ConflictScan → Except AcceptError ConflictScan
  | _, [], scan => .ok scan
  | i, op :: ops, scan =>
    match p.noteConflictAndParent txid op scan with
    | .error e => .error e
    | .ok (scan, some creator) =>
      if (p.bodies.lookup creator).isSome then
        scanConflictsAndParents txid chainCoins (i + 1) ops scan
      else .error (.durable "parent body missing")
    | .ok (scan, none) =>
      if chainCoins.getD i false then scanConflictsAndParents txid chainCoins (i + 1) ops scan
      else .error (.missingPrevout op)

/-- The parents of a transaction of version 3 are, and no other has such a parent. -/
def sameVersions (isTruc : Bool) : List Txid → Except AcceptError Unit
  | [] => .ok ()
  | id :: ids =>
    match p.bodies.lookup id with
    | none => .error (.durable "parent body missing")
    | some body =>
      if decide (body.version = trucVersion) ≠ isTruc then .error (.policy "TRUC-violation")
      else sameVersions isTruc ids

variable (tx : Transaction)

/-- The sibling that a second child of a version 3 parent may evict. -/
def checkTruc (vsize : Nat) (scan : ConflictScan) : Except AcceptError (Option Txid) := do
  let violation := Except.error (AcceptError.policy "TRUC-violation")
  let isTruc := decide (tx.version = trucVersion)
  p.sameVersions isTruc (ascending scan.parentTxids)
  if !isTruc then return none
  if trucMaxVsize < vsize ∨ 1 < scan.parentTxids.card then violation
  else
    match (ascending scan.parentTxids).head? with
    | none => return none
    | some parent =>
      match p.graph.get parent with
      | none => .error (.durable "parent entry missing")
      | some entry =>
        if entry.parents ≠ ∅ ∨ trucChildMaxVsize < vsize then violation
        else if entry.children = ∅ ∨ ¬Disjoint entry.children scan.directConflicts then return none
        else
          match ascending entry.children with
          | [sibling] =>
            match p.graph.get sibling with
            | some e =>
              if e.children = ∅ ∧ e.parents.card = 1 then return some sibling else violation
            | none => violation
          | _ => violation

/-- A child spends every dust output of its parents. -/
def checkEphemeralSpends (tx : Transaction) : List Txid → Except AcceptError Unit
  | [] => .ok ()
  | id :: ids =>
    match p.bodies.lookup id with
    | none => .error (.durable "parent body missing")
    | some body =>
      if (dustVouts body).any fun vout => ⟨id, vout⟩ ∉ tx.input then
        .error (.policy "missing-ephemeral-spends")
      else checkEphemeralSpends tx ids

def parentsOfConflicts : List Txid → Finset Txid → Except AcceptError (Finset Txid)
  | [], parents => .ok parents
  | id :: ids, parents =>
    match p.bodies.lookup id with
    | none => .error (.durable "conflict body missing")
    | some body => parentsOfConflicts ids (parents ∪ (body.input.map (·.txid)).toFinset)

/-- A replacement spends no unconfirmed output that its conflicts did not. -/
def rejectNewUnconfirmed (direct : Finset Txid) : Except AcceptError Unit := do
  let parents ← p.parentsOfConflicts (ascending direct) ∅
  match tx.input.find? fun op => (p.bodies.lookup op.txid).isSome ∧ op.txid ∉ parents with
  | none => return ()
  | some op =>
    if op.txid ∈ direct then .error (.policy "bad-txns-spends-conflicting-tx")
    else .error (.policy "adds unconfirmed input")

def checkUnconfirmed (direct : Finset Txid) : Except AcceptError Unit :=
  if direct = ∅ then .ok () else p.rejectNewUnconfirmed tx direct

variable (prep : PreparedAdmit)

def admitFee : Nat :=
  (max 0 (clampI128 (prep.feeSat + prep.feeDelta))).toNat % 2 ^ 64

def admitWeight : Nat :=
  sigopsAdjustedWeight prep.weight prep.sigopCost p.graph.bytesPerSigop

def checkSibling (sibling : Option Txid) : Except AcceptError (Option Txid) :=
  match sibling with
  | none => .ok none
  | some s =>
    let may :=
      match prep.siblingEviction with
      | .off => false
      | .on => true
      | .ifPaysFloor =>
        meetsMinRelayFeeAt (admitFee prep) (p.admitWeight prep) (p.mempoolMinFeeSatKvb clock)
    if may then .ok (some s) else .error (.policy "TRUC-violation")

/-- The set that is replaced, when the new transaction pays for it. -/
def checkReplacement (direct : Finset Txid) (sibling : Option Txid) :
    Except AcceptError (Finset Txid) :=
  if direct = ∅ then .ok ∅
  else
    let set := p.graph.conflictSet (ascending direct)
    let (oldFee, oldWeight) := p.graph.setFeeWeight set
    let (directFee, directWeight) := p.graph.setFeeWeight direct
    let pays :=
      if sibling.isSome then
        rbfPaysForReplacement (admitFee prep) (p.admitWeight prep) oldFee oldWeight
      else
        rbfAllowsReplacement (admitFee prep) (p.admitWeight prep) oldFee oldWeight directFee
          directWeight
    if pays then .ok set
    else .error (if sibling.isSome then .rbfInsufficientSibling else .rbfInsufficient)

def checkCluster (parents conflictSet : Finset Txid) : Except AcceptError Unit :=
  let (members, baseWeight) := p.graph.connectedWeightExcept parents conflictSet
  let weight := satAdd baseWeight prep.weight
  if p.graph.clusterCountLimit < members + 1 ∨ p.graph.clusterVsizeLimit < satAdd weight 3 / 4 then
    .error (.clusterTooLarge (members + 1) weight)
  else .ok ()

variable (prep : PreparedAdmit)

/-- The set to remove, the fee and the adjusted weight. -/
def planAfterScript : Except AcceptError (Finset Txid × Nat × Nat) := do
  match p.graph.get prep.txid with
  | some live =>
    if live.wtxid = prep.wtxid then .error (.duplicate prep.txid)
    else .error (.policy "txn-same-nonwitness-data-in-mempool")
  | none =>
    match p.orphanage.missingOf prep.txid with
    | some missing => .error (.orphaned prep.txid missing false)
    | none =>
      let scan ← p.scanConflictsAndParents prep.txid prep.chainCoins 0 tx.input ⟨∅, ∅⟩
      let found ← p.checkTruc tx ((p.admitWeight prep + 3) / 4) scan
      let sibling ← p.checkSibling clock prep found
      p.checkEphemeralSpends tx (ascending scan.parentTxids)
      let direct := scan.directConflicts ∪ sibling.toFinset
      let conflictSet ← p.checkReplacement prep direct sibling
      p.checkCluster prep scan.parentTxids conflictSet
      p.checkUnconfirmed tx direct
      if ¬Disjoint scan.parentTxids conflictSet then
        .error (.policy "bad-txns-spends-conflicting-tx")
      else return (conflictSet, prep.feeSat, p.admitWeight prep)

def cleared : Pool := { p with undoneReplacements := [], undoneAcceptSecs := ∅ }

/-- The bodies and accept times of what a commit replaces, kept until it has finished. -/
def keepReplaced (conflictSet : Finset Txid) : Pool :=
  let ids := ascending conflictSet
  { p with
    undoneReplacements := ids.filterMap p.bodies.lookup
    undoneAcceptSecs := ids.foldl (fun secs c =>
      match (p.graph.get c).bind fun e => p.store.liveAcceptSecs e.slot with
      | some at' => secs.insert c at'
      | none => secs) ∅ }

/-- The new entry, once its record has a slot. -/
def insertLive (slot : Nat) : Pool :=
  { p with
    graph := p.graph.insert
      { txid := prep.txid, wtxid := prep.wtxid, feeSat := prep.feeSat, weight := prep.weight
        sigopCost := prep.sigopCost, slot, parents := ∅, children := ∅ } tx
    bodies := p.bodies.insert prep.txid tx }

/-- A commit that does not finish: what it evicted is reported, and the trust marks of what it
unlinked come back so that a restore admits it again. -/
def failCommit (kept evicted : List Txid) (e : AcceptError) :
    Pool × Except AcceptError AcceptResult :=
  ({ p with lastEvicted := evicted, trustKept := p.trustKept ∪ kept.toFinset }, .error e)

/-- The entry is in: the trim, which may take it out again, and the result. -/
def finishInsert (trim : Bool) (conflictSet : Finset Txid)
    (kept evicted : List Txid) (slot acceptSecs : Nat) : Pool × Except AcceptError AcceptResult :=
  let (p, more) :=
    if trim then p.evictWorstChunks clock (some prep.txid) .weightBudget else (p, [])
  if trim ∧ ¬p.graph.contains prep.txid then
    p.failCommit kept (evicted ++ more) (.policy "mempool full")
  else
    let p :=
      if prep.trustWarn.isSome ∨ prep.keepMark then
        { p with
          trustKept := insert prep.txid p.trustKept
          store := p.store.setSlotTrustKept slot true }
      else p
    ({ p with lastEvicted := [], undoneReplacements := [], undoneAcceptSecs := ∅ },
      .ok
        { txid := prep.txid, feeSat := prep.feeSat, weight := p.admitWeight prep, slot, acceptSecs
          replaced := ascending conflictSet
          replacedTxs := p.undoneReplacements
          replacedAcceptSecs := p.undoneAcceptSecs
          replacedTrust := kept
          evicted := evicted ++ more })

/-- What is replaced has left: a slot, the record and the entry. -/
def commitReplaced (trim : Bool)
    (conflictSet : Finset Txid) (kept : List Txid) : Pool × Except AcceptError AcceptResult :=
  match { p with lastEvicted := [] }.ensureFreeSlot clock (some prep.txid) with
  | (p, .error e) => p.failCommit kept p.lastEvicted e
  | (p, .ok evicted) =>
    let acceptSecs := prep.keepAcceptSecs.getD clock.nowSecs
    match p.store.appendLiveTx (clock.packs tx) prep.txid acceptSecs with
    | (store, .error e) => { p with store }.failCommit kept evicted (.ofMempool e)
    | (store, .ok slot) =>
      ({ p with store }.insertLive tx prep slot).finishInsert clock prep trim conflictSet kept
        evicted slot acceptSecs

def finishCommit (trim : Bool) : Pool × Except AcceptError AcceptResult :=
  match p.cleared.planAfterScript clock tx prep with
  | .error e => (p.cleared, .error e)
  | .ok (conflictSet, _) =>
    let kept := (ascending conflictSet).filter (· ∈ p.trustKept)
    let (p, _) := (p.cleared.keepReplaced conflictSet).unlinkAll (ascending conflictSet).reverse
    p.commitReplaced clock tx prep trim conflictSet kept

end Pool

end Rbitcoin.Mempool
