import Rbitcoin.Mempool.PoolRun

/-! Accepting transactions and packages: the checks before the scripts, the commit, the orphans that
a new parent wakes, and what is put back when a commit or a package fails. What the consensus code
says of a transaction (its shape, finality, sigops and scripts), what the chain says of a coin and
the order in which a hash set is walked are inputs. -/

namespace Rbitcoin.Mempool

open Ordered

/-- A confirmed output, with the height and median time of its block. -/
structure Coin where
  txout : TxOut
  isCoinbase : Bool
  createHeight : Nat
  createMtp : Nat
  deriving DecidableEq, Repr

inductive ChainPrevout
  | unspent (coin : Coin)
  | knownUnavailable
  | unknown
  deriving DecidableEq, Repr

/-- What the pool asks of the chain and of the consensus code. -/
structure Env where
  clock : Clock
  chainPrevout : OutPoint → ChainPrevout
  /-- The reject reasons of the consensus checks. -/
  checkTxShape : Transaction → Option String
  rejectNullPrevouts : Transaction → Option String
  checkLibreAnnex : Transaction → Option String
  /-- Maturity, finality and relative locks at the next block. -/
  checkMempoolStructural : Transaction → List (Option Coin) → Option AcceptError
  txSigopCost : Transaction → List TxOut → Nat
  verifyScripts : Transaction → List TxOut → Option String
  reasonIsWarnAndApply : String → Bool
  /-- The failure of a script is a fault of the transaction and not of its witness. -/
  scriptBlamesTx : Transaction → String → Bool
  order : Finset Txid → List Txid

def Transaction.isCoinbase (tx : Transaction) : Bool := tx.input = [⟨0, 2 ^ 32 - 1⟩]

def recentInvalidCap : Nat := 4096

namespace Env

variable (env : Env)

def checkLibreShape (tx : Transaction) (weight : Nat) : Option String :=
  if tx.isCoinbase then some "coinbase"
  else if tx.output.any fun o =>
      10000 < o.scriptPubkey.length && o.scriptPubkey.head? ≠ some 0x6a then some "scriptpubkey"
  else if 1 < (dustVouts tx).length then some "dust"
  else if maxStandardTxWeight < weight then some "tx weight"
  else env.checkLibreAnnex tx

def checkLibreAdmissionAt (tx : Transaction) (feeSat : Nat) (feeDelta : Int) (weight satKvb : Nat) :
    Option String :=
  match env.checkLibreShape tx weight with
  | some reason => some reason
  | none =>
    let modified := feeSat + feeDelta
    if (feeSat ≠ 0 ∨ modified ≠ 0) ∧ dustVouts tx ≠ [] then some "dust"
    else if meetsMinRelayFeeAt ((max 0 modified).toNat % 2 ^ 64) weight satKvb then none
    else some "min relay fee"

/-- The reason of a fault that a trusted peer's transaction may have. -/
def trustReason : AcceptError → Option String
  | .immatureCoinbase => some "coinbase immature"
  | .notFinal => some "not final"
  | .nonBip68Final => some "non-BIP68-final"
  | _ => none

def isTrustTxFault (e : AcceptError) : Bool := (trustReason e).any env.reasonIsWarnAndApply

end Env

namespace Pool

structure PrepareOpts where
  feeDelta : Int
  reportOrphans : Bool
  minRelay : Option Nat
  waive : Bool

/-- What the inputs of a transaction resolve to. -/
structure AdmitInputs where
  prevouts : List TxOut
  chainCoins : List (Option Coin)
  inputValue : Nat
  missingParents : Finset Txid

variable (env : Env) (p : Pool)

/-- One prevout, from a live parent or the chain. -/
def resolveInput (txid : Txid) (op : OutPoint) :
    Except AcceptError (Option (TxOut × Option Coin)) :=
  match p.noteConflictAndParent txid op ⟨∅, ∅⟩ with
  | .error e => .error e
  | .ok (_, some creator) =>
    match p.bodies.lookup creator with
    | none => .error (.durable "parent body missing")
    | some parent =>
      match parent.output[op.vout]? with
      | some out => .ok (some (out, none))
      | none => .error (.missingPrevout op)
  | .ok (_, none) =>
    match env.chainPrevout op with
    | .unspent coin => .ok (some (coin.txout, some coin))
    | .knownUnavailable => .error (.missingPrevout op)
    | .unknown => .ok none

def resolveInputs (txid : Txid) : List OutPoint → AdmitInputs → Except AcceptError AdmitInputs
  | [], acc => .ok acc
  | op :: ops, acc =>
    match p.resolveInput env txid op with
    | .error e => .error e
    | .ok none =>
      resolveInputs txid ops { acc with missingParents := insert op.txid acc.missingParents }
    | .ok (some (out, coin)) =>
      resolveInputs txid ops
        { acc with
          prevouts := acc.prevouts ++ [out]
          chainCoins := acc.chainCoins ++ [coin]
          inputValue := satAdd acc.inputValue out.value }

variable (tx : Transaction) (missing : Finset Txid) (reportOrphans : Bool)

def missingParentError : AcceptError :=
  match tx.input.find? fun op => op.txid ∈ missing ∧ op.txid ∈ p.recentInvalid with
  | some op => .missingPrevout op
  | none =>
    if reportOrphans then
      match env.checkLibreShape tx tx.weight with
      | some reason => .policy reason
      | none => .orphaned tx.txid missing true
    else .missingPrevout ((tx.input.find? (·.txid ∈ missing)).getD ⟨0, 0⟩)

def collectAdmitInputs : Except AcceptError AdmitInputs :=
  match p.resolveInputs env tx.txid tx.input ⟨[], [], 0, ∅⟩ with
  | .error e => .error e
  | .ok inputs =>
    if inputs.missingParents ≠ ∅ then
      .error (p.missingParentError env tx inputs.missingParents reportOrphans)
    else .ok inputs

def precheck : Except AcceptError Unit :=
  match env.checkTxShape tx with
  | some reason => .error (.checkTransaction reason)
  | none =>
    if ¬tx.input.Nodup then .error .inputsDuplicate
    else if tx.isCoinbase then .error .coinbase
    else
      match env.rejectNullPrevouts tx with
      | some reason => .error (.checkTransaction reason)
      | none =>
        match p.graph.get tx.txid with
        | some live =>
          if live.wtxid = tx.wtxid then .error (.duplicate tx.txid)
          else .error (.policy "txn-same-nonwitness-data-in-mempool")
        | none =>
          -- parked already: a new announcement of the same orphan
          match if reportOrphans then p.orphanage.missingOf tx.txid else none with
          | some missing => .error (.orphaned tx.txid missing false)
          | none => .ok ()

def checkStructural (coins : List (Option Coin)) (waive : Bool) :
    Except AcceptError (Option (List String)) :=
  match env.checkMempoolStructural tx coins with
  | none => .ok none
  | some e =>
    if waive && env.isTrustTxFault e then .ok (Env.trustReason e |>.map ([·])) else .error e

def blockFitSigopCost (prevouts : List TxOut) : Except AcceptError Nat :=
  let cost := env.txSigopCost tx prevouts
  if maxBlockSigopsCost < satAdd p.graph.blockReservedSigops cost then .error (.tooManySigops cost)
  else .ok cost

def checkedFeeSat (inputValue : Nat) : Except AcceptError Nat :=
  let outputValue := tx.output.foldl (fun sum o => satAdd sum o.value) 0
  if inputValue < outputValue then .error (.policy "negative fee")
  else .ok (inputValue - outputValue)

/-- Standardness on the raw weight, the fee floor on the adjusted one. -/
def checkFee (feeSat sigopCost : Nat) (opts : PrepareOpts) : Except AcceptError Unit :=
  match env.checkLibreAdmissionAt tx feeSat opts.feeDelta tx.weight 0 with
  | some reason => .error (.policy reason)
  | none =>
    let floor := p.mempoolMinFeeSatKvb env.clock
    let admitFee := (max 0 (clampI128 (feeSat + opts.feeDelta))).toNat % 2 ^ 64
    let adjusted := sigopsAdjustedWeight tx.weight sigopCost p.graph.bytesPerSigop
    if meetsMinRelayFeeAt admitFee adjusted (opts.minRelay.getD floor) then .ok ()
    else if p.minRelaySatKvb < floor then .error (.policy "mempool min fee")
    else .error (.policy "min relay fee")

def prepareAdmit (opts : PrepareOpts) : Except AcceptError PreparedAdmit := do
  p.precheck env tx opts.reportOrphans
  let inputs ← p.collectAdmitInputs env tx opts.reportOrphans
  let trustWarn ← checkStructural env tx inputs.chainCoins opts.waive
  let sigopCost ← p.blockFitSigopCost env tx inputs.prevouts
  let feeSat ← checkedFeeSat tx inputs.inputValue
  p.checkFee env tx feeSat sigopCost opts
  return {
    txid := tx.txid, wtxid := tx.wtxid, feeSat, feeDelta := opts.feeDelta, weight := tx.weight
    sigopCost, prevouts := inputs.prevouts, chainCoins := inputs.chainCoins.map (·.isSome)
    keepAcceptSecs := none, trustWarn, keepMark := false, siblingEviction := .off }

def verifyTxScripts (prevouts : List TxOut) : Except AcceptError Unit :=
  if prevouts.length ≠ tx.input.length then .error (.script "prevout count mismatch")
  else
    match env.verifyScripts tx prevouts with
    | none => .ok ()
    | some reason => .error (.script reason)

/-- The scripts pass, or their failure is one that a waived transaction may have. -/
def scriptWarn (prep : PreparedAdmit) (waive : Bool) : Except AcceptError PreparedAdmit :=
  match verifyTxScripts env tx prep.prevouts with
  | .ok () => .ok prep
  | .error e =>
    match e with
    | .script s =>
      if waive && env.reasonIsWarnAndApply ("script: " ++ s) then
        .ok { prep with trustWarn := some (prep.trustWarn.getD [] ++ ["script: " ++ s]) }
      else .error e
    | _ => .error e

def acceptFailureRecord : AcceptError → Bool
  | .inputsDuplicate | .coinbase | .checkTransaction _ => true
  | .script s => env.scriptBlamesTx tx s
  | _ => false

/-- Such a failure is remembered, while there is room. -/
def noteAcceptFailure (e : AcceptError) : Pool :=
  if acceptFailureRecord env tx e = true ∧ p.recentInvalid.card < recentInvalidCap then
    { p with recentInvalid := insert tx.txid p.recentInvalid }
  else p

def acceptTxWith (feeDelta : Int) (reportOrphans : Bool) (minRelay : Option Nat)
    (siblingEviction : SiblingEviction) : Pool × Except AcceptError AcceptResult :=
  match p.prepareAdmit env tx ⟨feeDelta, reportOrphans, minRelay, false⟩ with
  | .error e => (p, .error e)
  | .ok prep =>
    match scriptWarn env tx { prep with siblingEviction } false with
    | .error e => (p.noteAcceptFailure env tx e, .error e)
    | .ok prep => p.finishCommit env.clock tx prep true

/-- A body that was live before goes back without the fee floor. -/
def reacceptAlreadyAdmitted (acceptSecs : Option Nat) : Pool × Except AcceptError AcceptResult :=
  let waive := decide (tx.txid ∈ p.trustKept)
  match p.prepareAdmit env tx ⟨0, false, some 0, waive⟩ with
  | .error e => (p, .error e)
  | .ok prep =>
    match scriptWarn env tx { prep with keepMark := waive, keepAcceptSecs := acceptSecs } waive with
    | .error e => (p, .error e)
    | .ok prep => p.finishCommit env.clock tx prep true

/-- For each transaction, the places in the list of those it spends, without itself. -/
def parentPlaces (txs : List Transaction) (i : Nat) (tx : Transaction) : List Nat :=
  (tx.input.filterMap fun op =>
    ((List.range txs.length).reverse.find? fun j => (txs[j]?).any (·.txid = op.txid))).filter
      (· ≠ i)

/-- The last edge to a place makes it ready. -/
def settleEdges (indeg : List Nat) : List Nat → List Nat × List Nat
  | [] => (indeg, [])
  | c :: cs =>
    let left := indeg.getD c 0 - 1
    let (indeg, ready) := settleEdges (indeg.set c left) cs
    (indeg, if left = 0 then c :: ready else ready)

def drainReady (children : Nat → List Nat) : Nat → List Nat → List Nat → List Nat
  | 0, _, _ => []
  | _ + 1, _, [] => []
  | rounds + 1, indeg, i :: queue =>
    let (indeg, ready) := settleEdges indeg (children i)
    i :: drainReady children rounds indeg (queue ++ ready)

/-- Parents before children; what a circle keeps waiting comes last. -/
def ancestorFirstOrder (txs : List Transaction) : List Nat :=
  let places := List.range txs.length
  let parents := places.map fun i => ((txs[i]?).map (parentPlaces txs i)).getD []
  let children := fun i => places.flatMap fun c =>
    List.replicate ((parents.getD c []).count i) c
  let indeg := parents.map (·.length)
  let out := drainReady children txs.length indeg (places.filter fun i => indeg.getD i 0 = 0)
  out ++ places.filter (· ∉ out)

/-- Put bodies back in order. A put-back that fails after it removed conflicts restores those first;
`after` says what a success starts. -/
def restoreVictims (again : Pool → Pool × List Txid) (after : Pool → Txid → Pool × List Txid) :
    Pool → List (Transaction × Option Nat) → Pool × List Txid
  | p, [] => (p, [])
  | p, (tx, acceptSecs) :: victims =>
    let (p, noted) :=
      match p.reacceptAlreadyAdmitted env tx acceptSecs with
      | (p, .ok r) => after p r.txid
      | (p, .error _) =>
        let (p, noted) := if p.undoneReplacements ≠ [] then again p else (p, [])
        (if p.graph.contains tx.txid then p
          else { p with trustKept := p.trustKept.erase tx.txid }, noted)
    let (p, more) := restoreVictims again after p victims
    (p, noted ++ more)

def orderedVictims (victims : List Transaction) (acceptSecs : Map Txid Nat) :
    List (Transaction × Option Nat) :=
  (ancestorFirstOrder victims).filterMap fun i =>
    (victims[i]?).map fun tx => (tx, acceptSecs.lookup tx.txid)

/-- Restore what a failed commit removed. Each level of the recursion is a put-back that failed. -/
def restoreConflicts (after : Pool → Txid → Pool × List Txid) : Nat → Pool → Pool × List Txid
  | 0, p => (p.cleared, [])
  | rounds + 1, p =>
    restoreVictims env (restoreConflicts after rounds) after p.cleared
      (orderedVictims p.undoneReplacements p.undoneAcceptSecs)

variable (rounds : Nat)

/-- The restored are handed back to a walk over orphans that is going on. -/
def restoreDeferred : Pool → Pool × List Txid :=
  restoreConflicts env (fun p id => (p, [id])) rounds

def parkOrphanFrom (announcer : Option Peer) : Pool × AcceptError :=
  if (p.graph.get tx.txid).isSome then (p, .duplicate tx.txid)
  else
    match p.orphanage.missingOf tx.txid, p.orphanage.containsWtxid tx.wtxid with
    | some parked, true =>
      (match announcer with
        | some peer => { p with orphanage := p.orphanage.addAnnouncer tx.txid peer }
        | none => p, .orphaned tx.txid parked false)
    | _, _ =>
      let refused := AcceptError.missingPrevout (tx.input.headD ⟨0, 0⟩)
      if missing = ∅ then (p, refused)
      else
        let (orphanage, parked) :=
          p.orphanage.insertFromAt tx missing announcer env.clock.nowMs
        ({ p with orphanage }, if parked then .orphaned tx.txid missing true else refused)

def parkOrphan : Pool × AcceptError :=
  p.parkOrphanFrom env tx missing none

def parkAnnounced (announcers : List Peer) : Pool × AcceptError :=
  let (orphanage, claim) := p.orphanage.claimTaken tx.txid
  let p := { p with orphanage }
  match claim with
  | some .drop => (p, .orphaned tx.txid missing false)
  | _ =>
    let live :=
      match claim with
      | some (.keep peers) => peers
      | _ => announcers
    let (p, e) := p.parkOrphanFrom env tx missing live.head?
    ({ p with
        orphanage := live.tail.foldl (fun o peer => o.addAnnouncer tx.txid peer) p.orphanage }, e)

def forgetTaken (txid : Txid) (gen : Nat) : Pool :=
  { p with orphanage := p.orphanage.forgetTakenGen txid gen }

/-- The orphans of a parent go to the front of the walk. -/
def pushOrphanChildren (parent : Txid) (queue : List OrphanSnapshot) : Pool × List OrphanSnapshot :=
  let (orphanage, children) := p.orphanage.takeChildrenOf env.order parent
  ({ p with orphanage }, children ++ queue)

def pushAllChildren : Pool → List Txid → List OrphanSnapshot → Pool × List OrphanSnapshot
  | p, [], queue => (p, queue)
  | p, id :: ids, queue =>
    let (p, queue) := p.pushOrphanChildren env id queue
    pushAllChildren p ids queue

/-- One orphan of the walk, and what it adds to the walk. -/
def promoteChild (child : OrphanSnapshot) (queue : List OrphanSnapshot) :
    Pool × List OrphanSnapshot :=
  match p.acceptTxWith env child.tx 0 true none .on with
  | (p, .ok r) =>
    (p.forgetTaken child.tx.txid child.takenGen).pushOrphanChildren env r.txid queue
  | (p, .error e) =>
    let p :=
      match e with
      | .orphaned _ missing _ => (p.parkAnnounced env child.tx missing child.announcers).1
      | _ => p.forgetTaken child.tx.txid child.takenGen
    let (p, restored) := restoreDeferred env rounds p
    p.pushAllChildren env restored queue

def promoteWalk : Nat → Pool → List OrphanSnapshot → Pool
  | 0, p, _ => p.cleared
  | _ + 1, p, [] => p
  | rounds + 1, p, child :: queue =>
    let (p, queue) := p.promoteChild env rounds child queue
    promoteWalk rounds p queue

def promoteOrphansOf (parent : Txid) : Pool :=
  let (p, queue) := p.pushOrphanChildren env parent []
  promoteWalk env rounds p queue

def restoreUndone : Pool :=
  (restoreConflicts env (fun p id => (p.promoteOrphansOf env rounds id, [])) rounds p).1

def acceptTx (tx : Transaction) : Pool × Except AcceptError AcceptResult :=
  match p.acceptTxWith env tx 0 true none .on with
  | (p, .ok r) => (p.promoteOrphansOf env rounds r.txid, .ok r)
  | (p, .error e) =>
    match e with
    | .orphaned _ missing _ =>
      let (p, e) := p.parkOrphan env tx missing
      (p, .error e)
    | _ => ((p.restoreUndone env rounds).noteAcceptFailure env tx e, .error e)

end Pool

end Rbitcoin.Mempool
