import Rbitcoin.Lib.Run
import Rbitcoin.Mempool.AcceptRuns
import Rbitcoin.Mempool.Eviction

/-! The weight of the pool over runs of accepts. A commit that returns has trimmed the pool: it is
within its budget, or the new transaction alone is its worst chunk. A call that fails puts back at
most what it has removed. So only calls that start above the budget and end in front of their own
transaction can pass the budget by more than one transaction, and then by any number. -/

namespace Rbitcoin.Mempool

open Ordered Option Finset Outcome Finmap TxGraph

namespace Pool

variable {s p q : Pool} {rank : Txid → Nat} {env : Env} {clock : Clock} {tx : Transaction}
  {prep : PreparedAdmit}

/-! ### One commit -/

/-- What a commit of a transaction that is not live leaves. -/
structure Committed (rank : Txid → Nat) (p : Pool) (tx : Transaction)
    (out : Pool × Except AcceptError AcceptResult) : Prop where
  ready : out.1.Ready rank
  maxWeight : out.1.maxWeight = p.maxWeight
  orphanage : out.1.orphanage = p.orphanage
  body : ∀ t body, out.1.bodies.lookup t = some body →
    p.bodies.lookup t = some body ∨ t = tx.txid ∧ body = tx
  grown : out.1.graph.liveWeight ≤ p.graph.liveWeight + tx.weight
  ok : ∀ r, out.2 = .ok r → r.txid = tx.txid ∧ out.1.undoneReplacements = [] ∧
    (out.1.graph.totalWeight ≤ out.1.maxWeight ∨ out.1.Stuck tx.txid)
  failed : ∀ e, out.2 = .error e → out.1.graph.get tx.txid = none ∧
    (e.parks = true → out.1.undoneReplacements = [])

section Commit

variable (ready : p.Ready rank) (fresh : p.graph.get tx.txid = none)
  (hashed : ∀ op ∈ tx.input, rank op.txid < rank tx.txid)
  (light : p.graph.liveWeight + tx.weight ≤ u64Max)
  (txid : prep.txid = tx.txid) (weight : prep.weight = tx.weight)
include ready fresh hashed light txid weight

theorem Ready.insertLive {slot : Nat} (owns : p.store.Owns slot prep.txid) :
    (p.insertLive tx prep slot).Ready rank := by
  have id : (entryOf prep slot).txid = tx.txid := txid
  have absent : p.tracked.bodies.lookup (entryOf prep slot).txid = none := by
    have live := ready.indexed.1.live tx.txid
    rw [show p.tracked.graph.get tx.txid = none from fresh] at live
    rw [id]
    exact not_isSome_iff_eq_none.mp (by rw [← live]; decide)
  have stepped : (p.insertLive tx prep slot).tracked =
      p.tracked.step (.insert (entryOf prep slot) tx) := rfl
  refine ⟨?_, ?_, ?_, ready.io⟩
  · rw [stepped]
    exact Tracked.step_indexed ready.indexed ⟨absent, rfl, by rwa [id]⟩
  · rw [stepped]
    refine ready.weighed.insert ?_ id.symm weight.symm ?_
    · rwa [id]
    · rwa [show (entryOf prep slot).weight = tx.weight from weight]
  · intro t e found
    rcases insert_get_some found with ⟨rfl, same⟩ | ⟨n, before, same⟩
    · rw [same.slot]
      exact owns.lt
    · rw [same.slot]
      exact ready.slots t n before

theorem Ready.commitReplaced (set : Finset Txid) (kept : List Txid) :
    Committed rank p tx (p.commitReplaced clock tx prep true set kept) := by
  have unlinks (q : Pool) (t : Txid) (held : p.Shrinks q ∧ q.Ready rank) :
      p.Shrinks (q.unlinkTxid t).1 ∧ (q.unlinkTxid t).1.Ready rank :=
    ⟨held.1.trans (q.unlinkTxid_unlinks t).toShrinks, (held.2.unlinkTxid t).1⟩
  obtain ⟨q, e, ⟨shrinks, reached⟩, parks, eq⟩ |
      ⟨q, slot, evicted, secs, ⟨shrinks, reached⟩, owns, eq⟩ :=
    p.commitReplaced_reaches clock tx prep true set unlinks
      (fun _ _ same _ held => ⟨held.1.trans same.shrinks, held.2.beside same⟩) ⟨.refl p, ready⟩ kept
  · rw [eq]
    refine ⟨reached, shrinks.maxWeight, shrinks.orphanage, fun t body left => ?_, ?_, nofun, ?_⟩
    · exact Or.inl (shrinks.drops.body left)
    · exact shrinks.drops.liveWeight.trans (Nat.le_add_right _ _)
    · intro e' failed
      obtain rfl := Except.error.inj failed
      exact ⟨shrinks.drops.gone fresh, fun parked => by rw [parks] at parked; cases parked⟩
  · rw [eq]
    have fresh' : q.graph.get tx.txid = none := shrinks.drops.gone fresh
    have less : q.graph.liveWeight ≤ p.graph.liveWeight := shrinks.drops.liveWeight
    have inserted : (q.insertLive tx prep slot).Ready rank :=
      reached.insertLive fresh' hashed ((Nat.add_le_add_right less _).trans light) txid weight owns
    have weighs : (q.insertLive tx prep slot).graph.liveWeight = prep.weight + q.graph.liveWeight :=
      insert_liveWeight (by rwa [txid])
    obtain ⟨q', trimmed, beside, result⟩ := (q.insertLive tx prep slot).finishInsert_cases clock
      prep true set kept evicted slot secs
    have within : q'.graph.totalWeight ≤ q'.maxWeight ∨ q'.Stuck tx.txid := by
      rw [trimmed, ← txid]
      exact inserted.evictRounds (Nat.lt_succ_self _)
    have trims : (q.insertLive tx prep slot).Unlinks q' := by
      rw [trimmed]
      exact (q.insertLive tx prep slot).evictRounds_unlinks clock _ _ _
    have ready' : q'.Ready rank := by
      rw [trimmed]
      exact (q.insertLive tx prep slot).evictRounds_keeps clock _
        (fun _ t ready => (ready.unlinkTxid t).1) (fun _ _ same _ ready => ready.beside same)
        inserted _ _
    have after := trims.toShrinks.trans beside.shrinks
    generalize (q.insertLive tx prep slot).finishInsert clock prep true set kept evicted slot secs =
      out at beside result after
    refine ⟨ready'.beside beside, after.maxWeight.trans shrinks.maxWeight,
      after.orphanage.trans shrinks.orphanage, ?_, ?_, ?_, ?_⟩
    · intro t body left
      have here := after.drops.body left
      rw [show (q.insertLive tx prep slot).tracked =
        q.tracked.step (.insert (entryOf prep slot) tx) from rfl, Tracked.lookup_insert] at here
      split at here
      · next root => exact Or.inr ⟨root.trans txid, (some.inj here).symm⟩
      · exact Or.inl (shrinks.drops.body here)
    · have left : out.1.graph.liveWeight ≤ (q.insertLive tx prep slot).graph.liveWeight :=
        after.drops.liveWeight
      omega
    · intro r ok
      obtain ⟨e, failed, -⟩ | ⟨r', done, id, -, none⟩ := result
      · cases ok.symm.trans failed
      · obtain rfl := Except.ok.inj (ok.symm.trans done)
        refine ⟨id.trans txid, none, ?_⟩
        rwa [Stuck, beside.graph, beside.maxWeight]
    · intro e failed
      obtain ⟨e', failed', parks, gone, -⟩ | ⟨r', done, -⟩ := result
      · obtain rfl := Except.error.inj (failed.symm.trans failed')
        rw [beside.graph, ← txid]
        exact ⟨gone, fun parked => by rw [parks] at parked; cases parked⟩
      · cases failed.symm.trans done

theorem Ready.finishCommit : Committed rank p tx (p.finishCommit clock tx prep true) := by
  unfold Pool.finishCommit
  cases p.cleared.planAfterScript clock tx prep with
  | error e =>
    refine ⟨ready.beside ⟨rfl, rfl, .refl _, rfl, rfl⟩, rfl, rfl, fun t body here => Or.inl here,
      ?_, nofun, fun e _ => ⟨fresh, fun _ => rfl⟩⟩
    exact Nat.le_add_right _ _
  | ok plan =>
    obtain ⟨set, rest⟩ := plan
    have shrinks := p.replaced_shrinks set
    have less : (p.replaced set).graph.liveWeight ≤ p.graph.liveWeight := shrinks.drops.liveWeight
    have kept : (p.replaced set).Ready rank :=
      Pool.unlinkAll_keeps _ (fun _ t ready => (ready.unlinkTxid t).1)
        (ready.beside ⟨rfl, rfl, .refl _, rfl, rfl⟩ : (p.cleared.keepReplaced set).Ready rank) _
    have done : Committed rank (p.replaced set) tx ((p.replaced set).commitReplaced clock tx prep
        true set ((ascending set).filter (· ∈ p.trustKept))) :=
      kept.commitReplaced (shrinks.drops.gone fresh) hashed
        ((Nat.add_le_add_right less _).trans light) txid weight set _
    exact { done with
      maxWeight := done.maxWeight.trans shrinks.maxWeight
      orphanage := done.orphanage.trans shrinks.orphanage
      body := fun t body left => (done.body t body left).imp_left shrinks.drops.body
      grown := done.grown.trans (Nat.add_le_add_right less _) }

end Commit

/-! ### One call -/

/-- The state inside a call on the pool `s`: what is live or waits to be restored was live at its
start, no orphan waits for it, and one more transaction would fit beside all of it. -/
structure Inside (rank : Txid → Nat) (s p : Pool) : Prop where
  start : s.Ready rank
  light : s.graph.liveWeight + maxStandardTxWeight ≤ u64Max
  maxWeight : p.maxWeight = s.maxWeight
  ready : p.Ready rank
  held : ∀ t tx, p.bodies.lookup t = some tx → s.bodies.lookup t = some tx
  undone : ∀ tx ∈ p.undoneReplacements, s.bodies.lookup tx.txid = some tx
  quiet : ∀ t tx, s.bodies.lookup t = some tx → p.orphanage.byParent.lookup t = none

theorem Inside.cleared (inside : Inside rank s p) : Inside rank s p.cleared :=
  { inside with
    ready := inside.ready.beside ⟨rfl, rfl, .refl _, rfl, rfl⟩
    undone := nofun }

theorem Inside.liveWeight_le (inside : Inside rank s p) :
    p.graph.liveWeight ≤ s.graph.liveWeight := by
  apply Map.total_le_total
  intro t e found
  have here := inside.ready.weighed.weight t
  rw [show p.tracked.graph.get t = some e from found] at here
  obtain ⟨tx, body, equal⟩ := map_eq_some_iff.mp here
  have before := inside.start.weighed.weight t
  rw [show s.tracked.bodies.lookup t = some tx from inside.held t tx body] at before
  obtain ⟨e', found', same⟩ := map_eq_some_iff.mp before.symm
  exact ⟨e', found', (equal.symm.trans same.symm).le⟩

theorem Inside.committed {out : Pool × Except AcceptError AcceptResult} (inside : Inside rank s p)
    (done : Committed rank p tx out)
    (undone : ∀ old ∈ out.1.undoneReplacements, ∃ id, p.bodies.lookup id = some old)
    (known : ∀ r, out.2 = .ok r → s.bodies.lookup tx.txid = some tx) : Inside rank s out.1 := by
  refine ⟨inside.start, inside.light, done.maxWeight.trans inside.maxWeight, done.ready, ?_, ?_, ?_⟩
  · intro t body left
    rcases done.body t body left with before | ⟨rfl, rfl⟩
    · exact inside.held t body before
    · cases result : out.2 with
      | ok r => exact known r result
      | error e =>
        -- a failed commit has taken the transaction out again
        have gone : out.1.tracked.graph.get body.txid = none := (done.failed e result).1
        have dead := done.ready.indexed.1.live body.txid
        rw [show out.1.tracked.bodies.lookup body.txid = some body from left, gone] at dead
        cases dead
  · intro old mem
    obtain ⟨id, here⟩ := undone old mem
    rw [show old.txid = id from inside.ready.weighed.txid id old here]
    exact inside.held id old here
  · rw [done.orphanage]
    exact inside.quiet

/-! ### Accepting one transaction -/

theorem checkLibreShape_weight {weight : Nat} (standard : env.checkLibreShape tx weight = none) :
    weight ≤ maxStandardTxWeight := by
  unfold Env.checkLibreShape at standard
  split_ifs at standard
  omega

theorem precheck_fresh {reportOrphans : Bool} (ok : p.precheck env tx reportOrphans = .ok ()) :
    p.graph.get tx.txid = none := by
  unfold precheck at ok
  cases found : p.graph.get tx.txid with
  | none => rfl
  | some live =>
    grind

theorem prepareAdmit_ok {opts : PrepareOpts} (ok : p.prepareAdmit env tx opts = .ok prep) :
    p.graph.get tx.txid = none ∧ tx.weight ≤ maxStandardTxWeight ∧ prep.txid = tx.txid ∧
      prep.weight = tx.weight := by
  obtain ⟨⟨⟩, checked, afterCheck⟩ := bind_eq_ok.mp ok
  obtain ⟨inputs, -, afterInputs⟩ := bind_eq_ok.mp afterCheck
  obtain ⟨trustWarn, -, afterStructural⟩ := bind_eq_ok.mp afterInputs
  obtain ⟨sigopCost, -, afterSigops⟩ := bind_eq_ok.mp afterStructural
  obtain ⟨feeSat, -, afterFee⟩ := bind_eq_ok.mp afterSigops
  obtain ⟨⟨⟩, fee, done⟩ := bind_eq_ok.mp afterFee
  obtain rfl := Except.ok.inj done
  refine ⟨precheck_fresh checked, ?_, rfl, rfl⟩
  unfold checkFee Env.checkLibreAdmissionAt at fee
  cases shape : env.checkLibreShape tx tx.weight with
  | none => exact checkLibreShape_weight shape
  | some reason =>
    rw [shape] at fee
    cases fee

theorem scriptWarn_ok {prep' : PreparedAdmit} {waive : Bool}
    (ok : scriptWarn env tx prep waive = .ok prep') :
    prep'.txid = prep.txid ∧ prep'.weight = prep.weight := by
  unfold scriptWarn at ok
  split at ok
  · obtain rfl := Except.ok.inj ok
    exact ⟨rfl, rfl⟩
  · split at ok
    · split_ifs at ok
      obtain rfl := Except.ok.inj ok
      exact ⟨rfl, rfl⟩
    · cases ok

theorem Inside.noteAcceptFailure {e : AcceptError} (inside : Inside rank s p) :
    Inside rank s (p.noteAcceptFailure env tx e) := by
  unfold Pool.noteAcceptFailure
  split
  · exact { inside with ready := inside.ready.beside ⟨rfl, rfl, .refl _, rfl, rfl⟩ }
  · exact inside

theorem noteAcceptFailure_undone (e : AcceptError) :
    (p.noteAcceptFailure env tx e).undoneReplacements = p.undoneReplacements := by
  unfold Pool.noteAcceptFailure
  split <;> rfl

theorem promoteOrphansOf_quiet {t : Txid} (quiet : p.orphanage.byParent.lookup t = none)
    (env : Env) (rounds : Nat) : p.promoteOrphansOf env rounds t = p ∨
      p.promoteOrphansOf env rounds t = p.cleared := by
  have pushed : p.pushOrphanChildren env t [] = (p, []) := by
    unfold pushOrphanChildren Orphanage.takeChildrenOf
    rw [quiet]
    rfl
  unfold Pool.promoteOrphansOf
  rw [pushed]
  cases rounds with
  | zero => exact Or.inr rfl
  | succ rounds => exact Or.inl rfl

/-- A try to accept: when it fails it stays inside the call, and says when nothing is left to
restore. -/
structure Tried (rank : Txid → Nat) (s p : Pool) (tx : Transaction)
    (out : Pool × Except AcceptError AcceptResult) : Prop where
  failed : ∀ e, out.2 = .error e → Inside rank s out.1 ∧
    (e.parks = true → p.undoneReplacements = [] → out.1.undoneReplacements = [])
  ok : ∀ r, out.2 = .ok r → tx.weight ≤ maxStandardTxWeight ∧ Committed rank p tx out

section

variable (inside : Inside rank s p)
include inside

theorem Tried.refused (e : AcceptError) : Tried rank s p tx (p, .error e) :=
  ⟨fun _ _ => ⟨inside, fun _ none => none⟩, nofun⟩

section Try

variable (hashed : ∀ op ∈ tx.input, rank op.txid < rank tx.txid)
include hashed

theorem Tried.committed (fresh : p.graph.get tx.txid = none)
    (standard : tx.weight ≤ maxStandardTxWeight) (txid : prep.txid = tx.txid)
    (weight : prep.weight = tx.weight) :
    Tried rank s p tx (p.finishCommit clock tx prep true) := by
  have done : Committed rank p tx (p.finishCommit clock tx prep true) := by
    have live := inside.liveWeight_le
    have light := inside.light
    exact inside.ready.finishCommit fresh hashed (by omega) txid weight
  refine ⟨fun e failed => ⟨?_, fun parks _ => (done.failed e failed).2 parks⟩,
    fun r _ => ⟨standard, done⟩⟩
  refine inside.committed done (p.finishCommit_undone clock tx prep true) fun r ok => ?_
  cases failed.symm.trans ok

theorem Inside.acceptTxWith (feeDelta : Int) (reportOrphans : Bool) (minRelay : Option Nat)
    (sibling : SiblingEviction) :
    Tried rank s p tx (p.acceptTxWith env tx feeDelta reportOrphans minRelay sibling) := by
  unfold Pool.acceptTxWith
  cases prepared : p.prepareAdmit env tx ⟨feeDelta, reportOrphans, minRelay, false⟩ with
  | error e => exact .refused inside e
  | ok prep =>
    obtain ⟨fresh, standard, txid, weight⟩ := prepareAdmit_ok prepared
    dsimp only
    split
    · next e _ =>
      refine ⟨fun _ _ => ⟨inside.noteAcceptFailure, fun _ none => ?_⟩, nofun⟩
      rwa [noteAcceptFailure_undone]
    · next prep' verified =>
      obtain ⟨txid', weight'⟩ := scriptWarn_ok verified
      exact .committed inside hashed fresh standard (txid'.trans txid) (weight'.trans weight)

theorem Inside.reacceptAlreadyAdmitted (acceptSecs : Option Nat) :
    Tried rank s p tx (p.reacceptAlreadyAdmitted env tx acceptSecs) := by
  unfold Pool.reacceptAlreadyAdmitted
  dsimp only
  split
  · exact .refused inside _
  · next prep prepared =>
    obtain ⟨fresh, standard, txid, weight⟩ := prepareAdmit_ok prepared
    split
    · exact .refused inside _
    · next prep' verified =>
      obtain ⟨txid', weight'⟩ := scriptWarn_ok verified
      exact .committed inside hashed fresh standard (txid'.trans txid) (weight'.trans weight)

end Try

theorem Inside.promoteOrphansOf (known : s.bodies.lookup tx.txid = some tx)
    (undone : p.undoneReplacements = []) (rounds : Nat) :
    Inside rank s (p.promoteOrphansOf env rounds tx.txid) ∧
      (p.promoteOrphansOf env rounds tx.txid).undoneReplacements = [] := by
  rcases promoteOrphansOf_quiet (inside.quiet _ _ known) env rounds with same | same
  · rw [same]
    exact ⟨inside, undone⟩
  · rw [same]
    exact ⟨inside.cleared, rfl⟩

/-- A transaction that was live at the start of the call goes back inside it. -/
theorem Inside.putBack (known : s.bodies.lookup tx.txid = some tx) (acceptSecs : Option Nat)
    (rounds : Nat) : let out := p.reacceptAlreadyAdmitted env tx acceptSecs
    Inside rank s out.1 ∧ ∀ r, out.2 = .ok r →
      Inside rank s (out.1.promoteOrphansOf env rounds r.txid) ∧
        (out.1.promoteOrphansOf env rounds r.txid).undoneReplacements = [] := by
  have tried : Tried rank s p tx (p.reacceptAlreadyAdmitted env tx acceptSecs) :=
    inside.reacceptAlreadyAdmitted (inside.start.indexed.1.hashes _ _ known) acceptSecs
  generalize p.reacceptAlreadyAdmitted env tx acceptSecs = out at tried
  cases result : out.2 with
  | error e => exact ⟨(tried.failed e result).1, fun r ok => nomatch result.symm.trans ok⟩
  | ok r =>
    obtain ⟨-, done⟩ := tried.ok r result
    obtain ⟨id, none, -⟩ := done.ok r result
    have inside' : Inside rank s out.1 := by
      refine inside.committed done ?_ fun _ _ => known
      rw [none]
      nofun
    refine ⟨inside', fun r' ok => ?_⟩
    obtain rfl := Except.ok.inj (result.symm.trans ok)
    rw [id]
    exact inside'.promoteOrphansOf known none rounds

theorem Inside.restoreUndone (rounds : Nat) : Inside rank s (p.restoreUndone env rounds) ∧
    (p.restoreUndone env rounds).undoneReplacements = [] := by
  apply restoreConflicts_keeps (Inside rank s)
    (fun q => Inside rank s q ∧ q.undoneReplacements = [])
    (fun tx => s.bodies.lookup tx.txid = some tx)
  · exact fun q tx secs known held => held.1.putBack known secs rounds
  · exact fun q held undone => ⟨held, undone⟩
  · rintro q t ⟨held, undone⟩
    exact ⟨{ held with ready := held.ready.beside ⟨rfl, rfl, .refl _, rfl, rfl⟩ }, undone⟩
  · exact fun q held => ⟨held.cleared, rfl⟩
  · exact fun q held => held.undone
  · exact inside

end

/-! ### Runs of calls -/

/-- The pool between calls: nothing is left to restore. -/
structure Settled (rank : Txid → Nat) (limit : Nat) (p : Pool) : Prop where
  maxWeight : p.maxWeight = limit
  ready : p.Ready rank
  undone : p.undoneReplacements = []

variable {limit : Nat}

theorem Inside.settled (inside : Inside rank s p) (undone : p.undoneReplacements = []) :
    p.Settled rank s.maxWeight := ⟨inside.maxWeight, inside.ready, undone⟩

/-- A call that fails leaves what was live before, or less. -/
theorem Inside.acceptTx_failed {e : AcceptError} (inside : Inside rank s p)
    (settled : p.undoneReplacements = [])
    (hashed : ∀ op ∈ tx.input, rank op.txid < rank tx.txid)
    (failed : p.acceptTxWith env tx 0 true none .on = (q, .error e)) (rounds : Nat) :
    (p.acceptTx env rounds tx).1.Settled rank s.maxWeight ∧
      (p.acceptTx env rounds tx).1.graph.liveWeight ≤ s.graph.liveWeight := by
  have tried : Tried rank s p tx (p.acceptTxWith env tx 0 true none .on) :=
    inside.acceptTxWith hashed 0 true none .on
  rw [failed] at tried
  obtain ⟨inside', parked⟩ := tried.failed e rfl
  unfold Pool.acceptTx
  rw [failed]
  dsimp only
  split
  · next missing _ =>
    obtain ⟨orphanage, same⟩ := q.parkOrphanFrom_frame env tx missing none
    unfold parkOrphan
    rw [same]
    refine ⟨⟨inside'.maxWeight, ?_, parked rfl settled⟩, inside'.liveWeight_le⟩
    exact { inside'.ready with }
  · obtain ⟨inside', settled'⟩ : Inside rank s (q.restoreUndone env rounds) ∧ _ :=
      inside'.restoreUndone rounds
    have noted : Inside rank s ((q.restoreUndone env rounds).noteAcceptFailure env tx e) :=
      inside'.noteAcceptFailure
    refine ⟨noted.settled ?_, noted.liveWeight_le⟩
    rwa [noteAcceptFailure_undone]

structure AcceptCall where
  env : Env
  rounds : Nat
  tx : Transaction

def acceptCall (p : Pool) (c : AcceptCall) : Pool := (p.acceptTx c.env c.rounds c.tx).1

/-- What the bound needs of a call: the ids are hashes, no orphan waits for the transaction or for a
live one, and a call that starts above the budget does not end in front of its own transaction. -/
def Trims (rank : Txid → Nat) (p : Pool) (call : AcceptCall) : Prop :=
  (∀ op ∈ call.tx.input, rank op.txid < rank call.tx.txid) ∧
    (∀ parent ∈ p.orphanage.byParent.keys,
      parent ≠ call.tx.txid ∧ p.graph.contains parent = false) ∧
    (p.maxWeight < p.graph.totalWeight → ¬(p.acceptCall call).Stuck call.tx.txid)

instance {call : AcceptCall} : Decidable (p.Trims rank call) := inferInstanceAs (Decidable (_ ∧ _))

theorem Settled.inside (settled : p.Settled rank p.maxWeight)
    (quiet : ∀ parent ∈ p.orphanage.byParent.keys, p.graph.contains parent = false)
    (light : p.graph.liveWeight + maxStandardTxWeight ≤ u64Max) : Inside rank p p := by
  refine ⟨settled.ready, light, rfl, settled.ready, fun _ _ here => here, ?_, ?_⟩
  · rw [settled.undone]
    nofun
  · intro t body found
    refine lookup_eq_none.mpr fun waits => ?_
    have live : (p.graph.get t).isSome = (p.bodies.lookup t).isSome :=
      settled.ready.indexed.1.live t
    have dead := quiet t (mem_keys.mpr waits)
    rw [contains, live, found] at dead
    cases dead

/-- No orphan is woken, so the pool after the commit is the one after the call. -/
theorem acceptCall_ok {call : AcceptCall} {r : AcceptResult}
    (ok : p.acceptTxWith call.env call.tx 0 true none .on = (q, .ok r))
    (quiet : q.orphanage.byParent.lookup r.txid = none) (undone : q.undoneReplacements = []) :
    q.Beside (p.acceptCall call) ∧ (p.acceptCall call).undoneReplacements = [] := by
  unfold Pool.acceptCall acceptTx
  rw [ok]
  dsimp only
  rcases promoteOrphansOf_quiet quiet call.env call.rounds with same | same
  · rw [same]
    exact ⟨⟨rfl, rfl, .refl _, rfl, rfl⟩, undone⟩
  · rw [same]
    exact ⟨⟨rfl, rfl, .refl _, rfl, rfl⟩, rfl⟩

theorem Settled.acceptCall {call : AcceptCall} (settled : p.Settled rank limit)
    (small : limit + 2 * maxStandardTxWeight ≤ u64Max)
    (bound : p.graph.totalWeight ≤ limit + maxStandardTxWeight) (trims : p.Trims rank call) :
    (p.acceptCall call).Settled rank limit ∧
      (p.acceptCall call).graph.totalWeight ≤ limit + maxStandardTxWeight := by
  obtain rfl := settled.maxWeight
  obtain ⟨hashed, unawaited, unstuck⟩ := trims
  have total : p.graph.totalWeight = p.graph.liveWeight := settled.ready.weighed.counted
  have inside : Inside rank p p :=
    settled.inside (fun parent mem => (unawaited parent mem).2) (by omega)
  have tried : Tried rank p p call.tx (p.acceptTxWith call.env call.tx 0 true none .on) :=
    inside.acceptTxWith hashed 0 true none .on
  rcases result : p.acceptTxWith call.env call.tx 0 true none .on with ⟨q, e | r⟩
  · obtain ⟨settled', less⟩ := inside.acceptTx_failed settled.undone hashed result call.rounds
    have after : (p.acceptCall call).graph.totalWeight = (p.acceptCall call).graph.liveWeight :=
      settled'.ready.weighed.counted
    refine ⟨settled', ?_⟩
    rw [after]
    exact less.trans (total ▸ bound)
  · rw [result] at tried
    obtain ⟨standard, done⟩ := tried.ok r rfl
    obtain ⟨id, undone, within⟩ := done.ok r rfl
    have quiet : q.orphanage.byParent.lookup r.txid = none := by
      rw [done.orphanage, id]
      refine lookup_eq_none.mpr fun waits => ?_
      exact (unawaited call.tx.txid (mem_keys.mpr waits)).1 rfl
    obtain ⟨beside, undone'⟩ := acceptCall_ok result quiet undone
    refine ⟨⟨beside.maxWeight.trans done.maxWeight, done.ready.beside beside, undone'⟩, ?_⟩
    rw [Stuck, beside.graph, beside.maxWeight] at unstuck
    rw [beside.graph]
    have after : q.graph.totalWeight = q.graph.liveWeight := done.ready.weighed.counted
    have grown : q.graph.liveWeight ≤ p.graph.liveWeight + call.tx.weight := done.grown
    by_cases heavy : p.maxWeight < p.graph.totalWeight
    · have fits : q.graph.totalWeight ≤ q.maxWeight := within.resolve_right (unstuck heavy)
      have limit : q.maxWeight = p.maxWeight := done.maxWeight
      omega
    · omega

/-- The accept of a transaction that spends one confirmed coin, on a chain where every coin is worth
the same and every check passes. -/
def paying (txid feeSat weight : Nat) : AcceptCall where
  env :=
    { clock := ⟨0, 0, fun _ => true⟩
      chainPrevout := fun _ => .unspent ⟨⟨1000000, []⟩, false, 0, 0⟩
      checkTxShape := fun _ => none
      rejectNullPrevouts := fun _ => none
      checkLibreAnnex := fun _ => none
      checkMempoolStructural := fun _ _ => none
      txSigopCost := fun _ _ => 0
      verifyScripts := fun _ _ => none
      reasonIsWarnAndApply := fun _ => false
      scriptBlamesTx := fun _ _ => false
      order := ascending }
  rounds := 4
  tx :=
    { txid, wtxid := txid + 10, version := 2, input := [⟨100 + txid, 0⟩]
      output := [⟨1000000 - feeSat, []⟩], weight }

theorem start_settled (rank : Txid → Nat) (slots maxWeight minRelaySatKvb : Nat) :
    (start new slots maxWeight minRelaySatKvb).Settled rank maxWeight := by
  have indexed : (start new slots maxWeight minRelaySatKvb).tracked.Indexed rank :=
    Tracked.start_indexed rank 64 101000 20 400
  refine ⟨rfl, ⟨indexed, ⟨?_, fun _ => rfl, rfl⟩, ?_, nofun⟩, rfl⟩
  · intro t tx here
    cases (lookup_empty t).symm.trans here
  · intro t e found
    cases (lookup_empty t).symm.trans found

/-- Coins of the chain come before the transactions that spend them. -/
def chainFirst (t : Txid) : Nat := if t < 100 then 1 else 0

end Pool

end Rbitcoin.Mempool
