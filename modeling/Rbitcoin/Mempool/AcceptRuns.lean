import Rbitcoin.Mempool.Accept
import Rbitcoin.Mempool.PoolRun

/-! An accept as a run of calls on the pool. Whatever it does besides its commits, to the orphans,
to the failures it remembers and to the bodies it may have to restore, neither the graph nor the
store sees. A block that connects is a run of unlinks. -/

namespace Rbitcoin.Mempool.Pool

open Relation

variable {env : Env} {p q r : Pool} {tx : Transaction}

/-- Only what is beside the live transactions and the store differs. -/
structure Aside (p q : Pool) : Prop where
  graph : q.graph = p.graph
  bodies : q.bodies = p.bodies
  store : q.store = p.store
  maxWeight : q.maxWeight = p.maxWeight

theorem Aside.kept (aside : p.Aside q) : p.Kept q := by
  refine ⟨aside.bodies, fun t e found => ⟨e, ?_, rfl, rfl, rfl, rfl⟩, ?_, fun exact => ?_⟩
  · rwa [aside.graph] at found
  · rw [aside.graph]
    exact .refl _
  · rwa [aside.graph, aside.bodies]

/-- A call, which from outside changes nothing that the live transactions see. -/
def Step (p : Pool) (c : PoolCall) : Prop := ∀ q, c = .outside q → p.Aside q

/-- Such calls lead from a pool to another. -/
def Reaches : Pool → Pool → Prop := ReflTransGen fun p q => ∃ c, p.Step c ∧ q = p.call c

theorem Reaches.exists_run (reaches : p.Reaches q) :
    ∃ calls, Run.AllMeet call Step p calls ∧ q = p.run calls := by
  induction reaches using ReflTransGen.head_induction_on with
  | refl => exact ⟨[], trivial, rfl⟩
  | head step _ ih =>
    obtain ⟨c, allowed, rfl⟩ := step
    obtain ⟨calls, met, rfl⟩ := ih
    exact ⟨c :: calls, ⟨allowed, met⟩, rfl⟩

theorem reaches_finishCommit (p : Pool) (clock : Clock) (tx : Transaction) (prep : PreparedAdmit)
    (trim : Bool) : p.Reaches (p.finishCommit clock tx prep trim).1 :=
  .single ⟨.commit clock tx prep trim, nofun, rfl⟩

theorem reaches_unlinkTxid (p : Pool) (t : Txid) : p.Reaches (p.unlinkTxid t).1 :=
  .single ⟨.unlink t, nofun, rfl⟩

theorem Aside.reaches (aside : p.Aside q) : p.Reaches q :=
  .single ⟨.outside q, fun _ same => PoolCall.outside.inj same ▸ aside, rfl⟩

/-! ### Accepts -/

theorem reaches_noteAcceptFailure (p : Pool) (e : AcceptError) :
    p.Reaches (p.noteAcceptFailure env tx e) := by
  unfold noteAcceptFailure
  split <;> exact Aside.reaches ⟨rfl, rfl, rfl, rfl⟩

theorem reaches_acceptTxWith (p : Pool) (feeDelta : Int) (reportOrphans : Bool)
    (minRelay : Option Nat) (sibling : SiblingEviction) :
    p.Reaches (p.acceptTxWith env tx feeDelta reportOrphans minRelay sibling).1 := by
  unfold acceptTxWith
  split
  · exact .refl
  · split
    · exact p.reaches_noteAcceptFailure _
    · exact p.reaches_finishCommit ..

theorem reaches_reaccept (p : Pool) (tx : Transaction) (acceptSecs : Option Nat) :
    p.Reaches (p.reacceptAlreadyAdmitted env tx acceptSecs).1 := by
  unfold reacceptAlreadyAdmitted
  dsimp only
  split
  · exact .refl
  · split
    · exact .refl
    · exact p.reaches_finishCommit ..

theorem mem_orderedVictims {victims : List Transaction} {secs : Map Txid Nat}
    {v : Transaction × Option Nat} (mem : v ∈ orderedVictims victims secs) : v.1 ∈ victims := by
  obtain ⟨i, -, found⟩ := List.mem_filterMap.mp mem
  obtain ⟨tx, here, rfl⟩ := Option.map_eq_some_iff.mp found
  exact List.mem_of_getElem? here

section Restore

variable (inside settled : Pool → Prop) (known : Transaction → Prop)
  {after : Pool → Txid → Pool × List Txid}
  (put : ∀ (q : Pool) tx secs, known tx → settled q →
    inside (q.reacceptAlreadyAdmitted env tx secs).1 ∧
      ∀ r, (q.reacceptAlreadyAdmitted env tx secs).2 = .ok r →
        settled (after (q.reacceptAlreadyAdmitted env tx secs).1 r.txid).1)
  (empty : ∀ q, inside q → q.undoneReplacements = [] → settled q)
  (noted : ∀ q t, settled q → settled { q with trustKept := q.trustKept.erase t })
include put empty noted

/-- What a put-back leaves `inside`, a restore leaves `settled`. -/
theorem restoreVictims_keeps {again : Pool → Pool × List Txid}
    (nested : ∀ q, inside q → settled (again q).1) {victims : List (Transaction × Option Nat)}
    (all : ∀ v ∈ victims, known v.1) (start : settled p) :
    settled (restoreVictims env again after p victims).1 := by
  induction victims generalizing p with
  | nil => exact start
  | cons v victims ih =>
    obtain ⟨tx, acceptSecs⟩ := v
    obtain ⟨here, rest⟩ := List.forall_mem_cons.mp all
    have tried := put p tx acceptSecs here start
    unfold restoreVictims
    generalize p.reacceptAlreadyAdmitted env tx acceptSecs = out at tried
    obtain ⟨q, result⟩ := out
    obtain ⟨held, woken⟩ := tried
    cases result with
    | ok r => exact ih rest (woken r rfl)
    | error e =>
      dsimp only
      -- what the failed put-back has removed is restored before the next
      have redone : settled (if q.undoneReplacements ≠ [] then again q else (q, [])).1 := by
        split
        · exact nested q held
        · next none => exact empty q held (not_not.mp none)
      generalize (if q.undoneReplacements ≠ [] then again q else (q, [])) = out at redone
      apply ih rest
      split
      · exact redone
      · exact noted _ _ redone

theorem restoreConflicts_keeps (cleared : ∀ q, inside q → settled q.cleared)
    (undone : ∀ q, inside q → ∀ tx ∈ q.undoneReplacements, known tx) (rounds : Nat)
    (start : inside p) : settled (restoreConflicts env after rounds p).1 := by
  induction rounds generalizing p with
  | zero => exact cleared p start
  | succ rounds ih =>
    apply restoreVictims_keeps inside settled known put empty noted (fun _ held => ih held) _
      (cleared p start)
    intro v mem
    exact undone p start v.1 (mem_orderedVictims mem)

end Restore

theorem reaches_restoreConflicts {after : Pool → Txid → Pool × List Txid}
    (woken : ∀ (q : Pool) t, q.Reaches (after q t).1) (rounds : Nat) (p : Pool) :
    p.Reaches (restoreConflicts env after rounds p).1 := by
  apply restoreConflicts_keeps p.Reaches p.Reaches (fun _ => True)
  · intro q tx secs _ held
    have put : p.Reaches (q.reacceptAlreadyAdmitted env tx secs).1 :=
      held.trans (q.reaches_reaccept tx secs)
    exact ⟨put, fun r _ => put.trans (woken _ r.txid)⟩
  · exact fun q held _ => held
  · exact fun q t held => held.trans (Aside.reaches ⟨rfl, rfl, rfl, rfl⟩)
  · exact fun q held => held.trans (Aside.reaches ⟨rfl, rfl, rfl, rfl⟩)
  · exact fun _ _ _ _ => trivial
  · exact .refl

theorem parkOrphanFrom_frame (p : Pool) (env : Env) (tx : Transaction) (missing : Finset Txid)
    (announcer : Option Peer) :
    ∃ orphanage, (p.parkOrphanFrom env tx missing announcer).1 = { p with orphanage } := by
  unfold parkOrphanFrom
  split
  · exact ⟨p.orphanage, rfl⟩
  · split
    · cases announcer with
      | none => exact ⟨p.orphanage, rfl⟩
      | some peer => exact ⟨_, rfl⟩
    · split
      · exact ⟨p.orphanage, rfl⟩
      · exact ⟨_, rfl⟩

theorem parkOrphanFrom_aside (p : Pool) (missing : Finset Txid) (announcer : Option Peer) :
    p.Aside (p.parkOrphanFrom env tx missing announcer).1 := by
  obtain ⟨orphanage, same⟩ := p.parkOrphanFrom_frame env tx missing announcer
  rw [same]
  exact ⟨rfl, rfl, rfl, rfl⟩

theorem parkAnnounced_aside (p : Pool) (missing : Finset Txid) (announcers : List Peer) :
    p.Aside (p.parkAnnounced env tx missing announcers).1 := by
  unfold parkAnnounced
  dsimp only
  split
  · exact ⟨rfl, rfl, rfl, rfl⟩
  · have parked (o : Orphanage) (peer : Option Peer) :
        p.Aside ({ p with orphanage := o }.parkOrphanFrom env tx missing peer).1 :=
      { parkOrphanFrom_aside { p with orphanage := o } missing peer with }
    exact { parked _ _ with }

theorem pushAllChildren_aside (ids : List Txid) (queue : List OrphanSnapshot) (p : Pool) :
    p.Aside (pushAllChildren env p ids queue).1 := by
  induction ids generalizing p queue with
  | nil => exact ⟨rfl, rfl, rfl, rfl⟩
  | cons id ids ih =>
    obtain ⟨graph, bodies, store, maxWeight⟩ := ih (p.pushOrphanChildren env id queue).2
      (p.pushOrphanChildren env id queue).1
    exact ⟨graph, bodies, store, maxWeight⟩

theorem reaches_promoteChild (p : Pool) (rounds : Nat) (child : OrphanSnapshot)
    (queue : List OrphanSnapshot) : p.Reaches (p.promoteChild env rounds child queue).1 := by
  have tried : p.Reaches (p.acceptTxWith env child.tx 0 true none .on).1 :=
    p.reaches_acceptTxWith ..
  unfold promoteChild
  generalize p.acceptTxWith env child.tx 0 true none .on = out at tried
  obtain ⟨q, result⟩ := out
  cases result with
  | ok r => exact tried.trans (Aside.reaches ⟨rfl, rfl, rfl, rfl⟩)
  | error e =>
    have rest (r : Pool) (noted : q.Reaches r) : p.Reaches (pushAllChildren env
        (restoreDeferred env rounds r).1 (restoreDeferred env rounds r).2 queue).1 := by
      have kept (q : Pool) (id : Txid) : q.Reaches (q, [id]).1 := .refl
      have restored : r.Reaches (restoreDeferred env rounds r).1 :=
        reaches_restoreConflicts kept rounds r
      exact ((tried.trans noted).trans restored).trans (pushAllChildren_aside ..).reaches
    dsimp only
    split
    · exact rest _ (q.parkAnnounced_aside ..).reaches
    · exact rest _ (Aside.reaches ⟨rfl, rfl, rfl, rfl⟩)

theorem reaches_promoteWalk (rounds : Nat) (p : Pool) (queue : List OrphanSnapshot) :
    p.Reaches (promoteWalk env rounds p queue) := by
  induction rounds generalizing p queue with
  | zero => exact Aside.reaches ⟨rfl, rfl, rfl, rfl⟩
  | succ rounds ih =>
    cases queue with
    | nil => exact .refl
    | cons child queue => exact (p.reaches_promoteChild rounds child queue).trans (ih ..)

theorem reaches_promoteOrphansOf (p : Pool) (rounds : Nat) (parent : Txid) :
    p.Reaches (p.promoteOrphansOf env rounds parent) := by
  have pushed : p.Reaches (p.pushOrphanChildren env parent []).1 :=
    Aside.reaches ⟨rfl, rfl, rfl, rfl⟩
  exact pushed.trans (reaches_promoteWalk ..)

/-- An accept is a run of commits. -/
theorem reaches_acceptTx (p : Pool) (rounds : Nat) (tx : Transaction) :
    p.Reaches (p.acceptTx env rounds tx).1 := by
  have tried : p.Reaches (p.acceptTxWith env tx 0 true none .on).1 := p.reaches_acceptTxWith ..
  unfold acceptTx
  generalize p.acceptTxWith env tx 0 true none .on = out at tried
  obtain ⟨q, result⟩ := out
  cases result with
  | ok r => exact tried.trans (q.reaches_promoteOrphansOf ..)
  | error e =>
    refine tried.trans ?_
    dsimp only
    split
    · exact (q.parkOrphanFrom_aside ..).reaches
    · have restored : q.Reaches (q.restoreUndone env rounds) :=
        reaches_restoreConflicts (fun q t => q.reaches_promoteOrphansOf rounds t) rounds q
      exact restored.trans (reaches_noteAcceptFailure ..)

/-! ### Parking

What the pool does to its orphanage when it parks is what runs of the orphanage do. -/

theorem orphanage_parkOrphanFrom (p : Pool) (missing : Finset Txid) (announcer : Option Peer) :
    (p.parkOrphanFrom env tx missing announcer).1.orphanage =
      p.orphanage.parkOrphanFrom (p.graph.get tx.txid).isSome tx missing announcer
        env.clock.nowMs := by
  unfold parkOrphanFrom Orphanage.parkOrphanFrom Orphanage.missingOf Orphanage.contains
  cases (p.graph.get tx.txid).isSome with
  | true => rfl
  | false =>
    rcases p.orphanage.byTxid.lookup tx.txid with _ | e <;>
      rcases p.orphanage.containsWtxid tx.wtxid with _ | _
    case some.true => cases announcer <;> rfl
    all_goals
      by_cases none : missing = ∅
      · simp [Orphanage.insertFromAt, none]
      · simp [none]

theorem orphanage_parkAnnounced (p : Pool) (missing : Finset Txid) (announcers : List Peer) :
    (p.parkAnnounced env tx missing announcers).1.orphanage =
      p.orphanage.parkAnnounced (p.graph.get tx.txid).isSome tx missing announcers
        env.clock.nowMs := by
  unfold parkAnnounced Orphanage.parkAnnounced
  rcases p.orphanage.claimTaken tx.txid with ⟨o, _ | _ | peers⟩
  all_goals simp [orphanage_parkOrphanFrom, Orphanage.addAnnouncers]

/-! ### Blocks -/

/-- The live ones of a list leave. A write that fails ends it. -/
def unlinkListed : Pool → List Txid → Pool × Except AcceptError Nat
  | p, [] => (p, .ok 0)
  | p, t :: ts =>
    if p.graph.contains t then
      match p.unlinkTxid t with
      | (p, .error e) => (p, .error e)
      | (p, .ok ()) =>
        let (p, n) := unlinkListed p ts
        (p, n.map (· + 1))
    else unlinkListed p ts

/-- What a block confirms leaves, and what spends the same. The compaction that may follow is a
change from outside. -/
def removeBlockTxids (p : Pool) (txids : List Txid) (spent : List OutPoint) :
    Pool × Except AcceptError (Nat × List Txid) :=
  let (p, stripped) := p.unlinkListed txids
  let (p, gone) := p.unlinkConflicts spent
  (p, stripped.map (·, gone))

theorem reaches_unlinkListed (txids : List Txid) (p : Pool) :
    p.Reaches (p.unlinkListed txids).1 := by
  induction txids generalizing p with
  | nil => exact .refl
  | cons t ts ih =>
    have left := p.reaches_unlinkTxid t
    unfold unlinkListed
    split
    · generalize p.unlinkTxid t = out at left
      obtain ⟨q, _ | _⟩ := out
      · exact left
      · exact left.trans (ih q)
    · exact ih p

theorem reaches_removeBlockTxids (p : Pool) (txids : List Txid) (spent : List OutPoint) :
    p.Reaches (p.removeBlockTxids txids spent).1 :=
  unlinkConflicts_keeps _ (fun q t held => held.trans (q.reaches_unlinkTxid t))
    (reaches_unlinkListed txids p) spent

end Rbitcoin.Mempool.Pool
