import Rbitcoin.Mempool.Commit

/-! Slots and their owners over whole runs. Every live entry owns a live row that names it, as long
as the writes of the deaths do not fail: a death is recorded in memory before it is written, and a
failed write leaves the entry in the graph with a row that the next transaction can take. -/

namespace Rbitcoin.Mempool

open Ordered Option

namespace Store

variable {s : Store} {slot : Nat} {t t' : Txid}

theorem Owns.unique (first : s.Owns slot t) (second : s.Owns slot t') : t = t' := by
  obtain ⟨row, here, -, rfl⟩ := first
  obtain ⟨row', here', -, rfl⟩ := second
  rw [some.inj (here.symm.trans here')]

end Store

namespace Pool

variable {txidOf : Wtxid → Txid} {p q : Pool} {clock : Clock} {tx : Transaction}
  {prep : PreparedAdmit} {t : Txid}

/-- Exact indexes, one transaction for each wtxid, and a row for every live entry. -/
structure Owned (txidOf : Wtxid → Txid) (p : Pool) : Prop where
  exact : p.graph.Exact p.bodies
  ids : ∀ t e, p.graph.get t = some e → txidOf e.wtxid = t
  owns : ∀ t e, p.graph.get t = some e → p.store.Owns e.slot t

theorem Owned.slots (owned : p.Owned txidOf) (t : Txid) (e : TxEntry)
    (found : p.graph.get t = some e) : e.slot < p.store.slots.length :=
  (owned.owns t e found).lt

theorem Owned.unlinkTxid (owned : p.Owned txidOf)
    (can : ∀ e, p.graph.get t = some e → p.store.CanDie e.slot) :
    (p.unlinkTxid t).1.Owned txidOf := by
  have drops := (p.unlinkTxid_unlinks t).drops
  refine ⟨drops.exact owned.exact, ?_, ?_⟩
  · intro a e found
    obtain ⟨e', before, same⟩ := drops.entry found
    rw [same.wtxid]
    exact owned.ids a e' before
  · unfold Pool.unlinkTxid
    cases found : p.graph.get t with
    | none => exact owned.owns
    | some e =>
      dsimp only
      split
      · exact owned.owns
      · next body _ =>
        have dies := Store.markSlotDead_dies (owned.slots t e found) (can e found)
        obtain ⟨-, rest, -⟩ := p.store.markSlotDead_rest e.slot
        have others : ∀ slot a, slot ≠ e.slot → p.store.Owns slot a →
            (p.store.markSlotDead e.slot).1.Owns slot a := by
          rintro slot a other ⟨row, here, live, named⟩
          exact ⟨row, (rest slot other).trans here, live, named⟩
        generalize p.store.markSlotDead e.slot = out at dies others
        obtain ⟨store, result⟩ := out
        obtain rfl : result = .ok () := dies
        intro a n left
        obtain ⟨other, n', before, same⟩ := TxGraph.remove_get_some found left
        rw [same.slot]
        refine others n'.slot a (fun shared => other ?_) (owned.owns a n' before)
        exact (owned.owns a n' before).unique (shared ▸ owned.owns t e found)

/-- And no write to come fails. -/
structure Healthy (txidOf : Wtxid → Txid) (p : Pool) : Prop extends Owned txidOf p where
  io : ∀ ok ∈ p.store.io, ok = true

section

variable (healthy : p.Healthy txidOf)
include healthy

theorem Healthy.unlinkTxid (t : Txid) : (p.unlinkTxid t).1.Healthy txidOf :=
  ⟨healthy.toOwned.unlinkTxid fun e _ => Store.canDie_of_io healthy.io e.slot,
    (unlinkTxid_gone healthy.exact.live healthy.slots healthy.io t).2⟩

theorem Healthy.beside (beside : p.Beside q) : q.Healthy txidOf := by
  obtain ⟨graph, bodies, grows, -, -⟩ := beside
  refine ⟨⟨?_, ?_, fun t e found => ?_⟩, fun ok mem => healthy.io ok (grows.io ok mem)⟩
  · rw [graph, bodies]
    exact healthy.exact
  · rw [graph]
    exact healthy.ids
  · rw [graph] at found
    exact grows.owns e.slot t (healthy.owns t e found)

theorem Healthy.replaced (set : Finset Txid) : (p.replaced set).Healthy txidOf :=
  (p.cleared.keepReplaced set).unlinkAll_keeps (fun _ t healthy => healthy.unlinkTxid t)
    (healthy.beside ⟨rfl, rfl, .refl _, rfl, rfl⟩) _

theorem Healthy.insertLive {slot : Nat} (owns : p.store.Owns slot prep.txid)
    (hash : txidOf prep.wtxid = prep.txid) (ok : p.graph.Insertable (entryOf prep slot) tx) :
    (p.insertLive tx prep slot).Healthy txidOf := by
  have entry : ∀ a e, (p.insertLive tx prep slot).graph.get a = some e →
      txidOf e.wtxid = a ∧ p.store.Owns e.slot a := by
    intro a e found
    rcases TxGraph.insert_get_some found with ⟨rfl, same⟩ | ⟨n, before, same⟩
    · rw [same.wtxid, same.slot]
      exact ⟨hash, owns⟩
    · rw [same.wtxid, same.slot]
      exact ⟨healthy.ids a n before, healthy.owns a n before⟩
  exact ⟨⟨healthy.exact.insert ok, fun a e found => (entry a e found).1,
    fun a e found => (entry a e found).2⟩, healthy.io⟩

theorem Healthy.finishInsert (trim : Bool) (set : Finset Txid) (kept evicted : List Txid)
    (slot acceptSecs : Nat) :
    (p.finishInsert clock prep trim set kept evicted slot acceptSecs).1.Healthy txidOf := by
  obtain ⟨q, trimmed, beside, -⟩ :=
    p.finishInsert_cases clock prep trim set kept evicted slot acceptSecs
  refine Healthy.beside ?_ beside
  rw [trimmed]
  split
  · exact p.evictRounds_keeps clock _ (fun _ t healthy => healthy.unlinkTxid t)
      (fun _ _ same _ healthy => healthy.beside same) healthy _ _
  · exact healthy

theorem Healthy.commitReplaced (hash : txidOf prep.wtxid = prep.txid)
    (ok : ∀ mid slot, p.Shrinks mid → mid.graph.Insertable (entryOf prep slot) tx) (trim : Bool)
    (set : Finset Txid) (kept : List Txid) :
    (p.commitReplaced clock tx prep trim set kept).1.Healthy txidOf := by
  have unlink (q : Pool) (t : Txid) (held : p.Shrinks q ∧ q.Healthy txidOf) :
      p.Shrinks (q.unlinkTxid t).1 ∧ (q.unlinkTxid t).1.Healthy txidOf :=
    ⟨held.1.trans (q.unlinkTxid_unlinks t).toShrinks, held.2.unlinkTxid t⟩
  obtain ⟨q, e, ⟨-, reached⟩, -, eq⟩ | ⟨q, slot, evicted, secs, ⟨shrinks, reached⟩, owns, eq⟩ :=
    p.commitReplaced_reaches clock tx prep trim set unlink
      (fun _ _ same _ held => ⟨held.1.trans same.shrinks, held.2.beside same⟩)
      ⟨.refl p, healthy⟩ kept
  · rw [eq]
    exact reached
  · rw [eq]
    exact (reached.insertLive owns hash (ok q slot shrinks)).finishInsert ..

theorem Healthy.finishCommit (hash : txidOf prep.wtxid = prep.txid)
    (own : ∀ op ∈ tx.input, op.txid ≠ prep.txid) (trim : Bool) :
    (p.finishCommit clock tx prep trim).1.Healthy txidOf := by
  unfold Pool.finishCommit
  cases plan : p.cleared.planAfterScript clock tx prep with
  | error e => exact healthy.beside ⟨rfl, rfl, .refl _, rfl, rfl⟩
  | ok out =>
    obtain ⟨scan, sibling, set, planned, rfl⟩ := planned_of_ok plan
    refine (healthy.replaced set).commitReplaced hash ?_ trim set _
    intro mid slot shrinks
    refine insertable healthy.exact healthy.ids planned ((p.replaced_shrinks set).trans shrinks) ?_
      own hash
    intro c mem
    exact shrinks.drops.gone (replaced_gone healthy.exact healthy.slots healthy.io mem)

end

/-- Graph and slot table agree, and no coin is spent twice. -/
structure Consistent (p : Pool) : Prop where
  owned : ∀ t e, p.graph.get t = some e → p.store.Owns e.slot t
  apart : ∀ t t' e e', p.graph.get t = some e → p.graph.get t' = some e' → e.slot = e'.slot → t = t'
  spends : ∀ t t' op, p.bodies.Spends t op → p.bodies.Spends t' op → t = t'

theorem Owned.consistent (owned : p.Owned txidOf) : p.Consistent where
  owned := owned.owns
  apart t t' e e' found found' same :=
    (owned.owns t e found).unique (same ▸ owned.owns t' e' found')
  spends t t' op spent spent' := by
    have first := (owned.exact.conflicts op t).mpr spent
    have second := (owned.exact.conflicts op t').mpr spent'
    exact some.inj (first.symm.trans second)

/-- What hashing gives. Between the calls live rows stay, whatever of them reaches the disk. -/
def Hashed (txidOf : Wtxid → Txid) (p : Pool) : PoolCall → Prop
  | .commit _ tx prep _ => txidOf prep.wtxid = prep.txid ∧ ∀ op ∈ tx.input, op.txid ≠ prep.txid
  | .unlink _ => True
  | .outside q => p.Kept q ∧
      (∀ t e', q.graph.get t = some e' → ∃ e, p.graph.get t = some e ∧ e'.slot = e.slot) ∧
      ∀ slot t, p.store.Owns slot t → q.store.Owns slot t

/-- No death that the call has to write fails. -/
def Written (p : Pool) : PoolCall → Prop
  | .commit _ _ _ _ => ∀ ok ∈ p.store.io, ok = true
  | .unlink txid => ∀ e, p.graph.get txid = some e → p.store.CanDie e.slot
  | .outside _ => True

theorem call_owned {c : PoolCall} (owned : p.Owned txidOf) (hashed : p.Hashed txidOf c)
    (written : p.Written c) : (p.call c).Owned txidOf := by
  cases c with
  | commit clock tx prep trim =>
    have healthy : p.Healthy txidOf := ⟨owned, written⟩
    exact (healthy.finishCommit hashed.1 hashed.2 trim).toOwned
  | unlink txid => exact owned.unlinkTxid written
  | outside q =>
    obtain ⟨kept, slots, rows⟩ := hashed
    refine ⟨kept.exact owned.exact, ?_, ?_⟩
    · intro t e found
      obtain ⟨e', before, wtxid, -⟩ := kept.entry t e found
      rw [wtxid]
      exact owned.ids t e' before
    · intro t e found
      obtain ⟨e', before, same⟩ := slots t e found
      rw [same]
      exact rows _ t (owned.owns t e' before)

theorem Owned.of_none (exact : p.graph.Exact p.bodies) (none : ∀ t, p.graph.get t = none) :
    p.Owned txidOf := by
  refine ⟨exact, ?_, ?_⟩
  · intro t e found
    cases (none t).symm.trans found
  · intro t e found
    cases (none t).symm.trans found

/-- In every run in which no death that has to be written fails, graph and slot table agree. -/
theorem slots_consistent (txidOf : Wtxid → Txid) (clusterCountLimit clusterVsizeLimit bytesPerSigop
      slots maxWeight minRelaySatKvb : Nat) (calls : List PoolCall)
    (all : Run.AllMeet call (fun p c => p.Hashed txidOf c ∧ p.Written c)
      (fresh clusterCountLimit clusterVsizeLimit bytesPerSigop slots maxWeight minRelaySatKvb)
      calls) :
    ((fresh clusterCountLimit clusterVsizeLimit bytesPerSigop slots maxWeight
      minRelaySatKvb).run calls).Consistent := by
  have owned := all.invariant (Owned txidOf) (fun p c owned met => call_owned owned met.1 met.2)
    (.of_none (fresh_exact ..) fun _ => fresh_get ..)
  exact owned.consistent

/-- All records reach the disk, and the outcomes of the writes after it are these. -/
def persist (p : Pool) (io : List Bool) : PoolCall :=
  .outside { p with
    store := { p.store with
      slots := p.store.slots.map fun row => { row with persisted := true }
      io } }

theorem hashed_persist (io : List Bool) : p.Hashed txidOf (p.persist io) := by
  refine ⟨⟨rfl, fun t e found => ⟨e, found, rfl, rfl, rfl, rfl⟩, .refl _, id⟩,
    fun t e found => ⟨e, found, rfl⟩, ?_⟩
  rintro slot t ⟨row, here, live, named⟩
  refine ⟨{ row with persisted := true }, ?_, live, named⟩
  exact (List.getElem?_map ..).trans (congrArg _ here)

/-- A payment that a later one replaces, and the removal of that one, with every write done. -/
theorem slots_consistent_replaced :
    let p₀ := fresh 64 101000 20 4 300000000 100
    let pre := [payment 1 ⟨100, 0⟩ 1000 400]
    (p₀.run (pre ++ [(p₀.run pre).persist [true, true], payment 2 ⟨100, 0⟩ 2000 400,
      .unlink 2])).Consistent := by
  intro p₀ pre
  refine slots_consistent (· - 10) 64 101000 20 4 300000000 100 _ ⟨⟨⟨rfl, by decide⟩, ?_⟩,
    ⟨hashed_persist _, trivial⟩, ⟨⟨rfl, by decide⟩, ?_⟩, ⟨trivial, ?_⟩, trivial⟩
  · show ∀ ok ∈ p₀.store.io, ok = true
    decide
  · show ∀ ok ∈ (p₀.run (pre ++ [(p₀.run pre).persist [true, true]])).store.io, ok = true
    decide +kernel
  · intro e _ row _ _ _
    decide +kernel

/-- The death of a replaced payment is not written: it stays in the graph, its row goes to the
payment that replaces it, and both spend the coin. -/
theorem slots_not_consistent :
    let p₀ := fresh 64 101000 20 4 300000000 100
    let pre := [payment 1 ⟨100, 0⟩ 1000 400]
    let calls := pre ++ [(p₀.run pre).persist [false], payment 2 ⟨100, 0⟩ 2000 400]
    let p := p₀.run calls
    Run.AllMeet call (Hashed (· - 10)) p₀ calls ∧
      ¬(∀ t e, p.graph.get t = some e → p.store.Owns e.slot t) ∧
      ¬(∀ t t' e e', p.graph.get t = some e → p.graph.get t' = some e' → e.slot = e'.slot →
        t = t') ∧
      ¬∀ t t' op, p.bodies.Spends t op → p.bodies.Spends t' op → t = t' := by
  intro p₀ pre calls p
  have spends : (p.bodies.lookup 1).any (⟨100, 0⟩ ∈ ·.input) = true ∧
      (p.bodies.lookup 2).any (⟨100, 0⟩ ∈ ·.input) = true := by decide +kernel
  have slots : (p.graph.get 1).map (·.slot) = some 0 ∧ (p.graph.get 2).map (·.slot) = some 0 ∧
      (p.store.slots[0]?).map (·.txid) = some 2 := by decide +kernel
  obtain ⟨first, second, row⟩ := slots
  obtain ⟨e, found, slot⟩ := map_eq_some_iff.mp first
  obtain ⟨e', found', slot'⟩ := map_eq_some_iff.mp second
  refine ⟨⟨⟨rfl, by decide⟩, hashed_persist _, ⟨rfl, by decide⟩, trivial⟩, ?_, ?_, ?_⟩
  · intro owned
    obtain ⟨r, here, -, named⟩ := owned 1 e found
    rw [slot] at here
    rw [here, map_some, named] at row
    cases row
  · intro apart
    cases apart 1 2 e e' found found' (slot.trans slot'.symm)
  · intro alone
    obtain ⟨tx, body, spent⟩ := (any_eq_true _ _).mp spends.1
    obtain ⟨tx', body', spent'⟩ := (any_eq_true _ _).mp spends.2
    cases alone 1 2 ⟨100, 0⟩ ⟨tx, body, of_decide_eq_true spent⟩
      ⟨tx', body', of_decide_eq_true spent'⟩

end Pool

end Rbitcoin.Mempool
