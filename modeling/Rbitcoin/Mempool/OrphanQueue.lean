import Rbitcoin.Mempool.OrphanRuns

/-! The queue of the orphanage. A place in it stays when its orphan leaves by another way than
eviction, so an orphan that comes back takes its old place. When no old place is left at a parking,
the places of what is parked stand in the order of parking, and eviction takes the oldest. -/

namespace Rbitcoin.Mempool

open Ordered List

namespace Orphanage

variable {o o' : Orphanage}

theorem trims_addAnnouncer (o : Orphanage) (txid : Txid) (peer : Peer) :
    Trims o (o.addAnnouncer txid peer) := by
  unfold addAnnouncer
  cases found : o.byTxid.lookup txid with
  | none => exact .refl o
  | some e =>
    dsimp only
    split
    · exact .refl o
    · refine .of_fifo rfl fun t there => ?_
      change ((o.byTxid.insert txid _).lookup t).isSome at there
      rw [Map.lookup_insert] at there
      split at there
      · next same => rw [same, contains, found]; rfl
      · exact there

theorem trims_takeChildren (parent : Txid) (l : List Txid) (o : Orphanage) :
    Trims o (takeChildren parent o l).1 := by
  induction l generalizing o with
  | nil => exact .refl o
  | cons cid l ih =>
    refine Trims.trans ?_ (ih (o.takeChild parent cid).1)
    unfold takeChild
    cases found : o.byTxid.lookup cid with
    | none => exact .refl o
    | some e =>
      dsimp only
      rw [unaccount_eq, foldl_unlistChild]
      exact .of_fifo rfl (shrinks_without o cid e []).contains

theorem trims_foldl_withdraw (peer : Peer) (l : List Txid) (o : Orphanage) :
    Trims o (l.foldl (withdraw · peer) o) := by
  induction l generalizing o with
  | nil => exact .refl o
  | cons txid l ih => exact (trims_withdraw o peer txid).trans (ih _)

/-- A call without a transaction parks nothing. -/
theorem trims_apply (order : Finset Txid → List Txid) (o : Orphanage) {op : Op}
    (plain : op.tx? = none) : Trims o (o.apply order op) := by
  cases op with
  | insert | deliver | repark => cases plain
  | announce txid peer => exact trims_addAnnouncer o txid peer
  | announceWtxid wtxid peer =>
    simp only [apply, addAnnouncerWtxid]
    split
    · exact .refl o
    · exact trims_addAnnouncer o _ peer
  | takeChildren parent =>
    simp only [apply, takeChildrenOf]
    split
    · exact .refl o
    · refine Trims.trans ?_ (trims_takeChildren parent _ _)
      exact .of_fifo rfl fun _ => id
  | lift txid =>
    simp only [apply, liftParkedMember]
    split
    · exact .refl o
    · exact (reduces_removeTxid o txid).toTrims.trans (.of_fifo rfl fun _ => id)
  | take txid => exact (reduces_removeTxid o txid).toTrims
  | expire nowMs => exact (reduces_expire o nowMs).toTrims
  | evictFromPeer peer => exact (reduces_evictOneFromPeer o peer).toTrims
  | evictOldest => exact (reduces_evictOldest o).toTrims
  | eraseForPeer peer =>
    have left (hit last : List Txid) :=
      (trims_foldl_withdraw peer hit o).trans (reduces_foldl_removeTxid last _).retain.toTrims
    exact (left _ _).trans (.of_fifo rfl fun _ => id)
  | eraseForBlock blockTxids => exact (reduces_eraseForBlock o blockTxids).toTrims
  | forget txid gen =>
    simp only [apply, forgetTakenGen]
    split
    · exact .of_fifo rfl fun _ => id
    · exact .refl o

theorem insertFromAt_spec (o : Orphanage) (tx : Transaction) (missing : Finset Txid)
    (announcer : Option Peer) (nowMs : Nat) :
    ∃ o', Trims o o' ∧ (o.insertFromAt tx missing announcer nowMs = (o', false) ∨
      o.insertFromAt tx missing announcer nowMs = (o'.park tx missing announcer nowMs, true)) := by
  have expired := (reduces_expire o nowMs).toTrims
  have roomy {o₁ : Orphanage} (before : Trims o o₁) : ∃ o', Trims o o' ∧
      (o₁.insertRoomy tx missing announcer nowMs = (o', false) ∨
        o₁.insertRoomy tx missing announcer nowMs =
          (o'.park tx missing announcer nowMs, true)) := by
    obtain ⟨o', reduces, refused | ⟨-, -, parked⟩⟩ := insertRoomy_spec o₁ tx missing announcer nowMs
    · exact ⟨o', before.trans reduces.toTrims, .inl refused⟩
    · exact ⟨o', before.trans reduces.toTrims, .inr parked⟩
  unfold insertFromAt
  split
  · exact ⟨o, .refl o, .inl rfl⟩
  · dsimp only
    split
    · split
      · refine ⟨_, ?_, .inl rfl⟩
        cases announcer with
        | none => exact expired
        | some peer => exact expired.trans (trims_addAnnouncer _ _ peer)
      · exact roomy (expired.trans (reduces_removeTxid _ _).toTrims)
    · exact roomy expired

/-- The states that calls lead to, with what is parked in the order in which it was parked last. A
lifted orphan comes back when its note goes, it is inserted and its peers are added. Whether it may
be parked while its id has an old place in the queue is up to `again`. -/
inductive History (order : Finset Txid → List Txid) (again : Prop) : Orphanage → List Txid → Prop
  | start (maxWeight maxCount : Nat) : History order again (withLimits maxWeight maxCount) []
  | call {o ages} (before : History order again o ages) {op : Op} (plain : op.tx? = none) :
      History order again (o.apply order op) (ages.filter (o.apply order op).contains)
  | claim {o ages} (before : History order again o ages) (txid : Txid) :
      History order again (o.claimTaken txid).1 ages
  | refuse {o ages} (before : History order again o ages) {tx missing announcer nowMs o'}
      (refused : o.insertFromAt tx missing announcer nowMs = (o', false)) :
      History order again o' (ages.filter o'.contains)
  | park {o ages} (before : History order again o ages) {tx missing announcer nowMs o'}
      (parked : o.insertFromAt tx missing announcer nowMs = (o', true))
      (fresh : tx.txid ∈ o.fifo → again) :
      History order again o' (ages.filter (fun t => o'.contains t ∧ t ≠ tx.txid) ++ [tx.txid])

variable {ages : List Txid} {order : Finset Txid → List Txid}

/-- What is parked is listed, and the queue has the same order, old places apart. -/
def Placed (o : Orphanage) (ages : List Txid) : Prop :=
  (∀ t, o.contains t → t ∈ ages) ∧ o.fifo.filter o.contains = ages

theorem Placed.trims (placed : Placed o ages) (trims : Trims o o') :
    Placed o' (ages.filter o'.contains) := by
  refine ⟨fun t there => mem_filter.mpr ⟨placed.1 t (trims.parked t there), there⟩, ?_⟩
  rw [trims.places, ← placed.2, filter_filter_of_imp trims.parked]

theorem Placed.park (placed : Placed o ages) (trims : Trims o o') {tx : Transaction}
    (fresh : tx.txid ∉ o.fifo) (missing : Finset Txid) (announcer : Option Peer) (nowMs : Nat) :
    Placed (o'.park tx missing announcer nowMs) (ages.filter (fun t =>
      (o'.park tx missing announcer nowMs).contains t ∧ t ≠ tx.txid) ++ [tx.txid]) := by
  have parked (t : Txid) : (o'.park tx missing announcer nowMs).contains t =
      (decide (t = tx.txid) || o'.contains t) := by
    rw [park_eq, contains, Map.lookup_insert, contains]
    split <;> simp [*]
  have queue : (o'.park tx missing announcer nowMs).fifo = o'.fifo ++ [tx.txid] := by rw [park_eq]
  have other {t : Txid} (mem : t ∈ o.fifo) : t ≠ tx.txid := fun same => fresh (same ▸ mem)
  have before {t : Txid} (there : (o'.park tx missing announcer nowMs).contains t ∧ t ≠ tx.txid) :
      o.contains t := trims.parked t (by simpa [parked, there.2] using there.1)
  refine ⟨fun t there => ?_, ?_⟩
  · by_cases same : t = tx.txid
    · simp [same]
    · simp [there, same, placed.1 t (before ⟨there, same⟩)]
  · have left : o'.fifo.filter (o'.park tx missing announcer nowMs).contains =
        o'.fifo.filter o'.contains :=
      filter_congr fun t mem => by simp [parked, other (trims.queue mem)]
    rw [queue, filter_append, left, trims.places, ← placed.2, filter_filter_of_imp]
    · congr 1
      · exact filter_congr fun t mem => by simp [parked, other mem]
      · simp [parked]
    · exact fun t there => before (by simpa using there)

theorem History.placed (history : History order False o ages) : Placed o ages := by
  induction history with
  | start maxWeight maxCount => exact ⟨nofun, rfl⟩
  | @call o ages before op plain ih => exact ih.trims (trims_apply order o plain)
  | @claim o ages before txid ih =>
    unfold claimTaken
    split
    · exact ih
    · exact ih
  | @refuse o ages before tx missing announcer nowMs o' refused ih =>
    obtain ⟨o₁, trims, same | same⟩ := insertFromAt_spec o tx missing announcer nowMs
    · cases refused.symm.trans same
      exact ih.trims trims
    · cases refused.symm.trans same
  | @park o ages before tx missing announcer nowMs o' parked fresh ih =>
    obtain ⟨o₁, trims, same | same⟩ := insertFromAt_spec o tx missing announcer nowMs
    · cases parked.symm.trans same
    · cases parked.symm.trans same
      exact ih.park trims fresh missing announcer nowMs

/-- The first in the queue that may go is taken out, if there is one. -/
theorem evictOldestFiltered_cases (o : Orphanage) (honorReserve : Bool) :
    let free := (o.fifo.filter o.contains).find? fun s =>
      !(honorReserve && o.announcersWithinReserve s)
    free = none ∧ o.evictOldestFiltered honorReserve =
        ({ o with fifo := o.fifo.filter o.contains }, false) ∨
      ∃ x o', free = some x ∧ o.evictOldestFiltered honorReserve = (o', true) ∧
        o'.contains x = false ∧ ∀ t, t ≠ x → o'.contains t = o.contains t := by
  intro free
  have stay {l : List Txid}
      (all : ∀ s ∈ l, o.contains s → honorReserve && o.announcersWithinReserve s) :
      (l.filter o.contains).find? (fun s => !(honorReserve && o.announcersWithinReserve s)) =
        none := by
    refine find?_eq_none.mpr fun s mem => ?_
    obtain ⟨mem, there⟩ := mem_filter.mp mem
    rw [all s mem there]
    exact Bool.false_ne_true
  rcases evictFrom_cases honorReserve o [] o.fifo with
    ⟨all, same⟩ | ⟨before, x, after, queue, there, goes, all, same⟩
  · exact .inl ⟨stay all, same⟩
  · refine .inr ⟨x, _, ?_, same, by simp [contains, lookup_removeTxid], fun t other => ?_⟩
    · simp only [free, queue, filter_append, find?_append, stay all, filter_cons, there, if_true,
        find?_cons, goes]
      rfl
    · simp [contains, lookup_removeTxid, other]

/-- An orphan that is evicted is the one parked first of those beyond the reserve, or of all when
none is. -/
theorem evictOldest_first (history : History order False o ages) {t : Txid} (was : o.contains t)
    (gone : o.evictOldest.1.contains t = false) :
    (∀ s, s ∈ ages ↔ o.contains s) ∧
      (ages.find? (fun s => !o.announcersWithinReserve s) = some t ∨
        (∀ s ∈ ages, o.announcersWithinReserve s) ∧ ages.head? = some t) := by
  obtain ⟨listed, rfl⟩ := history.placed
  refine ⟨fun s => ⟨fun mem => (mem_filter.mp mem).2, listed s⟩, ?_⟩
  have only {x : Txid} (kept : t ≠ x → o.evictOldest.1.contains t = o.contains t) : t = x := by
    by_contra other
    cases was.symm.trans ((kept other).symm.trans gone)
  unfold evictOldest at gone only
  obtain ⟨none, same⟩ | ⟨x, o', first, same, -, kept⟩ := evictOldestFiltered_cases o true
  · refine .inr ⟨by simpa using find?_eq_none.mp none, ?_⟩
    rw [same] at gone only
    dsimp only at gone only
    obtain ⟨-, same⟩ | ⟨x, o', first, same, -, kept⟩ :=
      evictOldestFiltered_cases { o with fifo := o.fifo.filter o.contains } false
    · rw [same] at gone
      cases was.symm.trans gone
    · rw [same] at only
      rw [only (kept t), ← first]
      change _ = ((o.fifo.filter o.contains).filter o.contains).find? fun _ => true
      rw [filter_filter_of_imp fun _ => id]
      cases o.fifo.filter o.contains <;> rfl
  · rw [same] at only
    rw [only (kept t)]
    exact .inl first

def laterTx : Transaction := { waitingTx with txid := 10, wtxid := 11 }

def twoParked : Orphanage :=
  [Op.insert waitingTx {7} none 0, .insert laterTx {7} none 0].foldl (apply ascending)
    (withLimits 0 2)

theorem history_twoParked (again : Prop) :
    ∃ ages, History ascending again twoParked ages ∧ ages = [5, 10] := by
  have parked : (withLimits 0 2).insertFromAt waitingTx {7} none 0 = (_, true) :=
    Prod.ext rfl (by decide +kernel)
  have one : History ascending again _ _ := (History.start 0 2).park parked fun mem => nomatch mem
  refine ⟨_, one.park (Prod.ext rfl ?_) fun mem => absurd mem ?_, ?_⟩ <;> decide +kernel

/-- An orphan that is taken and comes back is evicted in its old place, before one that was parked
earlier. -/
theorem evictOldest_returned : ∃ o ages, History ascending True o ages ∧ o.contains 5 ∧
    o.evictOldest.1.contains 5 = false ∧
    ages.find? (fun s => !o.announcersWithinReserve s) = some 10 := by
  obtain ⟨_, parked, rfl⟩ := history_twoParked True
  have taken := parked.call (show (Op.take 5).tx? = none from rfl)
  have back : (twoParked.removeTxid 5).insertFromAt waitingTx {7} none 0 = (_, true) :=
    Prod.ext rfl (by decide +kernel)
  exact ⟨_, _, taken.park back fun _ => trivial, by decide +kernel⟩

theorem evictOldest_first_twoParked : twoParked.evictOldest.1.contains 5 = false ∧
      [5, 10].find? (fun s => !twoParked.announcersWithinReserve s) = some 5 := by
  obtain ⟨_, parked, rfl⟩ := history_twoParked False
  have was : twoParked.contains 5 := by decide +kernel
  have gone : twoParked.evictOldest.1.contains 5 = false := by decide +kernel
  obtain ⟨-, first | ⟨all, -⟩⟩ := evictOldest_first parked was gone
  · exact ⟨gone, first⟩
  · exact absurd (all 5 mem_cons_self) (by decide +kernel)

end Orphanage

end Rbitcoin.Mempool
