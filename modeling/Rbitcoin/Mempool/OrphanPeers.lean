import Rbitcoin.Lib.Run
import Rbitcoin.Mempool.OrphanRuns

/-! Peers that disconnect while orphans are out. An orphan that is lifted keeps the list of its
announcers outside the orphanage, and a disconnect edits the note of the lift instead. There is one
note for a txid, so the note of a first lift is lost when the same transaction is delivered and
lifted again; the first is then parked under the peers that it was taken with. -/

namespace Rbitcoin.Mempool

open Ordered Orphanage Finset

namespace Orphanage

variable {o o' o'' : Orphanage}

variable {peers : Peer → Prop}

theorem adds_takeChild (o : Orphanage) (parent cid : Txid) :
    Adds peers o (o.takeChild parent cid).1 := by
  unfold takeChild
  cases found : o.byTxid.lookup cid with
  | none => exact Adds.refl peers o
  | some e =>
    dsimp only
    rw [unaccount_eq, foldl_unlistChild]
    exact adds_noteTaken (shrinks_without o cid e _) found

theorem adds_takeChildren (parent : Txid) (l : List Txid) (o : Orphanage) :
    Adds peers o (takeChildren parent o l).1 := by
  induction l generalizing o with
  | nil => exact Adds.refl peers o
  | cons cid l ih => exact (adds_takeChild o parent cid).trans (ih _)

theorem adds_takeChildrenOf (o : Orphanage) (order : Finset Txid → List Txid) (parent : Txid) :
    Adds peers o (o.takeChildrenOf order parent).1 := by
  unfold takeChildrenOf
  split
  · exact Adds.refl peers o
  · have rows : Adds peers o { o with byParent := o.byParent.erase parent } := fun _ => .inr
    exact rows.trans (adds_takeChildren parent _ _)

theorem withdraw_announcers (peer : Peer) (t : TakenOrphan) :
    (t.withdraw peer).announcers = t.announcers.erase peer := by
  unfold TakenOrphan.withdraw
  split
  · rfl
  · next other => exact (erase_eq_of_notMem other).symm

theorem shrinks_foldl_withdraw (peer : Peer) (l : List Txid) (o : Orphanage) :
    Shrinks o (l.foldl (withdraw · peer) o) := by
  induction l generalizing o with
  | nil => exact Shrinks.refl o
  | cons txid l ih => exact (shrinks_withdraw o peer txid).trans (ih _)

theorem withdraw_withdraw (peer : Peer) (t : TakenOrphan) :
    (t.withdraw peer).withdraw peer = t.withdraw peer := by
  rw [TakenOrphan.withdraw, if_neg]
  rw [withdraw_announcers]
  exact notMem_erase _ _

theorem taken_eraseForPeer (o : Orphanage) (peer : Peer) : (o.eraseForPeer peer).taken =
      o.taken.modifyAll (ascending o.taken.keys) (TakenOrphan.withdraw peer) := by
  unfold eraseForPeer
  dsimp only
  rw [((shrinks_foldl_withdraw peer _ o).trans (reduces_foldl_removeTxid _ _).toShrinks).taken]

theorem mentions_eraseForPeer {peer p : Peer} (mentions : (o.eraseForPeer peer).Mentions p) :
    p ≠ peer ∧ o.Mentions p := by
  obtain ⟨txid, e', found, lists⟩ | ⟨txid, t', found, lists⟩ := mentions
  · obtain ⟨e, there, sub⟩ := (reduces_foldl_removeTxid _ _).entries txid e' found
    rw [foldl_withdraw_byTxid, Map.lookup_modifyAll _ (by simp [leaves])] at there
    split at there
    · obtain ⟨x, before, rfl⟩ := Option.map_eq_some_iff.mp there
      obtain ⟨other, listed⟩ := mem_erase.mp (sub lists)
      exact ⟨other, .inl ⟨txid, x, before, listed⟩⟩
    · next unhit =>
      refine ⟨?_, .inl ⟨txid, e, there, sub lists⟩⟩
      rintro rfl
      exact unhit ((mem_hit o p).mpr ⟨e, there, sub lists⟩)
  · rw [taken_eraseForPeer, Map.lookup_modifyAll _ (withdraw_withdraw peer)] at found
    split at found
    · obtain ⟨t, before, rfl⟩ := Option.map_eq_some_iff.mp found
      rw [withdraw_announcers] at lists
      obtain ⟨other, listed⟩ := mem_erase.mp lists
      exact ⟨other, .inr ⟨txid, t, before, listed⟩⟩
    · next missing =>
      rw [mem_ascending, Finmap.mem_keys, ← Finmap.lookup_isSome, found] at missing
      exact absurd rfl missing

end Orphanage

/-- The orphanage, the orphans that are out of it for a new try, and the peers that have
disconnected and not announced anything since. -/
structure OrphanRelay where
  orphanage : Orphanage
  out : List OrphanSnapshot
  gone : Finset Peer

namespace OrphanRelay

/-- What peers, blocks and the node itself do. -/
inductive Act
  | deliver (live : Bool) (tx : Transaction) (missing : Finset Txid) (announcer : Option Peer)
      (nowMs : Nat)
  | announce (txid : Txid) (peer : Peer)
  | announceWtxid (wtxid : Wtxid) (peer : Peer)
  | takeChildren (parent : Txid)
  | lift (txid : Txid)
  | disconnect (peer : Peer)
  /-- The orphan at a place of those that are out still misses parents. -/
  | repark (place : Nat) (live : Bool) (missing : Finset Txid) (nowMs : Nat)
  /-- It was admitted, or refused for good. -/
  | settle (place : Nat)
  | expire (nowMs : Nat)
  | confirm (blockTxids : List Txid)

def step (order : Finset Txid → List Txid) (s : OrphanRelay) : Act → OrphanRelay
  | .deliver live tx missing announcer nowMs =>
    { s with
      orphanage := s.orphanage.parkOrphanFrom live tx missing announcer nowMs
      gone := s.gone \ announcer.toFinset }
  | .announce txid peer =>
    { s with orphanage := s.orphanage.addAnnouncer txid peer, gone := s.gone.erase peer }
  | .announceWtxid wtxid peer =>
    { s with orphanage := s.orphanage.addAnnouncerWtxid wtxid peer, gone := s.gone.erase peer }
  | .takeChildren parent =>
    let (orphanage, children) := s.orphanage.takeChildrenOf order parent
    { s with orphanage, out := s.out ++ children }
  | .lift txid =>
    let (orphanage, lifted) := s.orphanage.liftParkedMember txid
    { s with orphanage, out := s.out ++ lifted.toList }
  | .disconnect peer =>
    { s with orphanage := s.orphanage.eraseForPeer peer, gone := insert peer s.gone }
  | .repark place live missing nowMs =>
    match s.out[place]? with
    | none => s
    | some item =>
      { s with
        orphanage := s.orphanage.parkAnnounced live item.tx missing item.announcers nowMs
        out := s.out.eraseIdx place }
  | .settle place =>
    match s.out[place]? with
    | none => s
    | some item =>
      { s with
        orphanage := s.orphanage.forgetTakenGen item.tx.txid item.takenGen
        out := s.out.eraseIdx place }
  | .expire nowMs => { s with orphanage := s.orphanage.expire nowMs }
  | .confirm blockTxids => { s with orphanage := s.orphanage.eraseForBlock blockTxids }

def start (maxWeight maxCount : Nat) : OrphanRelay := ⟨.withLimits maxWeight maxCount, [], ∅⟩

/-- An orphan is parked again while there is still a note for it, or while none of the peers that it
was taken with is gone. -/
def Noted (s : OrphanRelay) : Act → Prop
  | .repark place .. => ∀ item, s.out[place]? = some item →
    (s.orphanage.taken.lookup item.tx.txid).isSome ∨ ∀ peer ∈ item.announcers, peer ∉ s.gone
  | _ => True

structure Clean (limits : Nat × Nat) (s : OrphanRelay) : Prop where
  sound : s.orphanage.Sound (fun _ => True) limits
  silent : ∀ p ∈ s.gone, ¬s.orphanage.Mentions p

variable {limits : Nat × Nat} {order : Finset Txid → List Txid} {s : OrphanRelay}

theorem Clean.of_keeps {o : Orphanage} {out : List OrphanSnapshot} {gone : Finset Peer}
    (clean : s.Clean limits) (keeps : Orphanage.Keeps (fun _ => True) (· ∉ gone) s.orphanage o)
    (sub : gone ⊆ s.gone) : Clean limits ⟨o, out, gone⟩ := by
  refine ⟨keeps.sound clean.sound, fun p mem mentions => ?_⟩
  obtain here | before := keeps.adds p mentions
  · exact here mem
  · exact clean.silent p (sub mem) before

theorem Clean.step (walks : ∀ s txid, txid ∈ order s ↔ txid ∈ s) (a : Act) (clean : s.Clean limits)
    (noted : s.Noted a) : (s.step order a).Clean limits := by
  cases a with
  | deliver live tx missing announcer nowMs =>
    refine clean.of_keeps ?_ sdiff_subset
    refine keeps_parkOrphanFrom _ trivial _ (fun peer mem => ?_) _ _
    exact fun inside => (mem_sdiff.mp inside).2 (Option.mem_toFinset.mpr mem)
  | announce txid peer =>
    exact clean.of_keeps (keeps_addAnnouncer _ _ (notMem_erase _ _)) (erase_subset _ _)
  | announceWtxid wtxid peer =>
    exact clean.of_keeps (keeps_addAnnouncerWtxid _ _ (notMem_erase _ _)) (erase_subset _ _)
  | takeChildren parent =>
    refine clean.of_keeps ⟨fun sound => ?_, ?_⟩ (Subset.refl _)
    · exact sound.takeChildrenOf walks parent
    · exact adds_takeChildrenOf _ order parent
  | lift txid =>
    exact clean.of_keeps (keeps_liftParkedMember _ txid) (Subset.refl _)
  | disconnect peer =>
    refine ⟨clean.sound.eraseForPeer peer, fun p mem mentions => ?_⟩
    obtain ⟨other, before⟩ := mentions_eraseForPeer mentions
    exact clean.silent p ((mem_insert.mp mem).resolve_left other) before
  | repark place live missing nowMs =>
    cases item : s.out[place]? with
    | none => simpa only [OrphanRelay.step, item] using clean
    | some item' =>
      simp only [OrphanRelay.step, item]
      exact clean.of_keeps (keeps_parkAnnounced _ _ trivial _ _ _ (noted item' item))
        (Subset.refl _)
  | settle place =>
    cases item : s.out[place]? with
    | none => simpa only [OrphanRelay.step, item] using clean
    | some item' =>
      simp only [OrphanRelay.step, item]
      exact clean.of_keeps (keeps_forgetTakenGen _ _ _) (Subset.refl _)
  | expire nowMs =>
    exact clean.of_keeps (reduces_expire _ nowMs).keeps (Subset.refl _)
  | confirm blockTxids =>
    exact clean.of_keeps (reduces_eraseForBlock _ blockTxids).keeps (Subset.refl _)

theorem clean_start {maxWeight : Nat} (fits : maxWeight ≤ u64Max) (maxCount : Nat) :
    (start maxWeight maxCount).Clean (max maxWeight maxOrphanTxWeight, max maxCount 1) :=
  ⟨sound_withLimits _ fits maxCount, fun p mem => absurd mem (notMem_empty p)⟩

/-- A peer that has disconnected announces no parked orphan and has no weight until it announces
again, in every interleaving in which orphans come back under a note, or under peers that are all
there. -/
theorem gone_leaves_no_trace (walks : ∀ s txid, txid ∈ order s ↔ txid ∈ s) {maxWeight : Nat}
    (fits : maxWeight ≤ u64Max) (maxCount : Nat) (acts : List Act)
    (noted : Run.AllMeet (OrphanRelay.step order) Noted (start maxWeight maxCount) acts) :
    let s := acts.foldl (OrphanRelay.step order) (start maxWeight maxCount)
    ∀ p ∈ s.gone, (∀ txid e, s.orphanage.byTxid.lookup txid = some e → p ∉ e.announcers) ∧
      s.orphanage.peerWeight.lookup p = none := by
  intro s p mem
  have clean : s.Clean (max maxWeight maxOrphanTxWeight, max maxCount 1) :=
    noted.invariant _ (fun s a clean noted => clean.step walks a noted) (clean_start fits maxCount)
  have unlisted : ∀ txid e, s.orphanage.byTxid.lookup txid = some e → p ∉ e.announcers :=
    fun txid e found lists => clean.silent p mem (.inl ⟨txid, e, found, lists⟩)
  refine ⟨unlisted, ?_⟩
  by_contra row
  obtain ⟨txid, e, found, lists⟩ := (clean.sound.books.peers p).listed row
  exact unlisted txid e found lists

/-- The only peer of a lifted orphan disconnects before the orphan comes back. -/
def droppedActs : List Act :=
  [.deliver false waitingTx {7, 8, 9} (some 1) 0, .takeChildren 7, .disconnect 1,
    .repark 0 false {8, 9} 0]

theorem gone_leaves_no_trace_dropped :
    let s := droppedActs.foldl (OrphanRelay.step ascending) (start 0 0)
    1 ∈ s.gone ∧ s.orphanage.peerWeight.lookup 1 = none := by
  have gone : 1 ∈ (droppedActs.foldl (OrphanRelay.step ascending) (start 0 0)).gone := by
    decide +kernel
  refine ⟨gone, (gone_leaves_no_trace (fun s _ => mem_ascending s) (Nat.zero_le _) 0 droppedActs
    ⟨trivial, trivial, trivial, fun item at_place => .inl ?_, trivial⟩ 1 gone).2⟩
  have lifted : ((droppedActs.take 3).foldl (OrphanRelay.step ascending) (start 0 0)).out[0]? =
      some ⟨waitingTx, [1], 1⟩ := by decide +kernel
  cases Option.some.inj (at_place.symm.trans lifted)
  decide +kernel

/-- An orphan is lifted, delivered by another peer and lifted again. Its first announcer
disconnects, and then both come back, the second first. -/
def liftedTwice : List Act :=
  [.deliver false waitingTx {7, 8, 9} (some 1) 0, .takeChildren 7,
    .deliver false waitingTx {8, 9} (some 2) 0, .takeChildren 8, .disconnect 1,
    .repark 1 false {9} 0, .repark 0 false {9} 0]

theorem gone_peer_listed :
    let s := liftedTwice.foldl (OrphanRelay.step ascending) (start 0 0)
    1 ∈ s.gone ∧ s.orphanage.announcersOf 5 = [1, 2] ∧
      s.orphanage.peerWeight.lookup 1 = some 900 := by decide +kernel

end OrphanRelay

end Rbitcoin.Mempool
