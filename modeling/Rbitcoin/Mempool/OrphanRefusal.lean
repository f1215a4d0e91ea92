import Rbitcoin.Mempool.OrphanQueue

/-! What a refused orphan leaves behind. The caps have room for one orphan of the largest weight, so
evicting always makes room, and an orphan is refused only before anything is evicted. By then
another transaction with its txid is out already, or one more peer is noted for the same
transaction. -/

namespace Rbitcoin.Mempool

open Ordered List Option

namespace Orphanage

variable {o : Orphanage} {known : Transaction → Prop} {limits : Nat × Nat} {weight : Nat}

theorem mem_keys_iff {t : Txid} : t ∈ o.byTxid.keys ↔ o.contains t := by
  rw [Finmap.mem_keys, ← Finmap.lookup_isSome]
  rfl

/-- As long as something is parked, something is evicted. -/
theorem evictOldest_less (sound : Sound known limits o) (parked : o.byTxid.keys ≠ ∅) :
    ∃ o', o.evictOldest = (o', true) ∧ Sound known limits o' ∧
      o'.byTxid.keys.card < o.byTxid.keys.card := by
  suffices evicts : ∃ o', o.evictOldest = (o', true) ∧
      o'.byTxid.keys.card < o.byTxid.keys.card by
    obtain ⟨o', same, smaller⟩ := evicts
    have reduces := reduces_evictOldest o
    rw [same] at reduces
    exact ⟨o', same, reduces.sound sound, smaller⟩
  have less {o₁ o' : Orphanage} {x : Txid} {free : Txid → Bool} {honorReserve : Bool}
      (first : (o₁.fifo.filter o₁.contains).find? free = some x)
      (same : o₁.evictOldestFiltered honorReserve = (o', true)) (gone : o'.contains x = false) :
      o'.byTxid.keys.card < o₁.byTxid.keys.card := by
    have trims := (reduces_evictOldestFiltered o₁ honorReserve).toTrims
    rw [same] at trims
    refine Finset.card_lt_card ((Finset.ssubset_iff_of_subset fun s mem => ?_).mpr ⟨x, ?_, ?_⟩)
    · exact mem_keys_iff.mpr (trims.parked s (mem_keys_iff.mp mem))
    · exact mem_keys_iff.mpr (mem_filter.mp (mem_of_find?_eq_some first)).2
    · rw [mem_keys_iff, gone]
      exact Bool.false_ne_true
  unfold evictOldest
  obtain ⟨-, same⟩ | ⟨x, o', first, same, gone, -⟩ := evictOldestFiltered_cases o true
  · rw [same]
    obtain ⟨none, -⟩ | ⟨x, o', first, same, gone, -⟩ :=
      evictOldestFiltered_cases { o with fifo := o.fifo.filter o.contains } false
    · obtain ⟨t, mem⟩ := Finset.nonempty_iff_ne_empty.mpr parked
      have there := mem_keys_iff.mp mem
      obtain ⟨e, found⟩ := isSome_iff_exists.mp there
      have queued := mem_filter.mpr ⟨sound.queued t e found, there⟩
      exact absurd rfl (find?_eq_none.mp none t (mem_filter.mpr ⟨queued, there⟩))
    · have smaller := less first same gone
      exact ⟨o', same, smaller⟩
  · rw [same]
    exact ⟨o', rfl, less first same gone⟩

def announced (o : Orphanage) (peer : Peer) : Finset Txid :=
  o.byTxid.keys.filter fun t => (o.byTxid.lookup t).any (peer ∈ ·.announcers)

theorem mem_announced {peer : Peer} {t : Txid} :
    t ∈ o.announced peer ↔ ∃ e, o.byTxid.lookup t = some e ∧ peer ∈ e.announcers := by
  rw [announced, Finset.mem_filter, mem_keys_iff, contains]
  cases o.byTxid.lookup t <;> simp

/-- One orphan less is announced by the peer whose part is cut. -/
theorem evictOneFromPeer_less {o' : Orphanage} {peer : Peer}
    (evicted : o.evictOneFromPeer peer = (o', true)) :
    (o'.announced peer).card < (o.announced peer).card := by
  have reduces := reduces_evictOneFromPeer o peer
  rw [evicted] at reduces
  obtain ⟨none, -⟩ | ⟨t, e, found, listed, -, left, which, same⟩ := evictOneFromPeer_spec o peer
  · cases evicted.symm.trans none
  · rw [evicted] at same
    have gone : t ∉ o'.announced peer := by
      rw [show o' = _ from same, mem_announced]
      obtain rfl | rfl := which
      · rw [withdraw_eq found]
        simp
      · simp [lookup_removeTxid]
    have sub : o'.announced peer ⊆ o.announced peer := by
      intro s mem
      obtain ⟨x', found', lists⟩ := mem_announced.mp mem
      obtain ⟨x, before, more⟩ := reduces.entries s x' found'
      exact mem_announced.mpr ⟨x, before, more lists⟩
    exact Finset.card_lt_card ((Finset.ssubset_iff_of_subset sub).mpr
      ⟨t, mem_announced.mpr ⟨e, found, listed⟩, gone⟩)

/-- More rounds than the source's loop can take change nothing. -/
theorem fitPeer_add (peer : Peer) (weight more : Nat) {rounds : Nat}
    (enough : (o.announced peer).card < rounds) :
    fitPeer peer weight (rounds + more) o = fitPeer peer weight rounds o := by
  induction rounds generalizing o with
  | zero => exact absurd enough (Nat.not_lt_zero _)
  | succ rounds ih =>
    rw [Nat.succ_add]
    unfold fitPeer
    split
    · rfl
    · rcases evicted : o.evictOneFromPeer peer with ⟨o', _ | _⟩
      · rfl
      · exact ih ((evictOneFromPeer_less evicted).trans_le (Nat.le_of_lt_succ enough))

theorem fitAll_add (sound : Sound known limits o) (weight more : Nat) {rounds : Nat}
    (enough : o.byTxid.keys.card < rounds) :
    fitAll weight (rounds + more) o = fitAll weight rounds o := by
  induction rounds generalizing o with
  | zero => exact absurd enough (Nat.not_lt_zero _)
  | succ rounds ih =>
    rw [Nat.succ_add]
    unfold fitAll
    split
    · next full =>
      obtain ⟨o', same, sound', less⟩ := evictOldest_less sound full.1
      rw [same]
      exact ih sound' (less.trans_le (Nat.le_of_lt_succ enough))
    · rfl

/-- One orphan of the largest weight fits into the caps, and no sum with it saturates. -/
structure Roomy (limits : Nat × Nat) : Prop where
  weight : maxOrphanTxWeight ≤ limits.1
  count : 0 < limits.2
  small : limits.1 + maxOrphanTxWeight ≤ u64Max

theorem fitAll_room (roomy : Roomy limits) (sound : Sound known limits o)
    (light : weight ≤ maxOrphanTxWeight) {rounds : Nat} (enough : o.byTxid.keys.card < rounds) :
    (fitAll weight rounds o).byTxid.keys.card < (fitAll weight rounds o).maxCount ∧
      weight ≤ (fitAll weight rounds o).maxWeight - (fitAll weight rounds o).totalWeight := by
  induction rounds generalizing o with
  | zero => exact absurd enough (Nat.not_lt_zero _)
  | succ rounds ih =>
    unfold fitAll
    split
    · next full =>
      obtain ⟨o', same, sound', less⟩ := evictOldest_less sound full.1
      rw [same]
      exact ih sound' (by omega)
    · next fits =>
      obtain ⟨weightCap, countCap⟩ := Prod.mk.inj sound.books.limits
      have := roomy.weight
      have := roomy.count
      have := roomy.small
      have within := sound.books.weight
      by_cases empty : o.byTxid.keys = ∅
      · have nothing : o.totalWeight = 0 := by
          rw [sound.books.total]
          by_contra some
          obtain ⟨t, e, found, -⟩ := Map.exists_of_total_ne_zero some
          have mem : t ∈ o.byTxid.keys := mem_keys_iff.mpr (isSome_iff_exists.mpr ⟨e, found⟩)
          rw [empty] at mem
          cases mem
        rw [empty, Finset.card_empty]
        omega
      · obtain ⟨few, room⟩ := not_or.mp fun full => fits ⟨empty, full⟩
        rw [satAdd_eq] at room
        omega

/-- The peer's part is emptied at worst, and then there is room in it. -/
theorem fitPeer_fits (sound : Sound known limits o) (light : weight ≤ maxOrphanTxWeight)
    (peer : Peer) {rounds : Nat} (enough : (o.announced peer).card < rounds) :
    (fitPeer peer weight rounds o).2 = true := by
  induction rounds generalizing o with
  | zero => exact absurd enough (Nat.not_lt_zero _)
  | succ rounds ih =>
    unfold fitPeer
    split
    · rfl
    · next full =>
      have reduces := reduces_evictOneFromPeer o peer
      obtain ⟨-, none⟩ | ⟨-, -, -, -, done, -⟩ := evictOneFromPeer_spec o peer
      · refine absurd ?_ full
        have nothing : o.peerOrphanWeight peer = 0 := by
          by_contra some
          rw [peerOrphanWeight, (sound.books.peers peer).weight] at some
          obtain ⟨t, e, found, weighs⟩ := Map.exists_of_total_ne_zero some
          exact weighs (if_neg (none t (sound.queued t e found) e found))
        rw [nothing, satAdd_eq, zero_add]
        exact (min_le_left _ _).trans light
      · rcases evicted : o.evictOneFromPeer peer with ⟨o₁, _ | _⟩
        · rw [evicted] at done
          cases done
        · rw [evicted] at reduces
          exact ih (reduces.sound sound)
            ((evictOneFromPeer_less evicted).trans_le (Nat.le_of_lt_succ enough))

theorem insertRoomy_parks (roomy : Roomy limits) (sound : Sound known limits o) {tx : Transaction}
    (light : tx.weight ≤ maxOrphanTxWeight) (missing : Finset Txid) (announcer : Option Peer)
    (nowMs : Nat) : (o.insertRoomy tx missing announcer nowMs).2 = true := by
  have fits : (fitAnnouncer announcer tx.weight o).2 = true := by
    cases announcer with
    | none => rfl
    | some peer =>
      exact fitPeer_fits sound light peer (Nat.lt_succ_of_le (Finset.card_filter_le _ _))
  have reduces := reduces_fitAnnouncer announcer tx.weight o
  rw [insertRoomy_eq, if_neg (not_lt.mpr light)]
  rcases fitted : fitAnnouncer announcer tx.weight o with ⟨o₁, _ | _⟩
  · rw [fitted] at fits
    cases fits
  · rw [fitted] at reduces
    obtain ⟨few, room⟩ := fitAll_room roomy (reduces.sound sound) light (Nat.lt_succ_self _)
    dsimp only
    rw [if_neg (by decide), if_neg (not_le.mpr few), if_neg (not_lt.mpr room)]

theorem foldl_removeTxid_spec (l : List Txid) (o : Orphanage) :
    (l.foldl removeTxid o).fifo = o.fifo ∧ ∀ t,
      (l.foldl removeTxid o).byTxid.lookup t = if t ∈ l then none else o.byTxid.lookup t := by
  induction l generalizing o with
  | nil => exact ⟨rfl, fun t => rfl⟩
  | cons x l ih =>
    obtain ⟨queue, lookup⟩ := ih (o.removeTxid x)
    refine ⟨queue.trans (removeTxid_fifo o x), fun t => ?_⟩
    rw [foldl_cons, lookup, lookup_removeTxid]
    by_cases here : t = x <;> simp [here]

/-- What stays the same when nothing but old orphans go. -/
structure OnlyExpired (nowMs : Nat) (o o' : Orphanage) : Prop where
  queue : o'.fifo = o.fifo
  young : ∀ t e, o.byTxid.lookup t = some e → nowMs - e.arrivedMs < expireMs →
    o'.byTxid.lookup t = some e
  entries : ∀ t e, o'.byTxid.lookup t = some e → o.byTxid.lookup t = some e

theorem lookup_expire {o : Orphanage} {nowMs : Nat} {t : Txid} {e : OrphanEntry} :
    (o.expire nowMs).byTxid.lookup t = some e ↔
      o.byTxid.lookup t = some e ∧ nowMs - e.arrivedMs < expireMs := by
  obtain ⟨-, lookup⟩ := foldl_removeTxid_spec ((ascending o.byTxid.keys).filter fun txid =>
    (o.byTxid.lookup txid).any fun e => expireMs ≤ nowMs - e.arrivedMs) o
  rw [expire, lookup, ite_none_left_eq_some]
  refine ⟨fun ⟨fresh, found⟩ => ⟨found, ?_⟩, fun ⟨found, young⟩ => ⟨?_, found⟩⟩
  · have parked : t ∈ ascending o.byTxid.keys :=
      (mem_ascending _).mpr (mem_keys_iff.mpr (isSome_iff_exists.mpr ⟨e, found⟩))
    simpa [parked, found] using fresh
  · simp [found, young]

theorem onlyExpired_expire (o : Orphanage) (nowMs : Nat) :
    OnlyExpired nowMs o (o.expire nowMs) where
  queue := (foldl_removeTxid_spec _ o).1
  young _ _ found young := lookup_expire.mpr ⟨found, young⟩
  entries _ _ found := (lookup_expire.mp found).1

section Refused

variable {order : Finset Txid → List Txid} (walks : ∀ s txid, txid ∈ order s ↔ txid ∈ s)
  {maxWeight : Nat} (small : max maxWeight maxOrphanTxWeight + maxOrphanTxWeight ≤ u64Max)
  (maxCount : Nat) (ops : List Op)

/-- The parked transaction is announced once more: its entry is as before if the peer was known. -/
theorem onlyExpired_addAnnouncer {nowMs : Nat} {t : Txid} {e : OrphanEntry} (peer : Peer)
    (found : (o.expire nowMs).byTxid.lookup t = some e) :
    OnlyExpired nowMs o ((o.expire nowMs).addAnnouncer t peer) ↔ peer ∈ e.announcers := by
  rw [addAnnouncer, found]
  dsimp only
  split_ifs with listed
  · exact iff_of_true (onlyExpired_expire o nowMs) listed
  · refine iff_of_false (fun same => listed ?_) listed
    obtain ⟨before, young⟩ := lookup_expire.mp found
    have kept := same.young t e before young
    rw [addPeerWeight, Map.lookup_insert, if_pos rfl, some_inj] at kept
    rw [← kept]
    exact Finset.mem_insert_self _ _

include walks small

/-- **Refusals.** A refusal leaves all but the expired as it was, unless some parent is missing and
the pool has, not expired, another transaction with that txid while the new one is too heavy, or the
same one without the peer that announces it now. -/
theorem insertFromAt_refused {tx : Transaction} {missing : Finset Txid} {announcer : Option Peer}
    {nowMs : Nat} :
    let o := ops.foldl (apply order) (withLimits maxWeight maxCount)
    let after := o.insertFromAt tx missing announcer nowMs
    (after.2 = false → OnlyExpired nowMs o after.1) ↔
      ¬(missing ≠ ∅ ∧ ∃ e, o.byTxid.lookup tx.txid = some e ∧ nowMs - e.arrivedMs < expireMs ∧
        (e.wtxid ≠ tx.wtxid ∧ maxOrphanTxWeight < tx.weight ∨
          e.wtxid = tx.wtxid ∧ ∃ peer ∈ announcer, peer ∉ e.announcers)) := by
  intro o after
  have sound : Sound (fun _ => True) (max maxWeight maxOrphanTxWeight, max maxCount 1) o :=
    Sound.foldl_apply walks ops (fun _ _ _ _ => trivial) (sound_withLimits _ (by omega) maxCount)
  have roomy : Roomy (max maxWeight maxOrphanTxWeight, max maxCount 1) :=
    ⟨Nat.le_max_right _ _, Nat.le_max_right _ _, small⟩
  have expired := onlyExpired_expire o nowMs
  have sound' := (reduces_expire o nowMs).sound sound
  by_cases none_missing : missing = ∅
  · have nothing : after = (o, false) := if_pos none_missing
    rw [nothing]
    exact iff_of_true (fun _ => ⟨rfl, fun _ _ found _ => found, fun _ _ => id⟩)
      fun waits => waits.1 none_missing
  rw [show after = _ from if_neg none_missing]
  dsimp only
  cases found : (o.expire nowMs).byTxid.lookup tx.txid with
  | none =>
    refine iff_of_true (fun refused => ?_) fun ⟨_, e, parked, young, _⟩ => ?_
    · by_cases light : tx.weight ≤ maxOrphanTxWeight
      · have parks := insertRoomy_parks roomy sound' light missing announcer nowMs
        exact absurd (refused.symm.trans parks) Bool.false_ne_true
      · dsimp only
        rwa [insertRoomy_eq, if_pos (not_le.mp light)]
    · cases found.symm.trans (lookup_expire.mpr ⟨parked, young⟩)
  | some e =>
    obtain ⟨parked, young⟩ := lookup_expire.mp found
    have entry (x : OrphanEntry) : o.byTxid.lookup tx.txid = some x ↔ x = e := by
      rw [parked, some_inj, eq_comm]
    simp only [entry, exists_eq_left, young, none_missing, ne_eq, not_false_eq_true, true_and]
    by_cases same : e.wtxid = tx.wtxid
    · simp only [same, if_true, not_true_eq_false, false_and, false_or, true_and, true_imp_iff]
      cases announcer with
      | none => exact iff_of_true expired (by simp)
      | some peer => simp [onlyExpired_addAnnouncer peer found]
    · simp only [same, if_false, not_false_eq_true, true_and, false_and, or_false, not_lt]
      by_cases light : tx.weight ≤ maxOrphanTxWeight
      · have parks := insertRoomy_parks roomy ((reduces_removeTxid _ tx.txid).sound sound') light
          missing announcer nowMs
        rw [parks]
        exact iff_of_true (fun refused => absurd refused.symm Bool.false_ne_true) light
      · rw [insertRoomy_eq, if_pos (not_le.mp light)]
        refine iff_of_false (fun kept => ?_) light
        -- the entry that was parked is out before the weight is looked at
        have still := (kept rfl).young _ e parked young
        rw [lookup_removeTxid, if_pos rfl] at still
        cases still

end Refused

def oneParked : List Op := [.insert waitingTx {7} (some 1) 0]

/-- A heavy transaction with the txid of a parked one is refused, and the parked one is gone; a
second peer of the same transaction is refused, and is noted. -/
theorem insertFromAt_refused_variant :
    let o := oneParked.foldl (apply ascending) (withLimits 0 1)
    let heavier := o.insertFromAt { waitingTx with wtxid := 12, weight := 404001 } {7} (some 2) 0
    let again := o.insertFromAt waitingTx {7} (some 2) 0
    o.announcersOf 5 = [1] ∧ heavier.2 = false ∧ heavier.1.contains 5 = false ∧
      again.2 = false ∧ again.1.announcersOf 5 = [1, 2] := by
  decide +kernel

theorem insertFromAt_refused_heavy :
    let o := oneParked.foldl (apply ascending) (withLimits 0 1)
    let heavy := o.insertFromAt { waitingTx with txid := 20, weight := 404001 } {7} (some 2) 0
    heavy.2 = false ∧ OnlyExpired 0 o heavy.1 := by
  intro o heavy
  have refused : heavy.2 = false := by decide +kernel
  have fresh : o.byTxid.lookup 20 = none := by decide +kernel
  refine ⟨refused, (insertFromAt_refused (fun s _ => mem_ascending s) (by decide) 1 oneParked).mpr
    (fun ⟨_, e, found, _⟩ => ?_) refused⟩
  cases fresh.symm.trans found

end Orphanage

end Rbitcoin.Mempool
