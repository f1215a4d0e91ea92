import Rbitcoin.Mempool.Orphanage

/-! The books of the orphanage. Weights, rows and queue are read off the map of parked orphans, with
one lemma for each change to an entry: it leaves, it is parked, a peer joins it, a peer leaves it.
-/

namespace Rbitcoin.Mempool

open Ordered OrphanEntry Option Finset

namespace OrphanEntry

def weightFor (peer : Peer) (e : OrphanEntry) : Nat := if peer ∈ e.announcers then e.weight else 0

theorem weightFor_le (peer : Peer) (e : OrphanEntry) : e.weightFor peer ≤ e.weight := by
  unfold weightFor
  split
  · exact le_rfl
  · exact Nat.zero_le _

end OrphanEntry

namespace Orphanage

variable (o : Orphanage)

/-- What is left of a peer's weight; no row is left for nothing. -/
def lessWeight (weight : Nat) (row : Option Nat) : Option Nat :=
  if row.getD 0 - weight = 0 then none else some (row.getD 0 - weight)

variable (txid : Txid)

def lessChild (row : Option (Finset Txid)) : Option (Finset Txid) :=
  row.bind fun set => if set.erase txid = ∅ then none else some (set.erase txid)

def moreChild (row : Option (Finset Txid)) : Option (Finset Txid) :=
  some (insert txid (row.getD ∅))

theorem subPeerWeight_eq (peer : Peer) (weight : Nat) : o.subPeerWeight peer weight =
      { o with peerWeight := o.peerWeight.alter peer (lessWeight weight) } := by
  unfold subPeerWeight Map.alter lessWeight peerOrphanWeight
  by_cases nothing : (o.peerWeight.lookup peer).getD 0 - weight = 0
  · simp only [nothing, if_true]
  · simp only [nothing, if_false]

theorem unaccount_eq (e : OrphanEntry) : o.unaccount e =
      { o with
        totalWeight := o.totalWeight - e.weight
        peerWeight := o.peerWeight.alterAll (ascending e.announcers) (lessWeight e.weight) } := by
  have fold : ∀ (l : List Peer) (o : Orphanage),
      l.foldl (fun o peer => o.subPeerWeight peer e.weight) o =
        { o with peerWeight := o.peerWeight.alterAll l (lessWeight e.weight) } := by
    intro l
    induction l with
    | nil => intro o; rfl
    | cons peer l ih =>
      intro o
      rw [List.foldl_cons, ih, subPeerWeight_eq]
      rfl
  exact fold _ _

theorem unlistChild_eq (txid parent : Txid) :
    o.unlistChild txid parent =
      { o with byParent := o.byParent.alter parent (lessChild txid) } := by
  unfold unlistChild Map.alter lessChild
  cases row : o.byParent.lookup parent with
  | none =>
    simp only [bind_none, Map.erase_eq_self row]
  | some set =>
    simp only [bind_some]
    split <;> rfl

theorem foldl_unlistChild (l : List Txid) : l.foldl (fun o parent => o.unlistChild txid parent) o =
      { o with byParent := o.byParent.alterAll l (lessChild txid) } := by
  induction l generalizing o with
  | nil => rfl
  | cons parent l ih =>
    rw [List.foldl_cons, ih, unlistChild_eq]
    rfl

/-- The books without an entry, when its rows under some parents are taken out. -/
def without (e : OrphanEntry) (parents : List Txid) : Orphanage :=
  { o with
    byTxid := o.byTxid.erase txid
    byWtxid := o.byWtxid.erase e.wtxid
    byParent := o.byParent.alterAll parents (lessChild txid)
    totalWeight := o.totalWeight - e.weight
    peerWeight := o.peerWeight.alterAll (ascending e.announcers) (lessWeight e.weight) }

variable {o} {txid : Txid} {e : OrphanEntry}

theorem removeTxid_eq (found : o.byTxid.lookup txid = some e) :
    o.removeTxid txid = o.without txid e (ascending e.missing) := by
  unfold removeTxid
  simp only [found, unaccount_eq, foldl_unlistChild]
  rfl

theorem removeTxid_none (missing : o.byTxid.lookup txid = none) : o.removeTxid txid = o := by
  unfold removeTxid
  simp only [missing]

theorem withdraw_eq (found : o.byTxid.lookup txid = some e) (peer : Peer) : o.withdraw peer txid =
      { o with
        byTxid := o.byTxid.insert txid { e with announcers := e.announcers.erase peer }
        peerWeight := o.peerWeight.alter peer (lessWeight e.weight) } := by
  unfold withdraw
  simp only [found, subPeerWeight_eq]

/-- No two transactions that are known share a wtxid and differ in their txid. -/
def Commits (known : Transaction → Prop) : Prop :=
  ∀ tx tx', known tx → known tx' → tx.wtxid = tx'.wtxid → tx.txid = tx'.txid

section Rows

variable (m : Map Txid OrphanEntry)

/-- The row of a peer has the weight of the orphans that list it. A row stands for some orphan. -/
structure PeerExact (peer : Peer) (row : Option Nat) : Prop where
  weight : row.getD 0 = Map.total m (·.weightFor peer)
  listed : row ≠ none → ∃ txid e, m.lookup txid = some e ∧ peer ∈ e.announcers

/-- The row of a parent lists the orphans that miss it. There is no empty row. -/
structure ParentExact (parent : Txid) (row : Option (Finset Txid)) : Prop where
  lists : ∀ txid, txid ∈ row.getD ∅ ↔ ∃ e, m.lookup txid = some e ∧ parent ∈ e.missing
  nonempty : row ≠ some ∅

def WtxidsExact (byWtxid : Map Wtxid Txid) : Prop :=
  ∀ wtxid txid, byWtxid.lookup wtxid = some txid ↔ ∃ e, m.lookup txid = some e ∧ e.wtxid = wtxid

structure EntryOf (known : Transaction → Prop) (txid : Txid) (e : OrphanEntry) : Prop where
  known : known e.tx
  txid : e.tx.txid = txid
  wtxid : e.wtxid = e.tx.wtxid
  weight : e.weight = e.tx.weight

/-- What is read off the parked orphans. The rows of lost parents may be wrong. -/
structure Books (known : Transaction → Prop) (limits : Nat × Nat) (lost : Txid → Prop)
    (o : Orphanage) : Prop where
  entries : ∀ txid e, o.byTxid.lookup txid = some e → EntryOf known txid e
  total : o.totalWeight = Map.total o.byTxid (·.weight)
  peers : ∀ peer, PeerExact o.byTxid peer (o.peerWeight.lookup peer)
  parents : ∀ parent, ¬lost parent → ParentExact o.byTxid parent (o.byParent.lookup parent)
  wtxids : Commits known → WtxidsExact o.byTxid o.byWtxid
  count : o.byTxid.keys.card ≤ o.maxCount
  weight : o.totalWeight ≤ o.maxWeight
  fits : o.maxWeight ≤ u64Max
  limits : (o.maxWeight, o.maxCount) = limits

/-- Every parked orphan has a place in a queue. -/
def Queued (o : Orphanage) (queue : List Txid) : Prop :=
  ∀ txid e, o.byTxid.lookup txid = some e → txid ∈ queue

/-- The books are right, and every orphan is in the queue. -/
structure Sound (known : Transaction → Prop) (limits : Nat × Nat) (o : Orphanage) : Prop where
  books : Books known limits (fun _ => False) o
  queued : o.Queued o.fifo

variable {m} {k : Txid} {peer : Peer} {parent : Txid}

theorem lookup_erase_some {a : Txid} {x : OrphanEntry} :
    (m.erase k).lookup a = some x ↔ a ≠ k ∧ m.lookup a = some x := by
  rw [Map.lookup_erase, ite_none_left_eq_some]

theorem lookup_insert_some {v : OrphanEntry} {a : Txid} {x : OrphanEntry} :
    (m.insert k v).lookup a = some x ↔ a = k ∧ v = x ∨ a ≠ k ∧ m.lookup a = some x := by
  rw [Map.lookup_insert]
  split
  · next same => simp [same]
  · next other => simp [other]

theorem lessWeight_exact {weight : Nat} {row : Option Nat}
    (left : row.getD 0 - weight = Map.total m (·.weightFor peer)) :
    PeerExact m peer (lessWeight weight row) := by
  unfold lessWeight
  split
  · next nothing => exact ⟨nothing.symm.trans left, fun row => absurd rfl row⟩
  · next rest =>
    refine ⟨left, fun _ => ?_⟩
    rw [left] at rest
    obtain ⟨txid, e, found, counts⟩ := Map.exists_of_total_ne_zero rest
    refine ⟨txid, e, found, ?_⟩
    by_contra other
    exact counts (if_neg other)

variable {row : Option (Finset Txid)} {peers : Finset Peer}

theorem lessChild_exact (before : ParentExact m parent row) :
    ParentExact (m.erase k) parent (lessChild k row) := by
  have lists : ∀ txid, txid ∈ (row.getD ∅).erase k ↔
      ∃ e, (m.erase k).lookup txid = some e ∧ parent ∈ e.missing := by
    intro txid
    rw [mem_erase, before.lists, Map.exists_erase]
  cases row with
  | none => exact ⟨lists, nofun⟩
  | some set =>
    simp only [getD_some] at lists
    unfold lessChild
    rw [bind_some]
    split
    · next nobody =>
      rw [nobody] at lists
      exact ⟨lists, nofun⟩
    · next somebody => exact ⟨lists, fun same => somebody (some.inj same)⟩

theorem ParentExact.erase (before : ParentExact m parent row) (found : m.lookup k = some e)
    (other : parent ∉ e.missing) : ParentExact (m.erase k) parent row := by
  refine ⟨fun txid => ?_, before.nonempty⟩
  rw [before.lists, Map.exists_erase]
  refine (and_iff_right_of_imp ?_).symm
  rintro ⟨x, found', waits⟩ rfl
  cases found.symm.trans found'
  exact other waits

variable {byWtxid : Map Wtxid Txid}

theorem WtxidsExact.erase (before : WtxidsExact m byWtxid)
    (found : m.lookup k = some e) : WtxidsExact (m.erase k) (byWtxid.erase e.wtxid) := by
  have here : byWtxid.lookup e.wtxid = some k := (before _ _).mpr ⟨e, found, rfl⟩
  intro wtxid txid
  rw [Map.lookup_erase, Map.exists_erase, ← before]
  by_cases same : wtxid = e.wtxid
  · rw [same, here]
    simp [eq_comm]
  · rw [if_neg same]
    refine (and_iff_right_of_imp ?_).symm
    rintro there rfl
    obtain ⟨x, found', rfl⟩ := (before _ _).mp there
    cases found.symm.trans found'
    exact same rfl

theorem ParentExact.announcers (before : ParentExact m parent row) (found : m.lookup k = some e) :
    ParentExact (m.insert k { e with announcers := peers }) parent row := by
  refine ⟨fun txid => ?_, before.nonempty⟩
  rw [before.lists, Map.exists_insert]
  split
  · next same => subst same; simp [found]
  · rfl

theorem WtxidsExact.announcers (before : WtxidsExact m byWtxid) (found : m.lookup k = some e) :
    WtxidsExact (m.insert k { e with announcers := peers }) byWtxid := by
  intro wtxid txid
  rw [before wtxid txid, Map.exists_insert]
  split
  · next same => subst same; simp [found]
  · rfl

theorem PeerExact.announcers {row : Option Nat} (before : PeerExact m peer row)
    (found : m.lookup k = some e) (same : peer ∈ peers ↔ peer ∈ e.announcers) :
    PeerExact (m.insert k { e with announcers := peers }) peer row where
  weight := by
    have replaced : e.weightFor peer +
        Map.total (m.insert k { e with announcers := peers }) (·.weightFor peer) =
          { e with announcers := peers }.weightFor peer + Map.total m (·.weightFor peer) :=
      Map.total_replace found
    simp only [weightFor, same] at replaced
    exact before.weight.trans (add_left_cancel replaced).symm
  listed := by
    intro some_row
    obtain ⟨txid, lists⟩ := before.listed some_row
    refine ⟨txid, Map.exists_insert.mpr ?_⟩
    split
    · next here => subst here; simpa [found, same] using lists
    · exact lists

/-! An orphan that was not parked joins. -/

section Fresh

variable (fresh : m.lookup k = none) {v : OrphanEntry}
include fresh

omit fresh in
theorem moreChild_exact {row : Option (Finset Txid)} (before : ParentExact m parent row)
    (waits : parent ∈ v.missing) : ParentExact (m.insert k v) parent (moreChild k row) := by
  refine ⟨fun txid => ?_, fun same => insert_ne_empty _ _ (some.inj same)⟩
  rw [moreChild, getD_some, mem_insert, before.lists, Map.exists_insert]
  split
  · next same => simp [same, waits]
  · next other => simp [other]

theorem ParentExact.insert (before : ParentExact m parent row)
    (other : parent ∉ v.missing) : ParentExact (m.insert k v) parent row := by
  refine ⟨fun txid => ?_, before.nonempty⟩
  rw [before.lists, Map.exists_insert]
  split
  · next same => subst same; simp [fresh, other]
  · rfl

theorem WtxidsExact.insert (before : WtxidsExact m byWtxid)
    (alone : ∀ txid e, m.lookup txid = some e → e.wtxid ≠ v.wtxid) :
    WtxidsExact (m.insert k v) (byWtxid.insert v.wtxid k) := by
  intro wtxid txid
  rw [Map.lookup_insert, Map.exists_insert]
  by_cases same : wtxid = v.wtxid
  · rw [if_pos same]
    split
    · next here => simp [here, same]
    · next other =>
      refine iff_of_false (fun mine => other (some.inj mine).symm) ?_
      rintro ⟨e, found, there⟩
      exact alone txid e found (there.trans same)
  · rw [if_neg same, before]
    split
    · next here => subst here; simp [fresh, Ne.symm same]
    · rfl

theorem PeerExact.insert {row : Option Nat} (before : PeerExact m peer row)
    (other : peer ∉ v.announcers) : PeerExact (m.insert k v) peer row where
  weight := by
    rw [Map.total_insert fresh, weightFor, if_neg other, zero_add]
    exact before.weight
  listed := by
    intro some_row
    obtain ⟨txid, lists⟩ := before.listed some_row
    refine ⟨txid, Map.exists_insert.mpr ?_⟩
    split
    · next here => subst here; simp [fresh] at lists
    · exact lists

end Fresh

end Rows

theorem card_keys_erase_le (m : Map Txid OrphanEntry) (k : Txid) :
    (m.erase k).keys.card ≤ m.keys.card := by
  rw [Finmap.keys_erase]
  exact card_erase_le

theorem keys_insert {m : Map Txid OrphanEntry} {k : Txid} (v : OrphanEntry) :
    (m.insert k v).keys = insert k m.keys := by
  ext a
  rw [mem_insert, Finmap.mem_keys, Finmap.mem_keys, Finmap.mem_insert]

theorem sound_withLimits (known : Transaction → Prop) {maxWeight : Nat} (fits : maxWeight ≤ u64Max)
    (maxCount : Nat) :
    Sound known (max maxWeight maxOrphanTxWeight, max maxCount 1)
      (withLimits maxWeight maxCount) where
  books :=
    { entries := nofun
      total := rfl
      peers := fun _ => ⟨rfl, fun row => absurd rfl row⟩
      parents := by
        intro parent _
        exact ⟨fun txid => ⟨fun mem => absurd mem (notMem_empty _), nofun⟩, nofun⟩
      wtxids := by
        intro _ wtxid txid
        exact ⟨nofun, nofun⟩
      count := Nat.zero_le _
      weight := Nat.zero_le _
      fits := max_le fits (by decide)
      limits := rfl }
  queued := nofun

section Changes

variable {known : Transaction → Prop} {limits : Nat × Nat} {lost : Txid → Prop}
  (books : Books known limits lost o)
include books

theorem Books.peer_le (peer : Peer) : Map.total o.byTxid (·.weightFor peer) ≤ o.totalWeight := by
  rw [books.total]
  exact Map.total_mono (weightFor_le peer)

theorem Books.without (found : o.byTxid.lookup txid = some e) {parents : List Txid}
    (nodup : parents.Nodup) (rows : ∀ p, ¬lost p → (p ∈ parents ↔ p ∈ e.missing)) :
    Books known limits lost (o.without txid e parents) where
  entries a x mem := books.entries a x (lookup_erase_some.mp mem).2
  total := by
    have sum : e.weight + Map.total (o.byTxid.erase txid) (·.weight) = _ := Map.total_erase found
    rw [← books.total] at sum
    change o.totalWeight - e.weight = Map.total (o.byTxid.erase txid) (·.weight)
    omega
  peers := by
    intro peer
    have before := books.peers peer
    have sum : e.weightFor peer + Map.total (o.byTxid.erase txid) (·.weightFor peer) = _ :=
      Map.total_erase found
    rw [← before.weight] at sum
    change PeerExact (o.byTxid.erase txid) peer ((o.peerWeight.alterAll _ _).lookup peer)
    rw [Map.lookup_alterAll _ _ (nodup_ascending _)]
    split
    · next listed =>
      rw [mem_ascending] at listed
      rw [weightFor, if_pos listed] at sum
      exact lessWeight_exact (by omega)
    · next other =>
      rw [mem_ascending] at other
      rw [weightFor, if_neg other] at sum
      refine ⟨by omega, fun row => ?_⟩
      obtain ⟨a, lists⟩ := before.listed row
      refine ⟨a, Map.exists_erase.mpr ⟨?_, lists⟩⟩
      rintro rfl
      simp [found, other] at lists
  parents := by
    intro p kept
    have before := books.parents p kept
    change ParentExact (o.byTxid.erase txid) p ((o.byParent.alterAll _ _).lookup p)
    rw [Map.lookup_alterAll _ _ nodup]
    split
    · exact lessChild_exact before
    · next other => exact before.erase found fun waits => other ((rows p kept).mpr waits)
  wtxids commits := (books.wtxids commits).erase found
  count := (card_keys_erase_le _ _).trans books.count
  weight := (Nat.sub_le _ _).trans books.weight
  fits := books.fits
  limits := books.limits

variable {peers : Finset Peer}

section

variable (found : o.byTxid.lookup txid = some e)
include found

theorem Books.entries_announcers {a : Txid} {x : OrphanEntry}
    (mem : (o.byTxid.insert txid { e with announcers := peers }).lookup a = some x) :
    EntryOf known a x := by
  obtain ⟨rfl, rfl⟩ | ⟨-, mem⟩ := lookup_insert_some.mp mem
  · exact { books.entries _ e found with }
  · exact books.entries a x mem

theorem Books.total_announcers :
    o.totalWeight = Map.total (o.byTxid.insert txid { e with announcers := peers }) (·.weight) := by
  have replaced : e.weight +
      Map.total (o.byTxid.insert txid { e with announcers := peers }) (·.weight) =
        e.weight + Map.total o.byTxid (·.weight) := Map.total_replace found
  exact books.total.trans (add_left_cancel replaced).symm

theorem Books.announcers {rows : Map Peer Nat}
    (peersExact : ∀ peer, PeerExact (o.byTxid.insert txid { e with announcers := peers }) peer
      (rows.lookup peer)) :
    Books known limits lost
      { o with
        byTxid := o.byTxid.insert txid { e with announcers := peers }, peerWeight := rows } where
  entries _ _ mem := books.entries_announcers found mem
  total := books.total_announcers found
  peers := peersExact
  parents p kept := (books.parents p kept).announcers found
  wtxids commits := (books.wtxids commits).announcers found
  count := by
    have here : txid ∈ o.byTxid.keys := by
      rw [Finmap.mem_keys, ← Finmap.lookup_isSome, found]
      rfl
    rw [keys_insert, insert_eq_of_mem here]
    exact books.count
  weight := books.weight
  fits := books.fits
  limits := books.limits

theorem Books.withdraw {peer : Peer}
    (listed : peer ∈ e.announcers) : Books known limits lost (o.withdraw peer txid) := by
  rw [withdraw_eq found]
  refine books.announcers found fun p => ?_
  have before := books.peers p
  rw [Map.lookup_alter]
  split
  · next same =>
    subst same
    have replaced : e.weightFor p +
        Map.total (o.byTxid.insert txid { e with announcers := e.announcers.erase p })
          (·.weightFor p) =
        { e with announcers := e.announcers.erase p }.weightFor p +
          Map.total o.byTxid (·.weightFor p) := Map.total_replace found
    rw [weightFor, if_pos listed, weightFor, if_neg (notMem_erase _ _), ← before.weight] at replaced
    exact lessWeight_exact (by omega)
  · next other => exact before.announcers found (by simp [other])

end

theorem Books.addAnnouncer (txid : Txid) (peer : Peer) :
    Books known limits lost (o.addAnnouncer txid peer) := by
  unfold Orphanage.addAnnouncer
  cases found : o.byTxid.lookup txid with
  | none => exact books
  | some e =>
    dsimp only
    split
    · exact books
    · next fresh =>
      refine books.announcers found fun p => ?_
      have before := books.peers p
      rw [Map.lookup_insert]
      split
      · next same =>
        subst same
        let m := o.byTxid.insert txid { e with announcers := insert p e.announcers }
        have replaced : e.weightFor p + Map.total m (·.weightFor p) =
            { e with announcers := insert p e.announcers }.weightFor p +
              Map.total o.byTxid (·.weightFor p) := Map.total_replace found
        rw [weightFor, if_neg fresh, weightFor,
          if_pos (mem_insert_self _ _), ← before.weight] at replaced
        dsimp only at replaced
        -- what a peer announces is parked, so its row never saturates
        have small : Map.total m (·.weightFor p) ≤ u64Max :=
          calc Map.total m (·.weightFor p)
            _ ≤ Map.total m (·.weight) := Map.total_mono (weightFor_le p)
            _ = o.totalWeight := (books.total_announcers found).symm
            _ ≤ u64Max := books.weight.trans books.fits
        refine ⟨?_, fun _ => ⟨txid, _, lookup_insert_some.mpr (.inl ⟨rfl, rfl⟩), ?_⟩⟩
        · change min ((o.peerWeight.lookup p).getD 0 + e.weight) u64Max =
            Map.total m (·.weightFor p)
          omega
        · exact mem_insert_self _ _
      · next other => exact before.announcers found (by simp [other])

end Changes

def parkedEntry (tx : Transaction) (missing : Finset Txid) (announcer : Option Peer) (nowMs : Nat) :
    OrphanEntry :=
  { tx, wtxid := tx.wtxid, weight := tx.weight, missing
    announcers := announcer.toFinset, arrivedMs := nowMs }

theorem park_eq (o : Orphanage) (tx : Transaction) (missing : Finset Txid) (announcer : Option Peer)
    (nowMs : Nat) :
    o.park tx missing announcer nowMs =
      { o with
        byParent := o.byParent.alterAll (ascending missing) (moreChild tx.txid)
        byWtxid := o.byWtxid.insert tx.wtxid tx.txid
        byTxid := o.byTxid.insert tx.txid (parkedEntry tx missing announcer nowMs)
        fifo := o.fifo ++ [tx.txid]
        totalWeight := satAdd o.totalWeight tx.weight
        peerWeight := announcer.elim o.peerWeight fun peer =>
          o.peerWeight.insert peer (satAdd (o.peerOrphanWeight peer) tx.weight) } := by
  cases announcer <;> rfl

/-- Parking an orphan that there is room for keeps the books right. -/
theorem Books.park {known : Transaction → Prop} {limits : Nat × Nat} {lost : Txid → Prop}
    (books : Books known limits lost o) {tx : Transaction} (isKnown : known tx)
    (fresh : o.byTxid.lookup tx.txid = none)
    (few : o.byTxid.keys.card < o.maxCount) (room : o.totalWeight + tx.weight ≤ o.maxWeight)
    (missing : Finset Txid) (announcer : Option Peer) (nowMs : Nat) :
    Books known limits lost (o.park tx missing announcer nowMs) := by
  rw [park_eq]
  have fits := books.fits
  have whole : satAdd o.totalWeight tx.weight = o.totalWeight + tx.weight :=
    min_eq_left (room.trans fits)
  exact
    { entries := by
        intro a x mem
        obtain ⟨rfl, rfl⟩ | ⟨-, mem⟩ := lookup_insert_some.mp mem
        · exact ⟨isKnown, rfl, rfl, rfl⟩
        · exact books.entries a x mem
      total := by
        rw [whole, Map.total_insert fresh, ← books.total, add_comm]
        rfl
      peers := by
        intro p
        have before := books.peers p
        have le : (o.peerWeight.lookup p).getD 0 ≤ o.totalWeight := by
          rw [before.weight]
          exact books.peer_le p
        by_cases here : announcer = some p
        · subst here
          change PeerExact (o.byTxid.insert _ _) p ((o.peerWeight.insert p _).lookup p)
          rw [Map.lookup_insert, if_pos rfl]
          refine ⟨?_, fun _ => ⟨tx.txid, _, lookup_insert_some.mpr (.inl ⟨rfl, rfl⟩), ?_⟩⟩
          · rw [Map.total_insert fresh, ← before.weight]
            change min ((o.peerWeight.lookup p).getD 0 + tx.weight) u64Max =
              (if p ∈ (some p).toFinset then tx.weight else 0) + _
            rw [if_pos (by simp)]
            omega
          · simp [parkedEntry]
        · have row : (announcer.elim o.peerWeight fun peer => o.peerWeight.insert peer
              (satAdd (o.peerOrphanWeight peer) tx.weight)).lookup p = o.peerWeight.lookup p := by
            cases announcer with
            | none => rfl
            | some peer =>
              change (o.peerWeight.insert peer _).lookup p = _
              rw [Map.lookup_insert, if_neg]
              rintro rfl
              exact here rfl
          rw [row]
          refine before.insert fresh fun mem => here ?_
          simpa [parkedEntry] using mem
      parents := by
        intro p kept
        have before := books.parents p kept
        rw [Map.lookup_alterAll _ _ (nodup_ascending _)]
        split
        · next waits => exact moreChild_exact before ((mem_ascending _).mp waits)
        · next other =>
          exact before.insert fresh fun waits => other ((mem_ascending _).mpr waits)
      wtxids := by
        intro commits
        refine WtxidsExact.insert fresh (books.wtxids commits) fun a x found same => ?_
        have of := books.entries a x found
        have one := commits x.tx tx of.known isKnown (of.wtxid.symm.trans same)
        rw [of.txid] at one
        rw [one, fresh] at found
        cases found
      count := by
        rw [keys_insert]
        exact (card_insert_le _ _).trans few
      weight := by
        rwa [whole]
      fits := fits
      limits := books.limits }

end Orphanage

end Rbitcoin.Mempool
