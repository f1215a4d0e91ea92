import Rbitcoin.Mempool.Accept
import Rbitcoin.Mempool.OrphanAccounts

/-! The functions of the orphanage keep its books, so every run of them does. What evicts or expires
only takes out; an orphan is parked after that, if there is room. -/

namespace Rbitcoin.Mempool

open Ordered List

namespace Orphanage

variable {o : Orphanage} {txid : Txid} {e : OrphanEntry}

/-! ### Functions that only take out -/

/-- Nothing is parked that was not, and no peer joins an orphan. -/
structure Shrinks (o o' : Orphanage) : Prop where
  entries : ∀ txid e', o'.byTxid.lookup txid = some e' →
    ∃ e, o.byTxid.lookup txid = some e ∧ e'.announcers ⊆ e.announcers
  taken : o'.taken = o.taken

namespace Shrinks

variable {o' o'' : Orphanage}

theorem refl (o : Orphanage) : Shrinks o o :=
  ⟨fun _ e found => ⟨e, found, Finset.Subset.refl _⟩, rfl⟩

theorem trans (first : Shrinks o o') (second : Shrinks o' o'') : Shrinks o o'' where
  entries txid e'' found'' := by
    obtain ⟨e', found', sub'⟩ := second.entries txid e'' found''
    obtain ⟨e, found, sub⟩ := first.entries txid e' found'
    exact ⟨e, found, sub'.trans sub⟩
  taken := second.taken.trans first.taken

theorem fifo (shrinks : Shrinks o o') (queue : List Txid) :
    Shrinks o { o' with fifo := queue } := ⟨shrinks.entries, shrinks.taken⟩

theorem lookup_none (shrinks : Shrinks o o') (missing : o.byTxid.lookup txid = none) :
    o'.byTxid.lookup txid = none := by
  cases found : o'.byTxid.lookup txid with
  | none => rfl
  | some e' =>
    obtain ⟨e, there, -⟩ := shrinks.entries txid e' found
    rw [missing] at there
    cases there

theorem queued (shrinks : Shrinks o o') {queue : List Txid} (before : o.Queued queue) :
    o'.Queued queue := by
  intro txid e' found
  obtain ⟨e, there, -⟩ := shrinks.entries txid e' found
  exact before txid e there

end Shrinks

variable (o)

theorem shrinks_without (txid : Txid) (e : OrphanEntry) (parents : List Txid) :
    Shrinks o (o.without txid e parents) :=
  ⟨fun _ x found => ⟨x, (lookup_erase_some.mp found).2, Finset.Subset.refl _⟩, rfl⟩

theorem shrinks_removeTxid (txid : Txid) : Shrinks o (o.removeTxid txid) := by
  cases found : o.byTxid.lookup txid with
  | none =>
    rw [removeTxid_none found]
    exact Shrinks.refl o
  | some e =>
    rw [removeTxid_eq found]
    exact shrinks_without o txid e _

@[simp] theorem removeTxid_fifo (txid : Txid) : (o.removeTxid txid).fifo = o.fifo := by
  cases found : o.byTxid.lookup txid with
  | none => rw [removeTxid_none found]
  | some e => rw [removeTxid_eq found]; rfl

theorem lookup_removeTxid (txid t : Txid) :
    (o.removeTxid txid).byTxid.lookup t = if t = txid then none else o.byTxid.lookup t := by
  cases found : o.byTxid.lookup txid with
  | none =>
    rw [removeTxid_none found, ← Map.lookup_erase, Map.erase_eq_self found]
  | some e =>
    rw [removeTxid_eq found]
    exact Map.lookup_erase _

theorem shrinks_withdraw (peer : Peer) (txid : Txid) : Shrinks o (o.withdraw peer txid) := by
  cases found : o.byTxid.lookup txid with
  | none =>
    rw [withdraw, found]
    exact Shrinks.refl o
  | some e =>
    rw [withdraw_eq found]
    refine ⟨fun a x mem => ?_, rfl⟩
    obtain ⟨rfl, rfl⟩ | ⟨-, mem⟩ := lookup_insert_some.mp mem
    · exact ⟨e, found, Finset.erase_subset _ _⟩
    · exact ⟨x, mem, Finset.Subset.refl _⟩

variable {o}

/-- Nothing is parked that was not, and what stays parked keeps its places in the queue. -/
structure Trims (o o' : Orphanage) : Prop where
  parked : ∀ t, o'.contains t → o.contains t
  queue : o'.fifo ⊆ o.fifo
  places : o'.fifo.filter o'.contains = o.fifo.filter o'.contains

theorem filter_filter_of_imp {l : List Txid} {p q : Txid → Bool} (imp : ∀ t, q t → p t) :
    (l.filter p).filter q = l.filter q := by
  rw [filter_filter]
  refine filter_congr fun t _ => ?_
  cases there : q t with
  | false => rfl
  | true => rw [imp t there]; rfl

namespace Trims

variable {o' o'' : Orphanage}

theorem of_fifo (same : o'.fifo = o.fifo) (parked : ∀ t, o'.contains t → o.contains t) :
    Trims o o' :=
  ⟨parked, same ▸ Subset.refl _, by rw [same]⟩

theorem refl (o : Orphanage) : Trims o o := of_fifo rfl fun _ => id

theorem trans (first : Trims o o') (second : Trims o' o'') : Trims o o'' where
  parked t there := first.parked t (second.parked t there)
  queue := Subset.trans second.queue first.queue
  places := by
    rw [second.places, ← filter_filter_of_imp second.parked, first.places,
      filter_filter_of_imp second.parked]

theorem retain (trims : Trims o o') : Trims o { o' with fifo := o'.fifo.filter o'.contains } where
  parked := trims.parked
  queue := Subset.trans (filter_subset_self _) trims.queue
  places := (filter_filter_of_imp fun _ => id).trans trims.places

end Trims

theorem Shrinks.contains {o' : Orphanage} (shrinks : Shrinks o o') (t : Txid)
    (there : o'.contains t) : o.contains t := by
  obtain ⟨e', found⟩ := Option.isSome_iff_exists.mp there
  obtain ⟨e, before, -⟩ := shrinks.entries t e' found
  exact Option.isSome_iff_exists.mpr ⟨e, before⟩

section Removals

variable {known : Transaction → Prop} {limits : Nat × Nat} {lost : Txid → Prop}

theorem Books.removeTxid (books : Books known limits lost o) (txid : Txid) :
    Books known limits lost (o.removeTxid txid) := by
  cases found : o.byTxid.lookup txid with
  | none => rwa [removeTxid_none found]
  | some e =>
    rw [removeTxid_eq found]
    exact books.without found (nodup_ascending _) fun p _ => mem_ascending _

theorem Books.fifo (books : Books known limits lost o) (queue : List Txid) :
    Books known limits lost { o with fifo := queue } :=
  { books with }

theorem Books.taken (books : Books known limits lost o) (notes : Map Txid TakenOrphan) (gen : Nat) :
    Books known limits lost { o with taken := notes, nextTakenGen := gen } :=
  { books with }

theorem Queued.retain {queue : List Txid} (queued : o.Queued queue) :
    o.Queued (queue.filter o.contains) := by
  intro txid e found
  refine mem_filter.mpr ⟨queued txid e found, ?_⟩
  simp [contains, found]

theorem Sound.retain (sound : Sound known limits o) :
    Sound known limits { o with fifo := o.fifo.filter o.contains } :=
  ⟨sound.books.fifo _, sound.queued.retain⟩

/-- Orphans are taken out, and right books stay right. -/
structure Reduces (o o' : Orphanage) : Prop extends Shrinks o o', Trims o o' where
  sound : ∀ {known limits}, Sound known limits o → Sound known limits o'

namespace Reduces

variable {o' o'' : Orphanage}

theorem refl (o : Orphanage) : Reduces o o := ⟨Shrinks.refl o, .refl o, id⟩

theorem trans (first : Reduces o o') (second : Reduces o' o'') : Reduces o o'' :=
  ⟨first.toShrinks.trans second.toShrinks, first.toTrims.trans second.toTrims,
    fun sound => second.sound (first.sound sound)⟩

theorem retain (reduces : Reduces o o') :
    Reduces o { o' with fifo := o'.fifo.filter o'.contains } :=
  ⟨reduces.toShrinks.fifo _, reduces.toTrims.retain, fun sound => (reduces.sound sound).retain⟩

end Reduces

theorem reduces_removeTxid (o : Orphanage) (txid : Txid) : Reduces o (o.removeTxid txid) := by
  have shrinks := shrinks_removeTxid o txid
  have same := removeTxid_fifo o txid
  refine ⟨shrinks, .of_fifo same shrinks.contains, fun sound => ⟨sound.books.removeTxid txid, ?_⟩⟩
  rw [same]
  exact shrinks.queued sound.queued

theorem reduces_foldl_removeTxid (l : List Txid) (o : Orphanage) :
    Reduces o (l.foldl Orphanage.removeTxid o) := by
  induction l generalizing o with
  | nil => exact .refl o
  | cons txid l ih => exact (reduces_removeTxid o txid).trans (ih _)

variable (o)

theorem reduces_expire (nowMs : Nat) : Reduces o (o.expire nowMs) :=
  reduces_foldl_removeTxid _ o

theorem reduces_eraseForBlock (blockTxids : List Txid) : Reduces o (o.eraseForBlock blockTxids) :=
  (reduces_foldl_removeTxid _ o).retain

theorem withdraw_fifo (peer : Peer) (txid : Txid) : (o.withdraw peer txid).fifo = o.fifo := by
  unfold withdraw
  cases o.byTxid.lookup txid <;> rfl

theorem trims_withdraw (peer : Peer) (txid : Txid) : Trims o (o.withdraw peer txid) :=
  .of_fifo (withdraw_fifo o peer txid) (shrinks_withdraw o peer txid).contains

variable {o}

theorem Sound.withdraw (sound : Sound known limits o) (found : o.byTxid.lookup txid = some e)
    {peer : Peer} (listed : peer ∈ e.announcers) : Sound known limits (o.withdraw peer txid) := by
  refine ⟨sound.books.withdraw found listed, ?_⟩
  rw [withdraw_fifo]
  exact (shrinks_withdraw o peer txid).queued sound.queued

/-! Eviction. -/

theorem evictOneFromPeer_spec (o : Orphanage) (peer : Peer) : o.evictOneFromPeer peer = (o, false) ∧
        (∀ txid ∈ o.fifo, ∀ e, o.byTxid.lookup txid = some e → peer ∉ e.announcers) ∨
      ∃ txid e, o.byTxid.lookup txid = some e ∧ peer ∈ e.announcers ∧
        (o.evictOneFromPeer peer).2 = true ∧
        ∃ o', (o' = o.withdraw peer txid ∨ o' = (o.withdraw peer txid).removeTxid txid) ∧
          (o.evictOneFromPeer peer).1 = { o' with fifo := o'.fifo.filter o'.contains } := by
  unfold evictOneFromPeer
  cases victim : o.fifo.find? _ with
  | none =>
    refine .inl ⟨rfl, fun txid mem e found listed => find?_eq_none.mp victim txid mem ?_⟩
    simpa [found] using listed
  | some txid =>
    dsimp only
    have listed := find?_some victim
    cases found : o.byTxid.lookup txid with
    | none =>
      rw [found] at listed
      cases listed
    | some e =>
      rw [found, Option.any_some, decide_eq_true_eq] at listed
      refine .inr ⟨txid, e, found, listed, rfl, ?_⟩
      have same : ({ o with
          byTxid := o.byTxid.insert txid { e with announcers := e.announcers.erase peer } } :
            Orphanage).subPeerWeight peer e.weight = o.withdraw peer txid := by
        rw [Orphanage.withdraw, found]
      dsimp only
      rw [same]
      split
      · exact ⟨_, .inr rfl, rfl⟩
      · exact ⟨_, .inl rfl, rfl⟩

theorem reduces_withdraw (found : o.byTxid.lookup txid = some e) {peer : Peer}
    (listed : peer ∈ e.announcers) : Reduces o (o.withdraw peer txid) :=
  ⟨shrinks_withdraw o peer txid, trims_withdraw o peer txid,
    fun sound => sound.withdraw found listed⟩

theorem reduces_evictOneFromPeer (o : Orphanage) (peer : Peer) :
    Reduces o (o.evictOneFromPeer peer).1 := by
  obtain ⟨same, -⟩ | ⟨txid, e, found, listed, -, o', rfl | rfl, same⟩ :=
    evictOneFromPeer_spec o peer
  · rw [same]
    exact .refl o
  · rw [same]
    exact (reduces_withdraw found listed).retain
  · rw [same]
    exact ((reduces_withdraw found listed).trans (reduces_removeTxid _ txid)).retain

/-- The walk passes what is not parked or within the reserve, and takes the first other one out. -/
theorem evictFrom_cases (honorReserve : Bool) (o : Orphanage) (skipped queue : List Txid) :
    ((∀ t ∈ queue, o.contains t → honorReserve && o.announcersWithinReserve t) ∧
      evictFrom honorReserve o skipped queue =
        ({ o with fifo := skipped ++ queue.filter o.contains }, false)) ∨
    ∃ before t after, queue = before ++ t :: after ∧ o.contains t ∧
      (honorReserve && o.announcersWithinReserve t) = false ∧
      (∀ s ∈ before, o.contains s → honorReserve && o.announcersWithinReserve s) ∧
      evictFrom honorReserve o skipped queue =
        ({ o.removeTxid t with fifo := skipped ++ before.filter o.contains ++ after }, true) := by
  induction queue generalizing skipped with
  | nil => exact .inl ⟨nofun, by simp [evictFrom]⟩
  | cons txid queue ih =>
    by_cases goes : o.contains txid ∧ (honorReserve && o.announcersWithinReserve txid) = false
    · exact .inr ⟨[], txid, queue, rfl, goes.1, goes.2, nofun, by simp [evictFrom, goes]⟩
    have stays : o.contains txid → honorReserve && o.announcersWithinReserve txid := by
      simpa using goes
    have passed : evictFrom honorReserve o skipped (txid :: queue) =
        evictFrom honorReserve o (skipped ++ [txid].filter o.contains) queue := by
      by_cases parked : o.contains txid
      · simp [evictFrom, parked, stays parked]
      · simp [evictFrom, parked]
    have split (l : List Txid) : skipped ++ [txid].filter o.contains ++ l.filter o.contains =
        skipped ++ (txid :: l).filter o.contains := by
      rw [append_assoc, ← filter_append]
      rfl
    rw [passed]
    rcases ih (skipped ++ [txid].filter o.contains) with
      ⟨all, same⟩ | ⟨before, t, after, rfl, there, goes, all, same⟩
    · exact .inl ⟨forall_mem_cons.mpr ⟨stays, all⟩, by rw [same, split]⟩
    · exact .inr ⟨txid :: before, t, after, rfl, there, goes,
        forall_mem_cons.mpr ⟨stays, all⟩, by rw [same, split]⟩

theorem reduces_evictOldestFiltered (o : Orphanage) (honorReserve : Bool) :
    Reduces o (o.evictOldestFiltered honorReserve).1 := by
  unfold Orphanage.evictOldestFiltered
  rcases evictFrom_cases honorReserve o [] o.fifo with
    ⟨-, same⟩ | ⟨before, t, after, queue, -, -, -, same⟩
  · rw [same]
    exact (Reduces.refl o).retain
  · have reduces := reduces_removeTxid o t
    rw [same]
    have gone : (o.removeTxid t).contains t = false := by simp [contains, lookup_removeTxid]
    refine ⟨reduces.toShrinks.fifo _, ⟨reduces.parked, ?_, ?_⟩,
      fun sound => ⟨(reduces.sound sound).books.fifo _, ?_⟩⟩
    · rw [queue]
      exact (filter_sublist.append (sublist_cons_self t after)).subset
    · change (before.filter o.contains ++ after).filter (o.removeTxid t).contains =
        o.fifo.filter (o.removeTxid t).contains
      rw [queue, filter_append, filter_filter_of_imp reduces.parked, filter_append, filter_cons,
        gone]
      rfl
    intro a x found
    obtain ⟨e, there, -⟩ := reduces.entries a x found
    have mem := sound.queued a e there
    rw [queue, mem_append, mem_cons] at mem
    rcases mem with mem | rfl | mem
    · exact mem_append_left _ (mem_filter.mpr ⟨mem, by simp [contains, there]⟩)
    · rw [lookup_removeTxid, if_pos rfl] at found
      cases found
    · exact mem_append_right _ mem

theorem reduces_evictOldest (o : Orphanage) : Reduces o o.evictOldest.1 := by
  have once := reduces_evictOldestFiltered o true
  unfold evictOldest
  split
  · next same =>
    rw [same] at once
    exact once
  · next same =>
    rw [same] at once
    exact once.trans (reduces_evictOldestFiltered _ false)

theorem reduces_fitPeer (peer : Peer) (weight rounds : Nat) (o : Orphanage) :
    Reduces o (fitPeer peer weight rounds o).1 := by
  induction rounds generalizing o with
  | zero => exact .refl o
  | succ rounds ih =>
    have once := reduces_evictOneFromPeer o peer
    unfold fitPeer
    split
    · exact .refl o
    · rcases evicted : o.evictOneFromPeer peer with ⟨o', _ | _⟩
      · rw [evicted] at once
        exact once
      · rw [evicted] at once
        exact once.trans (ih o')

theorem reduces_fitAll (weight rounds : Nat) (o : Orphanage) :
    Reduces o (fitAll weight rounds o) := by
  induction rounds generalizing o with
  | zero => exact .refl o
  | succ rounds ih =>
    have once := reduces_evictOldest o
    unfold fitAll
    split
    · rcases evicted : o.evictOldest with ⟨o', _ | _⟩
      · rw [evicted] at once
        exact once
      · rw [evicted] at once
        exact once.trans (ih o')
    · exact .refl o

end Removals

section Mentioned

/-- A peer announces a parked orphan, or stands in a note. -/
def Mentions (o : Orphanage) (p : Peer) : Prop :=
  (∃ txid e, o.byTxid.lookup txid = some e ∧ p ∈ e.announcers) ∨
    ∃ txid t, o.taken.lookup txid = some t ∧ p ∈ t.announcers

/-- A change that mentions no new peers but some. -/
def Adds (peers : Peer → Prop) (o o' : Orphanage) : Prop :=
  ∀ p, o'.Mentions p → peers p ∨ o.Mentions p

variable {o' o'' : Orphanage} {known : Transaction → Prop} {peers : Peer → Prop}

theorem Adds.refl (peers : Peer → Prop) (o : Orphanage) : Adds peers o o := fun _ => .inr

theorem Adds.trans (first : Adds peers o o') (second : Adds peers o' o'') : Adds peers o o'' := by
  intro p mentions
  obtain new | before := second p mentions
  · exact .inl new
  · exact first p before

theorem Shrinks.adds (shrinks : Shrinks o o') (peers : Peer → Prop) : Adds peers o o' := by
  rintro p (⟨txid, e', found, lists⟩ | ⟨txid, t, found, lists⟩)
  · obtain ⟨e, there, sub⟩ := shrinks.entries txid e' found
    exact .inr (.inl ⟨txid, e, there, sub lists⟩)
  · rw [shrinks.taken] at found
    exact .inr (.inr ⟨txid, t, found, lists⟩)

/-- Right books stay right with known transactions, and only some peers join. -/
structure Keeps (known : Transaction → Prop) (peers : Peer → Prop) (o o' : Orphanage) : Prop where
  sound : ∀ {limits}, Sound known limits o → Sound known limits o'
  adds : Adds peers o o'

theorem Keeps.refl (o : Orphanage) : Keeps known peers o o := ⟨id, .refl peers o⟩

theorem Keeps.trans (first : Keeps known peers o o') (second : Keeps known peers o' o'') :
    Keeps known peers o o'' :=
  ⟨fun sound => second.sound (first.sound sound), first.adds.trans second.adds⟩

theorem Reduces.keeps (reduces : Reduces o o') : Keeps known peers o o' :=
  ⟨reduces.sound, reduces.adds peers⟩

end Mentioned

section Parking

variable {known : Transaction → Prop} {limits : Nat × Nat} {peers : Peer → Prop}

/-- Room within the reserve of the peer that announces. -/
def fitAnnouncer (announcer : Option Peer) (weight : Nat) (o : Orphanage) : Orphanage × Bool :=
  announcer.elim (o, true) fun peer => fitPeer peer weight (o.byTxid.keys.card + 1) o

theorem reduces_fitAnnouncer (announcer : Option Peer) (weight : Nat) (o : Orphanage) :
    Reduces o (fitAnnouncer announcer weight o).1 := by
  cases announcer with
  | none => exact .refl o
  | some peer => exact reduces_fitPeer peer weight _ o

variable (o)

theorem insertRoomy_eq (tx : Transaction) (missing : Finset Txid)
    (announcer : Option Peer) (nowMs : Nat) :
    o.insertRoomy tx missing announcer nowMs =
      if maxOrphanTxWeight < tx.weight then (o, false)
      else
        let (o, fits) := fitAnnouncer announcer tx.weight o
        if ¬fits then (o, false)
        else
          let o := fitAll tx.weight (o.byTxid.keys.card + 1) o
          if o.maxCount ≤ o.byTxid.keys.card then (o, false)
          else if o.maxWeight - o.totalWeight < tx.weight then (o, false)
          else (o.park tx missing announcer nowMs, true) := by
  cases announcer <;> rfl

theorem insertRoomy_spec (tx : Transaction) (missing : Finset Txid)
    (announcer : Option Peer) (nowMs : Nat) :
    ∃ o', Reduces o o' ∧ (o.insertRoomy tx missing announcer nowMs = (o', false) ∨
      o'.byTxid.keys.card < o'.maxCount ∧ tx.weight ≤ o'.maxWeight - o'.totalWeight ∧
        o.insertRoomy tx missing announcer nowMs = (o'.park tx missing announcer nowMs, true)) := by
  rw [insertRoomy_eq]
  split
  · exact ⟨o, .refl o, .inl rfl⟩
  · have fitted := reduces_fitAnnouncer announcer tx.weight o
    generalize fitAnnouncer announcer tx.weight o = fit at fitted ⊢
    obtain ⟨o₁, fits⟩ := fit
    dsimp only at fitted ⊢
    split
    · exact ⟨o₁, fitted, .inl rfl⟩
    · refine ⟨_, fitted.trans (reduces_fitAll tx.weight (o₁.byTxid.keys.card + 1) o₁), ?_⟩
      split
      · exact .inl rfl
      · next few =>
        split
        · exact .inl rfl
        · next room => exact .inr ⟨not_le.mp few, not_lt.mp room, rfl⟩

variable {tx : Transaction} {peer : Peer}

theorem keeps_addAnnouncer (txid : Txid) (hear : peers peer) :
    Keeps known peers o (o.addAnnouncer txid peer) := by
  have books {limits} (sound : Sound known limits o) := sound.books.addAnnouncer txid peer
  unfold Orphanage.addAnnouncer at books ⊢
  cases found : o.byTxid.lookup txid with
  | none => exact .refl o
  | some e =>
    simp only [found] at books ⊢
    by_cases listed : peer ∈ e.announcers
    · rw [if_pos listed]
      exact .refl o
    · simp only [if_neg listed] at books ⊢
      refine ⟨fun sound => ⟨books sound, fun a x mem => ?_⟩, ?_⟩
      · obtain ⟨rfl, rfl⟩ | ⟨-, mem⟩ := lookup_insert_some.mp mem
        · exact sound.queued _ e found
        · exact sound.queued a x mem
      · rintro p (⟨a, x, there, lists⟩ | noted)
        · obtain ⟨rfl, rfl⟩ | ⟨-, there⟩ := lookup_insert_some.mp there
          · obtain rfl | lists := Finset.mem_insert.mp lists
            · exact .inl hear
            · exact .inr (.inl ⟨_, e, found, lists⟩)
          · exact .inr (.inl ⟨a, x, there, lists⟩)
        · exact .inr (.inr noted)

theorem keeps_addAnnouncerWtxid (wtxid : Wtxid) (hear : peers peer) :
    Keeps known peers o (o.addAnnouncerWtxid wtxid peer) := by
  unfold Orphanage.addAnnouncerWtxid
  split
  · exact .refl o
  · exact keeps_addAnnouncer o _ hear

variable {o}

theorem keeps_addAnnouncers (txid : Txid) (l : List Peer) (hear : ∀ peer ∈ l, peers peer)
    (o : Orphanage) : Keeps known peers o (o.addAnnouncers txid l) := by
  induction l generalizing o with
  | nil => exact .refl o
  | cons peer l ih =>
    exact (keeps_addAnnouncer o txid (hear peer mem_cons_self)).trans
      (ih (forall_mem_cons.mp hear).2 _)

theorem adds_park (o : Orphanage) (tx : Transaction) (missing : Finset Txid)
    {announcer : Option Peer} (hear : ∀ peer ∈ announcer, peers peer) (nowMs : Nat) :
    Adds peers o (o.park tx missing announcer nowMs) := by
  rw [park_eq]
  rintro p (⟨a, x, there, lists⟩ | noted)
  · obtain ⟨rfl, rfl⟩ | ⟨-, there⟩ := lookup_insert_some.mp there
    · exact .inl (hear p (Option.mem_toFinset.mp lists))
    · exact .inr (.inl ⟨a, x, there, lists⟩)
  · exact .inr (.inr noted)

section Announced

variable (o : Orphanage) (isKnown : known tx) (missing : Finset Txid) {announcer : Option Peer}
  (hear : ∀ peer ∈ announcer, peers peer) (nowMs : Nat)
include isKnown hear

theorem keeps_insertRoomy (fresh : o.byTxid.lookup tx.txid = none) :
    Keeps known peers o (o.insertRoomy tx missing announcer nowMs).1 := by
  obtain ⟨o', reduces, same | ⟨few, room, same⟩⟩ :=
    insertRoomy_spec o tx missing announcer nowMs
  · rw [same]
    exact reduces.keeps
  · rw [same]
    refine reduces.keeps.trans ⟨fun ⟨books, queued⟩ => ?_, adds_park o' tx missing hear nowMs⟩
    have cap := books.weight
    refine ⟨books.park isKnown (reduces.lookup_none fresh) few (by omega) _ _ _, ?_⟩
    rw [park_eq]
    intro a x found
    obtain ⟨rfl, rfl⟩ | ⟨-, found⟩ := lookup_insert_some.mp found
    · exact mem_append_right _ (mem_singleton_self _)
    · exact mem_append_left _ (queued a x found)

theorem keeps_insertFromAt : Keeps known peers o (o.insertFromAt tx missing announcer nowMs).1 := by
  have expired : Keeps known peers o (o.expire nowMs) := (reduces_expire o nowMs).keeps
  unfold Orphanage.insertFromAt
  split
  · exact .refl o
  · dsimp only
    cases parked : (o.expire nowMs).byTxid.lookup tx.txid with
    | none => exact expired.trans (keeps_insertRoomy _ isKnown missing hear nowMs parked)
    | some e =>
      dsimp only
      split
      · cases announcer with
        | none => exact expired
        | some peer => exact expired.trans (keeps_addAnnouncer _ _ (hear peer rfl))
      · exact (expired.trans (reduces_removeTxid _ _).keeps).trans
          (keeps_insertRoomy _ isKnown missing hear nowMs
            ((lookup_removeTxid ..).trans (if_pos rfl)))

theorem keeps_parkOrphanFrom (live : Bool) :
    Keeps known peers o (o.parkOrphanFrom live tx missing announcer nowMs) := by
  unfold Orphanage.parkOrphanFrom
  split
  · exact .refl o
  · split
    · cases announcer with
      | none => exact .refl o
      | some peer => exact keeps_addAnnouncer _ _ (hear peer rfl)
    · exact keeps_insertFromAt o isKnown missing hear nowMs

end Announced

theorem Sound.notes (sound : Sound known limits o) (taken : Map Txid TakenOrphan) (gen : Nat) :
    Sound known limits { o with taken, nextTakenGen := gen } :=
  ⟨sound.books.taken taken gen, sound.queued⟩

variable (o)

theorem keeps_dropNote (txid : Txid) :
    Keeps known peers o { o with taken := o.taken.erase txid } := by
  refine ⟨fun sound => sound.notes _ _, ?_⟩
  rintro p (parked | ⟨a, t, found, lists⟩)
  · exact .inr (.inl parked)
  · rw [Map.lookup_erase] at found
    split_ifs at found
    exact .inr (.inr ⟨a, t, found, lists⟩)

/-- A lifted orphan comes back under the peers of its note, or without a note under those that it
was taken with. -/
theorem keeps_parkAnnounced (live : Bool) (isKnown : known tx)
    (missing : Finset Txid) (announcers : List Peer) (nowMs : Nat)
    (hear : (o.taken.lookup tx.txid).isSome ∨ ∀ peer ∈ announcers, peers peer) :
    Keeps known peers o (o.parkAnnounced live tx missing announcers nowMs) := by
  have back (o : Orphanage) (l : List Peer) (peers' : Peer → Prop)
      (hear : ∀ peer ∈ l, peers' peer) :
      Keeps known peers' o
        ((o.parkOrphanFrom live tx missing l.head? nowMs).addAnnouncers tx.txid l.tail) :=
    (keeps_parkOrphanFrom o isKnown missing
      (fun peer mem => hear peer (mem_of_mem_head? mem)) nowMs live).trans
      (keeps_addAnnouncers tx.txid _ (fun peer mem => hear peer (mem_of_mem_tail mem)) _)
  unfold Orphanage.parkAnnounced Orphanage.claimTaken
  cases note : o.taken.lookup tx.txid with
  | none =>
    rw [note] at hear
    exact back o announcers peers (hear.resolve_left nofun)
  | some t =>
    have claimed : Keeps known peers o { o with taken := o.taken.erase tx.txid } :=
      keeps_dropNote o tx.txid
    cases drop : t.drop with
    | true =>
      simp only [drop]
      exact claimed
    | false =>
      simp only [drop]
      have parked := back { o with taken := o.taken.erase tx.txid } (ascending t.announcers)
        (· ∈ t.announcers) fun peer mem => (mem_ascending _).mp mem
      refine ⟨fun sound => parked.sound (claimed.sound sound), fun p mentions => ?_⟩
      obtain noted | before := parked.adds p mentions
      · exact .inr (.inr ⟨tx.txid, t, note, noted⟩)
      · exact claimed.adds p before

theorem keeps_forgetTakenGen (txid : Txid) (gen : Nat) :
    Keeps known peers o (o.forgetTakenGen txid gen) := by
  unfold Orphanage.forgetTakenGen
  split
  · exact keeps_dropNote o txid
  · exact .refl o

variable {o}

theorem adds_noteTaken {o' : Orphanage} (shrinks : Shrinks o o')
    (found : o.byTxid.lookup txid = some e) : Adds peers o (o'.noteTaken txid e.announcers).1 := by
  rintro p (parked | ⟨a, t, there, lists⟩)
  · exact shrinks.adds peers p (.inl parked)
  · change (o'.taken.insert txid _).lookup a = some t at there
    rw [Map.lookup_insert] at there
    split at there
    · cases there
      exact .inr (.inl ⟨txid, e, found, lists⟩)
    · exact shrinks.adds peers p (.inr ⟨a, t, there, lists⟩)

theorem keeps_liftParkedMember (o : Orphanage) (txid : Txid) :
    Keeps known peers o (o.liftParkedMember txid).1 := by
  have removed := reduces_removeTxid o txid
  unfold Orphanage.liftParkedMember
  cases found : o.byTxid.lookup txid with
  | none => exact .refl o
  | some e =>
    exact ⟨fun sound => (removed.sound sound).notes _ _, adds_noteTaken removed.toShrinks found⟩

theorem takeChildren_sound {parent : Txid} (rest : List Txid)
    (books : Books known limits (· = parent) o) (row : o.byParent.lookup parent = none)
    (waiting : ∀ txid e, o.byTxid.lookup txid = some e → parent ∈ e.missing → txid ∈ rest)
    (queued : o.Queued o.fifo) : Sound known limits (takeChildren parent o rest).1 := by
  induction rest generalizing o with
  | nil =>
    refine ⟨{ books with parents := fun p _ => ?_ }, queued⟩
    by_cases here : p = parent
    · subst here
      change ParentExact o.byTxid p (o.byParent.lookup p)
      rw [row]
      refine ⟨fun txid => ⟨fun mem => absurd mem (Finset.notMem_empty _), ?_⟩, nofun⟩
      rintro ⟨e, found, waits⟩
      cases waiting txid e found waits
    · exact books.parents p here
  | cons cid rest ih =>
    unfold takeChildren takeChild
    cases found : o.byTxid.lookup cid with
    | none =>
      refine ih books row (fun txid e there waits => ?_) queued
      obtain rfl | later := mem_cons.mp (waiting txid e there waits)
      · rw [found] at there
        cases there
      · exact later
    | some e =>
      let parents := (ascending e.missing).filter (· ≠ parent)
      have nodup : parents.Nodup := (nodup_ascending _).filter _
      have same : parents.foldl (fun o p => o.unlistChild cid p)
          (({ o with byTxid := o.byTxid.erase cid, byWtxid := o.byWtxid.erase e.wtxid } :
            Orphanage).unaccount e) = o.without cid e parents := by
        rw [unaccount_eq, foldl_unlistChild]
        rfl
      have left : Books known limits (· = parent) (o.without cid e parents) :=
        books.without found nodup fun p kept => by simp [parents, kept]
      dsimp only
      rw [same]
      refine ih (left.taken _ _) ?_ (fun txid x there waits => ?_) ?_
      · change (o.byParent.alterAll parents _).lookup parent = none
        rw [Map.lookup_alterAll _ _ nodup, if_neg (by simp [parents]), row]
      · obtain ⟨other, there⟩ := lookup_erase_some.mp there
        exact (mem_cons.mp (waiting txid x there waits)).resolve_left other
      · exact (shrinks_without o cid e parents).queued queued

theorem Sound.takeChildrenOf (sound : Sound known limits o) {order : Finset Txid → List Txid}
    (walks : ∀ s txid, txid ∈ order s ↔ txid ∈ s) (parent : Txid) :
    Sound known limits (o.takeChildrenOf order parent).1 := by
  unfold Orphanage.takeChildrenOf
  cases row : o.byParent.lookup parent with
  | none => exact sound
  | some children =>
    have exact' := sound.books.parents parent not_false
    rw [row] at exact'
    refine takeChildren_sound _ { sound.books with parents := fun p other => ?_ } ?_ ?_ sound.queued
    · rw [Map.lookup_erase, if_neg other]
      exact sound.books.parents p not_false
    · exact (Map.lookup_erase _).trans (if_pos rfl)
    · intro txid e found waits
      exact (walks _ _).mpr ((exact'.lists txid).mpr ⟨e, found, waits⟩)

def leaves (peer : Peer) (e : OrphanEntry) : OrphanEntry :=
  { e with announcers := e.announcers.erase peer }

theorem withdraw_byTxid (o : Orphanage) (peer : Peer) (txid : Txid) :
    (o.withdraw peer txid).byTxid = o.byTxid.modify txid (leaves peer) := by
  unfold Orphanage.withdraw Map.modify
  cases o.byTxid.lookup txid <;> rfl

theorem foldl_withdraw_byTxid (peer : Peer) (l : List Txid) (o : Orphanage) :
    (l.foldl (withdraw · peer) o).byTxid = o.byTxid.modifyAll l (leaves peer) := by
  induction l generalizing o with
  | nil => rfl
  | cons txid l ih =>
    rw [foldl_cons, ih, withdraw_byTxid]
    rfl

theorem Sound.foldl_withdraw (l : List Txid) (nodup : l.Nodup)
    (listed : ∀ txid ∈ l, ∃ e, o.byTxid.lookup txid = some e ∧ peer ∈ e.announcers)
    (sound : Sound known limits o) :
    Sound known limits (l.foldl (Orphanage.withdraw · peer) o) := by
  induction l generalizing o with
  | nil => exact sound
  | cons txid l ih =>
    obtain ⟨fresh, nodup⟩ := nodup_cons.mp nodup
    obtain ⟨e, found, lists⟩ := listed txid mem_cons_self
    refine ih nodup (fun a mem => ?_) (sound.withdraw found lists)
    obtain ⟨x, found', lists'⟩ := listed a (mem_cons_of_mem _ mem)
    refine ⟨x, ?_, lists'⟩
    have other : a ≠ txid := fun same => fresh (same ▸ mem)
    rw [withdraw_byTxid, Map.lookup_modify, if_neg other, found']

theorem mem_hit (o : Orphanage) (peer : Peer) :
    txid ∈ (ascending o.byTxid.keys).filter (fun t =>
        (o.byTxid.lookup t).any (peer ∈ ·.announcers)) ↔
      ∃ e, o.byTxid.lookup txid = some e ∧ peer ∈ e.announcers := by
  rw [mem_filter, mem_ascending, Finmap.mem_keys]
  cases found : o.byTxid.lookup txid with
  | none => simp
  | some e =>
    have here : txid ∈ o.byTxid := by
      rw [← Finmap.lookup_isSome, found]
      rfl
    simp [here]

theorem Sound.eraseForPeer (sound : Sound known limits o) (peer : Peer) :
    Sound known limits (o.eraseForPeer peer) := by
  have withdrawn := sound.foldl_withdraw _ ((nodup_ascending _).filter _) fun txid mem =>
    (mem_hit o peer).mp mem
  exact ((reduces_foldl_removeTxid _ _).sound withdrawn).retain.notes _ _

end Parking

/-- The calls of the orphanage. -/
inductive Op
  | insert (tx : Transaction) (missing : Finset Txid) (announcer : Option Peer) (nowMs : Nat)
  | deliver (live : Bool) (tx : Transaction) (missing : Finset Txid) (announcer : Option Peer)
      (nowMs : Nat)
  | announce (txid : Txid) (peer : Peer)
  | announceWtxid (wtxid : Wtxid) (peer : Peer)
  | takeChildren (parent : Txid)
  | lift (txid : Txid)
  | take (txid : Txid)
  | expire (nowMs : Nat)
  | evictFromPeer (peer : Peer)
  | evictOldest
  | eraseForPeer (peer : Peer)
  | eraseForBlock (blockTxids : List Txid)
  | repark (live : Bool) (tx : Transaction) (missing : Finset Txid) (announcers : List Peer)
      (nowMs : Nat)
  | forget (txid : Txid) (gen : Nat)

def Op.tx? : Op → Option Transaction
  | .insert tx .. | .deliver _ tx .. | .repark _ tx .. => some tx
  | _ => none

def apply (order : Finset Txid → List Txid) (o : Orphanage) : Op → Orphanage
  | .insert tx missing announcer nowMs => (o.insertFromAt tx missing announcer nowMs).1
  | .deliver live tx missing announcer nowMs => o.parkOrphanFrom live tx missing announcer nowMs
  | .announce txid peer => o.addAnnouncer txid peer
  | .announceWtxid wtxid peer => o.addAnnouncerWtxid wtxid peer
  | .takeChildren parent => (o.takeChildrenOf order parent).1
  | .lift txid => (o.liftParkedMember txid).1
  | .take txid => (o.takeTxid txid).1
  | .expire nowMs => o.expire nowMs
  | .evictFromPeer peer => (o.evictOneFromPeer peer).1
  | .evictOldest => o.evictOldest.1
  | .eraseForPeer peer => o.eraseForPeer peer
  | .eraseForBlock blockTxids => o.eraseForBlock blockTxids
  | .repark live tx missing announcers nowMs => o.parkAnnounced live tx missing announcers nowMs
  | .forget txid gen => o.forgetTakenGen txid gen

section Runs

variable {known : Transaction → Prop} {limits : Nat × Nat} {order : Finset Txid → List Txid}
  (walks : ∀ s txid, txid ∈ order s ↔ txid ∈ s)
include walks

theorem Sound.apply (sound : Sound known limits o) (op : Op) (isKnown : ∀ tx ∈ op.tx?, known tx) :
    Sound known limits (o.apply order op) := by
  have kept {o' : Orphanage} (keeps : Keeps known (fun _ => True) o o') : Sound known limits o' :=
    keeps.sound sound
  cases op with
  | insert tx missing announcer nowMs =>
    exact kept (keeps_insertFromAt o (isKnown tx rfl) missing (fun _ _ => trivial) nowMs)
  | deliver live tx missing announcer nowMs =>
    exact kept (keeps_parkOrphanFrom o (isKnown tx rfl) missing (fun _ _ => trivial) nowMs live)
  | announce txid peer => exact kept (keeps_addAnnouncer o txid trivial)
  | announceWtxid wtxid peer => exact kept (keeps_addAnnouncerWtxid o wtxid trivial)
  | takeChildren parent => exact sound.takeChildrenOf walks parent
  | lift txid => exact kept (keeps_liftParkedMember o txid)
  | take txid => exact kept (reduces_removeTxid o txid).keeps
  | expire nowMs => exact kept (reduces_expire o nowMs).keeps
  | evictFromPeer peer => exact kept (reduces_evictOneFromPeer o peer).keeps
  | evictOldest => exact kept (reduces_evictOldest o).keeps
  | eraseForPeer peer => exact sound.eraseForPeer peer
  | eraseForBlock blockTxids => exact kept (reduces_eraseForBlock o blockTxids).keeps
  | repark live tx missing announcers nowMs =>
    exact kept (keeps_parkAnnounced o live (isKnown tx rfl) missing announcers nowMs
      (.inr fun _ _ => trivial))
  | forget txid gen => exact kept (keeps_forgetTakenGen o txid gen)

theorem Sound.foldl_apply (ops : List Op) (isKnown : ∀ op ∈ ops, ∀ tx ∈ op.tx?, known tx)
    (sound : Sound known limits o) : Sound known limits (ops.foldl (Orphanage.apply order) o) := by
  induction ops generalizing o with
  | nil => exact sound
  | cons op ops ih =>
    refine ih (forall_mem_cons.mp isKnown).2 ?_
    exact sound.apply walks op (isKnown op mem_cons_self)

/-- The books are right in every state that the functions of an orphanage lead to: weights are sums
over what is parked, the rows by parent and by wtxid are the inverses of it, the caps hold, and all
that is parked has a place in the queue. -/
theorem run_accounts {maxWeight : Nat} (fits : maxWeight ≤ u64Max) (maxCount : Nat) (ops : List Op)
    (commits : Commits fun tx => ∃ op ∈ ops, op.tx? = some tx) :
    let o := ops.foldl (Orphanage.apply order) (withLimits maxWeight maxCount)
    o.totalWeight = Map.total o.byTxid (·.weight) ∧
    (∀ peer, o.peerOrphanWeight peer =
      Map.total o.byTxid fun e => if peer ∈ e.announcers then e.weight else 0) ∧
    (∀ parent txid, (∃ row, o.byParent.lookup parent = some row ∧ txid ∈ row) ↔
      ∃ e, o.byTxid.lookup txid = some e ∧ parent ∈ e.missing) ∧
    (∀ wtxid txid, o.byWtxid.lookup wtxid = some txid ↔
      ∃ e, o.byTxid.lookup txid = some e ∧ e.wtxid = wtxid) ∧
    o.byTxid.keys.card ≤ max maxCount 1 ∧
    o.totalWeight ≤ max maxWeight maxOrphanTxWeight ∧
    ∀ txid, o.contains txid → txid ∈ o.fifo := by
  intro o
  obtain ⟨books, queued⟩ : Sound _ (max maxWeight maxOrphanTxWeight, max maxCount 1) o :=
    Sound.foldl_apply walks ops (fun op mem tx is => ⟨op, mem, is⟩)
      (sound_withLimits (fun tx => ∃ op ∈ ops, op.tx? = some tx) fits maxCount)
  obtain ⟨weightCap, countCap⟩ := Prod.mk.inj books.limits
  refine ⟨books.total, fun peer => (books.peers peer).weight, fun parent txid => ?_,
    books.wtxids commits, countCap ▸ books.count, weightCap ▸ books.weight, fun txid parked => ?_⟩
  · rw [← (books.parents parent not_false).lists]
    cases o.byParent.lookup parent <;> simp
  · obtain ⟨e, found⟩ := Option.isSome_iff_exists.mp parked
    exact queued txid e found

end Runs

def waitingTx : Transaction where
  txid := 5
  wtxid := 6
  version := 2
  input := [⟨7, 0⟩, ⟨8, 0⟩, ⟨9, 0⟩]
  output := []
  weight := 900

/-- Two peers announce an orphan of three parents, which is lifted when one of them comes. -/
def waitingOps : List Op :=
  [.insert waitingTx {7, 8, 9} (some 1) 0, .announce 5 2, .takeChildren 7,
    .repark false waitingTx {8, 9} [1, 2] 0]

theorem run_accounts_waiting :
    let o := waitingOps.foldl (Orphanage.apply ascending) (withLimits 0 0)
    o.totalWeight = 900 ∧ o.totalWeight = Map.total o.byTxid (·.weight) ∧
      (o.contains 5 ∧ (o.contains 5 → 5 ∈ o.fifo)) := by
  have one : ∀ tx, (∃ op ∈ waitingOps, op.tx? = some tx) → tx = waitingTx := by
    rintro tx ⟨op, mem, is⟩
    simp only [waitingOps, mem_cons, not_mem_nil, or_false] at mem
    rcases mem with rfl | rfl | rfl | rfl <;> cases is <;> rfl
  have books := run_accounts (fun s _ => mem_ascending s) (Nat.zero_le _) 0 waitingOps
    fun tx tx' known known' _ => by rw [one tx known, one tx' known']
  exact ⟨by decide +kernel, books.1, by decide +kernel, books.2.2.2.2.2.2 5⟩

end Orphanage

end Rbitcoin.Mempool
