import Rbitcoin.Mempool.Commit
import Rbitcoin.Mempool.WorstChunks

/-! The trim of the pool. While the index of the worst chunks is exact and no write fails, a pass
over the worst chunk unlinks one of its transactions at least, unless the chunk is the protected
transaction alone. So the loop ends within the budget or in front of such a chunk. -/

namespace Rbitcoin.Mempool

open Ordered List Option

namespace Tracked

variable {rank : Txid → Nat} {s s' : Tracked} {entry : TxEntry} {tx : Transaction}

theorem Drops.live (drops : Drops s s') : s'.graph.live ⊆ s.graph.live := by
  intro t mem
  obtain ⟨e', left⟩ := isSome_iff_exists.mp (TxGraph.mem_live.mp mem)
  obtain ⟨e, found, -⟩ := drops.entry left
  exact TxGraph.mem_live.mpr (isSome_iff_exists.mpr ⟨e, found⟩)

theorem Drops.liveWeight (drops : Drops s s') : s'.graph.liveWeight ≤ s.graph.liveWeight := by
  induction drops with
  | refl => exact le_rfl
  | remove found body _ ih =>
    exact ih.trans (Nat.le_of_add_left_le (TxGraph.remove_liveWeight found).le)

theorem Indexed.drops (indexed : s.Indexed rank) (drops : Drops s s') : s'.Indexed rank := by
  induction drops with
  | refl => exact indexed
  | remove found body _ ih =>
    exact ih (step_indexed indexed fun other here => some.inj (here.symm.trans body))

/-- Entries and bodies agree, and the total is that of the live entries. -/
structure Weighed (s : Tracked) : Prop where
  txid : ∀ t tx, s.bodies.lookup t = some tx → tx.txid = t
  weight : ∀ t, (s.bodies.lookup t).map (·.weight) = (s.graph.get t).map (·.weight)
  counted : s.graph.totalWeight = s.graph.liveWeight

theorem lookup_remove (txid t : Txid) : (s.step (.remove txid tx)).bodies.lookup t =
    if t = txid then none else s.bodies.lookup t := Map.lookup_erase _

theorem lookup_insert (t : Txid) : (s.step (.insert entry tx)).bodies.lookup t =
    if t = entry.txid then some tx else s.bodies.lookup t := Map.lookup_insert _ _

theorem Weighed.drops (weighed : s.Weighed) (drops : Drops s s') : s'.Weighed := by
  induction drops with
  | refl => exact weighed
  | @remove s _ txid e body found here _ ih =>
    apply ih
    refine ⟨?_, ?_, ?_⟩
    · intro t tx kept
      rw [lookup_remove] at kept
      split_ifs at kept
      exact weighed.txid t tx kept
    · intro t
      have entries : ((s.step (.remove txid body)).graph.get t).map (·.weight) =
          if t = txid then none else (s.graph.get t).map (·.weight) :=
        TxGraph.remove_map (fun _ _ _ => rfl) found t
      rw [lookup_remove, entries]
      split
      · rfl
      · exact weighed.weight t
    · have total : (s.step (.remove txid body)).graph.totalWeight =
          s.graph.totalWeight - e.weight := TxGraph.remove_totalWeight found
      have live : e.weight + (s.step (.remove txid body)).graph.liveWeight = s.graph.liveWeight :=
        TxGraph.remove_liveWeight found
      have before := weighed.counted
      omega

theorem Weighed.insert (weighed : s.Weighed) (fresh : s.graph.get entry.txid = none)
    (txid : tx.txid = entry.txid) (weight : tx.weight = entry.weight)
    (light : s.graph.liveWeight + entry.weight ≤ u64Max) :
    (s.step (.insert entry tx)).Weighed := by
  refine ⟨?_, ?_, ?_⟩
  · intro t body here
    rw [lookup_insert] at here
    split at here
    · next root =>
      obtain rfl := some.inj here
      exact txid.trans root.symm
    · exact weighed.txid t body here
  · intro t
    have entries : ((s.step (.insert entry tx)).graph.get t).map (·.weight) =
        if t = entry.txid then some entry.weight else (s.graph.get t).map (·.weight) :=
      TxGraph.insert_map (fun _ _ _ => rfl) t
    rw [lookup_insert, entries]
    split
    · exact congrArg some weight
    · exact weighed.weight t
  · have total : (s.step (.insert entry tx)).graph.totalWeight =
        satAdd s.graph.totalWeight entry.weight := TxGraph.insert_totalWeight
    have live : (s.step (.insert entry tx)).graph.liveWeight =
        entry.weight + s.graph.liveWeight := TxGraph.insert_liveWeight fresh
    have before := weighed.counted
    rw [total, satAdd_eq]
    omega

end Tracked

namespace Pool

variable {rank : Txid → Nat} {p q : Pool} {clock : Clock} {protect : Option Txid} {t txid : Txid}

/-- What the trim relies on: an exact index, slots inside the table and writes that do not fail. -/
structure Ready (rank : Txid → Nat) (p : Pool) : Prop where
  indexed : p.tracked.Indexed rank
  weighed : p.tracked.Weighed
  slots : ∀ t e, p.graph.get t = some e → e.slot < p.store.slots.length
  io : ∀ ok ∈ p.store.io, ok = true

/-- The pool is over its budget, and its worst chunk is the transaction alone. -/
def Stuck (p : Pool) (txid : Txid) : Prop :=
  p.maxWeight < p.graph.totalWeight ∧ p.graph.worstChunk.map (·.2.txids) = some [txid]

instance : Decidable (p.Stuck txid) := inferInstanceAs (Decidable (_ ∧ _))

theorem unlinkTxid_failed {e : AcceptError} (failed : (p.unlinkTxid t).2 = .error e) :
    (p.unlinkTxid t).1.graph = p.graph := by
  unfold unlinkTxid at failed ⊢
  grind

theorem unlinkAll_none {l : List Txid} (none : (p.unlinkAll l).2 = []) :
    (p.unlinkAll l).1.graph = p.graph := by
  induction l generalizing p with
  | nil => rfl
  | cons t l ih =>
    unfold unlinkAll at none ⊢
    cases unlinked : p.unlinkTxid t with
    | mk q result =>
      rw [unlinked] at none
      cases result with
      | ok _ => cases none
      | error e =>
        have same : q.graph = p.graph := by
          have failed := unlinkTxid_failed (congrArg Prod.snd unlinked)
          rwa [unlinked] at failed
        exact (ih none).trans same

section

variable (ready : p.Ready rank)
include ready

theorem Ready.drops (shrinks : p.Shrinks q) (io : ∀ ok ∈ q.store.io, ok = true) : q.Ready rank where
  indexed := ready.indexed.drops shrinks.drops
  weighed := ready.weighed.drops shrinks.drops
  slots t e found := by
    obtain ⟨e', before, same⟩ := shrinks.drops.entry found
    rw [same.slot]
    exact (ready.slots t e' before).trans_le shrinks.slots
  io := io

theorem Ready.beside (beside : p.Beside q) : q.Ready rank :=
  ready.drops beside.shrinks fun ok mem => ready.io ok (beside.store.io ok mem)

theorem Ready.unlinkTxid (t : Txid) :
    (p.unlinkTxid t).1.Ready rank ∧ (p.unlinkTxid t).1.graph.get t = none := by
  obtain ⟨gone, io⟩ := unlinkTxid_gone ready.indexed.1.live ready.slots ready.io t
  exact ⟨ready.drops (p.unlinkTxid_unlinks t).toShrinks io, gone⟩

theorem Ready.unlinkTree (live : p.graph.contains t = true) :
    (p.unlinkTree t).1.graph.get t = none ∧ (p.unlinkTree t).2 ≠ [] := by
  unfold Pool.unlinkTree
  dsimp only
  generalize (range (((p.bodies.lookup t).map (·.output.length % 2 ^ 32)).getD 0)).map
    (fun vout => (⟨t, vout⟩ : OutPoint)) = spent
  have kept : (p.unlinkConflicts spent).1.Ready rank :=
    p.unlinkConflicts_keeps (fun _ t ready => (ready.unlinkTxid t).1) ready spent
  have same (none : (p.unlinkConflicts spent).2 = []) :
      (p.unlinkConflicts spent).1.graph = p.graph := by
    unfold unlinkConflicts at none ⊢
    dsimp only at none ⊢
    split at none
    · next empty => rw [if_pos empty]
    · next some' => rw [if_neg some', unlinkAll_none none]
  obtain ⟨-, gone⟩ := kept.unlinkTxid t
  split
  · next eq =>
    rw [eq] at gone
    exact ⟨gone, by simp⟩
  · next e eq =>
    have failed := unlinkTxid_failed (congrArg Prod.snd eq)
    rw [eq] at gone failed
    refine ⟨gone, fun none => ?_⟩
    -- nothing has left, so the transaction is live and its own unlink does not fail
    rw [TxGraph.contains, ← same none, ← failed, gone] at live
    cases live

theorem Ready.unlinkChunk {l : List Txid} (mem : t ∈ l) (free : protect ≠ some t)
    (live : p.graph.contains t = true) : (Pool.unlinkChunk protect p l).2 ≠ [] ∧
      (Pool.unlinkChunk protect p l).1.graph.live.card < p.graph.live.card := by
  induction l with
  | nil => cases mem
  | cons h l ih =>
    unfold Pool.unlinkChunk
    split
    · next skipped =>
      apply ih
      rcases mem_cons.mp mem with rfl | later
      · rcases skipped with same | dead
        · exact absurd same free
        · exact absurd live dead
      · exact later
    · next taken =>
      obtain ⟨-, there⟩ := not_or.mp taken
      have here := not_not.mp there
      obtain ⟨gone, some'⟩ := ready.unlinkTree here
      have first : p.Unlinks (p.unlinkTree h).1 :=
        p.unlinkTree_keeps (fun q t held => held.trans (q.unlinkTxid_unlinks t)) (.refl p) h
      have later : (p.unlinkTree h).1.Unlinks (Pool.unlinkChunk protect (p.unlinkTree h).1 l).1 :=
        unlinkChunk_keeps _ protect (fun q t held => held.trans (q.unlinkTxid_unlinks t))
          (.refl _) l
      refine ⟨fun none => some' (append_eq_nil_iff.mp none).1, ?_⟩
      refine (Finset.card_le_card later.drops.live).trans_lt (Finset.card_lt_card ?_)
      refine (Finset.ssubset_iff_of_subset first.drops.live).mpr
        ⟨h, TxGraph.mem_live.mpr here, fun still => ?_⟩
      have alive := TxGraph.mem_live.mp still
      rw [TxGraph.contains, show (p.unlinkTree h).1.tracked.graph.get h = none from gone] at alive
      cases alive

/-- While something has weight there is a worst chunk, of live transactions. -/
theorem Ready.exists_worst (heavy : p.graph.totalWeight ≠ 0) :
    ∃ rep chunk, p.graph.worstChunk = some (rep, chunk) ∧ chunk.txids ≠ [] ∧ chunk.txids.Nodup ∧
      ∀ t ∈ chunk.txids, p.graph.contains t = true := by
  have exact := TxGraph.worstExact_of_covers ready.indexed.1
    (TxGraph.covers_all.mpr ready.indexed.2)
  rw [show p.graph.totalWeight = p.graph.liveWeight from ready.weighed.counted] at heavy
  obtain ⟨t, e, found, -⟩ := Map.exists_of_total_ne_zero heavy
  have live : p.graph.contains t = true := isSome_iff_exists.mpr ⟨e, found⟩
  obtain ⟨⟨rep, chunk⟩, worst⟩ := ne_none_iff_exists'.mp (exact.found t live)
  obtain ⟨⟨c, cluster, mem⟩, -⟩ := exact.worst rep chunk worst
  obtain ⟨set, -, rfl⟩ := map_eq_some_iff.mp cluster
  have part := TxGraph.chunkOf_cluster ready.indexed.1.ascends mem
  exact ⟨rep, chunk, worst, part.nonempty, part.nodup, part.live⟩

/-- One pass of the trim. -/
theorem Ready.evictWorstChunkOnce (clock : Clock) (over' : p.maxWeight < p.graph.totalWeight) :
    (p.Stuck txid ∧ p.evictWorstChunkOnce clock (some txid) = (p, [])) ∨
      ((p.evictWorstChunkOnce clock (some txid)).2 ≠ [] ∧
        (p.evictWorstChunkOnce clock (some txid)).1.graph.live.card < p.graph.live.card) := by
  obtain ⟨rep, chunk, worst, nonempty, once, live⟩ :=
    ready.exists_worst (Nat.ne_of_gt (Nat.zero_lt_of_lt over'))
  unfold Pool.evictWorstChunkOnce
  rw [worst]
  dsimp only
  split
  · next alone =>
    left
    refine ⟨⟨over', ?_⟩, rfl⟩
    obtain ⟨t, same⟩ := length_eq_one_iff.mp alone.1
    rw [worst, map_some, same]
    rw [same, head?_cons, some_inj] at alone
    rw [alone.2]
  · next more =>
    right
    obtain ⟨t, mem, other⟩ : ∃ t ∈ chunk.txids, t ≠ txid := by
      by_contra all
      push Not at all
      obtain ⟨t, rest, listed⟩ := exists_cons_of_ne_nil nonempty
      rw [listed] at more all once
      have first : t = txid := all t mem_cons_self
      have none : rest = [] := by
        rw [eq_nil_iff_forall_not_mem]
        intro x later
        rw [all x (mem_cons_of_mem _ later), ← first] at later
        exact (nodup_cons.mp once).1 later
      rw [none, first] at more
      exact more ⟨rfl, rfl⟩
    exact (ready.beside ⟨rfl, rfl, .refl _, rfl, rfl⟩ : (p.noteEvictedFeerate clock
      chunk.feeRateSatPerKvb).Ready rank).unlinkChunk mem
      (fun same => other (some.inj same).symm) (live t mem)

/-- **The trim.** With a round for each live transaction it ends within the budget, or where the
protected transaction alone is the worst chunk. -/
theorem Ready.evictRounds {rounds : Nat} (enough : p.graph.live.card < rounds) :
    let q := (Pool.evictRounds clock (some txid) .weightBudget rounds p).1
    q.graph.totalWeight ≤ q.maxWeight ∨ q.Stuck txid := by
  induction rounds generalizing p with
  | zero => exact absurd enough (Nat.not_lt_zero _)
  | succ rounds ih =>
    unfold Pool.evictRounds
    split
    · next done => exact Or.inl (of_decide_eq_true done)
    · next more =>
      have over' : p.maxWeight < p.graph.totalWeight := by
        rw [← not_le]
        exact fun done => more (decide_eq_true done)
      have kept : (p.evictWorstChunkOnce clock (some txid)).1.Ready rank :=
        p.evictWorstChunkOnce_keeps clock _ (fun _ t ready => (ready.unlinkTxid t).1)
          (fun _ _ same _ ready => ready.beside same) ready
      rcases ready.evictWorstChunkOnce clock over' with ⟨stuck, same⟩ | ⟨gone, less⟩
      · rw [same]
        exact Or.inr stuck
      · split
        · next eq =>
          rw [eq] at gone
          exact absurd rfl gone
        · next q gone' _ eq =>
          rw [eq] at kept less
          exact ih kept (Nat.lt_of_lt_of_le less (Nat.le_of_lt_succ enough))

end

end Pool

end Rbitcoin.Mempool
