import Rbitcoin.Mempool.Components
import Rbitcoin.Mempool.PoolRun

/-! What a commit replaces and what it inserts. While no write fails, the conflict set has left the
pool before the new transaction joins it, and the graph can take it. -/

namespace Rbitcoin.Mempool

open Ordered Relation List

namespace TxGraph

variable {g : TxGraph}

theorem mem_conflictSet_iff {l : List Txid} {x : Txid} : x ∈ g.conflictSet l ↔
    ∃ c ∈ l, g.contains c = true ∧ ReflTransGen (fun a b => b ∈ g.childrenOf a) c x := by
  unfold conflictSet
  rw [Reach.mem_walk (U := g.nodes)]
  · constructor
    · rintro ⟨c, seed, path⟩
      rw [mem_dedup, mem_filter] at seed
      exact ⟨c, seed.1, seed.2, path⟩
    · rintro ⟨c, mem, live, path⟩
      refine ⟨c, ?_, path⟩
      rw [mem_dedup, mem_filter]
      exact ⟨mem, live⟩
  · intro x _ y step
    exact neighbours_mem_nodes (mem_append_right _ step)
  · intro x mem
    rw [mem_dedup, mem_filter] at mem
    exact Finset.mem_union_left _ (mem_live.mpr mem.2)
  · exact le_rfl
  · exact nodup_dedup _

end TxGraph

namespace Pool

variable {txidOf : Wtxid → Txid} {p : Pool} {clock : Clock} {tx : Transaction}
  {prep : PreparedAdmit}

theorem unlinkTxid_gone (live : ∀ t, (p.graph.get t).isSome = (p.bodies.lookup t).isSome)
    (slots : ∀ t e, p.graph.get t = some e → e.slot < p.store.slots.length)
    (io : ∀ ok ∈ p.store.io, ok = true) (t : Txid) :
    (p.unlinkTxid t).1.graph.get t = none ∧ ∀ ok ∈ (p.unlinkTxid t).1.store.io, ok = true := by
  unfold unlinkTxid
  cases found : p.graph.get t with
  | none => exact ⟨found, io⟩
  | some e =>
    obtain ⟨tx, body⟩ : ∃ tx, p.bodies.lookup t = some tx := by
      rw [← Option.isSome_iff_exists, ← live t, found]
      rfl
    have dead := Store.markSlotDead_dies (slots t e found) (Store.canDie_of_io io e.slot)
    obtain ⟨-, -, fewer⟩ := p.store.markSlotDead_rest e.slot
    rw [body]
    dsimp only
    generalize p.store.markSlotDead e.slot = out at dead fewer
    obtain ⟨store, result⟩ := out
    obtain rfl : result = .ok () := dead
    exact ⟨TxGraph.remove_get_self found, fun ok mem => io ok (fewer ok mem)⟩

theorem unlinkAll_gone (l : List Txid) (exact : p.graph.Exact p.bodies)
    (slots : ∀ t e, p.graph.get t = some e → e.slot < p.store.slots.length)
    (io : ∀ ok ∈ p.store.io, ok = true) {t : Txid} (mem : t ∈ l) :
    (p.unlinkAll l).1.graph.get t = none := by
  induction l generalizing p with
  | nil => cases mem
  | cons c l ih =>
    have shrinks := p.unlinkTxid_unlinks c
    obtain ⟨gone, io'⟩ := unlinkTxid_gone exact.live slots io c
    have slots' : ∀ t e, (p.unlinkTxid c).1.graph.get t = some e →
        e.slot < (p.unlinkTxid c).1.store.slots.length := by
      intro t e found
      obtain ⟨e', before, same⟩ := shrinks.drops.entry found
      rw [same.slot]
      exact (slots t e' before).trans_le shrinks.slots
    rw [unlinkAll_cons]
    rcases mem_cons.mp mem with rfl | mem
    · exact ((p.unlinkTxid t).1.unlinkAll_unlinks l).drops.gone gone
    · exact ih (shrinks.drops.exact exact) slots' io' mem

theorem replaced_gone (exact : p.graph.Exact p.bodies)
    (slots : ∀ t e, p.graph.get t = some e → e.slot < p.store.slots.length)
    (io : ∀ ok ∈ p.store.io, ok = true) {set : Finset Txid} {t : Txid} (mem : t ∈ set) :
    (p.replaced set).graph.get t = none :=
  unlinkAll_gone (p := p.cleared.keepReplaced set) _ exact slots io
    (mem_reverse.mpr ((mem_ascending _).mpr mem))

theorem creator_of_creates (exact : p.graph.Exact p.bodies) {n : Txid} {op : OutPoint}
    (made : p.bodies.Creates n op) : p.graph.creator op = some n := by
  unfold TxGraph.creator
  rw [if_pos (Or.inl ((exact.created op).mpr ⟨n, made⟩)), made.txid]

section Insert

variable {scan : ConflictScan} {sibling : Option Txid} {set : Finset Txid} {slot : Nat} {mid : Pool}
  (exact : p.graph.Exact p.bodies) (ids : ∀ t e, p.graph.get t = some e → txidOf e.wtxid = t)
  (planned : p.cleared.Planned clock tx prep scan sibling set) (before : p.Shrinks mid)
  (gone : ∀ t ∈ set, mid.graph.get t = none)
  (own : ∀ op ∈ tx.input, op.txid ≠ prep.txid) (hash : txidOf prep.wtxid = prep.txid)

include exact ids planned before gone own hash in
theorem insertable : mid.graph.Insertable (entryOf prep slot) tx where
  fresh := before.drops.gone planned.fresh
  unspent op mem := by
    rw [Option.eq_none_iff_forall_ne_some]
    intro c found
    -- a live spender is a direct conflict, and those have left
    have spends := ((before.drops.exact exact).conflicts op c).mp found
    obtain ⟨body, live, spent⟩ := spends
    have live' : p.bodies.lookup c = some body := before.drops.body live
    have conflict : p.graph.conflictTxid op = some c :=
      (exact.conflicts op c).mpr ⟨body, live', spent⟩
    have here : p.graph.contains c = true := by
      rw [TxGraph.contains, exact.live, live']
      rfl
    have other : c ≠ prep.txid := by
      rintro rfl
      rw [TxGraph.contains, (show p.graph.get prep.txid = none from planned.fresh)] at here
      cases here
    obtain ⟨-, conflicts⟩ := scanConflictsAndParents_ok planned.scanned
    have direct : c ∈ scan.directConflicts ∪ sibling.toFinset :=
      Finset.mem_union_left _ ((conflicts c).1 (Or.inr ⟨op, mem, conflict, other⟩))
    have member : c ∈ set := by
      rw [(checkReplacement_ok planned.replacement (Finset.ne_empty_of_mem direct)).1]
      exact TxGraph.mem_conflictSet_iff.mpr ⟨c, (mem_ascending _).mpr direct, here, .refl⟩
    have dead := gone c member
    have alive := (before.drops.exact exact).live c
    rw [show mid.tracked.bodies.lookup c = some body from live,
      show mid.tracked.graph.get c = none from dead] at alive
    cases alive
  others op mem made := by
    obtain ⟨v, -, rfl⟩ := mem_map.mp made
    exact own _ mem rfl
  wtxid t e found same := by
    obtain ⟨e', here, same'⟩ := before.drops.entry found
    have id := ids t e' here
    rw [← same'.wtxid, same, show (entryOf prep slot).wtxid = prep.wtxid from rfl, hash] at id
    rw [← id, show p.tracked.graph.get prep.txid = none from planned.fresh] at here
    cases here
  unlinked := rfl

end Insert

end Pool

/-- After every run a conflict set is the live conflicts and their descendants. -/
theorem Tracked.conflictSet_exact (count vsize perSigop reserved : Nat) (calls : List GraphCall)
    (allowed : AllAllowed (start count vsize perSigop reserved) calls) (direct : List Txid)
    (x : Txid) :
    let s := (start count vsize perSigop reserved).run calls
    x ∈ s.graph.conflictSet direct ↔
      ∃ c ∈ direct, (s.bodies.lookup c).isSome ∧ ReflTransGen s.bodies.Edge c x := by
  intro s
  have exact : s.graph.Exact s.bodies := (run_exact (start_exact ..) allowed).1
  simp only [TxGraph.mem_conflictSet_iff, exact.children, ← exact.live]
  rfl

/-- A child and a grandchild, found from the parent. -/
theorem Tracked.conflictSet_exact_family :
    let s := (start 64 101000 20 400).run
      [inserted 1 400 [⟨9, 0⟩], inserted 2 400 [⟨1, 0⟩], inserted 3 400 [⟨2, 0⟩]]
    2 ∈ s.graph.conflictSet [1] ∧ 3 ∈ s.graph.conflictSet [1] := by
  intro s
  have found (x : Txid) : x ∈ s.graph.conflictSet [1] ↔ ∃ c ∈ [1],
      (s.bodies.lookup c).isSome ∧ ReflTransGen s.bodies.Edge c x :=
    conflictSet_exact 64 101000 20 400 _
      (allAllowed_of_canRun (start_exact ..) (by decide +kernel)) [1] x
  have child : s.bodies.Edge 1 2 :=
    Bodies.edge_of_eval ⟨1, 0⟩ (by decide +kernel) (by decide +kernel)
  have grandchild : s.bodies.Edge 2 3 :=
    Bodies.edge_of_eval ⟨2, 0⟩ (by decide +kernel) (by decide +kernel)
  have live : (s.bodies.lookup 1).isSome = true := by decide +kernel
  clear_value s
  refine ⟨(found 2).mpr ⟨1, by simp, live, .single child⟩, (found 3).mpr ⟨1, by simp, live, ?_⟩⟩
  exact .tail (.single child) grandchild

end Rbitcoin.Mempool
