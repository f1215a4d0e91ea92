import Rbitcoin.Lib.Outcome
import Rbitcoin.Lib.Run
import Rbitcoin.Mempool.Pool

/-! What the operations of the pool do to its graph and its bodies. Everything but the insert of a
commit only unlinks, so an invariant has two steps to survive: a transaction that leaves, and one
that joins after its plan. Calls on the pool run in any order, and whatever is neither graph nor
body may change between them. -/

namespace Rbitcoin.Mempool

open Ordered List Outcome

/-- The transaction waits for a parent. -/
def AcceptError.parks : AcceptError → Bool
  | .orphaned .. => true
  | _ => false

theorem AcceptError.ofMempool_parks (e : MempoolError) : (ofMempool e).parks = false := by
  cases e <;> rfl

/-- What of an entry does not change while its transaction is live. -/
structure TxEntry.Same (e e' : TxEntry) : Prop where
  wtxid : e.wtxid = e'.wtxid
  feeSat : e.feeSat = e'.feeSat
  weight : e.weight = e'.weight
  sigopCost : e.sigopCost = e'.sigopCost
  slot : e.slot = e'.slot

theorem TxEntry.Same.refl (e : TxEntry) : e.Same e := ⟨rfl, rfl, rfl, rfl, rfl⟩

theorem TxEntry.Same.trans {a b c : TxEntry} (first : a.Same b) (second : b.Same c) : a.Same c :=
  ⟨first.wtxid.trans second.wtxid, first.feeSat.trans second.feeSat,
    first.weight.trans second.weight, first.sigopCost.trans second.sigopCost,
    first.slot.trans second.slot⟩

namespace TxGraph

/-- The limits and rates that the configuration sets. -/
structure SameLimits (g g' : TxGraph) : Prop where
  clusterCountLimit : g.clusterCountLimit = g'.clusterCountLimit
  clusterVsizeLimit : g.clusterVsizeLimit = g'.clusterVsizeLimit
  bytesPerSigop : g.bytesPerSigop = g'.bytesPerSigop

theorem SameLimits.refl (g : TxGraph) : g.SameLimits g := ⟨rfl, rfl, rfl⟩

theorem SameLimits.trans {a b c : TxGraph} (first : a.SameLimits b) (second : b.SameLimits c) :
    a.SameLimits c :=
  ⟨first.clusterCountLimit.trans second.clusterCountLimit,
    first.clusterVsizeLimit.trans second.clusterVsizeLimit,
    first.bytesPerSigop.trans second.bytesPerSigop⟩

variable {g g' : TxGraph} {txid a : Txid} {e e' entry : TxEntry} {tx : Transaction}

theorem SameLimits.of_base (same : g.base = g'.base) : g.SameLimits g' :=
  ⟨(congrArg TxGraph.clusterCountLimit same :), (congrArg TxGraph.clusterVsizeLimit same :),
    (congrArg TxGraph.bytesPerSigop same :)⟩

theorem get_of_base (same : g.base = g'.base) : g.get a = g'.get a := by
  rw [get, entries_of_base same, get]

theorem remove_limits (found : g.get txid = some e) : (g.remove txid tx).1.SameLimits g :=
  (SameLimits.of_base (base_remove found)).trans ⟨rfl, rfl, rfl⟩

theorem remove_get_self (found : g.get txid = some e) : (g.remove txid tx).1.get txid = none := by
  rw [get_of_base (base_remove found), unlinked_get, if_pos rfl]

theorem remove_get_some (found : g.get txid = some e)
    (left : (g.remove txid tx).1.get a = some e') :
    a ≠ txid ∧ ∃ n, g.get a = some n ∧ e'.Same n := by
  rw [get_of_base (base_remove found), unlinked_get] at left
  split at left
  · cases left
  · next other =>
    obtain ⟨n, here, rfl⟩ := Option.map_eq_some_iff.mp left
    exact ⟨other, n, here, rfl, rfl, rfl, rfl, rfl⟩

theorem insert_limits : (g.insert entry tx).SameLimits g := by
  have dropped : g.invalidateChunkCache.dropJoined entry.txid tx |>.SameLimits g :=
    SameLimits.of_base (by simp)
  refine (SameLimits.of_base insert_base).trans (SameLimits.trans ?_ dropped)
  rw [linked_frame]
  exact ⟨rfl, rfl, rfl⟩

theorem insert_get_some (here : (g.insert entry tx).get a = some e') :
    a = entry.txid ∧ e'.Same entry ∨ ∃ n, g.get a = some n ∧ e'.Same n := by
  have dropped : (g.invalidateChunkCache.dropJoined entry.txid tx).base = g.base := by simp
  rw [get_of_base insert_base, linked, linkChildren_get, join_get] at here
  obtain ⟨n, joined, rfl⟩ := Option.map_eq_some_iff.mp here
  split at joined
  · next root =>
    rw [← Option.some.inj joined]
    exact Or.inl ⟨root, rfl, rfl, rfl, rfl, rfl⟩
  · right
    split at joined
    · obtain ⟨m, before, rfl⟩ := Option.map_eq_some_iff.mp joined
      rw [get_of_base dropped] at before
      exact ⟨m, before, rfl, rfl, rfl, rfl, rfl⟩
    · rw [get_of_base dropped] at joined
      exact ⟨n, joined, rfl, rfl, rfl, rfl, rfl⟩

section Values

variable {β : Type} {f : TxEntry → β} (links : ∀ (e : TxEntry) parents children,
  f { e with parents, children } = f e)

include links

theorem remove_map (found : g.get txid = some e) (a : Txid) :
    ((g.remove txid tx).1.get a).map f = if a = txid then none else (g.get a).map f := by
  rw [get_of_base (base_remove found), unlinked_get]
  split
  · rfl
  · rw [Option.map_map]
    exact congrFun (congrArg Option.map (funext fun n => links n _ _)) _

theorem insert_map (a : Txid) : ((g.insert entry tx).get a).map f =
    if a = entry.txid then some (f entry) else (g.get a).map f := by
  have dropped : (g.invalidateChunkCache.dropJoined entry.txid tx).base = g.base := by simp
  have linked (kids : List Txid) (o : Option TxEntry) :
      (o.map (family entry.txid kids a)).map f = o.map f := by
    rw [Option.map_map]
    exact congrFun (congrArg Option.map (funext fun n => links n _ _)) _
  rw [get_of_base insert_base, TxGraph.linked, linkChildren_get, linked, join_get]
  split
  · exact congrArg some (links entry _ _)
  · rw [get_of_base dropped]
    split
    · rw [Option.map_map]
      exact congrFun (congrArg Option.map (funext fun n => links n _ _)) _
    · rfl

end Values

end TxGraph

namespace Tracked

/-- Some transactions leave, one after the other. -/
inductive Drops : Tracked → Tracked → Prop
  | refl (s : Tracked) : Drops s s
  | remove {s s' : Tracked} {txid : Txid} {e : TxEntry} {tx : Transaction}
      (found : s.graph.get txid = some e) (body : s.bodies.lookup txid = some tx)
      (rest : Drops (s.step (.remove txid tx)) s') : Drops s s'

namespace Drops

variable {s s' s'' : Tracked}

theorem trans (first : Drops s s') (second : Drops s' s'') : Drops s s'' := by
  induction first with
  | refl => exact second
  | remove found body _ ih => exact .remove found body (ih second)

theorem exact (drops : Drops s s') (exact : s.graph.Exact s.bodies) : s'.graph.Exact s'.bodies := by
  induction drops with
  | refl => exact exact
  | remove found body _ ih =>
    apply ih
    apply step_exact exact
    intro other here
    exact Option.some.inj (here.symm.trans body)

theorem limits (drops : Drops s s') : s'.graph.SameLimits s.graph := by
  induction drops with
  | refl => exact TxGraph.SameLimits.refl _
  | remove found _ _ ih => exact ih.trans (TxGraph.remove_limits found)

theorem entry (drops : Drops s s') {t : Txid} {e' : TxEntry} (left : s'.graph.get t = some e') :
    ∃ e, s.graph.get t = some e ∧ e'.Same e := by
  induction drops with
  | refl => exact ⟨e', left, .refl e'⟩
  | remove found _ _ ih =>
    obtain ⟨e, here, same⟩ := ih left
    obtain ⟨-, n, before, same'⟩ := TxGraph.remove_get_some found here
    exact ⟨n, before, same.trans same'⟩

theorem gone (drops : Drops s s') {t : Txid} (absent : s.graph.get t = none) :
    s'.graph.get t = none := by
  rw [Option.eq_none_iff_forall_ne_some]
  intro e left
  obtain ⟨n, here, -⟩ := drops.entry left
  rw [absent] at here
  cases here

theorem body (drops : Drops s s') {t : Txid} {tx : Transaction}
    (left : s'.bodies.lookup t = some tx) : s.bodies.lookup t = some tx := by
  induction drops with
  | refl => exact left
  | @remove s _ txid _ gone found body _ ih =>
    have kept : (s.bodies.erase txid).lookup t = some tx := ih left
    rw [Map.lookup_erase] at kept
    split_ifs at kept
    exact kept

end Drops

end Tracked

namespace Store

variable (s : Store)

/-- A live row of the slot names the transaction. -/
def Owns (s : Store) (slot : Nat) (t : Txid) : Prop :=
  ∃ row, s.slots[slot]? = some row ∧ row.status = .live ∧ row.txid = t

variable {slot : Nat}

theorem Owns.lt {s : Store} {t : Txid} (owns : s.Owns slot t) : slot < s.slots.length := by
  obtain ⟨row, here, -⟩ := owns
  exact (List.getElem?_eq_some_iff.mp here).1

theorem write_slots : s.write.1.slots = s.slots := by
  unfold write
  split <;> rfl

theorem write_io : ∀ ok ∈ s.write.1.io, ok ∈ s.io := by
  unfold write
  split
  · exact fun _ mem => mem
  · next ok io outcomes =>
    intro b mem
    rw [outcomes]
    exact mem_cons_of_mem _ mem

theorem write_ok {s : Store} (next : s.io.head? ≠ some false) : s.write.2 = true := by
  unfold write
  split
  · rfl
  · next ok io outcomes =>
    rw [outcomes] at next
    cases ok with
    | false => exact absurd rfl next
    | true => rfl

/-- When the death of the row has to be written, the next write does not fail. -/
def CanDie (s : Store) (slot : Nat) : Prop :=
  ∀ row, s.slots[slot]? = some row → row.status = .live → row.persisted = true →
    s.io.head? ≠ some false

theorem canDie_of_io {s : Store} (io : ∀ ok ∈ s.io, ok = true) (slot : Nat) : s.CanDie slot := by
  intro row _ _ _ failed
  have good := io false (mem_of_mem_head? failed)
  cases good

theorem markSlotDead_rest (slot : Nat) : (s.markSlotDead slot).1.slots.length = s.slots.length ∧
    (∀ slot' ≠ slot, (s.markSlotDead slot).1.slots[slot']? = s.slots[slot']?) ∧
    ∀ ok ∈ (s.markSlotDead slot).1.io, ok ∈ s.io := by
  unfold markSlotDead
  split
  · exact ⟨rfl, fun _ _ => rfl, fun _ mem => mem⟩
  · split
    · exact ⟨rfl, fun _ _ => rfl, fun _ mem => mem⟩
    · split
      · rw [write_slots]
        exact ⟨length_set, fun _ other => getElem?_set_ne other.symm, write_io _⟩
      · exact ⟨length_set, fun _ other => getElem?_set_ne other.symm, fun _ mem => mem⟩

theorem markSlotDead_dies {s : Store} (inside : slot < s.slots.length)
    (can : s.CanDie slot) : (s.markSlotDead slot).2 = .ok () := by
  have here := getElem?_eq_getElem inside
  unfold markSlotDead
  rw [here]
  dsimp only
  split
  · rfl
  · next live =>
    split
    · next persisted =>
      have next : ({ s with slots := s.slots.set slot { s.slots[slot] with status := .dead } } :
          Store).io.head? ≠ some false := can _ here (not_not.mp live) persisted
      exact if_pos (write_ok next)
    · rfl

theorem findFreeSlot_free (found : s.findFreeSlot = some slot) :
    slot < s.slots.length ∧ ∀ t, ¬s.Owns slot t := by
  obtain ⟨inside, free, -⟩ := findIdx?_eq_some_iff_getElem.mp found
  refine ⟨inside, ?_⟩
  rintro t ⟨row, here, live, -⟩
  rw [getElem?_eq_getElem inside] at here
  rw [Option.some.inj here, live] at free
  exact absurd free (by decide)

/-- No owner loses its row, and no outcome of a write to come is added. -/
structure Grows (s s' : Store) : Prop where
  slots : s.slots.length ≤ s'.slots.length
  owns : ∀ slot t, s.Owns slot t → s'.Owns slot t
  io : ∀ ok ∈ s'.io, ok ∈ s.io

theorem Grows.refl : s.Grows s := ⟨le_rfl, fun _ _ owns => owns, fun _ mem => mem⟩

theorem setSlotTrustKept_grows (slot : Nat) (on : Bool) : s.Grows (s.setSlotTrustKept slot on) := by
  refine ⟨(length_modify ..).ge, ?_, fun _ mem => mem⟩
  rintro slot' t ⟨row, here, live, named⟩
  unfold setSlotTrustKept Owns
  rw [getElem?_modify, here]
  split <;> exact ⟨_, rfl, live, named⟩

theorem growSlots_grows : s.Grows s.growSlots.1 := by
  have kept {slot : Nat} {row : Slot} (here : s.slots[slot]? = some row) (more : List Slot) :
      (s.slots ++ more)[slot]? = some row := by
    rw [getElem?_append_left (List.getElem?_eq_some_iff.mp here).1, here]
  unfold growSlots
  dsimp only
  split_ifs
  · exact .refl s
  · refine ⟨?_, fun _ _ ⟨row, here, live, named⟩ =>
      ⟨{ row with persisted := true }, ?_, live, named⟩, write_io _⟩
    · rw [length_map, write_slots, length_append]
      omega
    · rw [getElem?_map, write_slots, kept here]
      rfl
  · refine ⟨?_, fun _ _ ⟨row, here, live, named⟩ => ⟨row, ?_, live, named⟩, write_io _⟩
    · rw [write_slots, length_append]
      omega
    · rw [write_slots, kept here]

theorem allocSlot_grows : s.Grows s.allocSlot.1 ∧ ∀ slot, s.allocSlot.2 = .ok slot →
    slot < s.allocSlot.1.slots.length ∧ ∀ t, ¬s.allocSlot.1.Owns slot t := by
  have grows := s.growSlots_grows
  unfold allocSlot
  split
  · next slot found =>
    refine ⟨.refl s, fun slot' ok => ?_⟩
    obtain rfl := Except.ok.inj ok
    exact s.findFreeSlot_free found
  · split
    · next grown e eq =>
      rw [eq] at grows
      exact ⟨grows, nofun⟩
    · next grown eq =>
      rw [eq] at grows
      split
      · next slot found =>
        refine ⟨grows, fun slot' ok => ?_⟩
        obtain rfl := Except.ok.inj ok
        exact grown.findFreeSlot_free found
      · exact ⟨grows, nofun⟩

theorem appendLiveTx_grows (packs : Bool) (txid : Txid) (acceptSecs : Nat) :
    s.Grows (s.appendLiveTx packs txid acceptSecs).1 ∧
      ∀ slot, (s.appendLiveTx packs txid acceptSecs).2 = .ok slot →
        (s.appendLiveTx packs txid acceptSecs).1.Owns slot txid := by
  obtain ⟨grows, free⟩ := s.allocSlot_grows
  unfold appendLiveTx
  split
  · split
    · next store e eq =>
      rw [eq] at grows
      exact ⟨grows, nofun⟩
    · next store slot eq =>
      rw [eq] at grows free
      obtain ⟨inside, free⟩ := free slot rfl
      refine ⟨⟨?_, ?_, grows.io⟩, fun slot' ok => ?_⟩
      · rw [length_set]
        exact grows.slots
      · intro slot' t owns
        have kept := grows.owns slot' t owns
        have other : slot ≠ slot' := fun same => free t (same ▸ kept)
        obtain ⟨row, here, live, named⟩ := kept
        exact ⟨row, (getElem?_set_ne other).trans here, live, named⟩
      · obtain rfl := Except.ok.inj ok
        exact ⟨_, getElem?_set_self inside, rfl, rfl⟩
  · exact ⟨.refl s, nofun⟩

end Store

/-! ### What the pool's operations unlink -/

namespace Pool

open Tracked (Drops)

/-- The part of the pool that says which transactions are live. -/
def tracked (p : Pool) : Tracked := ⟨p.graph, p.bodies⟩

/-- Transactions leave, the slot table does not get smaller, and no orphan is touched. -/
structure Shrinks (p q : Pool) : Prop where
  drops : Drops p.tracked q.tracked
  slots : p.store.slots.length ≤ q.store.slots.length
  maxWeight : q.maxWeight = p.maxWeight
  orphanage : q.orphanage = p.orphanage

theorem Shrinks.refl (p : Pool) : p.Shrinks p := ⟨.refl _, le_rfl, rfl, rfl⟩

theorem Shrinks.trans {p q r : Pool} (first : p.Shrinks q) (second : q.Shrinks r) : p.Shrinks r :=
  ⟨first.drops.trans second.drops, first.slots.trans second.slots,
    second.maxWeight.trans first.maxWeight, second.orphanage.trans first.orphanage⟩

/-- What a commit keeps of the replaced stays beside. -/
structure Unlinks (p q : Pool) : Prop extends Shrinks p q where
  undone : q.undoneReplacements = p.undoneReplacements

theorem Unlinks.refl (p : Pool) : p.Unlinks p := ⟨.refl _, rfl⟩

theorem Unlinks.trans {p q r : Pool} (first : p.Unlinks q) (second : q.Unlinks r) : p.Unlinks r :=
  ⟨first.toShrinks.trans second.toShrinks, second.undone.trans first.undone⟩

/-- The live transactions are the same, and no owner loses its row. -/
structure Beside (p q : Pool) : Prop where
  graph : q.graph = p.graph
  bodies : q.bodies = p.bodies
  store : p.store.Grows q.store
  maxWeight : q.maxWeight = p.maxWeight
  orphanage : q.orphanage = p.orphanage

theorem Beside.shrinks {p q : Pool} (beside : p.Beside q) : p.Shrinks q := by
  obtain ⟨graph, bodies, store, maxWeight, orphanage⟩ := beside
  refine ⟨?_, store.slots, maxWeight, orphanage⟩
  rw [show q.tracked = p.tracked from congrArg₂ _ graph bodies]
  exact .refl _

variable (p : Pool) (clock : Clock) (protect : Option Txid)

theorem unlinkTxid_unlinks (t : Txid) : p.Unlinks (p.unlinkTxid t).1 := by
  unfold unlinkTxid
  split
  · exact .refl _
  · next e found =>
    split
    · exact .refl _
    · next tx body =>
      obtain ⟨slots, -⟩ := p.store.markSlotDead_rest e.slot
      split
      · next store _ eq =>
        rw [eq] at slots
        exact ⟨⟨.refl _, slots.ge, rfl, rfl⟩, rfl⟩
      · next store eq =>
        rw [eq] at slots
        exact ⟨⟨.remove found body (.refl _), slots.ge, rfl, rfl⟩, rfl⟩

/-! Everything that leaves the pool leaves by `unlinkTxid`; what that keeps, the rest keeps. -/

section Keeps

variable {inv : Pool → Prop} (unlinked : ∀ p t, inv p → inv (p.unlinkTxid t).1)

include unlinked

omit unlinked in
theorem unlinkAll_cons (t : Txid) (l : List Txid) :
    (p.unlinkAll (t :: l)).1 = ((p.unlinkTxid t).1.unlinkAll l).1 := by
  rw [unlinkAll]
  split <;> next eq => rw [eq]

theorem unlinkAll_keeps (held : inv p) (l : List Txid) : inv (p.unlinkAll l).1 := by
  induction l generalizing p with
  | nil => exact held
  | cons t l ih =>
    rw [unlinkAll_cons]
    exact ih _ (unlinked p t held)

theorem unlinkConflicts_keeps (held : inv p) (spent : List OutPoint) :
    inv (p.unlinkConflicts spent).1 := by
  unfold unlinkConflicts
  dsimp only
  split
  · exact held
  · exact p.unlinkAll_keeps unlinked held _

theorem unlinkTree_keeps (held : inv p) (t : Txid) : inv (p.unlinkTree t).1 := by
  unfold unlinkTree
  dsimp only
  generalize (range (((p.bodies.lookup t).map (·.output.length % 2 ^ 32)).getD 0)).map
    (fun vout => (⟨t, vout⟩ : OutPoint)) = spent
  have self := unlinked (p.unlinkConflicts spent).1 t (p.unlinkConflicts_keeps unlinked held spent)
  split <;> next eq =>
    rw [eq] at self
    exact self

theorem unlinkChunk_keeps (held : inv p) (l : List Txid) : inv (unlinkChunk protect p l).1 := by
  induction l generalizing p with
  | nil => exact held
  | cons t l ih =>
    unfold unlinkChunk
    split
    · exact ih p held
    · exact ih _ (p.unlinkTree_keeps unlinked held t)

variable (beside : ∀ p q : Pool, p.Beside q → q.undoneReplacements = p.undoneReplacements →
  inv p → inv q)

include beside

theorem evictWorstChunkOnce_keeps (held : inv p) : inv (p.evictWorstChunkOnce clock protect).1 := by
  unfold evictWorstChunkOnce
  split
  · exact held
  · next chunk _ =>
    split
    · exact held
    · have noted : inv (p.noteEvictedFeerate clock chunk.feeRateSatPerKvb) :=
        beside p _ ⟨rfl, rfl, .refl _, rfl, rfl⟩ rfl held
      exact unlinkChunk_keeps _ protect unlinked noted _

theorem evictRounds_keeps (held : inv p) (until' : EvictUntil) (rounds : Nat) :
    inv (evictRounds clock protect until' rounds p).1 := by
  induction rounds generalizing p with
  | zero => exact held
  | succ rounds ih =>
    have pass := p.evictWorstChunkOnce_keeps clock protect unlinked beside held
    unfold evictRounds
    split
    · exact held
    · split
      · next q eq =>
        rw [eq] at pass
        exact pass
      · next q gone _ eq =>
        rw [eq] at pass
        exact ih q pass

theorem ensureFreeSlot_keeps (held : inv p) : inv (p.ensureFreeSlot clock protect).1 := by
  have more : inv { p with store := p.store.growSlots.1 } :=
    beside p _ ⟨rfl, rfl, p.store.growSlots_grows, rfl, rfl⟩ rfl held
  have evicted := { p with store := p.store.growSlots.1 }.evictRounds_keeps clock protect unlinked
    beside more .freeSlot (p.graph.live.card + 1)
  have reported (q : Pool) (gone : List Txid) (held : inv q) : inv { q with lastEvicted := gone } :=
    beside q _ ⟨rfl, rfl, .refl _, rfl, rfl⟩ rfl held
  unfold ensureFreeSlot evictWorstChunks
  dsimp only
  split
  · exact held
  · split
    · split
      · exact more
      · split
        · exact evicted
        · exact reported _ _ evicted
    · split
      · exact evicted
      · exact reported _ _ evicted
    · exact more

end Keeps

theorem unlinkAll_unlinks (l : List Txid) : p.Unlinks (p.unlinkAll l).1 :=
  p.unlinkAll_keeps (fun q t held => held.trans (q.unlinkTxid_unlinks t)) (.refl p) l

theorem evictRounds_unlinks (until' : EvictUntil) (rounds : Nat) :
    p.Unlinks (evictRounds clock protect until' rounds p).1 :=
  p.evictRounds_keeps clock protect (fun q t held => held.trans (q.unlinkTxid_unlinks t))
    (fun _ _ same undone held => held.trans ⟨same.shrinks, undone⟩) (.refl p) until' rounds

section Plan

variable {p clock} {tx : Transaction} {prep : PreparedAdmit}

/-- The checks that a plan has passed, in their order. -/
structure Planned (p : Pool) (clock : Clock) (tx : Transaction) (prep : PreparedAdmit)
    (scan : ConflictScan) (sibling : Option Txid) (set : Finset Txid) : Prop where
  fresh : p.graph.get prep.txid = none
  scanned : p.scanConflictsAndParents prep.txid prep.chainCoins 0 tx.input ⟨∅, ∅⟩ = .ok scan
  truc : p.checkTruc tx ((p.admitWeight prep + 3) / 4) scan = .ok sibling
  replacement : p.checkReplacement prep (scan.directConflicts ∪ sibling.toFinset) sibling = .ok set
  cluster : p.checkCluster prep scan.parentTxids set = .ok ()
  apart : Disjoint scan.parentTxids set

theorem checkSibling_ok {found sibling : Option Txid}
    (ok : p.checkSibling clock prep found = .ok sibling) : sibling = found := by
  cases found with
  | none => exact (Except.ok.inj ok).symm
  | some s =>
    unfold checkSibling at ok
    dsimp only at ok
    split at ok <;> split at ok <;> cases ok <;> rfl

theorem planned_of_ok {out : Finset Txid × Nat × Nat}
    (ok : p.planAfterScript clock tx prep = .ok out) :
    ∃ scan sibling set, p.Planned clock tx prep scan sibling set ∧
      out = (set, prep.feeSat, p.admitWeight prep) := by
  unfold planAfterScript at ok
  split at ok
  · split at ok <;> cases ok
  · next fresh =>
    split at ok
    · cases ok
    · obtain ⟨scan, scanned, afterScan⟩ := bind_eq_ok.mp ok
      obtain ⟨found, truc, afterTruc⟩ := bind_eq_ok.mp afterScan
      obtain ⟨sibling, may, afterSibling⟩ := bind_eq_ok.mp afterTruc
      obtain ⟨-, -, afterSpends⟩ := bind_eq_ok.mp afterSibling
      obtain ⟨set, replacement, afterSet⟩ := bind_eq_ok.mp afterSpends
      obtain ⟨⟨⟩, cluster, afterCluster⟩ := bind_eq_ok.mp afterSet
      obtain ⟨-, -, done⟩ := bind_eq_ok.mp afterCluster
      split_ifs at done with apart
      have same : sibling = found := checkSibling_ok may
      exact ⟨scan, sibling, set,
        ⟨fresh, scanned, same ▸ truc, replacement, cluster, apart⟩, (Except.ok.inj done).symm⟩

theorem checkReplacement_ok {direct set : Finset Txid} {sibling : Option Txid}
    (ok : p.checkReplacement prep direct sibling = .ok set) (some' : direct ≠ ∅) :
    set = p.graph.conflictSet (ascending direct) ∧
      rbfAllowsReplacement (admitFee prep) (p.admitWeight prep) (p.graph.setFeeWeight set).1
        (p.graph.setFeeWeight set).2 (p.graph.setFeeWeight direct).1
        (p.graph.setFeeWeight direct).2 = true := by
  unfold checkReplacement at ok
  rw [if_neg some'] at ok
  dsimp only at ok
  split_ifs at ok with sib pays pays
  · obtain rfl := Except.ok.inj ok
    exact ⟨rfl, Bool.or_eq_true_iff.mpr (Or.inl pays)⟩
  · obtain rfl := Except.ok.inj ok
    exact ⟨rfl, pays⟩

end Plan

section Commit

variable (tx : Transaction) (prep : PreparedAdmit) (trim : Bool)

def entryOf (prep : PreparedAdmit) (slot : Nat) : TxEntry :=
  { txid := prep.txid, wtxid := prep.wtxid, feeSat := prep.feeSat, weight := prep.weight
    sigopCost := prep.sigopCost, slot, parents := ∅, children := ∅ }

def replaced (set : Finset Txid) : Pool :=
  (p.cleared.keepReplaced set).unlinkAll (ascending set).reverse |>.1

variable (set : Finset Txid)

theorem replaced_unlinks : (p.cleared.keepReplaced set).Unlinks (p.replaced set) :=
  (p.cleared.keepReplaced set).unlinkAll_unlinks (ascending set).reverse

theorem replaced_shrinks : p.Shrinks (p.replaced set) := by
  exact { (p.replaced_unlinks set).toShrinks with }

theorem ensureFreeSlot_parks {e : AcceptError}
    (failed : (p.ensureFreeSlot clock protect).2 = .error e) : e.parks = false := by
  unfold ensureFreeSlot at failed
  grind [AcceptError.ofMempool_parks, AcceptError.parks]

/-- The entry is in: the trim takes it out again, or the commit has finished. -/
theorem finishInsert_cases (kept evicted : List Txid) (slot acceptSecs : Nat) :
    ∃ q : Pool, q = (if trim then p.evictWorstChunks clock (some prep.txid) .weightBudget
        else (p, [])).1 ∧
      q.Beside (p.finishInsert clock prep trim set kept evicted slot acceptSecs).1 ∧
      ((∃ e, (p.finishInsert clock prep trim set kept evicted slot acceptSecs).2 = .error e ∧
          e.parks = false ∧ q.graph.get prep.txid = none ∧
          (p.finishInsert clock prep trim set kept evicted slot acceptSecs).1.undoneReplacements =
            q.undoneReplacements) ∨
        ∃ r, (p.finishInsert clock prep trim set kept evicted slot acceptSecs).2 = .ok r ∧
          r.txid = prep.txid ∧ r.replaced = ascending set ∧
          (p.finishInsert clock prep trim set kept evicted slot acceptSecs).1.undoneReplacements =
            []) := by
  unfold finishInsert
  generalize
    (if trim then p.evictWorstChunks clock (some prep.txid) .weightBudget else (p, [])) = out
  obtain ⟨q, more⟩ := out
  refine ⟨q, rfl, ?_⟩
  dsimp only
  split
  · next gone =>
    exact ⟨⟨rfl, rfl, .refl _, rfl, rfl⟩,
      Or.inl ⟨_, rfl, rfl, Option.not_isSome_iff_eq_none.mp gone.2, rfl⟩⟩
  · refine ⟨?_, Or.inr ⟨_, rfl, rfl, rfl, rfl⟩⟩
    split
    · exact ⟨rfl, rfl, q.store.setSlotTrustKept_grows slot true, rfl, rfl⟩
    · exact ⟨rfl, rfl, .refl _, rfl, rfl⟩

/-- A commit fails before its insert, or it comes to a pool with a row for the new entry. -/
theorem commitReplaced_reaches {inv : Pool → Prop}
    (unlinked : ∀ p t, inv p → inv (p.unlinkTxid t).1)
    (beside : ∀ p q : Pool, p.Beside q → q.undoneReplacements = p.undoneReplacements →
      inv p → inv q) (held : inv p) (kept : List Txid) :
    (∃ q e, inv q ∧ e.parks = false ∧
      p.commitReplaced clock tx prep trim set kept = (q, .error e)) ∨
    ∃ q slot evicted acceptSecs, inv q ∧ q.store.Owns slot prep.txid ∧
      p.commitReplaced clock tx prep trim set kept =
        (q.insertLive tx prep slot).finishInsert clock prep trim set kept evicted slot
          acceptSecs := by
  have start : inv { p with lastEvicted := [] } :=
    beside p _ ⟨rfl, rfl, .refl _, rfl, rfl⟩ rfl held
  have slotted := { p with lastEvicted := [] }.ensureFreeSlot_keeps clock (some prep.txid) unlinked
    beside start
  have failed (e : AcceptError) := { p with lastEvicted := [] }.ensureFreeSlot_parks clock
    (some prep.txid) (e := e)
  unfold commitReplaced
  generalize { p with lastEvicted := [] }.ensureFreeSlot clock (some prep.txid) = out
    at slotted failed
  obtain ⟨q, result⟩ := out
  cases result with
  | error e =>
    refine Or.inl ⟨_, e, ?_, failed e rfl, rfl⟩
    exact beside q _ ⟨rfl, rfl, .refl _, rfl, rfl⟩ rfl slotted
  | ok evicted =>
    dsimp only
    obtain ⟨grows, own⟩ := q.store.appendLiveTx_grows (clock.packs tx) prep.txid
      (prep.keepAcceptSecs.getD clock.nowSecs)
    generalize q.store.appendLiveTx (clock.packs tx) prep.txid
      (prep.keepAcceptSecs.getD clock.nowSecs) = appended at grows own
    obtain ⟨store, _ | slot⟩ := appended
    · next e =>
      refine Or.inl ⟨_, _, ?_, AcceptError.ofMempool_parks e, rfl⟩
      exact beside q _ ⟨rfl, rfl, grows, rfl, rfl⟩ rfl slotted
    · refine Or.inr ⟨{ q with store }, slot, evicted, _, ?_, own slot rfl, rfl⟩
      exact beside q _ ⟨rfl, rfl, grows, rfl, rfl⟩ rfl slotted

/-- A commit that reached its insert: `mid` is the pool before it. -/
structure Inserted (tx : Transaction) (prep : PreparedAdmit) (p q : Pool) (slot : Nat)
    (mid : Pool) : Prop where
  before : p.Shrinks mid
  after : Drops (mid.tracked.step (.insert (entryOf prep slot) tx)) q.tracked
  slots : mid.store.slots.length ≤ q.store.slots.length
  slot : slot < q.store.slots.length
  maxWeight : q.maxWeight = p.maxWeight
  orphanage : q.orphanage = p.orphanage

theorem commitReplaced_cases (kept : List Txid) :
    ((p.commitReplaced clock tx prep trim set kept).1.undoneReplacements ⊆ p.undoneReplacements) ∧
    ((∃ e, (p.commitReplaced clock tx prep trim set kept).2 = .error e ∧
      p.Shrinks (p.commitReplaced clock tx prep trim set kept).1) ∨
    ∃ slot mid, Inserted tx prep p (p.commitReplaced clock tx prep trim set kept).1 slot mid ∧
      ∀ r, (p.commitReplaced clock tx prep trim set kept).2 = .ok r →
        r.replaced = ascending set) := by
  have unlink (q : Pool) (t : Txid) (held : p.Unlinks q) : p.Unlinks (q.unlinkTxid t).1 :=
    held.trans (q.unlinkTxid_unlinks t)
  obtain ⟨q, e, unlinks, -, eq⟩ | ⟨mid, slot, evicted, acceptSecs, unlinks, owns, eq⟩ :=
    p.commitReplaced_reaches clock tx prep trim set unlink
      (fun _ _ same undone held => held.trans ⟨same.shrinks, undone⟩) (.refl p) kept
  · rw [eq]
    exact ⟨unlinks.undone ▸ Subset.refl _, Or.inl ⟨e, rfl, unlinks.toShrinks⟩⟩
  · rw [eq]
    obtain ⟨q, trimmed, beside, result⟩ := (mid.insertLive tx prep slot).finishInsert_cases clock
      prep trim set kept evicted slot acceptSecs
    have trims : (mid.insertLive tx prep slot).Unlinks q := by
      rw [trimmed]
      split
      · exact (mid.insertLive tx prep slot).evictRounds_unlinks clock _ _ _
      · exact .refl _
    have after := trims.toShrinks.trans beside.shrinks
    refine ⟨?_, Or.inr ⟨slot, mid, ⟨unlinks.toShrinks, after.drops, after.slots,
      owns.lt.trans_le after.slots, after.maxWeight.trans unlinks.maxWeight,
      after.orphanage.trans unlinks.orphanage⟩, fun r ok => ?_⟩⟩
    · obtain ⟨e, -, -, -, left⟩ | ⟨r, -, -, -, left⟩ := result
      · rw [left, trims.undone, show (mid.insertLive tx prep slot).undoneReplacements =
          mid.undoneReplacements from rfl, unlinks.undone]
        exact Subset.refl _
      · rw [left]
        exact nil_subset _
    · obtain ⟨e, failed, -⟩ | ⟨r', done, -, replaced, -⟩ := result
      · cases ok.symm.trans failed
      · obtain rfl := Except.ok.inj (ok.symm.trans done)
        exact replaced

/-- A commit either only unlinks, or it unlinks what its plan names and whatever a slot needs,
inserts and trims. -/
theorem finishCommit_cases :
    (∃ e, (p.finishCommit clock tx prep trim).2 = .error e ∧
      p.Shrinks (p.finishCommit clock tx prep trim).1) ∨
    ∃ scan sibling set slot mid, p.cleared.Planned clock tx prep scan sibling set ∧
      Inserted tx prep (p.replaced set) (p.finishCommit clock tx prep trim).1 slot mid ∧
      ∀ r, (p.finishCommit clock tx prep trim).2 = .ok r → r.replaced = ascending set := by
  unfold finishCommit
  cases plan : p.cleared.planAfterScript clock tx prep with
  | error e => exact Or.inl ⟨e, rfl, .refl _, le_rfl, rfl, rfl⟩
  | ok out =>
    obtain ⟨scan, sibling, set, planned, rfl⟩ := planned_of_ok plan
    obtain ⟨-, ⟨e, failed, shrinks⟩ | ⟨slot, mid, inserted, result⟩⟩ :=
      (p.replaced set).commitReplaced_cases clock tx prep trim set
        ((ascending set).filter (· ∈ p.trustKept))
    · exact Or.inl ⟨e, failed, (p.replaced_shrinks set).trans shrinks⟩
    · exact Or.inr ⟨scan, sibling, set, slot, mid, planned, inserted, result⟩

theorem finishCommit_undone : ∀ old ∈ (p.finishCommit clock tx prep trim).1.undoneReplacements,
      ∃ id, p.bodies.lookup id = some old := by
  unfold finishCommit
  cases p.cleared.planAfterScript clock tx prep with
  | error e =>
    intro old mem
    cases mem
  | ok out =>
    obtain ⟨set, rest⟩ := out
    obtain ⟨left, -⟩ := (p.replaced set).commitReplaced_cases clock tx prep trim set
      ((ascending set).filter (· ∈ p.trustKept))
    intro old mem
    have kept := left mem
    rw [(p.replaced_unlinks set).undone] at kept
    obtain ⟨id, -, found⟩ := mem_filterMap.mp kept
    exact ⟨id, found⟩

end Commit

section Scan

variable {p} {txid : Txid} {op : OutPoint} {scan : ConflictScan}

/-- One input adds its creator to the parents, and at most its spender to the conflicts. -/
theorem noteConflictAndParent_ok {out : ConflictScan} {creator : Option Txid}
    (ok : p.noteConflictAndParent txid op scan = .ok (out, creator)) :
    (∀ c, c ∈ out.parentTxids ↔ c ∈ scan.parentTxids ∨ p.graph.creator op = some c) ∧
    ∀ c, (c ∈ scan.directConflicts ∨ p.graph.conflictTxid op = some c ∧ c ≠ txid →
        c ∈ out.directConflicts) ∧
      (c ∈ out.directConflicts → c ∈ scan.directConflicts ∨ p.graph.conflictTxid op = some c) := by
  unfold noteConflictAndParent at ok
  cases spender : p.graph.conflictTxid op with
  | none =>
    cases made : p.graph.creator op with
    | none => grind
    | some parent =>
      simp only [spender, made] at ok
      split at ok
      · obtain ⟨rfl, -⟩ := Prod.mk.inj (Except.ok.inj ok)
        simp [eq_comm, or_comm]
      · split at ok
        · cases ok
        · split_ifs at ok
  | some c =>
    cases made : p.graph.creator op with
    | none => grind
    | some parent =>
      simp only [spender, made] at ok
      split at ok
      · obtain ⟨rfl, -⟩ := Prod.mk.inj (Except.ok.inj ok)
        split <;> grind
      · obtain ⟨rfl, -⟩ := Prod.mk.inj (Except.ok.inj ok)
        split <;> grind

theorem scanConflictsAndParents_ok {coins : List Bool} {i : Nat} {ops : List OutPoint}
    {out : ConflictScan} (ok : p.scanConflictsAndParents txid coins i ops scan = .ok out) :
    (∀ c, c ∈ out.parentTxids ↔ c ∈ scan.parentTxids ∨ ∃ op ∈ ops, p.graph.creator op = some c) ∧
    ∀ c, (c ∈ scan.directConflicts ∨ (∃ op ∈ ops, p.graph.conflictTxid op = some c ∧ c ≠ txid) →
        c ∈ out.directConflicts) ∧
      (c ∈ out.directConflicts →
        c ∈ scan.directConflicts ∨ ∃ op ∈ ops, p.graph.conflictTxid op = some c) := by
  induction ops generalizing i scan with
  | nil =>
    obtain rfl := Except.ok.inj ok
    simp
  | cons op ops ih =>
    unfold scanConflictsAndParents at ok
    split at ok
    · cases ok
    -- both branches that go on have noted the input and scan the rest
    all_goals
      next mid _ noted =>
        obtain ⟨parents, direct⟩ := noteConflictAndParent_ok noted
        split at ok
        · obtain ⟨parents', direct'⟩ := ih ok
          simp only [mem_cons, exists_eq_or_imp, ← or_assoc]
          refine ⟨fun c => ?_, fun c => ⟨fun h => ?_, fun h => ?_⟩⟩
          · rw [parents', parents]
          · exact (direct' c).1 (h.imp_left (direct c).1)
          · exact ((direct' c).2 h).imp_left (direct c).2
        · cases ok

end Scan

end Pool

/-- What happens to a pool. -/
inductive PoolCall
  | commit (clock : Clock) (tx : Transaction) (prep : PreparedAdmit) (trim : Bool)
  | unlink (txid : Txid)
  /-- Whatever else happens to the pool: parking, writing to disk, compaction. -/
  | outside (q : Pool)

namespace Pool

/-- The live transactions and their values are the same; slots may have been numbered anew. -/
structure Kept (p q : Pool) : Prop where
  bodies : q.bodies = p.bodies
  entry : ∀ t e', q.graph.get t = some e' → ∃ e, p.graph.get t = some e ∧
    e'.wtxid = e.wtxid ∧ e'.feeSat = e.feeSat ∧ e'.weight = e.weight ∧ e'.sigopCost = e.sigopCost
  limits : q.graph.SameLimits p.graph
  exact : p.graph.Exact p.bodies → q.graph.Exact q.bodies

def start (graph : TxGraph) (slots maxWeight minRelaySatKvb : Nat) : Pool where
  store := ⟨List.replicate slots Slot.empty, false, []⟩
  graph
  bodies := ∅
  maxWeight
  orphanage := .new
  minRelaySatKvb
  rollingMinSatKvb := 0
  rollingUpdatedMs := 0
  recentInvalid := ∅
  lastEvicted := []
  undoneReplacements := []
  undoneAcceptSecs := ∅
  trustKept := ∅

def fresh (clusterCountLimit clusterVsizeLimit bytesPerSigop slots maxWeight minRelaySatKvb : Nat) :
    Pool :=
  start { TxGraph.new with clusterCountLimit, clusterVsizeLimit, bytesPerSigop } slots maxWeight
    minRelaySatKvb

section Fresh

variable (clusterCountLimit clusterVsizeLimit bytesPerSigop slots maxWeight minRelaySatKvb : Nat)

theorem fresh_get (t : Txid) : (fresh clusterCountLimit clusterVsizeLimit bytesPerSigop slots
    maxWeight minRelaySatKvb).graph.get t = none :=
  Finmap.lookup_empty t

theorem fresh_exact : (fresh clusterCountLimit clusterVsizeLimit bytesPerSigop slots maxWeight
    minRelaySatKvb).graph.Exact (fresh clusterCountLimit clusterVsizeLimit bytesPerSigop slots
      maxWeight minRelaySatKvb).bodies :=
  { TxGraph.exact_new with }

end Fresh

def call (p : Pool) : PoolCall → Pool
  | .commit clock tx prep trim => (p.finishCommit clock tx prep trim).1
  | .unlink txid => (p.unlinkTxid txid).1
  | .outside q => q

theorem call_limits {p : Pool} {c : PoolCall} (kept : ∀ q, c = .outside q → p.Kept q) :
    (p.call c).graph.SameLimits p.graph := by
  cases c with
  | unlink txid => exact (p.unlinkTxid_unlinks txid).drops.limits
  | outside q => exact (kept q rfl).limits
  | commit clock tx prep trim =>
    obtain ⟨-, -, shrinks⟩ | ⟨-, -, set, slot, mid, -, inserted, -⟩ :=
      p.finishCommit_cases clock tx prep trim
    · exact shrinks.drops.limits
    · have before := (p.replaced_shrinks set).trans inserted.before
      exact inserted.after.limits.trans (TxGraph.insert_limits.trans before.drops.limits)

def run (p : Pool) (calls : List PoolCall) : Pool := calls.foldl call p

/-- The commit of a transaction that spends one coin, confirmed unless its creator is live, and
makes two. -/
def payment (txid : Txid) (coin : OutPoint) (feeSat weight : Nat) : PoolCall :=
  .commit ⟨0, 0, fun _ => true⟩
    { txid, wtxid := txid + 10, version := 2, input := [coin]
      output := [⟨1, []⟩, ⟨1, []⟩], weight }
    { txid, wtxid := txid + 10, feeSat, feeDelta := 0, weight, sigopCost := 0, prevouts := []
      chainCoins := [true], keepAcceptSecs := none, trustWarn := none, keepMark := false
      siblingEviction := .off } true

end Pool

end Rbitcoin.Mempool
