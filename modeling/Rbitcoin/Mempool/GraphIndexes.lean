import Rbitcoin.Lib.Run
import Rbitcoin.Mempool.Graph

/-! The indexes of the graph are exact. `Bodies` is the live set itself; what it says about creates,
spends and edges is what every index of the graph holds, after every run of inserts and removes. -/

namespace Rbitcoin.Mempool

open Map Ordered TxGraph List

abbrev Bodies := Map Txid Transaction

namespace Bodies

variable (bodies : Bodies)

def Creates (t : Txid) (op : OutPoint) : Prop :=
  ∃ tx, bodies.lookup t = some tx ∧ op ∈ tx.outpoints t

def Spends (t : Txid) (op : OutPoint) : Prop := ∃ tx, bodies.lookup t = some tx ∧ op ∈ tx.input

/-- `c` spends an output of `p`, both live. -/
def Edge (p c : Txid) : Prop := ∃ op, bodies.Creates p op ∧ bodies.Spends c op

variable {bodies} {t a : Txid} {tx : Transaction} {op : OutPoint}

theorem Creates.txid (h : bodies.Creates t op) : op.txid = t := by
  obtain ⟨tx, -, mem⟩ := h
  obtain ⟨v, -, rfl⟩ := mem_map.mp mem
  rfl

theorem creates_insert : Creates (bodies.insert t tx) a op ↔
    if a = t then op ∈ tx.outpoints t else bodies.Creates a op := by
  unfold Creates
  rw [lookup_insert]
  split
  · next same => simp [same]
  · rfl

theorem spends_insert : Spends (bodies.insert t tx) a op ↔
    if a = t then op ∈ tx.input else bodies.Spends a op := exists_insert

theorem creates_erase : Creates (bodies.erase t) a op ↔ a ≠ t ∧ bodies.Creates a op := exists_erase

theorem spends_erase : Spends (bodies.erase t) a op ↔ a ≠ t ∧ bodies.Spends a op := exists_erase

/-- An edge found by looking into the two bodies. -/
theorem edge_of_eval {p c : Txid} (op : OutPoint)
    (made : (bodies.lookup p).any (op ∈ ·.outpoints p) = true)
    (spent : (bodies.lookup c).any (op ∈ ·.input) = true) : bodies.Edge p c := by
  obtain ⟨tx, found, created⟩ := (Option.any_eq_true _ _).mp made
  obtain ⟨tx', found', spends⟩ := (Option.any_eq_true _ _).mp spent
  exact ⟨op, ⟨tx, found, of_decide_eq_true created⟩, tx', found', of_decide_eq_true spends⟩

theorem edge_erase {p c : Txid} :
    Edge (bodies.erase t) p c ↔ (p ≠ t ∧ c ≠ t) ∧ bodies.Edge p c := by
  unfold Edge
  simp only [creates_erase, spends_erase]
  constructor
  · rintro ⟨op, ⟨hp, created⟩, hc, spent⟩
    exact ⟨⟨hp, hc⟩, op, created, spent⟩
  · rintro ⟨⟨hp, hc⟩, op, created, spent⟩
    exact ⟨op, ⟨hp, created⟩, hc, spent⟩

end Bodies

namespace TxGraph

/-- The graph without the indexes that rank its clusters. -/
def base (g : TxGraph) : TxGraph :=
  { g with chunkCache := none, worstChunks := ∅, worstRepRate := ∅ }

section Base

variable (g : TxGraph)

@[simp] theorem base_invalidateChunkCache : g.invalidateChunkCache.base = g.base := rfl

@[simp] theorem base_dropClusterIndex (rep : Txid) : (g.dropClusterIndex rep).base = g.base := by
  unfold dropClusterIndex
  split <;> rfl

@[simp] theorem base_indexClusterOf (t : Txid) : (g.indexClusterOf t).base = g.base := by
  unfold indexClusterOf
  split
  · rfl
  · split
    · rfl
    · split
      · exact base_dropClusterIndex g _
      · exact base_dropClusterIndex g _

theorem base_foldl {α : Type} {f : TxGraph → α → TxGraph} (same : ∀ g a, (f g a).base = g.base)
    (l : List α) : (l.foldl f g).base = g.base := by
  induction l generalizing g with
  | nil => rfl
  | cons a l ih => exact (ih _).trans (same g a)

@[simp] theorem base_dropJoined (txid : Txid) (tx : Transaction) :
    (g.dropJoined txid tx).base = g.base :=
  base_foldl g base_dropClusterIndex _

@[simp] theorem base_dropClusterOf (t : Txid) : (g.dropClusterOf t).base = g.base := by
  unfold dropClusterOf
  split
  · rfl
  · exact base_dropClusterIndex g _

@[simp] theorem base_reindex (n : Txid) : (g.reindex n).base = g.base := by
  unfold reindex
  split
  · rw [base_indexClusterOf, base_dropClusterOf]
  · rfl

end Base

variable {g : TxGraph}

theorem mem_live {a : Txid} : a ∈ g.live ↔ g.contains a = true := by
  rw [live, Finmap.mem_keys, ← Finmap.lookup_isSome]
  rfl

theorem mem_parentsOf {t p : Txid} : p ∈ g.parentsOf t ↔ ∃ e, g.get t = some e ∧ p ∈ e.parents := by
  unfold parentsOf
  cases g.get t <;> simp

theorem mem_childrenOf {t c : Txid} :
    c ∈ g.childrenOf t ↔ ∃ e, g.get t = some e ∧ c ∈ e.children := by
  unfold childrenOf
  cases g.get t <;> simp

/-- Every link goes both ways. -/
def Linked (g : TxGraph) : Prop := ∀ p c, p ∈ g.parentsOf c ↔ c ∈ g.childrenOf p

/-- Every index says what the live set says. -/
structure Exact (g : TxGraph) (bodies : Bodies) : Prop where
  live : ∀ t, (g.get t).isSome = (bodies.lookup t).isSome
  txid : ∀ {t e}, g.get t = some e → e.txid = t
  parents : ∀ p t, p ∈ g.parentsOf t ↔ bodies.Edge p t
  children : ∀ t c, c ∈ g.childrenOf t ↔ bodies.Edge t c
  conflicts : ∀ op t, g.conflicts.lookup op = some t ↔ bodies.Spends t op
  created : ∀ op, op ∈ g.created ↔ ∃ t, bodies.Creates t op
  spends_conflicts : ∀ op t, g.spends.lookup op = some t → g.conflicts.lookup op = some t
  spends_created : ∀ op t, op ∈ g.created → g.conflicts.lookup op = some t →
    g.spends.lookup op = some t
  byWtxid : ∀ w t, g.byWtxid.lookup w = some t ↔ ∃ e, g.get t = some e ∧ e.wtxid = w

variable {g g' : TxGraph} {bodies : Bodies}

theorem exists_of_base (same : g.base = g'.base) : ∃ chunkCache worstChunks worstRepRate,
    g = { g' with chunkCache, worstChunks, worstRepRate } := by
  cases g
  simpa [base] using same

theorem entries_of_base (same : g.base = g'.base) : g.entries = g'.entries :=
  (congrArg entries same :)

theorem totalWeight_of_base (same : g.base = g'.base) : g.totalWeight = g'.totalWeight :=
  (congrArg totalWeight same :)

theorem Exact.of_base (same : g.base = g'.base) (h : g.Exact bodies) : g'.Exact bodies := by
  obtain ⟨_, _, _, rfl⟩ := exists_of_base same.symm
  exact { h with }

theorem Exact.get_eq_none (exact : g.Exact bodies) {t : Txid} :
    g.get t = none ↔ bodies.lookup t = none := by
  simp only [← Option.not_isSome_iff_eq_none, exact.live]

theorem exact_new : new.Exact ∅ := by
  have none (t : Txid) : new.get t = none := Finmap.lookup_empty t
  have free (op : OutPoint) : new.conflicts.lookup op = Option.none := Finmap.lookup_empty op
  have unknown (w : Wtxid) : new.byWtxid.lookup w = Option.none := Finmap.lookup_empty w
  constructor
  · intro t; rfl
  · intro t e h; cases h
  · simp [parentsOf, none, Bodies.Edge, Bodies.Spends]
  · simp [childrenOf, none, Bodies.Edge, Bodies.Spends]
  · simp [free, Bodies.Spends]
  · simp [new, Bodies.Creates]
  · intro op t h; cases h
  · intro op t h; simp [new] at h
  · simp [unknown, none]

/-- What a caller hands in: a transaction that is not live, whose conflicts have been removed, with
ids that no live transaction has, and not yet linked to children. -/
structure Insertable (g : TxGraph) (entry : TxEntry) (tx : Transaction) : Prop where
  fresh : g.get entry.txid = none
  unspent : ∀ op ∈ tx.input, g.conflicts.lookup op = none
  others : ∀ op ∈ tx.input, op ∉ tx.outpoints entry.txid
  wtxid : ∀ t e, g.get t = some e → e.wtxid ≠ entry.wtxid
  unlinked : entry.children = ∅

section LinkChild

variable {txid : Txid}

/-- What an entry has after `kids` became children of `txid`. -/
def family (txid : Txid) (kids : List Txid) (a : Txid) (e : TxEntry) : TxEntry :=
  { e with
    parents := if a ≠ txid ∧ a ∈ kids then Insert.insert txid e.parents else e.parents
    children := if a = txid then e.children ∪ (kids.filter (· ≠ txid)).toFinset else e.children }

theorem family_append (kids kids' : List Txid) (a : Txid) (e : TxEntry) :
    family txid kids' a (family txid kids a e) = family txid (kids ++ kids') a e := by
  unfold family
  by_cases root : a = txid
  · simp [root]
  · by_cases first : a ∈ kids <;> by_cases second : a ∈ kids' <;> simp [root, first]

theorem map_family_self {kids : List Txid} (only : ∀ k ∈ kids, k = txid) (a : Txid)
    (o : Option TxEntry) : o.map (family txid kids a) = o := by
  have none : kids.filter (· ≠ txid) = [] := by simpa using only
  have same (e : TxEntry) : family txid kids a e = e := by
    have apart : ¬(a ≠ txid ∧ a ∈ kids) := fun h => h.1 (only a h.2)
    unfold family
    rw [if_neg apart, none, toFinset_nil, Finset.union_empty, ite_self]
  cases o with
  | none => rfl
  | some e => rw [Option.map_some, same]

theorem linkChild_frame (op : OutPoint) : g.linkChild txid op =
    { g with
      entries := (g.linkChild txid op).entries, spends := (g.linkChild txid op).spends } := by
  unfold linkChild
  split
  · rfl
  · split <;> rfl

theorem linkChild_get (op : OutPoint) (a : Txid) : (g.linkChild txid op).get a =
      (g.get a).map (family txid (g.conflicts.lookup op).toList a) := by
  unfold linkChild
  cases found : g.conflicts.lookup op with
  | none => exact (map_family_self (by simp) a _).symm
  | some child =>
    dsimp only
    by_cases self : child = txid
    · rw [if_pos self]
      exact (map_family_self (fun k hk => (mem_singleton.mp hk).trans self) a _).symm
    · simp only [if_neg self, get, lookup_modify]
      cases Finmap.lookup a g.entries with
      | none => simp
      | some e =>
        by_cases root : a = txid
        · simp [family, root, self, Ne.symm self]
        · by_cases here : a = child
          · simp [family, here, self]
          · simp [family, root, here]

theorem linkChild_spends (op op' : OutPoint) : (g.linkChild txid op).spends.lookup op' =
      if op' = op ∧ ∃ c, g.conflicts.lookup op = some c ∧ c ≠ txid then g.conflicts.lookup op
      else g.spends.lookup op' := by
  unfold linkChild
  cases found : g.conflicts.lookup op with
  | none => simp
  | some child =>
    by_cases self : child = txid
    · simp [self]
    · simp [self, lookup_insert]

variable (l : List OutPoint)

variable (g)

theorem linkChildren_frame : l.foldl (fun g op => g.linkChild txid op) g = { g with
      entries := (l.foldl (fun g op => g.linkChild txid op) g).entries
      spends := (l.foldl (fun g op => g.linkChild txid op) g).spends } := by
  induction l generalizing g with
  | nil => rfl
  | cons op l ih =>
    rw [foldl_cons, ih (g.linkChild txid op), linkChild_frame op]

theorem linkChildren_get (a : Txid) : (l.foldl (fun g op => g.linkChild txid op) g).get a =
      (g.get a).map (family txid (l.filterMap g.conflicts.lookup) a) := by
  induction l generalizing g with
  | nil => exact (map_family_self (by simp) a _).symm
  | cons op l ih =>
    have conflicts : (g.linkChild txid op).conflicts = g.conflicts := by rw [linkChild_frame]
    have heads : (op :: l).filterMap g.conflicts.lookup =
        (g.conflicts.lookup op).toList ++ l.filterMap g.conflicts.lookup := by
      cases found : g.conflicts.lookup op <;> simp [found]
    rw [foldl_cons, ih, linkChild_get, conflicts, Option.map_map, heads]
    congr 1
    funext e
    exact family_append _ _ a e

theorem linkChildren_spends (op : OutPoint) :
    (l.foldl (fun g op => g.linkChild txid op) g).spends.lookup op =
      if op ∈ l ∧ ∃ c, g.conflicts.lookup op = some c ∧ c ≠ txid then g.conflicts.lookup op
      else g.spends.lookup op := by
  induction l generalizing g with
  | nil => simp
  | cons first l ih =>
    have conflicts : (g.linkChild txid first).conflicts = g.conflicts := by rw [linkChild_frame]
    rw [foldl_cons, ih, linkChild_spends, conflicts]
    by_cases here : op = first
    · subst here
      by_cases taken : ∃ c, g.conflicts.lookup op = some c ∧ c ≠ txid
      · rw [if_pos (And.intro mem_cons_self taken), if_pos (And.intro rfl taken), ite_self]
      · have idle (p : Prop) : ¬(p ∧ ∃ c, g.conflicts.lookup op = some c ∧ c ≠ txid) :=
          fun h => taken h.2
        rw [if_neg (idle _), if_neg (idle _), if_neg (idle _)]
    · simp [here]

variable {g}

end LinkChild

section Insert

variable {entry : TxEntry} {tx : Transaction}

/-- The graph with a new transaction, before its children are linked. -/
def join (g : TxGraph) (entry : TxEntry) (tx : Transaction) : TxGraph :=
  ((g.linkParents entry.txid (g.spentParents tx)).noteSpends entry.txid tx).noteEntry
    { entry with parents := g.spentParents tx } tx

def linked (g : TxGraph) (entry : TxEntry) (tx : Transaction) : TxGraph :=
  (tx.outpoints entry.txid).foldl (fun g op => g.linkChild entry.txid op) (g.join entry tx)

theorem insert_base : (g.insert entry tx).base =
    ((g.invalidateChunkCache.dropJoined entry.txid tx).linked entry tx).base :=
  base_indexClusterOf _ _

theorem join_get (a : Txid) : (g.join entry tx).get a =
    if a = entry.txid then some { entry with parents := g.spentParents tx }
    else if a ∈ g.spentParents tx then
      (g.get a).map fun e => { e with children := Insert.insert entry.txid e.children }
    else g.get a := by
  unfold join noteEntry noteSpends linkParents get
  rw [lookup_insert, lookup_modifyAll _ (by simp)]
  simp

theorem join_conflicts (op : OutPoint) : (g.join entry tx).conflicts.lookup op =
    if op ∈ tx.input then some entry.txid else g.conflicts.lookup op :=
  lookup_insertAll ..

theorem join_spends (op : OutPoint) : (g.join entry tx).spends.lookup op =
    if op ∈ tx.input ∧ op ∈ g.created then some entry.txid else g.spends.lookup op := by
  have looked := lookup_insertAll g.spends (a := op) (l := tx.input.filter (· ∈ g.created))
    entry.txid
  simp only [mem_filter, decide_eq_true_eq] at looked
  exact looked

theorem mem_join_created (op : OutPoint) :
    op ∈ (g.join entry tx).created ↔ op ∈ g.created ∨ op ∈ tx.outpoints entry.txid := by
  unfold join noteEntry noteSpends linkParents
  rw [Finset.mem_union, mem_toFinset]

/-- It spends an output of the new transaction already. -/
def Awaits (g : TxGraph) (txid : Txid) (tx : Transaction) (c : Txid) : Prop :=
  ∃ op ∈ tx.outpoints txid, g.conflicts.lookup op = some c

theorem Exact.mem_spentParents (exact : g.Exact bodies) (p : Txid) :
    p ∈ g.spentParents tx ↔ ∃ op ∈ tx.input, bodies.Creates p op := by
  unfold spentParents
  simp only [mem_toFinset, mem_map, mem_filter, decide_eq_true_eq]
  constructor
  · rintro ⟨op, ⟨spent, created⟩, rfl⟩
    obtain ⟨t, creates⟩ := (exact.created op).mp created
    exact ⟨op, spent, creates.txid ▸ creates⟩
  · rintro ⟨op, spent, creates⟩
    exact ⟨op, ⟨spent, (exact.created op).mpr ⟨p, creates⟩⟩, creates.txid⟩

theorem edge_insert (others : ∀ op ∈ tx.input, op ∉ tx.outpoints entry.txid) (p c : Txid) :
    Bodies.Edge (bodies.insert entry.txid tx) p c ↔
      if p = entry.txid then c ≠ entry.txid ∧ ∃ op ∈ tx.outpoints entry.txid, bodies.Spends c op
      else if c = entry.txid then ∃ op ∈ tx.input, bodies.Creates p op
      else bodies.Edge p c := by
  unfold Bodies.Edge
  simp only [Bodies.creates_insert, Bodies.spends_insert]
  by_cases parent : p = entry.txid <;> by_cases child : c = entry.txid <;>
    simp only [parent, child, if_true, if_false, ne_eq, not_true_eq_false, not_false_eq_true,
      false_and, true_and, iff_false, not_exists, not_and]
  · exact fun op created spent => others op spent created
  · exact ⟨fun ⟨op, h, h'⟩ => ⟨op, h', h⟩, fun ⟨op, h, h'⟩ => ⟨op, h', h⟩⟩

variable (exact : g.Exact bodies) (ok : g.Insertable entry tx)
include exact ok

theorem Exact.no_body : bodies.lookup entry.txid = none := exact.get_eq_none.mp ok.fresh

theorem Exact.kids_ne {c : Txid} {op : OutPoint} (spent : bodies.Spends c op) : c ≠ entry.txid := by
  rintro rfl
  obtain ⟨tx', found, -⟩ := spent
  rw [exact.no_body ok] at found
  cases found

theorem Exact.unmade (op : OutPoint) : ¬bodies.Creates entry.txid op := by
  rintro ⟨tx', found, -⟩
  rw [exact.no_body ok] at found
  cases found

omit exact ok in
theorem linked_frame : g.linked entry tx =
    { g.join entry tx with
      entries := (g.linked entry tx).entries
      spends := (g.linked entry tx).spends } :=
  linkChildren_frame ..

omit exact ok in
theorem linked_conflicts (op : OutPoint) : (g.linked entry tx).conflicts.lookup op =
    if op ∈ tx.input then some entry.txid else g.conflicts.lookup op := by
  rw [linked_frame]
  exact join_conflicts op

omit exact ok in
theorem linked_get_self (unlinked : entry.children = ∅) :
    (g.linked entry tx).get entry.txid = some { entry with
    parents := g.spentParents tx
    children := (((tx.outpoints entry.txid).filterMap (g.join entry tx).conflicts.lookup).filter
      (· ≠ entry.txid)).toFinset } := by
  unfold linked
  rw [linkChildren_get, join_get, if_pos rfl, Option.map_some]
  simp [family, unlinked]

variable {a : Txid} {e : TxEntry}

omit exact ok in
theorem linked_get_other (other : a ≠ entry.txid) :
    (g.linked entry tx).get a = (g.get a).map fun e => { e with
      parents :=
        if a ∈ (tx.outpoints entry.txid).filterMap (g.join entry tx).conflicts.lookup then
          Insert.insert entry.txid e.parents
        else e.parents
      children :=
        if a ∈ g.spentParents tx then Insert.insert entry.txid e.children else e.children } := by
  unfold linked
  rw [linkChildren_get, join_get, if_neg other]
  cases g.get a with
  | none => simp
  | some e => by_cases spent : a ∈ g.spentParents tx <;> simp [family, other, spent]

section Links

variable (others : ∀ op ∈ tx.input, op ∉ tx.outpoints entry.txid) (unlinked : entry.children = ∅)
include others

omit exact ok in
theorem mem_kids {c : Txid} :
    c ∈ (tx.outpoints entry.txid).filterMap (g.join entry tx).conflicts.lookup ↔
      g.Awaits entry.txid tx c := by
  rw [mem_filterMap]
  refine exists_congr fun op => and_congr_right fun own => ?_
  rw [join_conflicts, if_neg fun spent => others op spent own]

include unlinked

omit exact ok in
theorem mem_parentsOf_linked {p : Txid} : p ∈ (g.linked entry tx).parentsOf a ↔
    if a = entry.txid then p ∈ g.spentParents tx
    else p ∈ g.parentsOf a ∨ p = entry.txid ∧ g.contains a = true ∧ g.Awaits entry.txid tx a := by
  rw [mem_parentsOf]
  by_cases root : a = entry.txid
  · rw [if_pos root, root, linked_get_self unlinked]
    simp
  · rw [if_neg root, mem_parentsOf, linked_get_other root, contains]
    cases g.get a with
    | none => simp
    | some e =>
      by_cases awaits : g.Awaits entry.txid tx a <;> simp [mem_kids others, awaits, or_comm]

omit exact ok in
theorem mem_childrenOf_linked {c : Txid} : c ∈ (g.linked entry tx).childrenOf a ↔
    if a = entry.txid then c ≠ entry.txid ∧ g.Awaits entry.txid tx c
    else c ∈ g.childrenOf a ∨ c = entry.txid ∧ g.contains a = true ∧ a ∈ g.spentParents tx := by
  rw [mem_childrenOf]
  by_cases root : a = entry.txid
  · rw [if_pos root, root, linked_get_self unlinked]
    simp [mem_kids others, and_comm]
  · rw [if_neg root, mem_childrenOf, linked_get_other root, contains]
    cases g.get a with
    | none => simp
    | some e => by_cases spent : a ∈ g.spentParents tx <;> simp [spent, or_comm]

end Links

theorem Exact.linked_parents (p a : Txid) : p ∈ (g.linked entry tx).parentsOf a ↔
    Bodies.Edge (bodies.insert entry.txid tx) p a := by
  rw [mem_parentsOf_linked ok.others ok.unlinked, edge_insert ok.others, exact.mem_spentParents,
    exact.parents]
  by_cases root : a = entry.txid
  · by_cases loop : p = entry.txid
    · simp [loop, root, exact.unmade ok]
    · simp [loop]
  · by_cases new : p = entry.txid
    · have absent : ¬bodies.Edge p a := fun ⟨op, made, _⟩ => exact.unmade ok op (new ▸ made)
      have live : g.Awaits entry.txid tx a → g.contains a = true := by
        rintro ⟨op, -, held⟩
        obtain ⟨body, found, -⟩ := (exact.conflicts op a).mp held
        rw [contains, exact.live, found]
        rfl
      rw [if_neg root, if_pos new, or_iff_right absent, and_iff_right new, and_iff_right root,
        and_iff_right_of_imp live]
      simp only [Awaits, exact.conflicts]
    · simp [new]

theorem Exact.linked_children (a c : Txid) : c ∈ (g.linked entry tx).childrenOf a ↔
    Bodies.Edge (bodies.insert entry.txid tx) a c := by
  rw [mem_childrenOf_linked ok.others ok.unlinked, edge_insert ok.others, exact.mem_spentParents,
    exact.children]
  by_cases root : a = entry.txid
  · simp only [if_pos root, Awaits, exact.conflicts]
  · by_cases new : c = entry.txid
    · have absent : ¬bodies.Edge a c := fun ⟨op, _, spent⟩ => exact.kids_ne ok spent new
      have live : (∃ op ∈ tx.input, bodies.Creates a op) → g.contains a = true := by
        rintro ⟨op, -, body, found, -⟩
        rw [contains, exact.live, found]
        rfl
      rw [if_neg root, if_neg root, if_pos new, or_iff_right absent, and_iff_right new,
        and_iff_right_of_imp live]
    · simp [root, new]

variable (op)

theorem Exact.linked_spenders (t : Txid) : (g.linked entry tx).conflicts.lookup op = some t ↔
      Bodies.Spends (bodies.insert entry.txid tx) t op := by
  rw [linked_conflicts, Bodies.spends_insert]
  by_cases spent : op ∈ tx.input
  · have unspent : ¬bodies.Spends t op := by
      rw [← exact.conflicts, ok.unspent op spent]
      exact nofun
    by_cases root : t = entry.txid
    · simp [root, spent]
    · simp [root, Ne.symm root, unspent, spent]
  · rw [if_neg spent, exact.conflicts]
    split
    · next root => exact ⟨fun h => absurd root (exact.kids_ne ok h), fun h => absurd h spent⟩
    · rfl

theorem Exact.linked_created : op ∈ (g.linked entry tx).created ↔
    ∃ t, Bodies.Creates (bodies.insert entry.txid tx) t op := by
  rw [linked_frame, mem_join_created, exact.created]
  simp only [Bodies.creates_insert]
  constructor
  · rintro (⟨t, made⟩ | made)
    · have apart : t ≠ entry.txid := by
        rintro rfl
        exact exact.unmade ok op made
      exact ⟨t, by rwa [if_neg apart]⟩
    · exact ⟨entry.txid, by rwa [if_pos rfl]⟩
  · rintro ⟨t, made⟩
    by_cases root : t = entry.txid
    · rw [if_pos root] at made
      exact Or.inr made
    · rw [if_neg root] at made
      exact Or.inl ⟨t, made⟩

omit exact ok in
theorem linked_spends : (g.linked entry tx).spends.lookup op = if op ∈ tx.outpoints entry.txid ∧
        ∃ c, (g.linked entry tx).conflicts.lookup op = some c ∧ c ≠ entry.txid then
      (g.linked entry tx).conflicts.lookup op
    else if op ∈ tx.input ∧ op ∈ g.created then some entry.txid else g.spends.lookup op := by
  have conflicts : (g.linked entry tx).conflicts = (g.join entry tx).conflicts := by
    rw [linked_frame]
  rw [conflicts, ← join_spends]
  exact linkChildren_spends ..

theorem Exact.linked_spends_conflicts (t : Txid)
    (spent : (g.linked entry tx).spends.lookup op = some t) :
    (g.linked entry tx).conflicts.lookup op = some t := by
  rw [linked_spends] at spent
  split at spent
  · exact spent
  · rw [linked_conflicts]
    by_cases here : op ∈ tx.input ∧ op ∈ g.created
    · rw [if_pos here] at spent
      rw [if_pos here.1, spent]
    · rw [if_neg here] at spent
      have old := exact.spends_conflicts op t spent
      have apart : op ∉ tx.input := by
        intro input
        rw [ok.unspent op input] at old
        cases old
      rw [if_neg apart, old]

theorem Exact.linked_spends_created (t : Txid) (made : op ∈ (g.linked entry tx).created)
    (found : (g.linked entry tx).conflicts.lookup op = some t) :
    (g.linked entry tx).spends.lookup op = some t := by
  rw [linked_spends]
  split
  · exact found
  · next idle =>
    rw [linked_frame, mem_join_created] at made
    have before := found
    rw [linked_conflicts] at before
    by_cases input : op ∈ tx.input
    · have old : op ∈ g.created := made.resolve_right (ok.others op input)
      rw [if_pos input] at before
      rw [if_pos ⟨input, old⟩, before]
    · rw [if_neg input] at before
      have apart : t ≠ entry.txid := exact.kids_ne ok ((exact.conflicts op t).mp before)
      have old : op ∈ g.created := made.resolve_right fun out => idle ⟨out, t, found, apart⟩
      rw [if_neg (fun h => input h.1)]
      exact exact.spends_created op t old before

variable {op}

theorem Exact.linked_byWtxid (w : Wtxid) (t : Txid) :
    (g.linked entry tx).byWtxid.lookup w = some t ↔
      ∃ e, (g.linked entry tx).get t = some e ∧ e.wtxid = w := by
  have looked : (g.linked entry tx).byWtxid.lookup w =
      if w = entry.wtxid then some entry.txid else g.byWtxid.lookup w := by
    rw [linked_frame]
    exact lookup_insert ..
  rw [looked]
  by_cases root : t = entry.txid
  · have foreign : g.byWtxid.lookup w ≠ some entry.txid := by
      rw [ne_eq, exact.byWtxid, ok.fresh]
      rintro ⟨e, found, -⟩
      cases found
    rw [root, linked_get_self ok.unlinked]
    by_cases mine : w = entry.wtxid
    · simp [mine]
    · simp [mine, Ne.symm mine, foreign]
  · have other : (∃ e, (g.linked entry tx).get t = some e ∧ e.wtxid = w) ↔
        ∃ e, g.get t = some e ∧ e.wtxid = w := by
      rw [linked_get_other root]
      simp
    rw [other]
    by_cases mine : w = entry.wtxid
    · rw [if_pos mine, mine]
      exact ⟨fun h => absurd (Option.some.inj h).symm root,
        fun ⟨e, found, same⟩ => absurd same (ok.wtxid t e found)⟩
    · rw [if_neg mine, exact.byWtxid]

theorem Exact.link : (g.linked entry tx).Exact (bodies.insert entry.txid tx) where
  live a := by
    rw [lookup_insert]
    by_cases root : a = entry.txid
    · rw [root, linked_get_self ok.unlinked, if_pos rfl]
      rfl
    · rw [linked_get_other root, Option.isSome_map, exact.live, if_neg root]
  txid {a e} found := by
    by_cases root : a = entry.txid
    · rw [root, linked_get_self ok.unlinked] at found
      rw [← Option.some.inj found, root]
    · rw [linked_get_other root] at found
      obtain ⟨e', found', rfl⟩ := Option.map_eq_some_iff.mp found
      exact (exact.txid found' : e'.txid = a)
  parents := exact.linked_parents ok
  children := exact.linked_children ok
  conflicts := exact.linked_spenders ok
  created := exact.linked_created ok
  spends_conflicts := exact.linked_spends_conflicts ok
  spends_created := exact.linked_spends_created ok
  byWtxid := exact.linked_byWtxid ok

theorem Exact.insert : (g.insert entry tx).Exact (bodies.insert entry.txid tx) := by
  have same : (g.invalidateChunkCache.dropJoined entry.txid tx).base = g.base := by simp
  refine Exact.of_base insert_base.symm ?_
  apply (exact.of_base same.symm).link
  obtain ⟨_, _, _, dropped⟩ := exists_of_base same
  rw [dropped]
  exact { ok with }

end Insert

section Remove

variable {txid : Txid} {e : TxEntry} {tx : Transaction}

def unlinked (g : TxGraph) (txid : Txid) (e : TxEntry) (tx : Transaction) : TxGraph :=
  (g.dropEntry txid e).dropSpends txid tx

theorem get_dropClusterOf (t : Txid) :
    (g.invalidateChunkCache.dropClusterOf txid).entries.lookup t = g.get t := by
  rw [get, entries_of_base (base_dropClusterOf _ _)]
  rfl

theorem base_remove (found : g.get txid = some e) :
    (g.remove txid tx).1.base = (g.unlinked txid e tx).base := by
  have same : (g.invalidateChunkCache.dropClusterOf txid).base = g.base := by simp
  have dropped := congrArg (fun b => (b.unlinked txid e tx).base) same
  unfold remove
  simp only [get_dropClusterOf, found]
  exact (base_foldl _ base_reindex _).trans dropped

theorem base_remove_none (absent : g.get txid = none) : (g.remove txid tx).1.base = g.base := by
  unfold remove
  simp only [get_dropClusterOf, absent]
  exact base_dropClusterOf ..

theorem unlinked_get (a : Txid) : (g.unlinked txid e tx).get a =
    if a = txid then none
    else (g.get a).map fun n => { n with
      parents := if a ∈ e.children then n.parents.erase txid else n.parents
      children := if a ∈ e.parents then n.children.erase txid else n.children } := by
  unfold unlinked dropSpends dropEntry get
  rw [lookup_modifyAll _ (by simp), lookup_modifyAll _ (by simp), lookup_erase]
  by_cases root : a = txid
  · simp [root]
  · simp only [if_neg root]
    cases g.entries.lookup a with
    | none => simp
    | some n =>
      by_cases child : a ∈ e.children <;> by_cases parent : a ∈ e.parents <;> simp [child, parent]

theorem Exact.spends_iff (exact : g.Exact bodies) (body : bodies.lookup txid = some tx)
    (op : OutPoint) : g.conflicts.lookup op = some txid ↔ op ∈ tx.input := by
  rw [exact.conflicts, Bodies.Spends, body]
  simp

theorem unlinked_conflicts (op : OutPoint) : (g.unlinked txid e tx).conflicts.lookup op =
    if op ∈ tx.input ∧ g.conflicts.lookup op = some txid then none else g.conflicts.lookup op :=
  lookup_eraseAll ..

theorem unlinked_spends (op : OutPoint) : (g.unlinked txid e tx).spends.lookup op =
    if op ∈ tx.input ∧ g.spends.lookup op = some txid then none else g.spends.lookup op :=
  lookup_eraseAll ..

theorem ite_erase (s : Finset Txid) (a : Txid) : (if a ∈ s then s.erase a else s) = s.erase a := by
  split
  · rfl
  · next out => exact (Finset.erase_eq_of_notMem out).symm

section Links

variable (linked : g.Linked) (found : g.get txid = some e)
include linked found

theorem mem_parentsOf_unlinked {a p : Txid} :
    p ∈ (g.unlinked txid e tx).parentsOf a ↔ (p ≠ txid ∧ a ≠ txid) ∧ p ∈ g.parentsOf a := by
  have child : a ∈ e.children ↔ txid ∈ g.parentsOf a := by
    rw [linked, mem_childrenOf, found]
    simp
  rw [mem_parentsOf, unlinked_get]
  by_cases root : a = txid
  · simp [root]
  rw [if_neg root, and_iff_left root]
  simp only [child, mem_parentsOf]
  cases g.get a <;> simp [ite_erase]

theorem mem_childrenOf_unlinked {a c : Txid} :
    c ∈ (g.unlinked txid e tx).childrenOf a ↔ (a ≠ txid ∧ c ≠ txid) ∧ c ∈ g.childrenOf a := by
  have parent : a ∈ e.parents ↔ txid ∈ g.childrenOf a := by
    rw [← linked, mem_parentsOf, found]
    simp
  rw [mem_childrenOf, unlinked_get]
  by_cases root : a = txid
  · simp [root]
  rw [if_neg root, and_iff_right root]
  simp only [parent, mem_childrenOf]
  cases g.get a <;> simp [ite_erase]

end Links

theorem Exact.linked (exact : g.Exact bodies) : g.Linked :=
  fun p c => (exact.parents p c).trans (exact.children p c).symm

variable (exact : g.Exact bodies) (found : g.get txid = some e)
    (body : bodies.lookup txid = some tx)
include exact found body

omit found in
theorem Exact.unlinked_spenders (op : OutPoint) (t : Txid) :
    (g.unlinked txid e tx).conflicts.lookup op = some t ↔
      Bodies.Spends (bodies.erase txid) t op := by
  rw [unlinked_conflicts, Bodies.spends_erase, ← exact.conflicts]
  by_cases mine : g.conflicts.lookup op = some txid
  · simp [mine, (exact.spends_iff body op).mp mine, eq_comm]
  · rw [if_neg (fun h => mine h.2)]
    exact ⟨fun h => ⟨fun same => mine (same ▸ h), h⟩, And.right⟩

omit found in
theorem Exact.unlinked_created (op : OutPoint) : op ∈ (g.unlinked txid e tx).created ↔
    ∃ t, Bodies.Creates (bodies.erase txid) t op := by
  have looked : op ∈ (g.unlinked txid e tx).created ↔
      op ∈ g.created ∧ op ∉ tx.outpoints txid := by
    unfold unlinked dropSpends dropEntry
    rw [Finset.mem_sdiff, mem_toFinset]
  rw [looked, exact.created]
  simp only [Bodies.creates_erase]
  constructor
  · rintro ⟨⟨t, made⟩, other⟩
    refine ⟨t, ?_, made⟩
    rintro rfl
    obtain ⟨tx', body', mem⟩ := made
    rw [body] at body'
    exact other (Option.some.inj body' ▸ mem)
  · rintro ⟨t, other, made⟩
    refine ⟨⟨t, made⟩, fun mem => other ?_⟩
    have mine : bodies.Creates txid op := ⟨tx, body, mem⟩
    rw [← made.txid, ← mine.txid]

omit found in
theorem Exact.unlinked_spends_conflicts (op : OutPoint) (t : Txid) :
    (g.unlinked txid e tx).spends.lookup op = some t →
      (g.unlinked txid e tx).conflicts.lookup op = some t := by
  rw [unlinked_spends, unlinked_conflicts]
  split
  · exact nofun
  · next other =>
    intro spent
    have before := exact.spends_conflicts op t spent
    have apart : t ≠ txid := by
      rintro rfl
      exact other ⟨(exact.spends_iff body op).mp before, spent⟩
    rw [if_neg (fun h => apart (Option.some.inj (before.symm.trans h.2))), before]

omit found body in
theorem Exact.unlinked_spends_created {op : OutPoint} {t : Txid}
    (made : op ∈ (g.unlinked txid e tx).created)
    (here : (g.unlinked txid e tx).conflicts.lookup op = some t) :
    (g.unlinked txid e tx).spends.lookup op = some t := by
  have old : op ∈ g.created := (Finset.mem_sdiff.mp made).1
  rw [unlinked_conflicts] at here
  split at here
  · cases here
  · next other =>
    have spent := exact.spends_created op t old here
    rw [unlinked_spends, if_neg, spent]
    rintro ⟨input, mine⟩
    exact other ⟨input, exact.spends_conflicts op txid mine⟩

omit body in
theorem Exact.unlinked_byWtxid (w : Wtxid) (t : Txid) :
    (g.unlinked txid e tx).byWtxid.lookup w = some t ↔
      ∃ n, (g.unlinked txid e tx).get t = some n ∧ n.wtxid = w := by
  have mine : g.byWtxid.lookup e.wtxid = some txid := (exact.byWtxid _ _).mpr ⟨e, found, rfl⟩
  have looked : (g.unlinked txid e tx).byWtxid.lookup w =
      if w = e.wtxid then none else g.byWtxid.lookup w := by
    unfold unlinked dropSpends dropEntry
    rw [if_pos mine, lookup_erase]
  rw [looked]
  by_cases root : t = txid
  · rw [unlinked_get, if_pos root]
    split
    · exact ⟨nofun, nofun⟩
    · next other =>
      constructor
      · intro h
        obtain ⟨e', found', same⟩ := (exact.byWtxid w t).mp h
        rw [root, found] at found'
        exact absurd (Option.some.inj found' ▸ same.symm) other
      · rintro ⟨_, h, -⟩
        cases h
  · have before : (∃ n, (g.unlinked txid e tx).get t = some n ∧ n.wtxid = w) ↔
        ∃ n, g.get t = some n ∧ n.wtxid = w := by
      rw [unlinked_get, if_neg root]
      simp
    rw [before, ← exact.byWtxid]
    split
    · next same =>
      rw [same, mine]
      exact ⟨nofun, fun h => absurd (Option.some.inj h).symm root⟩
    · rfl

theorem Exact.unlink : (g.unlinked txid e tx).Exact (bodies.erase txid) where
  live a := by
    rw [unlinked_get, lookup_erase]
    split
    · rfl
    · rw [Option.isSome_map, exact.live]
  txid {a n} here := by
    rw [unlinked_get] at here
    split at here
    · cases here
    · obtain ⟨n', here', rfl⟩ := Option.map_eq_some_iff.mp here
      exact (exact.txid here' : n'.txid = a)
  parents p a := by
    rw [mem_parentsOf_unlinked exact.linked found, exact.parents, Bodies.edge_erase]
  children a c := by
    rw [mem_childrenOf_unlinked exact.linked found, exact.children, Bodies.edge_erase]
  conflicts := exact.unlinked_spenders body
  created := exact.unlinked_created body
  spends_conflicts := exact.unlinked_spends_conflicts body
  spends_created _ _ := exact.unlinked_spends_created
  byWtxid := exact.unlinked_byWtxid found

end Remove

def liveWeight (g : TxGraph) : Nat := Map.total g.entries (·.weight)

section Weight

variable {entry : TxEntry} {tx : Transaction} {txid : Txid} {e : TxEntry}

theorem linkChildren_liveWeight (txid : Txid) (l : List OutPoint) (g : TxGraph) :
    (l.foldl (fun g op => g.linkChild txid op) g).liveWeight = g.liveWeight := by
  induction l generalizing g with
  | nil => rfl
  | cons op l ih =>
    rw [foldl_cons, ih]
    unfold linkChild
    split
    · rfl
    · split
      · rfl
      · refine (total_modify ?_).trans (total_modify ?_)
        · exact fun _ => rfl
        · exact fun _ => rfl

theorem insert_liveWeight (fresh : g.get entry.txid = none) :
    (g.insert entry tx).liveWeight = entry.weight + g.liveWeight := by
  have same : (g.invalidateChunkCache.dropJoined entry.txid tx).base = g.base := by simp
  generalize dropped : g.invalidateChunkCache.dropJoined entry.txid tx = g' at same
  have entries : g'.entries = g.entries := entries_of_base same
  have absent : (g'.linkParents entry.txid (g'.spentParents tx)).entries.lookup entry.txid =
      none := by
    have here : g'.entries.lookup entry.txid = none := entries ▸ fresh
    unfold linkParents
    rw [lookup_modifyAll _ (by simp), here, Option.map_none, ite_self]
  have ranked : (g.insert entry tx).entries = (g'.linked entry tx).entries :=
    dropped ▸ entries_of_base insert_base
  have parents : (g'.linkParents entry.txid (g'.spentParents tx)).liveWeight = g'.liveWeight := by
    refine total_modifyAll ?_
    exact fun _ => rfl
  calc (g.insert entry tx).liveWeight
      = (g'.linked entry tx).liveWeight := by rw [liveWeight, ranked, liveWeight]
    _ = (g'.join entry tx).liveWeight := linkChildren_liveWeight ..
    _ = entry.weight + (g'.linkParents entry.txid (g'.spentParents tx)).liveWeight :=
        total_insert absent
    _ = entry.weight + g.liveWeight := by rw [parents, liveWeight, entries, liveWeight]

theorem insert_totalWeight :
    (g.insert entry tx).totalWeight = satAdd g.totalWeight entry.weight := by
  have same : (g.invalidateChunkCache.dropJoined entry.txid tx).base = g.base := by simp
  have before : (g.invalidateChunkCache.dropJoined entry.txid tx).totalWeight = g.totalWeight :=
    totalWeight_of_base same
  rw [totalWeight_of_base insert_base, linked_frame]
  exact congrArg (satAdd · entry.weight) before

theorem remove_liveWeight (found : g.get txid = some e) :
    e.weight + (g.remove txid tx).1.liveWeight = g.liveWeight := by
  have left : (g.unlinked txid e tx).liveWeight = total (g.entries.erase txid) (·.weight) := by
    refine (total_modifyAll ?_).trans (total_modifyAll ?_)
    · exact fun _ => rfl
    · exact fun _ => rfl
  rw [liveWeight, entries_of_base (base_remove found), ← liveWeight, left]
  exact total_erase found

theorem remove_totalWeight (found : g.get txid = some e) :
    (g.remove txid tx).1.totalWeight = g.totalWeight - e.weight :=
  totalWeight_of_base (base_remove found)

end Weight

end TxGraph

/-- What a caller does to the graph. -/
inductive GraphCall
  | insert (entry : TxEntry) (tx : Transaction)
  | remove (txid : Txid) (tx : Transaction)

/-- The graph beside the live set it indexes. -/
structure Tracked where
  graph : TxGraph
  bodies : Bodies

namespace Tracked

def start (clusterCountLimit clusterVsizeLimit bytesPerSigop blockReservedSigops : Nat) :
    Tracked where
  graph := { TxGraph.new with
    clusterCountLimit, clusterVsizeLimit, bytesPerSigop, blockReservedSigops }
  bodies := ∅

variable (s : Tracked)

def step : GraphCall → Tracked
  | .insert entry tx => ⟨s.graph.insert entry tx, s.bodies.insert entry.txid tx⟩
  | .remove txid tx => ⟨(s.graph.remove txid tx).1, s.bodies.erase txid⟩

/-- An insert is of a transaction that is not live, spends nothing that a live transaction spends
and no output of its own, under a wtxid that no live transaction has; it has no children yet. A
remove is given the body that was inserted. -/
def Allowed : GraphCall → Prop
  | .insert entry tx =>
    s.bodies.lookup entry.txid = none ∧ (∀ op ∈ tx.input, ∀ t, ¬s.bodies.Spends t op) ∧
      (∀ op ∈ tx.input, op ∉ tx.outpoints entry.txid) ∧
      (∀ t e, s.graph.get t = some e → e.wtxid ≠ entry.wtxid) ∧ entry.children = ∅
  | .remove txid tx => ∀ body, s.bodies.lookup txid = some body → body = tx

def run (s : Tracked) (calls : List GraphCall) : Tracked := calls.foldl step s

/-- Every call of a run is allowed in the state it meets. -/
def AllAllowed (s : Tracked) : List GraphCall → Prop := Run.AllMeet step Allowed s

variable {s}

theorem insertable {entry : TxEntry} {tx : Transaction} (exact : s.graph.Exact s.bodies)
    (allowed : s.Allowed (.insert entry tx)) : s.graph.Insertable entry tx := by
  obtain ⟨fresh, unspent, others, wtxid, unlinked⟩ := allowed
  refine ⟨exact.get_eq_none.mpr fresh, fun op spent => ?_, others, wtxid, unlinked⟩
  rw [Option.eq_none_iff_forall_ne_some]
  exact fun t found => unspent op spent t ((exact.conflicts op t).mp found)

variable {call : GraphCall}

theorem step_exact (exact : s.graph.Exact s.bodies) (allowed : s.Allowed call) :
    (s.step call).graph.Exact (s.step call).bodies := by
  cases call with
  | insert entry tx => exact exact.insert (insertable exact allowed)
  | remove txid tx =>
    cases found : s.graph.get txid with
    | none =>
      have gone : s.bodies.lookup txid = none := exact.get_eq_none.mp found
      have kept : (s.graph.remove txid tx).1.Exact s.bodies :=
        exact.of_base (base_remove_none found).symm
      show (s.graph.remove txid tx).1.Exact (s.bodies.erase txid)
      rw [erase_eq_self gone]
      exact kept
    | some e =>
      have live := exact.live txid
      rw [found] at live
      obtain ⟨body, here⟩ := Option.isSome_iff_exists.mp live.symm
      have same : body = tx := allowed body here
      exact (exact.unlink found (same ▸ here)).of_base (base_remove found).symm

theorem step_weight (exact : s.graph.Exact s.bodies) (allowed : s.Allowed call)
    (before : s.graph.totalWeight = s.graph.liveWeight)
    (after : (s.step call).graph.liveWeight ≤ u64Max) :
    (s.step call).graph.totalWeight = (s.step call).graph.liveWeight := by
  cases call with
  | insert entry tx =>
    have fresh := (insertable exact allowed).fresh
    unfold step at after ⊢
    rw [insert_liveWeight fresh] at after ⊢
    rw [insert_totalWeight, satAdd_eq, before]
    omega
  | remove txid tx =>
    unfold step
    dsimp only
    cases found : s.graph.get txid with
    | none =>
      have same : (s.graph.remove txid tx).1.base = s.graph.base := base_remove_none found
      rw [totalWeight_of_base same, before, liveWeight, liveWeight, entries_of_base same]
    | some e =>
      have weight : e.weight + (s.graph.remove txid tx).1.liveWeight = s.graph.liveWeight :=
        remove_liveWeight found
      have total : (s.graph.remove txid tx).1.totalWeight = s.graph.totalWeight - e.weight :=
        remove_totalWeight found
      omega

/-- What holds of every state a run meets: exact indexes, and an exact total while the sum of the
live weights stays below `2 ^ 64`. -/
theorem run_exact {calls : List GraphCall} (exact : s.graph.Exact s.bodies)
    (allowed : s.AllAllowed calls) :
    (s.run calls).graph.Exact (s.run calls).bodies ∧
      (s.graph.totalWeight = s.graph.liveWeight →
        (∀ pre, pre <+: calls → (s.run pre).graph.liveWeight ≤ u64Max) →
        (s.run calls).graph.totalWeight = (s.run calls).graph.liveWeight) := by
  induction calls generalizing s with
  | nil => exact ⟨exact, fun total _ => total⟩
  | cons call calls ih =>
    obtain ⟨first, rest⟩ := allowed
    obtain ⟨kept, total⟩ := ih (step_exact exact first) rest
    refine ⟨kept, fun before light => total ?_ fun pre isPrefix => ?_⟩
    · exact step_weight exact first before (light [call] (prefix_append _ _))
    · exact light (call :: pre) (cons_prefix_cons.mpr ⟨rfl, isPrefix⟩)

theorem start_exact (clusterCountLimit clusterVsizeLimit bytesPerSigop blockReservedSigops : Nat) :
    (start clusterCountLimit clusterVsizeLimit bytesPerSigop blockReservedSigops).graph.Exact ∅ :=
  { exact_new with }

/-- The check of a call against the indexes. -/
def canCall (s : Tracked) : GraphCall → Bool
  | .insert entry tx =>
    (s.bodies.lookup entry.txid).isNone && tx.input.all (fun op =>
      (s.graph.conflicts.lookup op).isNone && op ∉ tx.outpoints entry.txid) &&
      (s.graph.byWtxid.lookup entry.wtxid).isNone && entry.children = ∅
  | .remove txid tx => (s.bodies.lookup txid).all (· = tx)

def canRun (s : Tracked) : List GraphCall → Bool
  | [] => true
  | call :: calls => s.canCall call && canRun (s.step call) calls

theorem allowed_of_canCall (exact : s.graph.Exact s.bodies) (can : s.canCall call = true) :
    s.Allowed call := by
  cases call with
  | insert entry tx =>
    simp only [canCall, Bool.and_eq_true, Option.isNone_iff_eq_none, all_eq_true,
      decide_eq_true_eq] at can
    obtain ⟨⟨⟨fresh, inputs⟩, wtxid⟩, unlinked⟩ := can
    refine ⟨fresh, ?_, fun op spent => (inputs op spent).2, ?_, unlinked⟩
    · intro op spent t spends
      have found := (exact.conflicts op t).mpr spends
      rw [(inputs op spent).1] at found
      cases found
    · intro t e found same
      have known := (exact.byWtxid entry.wtxid t).mpr ⟨e, found, same⟩
      rw [wtxid] at known
      cases known
  | remove txid tx =>
    intro body found
    simp only [canCall, found, Option.all_some, decide_eq_true_eq] at can
    exact can

theorem allAllowed_of_canRun {calls : List GraphCall} (exact : s.graph.Exact s.bodies)
    (can : s.canRun calls = true) : s.AllAllowed calls := by
  induction calls generalizing s with
  | nil => trivial
  | cons call calls ih =>
    obtain ⟨first, rest⟩ := Bool.and_eq_true_iff.mp can
    have allowed := allowed_of_canCall exact first
    exact ⟨allowed, ih (step_exact exact allowed) rest⟩

/-- After every run of inserts and removes each index of the graph says what the live transactions
say. -/
theorem indexes_exact (clusterCountLimit clusterVsizeLimit bytesPerSigop blockReservedSigops : Nat)
    (calls : List GraphCall)
    (allowed : AllAllowed
      (start clusterCountLimit clusterVsizeLimit bytesPerSigop blockReservedSigops) calls) :
    let s₀ := start clusterCountLimit clusterVsizeLimit bytesPerSigop blockReservedSigops
    let s := s₀.run calls
    (∀ t, s.graph.contains t = (s.bodies.lookup t).isSome) ∧
    (∀ t e, s.graph.get t = some e →
      (∀ p, p ∈ e.parents ↔ s.bodies.Edge p t) ∧ ∀ c, c ∈ e.children ↔ s.bodies.Edge t c) ∧
    (∀ op t, s.graph.conflictTxid op = some t ↔ s.bodies.Spends t op) ∧
    (∀ op t t', s.bodies.Spends t op → s.bodies.Spends t' op → t = t') ∧
    (∀ op, s.graph.mempoolUtxo op = true ↔
      (∃ t, s.bodies.Creates t op) ∧ ∀ t, ¬s.bodies.Spends t op) ∧
    (∀ w t, s.graph.byWtxid.lookup w = some t ↔ ∃ e, s.graph.get t = some e ∧ e.wtxid = w) ∧
    ((∀ pre, pre <+: calls → (s₀.run pre).graph.liveWeight ≤ u64Max) →
      s.graph.totalWeight = s.graph.liveWeight) := by
  intro s₀ s
  obtain ⟨exact, total⟩ := run_exact (start_exact ..) allowed
  refine ⟨exact.live, ?_, exact.conflicts, ?_, ?_, exact.byWtxid, total rfl⟩
  · intro t e found
    refine ⟨fun p => ?_, fun c => ?_⟩
    · rw [← exact.parents, mem_parentsOf, found]
      simp
    · rw [← exact.children, mem_childrenOf, found]
      simp
  · intro op t t' spends spends'
    have first := (exact.conflicts op t).mpr spends
    have second := (exact.conflicts op t').mpr spends'
    exact Option.some.inj (first.symm.trans second)
  · intro op
    have unspent : op ∈ s.graph.created →
        (s.graph.spends.lookup op = none ↔ ∀ t, ¬s.bodies.Spends t op) := by
      intro made
      constructor
      · intro none t spends
        have spent := exact.spends_created op t made ((exact.conflicts op t).mpr spends)
        rw [none] at spent
        cases spent
      · intro free
        rw [Option.eq_none_iff_forall_ne_some]
        intro t spent
        exact free t ((exact.conflicts op t).mp (exact.spends_conflicts op t spent))
    unfold mempoolUtxo
    rw [Bool.and_eq_true, decide_eq_true_eq, Option.isNone_iff_eq_none, ← exact.created]
    exact and_congr_right unspent

def inserted (txid : Txid) (weight : Nat) (input : List OutPoint) : GraphCall :=
  .insert ⟨txid, txid, 1000, weight, 0, 0, ∅, ∅⟩ ⟨txid, txid, 2, input, [⟨1000, []⟩], weight⟩

/-- A parent that comes back below its live child. -/
theorem indexes_exact_reorg :
    let s := (start 64 101000 20 400).run [inserted 2 400 [⟨1, 0⟩], inserted 1 600 [⟨9, 0⟩]]
    (∀ op, s.graph.mempoolUtxo op = true ↔
      (∃ t, s.bodies.Creates t op) ∧ ∀ t, ¬s.bodies.Spends t op) ∧
    s.graph.totalWeight = s.graph.liveWeight := by
  have allowed : AllAllowed (start 64 101000 20 400)
      [inserted 2 400 [⟨1, 0⟩], inserted 1 600 [⟨9, 0⟩]] :=
    allAllowed_of_canRun (start_exact ..) (by decide +kernel)
  have light : ∀ pre ∈ [inserted 2 400 [⟨1, 0⟩], inserted 1 600 [⟨9, 0⟩]].inits,
      ((start 64 101000 20 400).run pre).graph.liveWeight ≤ u64Max := by decide +kernel
  have exact := indexes_exact 64 101000 20 400 _ allowed
  refine ⟨exact.2.2.2.2.1, exact.2.2.2.2.2.2 fun pre isPrefix => ?_⟩
  exact light pre ((mem_inits ..).mpr isPrefix)

/-- The total saturates. Of the calls that are not allowed: an entry keeps the child it comes with,
which is not live; a removed body that does not name an output leaves it in the view; so does a
transaction that spends its own output; and of two transactions with one wtxid the index has only
the second. -/
theorem totalWeight_saturates : AllAllowed (start 64 101000 20 400)
      [inserted 1 (2 ^ 63) [⟨9, 0⟩], inserted 2 (2 ^ 63) [⟨9, 1⟩]] ∧
    (let s := (start 64 101000 20 400).run
      [inserted 1 (2 ^ 63) [⟨9, 0⟩], inserted 2 (2 ^ 63) [⟨9, 1⟩]]
    s.graph.totalWeight ≠ s.graph.liveWeight) ∧
    (let s := (start 64 101000 20 400).run [.insert ⟨1, 1, 1000, 400, 0, 0, ∅, {7}⟩
      ⟨1, 1, 2, [⟨9, 0⟩], [⟨1000, []⟩], 400⟩]
    s.graph.childrenOf 1 = [7] ∧ s.graph.contains 7 = false) ∧
    (let s := (start 64 101000 20 400).run
      [inserted 1 400 [⟨9, 0⟩], .remove 1 ⟨1, 1, 2, [⟨9, 0⟩], [], 400⟩]
    s.graph.mempoolUtxo ⟨1, 0⟩ = true ∧ s.graph.contains 1 = false) ∧
    (let s := (start 64 101000 20 400).run [inserted 1 400 [⟨1, 0⟩]]
    s.graph.mempoolUtxo ⟨1, 0⟩ = true ∧ s.graph.conflictTxid ⟨1, 0⟩ = some 1) ∧
    let s := (start 64 101000 20 400).run
      [.insert ⟨1, 5, 1000, 400, 0, 0, ∅, ∅⟩ ⟨1, 5, 2, [⟨9, 0⟩], [⟨1000, []⟩], 400⟩,
        .insert ⟨2, 5, 1000, 400, 0, 0, ∅, ∅⟩ ⟨2, 5, 2, [⟨9, 1⟩], [⟨1000, []⟩], 400⟩]
    (s.graph.get 1).map (·.wtxid) = some 5 ∧ s.graph.byWtxid.lookup 5 = some 2 :=
  ⟨allAllowed_of_canRun (start_exact ..) (by decide +kernel), by decide +kernel⟩

end Tracked

end Rbitcoin.Mempool
