import Rbitcoin.Mempool.GraphIndexes
import Rbitcoin.Mempool.Topology

/-! The components of the graph: what the walks over its links find, and what the cluster of a
component depends on. -/

namespace Rbitcoin.Mempool.TxGraph

open Ordered Relation List DepGraph

variable (g : TxGraph)

/-- There is a path along the links of the entries. -/
def Near : Txid → Txid → Prop := ReflTransGen fun a b => b ∈ g.neighbours a

/-- Neighbours are each other's neighbours. -/
def Paired : Prop := ∀ a b, b ∈ g.neighbours a → a ∈ g.neighbours b

variable {g g' : TxGraph} {a b t x rep : Txid}

theorem mem_neighbours_iff :
    b ∈ g.neighbours a ↔ ∃ e, g.get a = some e ∧ (b ∈ e.parents ∨ b ∈ e.children) := by
  unfold neighbours parentsOf childrenOf
  cases g.get a <;> simp

theorem Linked.paired (linked : g.Linked) : g.Paired := by
  intro a b mem
  rw [neighbours, mem_append] at mem ⊢
  rw [linked a b, ← linked b a]
  exact mem.symm

theorem contains_of_mem_neighbours (mem : b ∈ g.neighbours a) : g.contains a = true := by
  obtain ⟨e, found, -⟩ := mem_neighbours_iff.mp mem
  rw [contains, found]
  rfl

theorem neighbours_mem_nodes (mem : b ∈ g.neighbours a) : b ∈ g.nodes := by
  apply Finset.mem_union_right
  exact Finset.mem_biUnion.mpr
    ⟨a, mem_live.mpr (contains_of_mem_neighbours mem), mem_toFinset.mpr mem⟩

theorem Near.symm (paired : g.Paired) (near : g.Near a b) : g.Near b a := by
  induction near with
  | refl => exact .refl
  | tail _ step ih => exact .head (paired _ _ step) ih

theorem Near.live (paired : g.Paired) (near : g.Near a b) (live : g.contains a = true) :
    g.contains b = true := by
  cases near with
  | refl => exact live
  | tail _ step => exact contains_of_mem_neighbours (paired _ _ step)

theorem near_congr (same : ∀ x, g.Near a x → g'.neighbours x = g.neighbours x) :
    g'.Near a b ↔ g.Near a b := by
  constructor
  · intro near
    induction near with
    | refl => exact .refl
    | tail _ step ih =>
      rw [same _ ih] at step
      exact ih.tail step
  · intro near
    induction near with
    | refl => exact .refl
    | tail path step ih =>
      rw [← same _ path] at step
      exact ih.tail step

def members (g : TxGraph) (t : Txid) : Finset Txid :=
  (Reach.walk g.neighbours g.nodes.card [t] {t}).2

theorem mem_members (live : g.contains t = true) : x ∈ g.members t ↔ g.Near t x := by
  have start : ({t} : Finset Txid) = [t].toFinset := rfl
  rw [members, start, Reach.mem_walk (U := g.nodes)]
  · simp [Reach.From, Near]
  · exact fun _ _ y mem => neighbours_mem_nodes mem
  · intro y mem
    rw [mem_singleton.mp mem]
    exact Finset.mem_union_left _ (mem_live.mpr live)
  · exact le_rfl
  · exact nodup_singleton t

theorem walk_component (paired : g.Paired) (live : g.contains t = true) {seen : Finset Txid}
    (apart : t ∉ seen) (closed : ∀ a ∈ seen, ∀ b, g.Near a b → b ∈ seen) :
    let out := Reach.walk g.neighbours g.nodes.card [t] (Insert.insert t seen)
    (∀ x, x ∈ out.1 ↔ g.Near t x) ∧ ∀ x, x ∈ out.2 ↔ x ∈ seen ∨ g.Near t x := by
  intro out
  have inside : t ∈ g.nodes := Finset.mem_union_left _ (mem_live.mpr live)
  have enough : (g.nodes \ Insert.insert t seen).card < g.nodes.card := by
    refine Finset.card_lt_card ⟨Finset.sdiff_subset, fun all => ?_⟩
    exact (Finset.mem_sdiff.mp (all inside)).2 (Finset.mem_insert_self t seen)
  have walked : Reach.Walked g.neighbours [t] (Insert.insert t seen) out :=
    Reach.walk_spec (U := g.nodes) (fun _ _ y mem => neighbours_mem_nodes mem)
      (by simpa using inside) (by simp) enough
  have taken : ∀ x, x ∈ out.1 ↔ g.Near t x := by
    intro x
    constructor
    · intro mem
      obtain ⟨s, start, path⟩ := walked.reached x mem
      rwa [mem_singleton.mp start] at path
    · intro path
      induction path with
      | refl => exact walked.queue_taken t (mem_singleton_self t)
      | @tail y z path step ih =>
        rcases (walked.seen_iff z).mp (walked.closed y ih z step) with old | new
        · rcases Finset.mem_insert.mp old with rfl | old
          · exact walked.queue_taken z (mem_singleton_self z)
          · exact absurd (closed z old t (Near.symm paired (path.tail step))) apart
        · exact new
  refine ⟨taken, fun x => ?_⟩
  rw [walked.seen_iff, taken, Finset.mem_insert]
  constructor
  · rintro ((rfl | old) | new)
    · exact Or.inr .refl
    · exact Or.inl old
    · exact Or.inr new
  · exact fun h => h.imp_left Or.inr

/-- The walk finds the component of a live transaction. -/
theorem componentMembers_eq (paired : g.Paired) (live : g.contains t = true) :
    g.componentMembers t = some (g.members t, g.rawWeightOf (g.members t)) := by
  have taken := (walk_component paired live (Finset.notMem_empty t) (by simp)).1
  have all : (Reach.walk g.neighbours g.nodes.card [t] {t}).1.all g.contains = true := by
    rw [all_eq_true]
    exact fun y mem => Near.live paired ((taken y).mp mem) live
  unfold componentMembers
  rw [if_pos live]
  dsimp only
  rw [if_pos all]
  rfl

/-- The cluster of a transaction with deltas on the fees; `clusterOf` is without. -/
def clusterUnder (g : TxGraph) (delta : Txid → Int) (t : Txid) : Option Cluster :=
  (g.componentMembers t).map fun (members, weight) => g.clusterFromMembers members weight delta

theorem clusterUnder_eq (paired : g.Paired) (live : g.contains t = true) (delta : Txid → Int) :
    g.clusterUnder delta t =
      some (g.clusterFromMembers (g.members t) (g.rawWeightOf (g.members t)) delta) := by
  rw [clusterUnder, componentMembers_eq paired live]
  rfl

theorem clusterOf_eq (paired : g.Paired) (live : g.contains t = true) : g.clusterOf t =
      some (g.clusterFromMembers (g.members t) (g.rawWeightOf (g.members t)) fun _ => 0) :=
  clusterUnder_eq paired live _

theorem live_of_clusterUnder {delta : Txid → Int} {c : Cluster}
    (cluster : g.clusterUnder delta t = some c) : g.contains t = true := by
  by_contra dead
  rw [clusterUnder, componentMembers, if_neg dead] at cluster
  cases cluster

theorem members_near (paired : g.Paired) (live : g.contains t = true) (near : g.Near t x) :
    g.members t = g.members x := by
  ext y
  rw [mem_members live, mem_members (near.live paired live)]
  exact ⟨(near.symm paired).trans, near.trans⟩

/-- The representative of a component is its least member. -/
def Leads (g : TxGraph) (rep t : Txid) : Prop := IsLeast {x | g.Near t x} rep

theorem Leads.of_near (paired : g.Paired) (leads : g.Leads rep t) (near : g.Near t x) :
    g.Leads rep x :=
  ⟨(near.symm paired).trans leads.1, fun _ path => leads.2 (near.trans path)⟩

theorem Leads.unique {rep' : Txid} (leads : g.Leads rep t) (leads' : g.Leads rep' t) : rep = rep' :=
  IsLeast.unique leads leads'

theorem leads_iff (live : g.contains t = true) :
    (ascending (g.members t)).head? = some rep ↔ g.Leads rep t := by
  rw [head?_ascending]
  simp only [mem_members live]
  rfl

theorem exists_leads (live : g.contains t = true) : ∃ rep, g.Leads rep t := by
  have some_member : t ∈ ascending (g.members t) :=
    (mem_ascending _).mpr ((mem_members live).mpr .refl)
  obtain ⟨rep, rest, listed⟩ := exists_cons_of_ne_nil (ne_nil_of_mem some_member)
  exact ⟨rep, (leads_iff live).mp (by rw [listed, head?_cons])⟩

theorem clusterRep_eq (paired : g.Paired) (live : g.contains t = true) (leads : g.Leads rep t) :
    g.clusterRep t = some rep := by
  rw [clusterRep, componentMembers_eq paired live]
  exact (leads_iff live).mpr leads

theorem foldl_min_isLeast {l : List Txid} (mem : t ∈ l) : IsLeast {x | x ∈ l} (l.foldl min t) := by
  have fold (l : List Txid) (m : Txid) :
      (l.foldl min m = m ∨ l.foldl min m ∈ l) ∧ l.foldl min m ≤ m ∧ ∀ x ∈ l, l.foldl min m ≤ x := by
    induction l generalizing m with
    | nil => exact ⟨Or.inl rfl, le_rfl, nofun⟩
    | cons y l ih =>
      obtain ⟨from_l, first, rest⟩ := ih (min m y)
      rw [foldl_cons]
      refine ⟨?_, first.trans (min_le_left _ _), ?_⟩
      · rcases from_l with same | later
        · rcases min_choice m y with here | here
          · exact Or.inl (same.trans here)
          · exact Or.inr (by rw [same, here]; exact mem_cons_self ..)
        · exact Or.inr (mem_cons_of_mem _ later)
      · exact forall_mem_cons.mpr ⟨first.trans (min_le_right _ _), rest⟩
  obtain ⟨from_l, -, below⟩ := fold l t
  exact ⟨from_l.elim (fun same => by rw [same]; exact mem) id, fun x hx => below x hx⟩

/-- Components seen as wholes, and the least member of each. -/
structure Surveyed (g : TxGraph) (st : Finset Txid × Finset Txid) : Prop where
  live : ∀ a ∈ st.1, g.contains a = true
  closed : ∀ a ∈ st.1, ∀ b, g.Near a b → b ∈ st.1
  reps : ∀ rep, rep ∈ st.2 ↔ rep ∈ st.1 ∧ g.Leads rep rep

theorem surveyed_empty : g.Surveyed (∅, ∅) := ⟨by simp, by simp, by simp⟩

theorem Surveyed.visit (paired : g.Paired) {st : Finset Txid × Finset Txid}
    (surveyed : g.Surveyed st) (t : Txid) :
    g.Surveyed (g.repsOf [t] st) ∧ ∀ x, x ∈ (g.repsOf [t] st).1 ↔
      x ∈ st.1 ∨ g.contains t = true ∧ g.Near t x := by
  obtain ⟨seen, reps⟩ := st
  by_cases known : t ∈ seen
  · have same : g.repsOf [t] (seen, reps) = (seen, reps) := by
      simp [repsOf, if_pos known]
    rw [same]
    exact ⟨surveyed, fun x => ⟨Or.inl, fun h => h.elim id fun near =>
      surveyed.closed t known x near.2⟩⟩
  cases live : g.contains t with
  | false =>
    have same : g.repsOf [t] (seen, reps) = (seen, reps) := by
      simp [repsOf, componentRep, live]
    rw [same]
    exact ⟨surveyed, by simp⟩
  | true =>
    obtain ⟨taken, saw⟩ := walk_component paired live known surveyed.closed
    generalize walk : Reach.walk g.neighbours g.nodes.card [t] (Insert.insert t seen) = out at *
    have leads : g.Leads (out.1.foldl min t) t := by
      have least := foldl_min_isLeast ((taken t).mpr .refl)
      simp only [taken] at least
      exact least
    have added : g.repsOf [t] (seen, reps) = (out.2, Insert.insert (out.1.foldl min t) reps) := by
      simp [repsOf, if_neg known, componentRep, live, walk]
    rw [added]
    refine ⟨⟨?_, ?_, ?_⟩, fun x => by simpa using saw x⟩
    · intro a mem
      rcases (saw a).mp mem with old | new
      · exact surveyed.live a old
      · exact new.live paired live
    · intro a mem b near
      rcases (saw a).mp mem with old | new
      · exact (saw b).mpr (Or.inl (surveyed.closed a old b near))
      · exact (saw b).mpr (Or.inr (new.trans near))
    · intro rep
      rw [Finset.mem_insert, surveyed.reps, saw]
      constructor
      · rintro (rfl | ⟨old, leader⟩)
        · exact ⟨Or.inr leads.1, leads.of_near paired leads.1⟩
        · exact ⟨Or.inl old, leader⟩
      · rintro ⟨old | new, leader⟩
        · exact Or.inr ⟨old, leader⟩
        · exact Or.inl ((leader.of_near paired (new.symm paired)).unique leads)

/-- Every component that is met is seen whole and named once. -/
theorem Surveyed.repsOf (paired : g.Paired) {st : Finset Txid × Finset Txid}
    (surveyed : g.Surveyed st) (ids : List Txid) :
    g.Surveyed (g.repsOf ids st) ∧ ∀ x, x ∈ (g.repsOf ids st).1 ↔
      x ∈ st.1 ∨ ∃ t ∈ ids, g.contains t = true ∧ g.Near t x := by
  induction ids generalizing st with
  | nil => exact ⟨surveyed, by simp [TxGraph.repsOf]⟩
  | cons t ids ih =>
    obtain ⟨next, more⟩ := surveyed.visit paired t
    obtain ⟨done, all⟩ := ih next
    have step : g.repsOf (t :: ids) st = g.repsOf ids (g.repsOf [t] st) := rfl
    rw [step]
    refine ⟨done, fun x => ?_⟩
    rw [all, more, or_assoc]
    simp

/-- Parents are below their children, so that no transaction is its own ancestor. -/
def Ascends (rank : Txid → Nat) (g : TxGraph) : Prop :=
  ∀ t, ∀ p ∈ g.parentsOf t, rank p < rank t

variable {rank : Txid → Nat} {set : Finset Txid} (delta : Txid → Int)

theorem depGraph_acyclic (ascends : g.Ascends rank) (ids : List Txid) :
    DepGraph.Acyclic (ids.map (g.feeFracOf delta)).length (ids.map fun t =>
      (g.parentsOf t).filterMap fun p => if p ∈ ids then some (ids.idxOf p) else none) := by
  refine acyclic_of_rank (fun i => rank (ids.getD i 0)) fun p i parent => ?_
  obtain ⟨inside, -, mem⟩ := parent
  rw [length_map] at inside
  rw [getD_eq_getElem _ _ (by simpa using inside), getElem_map] at mem
  obtain ⟨q, parent, index⟩ := mem_filterMap.mp mem
  by_cases listed : q ∈ ids
  · rw [if_pos listed, Option.some.injEq] at index
    have position : ids.getD p 0 = q := by
      rw [← index, getD_eq_getElem _ _ (idxOf_lt_length_of_mem listed), getElem_idxOf]
    rw [position, getD_eq_getElem _ _ inside]
    exact ascends _ q parent
  · rw [if_neg listed] at index
    cases index

theorem linearizeDelta_perm (ascends : g.Ascends rank) :
    (g.linearizeDelta delta set).Perm (ascending set) := by
  have lists := (linearize_lists (depGraph_acyclic delta ascends (ascending set))).1.perm
  have len : (g.depGraph delta (ascending set)).len = (ascending set).length := length_map ..
  change (g.depGraph delta (ascending set)).linearize.Perm
    (range (g.depGraph delta (ascending set)).len) at lists
  have whole : (range (ascending set).length).map (fun i => (ascending set).getD i 0) =
      ascending set := by
    refine ext_getElem (by simp) fun i inside _ => ?_
    rw [getElem_map, getElem_range, getD_eq_getElem]
  rw [len] at lists
  unfold linearizeDelta
  dsimp only
  refine (lists.map fun i => (ascending set).getD i 0).trans ?_
  rw [whole]

theorem mem_linearizeDelta (ascends : g.Ascends rank) :
    t ∈ g.linearizeDelta delta set ↔ t ∈ set :=
  (linearizeDelta_perm delta ascends).mem_iff.trans (mem_ascending set)

theorem sum_chunkLengths (lin : List Txid) :
    (chunkLengths (lin.map (g.feeFracOf delta))).sum = lin.length := by
  rw [chunkLengths_sum, length_map]

/-- A chunk has some live transactions of a set, each once, and their weight. -/
structure ChunkOf (g : TxGraph) (set : Finset Txid) (ch : Chunk) : Prop where
  nonempty : ch.txids ≠ []
  nodup : ch.txids.Nodup
  inside : ∀ t ∈ ch.txids, t ∈ set
  live : ∀ t ∈ ch.txids, g.contains t = true
  weight : ch.weight = min (ch.txids.map g.adjustedWeightOf).sum u64Max

theorem chunkOf_of_perm {delta : Txid → Int} {lin : List Txid} {ch : Chunk}
    (perm : lin.Perm (ascending set)) (mem : ch ∈ g.chunkifyDelta delta lin) :
    g.ChunkOf set ch := by
  obtain ⟨txids, piece, rfl⟩ := mem_map.mp mem
  have sublist := sublist_of_mem_cut piece
  refine ⟨ne_nil_of_mem_cut (chunkLengths_pos _) (sum_chunkLengths ..).le piece,
    (perm.nodup_iff.mpr (nodup_ascending set)).sublist (sublist.trans filter_sublist),
    fun t mem => ?_, fun t mem => (mem_filter.mp (sublist.subset mem)).2, ?_⟩
  · exact (mem_ascending set).mp (perm.subset (mem_of_mem_filter (sublist.subset mem)))
  have second {f : Int × Nat → Txid → Int × Nat}
      (weighs : ∀ acc t, (f acc t).2 = satAdd acc.2 (g.adjustedWeightOf t)) (l : List Txid)
      (acc : Int × Nat) :
      (l.foldl f acc).2 = l.foldl (fun w t => satAdd w (g.adjustedWeightOf t)) acc.2 := by
    induction l generalizing acc with
    | nil => rfl
    | cons t l ih => rw [foldl_cons, ih, weighs, foldl_cons]
  dsimp only
  rw [second fun _ _ => rfl, foldl_satAdd _ _ (Nat.zero_le _), Nat.zero_add]

theorem chunks_clusterFromMembers (w : Nat) : (g.clusterFromMembers set w delta).chunks =
    g.chunkifyDelta delta (g.linearizeDelta delta set) := by
  rw [clusterFromMembers]

theorem chunkOf_cluster {delta : Txid → Int} {w : Nat} {ch : Chunk} (ascends : g.Ascends rank)
    (mem : ch ∈ (g.clusterFromMembers set w delta).chunks) : g.ChunkOf set ch := by
  rw [chunks_clusterFromMembers] at mem
  exact chunkOf_of_perm (linearizeDelta_perm delta ascends) mem

theorem chunkifyDelta_ne_nil {lin : List Txid} (mem : t ∈ lin) (live : g.contains t = true) :
    g.chunkifyDelta delta lin ≠ [] := by
  have kept : t ∈ lin.filter g.contains := mem_filter.mpr ⟨mem, live⟩
  have whole := flatten_cut (g.sum_chunkLengths delta (lin.filter g.contains))
  intro none
  rw [map_eq_nil_iff.mp none] at whole
  rw [← whole] at kept
  cases kept

section Congr

variable {delta} {delta' : Txid → Int} (same : ∀ t ∈ set, g'.get t = g.get t)
  (bytes : g'.bytesPerSigop = g.bytesPerSigop) (deltas : ∀ t ∈ set, delta' t = delta t)
include same

theorem rawWeightOf_congr : g'.rawWeightOf set = g.rawWeightOf set := by
  have gets : (ascending set).filterMap g'.get = (ascending set).filterMap g.get :=
    filterMap_congr fun t mem => same t ((mem_ascending set).mp mem)
  rw [rawWeightOf, rawWeightOf, gets]

include bytes deltas

theorem feeFracOf_congr (mem : t ∈ set) : g'.feeFracOf delta' t = g.feeFracOf delta t := by
  simp only [feeFracOf, modifiedFee, adjustedWeightOf, same t mem, bytes, deltas t mem]

theorem linearizeDelta_congr : g'.linearizeDelta delta' set = g.linearizeDelta delta set := by
  have rates : (ascending set).map (g'.feeFracOf delta') =
      (ascending set).map (g.feeFracOf delta) :=
    map_congr_left fun t mem => feeFracOf_congr same bytes deltas ((mem_ascending set).mp mem)
  have parents : ∀ t ∈ ascending set, g'.parentsOf t = g.parentsOf t := fun t mem => by
    rw [parentsOf, same t ((mem_ascending set).mp mem), parentsOf]
  have graphs : g'.depGraph delta' (ascending set) = g.depGraph delta (ascending set) := by
    rw [depGraph, depGraph, rates]
    congr 1
    exact map_congr_left fun t mem => by rw [parents t mem]
  rw [linearizeDelta, linearizeDelta, graphs]

theorem chunkifyDelta_congr {lin : List Txid} (inside : ∀ t ∈ lin, t ∈ set) :
    g'.chunkifyDelta delta' lin = g.chunkifyDelta delta lin := by
  have kept : lin.filter g'.contains = lin.filter g.contains :=
    filter_congr fun t mem => by rw [contains, same t (inside t mem), contains]
  have rates : (lin.filter g.contains).map (g'.feeFracOf delta') =
      (lin.filter g.contains).map (g.feeFracOf delta) :=
    map_congr_left fun t mem => feeFracOf_congr same bytes deltas (inside t (mem_of_mem_filter mem))
  unfold chunkifyDelta
  dsimp only
  rw [kept, rates]
  refine map_congr_left fun txids piece => ?_
  have fold : ∀ acc : Int × Nat, ∀ t ∈ txids,
      (clampI128 (acc.1 + g'.modifiedFee delta' t), satAdd acc.2 (g'.adjustedWeightOf t)) =
        (clampI128 (acc.1 + g.modifiedFee delta t), satAdd acc.2 (g.adjustedWeightOf t)) := by
    intro acc t mem
    have frac := feeFracOf_congr same bytes deltas
      (inside t (mem_of_mem_filter ((sublist_of_mem_cut piece).subset mem)))
    rw [feeFracOf, feeFracOf, FeeFrac.mk.injEq] at frac
    rw [frac.1, frac.2]
  rw [foldl_ext _ _ _ fold]

theorem clusterFromMembers_congr (ascends : g.Ascends rank) (weight : Nat) :
    g'.clusterFromMembers set weight delta' = g.clusterFromMembers set weight delta := by
  have chunks := chunkifyDelta_congr same bytes deltas
    fun t mem => (mem_linearizeDelta delta ascends).mp mem
  rw [clusterFromMembers, clusterFromMembers, linearizeDelta_congr same bytes deltas, chunks]

end Congr

theorem clusterOf_congr (paired : g.Paired) (paired' : g'.Paired) (ascends : g.Ascends rank)
    (live : g.contains t = true) (same : ∀ x, g.Near t x → g'.get x = g.get x)
    (bytes : g'.bytesPerSigop = g.bytesPerSigop) :
    g'.clusterOf t = g.clusterOf t ∧ ∀ x, g'.Near t x ↔ g.Near t x := by
  have near (x : Txid) : g'.Near t x ↔ g.Near t x := near_congr fun x path => by
    simp only [neighbours, parentsOf, childrenOf, same x path]
  have live' : g'.contains t = true := by
    rwa [contains, same t .refl]
  have membersEq : g'.members t = g.members t := by
    ext x
    rw [mem_members live', mem_members live, near]
  have inside : ∀ x ∈ g.members t, g'.get x = g.get x := fun x mem =>
    same x ((mem_members live).mp mem)
  refine ⟨?_, near⟩
  rw [clusterOf_eq paired' live', clusterOf_eq paired live, membersEq, rawWeightOf_congr inside,
    clusterFromMembers_congr inside bytes (fun _ _ => rfl) ascends]

theorem exists_chunk (paired : g.Paired) (ascends : g.Ascends rank) (live : g.contains t = true) :
    ∃ c, g.clusterOf t = some c ∧ c.members = g.members t ∧ c.chunks ≠ [] := by
  have listed : t ∈ g.linearizeDelta (fun _ => 0) (g.members t) :=
    (mem_linearizeDelta _ ascends).mpr ((mem_members live).mpr .refl)
  have chunks := chunkifyDelta_ne_nil (fun _ => 0) listed live
  refine ⟨_, clusterOf_eq paired live, ?_, ?_⟩
  · simp only [clusterFromMembers]
  · rwa [chunks_clusterFromMembers]

end Rbitcoin.Mempool.TxGraph
