import Rbitcoin.Lib.Run
import Rbitcoin.Mempool.Components

/-! The index of the worst chunks. Over every run of inserts, removes and changes of the sigop costs
it has one row for each cluster, under the least id of the cluster, with its chunk of least rate. -/

namespace Rbitcoin.Mempool

open Ordered Relation List Map
open Option hiding or_assoc

namespace TxGraph

theorem leastRate_concat (chunks : List Chunk) (ch : Chunk) : leastRate (chunks ++ [ch]) =
      match leastRate chunks with
      | none => some (ch.feeRateSatPerKvb, ch)
      | some (least, best) =>
        if ch.feeRateSatPerKvb < least then some (ch.feeRateSatPerKvb, ch)
        else some (least, best) := by
  have last : leastRate (chunks ++ [ch]) = [ch].foldl _ (leastRate chunks) := foldl_append
  rw [last]
  cases leastRate chunks with
  | none => rfl
  | some best => rfl

theorem exists_leastRate {chunks : List Chunk} (nonempty : chunks ≠ []) :
    ∃ rate ch, leastRate chunks = some (rate, ch) ∧ ch ∈ chunks ∧ ch.feeRateSatPerKvb = rate ∧
      ∀ c ∈ chunks, rate ≤ c.feeRateSatPerKvb := by
  induction chunks using reverseRecOn with
  | nil => exact absurd rfl nonempty
  | append_singleton chunks last ih =>
    rw [leastRate_concat]
    by_cases first : chunks = []
    · subst first
      exact ⟨_, last, rfl, by simp, rfl, by simp⟩
    obtain ⟨rate, ch, found, mem, own, below⟩ := ih first
    rw [found]
    by_cases lower : last.feeRateSatPerKvb < rate
    · exact ⟨_, last, if_pos lower, by simp, rfl, forall_mem_append.mpr
        ⟨fun c hc => lower.le.trans (below c hc), forall_mem_singleton.mpr le_rfl⟩⟩
    · exact ⟨rate, ch, if_neg lower, by simp [mem], own, forall_mem_append.mpr
        ⟨below, forall_mem_singleton.mpr (not_lt.mp lower)⟩⟩

/-- The rows of the index are the triples that `P` names. -/
structure Rows (g : TxGraph) (P : Txid → Nat → Chunk → Prop) : Prop where
  rate : ∀ rep rate, g.worstRepRate.lookup rep = some rate ↔ ∃ ch, P rep rate ch
  row : ∀ rep rate ch, g.worstChunks.lookup (toLex (rate, rep)) = some ch ↔ P rep rate ch

variable {g g' : TxGraph} {P Q : Txid → Nat → Chunk → Prop} {rep t : Txid} {rate : Nat} {ch : Chunk}

theorem Rows.congr (rows : g.Rows P) (same : ∀ rep rate ch, P rep rate ch ↔ Q rep rate ch) :
    g.Rows Q where
  rate rep rate := by simp only [rows.rate, same]
  row rep rate ch := by rw [rows.row, same]

theorem Rows.of_fields (rows : g.Rows P) (rates : g'.worstRepRate = g.worstRepRate)
    (chunks : g'.worstChunks = g.worstChunks) : g'.Rows P where
  rate := by rw [rates]; exact rows.rate
  row := by rw [chunks]; exact rows.row

theorem Rows.drop (rows : g.Rows P) (rep : Txid) :
    (g.dropClusterIndex rep).Rows fun r rate ch => r ≠ rep ∧ P r rate ch := by
  unfold dropClusterIndex
  cases held : g.worstRepRate.lookup rep with
  | none =>
    refine rows.congr fun r rate ch => (and_iff_right_of_imp ?_).symm
    rintro row rfl
    have held' := (rows.rate r rate).mpr ⟨ch, row⟩
    rw [held] at held'
    cases held'
  | some kept =>
    constructor
    · intro r rate
      rw [lookup_erase]
      split
      · next here => simp [here]
      · next other => simp [rows.rate, other]
    · intro r rate ch
      rw [lookup_erase]
      by_cases here : r = rep
      · -- a row of the same cluster has the rate that is held
        subst here
        by_cases same : rate = kept
        · simp [same]
        · have none : ¬P r rate ch := fun row => by
            have held' := (rows.rate r rate).mpr ⟨ch, row⟩
            rw [held] at held'
            exact same (some.inj held').symm
          simp [rows.row, none]
      · simp [here, rows.row]

theorem Rows.put (rows : g.Rows P) (none : ∀ rate ch, ¬P rep rate ch) :
    (g.putRow rep rate ch).Rows fun r x y => if r = rep then x = rate ∧ y = ch else P r x y := by
  constructor
  · intro r x
    dsimp only [putRow]
    rw [lookup_insert]
    split
    · simp [eq_comm]
    · exact rows.rate r x
  · intro r x y
    dsimp only [putRow]
    rw [lookup_insert]
    by_cases here : r = rep
    · subst here
      by_cases same : x = rate
      · simp [same, eq_comm]
      · simp [same, rows.row, none]
    · simp [here, rows.row]

def worstOf (g : TxGraph) (t : Txid) : Option (Nat × Chunk) :=
  (g.clusterOf t).bind fun c => leastRate c.chunks

/-- The least id of a cluster and its worst chunk. -/
def Ranked (g : TxGraph) (rep : Txid) (rate : Nat) (ch : Chunk) : Prop :=
  g.contains rep = true ∧ g.Leads rep rep ∧ g.worstOf rep = some (rate, ch)

/-- There are rows for the clusters whose least id `D` names. -/
def Covers (g : TxGraph) (D : Txid → Prop) : Prop := g.Rows fun r x y => D r ∧ g.Ranked r x y

theorem eq_of_base {α : Sort*} (f : TxGraph → α) (reads : ∀ g : TxGraph, f g.base = f g)
    (same : g'.base = g.base) : f g' = f g := by
  rw [← reads g', same, reads g]

section Covers

variable {D E : Txid → Prop}

theorem covers_all : (g.Covers fun _ => True) ↔ g.Rows g.Ranked := by simp [Covers]

theorem Covers.congr (covers : g.Covers D)
    (same : ∀ r x y, g.Ranked r x y → (D r ↔ E r)) : g.Covers E :=
  Rows.congr covers fun r x y => and_congr_left (same r x y)

theorem covers_of_base (same : g'.base = g.base)
    (rows : g'.Rows fun r x y => D r ∧ g.Ranked r x y) : g'.Covers D := by
  rwa [Covers, eq_of_base Ranked (fun _ => rfl) same]

theorem Covers.drop (covers : g.Covers D) (rep : Txid) :
    (g.dropClusterIndex rep).Covers fun r => r ≠ rep ∧ D r :=
  covers_of_base (base_dropClusterIndex g rep)
    ((Rows.drop covers rep).congr fun _ _ _ => and_assoc.symm)

theorem Covers.dropAll (covers : g.Covers D) (l : List Txid) :
    (l.foldl dropClusterIndex g).Covers fun r => r ∉ l ∧ D r := by
  induction l generalizing g D with
  | nil => exact covers.congr (by simp)
  | cons rep l ih =>
    refine (ih (covers.drop rep)).congr fun r x y _ => ?_
    rw [mem_cons]
    tauto

end Covers

/-- Links go both ways between live transactions, and what finds new links names live ones. Ids are
hashes: `rank` puts what a transaction spends below it. -/
structure Wired (rank : Txid → Nat) (g : TxGraph) (bodies : Bodies) : Prop where
  live : ∀ t, (g.get t).isSome = (bodies.lookup t).isSome
  created : ∀ op ∈ g.created, bodies.Creates op.txid op
  conflicts : ∀ op t, g.conflicts.lookup op = some t → bodies.Spends t op
  hashes : ∀ t tx, bodies.lookup t = some tx → ∀ op ∈ tx.input, rank op.txid < rank t
  ascends : g.Ascends rank
  linked : g.Linked

section Wired

variable {rank : Txid → Nat} {bodies : Bodies} (wired : g.Wired rank bodies)
include wired

theorem Wired.of_base (same : g'.base = g.base) : g'.Wired rank bodies := by
  obtain ⟨_, _, _, rfl⟩ := exists_of_base same
  exact { wired with }

theorem Wired.paired : g.Paired := wired.linked.paired

theorem Wired.contains_iff : g.contains t = true ↔ ∃ tx, bodies.lookup t = some tx := by
  rw [contains, wired.live, isSome_iff_exists]

theorem Wired.contains_creator {op : OutPoint}
    (made : op ∈ g.created) : g.contains op.txid = true := by
  obtain ⟨tx, body, -⟩ := wired.created op made
  exact wired.contains_iff.mpr ⟨tx, body⟩

theorem Wired.contains_spender {op : OutPoint}
    (spent : g.conflicts.lookup op = some t) : g.contains t = true := by
  obtain ⟨tx, body, -⟩ := wired.conflicts op t spent
  exact wired.contains_iff.mpr ⟨tx, body⟩

theorem clusterOf_near {x : Txid} (live : g.contains t = true) (near : g.Near t x) :
    g.clusterOf x = g.clusterOf t := by
  rw [clusterOf_eq wired.paired live, clusterOf_eq wired.paired (near.live wired.paired live),
    members_near wired.paired live near]

theorem worstOf_near {x : Txid} (live : g.contains t = true) (near : g.Near t x) :
    g.worstOf x = g.worstOf t := by
  rw [worstOf, worstOf, clusterOf_near wired live near]

theorem Ranked.eq_of_near {leader : Txid} (ranked : g.Ranked rep rate ch)
    (leads : g.Leads leader t) (near : g.Near t rep) : rep = leader :=
  (ranked.2.1.of_near wired.paired (near.symm wired.paired)).unique leads

theorem ranked_congr (paired' : g'.Paired) (live : g.contains rep = true)
    (same : ∀ x, g.Near rep x → g'.get x = g.get x)
    (bytes : g'.bytesPerSigop = g.bytesPerSigop) :
    g'.Ranked rep rate ch ↔ g.Ranked rep rate ch := by
  obtain ⟨cluster, near⟩ := clusterOf_congr wired.paired paired' wired.ascends live same bytes
  have live' : g'.contains rep = g.contains rep := by rw [contains, same rep .refl, contains]
  have leads : g'.Leads rep rep ↔ g.Leads rep rep := by simp only [Leads, near]
  rw [Ranked, Ranked, live', leads, worstOf, worstOf, cluster]

theorem exists_worst (live : g.contains t = true) (leads : g.Leads rep t) :
    ∃ rate ch, g.worstOf t = some (rate, ch) ∧
      g.indexClusterOf t = (g.dropClusterIndex rep).putRow rep rate ch := by
  obtain ⟨c, cluster, members, chunks⟩ := exists_chunk wired.paired wired.ascends live
  obtain ⟨rate, ch, least, -⟩ := exists_leastRate chunks
  have head : (ascending c.members).head? = some rep := by
    rw [members]
    exact (leads_iff live).mpr leads
  refine ⟨rate, ch, by rw [worstOf, cluster]; exact least, ?_⟩
  unfold indexClusterOf
  rw [cluster]
  dsimp only
  rw [head]
  rw [least]

theorem Rows.index (rows : g.Rows P) (live : g.contains t = true) (leads : g.Leads rep t) :
    (g.indexClusterOf t).Rows fun r x y => if r = rep then g.Ranked r x y else P r x y := by
  obtain ⟨rate, ch, worst, eq⟩ := exists_worst wired live leads
  rw [eq]
  refine ((rows.drop rep).put (by simp)).congr fun r x y => ?_
  by_cases here : r = rep
  · subst here
    have near : g.Near t r := leads.1
    simp only [Ranked, worstOf_near wired live near, worst, near.live wired.paired live,
      leads.of_near wired.paired near, some.injEq, Prod.mk.injEq, true_and]
    exact ⟨fun h => ⟨h.1.symm, h.2.symm⟩, fun h => ⟨h.1.symm, h.2.symm⟩⟩
  · simp [here]

theorem Covers.index {D : Txid → Prop} (covers : g.Covers D) (t : Txid) :
    (g.indexClusterOf t).Covers fun r => D r ∨ g.contains t = true ∧ g.Near t r := by
  cases live : g.contains t with
  | false =>
    have same : g.indexClusterOf t = g := by
      simp [indexClusterOf, clusterOf, componentMembers, live]
    rw [same]
    exact covers.congr (by simp)
  | true =>
    obtain ⟨rep, leads⟩ := exists_leads live
    refine covers_of_base (base_indexClusterOf g t)
      ((Rows.index wired covers live leads).congr fun r x y => ?_)
    by_cases here : r = rep
    · subst here
      have near : g.Near t r := leads.1
      simp [near]
    · rw [if_neg here]
      refine and_congr_left fun ranked => ⟨Or.inl, fun h => h.elim id fun near => ?_⟩
      exact absurd (ranked.eq_of_near wired leads near.2) here

theorem Covers.reindex {D : Txid → Prop} (covers : g.Covers D) (t : Txid) :
    (g.reindex t).Covers fun r => D r ∨ g.contains t = true ∧ g.Near t r := by
  unfold TxGraph.reindex
  cases live : g.contains t with
  | false => exact covers.congr (by simp)
  | true =>
    obtain ⟨rep, leads⟩ := exists_leads live
    have same : (g.dropClusterOf t).base = g.base := base_dropClusterOf g t
    have dropped : (g.dropClusterOf t).Covers fun r => r ≠ rep ∧ D r := by
      rw [dropClusterOf, clusterRep_eq wired.paired live leads]
      exact covers.drop rep
    have again := dropped.index (wired.of_base same) t
    rw [eq_of_base Near (fun _ => rfl) same, eq_of_base contains (fun _ => rfl) same, live] at again
    refine again.congr fun r x y _ => ?_
    by_cases here : r = rep
    · have : g.Near t r := here ▸ leads.1
      simp [this]
    · simp [here]

end Wired

theorem Covers.foldl {rank : Txid → Nat} {bodies : Bodies} {f : TxGraph → Txid → TxGraph}
    (base : ∀ g t, (f g t).base = g.base)
    (each : ∀ {g : TxGraph} (_ : g.Wired rank bodies) {D : Txid → Prop} (_ : g.Covers D) (t : Txid),
      (f g t).Covers fun r => D r ∨ g.contains t = true ∧ g.Near t r)
    (wired : g.Wired rank bodies) {D : Txid → Prop} (covers : g.Covers D) (l : List Txid) :
    (l.foldl f g).Covers fun r => D r ∨ ∃ t ∈ l, g.contains t = true ∧ g.Near t r := by
  induction l generalizing g D with
  | nil => exact covers.congr (by simp)
  | cons t l ih =>
    have rest := ih (wired.of_base (base g t)) (each wired covers t)
    rw [eq_of_base contains (fun _ => rfl) (base g t),
      eq_of_base Near (fun _ => rfl) (base g t)] at rest
    exact rest.congr (by simp [or_assoc])

section Insert

variable {rank : Txid → Nat} {bodies : Bodies} {entry : TxEntry} {tx : Transaction} {a b x : Txid}

/-- What a new transaction is linked to: what it spends and what spends it. -/
def Touched (g : TxGraph) (txid : Txid) (tx : Transaction) (x : Txid) : Prop :=
  x ∈ g.spentParents tx ∨ g.Awaits txid tx x

theorem mem_spentParents :
    x ∈ g.spentParents tx ↔ ∃ op ∈ tx.input, op ∈ g.created ∧ op.txid = x := by
  simp [spentParents, and_assoc]

theorem others_of_hashed (hashed : ∀ op ∈ tx.input, rank op.txid < rank entry.txid) :
    ∀ op ∈ tx.input, op ∉ tx.outpoints entry.txid := by
  intro op spent own
  obtain ⟨v, -, rfl⟩ := mem_map.mp own
  exact lt_irrefl _ (hashed _ spent)

variable (wired : g.Wired rank bodies) (fresh : bodies.lookup entry.txid = none)
  (unlinked : entry.children = ∅) (hashed : ∀ op ∈ tx.input, rank op.txid < rank entry.txid)

include wired in
theorem Touched.live (touched : g.Touched entry.txid tx x) : g.contains x = true := by
  rcases touched with spent | ⟨op, -, held⟩
  · obtain ⟨op, -, made, rfl⟩ := mem_spentParents.mp spent
    exact wired.contains_creator made
  · exact wired.contains_spender held

include wired fresh in
theorem Wired.ne_new (live : g.contains a = true) : a ≠ entry.txid := by
  rintro rfl
  rw [contains, wired.live, fresh] at live
  cases live

include hashed in
theorem linked_untouched (other : a ≠ entry.txid) (apart : ¬g.Touched entry.txid tx a) :
    (g.linked entry tx).get a = g.get a := by
  obtain ⟨spent, kid⟩ := not_or.mp apart
  rw [← mem_kids (others_of_hashed hashed)] at kid
  rw [linked_get_other other]
  simp only [if_neg kid, if_neg spent]
  exact map_id'

include wired fresh unlinked hashed

theorem mem_neighbours_linked : b ∈ (g.linked entry tx).neighbours a ↔
    if a = entry.txid then g.Touched entry.txid tx b
    else b ∈ g.neighbours a ∨ b = entry.txid ∧ g.Touched entry.txid tx a := by
  have others := others_of_hashed hashed
  rw [neighbours, mem_append, mem_parentsOf_linked others unlinked,
    mem_childrenOf_linked others unlinked]
  by_cases root : a = entry.txid
  · have other : g.Awaits entry.txid tx b → b ≠ entry.txid := fun awaits =>
      wired.ne_new fresh (Touched.live wired (Or.inr awaits))
    rw [if_pos root, if_pos root, if_pos root, and_iff_right_of_imp other, Touched]
  · have live : g.Touched entry.txid tx a → g.contains a = true := Touched.live wired
    rw [if_neg root, if_neg root, if_neg root, neighbours, mem_append]
    rw [Touched] at live ⊢
    tauto

theorem Wired.link_linked : (g.linked entry tx).Linked := by
  intro p c
  have others := others_of_hashed hashed
  have dead : g.parentsOf entry.txid = [] ∧ g.childrenOf entry.txid = [] := by
    have gone := wired.live entry.txid
    rw [fresh] at gone
    simp [parentsOf, childrenOf, isNone_iff_eq_none.mp (isSome_eq_false_iff.mp gone)]
  have spent_live {x : Txid} (spent : x ∈ g.spentParents tx) : g.contains x = true :=
    Touched.live wired (Or.inl spent : g.Touched entry.txid tx x)
  have kid_live {x : Txid} (kid : g.Awaits entry.txid tx x) : g.contains x = true :=
    Touched.live wired (Or.inr kid)
  rw [mem_parentsOf_linked others unlinked, mem_childrenOf_linked others unlinked]
  by_cases child : c = entry.txid
  · by_cases parent : p = entry.txid
    · simp only [child, parent, if_true, ne_eq, not_true_eq_false, false_and, iff_false]
      exact fun spent => wired.ne_new fresh (spent_live spent) rfl
    · have old : c ∉ g.childrenOf p := by rw [← wired.linked, child, dead.1]; exact not_mem_nil
      rw [if_pos child, if_neg parent, or_iff_right old, and_iff_right child,
        and_iff_right_of_imp spent_live]
  · by_cases parent : p = entry.txid
    · have old : p ∉ g.parentsOf c := by rw [wired.linked, parent, dead.2]; exact not_mem_nil
      rw [if_neg child, if_pos parent, or_iff_right old, and_iff_right parent,
        and_iff_right_of_imp kid_live, and_iff_right child]
    · simp [child, parent, wired.linked p c]

omit unlinked hashed in
theorem Wired.link_created (op : OutPoint) (mem : op ∈ (g.linked entry tx).created) :
    Bodies.Creates (bodies.insert entry.txid tx) op.txid op := by
  rw [linked_frame] at mem
  rw [Bodies.creates_insert]
  rcases (mem_join_created op).mp mem with old | own
  · rw [if_neg (wired.ne_new fresh (wired.contains_creator old))]
    exact wired.created op old
  · have root : op.txid = entry.txid := by
      obtain ⟨v, -, rfl⟩ := mem_map.mp own
      rfl
    rw [if_pos root]
    exact own

omit unlinked hashed in
theorem Wired.link_conflicts (op : OutPoint) (t : Txid)
    (held : (g.linked entry tx).conflicts.lookup op = some t) :
    Bodies.Spends (bodies.insert entry.txid tx) t op := by
  rw [linked_conflicts] at held
  rw [Bodies.spends_insert]
  by_cases spent : op ∈ tx.input
  · rw [if_pos spent] at held
    cases held
    rwa [if_pos rfl]
  · rw [if_neg spent] at held
    rw [if_neg (wired.ne_new fresh (wired.contains_spender held))]
    exact wired.conflicts op t held

omit fresh in
theorem Wired.link_ascends : (g.linked entry tx).Ascends rank := by
  intro t p parent
  rw [mem_parentsOf_linked (others_of_hashed hashed) unlinked] at parent
  by_cases root : t = entry.txid
  · rw [if_pos root] at parent
    obtain ⟨op, spent, -, rfl⟩ := mem_spentParents.mp parent
    rw [root]
    exact hashed op spent
  · rw [if_neg root] at parent
    rcases parent with old | ⟨rfl, -, op, own, held⟩
    · exact wired.ascends t p old
    · obtain ⟨v, -, rfl⟩ := mem_map.mp own
      obtain ⟨body, here, spent⟩ := wired.conflicts _ t held
      exact wired.hashes t body here _ spent

theorem Wired.link : (g.linked entry tx).Wired rank (bodies.insert entry.txid tx) where
  live t := by
    rw [lookup_insert]
    by_cases root : t = entry.txid
    · rw [root, linked_get_self unlinked, if_pos rfl]
      rfl
    · rw [linked_get_other root, isSome_map, wired.live, if_neg root]
  created := wired.link_created fresh
  conflicts := wired.link_conflicts fresh
  hashes t body found op spent := by
    rw [lookup_insert] at found
    by_cases root : t = entry.txid
    · rw [if_pos root] at found
      cases found
      rw [root]
      exact hashed op spent
    · rw [if_neg root] at found
      exact wired.hashes t body found op spent
  ascends := wired.link_ascends unlinked hashed
  linked := wired.link_linked fresh unlinked hashed

theorem near_linked : (g.linked entry tx).Near entry.txid x ↔
    x = entry.txid ∨ ∃ z, g.Touched entry.txid tx z ∧ g.Near z x := by
  have step {a b : Txid} :=
    @mem_neighbours_linked g rank bodies entry tx a b wired fresh unlinked hashed
  constructor
  · intro path
    induction path with
    | refl => exact Or.inl rfl
    | @tail y z _ link ih =>
      rw [step] at link
      by_cases root : y = entry.txid
      · rw [if_pos root] at link
        exact Or.inr ⟨z, link, .refl⟩
      · rw [if_neg root] at link
        rcases link with old | ⟨rfl, -⟩
        · obtain ⟨w, touched, near⟩ := ih.resolve_left root
          exact Or.inr ⟨w, touched, near.tail old⟩
        · exact Or.inl rfl
  · rintro (rfl | ⟨z, touched, near⟩)
    · exact .refl
    · have first : z ∈ (g.linked entry tx).neighbours entry.txid := by
        rw [step, if_pos rfl]
        exact touched
      refine ReflTransGen.head first ?_
      induction near with
      | refl => exact .refl
      | @tail y w path link ih =>
        refine ih.tail ?_
        rw [step, if_neg (wired.ne_new fresh (Near.live wired.paired path (touched.live wired)))]
        exact Or.inl link

theorem ranked_linked : ¬(g.linked entry tx).Near entry.txid rep ∧
      (g.linked entry tx).Ranked rep rate ch ↔
    (¬∃ z, g.Touched entry.txid tx z ∧ g.Near z rep) ∧ g.Ranked rep rate ch := by
  have near := @near_linked g rank bodies entry tx rep wired fresh unlinked hashed
  have wired' := wired.link fresh unlinked hashed
  have bytes : (g.linked entry tx).bytesPerSigop = g.bytesPerSigop := by rw [linked_frame]; rfl
  have other {y : Txid} (live : g.contains y = true) : y ≠ entry.txid := wired.ne_new fresh live
  have same (live : g.contains rep = true)
      (apart : ¬∃ z, g.Touched entry.txid tx z ∧ g.Near z rep) :
      (g.linked entry tx).Ranked rep rate ch ↔ g.Ranked rep rate ch := by
    refine ranked_congr wired wired'.paired live (fun x path => ?_) bytes
    refine linked_untouched hashed (other (path.live wired.paired live)) fun touched => ?_
    exact apart ⟨x, touched, path.symm wired.paired⟩
  rw [near, not_or]
  constructor
  · rintro ⟨⟨root, apart⟩, ranked⟩
    have live : g.contains rep = true := by
      have live' := ranked.1
      rwa [contains, linked_get_other root, isSome_map] at live'
    exact ⟨apart, (same live apart).mp ranked⟩
  · rintro ⟨apart, ranked⟩
    exact ⟨⟨other ranked.1, apart⟩, (same ranked.1 apart).mpr ranked⟩

variable (tx) in
omit fresh unlinked hashed in
theorem dropJoined_covers (covers : g.Covers fun _ => True) (txid : Txid) :
    (g.dropJoined txid tx).Covers fun r => ¬∃ z, g.Touched txid tx z ∧ g.Near z r := by
  obtain ⟨first, saw⟩ := (surveyed_empty (g := g)).repsOf wired.paired
    ((tx.input.filter (· ∈ g.created)).map (·.txid))
  obtain ⟨second, all⟩ := first.repsOf wired.paired
    ((tx.outpoints txid).filterMap g.conflicts.lookup)
  have whole : g.dropJoined txid tx =
      (ascending (g.repsOf ((tx.outpoints txid).filterMap g.conflicts.lookup)
        (g.repsOf ((tx.input.filter (· ∈ g.created)).map (·.txid)) (∅, ∅))).2).foldl
          dropClusterIndex g := rfl
  rw [whole]
  refine (covers.dropAll _).congr fun r x y ranked => ?_
  rw [eq_of_base Ranked (fun _ => rfl) (base_foldl g base_dropClusterIndex _)] at ranked
  rw [and_true, mem_ascending, second.reps, and_iff_left ranked.2.1, all, saw]
  refine not_congr ⟨?_, ?_⟩
  · rintro ((seen | ⟨z, spent, -, near⟩) | ⟨z, kid, -, near⟩)
    · exact absurd seen (Finset.notMem_empty r)
    · exact ⟨z, Or.inl (mem_toFinset.mpr spent), near⟩
    · obtain ⟨op, own, held⟩ := mem_filterMap.mp kid
      exact ⟨z, Or.inr ⟨op, own, held⟩, near⟩
  · rintro ⟨z, spent | ⟨op, own, held⟩, near⟩
    · obtain ⟨op, -, made, rfl⟩ := mem_spentParents.mp spent
      exact Or.inl (Or.inr ⟨_, mem_toFinset.mp spent, wired.contains_creator made, near⟩)
    · exact Or.inr ⟨z, mem_filterMap.mpr ⟨op, own, held⟩, wired.contains_spender held, near⟩

theorem insert_covers (covers : g.Covers fun _ => True) :
    (g.insert entry tx).Wired rank (bodies.insert entry.txid tx) ∧
      (g.insert entry tx).Covers fun _ => True := by
  -- the graph whose joined clusters have no rows
  have same : (g.invalidateChunkCache.dropJoined entry.txid tx).base = g.base := by simp
  have dropped := dropJoined_covers tx
    (wired.of_base rfl : g.invalidateChunkCache.Wired rank bodies)
    (Rows.of_fields covers rfl rfl) entry.txid
  generalize mid : g.invalidateChunkCache.dropJoined entry.txid tx = h at same dropped
  have apart : h.Covers fun r => ¬∃ z, h.Touched entry.txid tx z ∧ h.Near z r := by
    rw [eq_of_base Touched (fun _ => rfl) same, eq_of_base Near (fun _ => rfl) same]
    exact dropped
  have wiredH : h.Wired rank bodies := wired.of_base same
  -- the graph with the new links
  have wiredL := wiredH.link fresh unlinked hashed
  have linked : (h.linked entry tx).Covers fun r => ¬(h.linked entry tx).Near entry.txid r := by
    have rates : (h.linked entry tx).worstRepRate = h.worstRepRate := by rw [linked_frame]; rfl
    have chunks : (h.linked entry tx).worstChunks = h.worstChunks := by rw [linked_frame]; rfl
    exact (Rows.of_fields apart rates chunks).congr fun r x y =>
      (ranked_linked wiredH fresh unlinked hashed).symm
  have insertEq : g.insert entry tx = (h.linked entry tx).indexClusterOf entry.txid := by
    rw [← mid]
    rfl
  rw [insertEq]
  refine ⟨wiredL.of_base (base_indexClusterOf ..),
    (linked.index wiredL entry.txid).congr fun r x y _ => iff_true_intro ?_⟩
  have live : (h.linked entry tx).contains entry.txid = true := by
    rw [contains, linked_get_self unlinked]
    rfl
  by_cases near : (h.linked entry tx).Near entry.txid r
  · exact Or.inr ⟨live, near⟩
  · exact Or.inl near

end Insert

section Remove

variable {rank : Txid → Nat} {bodies : Bodies} {txid a b x : Txid} {e : TxEntry} {tx : Transaction}
  (wired : g.Wired rank bodies) (found : g.get txid = some e)
include wired found

omit wired in
theorem unlinked_apart (other : a ≠ txid) (apart : a ∉ g.neighbours txid) :
    (g.unlinked txid e tx).get a = g.get a := by
  rw [mem_neighbours_iff] at apart
  have parent : a ∉ e.parents := fun mem => apart ⟨e, found, Or.inl mem⟩
  have child : a ∉ e.children := fun mem => apart ⟨e, found, Or.inr mem⟩
  rw [unlinked_get, if_neg other]
  simp only [if_neg parent, if_neg child]
  exact map_id'

theorem mem_neighbours_unlinked : b ∈ (g.unlinked txid e tx).neighbours a ↔
    a ≠ txid ∧ b ≠ txid ∧ b ∈ g.neighbours a := by
  rw [neighbours, mem_append, mem_parentsOf_unlinked wired.linked found,
    mem_childrenOf_unlinked wired.linked found, neighbours, mem_append]
  tauto

theorem Wired.unlink (body : bodies.lookup txid = some tx) :
    (g.unlinked txid e tx).Wired rank (bodies.erase txid) where
  live t := by
    rw [unlinked_get, lookup_erase]
    split
    · rfl
    · rw [isSome_map, wired.live]
  created op mem := by
    obtain ⟨made, gone⟩ := Finset.mem_sdiff.mp mem
    have creates := wired.created op made
    refine Bodies.creates_erase.mpr ⟨fun same => gone ?_, creates⟩
    obtain ⟨tx', body', own⟩ := creates
    rw [same] at body' own
    cases body.symm.trans body'
    exact mem_toFinset.mpr own
  conflicts op t held := by
    rw [unlinked_conflicts] at held
    by_cases mine : op ∈ tx.input ∧ g.conflicts.lookup op = some txid
    · rw [if_pos mine] at held
      cases held
    · rw [if_neg mine] at held
      have spends := wired.conflicts op t held
      refine Bodies.spends_erase.mpr ⟨?_, spends⟩
      rintro rfl
      obtain ⟨tx', body', spent⟩ := spends
      cases body.symm.trans body'
      exact mine ⟨spent, held⟩
  hashes t body here op spent := by
    rw [lookup_erase] at here
    split at here
    · cases here
    · exact wired.hashes t body here op spent
  ascends t p parent :=
    wired.ascends t p ((mem_parentsOf_unlinked wired.linked found).mp parent).2
  linked p c := by
    rw [mem_parentsOf_unlinked wired.linked found, mem_childrenOf_unlinked wired.linked found,
      wired.linked]

theorem ranked_unlinked (paired' : (g.unlinked txid e tx).Paired) (apart : ¬g.Near txid rep) :
    (g.unlinked txid e tx).Ranked rep rate ch ↔ g.Ranked rep rate ch := by
  have other {y : Txid} (path : g.Near rep y) : y ≠ txid := by
    rintro rfl
    exact apart (path.symm wired.paired)
  have live : (g.unlinked txid e tx).contains rep = g.contains rep := by
    rw [contains, unlinked_get, if_neg (other .refl), isSome_map, contains]
  cases alive : g.contains rep with
  | false => simp [Ranked, live, alive]
  | true =>
    refine ranked_congr wired paired' alive (fun y path => ?_) rfl
    refine unlinked_apart found (other path) fun mem => apart ?_
    exact (ReflTransGen.single mem).trans (path.symm wired.paired)

variable (tx) in
theorem exists_neighbour (near : g.Near txid x) :
    x = txid ∨ ∃ n ∈ g.neighbours txid, n ≠ txid ∧ (g.unlinked txid e tx).Near n x := by
  induction near with
  | refl => exact Or.inl rfl
  | @tail y z _ link ih =>
    by_cases back : z = txid
    · exact Or.inl back
    right
    rcases ih with rfl | ⟨n, mem, other, path⟩
    · exact ⟨z, link, back, .refl⟩
    · by_cases root : y = txid
      · exact ⟨z, root ▸ link, back, .refl⟩
      · exact ⟨n, mem, other, path.tail
          ((mem_neighbours_unlinked wired found).mpr ⟨root, back, link⟩)⟩

omit found in
theorem dropClusterOf_covers (covers : g.Covers fun _ => True) (live : g.contains txid = true) :
    (g.dropClusterOf txid).Covers fun r => ¬g.Near txid r := by
  obtain ⟨rep, leads⟩ := exists_leads live
  have same : (g.dropClusterOf txid).base = g.base := base_dropClusterOf g txid
  rw [dropClusterOf, clusterRep_eq wired.paired live leads] at same ⊢
  refine (covers.drop rep).congr fun r x y ranked => ?_
  rw [eq_of_base Ranked (fun _ => rfl) same] at ranked
  rw [and_true]
  refine not_congr ⟨?_, ranked.eq_of_near wired leads⟩
  rintro rfl
  exact leads.1

omit wired found in
theorem remove_absent (absent : g.get txid = none) :
    (g.remove txid tx).1 = g.invalidateChunkCache := by
  have dead : g.contains txid = false := by rw [contains, absent]; rfl
  have kept : g.invalidateChunkCache.dropClusterOf txid = g.invalidateChunkCache := by
    have none : g.invalidateChunkCache.clusterRep txid = none := by
      have dead' : g.invalidateChunkCache.contains txid = false := dead
      simp [clusterRep, componentMembers, dead']
    rw [dropClusterOf, none]
  have here : g.invalidateChunkCache.entries.lookup txid = none := absent
  unfold remove
  simp only [kept, here]

theorem remove_covers (body : bodies.lookup txid = some tx) (covers : g.Covers fun _ => True) :
    (g.remove txid tx).1.Wired rank (bodies.erase txid) ∧
      (g.remove txid tx).1.Covers fun _ => True := by
  have live : g.contains txid = true := by
    rw [contains, found]
    rfl
  have same : (g.invalidateChunkCache.dropClusterOf txid).base = g.base := by simp
  have dropped := dropClusterOf_covers
    (wired.of_base rfl : g.invalidateChunkCache.Wired rank bodies)
    (Rows.of_fields covers rfl rfl) live
  generalize mid : g.invalidateChunkCache.dropClusterOf txid = h at same dropped
  have apart : h.Covers fun r => ¬h.Near txid r := by
    rw [eq_of_base Near (fun _ => rfl) same]
    exact dropped
  have wiredH : h.Wired rank bodies := wired.of_base same
  have foundH : h.get txid = some e :=
    (congrFun (eq_of_base get (fun _ => rfl) same) txid).trans found
  have wiredU := wiredH.unlink foundH body
  have kept : (h.unlinked txid e tx).Rows _ := Rows.of_fields apart rfl rfl
  have unlinked : (h.unlinked txid e tx).Covers fun r => ¬h.Near txid r :=
    kept.congr fun r x y => and_congr_right fun apart =>
      (ranked_unlinked wiredH foundH wiredU.paired apart).symm
  have neighboursEq : h.neighbours = g.neighbours := eq_of_base neighbours (fun _ => rfl) same
  have removeEq : (g.remove txid tx).1 =
      (g.neighbours txid).foldl reindex (h.unlinked txid e tx) := by
    have here : h.entries.lookup txid = some e := foundH
    unfold remove
    simp only [mid, here]
    rfl
  have base := base_foldl (h.unlinked txid e tx) base_reindex (g.neighbours txid)
  rw [removeEq]
  refine ⟨wiredU.of_base base, (unlinked.foldl base_reindex (fun w _ c t => c.reindex w t) wiredU
    (g.neighbours txid)).congr fun r x y ranked => iff_true_intro ?_⟩
  rw [eq_of_base Ranked (fun _ => rfl) base] at ranked
  by_cases apart : h.Near txid r
  · rcases exists_neighbour tx wiredH foundH apart with rfl | ⟨n, mem, other, path⟩
    · have gone := ranked.1
      rw [contains, unlinked_get, if_pos rfl] at gone
      cases gone
    · refine Or.inr ⟨n, neighboursEq ▸ mem, ?_, path⟩
      have alive := contains_of_mem_neighbours (wiredH.paired _ _ mem)
      rwa [contains, unlinked_get, if_neg other, isSome_map]
  · exact Or.inl apart

end Remove

section Sigops

variable {rank : Txid → Nat} {bodies : Bodies} {txid : Txid} {e : TxEntry}

theorem Wired.withCost (wired : g.Wired rank bodies) (found : g.get txid = some e) (cost : Nat) :
    let h : TxGraph := { g with
      entries := g.entries.insert txid { e with sigopCost := cost }
      chunkCache := none }
    h.Wired rank bodies ∧ h.neighbours = g.neighbours := by
  intro h
  have get (a : Txid) : h.get a = if a = txid then some { e with sigopCost := cost } else g.get a :=
    lookup_insert ..
  have parents : h.parentsOf = g.parentsOf := by
    funext a
    rw [parentsOf, parentsOf, get]
    split
    · next root => rw [root, found]; rfl
    · rfl
  have children : h.childrenOf = g.childrenOf := by
    funext a
    rw [childrenOf, childrenOf, get]
    split
    · next root => rw [root, found]; rfl
    · rfl
  refine ⟨⟨fun t => ?_, wired.created, wired.conflicts, wired.hashes, ?_, ?_⟩, ?_⟩
  · rw [get, ← wired.live]
    split
    · next root => rw [root, found]; rfl
    · rfl
  · rw [Ascends, parents]
    exact wired.ascends
  · rw [Linked, parents, children]
    exact wired.linked
  · funext a
    rw [neighbours, parents, children, neighbours]

theorem setSigopCost_covers (wired : g.Wired rank bodies) (covers : g.Covers fun _ => True)
    (txid : Txid) (cost : Nat) : (g.setSigopCost txid cost).Wired rank bodies ∧
      (g.setSigopCost txid cost).Covers fun _ => True := by
  unfold setSigopCost
  cases found : g.get txid with
  | none => exact ⟨wired, covers⟩
  | some e =>
    obtain ⟨wiredH, links⟩ := wired.withCost found cost
    dsimp only at wiredH links ⊢
    generalize changed : ({ g with
      entries := g.entries.insert txid { e with sigopCost := cost }
      chunkCache := none } : TxGraph) = h at wiredH links ⊢
    have get {a : Txid} (other : a ≠ txid) : h.get a = g.get a := by
      rw [← changed]
      exact (lookup_insert ..).trans (if_neg other)
    have near : h.Near = g.Near := by unfold Near; rw [links]
    have live : h.contains txid = true := by
      rw [← changed]
      exact congrArg Option.isSome ((lookup_insert ..).trans (if_pos rfl))
    have base := base_indexClusterOf h txid
    obtain ⟨rep, leads⟩ := exists_leads live
    have kept : h.Rows _ := Rows.of_fields covers (by rw [← changed]) (by rw [← changed])
    refine ⟨wiredH.of_base base,
      covers_of_base base ((kept.index wiredH live leads).congr fun r x y => ?_)⟩
    rw [true_and, true_and]
    by_cases here : r = rep
    · rw [if_pos here]
    rw [if_neg here]
    by_cases close : h.Near txid r
    · have leads' : g.Leads rep txid := by rwa [Leads, ← near]
      refine iff_of_false (fun ranked => here ?_) fun ranked => here ?_
      · exact ranked.eq_of_near wired leads' (near ▸ close)
      · exact ranked.eq_of_near wiredH leads close
    · have other {z : Txid} (path : h.Near r z) : z ≠ txid := by
        rintro rfl
        exact close (path.symm wiredH.paired)
      have bytes : g.bytesPerSigop = h.bytesPerSigop := by rw [← changed]
      cases alive : h.contains r with
      | false =>
        have alive' : g.contains r = false := by rwa [contains, ← get (other .refl)]
        simp [Ranked, alive, alive']
      | true =>
        exact ranked_congr wiredH wired.paired alive
          (fun z path => (get (other path)).symm) bytes

theorem setBytesPerSigop_covers (wired : g.Wired rank bodies) {keys : List Txid}
    (all : ∀ t, g.contains t = true → t ∈ keys) (bytesPerSigop : Nat) :
    (g.setBytesPerSigop keys bytesPerSigop).Wired rank bodies ∧
      (g.setBytesPerSigop keys bytesPerSigop).Covers fun _ => True := by
  unfold setBytesPerSigop
  generalize changed : ({ g with
    bytesPerSigop, chunkCache := none, worstChunks := ∅, worstRepRate := ∅ } : TxGraph) = h
  have wiredH : h.Wired rank bodies := by
    rw [← changed]
    exact { wired with }
  have none : h.Covers fun _ => False := by
    rw [← changed]
    constructor
    · simp
    · simp
  have base := base_foldl h base_indexClusterOf keys
  refine ⟨wiredH.of_base base, (none.foldl base_indexClusterOf (fun w _ c t => c.index w t) wiredH
    keys).congr fun r x y ranked => iff_true_intro (Or.inr ?_)⟩
  rw [eq_of_base Ranked (fun _ => rfl) base] at ranked
  have alive : g.contains r = true := by
    have live := ranked.1
    rw [← changed] at live
    exact live
  exact ⟨r, all r alive, ranked.1, .refl⟩

end Sigops

/-- Each cluster has one row, under its least id, with a chunk of its least rate; the first row is a
chunk of the least rate of all. -/
structure WorstExact (g : TxGraph) : Prop where
  row : ∀ rate rep ch, g.worstChunks.lookup (toLex (rate, rep)) = some ch →
    ∃ c, g.clusterOf rep = some c ∧ rep ∈ c.members ∧ (∀ t ∈ c.members, rep ≤ t) ∧
      ch ∈ c.chunks ∧ ch.feeRateSatPerKvb = rate ∧ ∀ ch' ∈ c.chunks, rate ≤ ch'.feeRateSatPerKvb
  one : ∀ t, g.contains t = true → ∃ c, g.clusterOf t = some c ∧
    (∀ x, x ∈ c.members ↔ g.Near t x) ∧
    ∃! key, (g.worstChunks.lookup key).isSome = true ∧ (ofLex key).2 ∈ c.members
  worst : ∀ rep ch, g.worstChunk = some (rep, ch) →
    (∃ c, g.clusterOf rep = some c ∧ ch ∈ c.chunks) ∧
      ∀ t c, g.clusterOf t = some c → ∀ ch' ∈ c.chunks,
        ch.feeRateSatPerKvb ≤ ch'.feeRateSatPerKvb
  found : ∀ t, g.contains t = true → g.worstChunk ≠ none

section Reading

variable {rank : Txid → Nat} {bodies : Bodies} (wired : g.Wired rank bodies)
  (covers : g.Covers fun _ => True)
include wired

theorem Ranked.spec (ranked : g.Ranked rep rate ch) :
    ∃ c, g.clusterOf rep = some c ∧ rep ∈ c.members ∧ (∀ t ∈ c.members, rep ≤ t) ∧
      ch ∈ c.chunks ∧ ch.feeRateSatPerKvb = rate ∧
      ∀ ch' ∈ c.chunks, rate ≤ ch'.feeRateSatPerKvb := by
  obtain ⟨live, leads, worst⟩ := ranked
  obtain ⟨c, cluster, members, chunks⟩ := exists_chunk wired.paired wired.ascends live
  obtain ⟨rate', ch', least, mem, own, below⟩ := exists_leastRate chunks
  have same : g.worstOf rep = some (rate', ch') := by
    rw [worstOf, cluster]
    exact least
  cases worst.symm.trans same
  refine ⟨c, cluster, ?_, ?_, mem, own, below⟩
  · rw [members]
    exact (mem_members live).mpr leads.1
  · intro t inside
    rw [members] at inside
    exact leads.2 ((mem_members live).mp inside)

theorem exists_ranked (live : g.contains t = true) :
    ∃ rep rate ch, g.Near t rep ∧ g.Ranked rep rate ch := by
  obtain ⟨rep, leads⟩ := exists_leads live
  obtain ⟨rate, ch, worst, -⟩ := exists_worst wired live leads
  refine ⟨rep, rate, ch, leads.1, Near.live wired.paired leads.1 live,
    leads.of_near wired.paired leads.1, ?_⟩
  rw [worstOf_near wired live leads.1, worst]

include covers

omit wired in
theorem Covers.row : g.worstChunks.lookup (toLex (rate, rep)) = some ch ↔ g.Ranked rep rate ch :=
  (Rows.row covers rep rate ch).trans (and_iff_right trivial)

theorem Covers.one (live : g.contains t = true) : ∃ c, g.clusterOf t = some c ∧
    (∀ x, x ∈ c.members ↔ g.Near t x) ∧
    ∃! key, (g.worstChunks.lookup key).isSome = true ∧ (ofLex key).2 ∈ c.members := by
  obtain ⟨c, cluster, members, -⟩ := exists_chunk wired.paired wired.ascends live
  have near (x : Txid) : x ∈ c.members ↔ g.Near t x := by rw [members, mem_members live]
  obtain ⟨rep, rate, ch, close, ranked⟩ := exists_ranked wired live
  refine ⟨c, cluster, near, toLex (rate, rep), ⟨?_, (near rep).mpr close⟩, ?_⟩
  · rw [covers.row.mpr ranked]
    rfl
  · rintro key ⟨held, inside⟩
    obtain ⟨ch', found⟩ := isSome_iff_exists.mp held
    obtain ⟨rate', rep'⟩ := key
    have ranked' := covers.row.mp found
    have leads := ranked.2.1.of_near wired.paired (close.symm wired.paired)
    have same : rep' = rep := ranked'.eq_of_near wired leads ((near rep').mp inside)
    subst same
    cases ranked.2.2.symm.trans ranked'.2.2
    rfl

omit wired in
theorem Covers.worst {rep : Txid} {ch : Chunk} (first : g.worstChunk = some (rep, ch)) :
    ∃ rate, g.Ranked rep rate ch ∧ ∀ rep' rate' ch', g.Ranked rep' rate' ch' → rate ≤ rate' := by
  obtain ⟨key, head, held⟩ := bind_eq_some_iff.mp first
  obtain ⟨ch', found, same⟩ := map_eq_some_iff.mp held
  obtain ⟨rate, rep'⟩ := key
  cases same
  refine ⟨rate, covers.row.mp found, fun rep' rate' ch' ranked => ?_⟩
  have mem : toLex (rate', rep') ∈ g.worstChunks.keys :=
    Finmap.mem_keys.mpr (Finmap.mem_of_lookup_eq_some (covers.row.mpr ranked))
  have below := ((head?_ascending _).mp head).2 _ mem
  rcases Prod.Lex.le_iff.mp below with lower | ⟨same, -⟩
  · exact lower.le
  · exact same.le

theorem worstExact_of_covers : g.WorstExact where
  row rate rep ch found := (covers.row.mp found).spec wired
  one t live := covers.one wired live
  worst rep ch first := by
    obtain ⟨rate, ranked, least⟩ := covers.worst first
    obtain ⟨c, cluster, -, -, mem, own, -⟩ := ranked.spec wired
    refine ⟨⟨c, cluster, mem⟩, fun t c' cluster' ch' mem' => ?_⟩
    have live : g.contains t = true := by
      by_contra dead
      rw [clusterOf, componentMembers, if_neg dead] at cluster'
      cases cluster'
    obtain ⟨rep', rate', low, close, ranked'⟩ := exists_ranked wired live
    obtain ⟨c'', cluster'', -, -, -, -, below⟩ := ranked'.spec wired
    rw [clusterOf_near wired live close, cluster'] at cluster''
    cases cluster''
    rw [own]
    exact (least rep' rate' low ranked').trans (below ch' mem')
  found t live none := by
    obtain ⟨rep, rate, ch, -, ranked⟩ := exists_ranked wired live
    have held := covers.row.mpr ranked
    have mem : toLex (rate, rep) ∈ ascending g.worstChunks.keys :=
      (mem_ascending _).mpr (Finmap.mem_keys.mpr (Finmap.mem_of_lookup_eq_some held))
    obtain ⟨first, rest, listed⟩ := exists_cons_of_ne_nil (ne_nil_of_mem mem)
    have inside : first ∈ g.worstChunks.keys := by
      rw [← mem_ascending, listed]
      exact mem_cons_self ..
    obtain ⟨ch', here⟩ := Finmap.mem_iff.mp (Finmap.mem_keys.mp inside)
    rw [worstChunk, listed, head?_cons, bind_some, here] at none
    cases none

end Reading

end TxGraph

/-- A call that can change the clusters or their rates. -/
inductive RankCall
  | live (call : GraphCall)
  | setSigopCost (txid : Txid) (cost : Nat)
  | setBytesPerSigop (keys : List Txid) (bytesPerSigop : Nat)

namespace Tracked

def apply (s : Tracked) : RankCall → Tracked
  | .live call => s.step call
  | .setSigopCost txid cost => ⟨s.graph.setSigopCost txid cost, s.bodies⟩
  | .setBytesPerSigop keys bytesPerSigop =>
    ⟨s.graph.setBytesPerSigop keys bytesPerSigop, s.bodies⟩

variable (rank : Txid → Nat)

/-- An insert is of a transaction that is not live, with no children yet; what it spends is below it
in the order of the hashes. A remove is given the body that was inserted. The hash map gives every
key. -/
def Proper (s : Tracked) : RankCall → Prop
  | .live (.insert entry tx) => s.bodies.lookup entry.txid = none ∧ entry.children = ∅ ∧
      ∀ op ∈ tx.input, rank op.txid < rank entry.txid
  | .live (.remove txid tx) => ∀ body, s.bodies.lookup txid = some body → body = tx
  | .setSigopCost _ _ => True
  | .setBytesPerSigop keys _ => ∀ t, s.graph.contains t = true → t ∈ keys

/-- The links match the live set and the rows the links. -/
def Indexed (s : Tracked) : Prop :=
  s.graph.Wired rank s.bodies ∧ s.graph.Rows s.graph.Ranked

theorem step_indexed {rank : Txid → Nat} {s : Tracked} {call : GraphCall}
    (indexed : s.Indexed rank) (proper : s.Proper rank (.live call)) :
    (s.step call).Indexed rank := by
  rw [Indexed, ← TxGraph.covers_all] at *
  obtain ⟨wired, covers⟩ := indexed
  cases call with
  | insert entry tx =>
    obtain ⟨fresh, unlinked, hashed⟩ := proper
    exact TxGraph.insert_covers wired fresh unlinked hashed covers
  | remove txid tx =>
    cases found : s.graph.get txid with
    | some e =>
      have live := wired.live txid
      rw [found] at live
      obtain ⟨body, here⟩ := isSome_iff_exists.mp live.symm
      exact TxGraph.remove_covers wired found (proper body here ▸ here) covers
    | none =>
      have gone : s.bodies.lookup txid = none := by
        have live := wired.live txid
        rw [found] at live
        exact isNone_iff_eq_none.mp (isSome_eq_false_iff.mp live.symm)
      have same : s.step (.remove txid tx) = ⟨s.graph.invalidateChunkCache, s.bodies⟩ := by
        rw [step, TxGraph.remove_absent found, erase_eq_self gone]
      rw [same]
      exact ⟨wired.of_base rfl, TxGraph.Rows.of_fields covers rfl rfl⟩

theorem apply_indexed {rank : Txid → Nat} (s : Tracked) (call : RankCall)
    (indexed : s.Indexed rank) (proper : s.Proper rank call) : (s.apply call).Indexed rank := by
  cases call with
  | live call => exact step_indexed indexed proper
  | setSigopCost txid cost =>
    rw [Indexed, ← TxGraph.covers_all] at *
    exact TxGraph.setSigopCost_covers indexed.1 indexed.2 txid cost
  | setBytesPerSigop keys bytesPerSigop =>
    rw [Indexed, ← TxGraph.covers_all] at *
    exact TxGraph.setBytesPerSigop_covers indexed.1 proper bytesPerSigop

theorem start_indexed
    (clusterCountLimit clusterVsizeLimit bytesPerSigop blockReservedSigops : Nat) :
    (start clusterCountLimit clusterVsizeLimit bytesPerSigop blockReservedSigops).Indexed rank := by
  have none (t : Txid) : (start clusterCountLimit clusterVsizeLimit bytesPerSigop
      blockReservedSigops).graph.get t = none := Finmap.lookup_empty t
  refine ⟨⟨fun t => ?_, ?_, ?_, ?_, ?_, ?_⟩, ⟨?_, ?_⟩⟩
  · exact (congrArg Option.isSome (Finmap.lookup_empty t)).symm
  · intro op made
    cases made
  · intro op t held
    cases (Finmap.lookup_empty op).symm.trans held
  · intro t tx body
    cases (Finmap.lookup_empty t).symm.trans body
  · intro t p parent
    simp [TxGraph.parentsOf, none] at parent
  · intro p c
    simp [TxGraph.parentsOf, TxGraph.childrenOf, none]
  · intro rep rate
    refine iff_of_false (fun held => ?_) ?_
    · cases (Finmap.lookup_empty rep).symm.trans held
    · rintro ⟨ch, live, -⟩
      cases live
  · intro rep rate ch
    refine iff_of_false (fun held => ?_) ?_
    · cases (Finmap.lookup_empty (toLex (rate, rep))).symm.trans held
    · rintro ⟨live, -⟩
      cases live

/-- After every run of proper calls the index of the worst chunks is exact. -/
theorem worst_chunks_exact (rank : Txid → Nat)
    (clusterCountLimit clusterVsizeLimit bytesPerSigop blockReservedSigops : Nat)
    (calls : List RankCall)
    (proper : Run.AllMeet apply (Proper rank)
      (start clusterCountLimit clusterVsizeLimit bytesPerSigop blockReservedSigops) calls) :
    (calls.foldl apply
      (start clusterCountLimit clusterVsizeLimit bytesPerSigop
        blockReservedSigops)).graph.WorstExact := by
  have indexed := proper.invariant (Indexed rank) apply_indexed (start_indexed ..)
  exact TxGraph.worstExact_of_covers indexed.1 (TxGraph.covers_all.mpr indexed.2)

/-- The insert of a transaction with one output and no children. -/
def added (txid : Txid) (input : List OutPoint) : RankCall :=
  .live (inserted txid 400 input)

/-- A transaction joins two, and leaves them apart again. -/
theorem worst_chunks_exact_split :
    ([added 1 [⟨0, 0⟩], added 3 [⟨0, 1⟩], added 4 [⟨1, 0⟩, ⟨3, 0⟩], .setSigopCost 3 50,
      .setBytesPerSigop [4, 3, 1] 10,
      .live (.remove 4 ⟨4, 4, 2, [⟨1, 0⟩, ⟨3, 0⟩], [⟨1000, []⟩], 400⟩)].foldl apply
        (start 64 101000 20 400)).graph.WorstExact := by
  refine worst_chunks_exact id 64 101000 20 400 _ ⟨?_, ?_, ?_, trivial, ?_, ?_, trivial⟩
  · exact ⟨by decide +kernel, rfl, by decide⟩
  · exact ⟨by decide +kernel, rfl, by decide⟩
  · exact ⟨by decide +kernel, rfl, by decide⟩
  · have live : ([added 1 [⟨0, 0⟩], added 3 [⟨0, 1⟩], added 4 [⟨1, 0⟩, ⟨3, 0⟩],
        .setSigopCost 3 50].foldl apply (start 64 101000 20 400)).graph.live ⊆ {1, 3, 4} := by
      decide +kernel
    intro t held
    have mem := live (TxGraph.mem_live.mpr held)
    simp only [Finset.mem_insert, Finset.mem_singleton] at mem
    rcases mem with rfl | rfl | rfl <;> decide
  · have held : ([added 1 [⟨0, 0⟩], added 3 [⟨0, 1⟩], added 4 [⟨1, 0⟩, ⟨3, 0⟩],
        .setSigopCost 3 50, .setBytesPerSigop [4, 3, 1] 10].foldl apply
          (start 64 101000 20 400)).bodies.lookup 4 =
        some ⟨4, 4, 2, [⟨1, 0⟩, ⟨3, 0⟩], [⟨1000, []⟩], 400⟩ := by
      decide +kernel
    intro body found
    exact some.inj (found.symm.trans held)

/-- A transaction inserted again with other inputs leaves its own row behind; one that comes with a
child that is not live has no row; and one whose spent output the removed body did not name stays
without one. -/
theorem worst_chunks_not_exact :
    ¬([added 2 [⟨0, 0⟩], added 1 [⟨0, 1⟩], added 2 [⟨1, 0⟩]].foldl apply
        (start 64 101000 20 400)).graph.WorstExact ∧
    ¬([.live (.insert ⟨1, 1, 1000, 400, 0, 0, ∅, {7}⟩
        ⟨1, 1, 2, [⟨0, 0⟩], [⟨1000, []⟩], 400⟩)].foldl apply
          (start 64 101000 20 400)).graph.WorstExact ∧
    ¬([added 1 [⟨0, 0⟩], .live (.remove 1 ⟨1, 1, 2, [⟨0, 0⟩], [], 400⟩),
        added 2 [⟨1, 0⟩]].foldl apply (start 64 101000 20 400)).graph.WorstExact := by
  refine ⟨fun exact => ?_, fun exact => ?_, fun exact => ?_⟩
  · obtain ⟨c, cluster, -, key, -, alone⟩ := exact.one 1 (by decide +kernel)
    have both : ∀ c ∈ ([added 2 [⟨0, 0⟩], added 1 [⟨0, 1⟩], added 2 [⟨1, 0⟩]].foldl apply
        (start 64 101000 20 400)).graph.clusterOf 1, 1 ∈ c.members ∧ 2 ∈ c.members := by
      decide +kernel
    obtain ⟨one, two⟩ := both c cluster
    have first := alone (toLex (10000, 1)) ⟨by decide +kernel, one⟩
    have second := alone (toLex (10000, 2)) ⟨by decide +kernel, two⟩
    exact absurd (first.trans second.symm) (by decide)
  · exact exact.found 1 (by decide +kernel) (by decide +kernel)
  · exact exact.found 2 (by decide +kernel) (by decide +kernel)

end Tracked

end Rbitcoin.Mempool
