import Rbitcoin.Lib.Component
import Rbitcoin.Mempool.Commit

/-! The limits of the clusters over whole runs. A commit counts the clusters of the parents of its
transaction only, while the insert links live children too; the limits hold in every run whose
transactions have no live children, or whose children fit with the rest. -/

namespace Rbitcoin.Mempool

open Component Ordered TxGraph Option Finset

namespace TxGraph

variable (g : TxGraph)

def connectedExcept (seeds except : Finset Txid) : Finset Txid :=
  let start := (ascending seeds).filter fun t => t ∉ except ∧ g.contains t
  (Reach.walk (fun t => (g.neighbours t).filter (· ∉ except)) g.nodes.card start start.toFinset).2

variable {g} {bodies : Bodies} {seeds except : Finset Txid} {a b : Txid}

theorem mem_neighbours (exact : g.Exact bodies) :
    b ∈ g.neighbours a ↔ bodies.Edge a b ∨ bodies.Edge b a := by
  rw [neighbours, List.mem_append, exact.parents, exact.children, or_comm]

theorem mem_connectedExcept (exact : g.Exact bodies) {n x : Txid} (seed : n ∈ seeds)
    (live : g.contains n = true) (kept : n ∉ except) {edge : Txid → Txid → Prop}
    (sub : ∀ a b, edge a b → bodies.Edge a b ∧ a ∉ except ∧ b ∉ except)
    (joined : Joined edge n x) : x ∈ g.connectedExcept seeds except := by
  unfold connectedExcept
  rw [Reach.mem_walk (U := g.nodes)]
  · refine ⟨n, ?_, ?_⟩
    · rw [List.mem_filter, mem_ascending, decide_eq_true_eq]
      exact ⟨seed, kept, live⟩
    · induction joined with
      | refl => exact .refl
      | tail _ step ih =>
        refine ih.tail ?_
        rw [Reach.Step, List.mem_filter, mem_neighbours exact, decide_eq_true_eq]
        rcases step with step | step
        · obtain ⟨along, -, out⟩ := sub _ _ step
          exact ⟨Or.inl along, out⟩
        · obtain ⟨along, out, -⟩ := sub _ _ step
          exact ⟨Or.inr along, out⟩
  · intro y _ z mem
    exact neighbours_mem_nodes (List.mem_of_mem_filter mem)
  · intro y mem
    rw [List.mem_filter, decide_eq_true_eq] at mem
    exact mem_union_left _ (mem_live.mpr mem.2.2)
  · exact le_rfl
  · exact (nodup_ascending _).filter _

theorem sum_weightOf_le (s : Finset Txid) : ∑ t ∈ s, g.weightOf t ≤ g.liveWeight :=
  Map.sum_le_total s

theorem connectedWeightExcept_eq (small : g.liveWeight ≤ u64Max) :
    g.connectedWeightExcept seeds except = ((g.connectedExcept seeds except).card,
      ∑ t ∈ g.connectedExcept seeds except, g.weightOf t) := by
  have sums (l : List Txid) :
      (l.filterMap fun t => (g.get t).map (·.weight)).sum = (l.map g.weightOf).sum := by
    induction l with
    | nil => rfl
    | cons t l ih =>
      rw [List.filterMap_cons, List.map_cons, List.sum_cons, ← ih, weightOf]
      cases g.get t with
      | none => exact (zero_add _).symm
      | some e => rfl
  unfold connectedWeightExcept
  dsimp only
  rw [sums, sum_ascending, Nat.mod_eq_of_lt]
  · rfl
  · have bound := sum_weightOf_le (g := g) (g.connectedExcept seeds except)
    unfold u64Max at small
    unfold connectedExcept at bound
    dsimp only at bound
    omega

end TxGraph

namespace Tracked

def Bounded (s : Tracked) : Prop :=
  Within s.bodies.Edge s.graph.live s.graph.weightOf s.graph.clusterCountLimit
    (4 * s.graph.clusterVsizeLimit)

variable {s s' : Tracked}

theorem edge_mono (bodies : ∀ t tx, s'.bodies.lookup t = some tx → s.bodies.lookup t = some tx)
    {a b : Txid} (edge : s'.bodies.Edge a b) : s.bodies.Edge a b := by
  obtain ⟨op, ⟨tx, made, created⟩, tx', spender, spent⟩ := edge
  exact ⟨op, ⟨tx, bodies a tx made, created⟩, tx', bodies b tx' spender, spent⟩

theorem Bounded.of_fewer (bounded : s.Bounded) (limits : s'.graph.SameLimits s.graph)
    (bodies : ∀ t tx, s'.bodies.lookup t = some tx → s.bodies.lookup t = some tx)
    (entries : ∀ t e', s'.graph.get t = some e' → ∃ e, s.graph.get t = some e ∧
      e'.weight = e.weight) : s'.Bounded := by
  have live : ∀ t ∈ s'.graph.live, t ∈ s.graph.live ∧ s'.graph.weightOf t = s.graph.weightOf t := by
    intro t mem
    obtain ⟨e', found'⟩ := isSome_iff_exists.mp (mem_live.mp mem)
    obtain ⟨e, found, weight⟩ := entries t e' found'
    refine ⟨mem_live.mpr (by rw [contains, found]; rfl), ?_⟩
    rw [weightOf, weightOf, found, found']
    exact weight
  unfold Bounded
  rw [limits.clusterCountLimit, limits.clusterVsizeLimit]
  exact Within.mono bounded (fun t mem => (live t mem).1) (fun _ _ => edge_mono bodies)
    fun t mem => (live t mem).2

theorem Drops.bounded (drops : Drops s s') (bounded : s.Bounded) : s'.Bounded := by
  apply bounded.of_fewer drops.limits (fun _ _ => drops.body)
  intro t e' found
  obtain ⟨e, before, same⟩ := drops.entry found
  exact ⟨e, before, same.weight⟩

end Tracked

namespace Pool

variable {txidOf : Wtxid → Txid} {p q : Pool} {clock : Clock} {tx : Transaction}
  {prep : PreparedAdmit}

/-- What holds of a pool between calls: exact indexes, slots inside the table, one transaction for
each wtxid, and clusters within the limits. -/
structure Sound (txidOf : Wtxid → Txid) (p : Pool) : Prop where
  exact : p.graph.Exact p.bodies
  slots : ∀ t e, p.graph.get t = some e → e.slot < p.store.slots.length
  ids : ∀ t e, p.graph.get t = some e → txidOf e.wtxid = t
  bounded : p.tracked.Bounded

theorem Sound.shrinks (sound : p.Sound txidOf) (shrinks : p.Shrinks q) : q.Sound txidOf where
  exact := shrinks.drops.exact sound.exact
  slots t e found := by
    obtain ⟨e', before, same⟩ := shrinks.drops.entry found
    rw [same.slot]
    exact (sound.slots t e' before).trans_le shrinks.slots
  ids t e found := by
    obtain ⟨e', before, same⟩ := shrinks.drops.entry found
    rw [same.wtxid]
    exact sound.ids t e' before
  bounded := shrinks.drops.bounded sound.bounded

/-! ### What a commit inserts fits -/

/-- The live creators of the inputs and the live spenders of the outputs. -/
def kin (p : Pool) (tx : Transaction) (txid : Txid) : Finset Txid :=
  (tx.input.filterMap p.graph.creator ++
    (tx.outpoints txid).filterMap p.graph.conflictTxid).toFinset

/-- No live transaction spends an output, or all clusters that the transaction joins pass the check
of the parents' clusters. -/
def Fits (p : Pool) (tx : Transaction) (prep : PreparedAdmit) : Prop :=
  (tx.outpoints prep.txid).filterMap p.graph.conflictTxid = [] ∨
    (p.checkCluster prep (p.kin tx prep.txid) ∅).toOption = some ()

instance : Decidable (p.Fits tx prep) := inferInstanceAs (Decidable (_ ∨ _))

theorem checkCluster_ok {seeds except : Finset Txid}
    (small : p.graph.liveWeight + prep.weight + 3 ≤ u64Max)
    (ok : (p.checkCluster prep seeds except).toOption = some ()) :
    (p.graph.connectedExcept seeds except).card + 1 ≤ p.graph.clusterCountLimit ∧
      ∑ t ∈ p.graph.connectedExcept seeds except, p.graph.weightOf t + prep.weight ≤
        4 * p.graph.clusterVsizeLimit := by
  have bound := sum_weightOf_le (g := p.graph) (p.graph.connectedExcept seeds except)
  unfold checkCluster at ok
  rw [connectedWeightExcept_eq (by omega)] at ok
  dsimp only at ok
  split at ok
  · cases ok
  · next within =>
    obtain ⟨few, light⟩ := not_or.mp within
    rw [satAdd_eq, satAdd_eq] at light
    generalize u64Max = top at light small
    omega

section Insert

variable {scan : ConflictScan} {sibling : Option Txid} {set : Finset Txid} {slot : Nat} {mid : Pool}
  (sound : p.Sound txidOf) (planned : p.cleared.Planned clock tx prep scan sibling set)
  (before : p.Shrinks mid) (gone : ∀ t ∈ set, mid.graph.get t = none)
  (own : ∀ op ∈ tx.input, op.txid ≠ prep.txid) (hash : txidOf prep.wtxid = prep.txid)

/-- A neighbour of the new transaction among those that are left. -/
def Near (mid : Pool) (tx : Transaction) (txid n : Txid) : Prop :=
  (∃ op ∈ tx.input, mid.bodies.Creates n op) ∨ ∃ op ∈ tx.outpoints txid, mid.bodies.Spends n op

theorem Near.live {n : Txid} (exact : mid.graph.Exact mid.bodies)
    (near : mid.Near tx prep.txid n) : mid.graph.contains n = true := by
  rcases near with ⟨_, -, body, live, -⟩ | ⟨_, -, body, live, -⟩
  · rw [contains, exact.live, live]; rfl
  · rw [contains, exact.live, live]; rfl

include sound before in
theorem near_reaches {seeds except : Finset Txid}
    (seeded : ∀ n, mid.Near tx prep.txid n → n ∈ seeds)
    (gone : ∀ t ∈ except, mid.graph.get t = none) (n x : Txid) (near : mid.Near tx prep.txid n)
    (joined : Joined mid.bodies.Edge n x) : x ∈ p.graph.connectedExcept seeds except := by
  have exact := before.drops.exact sound.exact
  have out : ∀ t, (mid.bodies.lookup t).isSome = true → t ∉ except := by
    intro t live mem
    have same := exact.live t
    rw [show mid.tracked.graph.get t = none from gone t mem] at same
    cases same.trans live
  have live := near.live exact
  obtain ⟨e, here⟩ := isSome_iff_exists.mp live
  obtain ⟨e', before', -⟩ := before.drops.entry here
  refine mem_connectedExcept sound.exact (seeded n near) ?_ ?_ ?_ joined
  · rw [contains, show p.graph.get n = some e' from before']
    rfl
  · exact out n ((exact.live n).symm.trans live)
  · intro a b edge
    have edge' : p.bodies.Edge a b :=
      Tracked.edge_mono (s := p.tracked) (fun _ _ => before.drops.body) edge
    obtain ⟨op, ⟨tx', made, -⟩, tx'', spender, -⟩ := edge
    exact ⟨edge', out a (by rw [made]; rfl), out b (by rw [spender]; rfl)⟩

theorem Near.mem_kin {n : Txid} (exact : p.graph.Exact p.bodies) (before : p.Shrinks mid)
    (near : mid.Near tx prep.txid n) : n ∈ p.kin tx prep.txid := by
  unfold kin
  rw [List.mem_toFinset, List.mem_append, List.mem_filterMap, List.mem_filterMap]
  rcases near with ⟨op, mem, body, live, made⟩ | ⟨op, mem, body, live, spent⟩
  · exact Or.inl ⟨op, mem, creator_of_creates exact ⟨body, before.drops.body live, made⟩⟩
  · exact Or.inr ⟨op, mem, (exact.conflicts op n).mpr ⟨body, before.drops.body live, spent⟩⟩

include sound planned before gone in
theorem exists_reached (small : p.graph.liveWeight + prep.weight + 3 ≤ u64Max)
    (fits : p.Fits tx prep) :
    ∃ reached : Finset Txid,
      (∀ n x, mid.Near tx prep.txid n → Joined mid.bodies.Edge n x → x ∈ reached) ∧
      reached.card + 1 ≤ p.graph.clusterCountLimit ∧
      ∑ t ∈ reached, p.graph.weightOf t + prep.weight ≤ 4 * p.graph.clusterVsizeLimit := by
  rcases fits with childless | fit
  · -- only parents are near, and the plan has counted their clusters
    refine ⟨p.graph.connectedExcept scan.parentTxids set, ?_, ?_⟩
    · apply near_reaches sound before _ gone
      rintro n (⟨op, mem, body, live, made⟩ | ⟨op, mem, body, live, spent⟩)
      · obtain ⟨parents, -⟩ := scanConflictsAndParents_ok planned.scanned
        have creates : p.bodies.Creates n op := ⟨body, before.drops.body live, made⟩
        exact (parents n).mpr (Or.inr ⟨op, mem, creator_of_creates sound.exact creates⟩)
      · have conflict : p.graph.conflictTxid op = some n :=
          (sound.exact.conflicts op n).mpr ⟨body, before.drops.body live, spent⟩
        have child : n ∈ (tx.outpoints prep.txid).filterMap p.graph.conflictTxid :=
          List.mem_filterMap.mpr ⟨op, mem, conflict⟩
        rw [childless] at child
        cases child
    · apply checkCluster_ok small
      exact congrArg Except.toOption planned.cluster
  · refine ⟨p.graph.connectedExcept (p.kin tx prep.txid) ∅, ?_, checkCluster_ok small fit⟩
    apply near_reaches sound before
    · exact fun n near => near.mem_kin sound.exact before
    · intro t mem
      cases mem

theorem weightOf_le (before : p.Shrinks mid) (t : Txid) :
    mid.graph.weightOf t ≤ p.graph.weightOf t := by
  unfold weightOf
  cases found : mid.graph.get t with
  | none => exact Nat.zero_le _
  | some e =>
    obtain ⟨e', here, same⟩ := before.drops.entry found
    rw [show p.graph.get t = some e' from here]
    exact same.weight.le

include sound planned before gone own hash in
theorem insert_bounded (small : p.graph.liveWeight + prep.weight + 3 ≤ u64Max)
    (fits : p.Fits tx prep) :
    (mid.tracked.step (.insert (entryOf prep slot) tx)).Bounded := by
  have ok : mid.graph.Insertable (entryOf prep slot) tx :=
    insertable sound.exact sound.ids planned before gone own hash
  have limits : (mid.tracked.step (.insert (entryOf prep slot) tx)).graph.SameLimits mid.graph :=
    insert_limits
  have edges (a b : Txid) : Bodies.Edge (mid.bodies.insert prep.txid tx) a b ↔
      if a = prep.txid then
        b ≠ prep.txid ∧ ∃ op ∈ tx.outpoints prep.txid, mid.bodies.Spends b op
      else if b = prep.txid then ∃ op ∈ tx.input, mid.bodies.Creates a op
      else mid.bodies.Edge a b := edge_insert ok.others a b
  obtain ⟨reached, reaches, few, light⟩ := exists_reached sound planned before gone small fits
  have entries : ∀ x ∈ (mid.graph.insert (entryOf prep slot) tx).live,
      (x = prep.txid ∧ (mid.graph.insert (entryOf prep slot) tx).weightOf x = prep.weight) ∨
        x ∈ mid.graph.live ∧
          (mid.graph.insert (entryOf prep slot) tx).weightOf x = mid.graph.weightOf x := by
    intro x mem
    obtain ⟨e', found⟩ := isSome_iff_exists.mp (mem_live.mp mem)
    rw [weightOf, found]
    rcases insert_get_some found with ⟨root, same⟩ | ⟨e, here, same⟩
    · exact Or.inl ⟨root, same.weight⟩
    · refine Or.inr ⟨mem_live.mpr (by rw [contains, here]; rfl), ?_⟩
      rw [weightOf, here]
      exact same.weight
  have bounded : mid.tracked.Bounded := before.drops.bounded sound.bounded
  have sum : ∑ t ∈ reached, mid.graph.weightOf t ≤ ∑ t ∈ reached, p.graph.weightOf t :=
    sum_le_sum fun t _ => weightOf_le before t
  have new : (mid.graph.insert (entryOf prep slot) tx).weightOf prep.txid ≤ prep.weight := by
    by_cases live : prep.txid ∈ (mid.graph.insert (entryOf prep slot) tx).live
    · rcases entries _ live with ⟨-, same⟩ | ⟨old, -⟩
      · exact same.le
      · rw [mem_live, contains, show mid.graph.get prep.txid = none from ok.fresh] at old
        cases old
    · unfold weightOf
      rw [not_isSome_iff_eq_none.mp (fun some' => live (mem_live.mpr some'))]
      exact Nat.zero_le _
  unfold Tracked.Bounded
  rw [limits.clusterCountLimit, limits.clusterVsizeLimit]
  refine Within.add (v := prep.txid) bounded ?_ ?_ ?_ ?_
    (fun n x near path _ => reaches n x near path) ?_ ?_
  · intro a b ha hb edge
    have edge' := (edges a b).mp edge
    rwa [if_neg ha, if_neg hb] at edge'
  · intro b hb touch
    rcases touch with out | into
    · have edge' := (edges _ b).mp out
      rw [if_pos rfl] at edge'
      exact Or.inr edge'.2
    · have edge' := (edges b _).mp into
      rw [if_neg hb, if_pos rfl] at edge'
      exact Or.inl edge'
  · intro x mem
    rcases entries x mem with ⟨root, -⟩ | ⟨old, -⟩
    · exact root ▸ mem_insert_self ..
    · exact mem_insert_of_mem old
  · intro x mem other
    rcases entries x mem with ⟨root, -⟩ | ⟨-, same⟩
    · exact absurd root other
    · exact same
  · rw [show mid.graph.clusterCountLimit = p.graph.clusterCountLimit from
      before.drops.limits.clusterCountLimit]
    exact few
  · rw [show mid.graph.clusterVsizeLimit = p.graph.clusterVsizeLimit from
      before.drops.limits.clusterVsizeLimit]
    exact (add_le_add sum new).trans light

end Insert

/-- What hashing, 64-bit weights and the other parts of the pool give. -/
def Sane (txidOf : Wtxid → Txid) (p : Pool) : PoolCall → Prop
  | .commit _ tx prep _ => txidOf prep.wtxid = prep.txid ∧ (∀ op ∈ tx.input, op.txid ≠ prep.txid) ∧
      p.graph.liveWeight + prep.weight + 3 ≤ u64Max
  | .unlink _ => True
  | .outside q => p.Kept q ∧ ∀ t e, q.graph.get t = some e → e.slot < q.store.slots.length

/-- No write of a commit fails, and the transaction fits with its live children. -/
def Roomy (p : Pool) : PoolCall → Prop
  | .commit _ tx prep _ => (∀ ok ∈ p.store.io, ok = true) ∧ p.Fits tx prep
  | _ => True

theorem call_sound {c : PoolCall} (sound : p.Sound txidOf) (sane : p.Sane txidOf c)
    (roomy : p.Roomy c) : (p.call c).Sound txidOf := by
  cases c with
  | unlink t => exact sound.shrinks (p.unlinkTxid_unlinks t).toShrinks
  | outside q =>
    obtain ⟨kept, slots⟩ := sane
    refine ⟨kept.exact sound.exact, slots, ?_, ?_⟩
    · intro t e found
      obtain ⟨e', before, wtxid, -⟩ := kept.entry t e found
      rw [wtxid]
      exact sound.ids t e' before
    · apply sound.bounded.of_fewer kept.limits
      · intro t tx found
        exact (congrArg (Finmap.lookup t) kept.bodies).symm.trans found
      · intro t e' found
        obtain ⟨e, before, -, -, weight, -⟩ := kept.entry t e' found
        exact ⟨e, before, weight⟩
  | commit clock tx prep trim =>
    obtain ⟨hash, own, small⟩ := sane
    obtain ⟨io, fits⟩ := roomy
    obtain ⟨-, -, shrinks⟩ | ⟨scan, sibling, set, slot, mid, planned, inserted, -⟩ :=
      p.finishCommit_cases clock tx prep trim
    · exact sound.shrinks shrinks
    · have before := (p.replaced_shrinks set).trans inserted.before
      have gone : ∀ t ∈ set, mid.graph.get t = none := fun t mem =>
        inserted.before.drops.gone (replaced_gone sound.exact sound.slots io mem)
      have midSound := sound.shrinks before
      have ok : mid.graph.Insertable (entryOf prep slot) tx :=
        insertable sound.exact sound.ids planned before gone own hash
      have bounded : (mid.tracked.step (.insert (entryOf prep slot) tx)).Bounded :=
        insert_bounded sound planned before gone own hash small fits
      refine ⟨inserted.after.exact (midSound.exact.insert ok), ?_, ?_,
        inserted.after.bounded bounded⟩
      · intro t e found
        obtain ⟨e', here, same⟩ := inserted.after.entry found
        rw [same.slot]
        rcases insert_get_some here with ⟨-, new⟩ | ⟨n, old, same'⟩
        · rw [new.slot]
          exact inserted.slot
        · rw [same'.slot]
          exact (midSound.slots t n old).trans_le inserted.slots
      · intro t e found
        obtain ⟨e', here, same⟩ := inserted.after.entry found
        rw [same.wtxid]
        rcases insert_get_some here with ⟨root, new⟩ | ⟨n, old, same'⟩
        · rw [new.wtxid, root]
          exact hash
        · rw [same'.wtxid]
          exact midSound.ids t n old

theorem Sound.of_none (exact : p.graph.Exact p.bodies) (none : ∀ t, p.graph.get t = none) :
    p.Sound txidOf := by
  refine ⟨exact, ?_, ?_, ?_⟩
  · intro t e found
    cases (none t).symm.trans found
  · intro t e found
    cases (none t).symm.trans found
  · intro t mem
    have live := mem_live.mp mem
    rw [contains, show p.tracked.graph.get t = Option.none from none t] at live
    cases live

/-- In every run whose transactions fit with their live children, each connected component of the
live spend graph is within the limits. -/
theorem cluster_limits (txidOf : Wtxid → Txid) (clusterCountLimit clusterVsizeLimit bytesPerSigop
      slots maxWeight minRelaySatKvb : Nat) (calls : List PoolCall)
    (all : Run.AllMeet call (fun p c => p.Sane txidOf c ∧ p.Roomy c)
      (fresh clusterCountLimit clusterVsizeLimit bytesPerSigop slots maxWeight minRelaySatKvb)
      calls) :
    let p := (fresh clusterCountLimit clusterVsizeLimit bytesPerSigop slots maxWeight
      minRelaySatKvb).run calls
    ∀ t ∈ p.graph.live, (component p.bodies.Edge p.graph.live t).card ≤ clusterCountLimit ∧
      (∑ x ∈ component p.bodies.Edge p.graph.live t, p.graph.weightOf x + 3) / 4 ≤
        clusterVsizeLimit := by
  intro p t mem
  generalize begin : fresh clusterCountLimit clusterVsizeLimit bytesPerSigop slots maxWeight
    minRelaySatKvb = p₀ at all
  have kept : p.Sound txidOf ∧ p.graph.SameLimits p₀.graph := by
    have run : p = p₀.run calls := by rw [← begin]
    rw [run]
    refine all.invariant (fun q => q.Sound txidOf ∧ q.graph.SameLimits p₀.graph) ?_ ?_
    · rintro q c ⟨sound, limits⟩ ⟨sane, roomy⟩
      have kept : ∀ q', c = .outside q' → q.Kept q' := by
        rintro q' rfl
        exact sane.1
      exact ⟨call_sound sound sane roomy, (call_limits kept).trans limits⟩
    · rw [← begin]
      exact ⟨.of_none (fresh_exact ..) fun _ => fresh_get .., .refl _⟩
  obtain ⟨sound, limits⟩ := kept
  obtain ⟨few, light⟩ := sound.bounded t mem
  have count : p.graph.clusterCountLimit = clusterCountLimit := by
    rw [limits.clusterCountLimit, ← begin]
    rfl
  have size : p.graph.clusterVsizeLimit = clusterVsizeLimit := by
    rw [limits.clusterVsizeLimit, ← begin]
    rfl
  refine ⟨few.trans count.le, ?_⟩
  have heavy : ∑ x ∈ component p.bodies.Edge p.graph.live t, p.graph.weightOf x ≤
      4 * p.graph.clusterVsizeLimit := light
  omega

/-- A parent and its child, under a limit of two. -/
theorem cluster_limits_pair :
    let p := (fresh 2 101000 20 4 300000000 100).run
      [payment 1 ⟨100, 0⟩ 1000 400, payment 2 ⟨1, 0⟩ 1000 400]
    ∀ t ∈ p.graph.live, (component p.bodies.Edge p.graph.live t).card ≤ 2 ∧
      (∑ x ∈ component p.bodies.Edge p.graph.live t, p.graph.weightOf x + 3) / 4 ≤ 101000 := by
  apply cluster_limits (· - 10)
  exact ⟨⟨⟨rfl, by decide, by decide +kernel⟩, by decide +kernel, by decide +kernel⟩,
    ⟨⟨rfl, by decide, by decide +kernel⟩, by decide +kernel, by decide +kernel⟩, trivial⟩

/-- Two transactions spend outputs of a confirmed one, whose block is disconnected; accepted again,
it joins them, and the cluster of three passes a limit of two. -/
theorem cluster_limits_disconnect :
    let p₀ := fresh 2 101000 20 4 300000000 100
    let calls := [payment 2 ⟨1, 0⟩ 1000 400, payment 3 ⟨1, 1⟩ 1000 400, payment 1 ⟨100, 0⟩ 1000 400]
    let p := p₀.run calls
    Run.AllMeet call (Sane (· - 10)) p₀ calls ∧ p₀.store.io = [] ∧
      1 ∈ p.graph.live ∧ 2 < (component p.bodies.Edge p.graph.live 1).card := by
  intro p₀ calls p
  have live : ∀ t ∈ ({1, 2, 3} : Finset Txid), t ∈ p.graph.live := by decide +kernel
  have first : p.bodies.Edge 1 2 :=
    Bodies.edge_of_eval ⟨1, 0⟩ (by decide +kernel) (by decide +kernel)
  have second : p.bodies.Edge 1 3 :=
    Bodies.edge_of_eval ⟨1, 1⟩ (by decide +kernel) (by decide +kernel)
  have three : ({1, 2, 3} : Finset Txid) ⊆ component p.bodies.Edge p.graph.live 1 := by
    intro t mem
    refine mem_component.mpr ⟨live t mem, ?_⟩
    rw [mem_insert, mem_insert, mem_singleton] at mem
    rcases mem with rfl | rfl | rfl
    · exact .refl
    · exact .single (Or.inl first)
    · exact .single (Or.inl second)
  refine ⟨?_, rfl, live 1 (by decide), card_le_card three⟩
  exact ⟨⟨rfl, by decide, by decide +kernel⟩, ⟨rfl, by decide, by decide +kernel⟩,
    ⟨rfl, by decide, by decide +kernel⟩, trivial⟩

end Pool

end Rbitcoin.Mempool
