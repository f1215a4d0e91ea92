import Mathlib.Algebra.Order.BigOperators.Group.Finset
import Rbitcoin.Lib.Gather
import Rbitcoin.Mempool.FeeDiagram
import Rbitcoin.Mempool.WorstChunks

/-! The choice of the transactions of a block template. Chunks are tried in the order of their
modified fee rates; each brings its ancestors that are not chosen yet, and is left out as a whole
when it is too cheap, too large or holds a skipped transaction. -/

namespace Rbitcoin.Mempool

open Ordered Tracked List

/-- A stable sort by rate and then fee, both downwards. -/
def sortBestFirst {α : Type} (key : α → Nat ×ₗ Nat) (l : List α) : List α :=
  l.insertionSort fun a b => key b ≤ key a

def Chunk.score (c : Chunk) : Nat ×ₗ Nat := toLex (c.feeRateSatPerKvb, c.feeSat)

variable (g : TxGraph) (keys : List Txid)

/-- What the hash map of the entries is walked in is not known: `keys` is its order. -/
def TxGraph.buildChunks : List Chunk :=
  let (_, chunks) := keys.foldl (fun (seen, chunks) txid =>
    if txid ∈ seen then (seen, chunks)
    else
      match g.clusterOf txid with
      | none => (seen, chunks)
      | some c => (seen ∪ c.members, chunks ++ c.chunks)) ((∅ : Finset Txid), [])
  sortBestFirst Chunk.score chunks

def TxGraph.miningChunksBestFirst : TxGraph × List Chunk :=
  match g.chunkCache with
  | some chunks => (g, chunks)
  | none =>
    let chunks := g.buildChunks keys
    ({ g with chunkCache := some chunks }, chunks)

/-- The components of transactions with a delta, taken from the back of the list. -/
def TxGraph.touchedClusters (pending : List Txid) : Finset Txid × List (Finset Txid × Nat) :=
  pending.reverse.foldl (fun (touched, clusters) id =>
    if id ∈ touched then (touched, clusters)
    else
      match g.componentMembers id with
      | none => (touched, clusters)
      | some (members, weight) => (touched ∪ members, clusters ++ [(members, weight)])) (∅, [])

def TxGraph.miningChunksForDelta (delta : Txid → Int) : TxGraph × List Chunk :=
  let pending := keys.filter fun id => delta id ≠ 0
  if pending.isEmpty then g.miningChunksBestFirst keys
  else
    let (touched, clusters) := g.touchedClusters pending
    let (g, cached) := g.miningChunksBestFirst keys
    let chunks := cached.filter (fun ch => ch.txids.all (· ∉ touched)) ++
      clusters.flatMap fun (members, weight) => (g.clusterFromMembers members weight delta).chunks
    (g, sortBestFirst Chunk.score chunks)

/-- What a template may hold and the least rate it takes. -/
structure SelectBudget where
  maxWeightWu : Nat
  reservedSigops : Nat
  minSatKvb : Nat

structure Selected where
  txid : Txid
  feeSat : Nat
  sigopCost : Nat
  deriving DecidableEq, Repr

/-- `i128` has room for the product on the right. -/
def meetsBlockMinFeerate (modifiedSat : Int) (adjWeightWu minSatKvb : Nat) : Bool :=
  if minSatKvb = 0 then true
  else (minSatKvb * vbytesCeil adjWeightWu : Int) ≤ clampI128 (modifiedSat * 1000)

/-- What has been chosen, with the weight and the sigop cost that it takes. -/
structure Picking where
  selected : Finset Txid
  out : List Selected
  used : Nat
  sigops : Nat

namespace TxGraph

variable (g : TxGraph)

def liveParents (t : Txid) : List Txid := (g.parentsOf t).filter g.contains

/-- Ancestors first. Each call below is for a live transaction that is not chosen, so there are no
more of them at a time than there are live transactions. -/
def collectSelectedWithAncestors (txid : Txid) (already : Finset Txid) (out : List Txid) :
    Option (List Txid) :=
  Gather.collect g.liveParents already (g.live.card + 1) txid out

def feeUnder (delta : Txid → Int) (t : Txid) : Int :=
  ((g.get t).map fun e => (e.feeSat : Int)).getD 0 + delta t

def chunkModifiedFee (delta : Txid → Int) (ch : Chunk) : Int :=
  ch.txids.foldl (fun mf t => clampI128 (mf + clampI128 (g.feeUnder delta t))) 0

/-- The chunks that are rich enough, best first. -/
def scoredChunks (budget : SelectBudget) (delta : Txid → Int) (chunks : List Chunk) : List Chunk :=
  let scored := chunks.filterMap fun ch =>
    let mf := g.chunkModifiedFee delta ch
    if mf < 0 ∨ ¬meetsBlockMinFeerate mf ch.weight budget.minSatKvb then none
    else
      let fee := mf.toNat % 2 ^ 64
      some (toLex (feeRateSatPerKvb fee ch.weight, fee), ch)
  (sortBestFirst Prod.fst scored).map Prod.snd

def growth (add : List Txid) : Nat × Nat :=
  (add.filterMap g.get).foldl (fun (w, s) e => (satAdd w e.weight, satAdd s e.sigopCost)) (0, 0)

def selectedOf (t : Txid) : Option Selected := (g.get t).map fun e => ⟨t, e.feeSat, e.sigopCost⟩

/-- One chunk, with the ancestors that it needs, goes in or is left out. -/
def pickChunk (budget : SelectBudget) (skip : Txid → Bool) (st : Picking) (ch : Chunk) :
    Option Picking :=
  if ch.txids.any skip then some st
  else do
    let add ← ch.txids.foldlM (fun add t => g.collectSelectedWithAncestors t st.selected add) []
    if add.isEmpty || add.any skip then some st
    else
      let (extraW, extraSigops) := g.growth add
      if budget.maxWeightWu < satAdd st.used extraW ∨
          maxBlockSigopsCost < satAdd st.sigops extraSigops then some st
      else
        some ⟨st.selected ∪ add.toFinset, st.out ++ add.filterMap g.selectedOf,
          satAdd st.used extraW, satAdd st.sigops extraSigops⟩

/-- `none` when the search for ancestors does not return. -/
def selectBlockTemplate (keys : List Txid) (budget : SelectBudget) (delta : Txid → Int)
    (skip : Txid → Bool) : TxGraph × Option (List Selected) :=
  if budget.maxWeightWu = 0 then (g, some [])
  else
    let (g, chunks) := g.miningChunksForDelta keys delta
    (g, ((g.scoredChunks budget delta chunks).foldlM (g.pickChunk budget skip)
      ⟨∅, [], 0, budget.reservedSigops⟩).map (·.out))

/-! ### What is selected -/

/-- A live parent is below its child in some order. Ids are hashes of what is spent, so no live
transaction is its own ancestor. -/
def Grounded : Prop :=
  ∃ rank : Txid → Nat, ∀ t, ∀ p ∈ g.liveParents t, rank p < rank t

variable {g} {bodies : Bodies} {budget : SelectBudget} {delta : Txid → Int} {skip : Txid → Bool}
  {st : Picking} {t p : Txid}

theorem Exact.grounded (exact : g.Exact bodies) (rank : Txid → Nat)
    (hashes : ∀ t tx, bodies.lookup t = some tx → ∀ op ∈ tx.input, rank op.txid < rank t) :
    g.Grounded := by
  refine ⟨rank, fun t p mem => ?_⟩
  obtain ⟨op, creates, tx, body, spent⟩ := (exact.parents p t).mp (mem_of_mem_filter mem)
  rw [← creates.txid]
  exact hashes t tx body op spent

section

variable (add : List Txid)

theorem growth_eq : g.growth add = (min ((add.filterMap g.get).map (·.weight)).sum u64Max,
      min ((add.filterMap g.get).map (·.sigopCost)).sum u64Max) := by
  have fold (l : List TxEntry) (w s : Nat) :
      l.foldl (fun (w, s) e => (satAdd w e.weight, satAdd s e.sigopCost))
          (min w u64Max, min s u64Max) =
        (min (w + (l.map (·.weight)).sum) u64Max, min (s + (l.map (·.sigopCost)).sum) u64Max) := by
    induction l generalizing w s with
    | nil => rfl
    | cons e l ih =>
      have step (a b : Nat) : satAdd (min a u64Max) b = min (a + b) u64Max := by
        rw [satAdd_eq]
        omega
      simp [step, ih, add_assoc]
  have whole := fold (add.filterMap g.get) 0 0
  simpa [growth] using whole

theorem map_txid_selectedOf :
    (add.filterMap g.selectedOf).map (·.txid) = add.filter g.contains := by
  induction add with
  | nil => rfl
  | cons t add ih =>
    cases found : g.get t with
    | none => simp [selectedOf, contains, found, ← ih]
    | some e => simp [selectedOf, contains, found, ← ih]

theorem sum_selectedOf : ((add.filterMap g.selectedOf).map fun s => g.weightOf s.txid).sum =
        ((add.filterMap g.get).map (·.weight)).sum ∧
      ((add.filterMap g.selectedOf).map (·.sigopCost)).sum =
        ((add.filterMap g.get).map (·.sigopCost)).sum := by
  induction add with
  | nil => exact ⟨rfl, rfl⟩
  | cons t add ih =>
    cases found : g.get t with
    | none => simpa [selectedOf, found] using ih
    | some e => simpa [selectedOf, found, weightOf] using ih

end

/-- What holds of the choice after each chunk. -/
structure Sound (g : TxGraph) (budget : SelectBudget) (skip : Txid → Bool) (st : Picking) :
    Prop where
  listed : Gather.Listed g.liveParents ∅ (st.out.map (·.txid))
  mem : ∀ t, t ∈ st.out.map (·.txid) ↔ t ∈ st.selected ∧ g.contains t = true
  used : st.used = (st.out.map fun s => g.weightOf s.txid).sum
  light : st.used ≤ budget.maxWeightWu
  sigops : st.sigops = budget.reservedSigops + (st.out.map (·.sigopCost)).sum
  cheap : st.out = [] ∨ st.sigops ≤ maxBlockSigopsCost
  entry : ∀ s ∈ st.out, g.selectedOf s.txid = some s
  kept : ∀ s ∈ st.out, skip s.txid = false

theorem sound_start : g.Sound budget skip ⟨∅, [], 0, budget.reservedSigops⟩ where
  listed := Gather.listed_nil
  mem := by simp
  used := rfl
  light := Nat.zero_le _
  sigops := rfl
  cheap := Or.inl rfl
  entry := nofun
  kept := nofun

theorem exists_add (grounded : g.Grounded) (already : Finset Txid) (txids : List Txid) :
    ∃ add, txids.foldlM (fun add t => g.collectSelectedWithAncestors t already add) [] = some add ∧
      Gather.Listed g.liveParents already add := by
  obtain ⟨rank, below⟩ := grounded
  have lower : ∀ t, ∀ p ∈ g.liveParents t, p ∈ g.live ∧ rank p < rank t := fun t p hp =>
    ⟨mem_live.mpr (of_mem_filter hp), below t p hp⟩
  have nothing : Gather.Listed g.liveParents already [] := Gather.listed_nil
  obtain ⟨add, walked, got⟩ := Gather.foldlM_collect rank txids nothing fun t _ out listed =>
    Gather.exists_collect lower (Nat.lt_succ_of_le (Finset.card_filter_le g.live _)) listed
  exact ⟨add, walked, got.listed⟩

theorem Sound.add (sound : g.Sound budget skip st) (small : budget.maxWeightWu < u64Max)
    {add : List Txid} (listed : Gather.Listed g.liveParents st.selected add)
    (kept : add.any skip = false)
    (light : satAdd st.used (g.growth add).1 ≤ budget.maxWeightWu)
    (cheap : satAdd st.sigops (g.growth add).2 ≤ maxBlockSigopsCost) :
    g.Sound budget skip ⟨st.selected ∪ add.toFinset, st.out ++ add.filterMap g.selectedOf,
      satAdd st.used (g.growth add).1, satAdd st.sigops (g.growth add).2⟩ := by
  obtain ⟨weights, costs⟩ := sum_selectedOf (g := g) add
  have block : maxBlockSigopsCost < u64Max := by decide
  have ids : (st.out ++ add.filterMap g.selectedOf).map (·.txid) =
      st.out.map (·.txid) ++ add.filter g.contains := by
    rw [map_append, map_txid_selectedOf]
  have grown (a b limit : Nat) (room : limit < u64Max) (fits : satAdd a (min b u64Max) ≤ limit) :
      satAdd a (min b u64Max) = a + b := by
    rw [satAdd_eq] at fits ⊢
    omega
  have new : ∀ s ∈ add.filterMap g.selectedOf, ∃ t ∈ add, g.selectedOf t = some s ∧ s.txid = t := by
    intro s mem
    obtain ⟨t, listed, chosen⟩ := mem_filterMap.mp mem
    obtain ⟨e, -, rfl⟩ := Option.map_eq_some_iff.mp chosen
    exact ⟨t, listed, chosen, rfl⟩
  rw [growth_eq] at light cheap ⊢
  constructor
  · rw [ids]
    refine sound.listed.append_filter listed sound.mem fun t p mem => of_mem_filter mem
  · intro t
    rw [ids, mem_append, sound.mem, mem_filter, Finset.mem_union, mem_toFinset]
    tauto
  · rw [grown _ _ _ small light, map_append, sum_append, weights, sound.used]
  · exact light
  · rw [grown _ _ _ block cheap, map_append, sum_append, costs, sound.sigops, add_assoc]
  · exact Or.inr cheap
  · intro s mem
    rcases mem_append.mp mem with old | added
    · exact sound.entry s old
    · obtain ⟨t, -, chosen, rfl⟩ := new s added
      exact chosen
  · intro s mem
    rcases mem_append.mp mem with old | added
    · exact sound.kept s old
    · obtain ⟨t, listed, -, rfl⟩ := new s added
      exact any_eq_false.mp kept _ listed |> eq_false_of_ne_true

theorem Sound.pickChunk (sound : g.Sound budget skip st) (grounded : g.Grounded)
    (small : budget.maxWeightWu < u64Max) (ch : Chunk) :
    ∃ st', g.pickChunk budget skip st ch = some st' ∧ g.Sound budget skip st' := by
  unfold TxGraph.pickChunk
  by_cases skipped : ch.txids.any skip = true
  · exact ⟨st, if_pos skipped, sound⟩
  obtain ⟨add, walked, listed⟩ := exists_add grounded st.selected ch.txids
  rw [if_neg skipped, walked]
  by_cases nothing : (add.isEmpty || add.any skip) = true
  · exact ⟨st, if_pos nothing, sound⟩
  have kept : add.any skip = false := by
    rw [Bool.not_eq_true, Bool.or_eq_false_iff] at nothing
    exact nothing.2
  by_cases large : budget.maxWeightWu < satAdd st.used (g.growth add).1 ∨
      maxBlockSigopsCost < satAdd st.sigops (g.growth add).2
  · exact ⟨st, (if_neg nothing).trans (if_pos large), sound⟩
  · obtain ⟨light, cheap⟩ := not_or.mp large
    exact ⟨_, (if_neg nothing).trans (if_neg large),
      sound.add small listed kept (not_lt.mp light) (not_lt.mp cheap)⟩

theorem Sound.pickChunks (sound : g.Sound budget skip st) (grounded : g.Grounded)
    (small : budget.maxWeightWu < u64Max) (chunks : List Chunk) :
    ∃ st', chunks.foldlM (g.pickChunk budget skip) st = some st' ∧ g.Sound budget skip st' := by
  induction chunks generalizing st with
  | nil => exact ⟨st, rfl, sound⟩
  | cons ch chunks ih =>
    obtain ⟨mid, first, sound⟩ := sound.pickChunk grounded small ch
    obtain ⟨st', rest, sound⟩ := ih sound
    refine ⟨st', ?_, sound⟩
    rw [foldlM_cons, first]
    exact rest

theorem miningChunksBestFirst_graph (g : TxGraph) (keys : List Txid) :
    ∃ cache, (g.miningChunksBestFirst keys).1 = { g with chunkCache := cache } := by
  unfold miningChunksBestFirst
  split
  · exact ⟨g.chunkCache, rfl⟩
  · exact ⟨some (g.buildChunks keys), rfl⟩

theorem miningChunksForDelta_graph (g : TxGraph) (keys : List Txid) (delta : Txid → Int) :
    (g.miningChunksForDelta keys delta).1 = (g.miningChunksBestFirst keys).1 := by
  unfold miningChunksForDelta
  dsimp only
  split <;> rfl

theorem Sound.of_cache {cache : Option (List Chunk)}
    (sound : ({ g with chunkCache := cache } : TxGraph).Sound budget skip st) :
    g.Sound budget skip st :=
  { sound with }

theorem exists_selected (grounded : g.Grounded) (small : budget.maxWeightWu < u64Max)
    (nonzero : budget.maxWeightWu ≠ 0) (keys : List Txid) :
    ∃ st, (g.selectBlockTemplate keys budget delta skip).2 = some st.out ∧
      g.Sound budget skip st := by
  obtain ⟨cache, same⟩ := g.miningChunksBestFirst_graph keys
  rw [← g.miningChunksForDelta_graph keys delta] at same
  have grounded' : (g.miningChunksForDelta keys delta).1.Grounded := by
    rw [same]
    exact grounded
  have start : (g.miningChunksForDelta keys delta).1.Sound budget skip
      ⟨∅, [], 0, budget.reservedSigops⟩ := sound_start
  obtain ⟨st, picked, sound⟩ := start.pickChunks grounded' small
    ((g.miningChunksForDelta keys delta).1.scoredChunks budget delta
      (g.miningChunksForDelta keys delta).2)
  rw [same] at sound
  refine ⟨st, ?_, sound.of_cache⟩
  rw [selectBlockTemplate, if_neg nonzero]
  dsimp only
  rw [picked]
  rfl

/-- A template has every transaction once, after its parents, within the weight and the sigop cost
that are left, and none that is skipped. Nothing fits beside a reserve above the limit. -/
theorem selectBlockTemplate_fits (g : TxGraph) (grounded : g.Grounded) (keys : List Txid)
    (budget : SelectBudget) (small : budget.maxWeightWu < u64Max) (delta : Txid → Int)
    (skip : Txid → Bool) :
    ∃ l, (g.selectBlockTemplate keys budget delta skip).2 = some l ∧ (l.map (·.txid)).Nodup ∧
      (∀ before t after, l.map (·.txid) = before ++ t :: after →
        ∀ p ∈ g.parentsOf t, g.contains p = true → p ∈ before) ∧
      (l.map fun s => g.weightOf s.txid).sum ≤ budget.maxWeightWu ∧
      (∀ s ∈ l, g.selectedOf s.txid = some s) ∧
      (if budget.reservedSigops ≤ maxBlockSigopsCost then
        budget.reservedSigops + (l.map (·.sigopCost)).sum ≤ maxBlockSigopsCost
      else l = []) ∧
      ∀ s ∈ l, skip s.txid = false := by
  by_cases zero : budget.maxWeightWu = 0
  · refine ⟨[], by rw [selectBlockTemplate, if_pos zero], nodup_nil, by simp, Nat.zero_le _,
      nofun, ?_, nofun⟩
    split
    · next reserve => exact reserve
    · rfl
  obtain ⟨st, selected, sound⟩ := exists_selected grounded small zero keys
  refine ⟨st.out, selected, sound.listed.nodup, ?_, sound.used ▸ sound.light, sound.entry, ?_,
    sound.kept⟩
  · intro before t after eq p parent live
    exact (sound.listed.needed before t after eq p (mem_filter.mpr ⟨parent, live⟩)).resolve_left
      (Finset.notMem_empty p)
  · have cost := sound.sigops
    rcases sound.cheap with empty | cheap
    · rw [empty]
      split
      · next reserve => exact reserve
      · rfl
    · rw [if_pos (by omega), ← cost]
      exact cheap

def pair : Tracked :=
  (Tracked.start 64 101000 20 400).run
    [Tracked.inserted 1 600 [⟨9, 0⟩], Tracked.inserted 2 400 [⟨1, 0⟩]]

theorem pair_grounded : pair.graph.Grounded := by
  have allowed : Tracked.AllAllowed (start 64 101000 20 400)
      [inserted 1 600 [⟨9, 0⟩], inserted 2 400 [⟨1, 0⟩]] :=
    allAllowed_of_canRun (start_exact ..) (by decide +kernel)
  obtain ⟨exact, -⟩ := run_exact (start_exact ..) allowed
  refine exact.grounded (fun t => if t = 9 then 0 else t) fun t tx body => ?_
  have inputs : ∀ t ∈ ascending pair.bodies.keys, ∀ tx ∈ pair.bodies.lookup t, ∀ op ∈ tx.input,
      (if op.txid = 9 then 0 else op.txid) < if t = 9 then 0 else t := by decide +kernel
  have mem : t ∈ pair.bodies.keys := Finmap.mem_keys.mpr (Finmap.mem_of_lookup_eq_some body)
  exact inputs t ((mem_ascending _).mpr mem) tx body

theorem pair_selected :
    ∃ l, (pair.graph.selectBlockTemplate [2, 1] ⟨3992000, 400, 0⟩ (fun _ => 0)
        fun _ => false).2 = some l ∧
      (l.map (·.txid)).Nodup ∧ 400 + (l.map (·.sigopCost)).sum ≤ maxBlockSigopsCost := by
  obtain ⟨l, selected, nodup, -, -, -, cost, -⟩ := pair.graph.selectBlockTemplate_fits pair_grounded
    [2, 1] ⟨3992000, 400, 0⟩ (by decide) (fun _ => 0) fun _ => false
  exact ⟨l, selected, nodup, by rwa [if_pos (by decide)] at cost⟩

/-- A reserve above the limit is above it with nothing selected. -/
theorem selectBlockTemplate_reserve :
    (new.selectBlockTemplate [] ⟨3992000, 80001, 0⟩ (fun _ => 0) fun _ => false).2 = some [] ∧
      ¬80001 + (([] : List Selected).map (·.sigopCost)).sum ≤ maxBlockSigopsCost := by
  decide +kernel

/-! ### The chunks -/

/-- The chunk is one of a cluster, with the deltas on the fees. -/
def FromCluster (g : TxGraph) (delta : Txid → Int) (ch : Chunk) : Prop :=
  ∃ t c, g.clusterUnder delta t = some c ∧ ch ∈ c.chunks

/-- The cached chunks are those of clusters, without deltas. -/
def Cached (g : TxGraph) : Prop :=
  ∀ chunks, g.chunkCache = some chunks → ∀ ch ∈ chunks, g.FromCluster (fun _ => 0) ch

theorem fromCluster_buildChunks (keys : List Txid) :
    ∀ ch ∈ g.buildChunks keys, g.FromCluster (fun _ => 0) ch := by
  intro ch mem
  have listed := (perm_insertionSort ..).mem_iff.mp mem
  refine foldlRecOn (motive := fun st : Finset Txid × List Chunk =>
    ∀ ch ∈ st.2, g.FromCluster (fun _ => 0) ch) keys _ (forall_mem_nil _) (fun st kept t _ => ?_)
    ch listed
  obtain ⟨seen, chunks⟩ := st
  dsimp only
  split
  · exact kept
  · split
    · exact kept
    · next c cluster =>
      intro ch mem
      rcases mem_append.mp mem with old | new
      · exact kept ch old
      · exact ⟨t, c, cluster, new⟩

theorem fromCluster_miningChunks (cached : g.Cached) (keys : List Txid) :
    ∀ ch ∈ (g.miningChunksBestFirst keys).2, g.FromCluster (fun _ => 0) ch := by
  unfold miningChunksBestFirst
  split
  · next chunks held => exact cached chunks held
  · exact fromCluster_buildChunks keys

/-- What the search for the clusters of a list has found. -/
structure Gathered (g : TxGraph) (ids : List Txid) (st : Finset Txid × List (Finset Txid × Nat)) :
    Prop where
  covers : ∀ t ∈ ids, g.contains t = true → t ∈ st.1
  closed : ∀ a ∈ st.1, ∀ b, g.Near a b → b ∈ st.1
  clusters : ∀ c ∈ st.2, ∃ t, g.componentMembers t = some c

theorem gathered_touchedClusters (paired : g.Paired) (pending : List Txid) :
    g.Gathered pending (g.touchedClusters pending) := by
  induction pending with
  | nil => exact ⟨nofun, nofun, nofun⟩
  | cons t pending ih =>
    obtain ⟨covers, closed, clusters⟩ := ih
    rw [touchedClusters, reverse_cons, foldl_append, ← touchedClusters]
    generalize g.touchedClusters pending = st at covers closed clusters
    obtain ⟨touched, found⟩ := st
    dsimp only [foldl_cons, foldl_nil]
    split
    · next inside => exact ⟨forall_mem_cons.mpr ⟨fun _ => inside, covers⟩, closed, clusters⟩
    · split
      · next dead =>
        refine ⟨forall_mem_cons.mpr ⟨fun live => ?_, covers⟩, closed, clusters⟩
        rw [componentMembers_eq paired live] at dead
        cases dead
      · next members weight component =>
        have live : g.contains t = true := by
          by_contra dead
          rw [componentMembers, if_neg dead] at component
          cases component
        have whole := component
        rw [componentMembers_eq paired live, Option.some_inj, Prod.mk.injEq] at component
        obtain ⟨rfl, rfl⟩ := component
        refine ⟨forall_mem_cons.mpr ⟨fun _ => ?_, fun x mem live => ?_⟩, fun a mem b near => ?_, ?_⟩
        · exact Finset.mem_union_right _ ((mem_members live).mpr .refl)
        · exact Finset.mem_union_left _ (covers x mem live)
        · rcases Finset.mem_union.mp mem with old | new
          · exact Finset.mem_union_left _ (closed a old b near)
          · rw [mem_members live] at new
            exact Finset.mem_union_right _ ((mem_members live).mpr (new.trans near))
        · intro c mem
          rcases mem_append.mp mem with old | new
          · exact clusters c old
          · exact ⟨t, mem_singleton.mp new ▸ whole⟩

section Deltas

variable {rank : Txid → Nat} {touched : Finset Txid} (paired : g.Paired) (ascends : g.Ascends rank)
include paired ascends

/-- A chunk apart from every cluster with a delta is the same with the deltas. -/
theorem FromCluster.untouched {ch : Chunk} (without : g.FromCluster (fun _ => 0) ch)
    (covers : ∀ t, g.contains t = true → delta t ≠ 0 → t ∈ touched)
    (closed : ∀ a ∈ touched, ∀ b, g.Near a b → b ∈ touched)
    (apart : ∀ t ∈ ch.txids, t ∉ touched) : g.FromCluster delta ch := by
  obtain ⟨t, c, cluster, mem⟩ := without
  have live := live_of_clusterUnder cluster
  rw [clusterUnder_eq paired live, Option.some_inj] at cluster
  subst cluster
  have part := chunkOf_cluster ascends mem
  obtain ⟨x, rest, listed⟩ := exists_cons_of_ne_nil part.nonempty
  have here : x ∈ ch.txids := listed ▸ mem_cons_self
  have near : g.Near t x := (mem_members live).mp (part.inside x here)
  have deltas : ∀ y ∈ g.members t, delta y = 0 := by
    intro y mem
    have close : g.Near t y := (mem_members live).mp mem
    by_contra moved
    have inside := covers y (close.live paired live) moved
    exact apart x here (closed y inside x ((close.symm paired).trans near))
  refine ⟨t, _, clusterUnder_eq paired live delta, ?_⟩
  rwa [clusterFromMembers_congr (fun _ _ => rfl) rfl deltas ascends]

theorem fromCluster_of_mining (cached : g.Cached) {keys : List Txid}
    (whole : ∀ t, g.contains t = true → t ∈ keys) :
    ∀ ch ∈ (g.miningChunksForDelta keys delta).2, g.FromCluster delta ch := by
  have covers (t : Txid) (live : g.contains t = true) (moved : delta t ≠ 0) :
      t ∈ keys.filter fun id => delta id ≠ 0 :=
    mem_filter.mpr ⟨whole t live, decide_eq_true moved⟩
  have cache := fromCluster_miningChunks cached keys
  unfold miningChunksForDelta
  dsimp only
  split
  · next empty =>
    rw [isEmpty_iff.mp empty] at covers
    intro ch mem
    have none : ∀ t, g.contains t = true → delta t ≠ 0 → t ∈ (∅ : Finset Txid) := by
      intro t live moved
      cases covers t live moved
    exact (cache ch mem).untouched paired ascends none nofun fun _ _ => Finset.notMem_empty _
  · obtain ⟨covered, closed, clusters⟩ :=
      gathered_touchedClusters paired (keys.filter fun id => delta id ≠ 0)
    intro ch mem
    rcases mem_append.mp ((perm_insertionSort ..).mem_iff.mp mem) with old | new
    · obtain ⟨listed, apart⟩ := mem_filter.mp old
      refine (cache ch listed).untouched paired ascends ?_ closed ?_
      · exact fun t live moved => covered t (covers t live moved) live
      · exact fun t mem => of_decide_eq_true (all_eq_true.mp apart t mem)
    · obtain ⟨⟨members, weight⟩, found, mem⟩ := mem_flatMap.mp new
      obtain ⟨t, component⟩ := clusters _ found
      refine ⟨t, g.clusterFromMembers members weight delta, ?_, ?_⟩
      · rw [clusterUnder, component]
        rfl
      · have cacheless : (g.miningChunksBestFirst keys).1.clusterFromMembers members weight delta =
            g.clusterFromMembers members weight delta := by
          obtain ⟨cache, same⟩ := g.miningChunksBestFirst_graph keys
          rw [same]
          exact clusterFromMembers_congr (fun _ _ => rfl) rfl (fun _ _ => rfl) ascends weight
        rw [← cacheless]
        exact mem

end Deltas

/-! ### The floor -/

/-- The modified fee of the chunk is not negative, and over its virtual size it meets the floor. -/
def Rich (g : TxGraph) (budget : SelectBudget) (delta : Txid → Int) (ch : Chunk) : Prop :=
  let fee := (ch.txids.map (g.feeUnder delta)).sum
  0 ≤ fee ∧
    (budget.minSatKvb * vbytesCeil (ch.txids.map g.adjustedWeightOf).sum : Int) ≤ 1000 * fee

/-- The transaction is in the chunk or is a live ancestor of one that is. -/
def Brings (g : TxGraph) (ch : Chunk) (t : Txid) : Prop :=
  ∃ c ∈ ch.txids, Relation.ReflTransGen (fun p c => p ∈ g.liveParents c) t c

theorem chunkModifiedFee_eq {ch : Chunk}
    (small : (ch.txids.map fun t => |g.feeUnder delta t|).sum ≤ i128Max) :
    g.chunkModifiedFee delta ch = (ch.txids.map (g.feeUnder delta)).sum := by
  have fold (l : List Txid) (acc : Int)
      (small : |acc| + (l.map fun t => |g.feeUnder delta t|).sum ≤ i128Max) :
      l.foldl (fun mf t => clampI128 (mf + clampI128 (g.feeUnder delta t))) acc =
        acc + (l.map (g.feeUnder delta)).sum := by
    induction l generalizing acc with
    | nil => simp
    | cons t l ih =>
      have rest : 0 ≤ (l.map fun t => |g.feeUnder delta t|).sum :=
        sum_nonneg (by simp)
      have own := abs_nonneg acc
      have sum := abs_add_le acc (g.feeUnder delta t)
      simp only [map_cons, sum_cons, foldl_cons] at small ⊢
      have one : clampI128 (g.feeUnder delta t) = g.feeUnder delta t :=
        DepGraph.clampI128_of_abs_le (by omega)
      rw [one, DepGraph.clampI128_of_abs_le (by omega), ih _ (by omega), add_assoc]
  have whole := fold ch.txids 0 (by simpa using small)
  rwa [zero_add] at whole

theorem vbytesCeil_min (weight : Nat) : vbytesCeil (min weight u64Max) = vbytesCeil weight := by
  unfold vbytesCeil
  rcases le_total weight u64Max with below | above
  · rw [min_eq_left below]
  · rw [min_eq_right above, if_pos (by decide), if_pos (by unfold u64Max at *; omega)]

theorem rich_of_scored {chunks : List Chunk} {ch : Chunk}
    (part : ∀ ch ∈ chunks, ∃ set, g.ChunkOf set ch)
    (small : 1000 * ∑ t ∈ g.live, |g.feeUnder delta t| ≤ i128Max)
    (mem : ch ∈ g.scoredChunks budget delta chunks) : ch ∈ chunks ∧ g.Rich budget delta ch := by
  obtain ⟨x, sorted, rfl⟩ := mem_map.mp mem
  obtain ⟨ch, listed, scored⟩ :=
    mem_filterMap.mp ((perm_insertionSort ..).mem_iff.mp sorted)
  simp only at scored
  split_ifs at scored with poor
  cases scored
  dsimp only
  obtain ⟨fee, floor⟩ := not_or.mp poor
  obtain ⟨set, part⟩ := part ch listed
  have sum : 1000 * (ch.txids.map fun t => |g.feeUnder delta t|).sum ≤ i128Max := by
    refine le_trans (mul_le_mul_of_nonneg_left ?_ (by decide)) small
    rw [← sum_toFinset _ part.nodup]
    refine Finset.sum_le_sum_of_subset_of_nonneg ?_ fun _ _ _ => abs_nonneg _
    exact fun t mem => mem_live.mpr (part.live t (mem_toFinset.mp mem))
  have least : |(ch.txids.map (g.feeUnder delta)).sum| ≤
      (ch.txids.map fun t => |g.feeUnder delta t|).sum := by
    rw [← sum_toFinset _ part.nodup, ← sum_toFinset _ part.nodup]
    exact Finset.abs_sum_le_sum_abs _ _
  have own := le_abs_self (ch.txids.map (g.feeUnder delta)).sum
  have low := abs_nonneg (ch.txids.map (g.feeUnder delta)).sum
  rw [chunkModifiedFee_eq (by omega)] at fee floor
  refine ⟨listed, Int.not_lt.mp fee, ?_⟩
  have meets := Decidable.not_not.mp floor
  rw [part.weight, meetsBlockMinFeerate, vbytesCeil_min] at meets
  split at meets
  · next zero =>
    rw [zero]
    omega
  · rw [DepGraph.clampI128_of_abs_le (by rw [abs_of_nonneg (by omega)]; omega)] at meets
    exact (of_decide_eq_true meets).trans_eq (mul_comm _ _)

theorem brings_of_pickChunk {st' : Picking} {ch : Chunk}
    (picked : g.pickChunk budget skip st ch = some st') :
    ∀ s ∈ st'.out, s ∈ st.out ∨ g.Brings ch s.txid := by
  have unchanged : some st = some st' → ∀ s ∈ st'.out, s ∈ st.out ∨ g.Brings ch s.txid := by
    rintro ⟨⟩ s mem
    exact .inl mem
  unfold TxGraph.pickChunk at picked
  split_ifs at picked
  · exact unchanged picked
  obtain ⟨add, walked, picked⟩ := Option.bind_eq_some_iff.mp picked
  simp only at picked
  split_ifs at picked
  · exact unchanged picked
  · exact unchanged picked
  cases picked
  have brought := Loop.foldlM_keeps (P := fun l => ∀ x ∈ l, g.Brings ch x)
    (fun c mem l l' kept one x added => by
      rcases Gather.reach_of_collect one x added with old | leads
      · exact kept x old
      · exact ⟨c, mem, leads⟩) (forall_mem_nil _) walked
  intro s mem
  refine (mem_append.mp mem).imp_right fun added => ?_
  obtain ⟨t, listed, chosen⟩ := mem_filterMap.mp added
  obtain ⟨e, -, rfl⟩ := Option.map_eq_some_iff.mp chosen
  exact brought t listed

theorem rich_of_selected {rank : Txid → Nat} (paired : g.Paired) (ascends : g.Ascends rank)
    (cached : g.Cached) {keys : List Txid} (whole : ∀ t, g.contains t = true → t ∈ keys)
    (small : 1000 * ∑ t ∈ g.live, |g.feeUnder delta t| ≤ i128Max) {l : List Selected}
    (selected : (g.selectBlockTemplate keys budget delta skip).2 = some l) :
    ∀ s ∈ l, ∃ c ch, g.clusterUnder delta s.txid = some c ∧ ch ∈ c.chunks ∧
      g.Rich budget delta ch ∧ g.Brings ch s.txid := by
  have clusters : ∀ ch ∈ (g.miningChunksForDelta keys delta).2, g.FromCluster delta ch :=
    fromCluster_of_mining paired ascends cached whole
  have parts : ∀ ch ∈ (g.miningChunksForDelta keys delta).2, ∃ t, g.contains t = true ∧
      g.ChunkOf (g.members t) ch ∧ ∃ c, g.clusterUnder delta t = some c ∧ ch ∈ c.chunks := by
    intro ch mem
    obtain ⟨t, c, cluster, listed⟩ := clusters ch mem
    have live := live_of_clusterUnder cluster
    have eq := cluster
    rw [clusterUnder_eq paired live, Option.some_inj] at eq
    subst eq
    exact ⟨t, live, chunkOf_cluster ascends listed, _, cluster, listed⟩
  unfold selectBlockTemplate at selected
  split_ifs at selected
  · cases selected
    nofun
  obtain ⟨cache, same⟩ := g.miningChunksBestFirst_graph keys
  obtain ⟨st, picked, rfl⟩ := Option.map_eq_some_iff.mp selected
  rw [miningChunksForDelta_graph, same] at picked
  refine Loop.foldlM_keeps
    (P := fun st => ∀ s ∈ st.out, ∃ c ch, g.clusterUnder delta s.txid = some c ∧
    ch ∈ c.chunks ∧ g.Rich budget delta ch ∧ g.Brings ch s.txid)
    (fun ch scored st st' kept one s mem => ?_) (forall_mem_nil _) picked
  rcases brings_of_pickChunk one s mem with old | ⟨x, inside, path⟩
  · exact kept s old
  obtain ⟨listed, rich⟩ := rich_of_scored (fun ch mem => by
    obtain ⟨t, -, part, -⟩ := parts ch mem
    exact ⟨g.members t, { part with }⟩) small scored
  obtain ⟨t, live, part, c, cluster, mem⟩ := parts ch listed
  -- what an ancestor leads to is in its cluster
  have leads : g.Near s.txid x := path.lift id
    fun p c mem => paired c p (mem_append_left _ (mem_of_mem_filter mem))
  have near : g.Near t s.txid := ((mem_members live).mp (part.inside x inside)).trans
    (leads.symm paired)
  refine ⟨c, ch, ?_, mem, rich, x, inside, path⟩
  rw [clusterUnder_eq paired (near.live paired live), ← members_near paired live near,
    ← clusterUnder_eq paired live delta, cluster]

/-! ### The cache -/

variable (g)

theorem dropClusterIndex_chunkCache (rep : Txid) :
    (g.dropClusterIndex rep).chunkCache = g.chunkCache := by
  unfold dropClusterIndex
  split <;> rfl

theorem dropClusterOf_chunkCache (t : Txid) : (g.dropClusterOf t).chunkCache = g.chunkCache := by
  unfold dropClusterOf
  split
  · rfl
  · exact dropClusterIndex_chunkCache ..

theorem indexClusterOf_chunkCache (t : Txid) : (g.indexClusterOf t).chunkCache = g.chunkCache := by
  unfold indexClusterOf
  split
  · rfl
  · split
    · rfl
    · dsimp only
      split <;> exact dropClusterIndex_chunkCache ..

variable {g}

theorem linkChild_chunkCache (txid : Txid) (g : TxGraph) (op : OutPoint) :
    (g.linkChild txid op).chunkCache = g.chunkCache := by
  unfold linkChild
  split
  · rfl
  · split <;> rfl

theorem reindex_chunkCache (g : TxGraph) (t : Txid) : (g.reindex t).chunkCache = g.chunkCache := by
  unfold reindex
  split
  · rw [indexClusterOf_chunkCache, dropClusterOf_chunkCache]
  · rfl

theorem foldl_chunkCache {α : Type} {f : TxGraph → α → TxGraph}
    (keeps : ∀ g a, (f g a).chunkCache = g.chunkCache) (l : List α) (g : TxGraph) :
    (l.foldl f g).chunkCache = g.chunkCache := by
  induction l generalizing g with
  | nil => rfl
  | cons a l ih => exact (ih (f g a)).trans (keeps g a)

theorem insert_chunkCache (entry : TxEntry) (tx : Transaction) :
    (g.insert entry tx).chunkCache = none := by
  unfold TxGraph.insert
  dsimp only
  rw [indexClusterOf_chunkCache, foldl_chunkCache (linkChild_chunkCache _)]
  exact foldl_chunkCache dropClusterIndex_chunkCache _ _

theorem remove_chunkCache (txid : Txid) (tx : Transaction) :
    (g.remove txid tx).1.chunkCache = none := by
  unfold remove
  dsimp only
  split
  · exact dropClusterOf_chunkCache ..
  · rw [foldl_chunkCache reindex_chunkCache]
    exact dropClusterOf_chunkCache ..

theorem Cached.of_none (empty : g.chunkCache = none) : g.Cached := by
  intro chunks held
  cases empty.symm.trans held

/-- Calls on the graph, and templates between them. -/
inductive MiningCall
  | rank (call : RankCall)
  | template (keys : List Txid) (budget : SelectBudget) (delta : Txid → Int) (skip : Txid → Bool)

def mine (s : Tracked) : MiningCall → Tracked
  | .rank call => s.apply call
  | .template keys budget delta skip =>
    ⟨(s.graph.selectBlockTemplate keys budget delta skip).1, s.bodies⟩

def MiningCall.Proper (rank : Txid → Nat) (s : Tracked) : MiningCall → Prop
  | .rank call => s.Proper rank call
  | .template .. => True

theorem apply_cached {s : Tracked} (cached : s.graph.Cached) (call : RankCall) :
    (s.apply call).graph.Cached := by
  cases call with
  | live call =>
    cases call with
    | insert entry tx => exact .of_none (insert_chunkCache ..)
    | remove txid tx => exact .of_none (remove_chunkCache ..)
  | setSigopCost txid cost =>
    change (s.graph.setSigopCost txid cost).Cached
    unfold setSigopCost
    split
    · exact cached
    · exact .of_none (indexClusterOf_chunkCache ..)
  | setBytesPerSigop keys bytesPerSigop =>
    exact .of_none (foldl_chunkCache indexClusterOf_chunkCache ..)

theorem selectBlockTemplate_cached (cached : g.Cached) (keys : List Txid) :
    (g.selectBlockTemplate keys budget delta skip).1.Cached := by
  unfold selectBlockTemplate
  split
  · exact cached
  · dsimp only
    rw [miningChunksForDelta_graph]
    unfold miningChunksBestFirst
    split
    · exact cached
    · intro chunks held
      obtain rfl := Option.some.inj held
      exact fromCluster_buildChunks keys

theorem mine_kept {rank : Txid → Nat} {s : Tracked} {call : MiningCall}
    (kept : s.Indexed rank ∧ s.graph.Cached) (proper : call.Proper rank s) :
    (mine s call).Indexed rank ∧ (mine s call).graph.Cached := by
  obtain ⟨indexed, cached⟩ := kept
  cases call with
  | rank call => exact ⟨apply_indexed _ _ indexed proper, apply_cached cached call⟩
  | template keys budget delta skip =>
    refine ⟨?_, selectBlockTemplate_cached cached keys⟩
    obtain ⟨cache, same⟩ : ∃ cache, (s.graph.selectBlockTemplate keys budget delta skip).1 =
        { s.graph with chunkCache := cache } := by
      unfold selectBlockTemplate
      split
      · exact ⟨s.graph.chunkCache, rfl⟩
      · obtain ⟨cache, same⟩ := s.graph.miningChunksBestFirst_graph keys
        exact ⟨cache, (miningChunksForDelta_graph ..).trans same⟩
    rw [mine, same]
    exact ⟨indexed.1.of_base rfl, ⟨indexed.2.1, indexed.2.2⟩⟩

/-- A parent and a child that has a lower rate in weight, and so is a chunk of its own. -/
def cheapParent : Tracked :=
  (Tracked.start 64 101000 20 400).run
    [Tracked.inserted 1 241 [⟨9, 0⟩], Tracked.inserted 2 400 [⟨1, 0⟩]]

end TxGraph

end Rbitcoin.Mempool
