import Rbitcoin.Mempool.FeeDiagram

/-! The output order gives out the chunks by rate, so that the curve of an order of a cluster is
not lowered. For a forest one of the passes reaches the best curve of all orders. -/

namespace Rbitcoin.Mempool

open Diagram Relation Settle Weighing List

theorem reduce_max {α : Type} {f : α → α → α} {le : α → α → Prop} (refl : ∀ a, le a a)
    (trans : ∀ a b c, le a b → le b c → le a c) {l : List α}
    (step : ∀ a ∈ l, ∀ b ∈ l, f a b = a ∧ le b a ∨ f a b = b ∧ le a b) {x : α}
    (h : reduce f l = some x) : ∀ y ∈ l, le y x := by
  cases l with
  | nil => cases h
  | cons a l =>
    rw [reduce, Option.some.injEq] at h
    subst h
    induction l generalizing a with
    | nil =>
      intro y hy
      rw [mem_singleton.mp hy]
      exact refl a
    | cons b l ih =>
      rw [foldl_cons]
      -- The choice between the first two is one of them and above both.
      have choice := step a mem_cons_self b (mem_cons_of_mem _ mem_cons_self)
      have sub : ∀ x ∈ f a b :: l, x ∈ a :: b :: l := by
        intro x hx
        rcases mem_cons.mp hx with rfl | hx
        · rcases choice with ⟨eq, -⟩ | ⟨eq, -⟩ <;> rw [eq] <;> simp
        · exact mem_cons_of_mem _ (mem_cons_of_mem _ hx)
      have rest := ih (f a b) fun x hx y hy => step x (sub x hx) y (sub y hy)
      have top := rest (f a b) mem_cons_self
      intro y hy
      rcases mem_cons.mp hy with rfl | hy
      · rcases choice with ⟨eq, -⟩ | ⟨eq, below⟩ <;> rw [eq] at top ⊢
        · exact top
        · exact trans _ _ _ below top
      · rcases mem_cons.mp hy with rfl | hy
        · rcases choice with ⟨eq, below⟩ | ⟨eq, -⟩ <;> rw [eq] at top ⊢
          · exact trans _ _ _ below top
          · exact top
        · exact rest y (mem_cons_of_mem _ hy)

theorem FeeFrac.higherRate_of_rank (a b : FeeFrac) (tie : Ordering) :
    ((a.rank b).then tie = .gt → b.higherRate a = false) ∧
      ((a.rank b).then tie ≠ .gt → a.higherRate b = false) := by
  have not_higher (le : (b.cross a).1 ≤ (b.cross a).2) : b.higherRate a = false :=
    decide_eq_false (not_lt.mpr le)
  have not_higher' (le : (a.cross b).1 ≤ (a.cross b).2) : a.higherRate b = false :=
    decide_eq_false (not_lt.mpr le)
  rw [FeeFrac.rank]
  rcases lt_trichotomy (a.cross b).1 (a.cross b).2 with lt | eq | gt
  · rw [compare_lt_iff_lt.mpr lt]
    exact ⟨fun h => absurd h (by simp), fun _ => not_higher' lt.le⟩
  · exact ⟨fun _ => not_higher eq.ge, fun _ => not_higher' eq.le⟩
  · rw [compare_gt_iff_gt.mpr gt]
    exact ⟨fun _ => not_higher gt.le, fun h => absurd rfl h⟩

namespace DepGraph

variable {g : DepGraph} (exact : g.Exact)
include exact

theorem setFeerate_eq (set : TxSet) : g.setFeerate set = g.total false (g.iter set) := by
  have part : g.Part (g.iter set) := ⟨iter_nodup set, fun i hi => (mem_iter.mp hi).1⟩
  have sums : ∀ l, g.Part l →
      l.foldl (fun f i => f.add (g.rateOf i)) default = g.total false l := by
    intro l
    induction l using reverseRecOn with
    | nil => exact fun _ => rfl
    | append_singleton l i ih =>
      intro part
      have single : g.rateOf i = g.total false [i] := by simp [total, signed]
      rw [foldl_append, ih (part.sublist (sublist_append_left _ _)), foldl_cons,
        single, total_perm false perm_append_comm]
      exact add_total exact false (part.of_perm perm_append_comm)
  exact sums _ part

/-- The chunks hold something, know their rates and stand in the order of their rates. -/
structure Ranked (exact : g.Exact) (chunks : List ChunkOf) : Prop where
  nonempty : ∀ c ∈ chunks, g.iter c.set ≠ []
  feerate : ∀ c ∈ chunks, c.feerate = g.total false (g.iter c.set)
  sorted : chunks.Pairwise fun c c' => (g.weighing exact.pos false).rate (g.iter c'.set) ≤
    (g.weighing exact.pos false).rate (g.iter c.set)

variable {chunks : List ChunkOf} {lin : List Nat}

omit exact in
theorem Ranked.sublist {exact : g.Exact} {chunks' : List ChunkOf} (h : Ranked exact chunks)
    (sub : chunks'.Sublist chunks) : Ranked exact chunks' :=
  ⟨fun c hc => h.nonempty c (sub.subset hc), fun c hc => h.feerate c (sub.subset hc),
    h.sorted.sublist sub⟩

omit exact in
theorem Ranked.nextChunk {exact : g.Exact} (h : Ranked exact chunks) {done : TxSet} {pick : Nat}
    (inside : pick < chunks.length) (found : g.nextChunk chunks done = some pick) :
    ∀ c ∈ chunks, g.ready done c = true → (g.weighing exact.pos false).rate (g.iter c.set) ≤
        (g.weighing exact.pos false).rate (g.iter chunks[pick].set) := by
  let W := g.weighing exact.pos false
  let chunk := fun k => chunks.getD k ⟨∅, default, 0⟩
  have chunk_mem {k : Nat} (hk : k < chunks.length) : chunk k ∈ chunks := by
    simp only [chunk, getD_eq_getElem _ _ hk]
    exact getElem_mem hk
  have part (c : ChunkOf) : g.Part (g.iter c.set) :=
    ⟨iter_nodup _, fun i hi => (mem_iter.mp hi).1⟩
  -- A chunk that does not have a higher rate in the source has no higher exact rate.
  have rate_le {a b : Nat} (ha : a < chunks.length) (hb : b < chunks.length)
      (not_higher : (chunk a).feerate.higherRate (chunk b).feerate = false) :
      W.rate (g.iter (chunk a).set) ≤ W.rate (g.iter (chunk b).set) := by
    rw [h.feerate _ (chunk_mem ha), h.feerate _ (chunk_mem hb),
      higherRate_total exact false (part _) (part _)] at not_higher
    by_contra higher
    have := (higher_iff (h.nonempty _ (chunk_mem ha)) (h.nonempty _ (chunk_mem hb))).mpr
      (not_le.mp higher)
    rw [not_higher] at this
    cases this
  let le (a b : Nat) : Prop := W.rate (g.iter (chunk a).set) ≤ W.rate (g.iter (chunk b).set)
  have refl (a : Nat) : le a a := le_rfl
  have trans (a b c : Nat) (h : le a b) (h' : le b c) : le a c := le_trans h h'
  have top := reduce_max refl trans ?_ found
  · intro c hc is_ready
    obtain ⟨k, hk, rfl⟩ := getElem_of_mem hc
    have at_k : chunk k = chunks[k] := getD_eq_getElem _ _ hk
    have at_pick : chunk pick = chunks[pick] := getD_eq_getElem _ _ inside
    have below : W.rate (g.iter (chunk k).set) ≤ W.rate (g.iter (chunk pick).set) := by
      refine top k (mem_filter.mpr ⟨mem_range.mpr hk, ?_⟩)
      show g.ready done (chunk k) = true
      rw [at_k]
      exact is_ready
    rwa [at_k, at_pick] at below
  · intro b hb k hk
    have b_lt := mem_range.mp (mem_filter.mp hb).1
    have k_lt := mem_range.mp (mem_filter.mp hk).1
    obtain ⟨of_gt, of_not_gt⟩ := FeeFrac.higherRate_of_rank (chunk k).feerate (chunk b).feerate
      (compare (chunk b).top (chunk k).top)
    by_cases gt : ((chunk k).feerate.rank (chunk b).feerate).then
        (compare (chunk b).top (chunk k).top) = .gt
    · exact Or.inr ⟨if_pos gt, rate_le b_lt k_lt (of_gt gt)⟩
    · exact Or.inl ⟨if_neg gt, rate_le k_lt b_lt (of_not_gt gt)⟩

omit exact in
theorem Ranked.emitChunks (wf : g.WellFormed) {exact : g.Exact} (ranked : Ranked exact chunks)
    {done : TxSet} {out : List Nat} (h : Waiting g chunks done out) {rounds : Nat}
    (enough : chunks.length ≤ rounds) : let W := g.weighing exact.pos false
    ∃ ls : List (List Nat), g.emitChunks rounds chunks done out = out ++ ls.flatten ∧
      (∀ l ∈ ls, l ≠ []) ∧ (ls.Pairwise fun l l' => W.rate l' ≤ W.rate l) ∧
      (∀ c, W.gain c ls = W.gain c (chunks.map fun k => g.iter k.set)) ∧
      ∀ r, (∀ k ∈ chunks, W.rate (g.iter k.set) ≤ r) → ∀ l ∈ ls, W.rate l ≤ r := by
  intro W
  induction rounds generalizing chunks done out with
  | zero =>
    have none : chunks = [] := eq_nil_of_length_eq_zero (Nat.le_zero.mp enough)
    exact ⟨[], by simp [DepGraph.emitChunks], by simp, Pairwise.nil, by simp [none], by simp⟩
  | succ rounds ih =>
    rw [DepGraph.emitChunks]
    by_cases empty : chunks = []
    · have stop : g.nextChunk chunks done = none := by simp [DepGraph.nextChunk, empty, reduce]
      rw [stop]
      exact ⟨[], by simp, by simp, Pairwise.nil, by simp [empty], by simp⟩
    · obtain ⟨pick, inside, l, found, is_ready, out_eq, nodup, mem, waiting⟩ := h.next wf empty
      have sub := eraseIdx_sublist chunks pick
      rw [found]
      simp only [getD_eq_getElem _ _ inside]
      rw [← out_eq] at waiting
      have shorter : (chunks.eraseIdx pick).length ≤ rounds := by
        rw [length_eraseIdx_of_lt inside]
        omega
      obtain ⟨ls, out_ls, nonempty, desc, gain_eq, bound⟩ :=
        ih (ranked.sublist sub) waiting shorter
      have perm : l.Perm (g.iter chunks[pick].set) := by
        rw [perm_ext_iff_of_nodup nodup (iter_nodup _)]
        intro x
        rw [mem, mem_iter]
        exact ⟨fun hx => ⟨h.lt _ (getElem_mem inside) x hx, hx⟩, And.right⟩
      have rate_eq : W.rate l = W.rate (g.iter chunks[pick].set) := by
        simp only [rate, fees, sizes, (perm.map _).sum_eq]
      -- The first chunk has the best rate of all and is ready.
      have best : ∀ k ∈ chunks, W.rate (g.iter k.set) ≤ W.rate l := by
        intro k hk
        obtain ⟨c, rest, first⟩ := exists_cons_of_ne_nil empty
        have head_le : W.rate (g.iter c.set) ≤ W.rate l := by
          rw [rate_eq]
          refine ranked.nextChunk inside found c ?_ (h.head_ready wf first)
          rw [first]
          exact mem_cons_self
        have sorted := ranked.sorted
        rw [first] at hk sorted
        rcases mem_cons.mp hk with rfl | later
        · exact head_le
        · exact ((pairwise_cons.mp sorted).1 k later).trans head_le
      refine ⟨l :: ls, ?_, ?_, ?_, ?_, ?_⟩
      · rw [out_ls, out_eq, flatten_cons, append_assoc]
      · intro k hk
        rcases mem_cons.mp hk with rfl | hk
        · intro nil
          rw [nil] at perm
          exact ranked.nonempty _ (getElem_mem inside) perm.nil_eq.symm
        · exact nonempty k hk
      · refine pairwise_cons.mpr ⟨?_, desc⟩
        exact bound _ fun k hk => best k (sub.subset hk)
      · intro c
        have split := (getElem_cons_eraseIdx_perm inside).map fun k => g.iter k.set
        rw [← W.gain_perm c split, map_cons, gain_cons, gain_cons, gain_eq, W.value_perm c perm]
      · intro r below k hk
        rcases mem_cons.mp hk with rfl | hk
        · rw [rate_eq]
          exact below _ (getElem_mem inside)
        · exact bound r (fun k hk => below k (sub.subset hk)) k hk

theorem ranked_chunksOf (part : g.Part lin) : Ranked exact (g.chunksOf lin) ∧
    ∀ c, (g.weighing exact.pos false).gain c ((g.chunksOf lin).map fun k => g.iter k.set) =
      (g.weighing exact.pos false).gain c ((g.weighing exact.pos false).chunks lin) := by
  let W := g.weighing exact.pos false
  let chunk (p : List Nat) : ChunkOf :=
    { set := p.toFinset, feerate := g.setFeerate p.toFinset, top := p.foldl max 0 }
  have chunks_eq : g.chunksOf lin = (W.chunks lin).reverse.map chunk := by
    rw [chunksOf, cut_chunkLengths exact part]
  obtain ⟨nonempty, desc⟩ := settleByRate_groups (W := W) (fun _ _ => true) lin
  -- A piece is a part of the cluster, and its set lists the same positions.
  have perm : ∀ p ∈ W.chunks lin, (g.iter p.toFinset).Perm p := by
    intro p hp
    have inside : p.Sublist lin := by
      rw [← flat_chunks (W := W) lin, flat, flatMap_id]
      exact sublist_flatten_of_mem (mem_reverse.mpr hp)
    rw [perm_ext_iff_of_nodup (iter_nodup _) (part.1.sublist inside)]
    intro x
    rw [mem_iter, mem_toFinset]
    exact ⟨And.right, fun hx => ⟨part.2 x (inside.subset hx), hx⟩⟩
  have rate_eq : ∀ p ∈ W.chunks lin, W.rate (g.iter p.toFinset) = W.rate p := by
    intro p hp
    simp only [rate, fees, sizes, ((perm p hp).map _).sum_eq]
  refine ⟨⟨?_, ?_, ?_⟩, ?_⟩
  · intro c hc
    rw [chunks_eq] at hc
    obtain ⟨p, hp, rfl⟩ := mem_map.mp hc
    have hp := mem_reverse.mp hp
    intro nil
    have same := perm p hp
    rw [nil] at same
    exact nonempty p hp same.nil_eq.symm
  · intro c hc
    obtain ⟨p, -, rfl⟩ := mem_map.mp hc
    exact setFeerate_eq exact _
  · rw [chunks_eq, pairwise_map, pairwise_reverse]
    refine desc.imp_of_mem ?_
    intro p q hp hq le
    rw [rate_eq p hp, rate_eq q hq]
    exact le
  · intro c
    rw [chunks_eq, List.map_map, ← W.gain_perm c (W.chunks lin).reverse_perm, gain, List.map_map]
    congr 1
    apply map_congr_left
    intro p hp
    show max (W.value c (g.iter p.toFinset)) 0 = _
    rw [W.value_perm c (perm p (mem_reverse.mp hp))]

omit exact in
theorem Lists.part (lists : g.Lists lin) : g.Part lin :=
  ⟨lists.1, fun i hi => (lists.2 i).mp hi⟩

theorem dominated_outputOrder (wf : g.WellFormed) (lists : g.Lists lin)
    (order : Topological g.Before lin) :
    (g.weighing exact.pos false).Dominated lin (g.outputOrder lin) := by
  obtain ⟨ranked, gain_chunks⟩ := ranked_chunksOf exact lists.part
  obtain ⟨ls, out_eq, nonempty, desc, gain_eq, -⟩ :=
    ranked.emitChunks wf (waiting_chunksOf lists order) le_rfl
  have flat_ls : g.outputOrder lin = flat id ls.reverse := by
    rw [outputOrder, out_eq, flat, reverse_reverse, flatMap_id, nil_append]
  rw [flat_ls]
  refine dominated_flat ?_ (pairwise_reverse.mpr desc) ?_
  · exact fun l hl => nonempty l (mem_reverse.mp hl)
  · intro c p hp
    rw [gain_perm _ c ls.reverse_perm, gain_eq, gain_chunks]
    exact value_le_gain_settleByRate _ lin c hp

theorem dominated_postLinearize (part : g.Part lin) :
    (g.weighing exact.pos false).Dominated lin (g.postLinearize lin) :=
  (dominated_pass exact true part).trans
    (dominated_pass exact false (part.of_perm (pass_perm true lin)))

end DepGraph

namespace DepGraph

/-- A list of all positions in which parents come before their children. -/
def Linearization (n : Nat) (parents : List (List Nat)) (lin : List Nat) : Prop :=
  lin.Perm (List.range n) ∧ ∀ p i, Parent n parents p i → lin.idxOf p < lin.idxOf i

namespace Linearization

variable {feerate : List FeeFrac} {parents : List (List Nat)} {lin : List Nat}
  (h : Linearization feerate.length parents lin)
include h

theorem acyclic : Acyclic feerate.length parents := acyclic_of_rank _ h.2

theorem lists : (new feerate parents).Lists lin := by
  refine ⟨h.1.nodup_iff.mpr nodup_range, fun x => ?_⟩
  rw [h.1.mem_iff, mem_range]
  rfl

theorem topological : Topological (new feerate parents).Before lin := by
  rw [Topological, pairwise_iff_getElem]
  intro i j hi hj lt before
  have rises := rank_lt_of_path h.2 ((before_iff h.acyclic).mp before)
  rw [h.lists.1.idxOf_getElem, h.lists.1.idxOf_getElem] at rises
  omega

omit h in
theorem of_topological (acyclic : Acyclic feerate.length parents)
    (lists : (new feerate parents).Lists lin)
    (order : Topological (new feerate parents).Before lin) :
    Linearization feerate.length parents lin :=
  ⟨lists.perm, fun _ _ parent => lists.idxOf_lt acyclic order (.single parent)⟩

omit h in
theorem of_forall {n : Nat} (perm : lin.Perm (List.range n))
    (all : ∀ i < n, ∀ p < n, p ∈ parents.getD i [] → lin.idxOf p < lin.idxOf i) :
    Linearization n parents lin :=
  ⟨perm, fun p i parent => all i parent.1 p parent.2.1 parent.2.2⟩

end Linearization

/-- Merging, swapping and giving out chunks turns every linearization into one whose curve is
nowhere below, where no sum or product saturates. -/
theorem outputOrder_postLinearize_diagram (feerate : List FeeFrac) (parents : List (List Nat))
    (exact : (new feerate parents).Exact) (lin : List Nat)
    (h : Linearization feerate.length parents lin) :
    let g := new feerate parents
    let W := g.weighing exact.pos false
    let out := g.outputOrder (g.postLinearize lin)
    Linearization feerate.length parents out ∧
      ∀ s, 0 ≤ s → s ≤ W.sizes lin → W.diagram lin s ≤ W.diagram out s := by
  intro g W out
  have wf : g.WellFormed := new_wellFormed h.acyclic
  have lists : g.Lists (g.postLinearize lin) := h.lists.of_perm (postLinearize_perm lin)
  have order := postLinearize_topological wf h.topological
  obtain ⟨lists_out, order_out⟩ := outputOrder_lists wf lists order
  refine ⟨Linearization.of_topological h.acyclic lists_out order_out, fun s hs inside => ?_⟩
  refine diagram_le_of_dominated (h.lists.perm.trans lists_out.perm.symm) ?_ hs inside
  exact (dominated_postLinearize exact h.lists.part).trans
    (dominated_outputOrder exact wf lists order)

/-- A cheap parent with a child that pays for both, and a transaction between their rates. -/
theorem outputOrder_postLinearize_diagram_cpfp :
    ∃ exact : (new [⟨0, 100⟩, ⟨1000, 100⟩, ⟨300, 100⟩] [[], [0], []]).Exact,
    (let g := new [⟨0, 100⟩, ⟨1000, 100⟩, ⟨300, 100⟩] [[], [0], []]
    let W := g.weighing exact.pos false
    let out := g.outputOrder (g.postLinearize [0, 2, 1])
    Linearization 3 [[], [0], []] out ∧
      ∀ s, 0 ≤ s → s ≤ W.sizes [0, 2, 1] → W.diagram [0, 2, 1] s ≤ W.diagram out s) := by
  have exact : (new [⟨0, 100⟩, ⟨1000, 100⟩, ⟨300, 100⟩] [[], [0], []]).Exact :=
    ⟨by decide, by decide, by decide⟩
  exact ⟨exact, outputOrder_postLinearize_diagram _ _ exact [0, 2, 1]
    (.of_forall (by decide) (by decide))⟩

/-- Where the sum of two sizes saturates, an exact tie is decided the wrong way and the curve drops:
the first transaction has a higher rate than the other two together, which come first. Where sizes
are zero, a transaction without fee ties with both others, and lets the one of negative fee go in
front of the one that pays: the order had a prefix of fee 5, and what comes out has none above 2. -/
theorem outputOrder_postLinearize_saturates :
    (let g := new [⟨4, (2 ^ 66 - 1) / 7⟩, ⟨0, 2 ^ 63⟩, ⟨7, 2 ^ 63⟩] [[], [], [1]]
    Linearization 3 [[], [], [1]] [0, 1, 2] ∧ ∃ pos : ∀ i < g.len, 0 < (g.rateOf i).size,
      (let W := g.weighing pos false
      let s : ℚ := (2 ^ 66 - 1) / 7
      W.diagram (g.outputOrder (g.postLinearize [0, 1, 2])) s < W.diagram [0, 1, 2] s)) ∧
    let g := new [⟨-3, 0⟩, ⟨0, 0⟩, ⟨5, 1⟩] [[], [], []]
    let fees := fun pre : List Nat => (pre.map fun i => (g.rateOf i).fee).sum
    Linearization 3 [[], [], []] [2, 1, 0] ∧ (∃ pre ∈ [2, 1, 0].inits, fees pre = 5) ∧
      ∀ pre ∈ (g.outputOrder (g.postLinearize [2, 1, 0])).inits, fees pre ≤ 2 := by
  refine ⟨⟨.of_forall (by decide) (by decide), by decide, by decide +kernel⟩, ?_⟩
  exact ⟨.of_forall (by decide) (by decide), by decide +kernel, by decide +kernel⟩

theorem transGen_chain {r : Nat → Nat → Prop} (unique : Relator.RightUnique r) {u x y : Nat}
    (hx : TransGen r u x) (hy : TransGen r u y) : x = y ∨ TransGen r x y ∨ TransGen r y x := by
  rcases ReflTransGen.total_of_right_unique unique hx.to_reflTransGen hy.to_reflTransGen
    with xy | yx
  · rcases reflTransGen_iff_eq_or_transGen.mp xy with same | path
    · exact Or.inl same.symm
    · exact Or.inr (Or.inl path)
  · rcases reflTransGen_iff_eq_or_transGen.mp yx with same | path
    · exact Or.inl same
    · exact Or.inr (Or.inr path)

section Optimal

variable {g : DepGraph} (exact : g.Exact) (wf : g.WellFormed) {lin l' : List Nat}
  (lists : g.Lists lin) (order : Topological g.Before lin) (lists' : g.Lists l')
  (order' : Topological g.Before l')
include exact wf lists order lists' order'

theorem dominated_forward
    (chain : ∀ u x y, g.Before u x → g.Before u y → x = y ∨ g.Before x y ∨ g.Before y x) :
    (g.weighing exact.pos false).Dominated l' (g.pass false lin) := by
  have touch (cur prev : List Nat) (dep : g.depends false cur prev = true) :
      ∃ b ∈ prev, ∃ a ∈ cur, g.Before b a := by
    obtain ⟨b, hb, a, ha, ne, dep⟩ := of_decide_eq_true dep
    exact ⟨b, hb, a, ha, dep, ne⟩
  have free (cur prev : List Nat) (dep : g.depends false cur prev = false) :
      ∀ b ∈ prev, ∀ a ∈ cur, ¬g.Before b a := fun b hb a ha before =>
    of_decide_eq_false dep ⟨b, hb, a, ha, before.2, before.1⟩
  have trans (a b c : Nat) (h : g.Before a b) (h' : g.Before b c) : g.Before a c :=
    wf.before_trans h h'
  have settled := dominated_of_chain
    (W := g.weighing exact.pos false) trans chain touch free lists.1 order
    (lists'.perm.trans lists.perm.symm) order'
  rw [(groups_settleByRate exact false lists.part).1] at settled
  rwa [flat, ← map_reverse, flatMap_map] at settled

theorem dominated_backward
    (chain : ∀ u x y, g.Before x u → g.Before y u → x = y ∨ g.Before y x ∨ g.Before x y) :
    (g.weighing exact.pos false).Dominated l' (g.pass true lin) := by
  have touch (cur prev : List Nat) (dep : g.depends true cur prev = true) :
      ∃ b ∈ prev, ∃ a ∈ cur, g.Before a b := by
    obtain ⟨b, hb, a, ha, ne, dep⟩ := of_decide_eq_true dep
    exact ⟨b, hb, a, ha, wf.mem_desc.mp dep, Ne.symm ne⟩
  have free (cur prev : List Nat) (dep : g.depends true cur prev = false) :
      ∀ b ∈ prev, ∀ a ∈ cur, ¬g.Before a b := fun b hb a ha before =>
    of_decide_eq_false dep ⟨b, hb, a, ha, Ne.symm before.2, wf.mem_desc.mpr before.1⟩
  have part := lists.part.of_perm lin.reverse_perm
  have perm : l'.reverse.Perm lin.reverse :=
    l'.reverse_perm.trans ((lists'.perm.trans lists.perm.symm).trans lin.reverse_perm.symm)
  have trans (a b c : Nat) (h : g.Before b a) (h' : g.Before c b) : g.Before c a :=
    wf.before_trans h' h
  have settled := dominated_of_chain (W := g.weighing exact.pos true)
    (R := fun a b => g.Before b a) trans chain touch free part.1 order.reverse perm order'.reverse
  rw [(groups_settleByRate exact true part).1] at settled
  have neg_eq : g.weighing exact.pos true = (g.weighing exact.pos false).neg := by
    simp [weighing, neg, signed]
  rw [neg_eq, flat, ← map_reverse, flatMap_map] at settled
  have back := settled.reverse (perm.trans (groups_perm true lin.reverse).symm)
  rwa [reverse_reverse] at back

end Optimal

/-- In a forest of either direction no linearization has a curve above that of `linearize`
anywhere, where no sum or product saturates. -/
theorem linearize_optimal (feerate : List FeeFrac) (parents : List (List Nat))
    (exact : (new feerate parents).Exact) (acyclic : Acyclic feerate.length parents)
    (forest :
      (∀ i p q, Parent feerate.length parents p i → Parent feerate.length parents q i → p = q) ∨
      (∀ p i j, Parent feerate.length parents p i → Parent feerate.length parents p j → i = j)) :
    let g := new feerate parents
    let W := g.weighing exact.pos false
    Linearization feerate.length parents g.linearize ∧ ∀ l, Linearization feerate.length parents l →
        ∀ s, 0 ≤ s → s ≤ W.sizes l → W.diagram l s ≤ W.diagram g.linearize s := by
  intro g W
  have wf : g.WellFormed := new_wellFormed acyclic
  obtain ⟨lists, order⟩ := pickAll_lists wf
  let lin := (g.pickAll g.len g.pickStart).out
  have lists_back : g.Lists (g.pass true lin) := lists.of_perm (pass_perm true _)
  have order_back : Topological g.Before (g.pass true lin) := pass_topological wf true order
  have lists_post : g.Lists (g.postLinearize lin) := lists.of_perm (postLinearize_perm _)
  have order_post : Topological g.Before (g.postLinearize lin) := postLinearize_topological wf order
  obtain ⟨lists_out, order_out⟩ := outputOrder_lists wf lists_post order_post
  refine ⟨Linearization.of_topological acyclic lists_out order_out, fun l h s hs inside => ?_⟩
  refine diagram_le_of_dominated (h.lists.perm.trans lists_out.perm.symm) ?_ hs inside
  -- One pass reaches the best curve, and what follows keeps it.
  have best : W.Dominated l (g.postLinearize lin) := by
    rcases forest with one_parent | one_child
    · refine (dominated_backward exact wf lists order h.lists h.topological ?_).trans
        (dominated_pass exact false lists_back.part)
      intro u x y hx hy
      simp only [before_iff acyclic, ← transGen_swap (r := Parent feerate.length parents)]
        at hx hy ⊢
      exact transGen_chain one_parent hx hy
    · refine dominated_forward exact wf lists_back order_back h.lists h.topological ?_
      intro u x y hx hy
      simp only [before_iff acyclic] at hx hy ⊢
      exact transGen_chain one_child hx hy
  exact best.trans (dominated_outputOrder exact wf lists_post order_post)

theorem linearize_optimal_pair :
    ∃ exact : (new [⟨0, 100⟩, ⟨1000, 100⟩, ⟨300, 100⟩] [[], [0], []]).Exact,
    (let g := new [⟨0, 100⟩, ⟨1000, 100⟩, ⟨300, 100⟩] [[], [0], []]
    let W := g.weighing exact.pos false
    Linearization 3 [[], [0], []] g.linearize ∧ ∀ l, Linearization 3 [[], [0], []] l →
        ∀ s, 0 ≤ s → s ≤ W.sizes l → W.diagram l s ≤ W.diagram g.linearize s) := by
  have exact : (new [⟨0, 100⟩, ⟨1000, 100⟩, ⟨300, 100⟩] [[], [0], []]).Exact :=
    ⟨by decide, by decide, by decide⟩
  have rises : ∀ i < 3, ∀ p < 3, p ∈ [[], [0], []].getD i [] → p < i := by decide
  have one : ∀ i < 3, ∀ p ∈ [[], [0], []].getD i [], ∀ q ∈ [[], [0], []].getD i [], p = q := by
    decide
  refine ⟨exact, linearize_optimal _ _ exact ?_ (Or.inl ?_)⟩
  · exact acyclic_of_rank id fun p i parent => rises i parent.1 p parent.2.1 parent.2.2
  · exact fun i p q hp hq => one i hp.1 p hp.2.2 q hq.2.2

/-- Where the sum of two sizes saturates, another order of the same forest has a higher curve. -/
theorem linearize_saturates :
    let g := new [⟨4, (2 ^ 66 - 1) / 7⟩, ⟨0, 2 ^ 63⟩, ⟨7, 2 ^ 63⟩] [[], [], [1]]
    (∀ i p q, Parent 3 [[], [], [1]] p i → Parent 3 [[], [], [1]] q i → p = q) ∧
    Linearization 3 [[], [], [1]] [0, 1, 2] ∧ ∃ pos : ∀ i < g.len, 0 < (g.rateOf i).size,
      (let W := g.weighing pos false
      let s : ℚ := (2 ^ 66 - 1) / 7
      W.diagram g.linearize s < W.diagram [0, 1, 2] s) := by
  have one : ∀ i < 3, ∀ p ∈ [[], [], [1]].getD i [], ∀ q ∈ [[], [], [1]].getD i [], p = q := by
    decide
  exact ⟨fun i p q hp hq => one i hp.1 p hp.2.2 q hq.2.2, .of_forall (by decide) (by decide),
    by decide, by decide +kernel⟩

end DepGraph

end Rbitcoin.Mempool
