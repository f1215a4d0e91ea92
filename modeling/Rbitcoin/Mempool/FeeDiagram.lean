import Rbitcoin.Lib.Forest
import Rbitcoin.Mempool.Topology

/-! Where no sum or product of fees and sizes saturates, the merge and swap passes and the output
order never lower the curve of fee against size, and the curve is optimal for a forest. -/

namespace Rbitcoin.Mempool.DepGraph

open Diagram Relation Settle Weighing List

variable (g : DepGraph) (rev : Bool)

/-- Fees change their sign in the pass from the end. -/
def signed (fee : Int) : Int := if rev then -fee else fee

def total (l : List Nat) : FeeFrac :=
  ⟨(l.map fun i => signed rev (g.rateOf i).fee).sum, (l.map fun i => (g.rateOf i).size).sum⟩

/-- All sizes are positive and no saturation can happen. -/
structure Exact : Prop where
  pos : ∀ i < g.len, 0 < (g.rateOf i).size
  sizes : ((List.range g.len).map fun i => (g.rateOf i).size).sum ≤ u64Max
  cross : ((List.range g.len).map fun i => |(g.rateOf i).fee|).sum *
    ((List.range g.len).map fun i => (g.rateOf i).size).sum ≤ i128Max

def weighing (pos : ∀ i < g.len, 0 < (g.rateOf i).size) (rev : Bool) : Weighing Nat ℚ where
  fee i := signed rev (g.rateOf i).fee
  size i := if i < g.len then (g.rateOf i).size else 1
  size_pos := by
    intro i
    split_ifs with hi
    · exact_mod_cast pos i hi
    · exact one_pos

/-- A part of the cluster: positions of it, each once. -/
def Part (l : List Nat) : Prop := l.Nodup ∧ ∀ i ∈ l, i < g.len

variable {g}

theorem Part.of_perm {l l' : List Nat} (h : g.Part l) (perm : l'.Perm l) : g.Part l' :=
  ⟨perm.nodup_iff.mpr h.1, fun i hi => h.2 i (perm.mem_iff.mp hi)⟩

theorem Part.sublist {l l' : List Nat} (h : g.Part l) (sub : l'.Sublist l) : g.Part l' :=
  ⟨h.1.sublist sub, fun i hi => h.2 i (sub.subset hi)⟩

variable {l : List Nat}

theorem Part.sum_le {M : Type} [AddCommMonoid M] [PartialOrder M] [IsOrderedAddMonoid M]
    {f : Nat → M} (nonneg : ∀ i, 0 ≤ f i) (h : g.Part l) :
    (l.map f).sum ≤ ((range g.len).map f).sum := by
  obtain ⟨l', perm, sub⟩ :=
    subperm_of_subset h.1 fun i hi => mem_range.mpr (h.2 i hi)
  rw [← (perm.map f).sum_eq]
  apply (sub.map f).sum_le_sum
  intro x hx
  obtain ⟨i, -, rfl⟩ := mem_map.mp hx
  exact nonneg i

theorem clampI128_of_abs_le {x : Int} (h : |x| ≤ i128Max) : clampI128 x = x := by
  rw [abs_le] at h
  rw [clampI128, min_eq_left h.2, max_eq_right]
  refine le_trans ?_ h.1
  decide

@[simp] theorem total_append (a b : List Nat) : g.total rev (a ++ b) =
    ⟨(g.total rev a).fee + (g.total rev b).fee, (g.total rev a).size + (g.total rev b).size⟩ := by
  simp [total]

variable {a b : List Nat}

theorem total_perm (perm : a.Perm b) : g.total rev a = g.total rev b := by
  rw [total, total, (perm.map _).sum_eq, (perm.map _).sum_eq]

section Exact

variable (exact : g.Exact) (rev : Bool)
include exact

omit exact in
theorem abs_total_fee_le (h : g.Part l) : |(g.total rev l).fee| ≤
    ((range g.len).map fun i => |(g.rateOf i).fee|).sum := by
  have abs_signed (x : Int) : |signed rev x| = |x| := by
    cases rev <;> simp [signed]
  have part : |(g.total rev l).fee| ≤ (l.map fun i => |(g.rateOf i).fee|).sum := by
    clear h
    induction l with
    | nil => simp [total]
    | cons i l ih =>
      have split : (g.total rev (i :: l)).fee = signed rev (g.rateOf i).fee + (g.total rev l).fee :=
        sum_cons
      rw [split, map_cons, sum_cons]
      refine (abs_add_le _ _).trans ?_
      rw [abs_signed]
      exact add_le_add le_rfl ih
  exact part.trans (h.sum_le fun i => abs_nonneg _)

theorem abs_cross_le (ha : g.Part a) (hb : g.Part b) :
    |(g.total rev a).fee * (g.total rev b).size| ≤ i128Max := by
  refine le_trans ?_ exact.cross
  rw [abs_mul, Nat.abs_cast]
  have size_le : (g.total rev b).size ≤ ((range g.len).map fun i => (g.rateOf i).size).sum :=
    hb.sum_le fun i => Nat.zero_le _
  exact mul_le_mul (abs_total_fee_le rev ha) (by exact_mod_cast size_le) (Nat.cast_nonneg _)
    (sum_nonneg (by simp))

theorem abs_fee_le_max (h : g.Part l) : |(g.total rev l).fee| ≤ i128Max := by
  cases l with
  | nil => simp [total, i128Max]
  | cons i l =>
    -- A position of the cluster has a size, so that a product bounds its factor.
    have hi : g.Part [i] := h.sublist (by simp)
    have := abs_cross_le exact rev h hi
    refine le_trans ?_ this
    have one : (1 : Int) ≤ (g.total rev [i]).size := by
      have := exact.pos i (h.2 i mem_cons_self)
      simp only [total, map_cons, sum_cons]
      omega
    rw [abs_mul, Nat.abs_cast]
    exact le_mul_of_one_le_right (abs_nonneg _) one

theorem add_total (h : g.Part (a ++ b)) :
    (g.total rev b).add (g.total rev a) = g.total rev (a ++ b) := by
  have size_le : (g.total rev (a ++ b)).size ≤ u64Max :=
    (h.sum_le fun i => Nat.zero_le _).trans exact.sizes
  have fee_le := abs_fee_le_max exact rev h
  rw [total_append] at size_le fee_le ⊢
  rw [FeeFrac.add, add_comm (g.total rev b).fee, clampI128_of_abs_le fee_le,
    add_comm (g.total rev b).size, min_eq_left size_le]

theorem fees_weighing (l : List Nat) : (g.weighing exact.pos rev).fees l = (g.total rev l).fee := by
  induction l with
  | nil => simp [fees, total]
  | cons i l ih =>
    simp only [fees, total, map_cons, sum_cons] at ih ⊢
    rw [ih]
    push_cast
    rfl

theorem sizes_weighing (h : ∀ i ∈ l, i < g.len) :
    (g.weighing exact.pos rev).sizes l = (g.total rev l).size := by
  induction l with
  | nil => simp [total]
  | cons i l ih =>
    have first : (g.weighing exact.pos rev).size i = (g.rateOf i).size :=
      if_pos (h i mem_cons_self)
    have rest := ih (forall_mem_cons.mp h).2
    simp only [sizes, total, map_cons, sum_cons] at rest ⊢
    rw [rest, first]
    push_cast
    rfl

theorem higherRate_total (ha : g.Part a) (hb : g.Part b) :
    (g.total rev a).higherRate (g.total rev b) = (g.weighing exact.pos rev).higher a b := by
  rw [FeeFrac.higherRate, FeeFrac.cross, clampI128_of_abs_le (abs_cross_le exact rev ha hb),
    clampI128_of_abs_le (abs_cross_le exact rev hb ha), higher, fees_weighing exact,
    fees_weighing exact, sizes_weighing exact rev ha.2, sizes_weighing exact rev hb.2]
  exact_mod_cast rfl

omit exact in
/-- Something of `cur` depends on something of `prev`, in the direction of the pass. -/
def depends (g : DepGraph) (rev : Bool) (cur prev : List Nat) : Bool :=
  decide (∃ b ∈ prev, ∃ a ∈ cur, b ≠ a ∧ b ∈ if rev then g.desc a else g.anc a)

omit exact in
def Group.Fits (g : DepGraph) (rev : Bool) (c : Group) : Prop :=
  c.Ok g rev ∧ c.feerate = g.total rev c.txs

omit exact in
/-- The groups and the moving group are parts of the cluster, with their own sums. -/
def Fitting (g : DepGraph) (rev : Bool) (cur : Group) (gs : List Group) : Prop :=
  (cur.Fits g rev ∧ ∀ c ∈ gs, c.Fits g rev) ∧ g.Part (flat Group.txs gs ++ cur.txs)

omit exact in
theorem Fitting.tail (cur c : Group) (gs : List Group) (h : Fitting g rev cur (c :: gs)) :
    Fitting g rev cur gs := by
  obtain ⟨⟨fits, all⟩, part⟩ := h
  refine ⟨⟨fits, (forall_mem_cons.mp all).2⟩, part.sublist ?_⟩
  rw [flat_cons]
  exact (sublist_append_left _ _).append_right _

theorem Fitting.join (cur c : Group) (gs : List Group) (h : Fitting g rev cur (c :: gs)) :
    Fitting g rev (cur.absorbBefore c) gs := by
  obtain ⟨⟨fits, all⟩, part⟩ := h
  have fits_c := all c mem_cons_self
  rw [flat_cons, append_assoc] at part
  refine ⟨⟨⟨fits.1.absorbBefore fits_c.1, ?_⟩, (forall_mem_cons.mp all).2⟩, part⟩
  rw [Group.absorbBefore, fits.2, fits_c.2]
  exact add_total exact rev (part.sublist (sublist_append_right _ _))

theorem Fitting.same (cur c : Group) (gs : List Group) (h : Fitting g rev cur (c :: gs)) :
    (g.weighing exact.pos rev).higher cur.txs c.txs = cur.feerate.higherRate c.feerate ∧
    g.depends rev cur.txs c.txs = !Disjoint cur.deps c.set ∧
    takeIn cur.txs c.txs = (cur.absorbBefore c).txs := by
  obtain ⟨⟨fits, all⟩, part⟩ := h
  have fits_c := all c mem_cons_self
  rw [flat_cons, append_assoc] at part
  have part_c := part.sublist (sublist_append_right _ _)
  refine ⟨?_, ?_, rfl⟩
  · rw [fits.2, fits_c.2, higherRate_total exact rev (part_c.sublist (sublist_append_right _ _))
      (part_c.sublist (sublist_append_left _ _))]
  · rw [depends, ← decide_not, decide_eq_decide, Finset.not_disjoint_iff]
    constructor
    · rintro ⟨b, hb, a, ha, -, dep⟩
      exact ⟨b, (fits.1.2 b).mpr ⟨a, ha, dep⟩, fits_c.1.1 ▸ mem_toFinset.mpr hb⟩
    · rintro ⟨b, dep, hb⟩
      rw [fits_c.1.1, mem_toFinset] at hb
      obtain ⟨a, ha, dep⟩ := (fits.1.2 b).mp dep
      exact ⟨b, hb, a, ha, (nodup_append.mp part_c.1).2.2 b hb a ha, dep⟩

theorem single_feerate {x : Nat} (part : g.Part [x]) :
    (g.single rev x).feerate = g.total rev [x] := by
  have total_single : g.total rev [x] = ⟨signed rev (g.rateOf x).fee, (g.rateOf x).size⟩ := by
    simp [total]
  cases rev with
  | false => exact total_single.symm
  | true =>
    have fee_le := abs_fee_le_max exact true part
    rw [total_single] at fee_le ⊢
    have not_least : (g.rateOf x).fee ≠ i128Min := by
      intro least
      have too_large : ¬|signed true i128Min| ≤ i128Max := by decide
      exact too_large (least ▸ fee_le)
    rw [single, FeeFrac.negFee, if_neg not_least]
    rfl

theorem groups_settleByRate {order : List Nat} (part : g.Part order) :
    (g.weighing exact.pos rev).settleByRate (g.depends rev) order =
      (g.groups rev order).map Group.txs ∧ ∀ c ∈ g.groups rev order, c.Fits g rev := by
  induction order using reverseRecOn with
  | nil => exact ⟨rfl, fun c hc => absurd hc not_mem_nil⟩
  | append_singleton order x ih =>
    obtain ⟨same, fits⟩ := ih (part.sublist (sublist_append_left _ _))
    have last : g.groups rev (order ++ [x]) =
        settle (fun cur prev => cur.feerate.higherRate prev.feerate)
          (fun cur prev => !Disjoint cur.deps prev.set) Group.absorbBefore (g.single rev x)
          (g.groups rev order) := by
      simp [groups, settleAll]
    have single_fits : (g.single rev x).Fits g rev :=
      ⟨single_ok rev x, single_feerate exact rev (part.sublist (sublist_append_right _ _))⟩
    have fitting : Fitting g rev (g.single rev x) (g.groups rev order) :=
      ⟨⟨single_fits, fits⟩, part.of_perm ((groups_perm rev order).append_right [x])⟩
    rw [last, settleByRate_concat, same]
    refine ⟨?_, ?_⟩
    · exact settle_map _ _ _ (Fitting.tail rev) (Fitting.join exact rev) (Fitting.same exact rev)
        fitting
    · exact settle_forall_of_inv _ _ _ (Fitting.tail rev) (Fitting.join exact rev)
        (fun cur gs h => h.1) fitting

/-- A pass never lowers the fee diagram. -/
theorem dominated_pass {lin : List Nat} (part : g.Part lin) :
    (g.weighing exact.pos false).Dominated lin (g.pass rev lin) := by
  have flat_map (gs : List Group) : flat Group.txs gs = flat id (gs.map Group.txs) := by
    simp [flat, flatMap_map, ← map_reverse]
  cases rev with
  | false =>
    have settled := dominated_settleByRate (W := g.weighing exact.pos false) (g.depends false) lin
    rw [(groups_settleByRate exact false part).1, ← flat_map] at settled
    exact settled
  | true =>
    have settled := dominated_settleByRate (W := g.weighing exact.pos true)
      (g.depends true) lin.reverse
    rw [(groups_settleByRate exact true (part.of_perm lin.reverse_perm)).1, ← flat_map] at settled
    -- The weighing of the pass from the end has the fees of the other with the opposite sign.
    have neg_eq : g.weighing exact.pos true = (g.weighing exact.pos false).neg := by
      simp [weighing, neg, signed]
    rw [neg_eq] at settled
    have back := settled.reverse (groups_perm true lin.reverse).symm
    rwa [reverse_reverse] at back

omit exact in
theorem cut_lengths (gs : List (List Nat)) : cut (gs.map length) gs.flatten = gs := by
  induction gs with
  | nil => rfl
  | cons c gs ih =>
    rw [map_cons, flatten_cons, cut, take_left, drop_left, ih]

/-- The chunks that the code cuts are those of the diagram. -/
theorem cut_chunkLengths {lin : List Nat} (part : g.Part lin) :
    cut (chunkLengths (lin.map g.rateOf)) lin =
      ((g.weighing exact.pos false).chunks lin).reverse := by
  let W := g.weighing exact.pos false
  let f (c : List Nat) : FeeFrac × Nat := (g.total false c, c.length)
  let hi := fun cur last : FeeFrac × Nat => cur.1.higherRate last.1
  let join := fun cur last : FeeFrac × Nat => (cur.1.add last.1, cur.2 + last.2)
  have stack : settleAll hi (fun _ _ => true) join ((lin.map g.rateOf).map fun fr => (fr, 1)) =
      (W.chunks lin).map f := by
    induction lin using reverseRecOn with
    | nil => rfl
    | append_singleton lin x ih =>
      let inv (cur : List Nat) (gs : List (List Nat)) : Prop := g.Part (flat id gs ++ cur)
      have start : inv [x] (W.chunks lin) := by
        show g.Part (flat id (W.chunks lin) ++ [x])
        rw [flat_chunks (W := W) lin]
        exact part
      have first : (g.rateOf x, 1) = f [x] := by simp [f, total, signed]
      have step : W.chunks (lin ++ [x]) =
          settle W.higher (fun _ _ => true) takeIn [x] (W.chunks lin) :=
        settleByRate_concat _ _ _
      have before := ih (part.sublist (sublist_append_left _ _))
      rw [settleAll, map_append, map_append, foldl_append, ← settleAll, before, step]
      simp only [map_cons, first]
      have split (cur c : List Nat) (gs : List (List Nat)) (h : inv cur (c :: gs)) :
          g.Part (flat id gs ++ (c ++ cur)) := by
        have whole : g.Part (flat id (c :: gs) ++ cur) := h
        rwa [flat_cons, append_assoc] at whole
      refine settle_map _ _ _ ?_ split ?_ start
      · intro cur c gs h
        exact (split cur c gs h).sublist ((sublist_append_right _ _).append_left _)
      · intro cur c gs h
        have part_c := (split cur c gs h).sublist (sublist_append_right _ _)
        refine ⟨?_, rfl, ?_⟩
        · exact higherRate_total exact false (part_c.sublist (sublist_append_right _ _))
            (part_c.sublist (sublist_append_left _ _))
        · refine Prod.ext (add_total exact false part_c) ?_
          simp [f, join, add_comm]
  have flat_eq := flat_chunks (W := W) lin
  rw [flat, flatMap_id] at flat_eq
  rw [chunkLengths, stack, List.map_map, ← List.map_reverse]
  have cut_eq := cut_lengths (W.chunks lin).reverse
  rwa [flat_eq] at cut_eq

end Exact

end Rbitcoin.Mempool.DepGraph
