import Rbitcoin.Mempool.Ancestors
import Mathlib.Algebra.GroupWithZero.Nat
import Mathlib.Data.Finset.Max
import Mathlib.Data.List.GetD

/-! A linearization lists every position once, and after its ancestors. This does not rest on how
fee rates compare: each of the three stages only ever moves a position where its ancestors allow
it. -/

namespace Rbitcoin.Mempool

open Settle Relation Finset

theorem reduce_mem {α : Type} {f : α → α → α} (pick : ∀ a b, f a b = a ∨ f a b = b) {l : List α}
    {x : α} (h : reduce f l = some x) : x ∈ l := by
  cases l with
  | nil => cases h
  | cons a l =>
    rw [reduce, Option.some.injEq] at h
    subst h
    induction l generalizing a with
    | nil => simp
    | cons b l ih =>
      rw [List.foldl_cons]
      have := ih (f a b)
      rcases pick a b with eq | eq <;> rw [eq] at this ⊢ <;>
        rcases List.mem_cons.mp this with first | rest <;> simp [*]

theorem reduce_isSome {α : Type} {f : α → α → α} {l : List α} (h : l ≠ []) :
    ∃ x, reduce f l = some x := by
  cases l with
  | nil => exact absurd rfl h
  | cons a l => exact ⟨_, rfl⟩

namespace DepGraph

variable (g : DepGraph)

def Before (a b : Nat) : Prop := a ∈ g.anc b ∧ a ≠ b

/-- The ancestor and descendant sets are those of an order on the positions of the cluster. -/
structure WellFormed : Prop where
  lt : ∀ {a b}, a ∈ g.anc b → a < g.len ∧ b < g.len
  self : ∀ {i}, i < g.len → i ∈ g.anc i
  trans : ∀ {a b c}, a ∈ g.anc b → b ∈ g.anc c → a ∈ g.anc c
  antisymm : ∀ {a b}, a ∈ g.anc b → b ∈ g.anc a → a = b
  mem_desc : ∀ {a b}, b ∈ g.desc a ↔ a ∈ g.anc b

variable {parents : List (List Nat)} {lin : List Nat} {done left : TxSet}

theorem new_wellFormed {feerate : List FeeFrac} (acyclic : Acyclic feerate.length parents) :
    (new feerate parents).WellFormed := by
  have enough : feerate.length ≤ (∅ : Finset Nat).card + feerate.length := by simp
  obtain ⟨done, visited, ended⟩ := visited_start.walk_end acyclic enough
  have len_anc : (new feerate parents).ancestors.length = feerate.length := visited.len_anc
  have mem_anc {a b : Nat} (hb : b < feerate.length) := mem_anc_new feerate acyclic hb a
  have lt_of_mem {a b : Nat} (h : a ∈ (new feerate parents).anc b) : b < feerate.length := by
    by_contra out
    rw [anc, List.getD_eq_getElem?_getD, List.getElem?_eq_none (by omega)] at h
    exact absurd h (notMem_empty a)
  have path_lt {a b : Nat} (hb : b < feerate.length)
      (path : ReflTransGen (Parent feerate.length parents) a b) : a < feerate.length := by
    rcases ReflTransGen.cases_head path with rfl | ⟨c, parent, -⟩
    · exact hb
    · exact parent.2.1
  refine ⟨?_, ?_, ?_, ?_, ?_⟩
  · intro a b h
    have hb := lt_of_mem h
    exact ⟨path_lt hb ((mem_anc hb).mp h), hb⟩
  · intro i hi
    exact (mem_anc hi).mpr ReflTransGen.refl
  · intro a b c hab hbc
    have hb := lt_of_mem hab
    have hc := lt_of_mem hbc
    exact (mem_anc hc).mpr (((mem_anc hb).mp hab).trans ((mem_anc hc).mp hbc))
  · intro a b hab hba
    have path := (mem_anc (lt_of_mem hab)).mp hab
    have back := (mem_anc (lt_of_mem hba)).mp hba
    rcases reflTransGen_iff_eq_or_transGen.mp path with same | strict
    · exact same.symm
    · exact absurd (strict.trans_left back) (acyclic a)
  · intro a b
    by_cases ha : a < feerate.length
    · have : (new feerate parents).desc a = ((List.range feerate.length).filter fun i =>
          a ∈ (new feerate parents).anc i).toFinset := by
        simp [desc, new, ha, anc]
      rw [this, List.mem_toFinset, List.mem_filter, List.mem_range, decide_eq_true_eq]
      exact ⟨And.right, fun h => ⟨lt_of_mem h, h⟩⟩
    · have : (new feerate parents).desc a = ∅ := by
        simp [desc, new, ha]
      rw [this]
      refine ⟨fun h => absurd h (notMem_empty b), fun h => absurd ?_ ha⟩
      exact path_lt (lt_of_mem h) ((mem_anc (lt_of_mem h)).mp h)

variable {g} (wf : g.WellFormed)

@[simp] theorem mem_iter {i : Nat} {set : TxSet} : i ∈ g.iter set ↔ i < g.len ∧ i ∈ set := by
  simp [iter]

theorem iter_nodup (set : TxSet) : (g.iter set).Nodup := List.nodup_range.filter _

/-- A list of every position, each once. -/
def Lists (g : DepGraph) (l : List Nat) : Prop := l.Nodup ∧ ∀ x, x ∈ l ↔ x < g.len

theorem Lists.perm {l : List Nat} (h : g.Lists l) : l.Perm (List.range g.len) := by
  rw [List.perm_ext_iff_of_nodup h.1 List.nodup_range]
  intro x
  rw [h.2, List.mem_range]

theorem Lists.of_perm {l l' : List Nat} (h : g.Lists l) (perm : l'.Perm l) : g.Lists l' :=
  ⟨perm.nodup_iff.mpr h.1, fun x => perm.mem_iff.trans (h.2 x)⟩

include wf

theorem WellFormed.before_trans {a b c : Nat} (h : g.Before a b) (h' : g.Before b c) :
    g.Before a c := by
  refine ⟨wf.trans h.1 h'.1, ?_⟩
  rintro rfl
  exact h.2 (wf.antisymm h.1 h'.1)

theorem WellFormed.card_lt {a b : Nat} (h : g.Before a b) : (g.anc a).card < (g.anc b).card := by
  apply card_lt_card
  rw [ssubset_iff_of_subset fun x hx => wf.trans hx h.1]
  exact ⟨b, wf.self (wf.lt h.1).2, fun hb => h.2 (wf.antisymm h.1 hb)⟩

theorem topoOrder_topological (set : TxSet) : Topological g.Before (g.topoOrder set) := by
  let le (i j : Nat) : Prop :=
    (g.anc i).card < (g.anc j).card ∨ (g.anc i).card = (g.anc j).card ∧ i ≤ j
  have : Std.Total le := ⟨fun i j => by omega⟩
  have : IsTrans Nat le := ⟨fun i j k => by omega⟩
  refine (List.pairwise_insertionSort le (g.iter set)).imp ?_
  intro a b sorted before
  have := wf.card_lt before
  omega

/-- What is left has its descendants left, and what is taken is in order. -/
structure Picked (g : DepGraph) (st : Picking) : Prop where
  todo_lt : ∀ x ∈ st.todo, x < g.len
  out_nodup : st.out.Nodup
  out_iff : ∀ x, x ∈ st.out ↔ x < g.len ∧ x ∉ st.todo
  todo_up : ∀ a ∈ st.todo, ∀ b, g.Before a b → b ∈ st.todo
  order : Topological g.Before st.out

theorem Picked.pickBest {st : Picking} (h : Picked g st) (left : st.todo ≠ ∅) :
    ∃ st', g.pickBest st = some st' ∧ Picked g st' ∧ st'.todo.card < st.todo.card := by
  let better := fun b i =>
    if (st.ancRate.getD i default).rank (st.ancRate.getD b default) = .gt then i else b
  have some_left : g.iter st.todo ≠ [] := by
    obtain ⟨x, hx⟩ := nonempty_iff_ne_empty.mpr left
    exact List.ne_nil_of_mem (mem_iter.mpr ⟨h.todo_lt x hx, hx⟩)
  obtain ⟨best, found⟩ := reduce_isSome (f := better) some_left
  have best_left : best ∈ st.todo := by
    refine (mem_iter.mp (reduce_mem ?_ found)).2
    intro a b
    simp only [better]
    split_ifs <;> simp
  have best_in : best ∈ g.anc best ∩ st.todo :=
    mem_inter.mpr ⟨wf.self (h.todo_lt best best_left), best_left⟩
  have mem_topo (x : Nat) : x ∈ g.topoOrder (g.anc best ∩ st.todo) ↔ x ∈ g.anc best ∩ st.todo := by
    rw [topoOrder, List.mem_insertionSort, mem_iter]
    exact ⟨And.right, fun hx => ⟨h.todo_lt x (mem_inter.mp hx).2, hx⟩⟩
  refine ⟨_, by rw [DepGraph.pickBest, found], ⟨?_, ?_, ?_, ?_, ?_⟩, ?_⟩
  · intro x hx
    exact h.todo_lt x (mem_sdiff.mp hx).1
  · refine List.nodup_append.mpr ⟨h.out_nodup, ?_, ?_⟩
    · exact (List.perm_insertionSort _ _).nodup_iff.mpr (iter_nodup _)
    · rintro x taken y hy rfl
      exact ((h.out_iff x).mp taken).2 (mem_inter.mp ((mem_topo x).mp hy)).2
  · intro x
    rw [List.mem_append, h.out_iff, mem_topo, mem_sdiff, not_and, not_not]
    constructor
    · rintro (⟨lt, out⟩ | picked)
      · exact ⟨lt, fun hx => absurd hx out⟩
      · exact ⟨h.todo_lt x (mem_inter.mp picked).2, fun _ => picked⟩
    · rintro ⟨lt, picked⟩
      by_cases hx : x ∈ st.todo
      · exact Or.inr (picked hx)
      · exact Or.inl ⟨lt, hx⟩
  · intro a ha b before
    obtain ⟨a_left, a_out⟩ := mem_sdiff.mp ha
    refine mem_sdiff.mpr ⟨h.todo_up a a_left b before, fun picked => a_out ?_⟩
    exact mem_inter.mpr ⟨wf.trans before.1 (mem_inter.mp picked).1, a_left⟩
  · refine List.pairwise_append.mpr ⟨h.order, topoOrder_topological wf _, ?_⟩
    intro a ha b hb before
    have b_left := (mem_inter.mp ((mem_topo b).mp hb)).2
    exact ((h.out_iff a).mp ha).2 (h.todo_up b b_left a before)
  · exact card_lt_card (sdiff_ssubset inter_subset_right ⟨best, best_in⟩)

variable {rounds : Nat}

theorem Picked.pickAll {st : Picking} (h : Picked g st) (enough : st.todo.card ≤ rounds) :
    Picked g (g.pickAll rounds st) ∧ (g.pickAll rounds st).todo = ∅ := by
  induction rounds generalizing st with
  | zero => exact ⟨h, card_eq_zero.mp (Nat.le_zero.mp enough)⟩
  | succ rounds ih =>
    rw [DepGraph.pickAll]
    by_cases left : st.todo = ∅
    · have stop : g.pickBest st = none := by simp [DepGraph.pickBest, iter, left, reduce]
      rw [stop]
      exact ⟨h, left⟩
    · obtain ⟨st', next, picked, fewer⟩ := h.pickBest wf left
      rw [next]
      exact ih picked (by omega)

omit wf in
def Group.Ok (g : DepGraph) (rev : Bool) (c : Group) : Prop :=
  c.set = c.txs.toFinset ∧
    ∀ a, a ∈ c.deps ↔ ∃ t ∈ c.txs, a ∈ if rev then g.desc t else g.anc t

omit wf in
theorem Group.Ok.absorbBefore {rev : Bool} {cur prev : Group} (h : cur.Ok g rev)
    (h' : prev.Ok g rev) : (cur.absorbBefore prev).Ok g rev := by
  refine ⟨?_, ?_⟩
  · rw [Group.absorbBefore, h.1, h'.1, List.toFinset_append, union_comm]
  · intro a
    rw [Group.absorbBefore, mem_union, h.2, h'.2]
    simp only [List.mem_append]
    constructor
    · rintro (⟨t, ht, dep⟩ | ⟨t, ht, dep⟩)
      · exact ⟨t, Or.inr ht, dep⟩
      · exact ⟨t, Or.inl ht, dep⟩
    · rintro ⟨t, ht | ht, dep⟩
      · exact Or.inr ⟨t, ht, dep⟩
      · exact Or.inl ⟨t, ht, dep⟩

variable (rev : Bool)

omit wf in
theorem single_ok (i : Nat) : (g.single rev i).Ok g rev := by
  cases rev <;> simp [Group.Ok, single]

omit wf in
theorem groups_perm (order : List Nat) : (flat Group.txs (g.groups rev order)).Perm order := by
  have perm := @settleAll_perm _ _ Group.txs (fun cur prev => cur.feerate.higherRate prev.feerate)
    (fun cur prev => !Disjoint cur.deps prev.set) Group.absorbBefore (fun _ _ => rfl)
    (order.map (g.single rev))
  rw [List.flatMap_map] at perm
  simpa [single, groups] using perm

omit wf in
theorem groups_topological {rev : Bool} {R : Nat → Nat → Prop}
    (deps : ∀ {a b}, R b a → b ∈ if rev then g.desc a else g.anc a) {order : List Nat}
    (h : Topological R order) : Topological R (flat Group.txs (g.groups rev order)) := by
  refine settleAll_topological (p := Group.Ok g rev) (fun _ _ => rfl)
    (fun _ _ => Group.Ok.absorbBefore) ?_ ?_ ?_
  · intro cur prev ok ok' apart b hb a ha dep
    rw [Bool.not_eq_false', decide_eq_true_eq, disjoint_left] at apart
    refine apart ((ok.2 b).mpr ⟨a, ha, deps dep⟩) ?_
    rw [ok'.1]
    exact List.mem_toFinset.mpr hb
  · intro c hc
    obtain ⟨i, -, rfl⟩ := List.mem_map.mp hc
    exact single_ok rev i
  · rw [List.flatMap_map]
    simpa [single] using h

omit wf in
theorem pass_perm (lin : List Nat) : (g.pass rev lin).Perm lin := by
  cases rev with
  | false => exact groups_perm false lin
  | true =>
    refine (List.reverse_perm _).trans ?_
    exact (groups_perm true lin.reverse).trans lin.reverse_perm

theorem pass_topological (h : Topological g.Before lin) :
    Topological g.Before (g.pass rev lin) := by
  cases rev with
  | false => exact groups_topological (fun dep => dep.1) h
  | true =>
    have order := @groups_topological g true (fun a b => g.Before b a)
      (fun dep => wf.mem_desc.mpr dep.1) _ h.reverse
    exact order.reverse

omit wf in
theorem postLinearize_perm (lin : List Nat) : (g.postLinearize lin).Perm lin :=
  (pass_perm false _).trans (pass_perm true lin)

theorem postLinearize_topological (h : Topological g.Before lin) :
    Topological g.Before (g.postLinearize lin) :=
  pass_topological wf false (pass_topological wf true h)

omit wf in
theorem chunkLengths_sum (inOrder : List FeeFrac) :
    (chunkLengths inOrder).sum = inOrder.length := by
  let hi := fun cur last : FeeFrac × Nat => cur.1.higherRate last.1
  let join := fun cur last : FeeFrac × Nat => (cur.1.add last.1, cur.2 + last.2)
  have one (gs : List (FeeFrac × Nat)) : ∀ cur,
      ((settle hi (fun _ _ => true) join cur gs).map Prod.snd).sum =
        (gs.map Prod.snd).sum + cur.2 := by
    induction gs with
    | nil => simp [settle]
    | cons last gs ih =>
      intro cur
      rw [settle, if_pos rfl]
      split_ifs
      · rw [ih]
        simp only [List.map_cons, List.sum_cons, join]
        omega
      · simp only [List.map_cons, List.sum_cons]
        omega
  have all (l : List (FeeFrac × Nat)) : ∀ gs,
      ((l.foldl (fun gs cur => settle hi (fun _ _ => true) join cur gs) gs).map Prod.snd).sum =
        (gs.map Prod.snd).sum + (l.map Prod.snd).sum := by
    induction l with
    | nil => simp
    | cons x l ih =>
      intro gs
      rw [List.foldl_cons, ih, one, List.map_cons, List.sum_cons]
      omega
  rw [chunkLengths, List.sum_reverse, settleAll, all]
  simp [Function.comp_def]

omit wf in
theorem chunkLengths_pos (inOrder : List FeeFrac) : ∀ n ∈ chunkLengths inOrder, 0 < n := by
  have sizes : ∀ x ∈ settleAll (fun cur last => cur.1.higherRate last.1) (fun _ _ => true)
      (fun cur last => (cur.1.add last.1, cur.2 + last.2)) (inOrder.map fun fr => (fr, 1)),
      0 < x.2 := by
    apply settleAll_forall
    · exact fun cur last pos _ => Nat.add_pos_left pos _
    · simp
  intro n mem
  obtain ⟨x, listed, rfl⟩ := List.mem_map.mp (List.mem_reverse.mp mem)
  exact sizes x listed

omit wf in
theorem sublist_of_mem_cut {lens piece : List Nat} (mem : piece ∈ cut lens lin) :
    piece.Sublist lin := by
  induction lens generalizing lin with
  | nil => cases mem
  | cons len lens ih =>
    rcases List.mem_cons.mp mem with rfl | later
    · exact List.take_sublist _ _
    · exact (ih later).trans (List.drop_sublist _ _)

omit wf in
theorem ne_nil_of_mem_cut {lens piece : List Nat} (pos : ∀ n ∈ lens, 0 < n)
    (enough : lens.sum ≤ lin.length) (mem : piece ∈ cut lens lin) : piece ≠ [] := by
  induction lens generalizing lin with
  | nil => cases mem
  | cons len lens ih =>
    obtain ⟨first, pos⟩ := List.forall_mem_cons.mp pos
    rw [List.sum_cons] at enough
    rcases List.mem_cons.mp mem with rfl | later
    · rw [← List.length_pos_iff, List.length_take]
      omega
    · exact ih pos (by rw [List.length_drop]; omega) later

omit wf in
theorem flatten_cut {lens : List Nat} (h : lens.sum = lin.length) :
    (cut lens lin).flatten = lin := by
  induction lens generalizing lin with
  | nil =>
    rw [List.sum_nil] at h
    rw [cut, List.flatten_nil, List.eq_nil_of_length_eq_zero h.symm]
  | cons len lens ih =>
    rw [List.sum_cons] at h
    rw [cut, List.flatten_cons, ih (by rw [List.length_drop]; omega), List.take_append_drop]

omit wf in
/-- What is given out is closed under ancestors and in order. -/
structure Emitted (g : DepGraph) (done : TxSet) (out : List Nat) : Prop where
  nodup : out.Nodup
  mem_done : ∀ x, x ∈ done ↔ x ∈ out
  lt : ∀ x ∈ out, x < g.len
  closed : ∀ x ∈ out, ∀ a, g.Before a x → a ∈ out
  order : Topological g.Before out

omit wf in
theorem nextTx_eq_some {t : Nat} (h : g.nextTx left done = some t) :
    t ∈ left ∧ g.anc t \ {t} ⊆ done := by
  have mem := reduce_mem ?_ h
  · rw [List.mem_filter, mem_iter, decide_eq_true_eq] at mem
    exact ⟨mem.1.2, mem.2⟩
  · intro a b
    split_ifs <;> simp

theorem exists_nextTx (nonempty : left ≠ ∅) (left_lt : ∀ x ∈ left, x < g.len)
    (needs : ∀ t ∈ left, ∀ a, g.Before a t → a ∈ left ∨ a ∈ done) :
    ∃ t, g.nextTx left done = some t := by
  obtain ⟨t, ht, least⟩ := exists_min_image left (fun t => (g.anc t).card)
    (nonempty_iff_ne_empty.mpr nonempty)
  apply reduce_isSome
  apply List.ne_nil_of_mem (a := t)
  rw [List.mem_filter, mem_iter, decide_eq_true_eq]
  refine ⟨⟨left_lt t ht, ht⟩, ?_⟩
  intro a ha
  rw [mem_sdiff, mem_singleton] at ha
  rcases needs t ht a ha with a_left | a_done
  · have := least a a_left
    have := wf.card_lt ha
    omega
  · exact a_done

theorem Emitted.emit {out : List Nat} (h : Emitted g done out) (left_lt : ∀ x ∈ left, x < g.len)
    (left_new : ∀ x ∈ left, x ∉ done) (needs : ∀ t ∈ left, ∀ a, g.Before a t → a ∈ left ∨ a ∈ done)
    (enough : left.card ≤ rounds) :
    ∃ l, (g.emit rounds left done out).2 = out ++ l ∧ l.Nodup ∧ (∀ x, x ∈ l ↔ x ∈ left) ∧
      Emitted g (g.emit rounds left done out).1 (out ++ l) := by
  induction rounds generalizing left done out with
  | zero =>
    have none : left = ∅ := card_eq_zero.mp (Nat.le_zero.mp enough)
    refine ⟨[], by simp [DepGraph.emit], List.nodup_nil, by simp [none], ?_⟩
    simpa [DepGraph.emit] using h
  | succ rounds ih =>
    by_cases empty : left = ∅
    · have stop : g.nextTx left done = none := by simp [nextTx, iter, empty, reduce]
      rw [DepGraph.emit, stop]
      exact ⟨[], by simp, List.nodup_nil, by simp [empty], by simpa using h⟩
    · obtain ⟨t, next⟩ := exists_nextTx wf empty left_lt needs
      obtain ⟨t_left, t_needs⟩ := nextTx_eq_some next
      have t_new : t ∉ out := fun ht => left_new t t_left ((h.mem_done t).mpr ht)
      have before_done : ∀ a, g.Before a t → a ∈ out := by
        intro a before
        refine (h.mem_done a).mp (t_needs ?_)
        exact mem_sdiff.mpr ⟨before.1, by simpa using before.2⟩
      have emitted : Emitted g (insert t done) (out ++ [t]) := by
        refine ⟨?_, ?_, ?_, ?_, ?_⟩
        · refine List.nodup_append.mpr ⟨h.nodup, List.nodup_singleton t, ?_⟩
          intro a ha b hb same
          exact t_new (List.mem_singleton.mp hb ▸ same ▸ ha)
        · intro x
          rw [mem_insert, h.mem_done, List.mem_append, List.mem_singleton, or_comm]
        · exact List.forall_mem_append.mpr
            ⟨h.lt, fun _ hx => List.mem_singleton.mp hx ▸ left_lt t t_left⟩
        · intro x hx a before
          rcases List.mem_append.mp hx with hx | hx
          · exact List.mem_append_left _ (h.closed x hx a before)
          · exact List.mem_append_left _ (before_done a (List.mem_singleton.mp hx ▸ before))
        · refine List.pairwise_append.mpr ⟨h.order, List.pairwise_singleton _ _, ?_⟩
          intro a ha b hb before
          rw [List.mem_singleton.mp hb] at before
          exact t_new (h.closed a ha t before)
      have rest_lt : ∀ x ∈ left \ {t}, x < g.len := fun x hx =>
        left_lt x (mem_sdiff.mp hx).1
      obtain ⟨l, out_eq, nodup, mem, emitted'⟩ := ih emitted rest_lt
        (by
          intro x hx
          rw [mem_sdiff, mem_singleton] at hx
          rw [mem_insert, not_or]
          exact ⟨hx.2, left_new x hx.1⟩)
        (by
          intro x hx a before
          rw [mem_sdiff, mem_singleton, mem_insert]
          rcases needs x (mem_sdiff.mp hx).1 a before with a_left | a_done
          · by_cases same : a = t
            · exact Or.inr (Or.inl same)
            · exact Or.inl ⟨a_left, same⟩
          · exact Or.inr (Or.inr a_done))
        (by rw [card_sdiff_of_subset (by simpa using t_left)]; simp; omega)
      rw [DepGraph.emit, next]
      refine ⟨t :: l, by rw [out_eq, List.append_assoc]; rfl, ?_, ?_, ?_⟩
      · refine List.nodup_cons.mpr ⟨fun ht => ?_, nodup⟩
        exact (mem_sdiff.mp ((mem t).mp ht)).2 (mem_singleton_self t)
      · intro x
        rw [List.mem_cons, mem, mem_sdiff]
        by_cases same : x = t
        · simp [same, t_left]
        · simp [same]
      · rw [List.append_assoc] at emitted'
        exact emitted'

omit wf in
/-- The chunks that wait: they hold what is not given out, each position once, and none holds an
ancestor of a chunk before it. -/
structure Waiting (g : DepGraph) (chunks : List ChunkOf) (done : TxSet) (out : List Nat) :
    Prop where
  emitted : Emitted g done out
  lt : ∀ c ∈ chunks, ∀ x ∈ c.set, x < g.len
  new : ∀ c ∈ chunks, ∀ x ∈ c.set, x ∉ done
  cover : ∀ x < g.len, x ∈ done ∨ ∃ c ∈ chunks, x ∈ c.set
  apart : chunks.Pairwise fun c c' => Disjoint c.set c'.set
  order : chunks.Pairwise fun c c' => ∀ t ∈ c.set, ∀ a ∈ c'.set, ¬g.Before a t

namespace Waiting

variable {chunks : List ChunkOf} {done : TxSet} {out : List Nat} (h : Waiting g chunks done out)
include h

omit wf in
theorem ready_iff {c : ChunkOf} (hc : c ∈ chunks) :
    g.ready done c = true ↔ ∀ t ∈ c.set, ∀ a ∈ g.anc t, a ∈ c.set ∨ a ∈ done := by
  simp only [ready, List.all_eq_true, mem_iter, decide_eq_true_eq]
  constructor
  · intro all t ht a ha
    by_cases own : a ∈ c.set
    · exact Or.inl own
    · exact Or.inr (all t ⟨h.lt c hc t ht, ht⟩ (mem_sdiff.mpr ⟨ha, own⟩))
  · rintro all t ⟨-, ht⟩ a ha
    obtain ⟨ha, own⟩ := mem_sdiff.mp ha
    exact (all t ht a ha).resolve_left own

theorem head_ready {c : ChunkOf} {rest : List ChunkOf} (first : chunks = c :: rest) :
    g.ready done c = true := by
  subst first
  rw [h.ready_iff List.mem_cons_self]
  intro t ht a ha
  rcases h.cover a (wf.lt ha).1 with a_done | ⟨c', hc', a_in⟩
  · exact Or.inr a_done
  · rcases List.mem_cons.mp hc' with rfl | later
    · exact Or.inl a_in
    · by_cases same : a = t
      · exact Or.inl (same ▸ ht)
      · exact absurd ⟨ha, same⟩ ((List.pairwise_cons.mp h.order).1 c' later t ht a a_in)

theorem next (left : chunks ≠ []) : ∃ (pick : Nat) (inside : pick < chunks.length) (l : List Nat),
      g.nextChunk chunks done = some pick ∧ g.ready done chunks[pick] = true ∧
      (g.emit g.len chunks[pick].set done out).2 = out ++ l ∧ l.Nodup ∧
      (∀ x, x ∈ l ↔ x ∈ chunks[pick].set) ∧
      Waiting g (chunks.eraseIdx pick) (g.emit g.len chunks[pick].set done out).1 (out ++ l) := by
  let chunk := fun k => chunks.getD k ⟨∅, default, 0⟩
  obtain ⟨c, rest, first⟩ := List.exists_cons_of_ne_nil left
  have zero : 0 ∈ (List.range chunks.length).filter fun k => g.ready done (chunk k) := by
    rw [List.mem_filter, List.mem_range]
    refine ⟨by rw [first]; exact Nat.zero_lt_succ _, ?_⟩
    have at_zero : chunk 0 = c := by simp [chunk, first]
    rw [at_zero]
    exact h.head_ready wf first
  obtain ⟨pick, found⟩ := reduce_isSome (f := fun b k =>
    if ((chunk k).feerate.rank (chunk b).feerate).then (compare (chunk b).top (chunk k).top) = .gt
    then k else b) (List.ne_nil_of_mem zero)
  have picked := reduce_mem (by intro a b; split_ifs <;> simp) found
  rw [List.mem_filter, List.mem_range] at picked
  obtain ⟨inside, is_ready⟩ := picked
  have at_pick : chunk pick = chunks[pick] := List.getD_eq_getElem _ _ inside
  rw [at_pick] at is_ready
  have in_chunks : chunks[pick] ∈ chunks := List.getElem_mem inside
  have needs := (h.ready_iff in_chunks).mp is_ready
  have enough : chunks[pick].set.card ≤ g.len := by
    rw [← card_range g.len]
    exact card_le_card fun x hx => mem_range.mpr (h.lt _ in_chunks x hx)
  obtain ⟨l, out_eq, nodup, mem, emitted⟩ := h.emitted.emit wf (h.lt _ in_chunks)
    (h.new _ in_chunks) (fun t ht a before => needs t ht a before.1) enough
  have apart_pick : ∀ c ∈ chunks.eraseIdx pick, ∀ x ∈ c.set, x ∉ chunks[pick].set := by
    intro c hc x hx
    obtain ⟨j, hj, ne, rfl⟩ := List.mem_eraseIdx_iff_getElem.mp hc
    have := List.pairwise_iff_getElem.mp h.apart
    rcases lt_or_gt_of_ne ne with lt | gt
    · exact disjoint_left.mp (this j pick hj inside lt) hx
    · exact disjoint_right.mp (this pick j inside hj gt) hx
  have still {c : ChunkOf} (hc : c ∈ chunks.eraseIdx pick) : c ∈ chunks :=
    (List.eraseIdx_sublist chunks pick).subset hc
  refine ⟨pick, inside, l, found, is_ready, out_eq, nodup, mem, emitted, ?_, ?_, ?_, ?_, ?_⟩
  · exact fun c hc => h.lt c (still hc)
  · intro c hc x hx given
    rw [emitted.mem_done, List.mem_append, mem, ← h.emitted.mem_done] at given
    exact given.elim (h.new c (still hc) x hx) (apart_pick c hc x hx)
  · intro x hx
    rw [emitted.mem_done, List.mem_append, mem, ← h.emitted.mem_done]
    rcases h.cover x hx with x_done | ⟨c, hc, x_in⟩
    · exact Or.inl (Or.inl x_done)
    · obtain ⟨j, hj, rfl⟩ := List.getElem_of_mem hc
      by_cases same : j = pick
      · subst same
        exact Or.inl (Or.inr x_in)
      · exact Or.inr ⟨_, List.mem_eraseIdx_iff_getElem.mpr ⟨j, hj, same, rfl⟩, x_in⟩
  · exact h.apart.sublist (List.eraseIdx_sublist chunks pick)
  · exact h.order.sublist (List.eraseIdx_sublist chunks pick)

theorem emitChunks (enough : chunks.length ≤ rounds) :
    ∃ done', Waiting g [] done' (g.emitChunks rounds chunks done out) := by
  induction rounds generalizing chunks done out with
  | zero =>
    have none : chunks = [] := List.eq_nil_of_length_eq_zero (Nat.le_zero.mp enough)
    subst none
    exact ⟨done, h⟩
  | succ rounds ih =>
    rw [DepGraph.emitChunks]
    by_cases empty : chunks = []
    · subst empty
      exact ⟨done, h⟩
    · obtain ⟨pick, inside, l, found, -, out_eq, -, -, waiting⟩ := h.next wf empty
      rw [found]
      simp only [List.getD_eq_getElem _ _ inside]
      rw [← out_eq] at waiting
      refine ih waiting ?_
      rw [List.length_eraseIdx_of_lt inside]
      omega

end Waiting

omit wf in
theorem waiting_chunksOf (lists : g.Lists lin) (order : Topological g.Before lin) :
    Waiting g (g.chunksOf lin) ∅ [] := by
  have whole : (cut (chunkLengths (lin.map g.rateOf)) lin).flatten = lin :=
    flatten_cut (by rw [chunkLengths_sum, List.length_map])
  have piece {c : ChunkOf} (hc : c ∈ g.chunksOf lin) :
      ∃ p ∈ cut (chunkLengths (lin.map g.rateOf)) lin, c.set = p.toFinset := by
    obtain ⟨p, hp, rfl⟩ := List.mem_map.mp hc
    exact ⟨p, hp, rfl⟩
  have nodup := lists.1
  rw [← whole, List.nodup_flatten] at nodup
  rw [← whole, Topological, List.pairwise_flatten] at order
  refine ⟨⟨List.nodup_nil, by simp, by simp, by simp, List.Pairwise.nil⟩, ?_, by simp, ?_, ?_, ?_⟩
  · intro c hc x hx
    obtain ⟨p, hp, set⟩ := piece hc
    rw [set, List.mem_toFinset] at hx
    rw [← lists.2, ← whole]
    exact List.mem_flatten.mpr ⟨p, hp, hx⟩
  · intro x hx
    rw [← lists.2, ← whole] at hx
    obtain ⟨p, hp, hx⟩ := List.mem_flatten.mp hx
    exact Or.inr ⟨_, List.mem_map.mpr ⟨p, hp, rfl⟩, List.mem_toFinset.mpr hx⟩
  · refine List.pairwise_map.mpr (nodup.2.imp ?_)
    intro p q apart
    rw [List.disjoint_toFinset_iff_disjoint]
    exact apart
  · refine List.pairwise_map.mpr (order.2.imp ?_)
    intro p q first t ht a ha
    exact first t (List.mem_toFinset.mp ht) a (List.mem_toFinset.mp ha)

theorem outputOrder_lists (lists : g.Lists lin) (order : Topological g.Before lin) :
    g.Lists (g.outputOrder lin) ∧ Topological g.Before (g.outputOrder lin) := by
  obtain ⟨done, waiting⟩ := (waiting_chunksOf lists order).emitChunks wf le_rfl
  refine ⟨⟨waiting.emitted.nodup, ?_⟩, waiting.emitted.order⟩
  intro x
  refine ⟨waiting.emitted.lt x, fun hx => ?_⟩
  rcases waiting.cover x hx with x_done | ⟨c, hc, -⟩
  · exact (waiting.emitted.mem_done x).mp x_done
  · exact absurd hc List.not_mem_nil

theorem pickAll_lists : g.Lists (g.pickAll g.len g.pickStart).out ∧
    Topological g.Before (g.pickAll g.len g.pickStart).out := by
  have start : Picked g g.pickStart := by
    refine ⟨fun x hx => mem_range.mp hx, List.nodup_nil, by simp [pickStart], ?_, List.Pairwise.nil⟩
    exact fun a _ b before => mem_range.mpr (wf.lt before.1).2
  have enough : g.pickStart.todo.card ≤ g.len := by simp [pickStart]
  obtain ⟨picked, none⟩ := start.pickAll wf enough
  refine ⟨⟨picked.out_nodup, fun x => ?_⟩, picked.order⟩
  rw [picked.out_iff, none]
  simp

omit wf in
theorem linearize_lists {feerate : List FeeFrac} (acyclic : Acyclic feerate.length parents) :
    (new feerate parents).Lists (new feerate parents).linearize ∧
      Topological (new feerate parents).Before (new feerate parents).linearize := by
  have wf := new_wellFormed acyclic
  obtain ⟨picked, order⟩ := pickAll_lists wf
  exact outputOrder_lists wf (picked.of_perm (postLinearize_perm _))
    (postLinearize_topological wf order)

omit wf in
theorem before_iff {feerate : List FeeFrac} (acyclic : Acyclic feerate.length parents) {a b : Nat} :
    (new feerate parents).Before a b ↔ TransGen (Parent feerate.length parents) a b := by
  have wf : (new feerate parents).WellFormed := new_wellFormed acyclic
  constructor
  · rintro ⟨anc, ne⟩
    have path := (mem_anc_new feerate acyclic (wf.lt anc).2 a).mp anc
    exact (reflTransGen_iff_eq_or_transGen.mp path).resolve_left (Ne.symm ne)
  · intro path
    obtain ⟨c, -, parent⟩ := TransGen.tail'_iff.mp path
    refine ⟨(mem_anc_new feerate acyclic parent.1 a).mpr path.to_reflTransGen, ?_⟩
    rintro rfl
    exact acyclic a path

omit wf in
theorem Lists.idxOf_lt {feerate : List FeeFrac} (acyclic : Acyclic feerate.length parents)
    (lists : (new feerate parents).Lists lin) (order : Topological (new feerate parents).Before lin)
    {a i : Nat} (path : TransGen (Parent feerate.length parents) a i) :
    lin.idxOf a < lin.idxOf i := by
  have before := (before_iff acyclic).mpr path
  obtain ⟨ha, hi⟩ := (new_wellFormed acyclic).lt before.1
  exact order.idxOf_lt (fun x before => before.2 rfl) ((lists.2 a).mpr ha) ((lists.2 i).mpr hi)
    before

omit wf in
/-- For every acyclic parents relation the linearization lists each position once, after all of its
ancestors. -/
theorem linearize_topological (feerate : List FeeFrac) (parents : List (List Nat))
    (acyclic : Acyclic feerate.length parents) :
    let lin := (new feerate parents).linearize
    lin.Perm (List.range feerate.length) ∧
      ∀ a i, TransGen (Parent feerate.length parents) a i → lin.idxOf a < lin.idxOf i := by
  intro lin
  obtain ⟨lists, order⟩ := linearize_lists acyclic
  exact ⟨lists.perm, fun a i path => lists.idxOf_lt acyclic order path⟩

omit wf in
theorem rank_lt_of_path {n : Nat} {rank : Nat → Nat}
    (h : ∀ p i, Parent n parents p i → rank p < rank i) {a b : Nat}
    (path : TransGen (Parent n parents) a b) : rank a < rank b := by
  induction path with
  | single parent => exact h _ _ parent
  | tail _ parent ih => exact ih.trans (h _ _ parent)

omit wf in
theorem acyclic_of_rank {n : Nat} (rank : Nat → Nat)
    (h : ∀ p i, Parent n parents p i → rank p < rank i) : Acyclic n parents :=
  fun _ path => lt_irrefl _ (rank_lt_of_path h path)

omit wf in
theorem linearize_topological_chain :
    (let lin := (new [⟨1, 1⟩, ⟨5, 2⟩, ⟨9, 1⟩] [[1], [], [0, 1]]).linearize
    lin.Perm (List.range 3) ∧
      ∀ a i, TransGen (Parent 3 [[1], [], [0, 1]]) a i → lin.idxOf a < lin.idxOf i) := by
  refine linearize_topological [⟨1, 1⟩, ⟨5, 2⟩, ⟨9, 1⟩] [[1], [], [0, 1]] ?_
  refine acyclic_of_rank (fun i => [1, 0, 2].getD i 0) ?_
  have all : ∀ i < 3, ∀ p < 3, p ∈ [[1], [], [0, 1]].getD i [] →
      [1, 0, 2].getD p 0 < [1, 0, 2].getD i 0 := by decide
  exact fun p i parent => all i parent.1 p parent.2.1 parent.2.2

end DepGraph

end Rbitcoin.Mempool
