import Mathlib.Data.List.Nodup
import Mathlib.Data.List.Range
import Mathlib.Data.Nat.Bitwise
import Mathlib.Algebra.BigOperators.Group.List.Basic

/-! Peeling a hypergraph with edges `0, …, n - 1`: as long as some vertex is in one edge only, take
that edge away. The algorithm keeps for every vertex its degree and the exclusive or of its edges,
so a vertex of degree one names its edge. A peeled graph can be labelled so that the labels of the
vertices of an edge add up to what that edge asks for. -/

namespace Rbitcoin.Peel

open List Function Prod

/-- Degrees, the exclusive or of the edges at a vertex, the vertices still to look at and the edges
taken away, each with the vertex that named it. -/
structure Scratch where
  deg : Nat → Nat
  xorE : Nat → Nat
  q : List Nat
  order : List (Nat × Nat)

def Scratch.empty : Scratch := ⟨fun _ => 0, fun _ => 0, [], []⟩

/-- Count vertex `v` of edge `e`. A degree is a byte. -/
def addVertex (e : Nat) (st : Scratch) (v : Nat) : Option Scratch :=
  if st.deg v = 255 then none
  else some { st with
    deg := update st.deg v (st.deg v + 1)
    xorE := update st.xorE v (st.xorE v ^^^ e) }

/-- Uncount vertex `u` of edge `e`; a vertex left in one edge is queued. -/
def removeVertex (e : Nat) (st : Scratch) (u : Nat) : Option Scratch :=
  if st.deg u = 0 then none
  else some { st with
    deg := update st.deg u (st.deg u - 1)
    xorE := update st.xorE u (st.xorE u ^^^ e)
    q := if st.deg u - 1 = 1 then st.q ++ [u] else st.q }

variable (verts : Nat → List Nat) (n : Nat)

def addEdges (st : Scratch) (edges : List Nat) : Option Scratch :=
  edges.foldlM (fun st e => (verts e).foldlM (addVertex e) st) st

/-- Work off the queue. -/
def drain : Nat → Scratch → Option Scratch
  | 0, st => if st.q = [] then some st else none
  | fuel + 1, st =>
    match st.q with
    | [] => some st
    | v :: q =>
      if st.deg v ≠ 1 then drain fuel { st with q }
      else if n ≤ st.xorE v then none
      else
        let e := st.xorE v
        match (verts e).foldlM (removeVertex e) { st with q, order := st.order ++ [(e, v)] } with
        | none => none
        | some st => drain fuel st

/-- Peel a graph of `n` edges on the vertices below `m`: the edges in the order they went, or
`none`. An edge of three vertices queues at most three, which bounds the fuel. -/
def order (m : Nat) : Option (List (Nat × Nat)) := do
  let st ← addEdges verts .empty (List.range n)
  let st ← drain verts n (m + 3 * n) { st with q := (List.range m).filter (st.deg · = 1) }
  if st.order.length = n then some st.order else none

/-! ### What the scratch counts -/

def degree (edges : List Nat) (v : Nat) : Nat := (edges.map fun e => (verts e).count v).sum

/-- `e` as often as `c` says, under exclusive or. -/
def xorTimes (e c : Nat) : Nat := if c % 2 = 1 then e else 0

theorem xorTimes_succ (e c : Nat) : xorTimes e (c + 1) = xorTimes e c ^^^ e := by
  rcases Nat.mod_two_eq_zero_or_one c with h | h
  · have : (c + 1) % 2 = 1 := by omega
    simp [xorTimes, h, this]
  · have : (c + 1) % 2 = 0 := by omega
    simp [xorTimes, h, this]

def xorAll (edges : List Nat) (v : Nat) : Nat :=
  edges.foldr (fun e x => xorTimes e ((verts e).count v) ^^^ x) 0

variable {verts n}

/-- The scratch describes the graph of the edges `edges`. -/
structure Counts (verts : Nat → List Nat) (edges : List Nat) (st : Scratch) : Prop where
  deg_eq : ∀ v, st.deg v = degree verts edges v
  xor_eq : ∀ v, st.xorE v = xorAll verts edges v

theorem xorAll_append (a b : List Nat) (v : Nat) :
    xorAll verts (a ++ b) v = xorAll verts a v ^^^ xorAll verts b v := by
  induction a with
  | nil => simp [xorAll]
  | cons e a ih =>
    simp only [xorAll, cons_append, foldr_cons, Nat.xor_assoc] at ih ⊢
    rw [ih]

theorem degree_perm {a b : List Nat} (h : a.Perm b) (v : Nat) :
    degree verts a v = degree verts b v :=
  (h.map _).sum_eq

theorem xorAll_perm {a b : List Nat} (h : a.Perm b) (v : Nat) :
    xorAll verts a v = xorAll verts b v :=
  h.foldr_eq' (fun _ _ _ _ _ => by ac_rfl) 0

theorem xorTimes_add (e c d : Nat) : xorTimes e (c + d) = xorTimes e c ^^^ xorTimes e d := by
  induction d with
  | zero => simp [xorTimes]
  | succ d ih => rw [← add_assoc, xorTimes_succ, xorTimes_succ, ih, Nat.xor_assoc]

/-- `st'` has the vertices `vs` of edge `e` more than `st`, and the same edges behind it. -/
structure More (e : Nat) (vs : List Nat) (st st' : Scratch) : Prop where
  deg_eq : ∀ v, st'.deg v = st.deg v + vs.count v
  xor_eq : ∀ v, st'.xorE v = st.xorE v ^^^ xorTimes e (vs.count v)
  order_eq : st'.order = st.order

theorem More.refl (e : Nat) (st : Scratch) : More e [] st st := ⟨by simp, by simp [xorTimes], rfl⟩

variable {e v : Nat} {st st' : Scratch} {edges left : List Nat}

theorem More.trans {us vs : List Nat} {a b c : Scratch} (h : More e us a b) (h' : More e vs b c) :
    More e (us ++ vs) a c where
  deg_eq v := by rw [h'.deg_eq, h.deg_eq, count_append, add_assoc]
  xor_eq v := by rw [h'.xor_eq, h.xor_eq, count_append, xorTimes_add, Nat.xor_assoc]
  order_eq := h'.order_eq.trans h.order_eq

theorem More.of_perm {us vs : List Nat} {a b : Scratch} (h : More e us a b) (perm : us.Perm vs) :
    More e vs a b where
  deg_eq v := by rw [h.deg_eq, perm.count_eq]
  xor_eq v := by rw [h.xor_eq, perm.count_eq]
  order_eq := h.order_eq

theorem update_eq {α : Type} (f : Nat → α) (u : Nat) (x : α) (v : Nat) :
    update f u x v = if u = v then x else f v := by
  rw [update_apply]
  simp only [eq_comm]

theorem addVertex_more (h : addVertex e st v = some st') : More e [v] st st' := by
  rw [addVertex] at h
  split_ifs at h
  cases h
  refine ⟨fun u => ?_, fun u => ?_, rfl⟩
  · simp only [update_eq]
    by_cases same : v = u <;> simp [same]
  · simp only [update_eq]
    by_cases same : v = u <;> simp [same, xorTimes]

theorem removeVertex_more (h : removeVertex e st v = some st') : More e [v] st' st := by
  rw [removeVertex] at h
  rcases Nat.eq_zero_or_pos (st.deg v) with zero | pos
  · rw [if_pos zero] at h
    cases h
  rw [if_neg (by omega)] at h
  cases h
  refine ⟨fun u => ?_, fun u => ?_, rfl⟩
  · simp only [update_eq, count_singleton]
    by_cases same : v = u
    · subst same
      simp only [if_true, beq_self_eq_true]
      omega
    · simp [same]
  · simp only [update_eq]
    by_cases same : v = u <;> simp [same, xorTimes]

theorem addVertices_more (vs : List Nat) (h : vs.foldlM (addVertex e) st = some st') :
    More e vs st st' := by
  induction vs generalizing st with
  | nil =>
    cases h
    exact .refl e _
  | cons u vs ih =>
    obtain ⟨mid, added, rest⟩ := Option.bind_eq_some_iff.mp h
    exact (addVertex_more added).trans (ih rest)

theorem removeVertices_more (vs : List Nat) (h : vs.foldlM (removeVertex e) st = some st') :
    More e vs st' st := by
  induction vs generalizing st with
  | nil =>
    cases h
    exact .refl e _
  | cons u vs ih =>
    obtain ⟨mid, removed, rest⟩ := Option.bind_eq_some_iff.mp h
    exact ((ih rest).trans (removeVertex_more removed)).of_perm (perm_append_singleton u vs)

theorem Counts.add (h : Counts verts edges st) (more : More e (verts e) st st') :
    Counts verts (edges ++ [e]) st' where
  deg_eq v := by rw [more.deg_eq, h.deg_eq]; simp [degree]
  xor_eq v := by rw [more.xor_eq, h.xor_eq, xorAll_append]; simp [xorAll]

theorem addEdges_counts (edges behind : List Nat) (h : Counts verts behind st)
    (added : addEdges verts st edges = some st') :
    Counts verts (behind ++ edges) st' ∧ st'.order = st.order := by
  induction edges generalizing st behind with
  | nil =>
    cases added
    exact ⟨by simpa using h, rfl⟩
  | cons e edges ih =>
    obtain ⟨mid, first, rest⟩ := Option.bind_eq_some_iff.mp added
    have more := addVertices_more _ first
    obtain ⟨counts, same⟩ := ih (behind ++ [e]) (h.add more) rest
    exact ⟨by simpa using counts, same.trans more.order_eq⟩

theorem Counts.remove {rest : List Nat} (h : Counts verts edges st) (split : edges.Perm (e :: rest))
    (more : More e (verts e) st' st) : Counts verts rest st' where
  deg_eq v := by
    have total := h.deg_eq v
    rw [degree_perm split, more.deg_eq] at total
    simp only [degree, map_cons, sum_cons] at total ⊢
    omega
  xor_eq v := by
    have total := h.xor_eq v
    rw [xorAll_perm split, more.xor_eq] at total
    rw [Nat.xor_comm] at total
    exact Nat.xor_right_injective total

theorem degree_eq_zero : degree verts edges v = 0 ↔ ∀ e ∈ edges, v ∉ verts e := by
  induction edges with
  | nil => simp [degree]
  | cons e edges ih =>
    simp only [degree, map_cons, sum_cons, Nat.add_eq_zero_iff, count_eq_zero,
      mem_cons, forall_eq_or_imp] at ih ⊢
    rw [ih]

theorem xorAll_eq_zero (h : ∀ e ∈ edges, v ∉ verts e) : xorAll verts edges v = 0 := by
  induction edges with
  | nil => rfl
  | cons e edges ih =>
    have none : (verts e).count v = 0 := count_eq_zero.mpr (h e mem_cons_self)
    have rest := ih (forall_mem_cons.mp h).2
    simp only [xorAll, foldr_cons] at rest ⊢
    rw [rest, none]
    simp [xorTimes]

theorem degree_one (h : degree verts edges v = 1) :
    ∃ e rest, edges.Perm (e :: rest) ∧ xorAll verts edges v = e ∧ (verts e).count v = 1 ∧
      ∀ x ∈ rest, v ∉ verts x := by
  induction edges with
  | nil => simp [degree] at h
  | cons x edges ih =>
    simp only [degree, map_cons, sum_cons] at h
    rcases Nat.eq_zero_or_pos ((verts x).count v) with none | some
    · obtain ⟨e, rest, split, named, once, others⟩ := ih (by rw [degree]; omega)
      refine ⟨e, x :: rest, (split.cons x).trans (.swap ..), ?_, once, ?_⟩
      · simp only [xorAll, foldr_cons] at named ⊢
        rw [named, none]
        simp [xorTimes]
      · exact forall_mem_cons.mpr ⟨count_eq_zero.mp none, others⟩
    · have once : (verts x).count v = 1 := by omega
      have others : ∀ y ∈ edges, v ∉ verts y := degree_eq_zero.mp (by rw [degree]; omega)
      refine ⟨x, edges, .refl _, ?_, once, others⟩
      have zero := xorAll_eq_zero others
      simp only [xorAll, foldr_cons] at zero ⊢
      rw [zero, once]
      simp [xorTimes]

/-- Each edge of `order` was named by a vertex that is in no edge behind it. -/
structure Peeled (verts : Nat → List Nat) (order : List (Nat × Nat)) : Prop where
  once : ∀ x ∈ order, (verts x.1).count x.2 = 1
  apart : order.Pairwise fun x y => x.2 ∉ verts y.1

/-- The invariant of the queue: the scratch describes the edges `left`, the others are peeled, and
their vertices are in no edge that is left. -/
structure Peeling (verts : Nat → List Nat) (n : Nat) (left : List Nat) (st : Scratch) : Prop where
  counts : Counts verts left st
  perm : (st.order.map fst ++ left).Perm (List.range n)
  peeled : Peeled verts st.order
  gone : ∀ x ∈ st.order, ∀ e ∈ left, x.2 ∉ verts e

theorem Peeling.requeue (h : Peeling verts n left st) (q : List Nat) :
    Peeling verts n left { st with q } :=
  ⟨⟨h.counts.deg_eq, h.counts.xor_eq⟩, h.perm, h.peeled, h.gone⟩

theorem Peeling.take {q : List Nat} (h : Peeling verts n left st) (one : st.deg v = 1)
    (removed : (verts (st.xorE v)).foldlM (removeVertex (st.xorE v))
      { st with q, order := st.order ++ [(st.xorE v, v)] } = some st') :
    ∃ rest, left.Perm (st.xorE v :: rest) ∧ Peeling verts n rest st' := by
  obtain ⟨e, rest, split, named, once, others⟩ := degree_one (h.counts.deg_eq v ▸ one)
  rw [h.counts.xor_eq, named] at removed ⊢
  have more := removeVertices_more _ removed
  have order_eq : st'.order = st.order ++ [(e, v)] := more.order_eq.symm
  have member {x : Nat} (hx : x ∈ rest) : x ∈ left := split.mem_iff.mpr (mem_cons_of_mem _ hx)
  refine ⟨rest, split, ?_, ?_, ⟨?_, ?_⟩, ?_⟩
  · have start : Counts verts left { st with q, order := st.order ++ [(e, v)] } :=
      ⟨h.counts.deg_eq, h.counts.xor_eq⟩
    exact start.remove split more
  · rw [order_eq, map_append, append_assoc]
    exact ((split.symm.append_left _).trans h.perm)
  · intro x hx
    rw [order_eq, mem_append, mem_singleton] at hx
    rcases hx with hx | rfl
    · exact h.peeled.once x hx
    · exact once
  · rw [order_eq, pairwise_append]
    refine ⟨h.peeled.apart, pairwise_singleton _ _, fun x hx y hy => ?_⟩
    rw [mem_singleton] at hy
    subst hy
    exact h.gone x hx e (split.mem_iff.mpr mem_cons_self)
  · intro x hx y hy
    rw [order_eq, mem_append, mem_singleton] at hx
    rcases hx with hx | rfl
    · exact h.gone x hx y (member hy)
    · exact others y hy

theorem drain_peeling {fuel : Nat} (h : Peeling verts n left st)
    (ran : drain verts n fuel st = some st') : ∃ left', Peeling verts n left' st' := by
  induction fuel generalizing st left with
  | zero =>
    rw [drain] at ran
    split_ifs at ran
    cases ran
    exact ⟨left, h⟩
  | succ fuel ih =>
    rw [drain] at ran
    split at ran
    · cases ran
      exact ⟨left, h⟩
    · rename_i v q _
      by_cases one : st.deg v = 1
      · rw [if_neg (not_not.mpr one)] at ran
        split_ifs at ran
        simp only at ran
        split at ran
        · cases ran
        · rename_i mid removed
          obtain ⟨rest, -, next⟩ := h.take one removed
          exact ih next ran
      · rw [if_pos one] at ran
        exact ih (h.requeue q) ran

theorem start_peeling {m : Nat} (added : addEdges verts .empty (range n) = some st) :
    Peeling verts n (range n) { st with q := (range m).filter (st.deg · = 1) } := by
  have fresh : Counts verts [] .empty := ⟨fun _ => rfl, fun _ => rfl⟩
  obtain ⟨counts, same⟩ := addEdges_counts (range n) [] fresh added
  have none : st.order = [] := same
  refine ⟨⟨counts.deg_eq, counts.xor_eq⟩, ?_, ⟨?_, ?_⟩, ?_⟩ <;> simp [none]

/-- Every edge is taken once, each named by a vertex that no later edge has. -/
theorem order_peeled {m : Nat} {ord : List (Nat × Nat)} (h : order verts n m = some ord) :
    (ord.map fst).Perm (range n) ∧ Peeled verts ord := by
  simp only [order, Option.bind_eq_bind, Option.bind_eq_some_iff] at h
  obtain ⟨st, added, st', drained, h⟩ := h
  split_ifs at h with all
  cases h
  obtain ⟨left, final⟩ := drain_peeling (start_peeling added) drained
  have nothing : left = [] := by
    have size := final.perm.length_eq
    rw [length_append, length_map, all, length_range] at size
    exact length_eq_zero_iff.mp (by omega)
  exact ⟨by simpa [nothing] using final.perm, final.peeled⟩

theorem length_le_of_nodup {l : List Nat} {n : Nat} (nodup : l.Nodup) (below : ∀ v ∈ l, v < n) :
    l.length ≤ n := by
  have within : l ⊆ range n := fun v mem => mem_range.mpr (below v mem)
  have := (subperm_of_subset nodup within).length_le
  rwa [length_range] at this

theorem exists_vertex {ord : List (Nat × Nat)} (perm : (ord.map fst).Perm (range n)) {i : Nat}
    (hi : i < n) : ∃ v, (i, v) ∈ ord := by
  have : i ∈ ord.map fst := perm.mem_iff.mpr (mem_range.mpr hi)
  obtain ⟨⟨_, v⟩, hx, rfl⟩ := mem_map.mp this
  exact ⟨v, hx⟩

namespace Peeled

variable {ord : List (Nat × Nat)} (h : Peeled verts ord)
include h

theorem mem_verts {x : Nat × Nat} (hx : x ∈ ord) : x.2 ∈ verts x.1 := by
  have := h.once x hx
  exact count_pos_iff.mp (by omega)

theorem vertices_nodup : (ord.map snd).Nodup := by
  rw [Nodup, pairwise_map]
  refine h.apart.imp_of_mem fun {x y} _ hy apart same => ?_
  exact apart (same ▸ h.mem_verts hy)

theorem edges_eq {x y : Nat × Nat} (hx : x ∈ ord) (hy : y ∈ ord) (same : verts x.1 = verts y.1) :
    x = y := by
  by_contra differ
  have either : ord.Pairwise fun x y => x.2 ∉ verts y.1 ∨ y.2 ∉ verts x.1 := h.apart.imp .inl
  have : Std.Symm fun x y : Nat × Nat => x.2 ∉ verts y.1 ∨ y.2 ∉ verts x.1 := ⟨fun _ _ => Or.symm⟩
  rcases either.forall hx hy differ with apart | apart
  · exact apart (same ▸ h.mem_verts hx)
  · exact apart (same ▸ h.mem_verts hy)

omit h in
theorem keys_nodup {κ : Type} {keys : List κ} (hash : κ → List Nat) (d : κ)
    (h : Peeled (fun i => hash (keys.getD i d)) ord)
    (perm : (ord.map fst).Perm (range keys.length)) : keys.Nodup := by
  rw [nodup_iff_injective_getElem]
  intro ⟨i, hi⟩ ⟨j, hj⟩ same
  simp only at same
  obtain ⟨v, hv⟩ := exists_vertex perm hi
  obtain ⟨w, hw⟩ := exists_vertex perm hj
  have entries := h.edges_eq hv hw
    (by rw [getD_eq_getElem _ _ hi, getD_eq_getElem _ _ hj, same])
  exact Fin.ext (congrArg fst entries)

end Peeled

/-- Label the vertices so that the labels of the vertices of an edge add up to `target` of the edge
and the vertex that named it, modulo `r`. The edges are taken in reverse, and a vertex without a
label counts as zero. -/
def assign (verts : Nat → List Nat) (target : Nat → Nat → Nat) (r : Nat) :
    List (Nat × Nat) → (Nat → Nat) × (Nat → Bool)
  | [] => (fun _ => 0, fun _ => false)
  | (e, v) :: rest =>
    let (g, assigned) := assign verts target r rest
    let s := ((verts e).map fun u => if assigned u then g u else 0).sum
    (update g v ((target e v + r - s % r) % r), update assigned v true)

section Labels

variable {target : Nat → Nat → Nat} {r : Nat}

theorem assign_assigned (ord : List (Nat × Nat)) (u : Nat) :
    (assign verts target r ord).2 u = true ↔ u ∈ ord.map snd := by
  induction ord with
  | nil => simp [assign]
  | cons x rest ih =>
    simp only [assign]
    by_cases same : x.2 = u
    · simp [same]
    · simp [Ne.symm same, ih]

theorem assign_lt (verts : Nat → List Nat) (target : Nat → Nat → Nat) (pos : 0 < r)
    (ord : List (Nat × Nat)) (u : Nat) : (assign verts target r ord).1 u < r := by
  induction ord with
  | nil => exact pos
  | cons x ord ih =>
    simp only [assign, update_eq]
    split_ifs
    · exact Nat.mod_lt _ pos
    · exact ih

theorem assign_unassigned (ord : List (Nat × Nat)) {u : Nat}
    (h : (assign verts target r ord).2 u = false) : (assign verts target r ord).1 u = 0 := by
  induction ord with
  | nil => rfl
  | cons x rest ih =>
    simp only [assign, update_eq] at h ⊢
    split_ifs at h ⊢ with same
    exact ih h

theorem sum_update_of_notMem {g : Nat → Nat} {x : Nat} {vs : List Nat} (absent : v ∉ vs) :
    (vs.map (update g v x)).sum = (vs.map g).sum := by
  have others : vs.map (update g v x) = vs.map g :=
    map_congr_left fun w hw => update_of_ne (by rintro rfl; exact absent hw) _ _
  rw [others]

theorem sum_update {g : Nat → Nat} {x : Nat} (vs : List Nat) (once : vs.count v = 1)
    (zero : g v = 0) : (vs.map (update g v x)).sum = (vs.map g).sum + x := by
  induction vs with
  | nil => simp at once
  | cons u vs ih =>
    simp only [map_cons, sum_cons]
    by_cases same : u = v
    · subst same
      have absent : u ∉ vs := by
        rw [count_cons_self] at once
        exact count_eq_zero.mp (by omega)
      rw [update_self, sum_update_of_notMem absent, zero]
      omega
    · rw [count_cons_of_ne same] at once
      rw [update_of_ne same, ih once]
      omega

theorem add_complement_mod (pos : 0 < r) (s t : Nat) : (s + (t + r - s % r) % r) % r = t % r := by
  have small := Nat.mod_lt s pos
  have whole : s % r + (t + r - s % r) = t + r := by omega
  rw [Nat.add_mod, Nat.mod_mod, ← Nat.mod_add_mod, Nat.mod_mod, ← Nat.add_mod, ← Nat.mod_add_mod,
    whole, Nat.add_mod_right]

/-- The labels of the vertices of a peeled edge add up to its target. -/
theorem assign_sum (pos : 0 < r) {ord : List (Nat × Nat)} (h : Peeled verts ord) :
    ∀ x ∈ ord, ((verts x.1).map (assign verts target r ord).1).sum % r = target x.1 x.2 % r := by
  induction ord with
  | nil => simp
  | cons x rest ih =>
    obtain ⟨e, v⟩ := x
    obtain ⟨behind, apart⟩ := pairwise_cons.mp h.apart
    have tail : Peeled verts rest := ⟨(forall_mem_cons.mp h.once).2, apart⟩
    intro x hx
    rcases mem_cons.mp hx with rfl | hx
    · have fresh : (assign verts target r rest).2 v = false := by
        rw [← Bool.not_eq_true, assign_assigned, mem_map]
        rintro ⟨y, hy, rfl⟩
        exact behind y hy (tail.mem_verts hy)
      have labels : ((verts e).map fun u => if (assign verts target r rest).2 u then
          (assign verts target r rest).1 u else 0) =
          (verts e).map (assign verts target r rest).1 := by
        refine map_congr_left fun u _ => ?_
        split_ifs with label
        · rfl
        · rw [assign_unassigned rest (by simpa using label)]
      simp only [assign, labels]
      rw [sum_update _ (h.once _ mem_cons_self) (assign_unassigned rest fresh)]
      exact add_complement_mod pos _ _
    · have absent : v ∉ verts x.1 := behind x hx
      simp only [assign]
      rw [sum_update_of_notMem absent]
      exact ih tail x hx

end Labels

end Rbitcoin.Peel
