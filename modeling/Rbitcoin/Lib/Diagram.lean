import Rbitcoin.Lib.Settle
import Mathlib.Algebra.Order.BigOperators.Group.List
import Mathlib.Algebra.Order.Field.Basic
import Mathlib.Data.List.Infix
import Mathlib.Tactic.Linarith
import Mathlib.Tactic.FieldSimp
import Mathlib.Tactic.Ring

/-! Orders of elements that have a fee and a size, compared by the curve of fee against size. The
curve of an order is the hull of its prefixes. Two curves are compared through what the orders are
worth at every price `c` of a unit of size: the best value of a prefix. -/

namespace Rbitcoin.Diagram

open Settle List

variable {α K : Type*} [Field K] [LinearOrder K]

structure Weighing (α K : Type*) [Field K] [LinearOrder K] where
  fee : α → K
  size : α → K
  size_pos : ∀ a, 0 < size a

namespace Weighing

variable (W : Weighing α K)

def fees (l : List α) : K := (l.map W.fee).sum
def sizes (l : List α) : K := (l.map W.size).sum
def rate (l : List α) : K := W.fees l / W.sizes l

variable (c : K)

/-- What a list is worth when a unit of size costs `c`. -/
def value (l : List α) : K := W.fees l - c * W.sizes l

/-- The rate of `a` is above the rate of `b`. -/
def higher (a b : List α) : Bool := W.fees b * W.sizes a < W.fees a * W.sizes b

@[simp] theorem value_nil : W.value c [] = 0 := by simp [value, fees, sizes]

@[simp] theorem sizes_nil : W.sizes [] = 0 := rfl

theorem sizes_append (a b : List α) : W.sizes (a ++ b) = W.sizes a + W.sizes b := by
  simp [sizes]

theorem value_append (a b : List α) : W.value c (a ++ b) = W.value c a + W.value c b := by
  simp only [value, fees, sizes, map_append, sum_append]
  ring

theorem value_perm {a b : List α} (h : a.Perm b) : W.value c a = W.value c b := by
  rw [value, value, fees, fees, sizes, sizes, (h.map W.fee).sum_eq, (h.map W.size).sum_eq]

variable [IsStrictOrderedRing K]

theorem sizes_nonneg (l : List α) : 0 ≤ W.sizes l := by
  apply sum_nonneg
  intro x hx
  obtain ⟨a, _, rfl⟩ := mem_map.mp hx
  exact (W.size_pos a).le

variable {l : List α} {gs : List (List α)}

theorem sizes_pos (h : l ≠ []) : 0 < W.sizes l := by
  cases l with
  | nil => exact absurd rfl h
  | cons a l =>
    have first := W.size_pos a
    have rest := W.sizes_nonneg l
    simp only [sizes, map_cons, sum_cons] at rest ⊢
    linarith

theorem sizes_le_of_sublist {a b : List α} (h : a.Sublist b) : W.sizes a ≤ W.sizes b := by
  apply (h.map W.size).sum_le_sum
  intro x hx
  obtain ⟨a, _, rfl⟩ := mem_map.mp hx
  exact (W.size_pos a).le

section Rate

variable {W} {a b : List α} {c : K}

theorem value_nonpos_iff (ha : a ≠ []) : W.value c a ≤ 0 ↔ W.rate a ≤ c := by
  rw [value, rate, sub_nonpos, div_le_iff₀ (W.sizes_pos ha)]

theorem value_nonneg_iff (ha : a ≠ []) : 0 ≤ W.value c a ↔ c ≤ W.rate a := by
  rw [value, rate, sub_nonneg, le_div_iff₀ (W.sizes_pos ha)]

theorem higher_iff (ha : a ≠ []) (hb : b ≠ []) : W.higher a b = true ↔ W.rate b < W.rate a := by
  rw [higher, decide_eq_true_eq, rate, rate, div_lt_div_iff₀ (W.sizes_pos hb) (W.sizes_pos ha)]

theorem le_rate_append (ha : a ≠ []) (hb : b ≠ []) (h : c ≤ W.rate a) (h' : c ≤ W.rate b) :
    c ≤ W.rate (a ++ b) := by
  rw [← value_nonneg_iff (by simp [ha]), value_append]
  exact add_nonneg ((value_nonneg_iff ha).mpr h) ((value_nonneg_iff hb).mpr h')

/-- A list of no higher rate and no larger size is worth no more where the other is worth
something. -/
theorem value_le_of_rate_le (ha : a ≠ []) (hb : b ≠ []) (h : W.rate a ≤ W.rate b)
    (le : W.sizes a ≤ W.sizes b) (c : K) : W.value c a ≤ max (W.value c b) 0 := by
  rcases le_total (W.rate b) c with below | above
  · exact le_max_of_le_right ((value_nonpos_iff ha).mpr (h.trans below))
  · apply le_max_of_le_left
    have fees_eq (l : List α) (hl : l ≠ []) : W.fees l = W.rate l * W.sizes l := by
      rw [rate, div_mul_cancel₀ _ (W.sizes_pos hl).ne']
    calc W.value c a = (W.rate a - c) * W.sizes a := by rw [value, fees_eq a ha]; ring
      _ ≤ (W.rate b - c) * W.sizes a := mul_le_mul_of_nonneg_right (by linarith) (W.sizes_nonneg a)
      _ ≤ (W.rate b - c) * W.sizes b := mul_le_mul_of_nonneg_left le (by linarith)
      _ = W.value c b := by rw [value, fees_eq b hb]; ring

end Rate

/-- What groups are worth when those that lose are left out. -/
def gain (gs : List (List α)) : K := (gs.map fun g => max (W.value c g) 0).sum

/-- The groups are in order of their rates, the lowest rate at the head. -/
abbrev Descending (gs : List (List α)) : Prop := gs.Pairwise fun g h => W.rate g ≤ W.rate h

omit [IsStrictOrderedRing K] in
@[simp] theorem gain_nil : W.gain c [] = 0 := rfl

omit [IsStrictOrderedRing K] in
@[simp] theorem gain_cons (g : List α) (gs : List (List α)) :
    W.gain c (g :: gs) = max (W.value c g) 0 + W.gain c gs := by simp [gain]

omit [IsStrictOrderedRing K] in
theorem gain_perm {hs : List (List α)} (h : gs.Perm hs) : W.gain c gs = W.gain c hs :=
  (h.map _).sum_eq

theorem value_flat_le_gain (gs : List (List α)) : W.value c (flat id gs) ≤ W.gain c gs := by
  induction gs with
  | nil => simp
  | cons g gs ih =>
    rw [flat_cons, value_append, add_comm]
    exact add_le_add (le_max_left _ _) ih

omit [IsStrictOrderedRing K] in
theorem gain_eq_value (h : ∀ g ∈ gs, 0 ≤ W.value c g) : W.gain c gs = W.value c (flat id gs) := by
  induction gs with
  | nil => simp
  | cons g gs ih =>
    rw [flat_cons, value_append, gain_cons, ih (forall_mem_cons.mp h).2, id,
      max_eq_left (h g mem_cons_self), add_comm]

omit [IsStrictOrderedRing K] in
theorem gain_eq_zero (h : ∀ g ∈ gs, W.value c g ≤ 0) : W.gain c gs = 0 := by
  induction gs with
  | nil => rfl
  | cons g gs ih =>
    rw [gain_cons, ih (forall_mem_cons.mp h).2, max_eq_right (h g mem_cons_self), add_zero]

variable {W}

theorem exists_prefix (desc : W.Descending gs) (nonempty : ∀ g ∈ gs, g ≠ []) :
    ∃ p, p <+: flat id gs ∧ W.gain c gs = W.value c p := by
  induction gs with
  | nil => exact ⟨[], prefix_refl _, by simp⟩
  | cons g gs ih =>
    obtain ⟨lowest, desc⟩ := pairwise_cons.mp desc
    obtain ⟨hg, nonempty⟩ := forall_mem_cons.mp nonempty
    rcases le_total c (W.rate g) with above | below
    · refine ⟨flat id (g :: gs), prefix_refl _, W.gain_eq_value c ?_⟩
      exact forall_mem_cons.mpr
        ⟨(value_nonneg_iff hg).mpr above,
          fun h hh => (value_nonneg_iff (nonempty h hh)).mpr (above.trans (lowest h hh))⟩
    · obtain ⟨p, hp, eq⟩ := ih desc nonempty
      refine ⟨p, ?_, ?_⟩
      · rw [flat_cons]
        exact hp.trans (prefix_append _ _)
      · rw [gain_cons, max_eq_right ((value_nonpos_iff hg).mpr below), zero_add, eq]

/-- A group takes another in by coming right behind it. -/
def takeIn (cur g : List α) : List α := g ++ cur

variable (W) in
def settleByRate (dep : List α → List α → Bool) (l : List α) : List (List α) :=
  settleAll W.higher dep takeIn (l.map fun a => [a])

section SettleByRate

variable {dep : List α → List α → Bool} {cur : List α} {gs : List (List α)}
  (hcur : cur ≠ []) (nonempty : ∀ g ∈ gs, g ≠ []) (desc : W.Descending gs)
include hcur nonempty

omit [IsStrictOrderedRing K] in
theorem settle_nonempty : ∀ g ∈ settle W.higher dep takeIn cur gs, g ≠ [] := by
  refine settle_forall _ _ _ ?_ hcur nonempty
  intro a b ha _ eq
  exact ha (append_eq_nil_iff.mp eq).2

theorem settle_above {k : List α} (below : W.rate k ≤ W.rate cur)
    (below_gs : ∀ g ∈ gs, W.rate k ≤ W.rate g) :
    ∀ g ∈ settle W.higher dep takeIn cur gs, W.rate k ≤ W.rate g := by
  have all := settle_forall W.higher dep takeIn (p := fun g => g ≠ [] ∧ W.rate k ≤ W.rate g) ?_
    ⟨hcur, below⟩ fun g hg => ⟨nonempty g hg, below_gs g hg⟩
  · exact fun g hg => (all g hg).2
  · intro a b ha hb
    exact ⟨by simp [takeIn, ha.1], le_rate_append hb.1 ha.1 hb.2 ha.2⟩

include desc

theorem settle_descending : W.Descending (settle W.higher dep takeIn cur gs) := by
  induction gs generalizing cur with
  | nil => simp [settle]
  | cons g gs ih =>
    obtain ⟨lowest, desc_tail⟩ := pairwise_cons.mp desc
    obtain ⟨hg, nonempty⟩ := forall_mem_cons.mp nonempty
    rw [settle]
    split_ifs with hi depends
    · exact ih (by simp [takeIn, hcur]) nonempty desc_tail
    · rw [higher_iff hcur hg] at hi
      exact pairwise_cons.mpr ⟨settle_above hcur nonempty hi.le lowest, ih hcur nonempty desc_tail⟩
    · rw [higher_iff hcur hg, not_lt] at hi
      refine pairwise_cons.mpr ⟨?_, desc⟩
      exact forall_mem_cons.mpr ⟨hi, fun h hh => hi.trans (lowest h hh)⟩

theorem gain_le_settle (c : K) : W.gain c gs ≤ W.gain c (settle W.higher dep takeIn cur gs) := by
  induction gs generalizing cur with
  | nil => simp [settle]
  | cons g gs ih =>
    obtain ⟨lowest, desc_tail⟩ := pairwise_cons.mp desc
    obtain ⟨hg, nonempty⟩ := forall_mem_cons.mp nonempty
    rw [settle]
    split_ifs with hi depends
    · rw [higher_iff hcur hg] at hi
      rcases le_total (W.rate g) c with below | above
      · rw [gain_cons, max_eq_right ((value_nonpos_iff hg).mpr below), zero_add]
        exact ih (by simp [takeIn, hcur]) nonempty desc_tail
      · -- Every group is worth something, so that the groups are worth what their elements are.
        have worth : ∀ h ∈ g :: gs, 0 ≤ W.value c h := by
          exact forall_mem_cons.mpr
            ⟨(value_nonneg_iff hg).mpr above,
              fun h hh => (value_nonneg_iff (nonempty h hh)).mpr (above.trans (lowest h hh))⟩
        have cur_worth : 0 ≤ W.value c cur := (value_nonneg_iff hcur).mpr (above.trans hi.le)
        have perm := @settle_perm _ _ id W.higher dep takeIn (fun _ _ => rfl) (takeIn cur g) gs
        calc W.gain c (g :: gs) = W.value c (flat id (g :: gs)) := W.gain_eq_value c worth
          _ ≤ W.value c (flat id (g :: gs)) + W.value c cur := by linarith
          _ = W.value c (flat id (settle W.higher dep takeIn (takeIn cur g) gs)) := by
            rw [W.value_perm c perm, flat_cons, id, id, takeIn, ← value_append, append_assoc]
          _ ≤ W.gain c (settle W.higher dep takeIn (takeIn cur g) gs) := W.value_flat_le_gain c _
    · exact add_le_add le_rfl (ih hcur nonempty desc_tail)
    · rw [W.gain_cons c cur (g :: gs)]
      have : 0 ≤ max (W.value c cur) 0 := le_max_right _ _
      linarith

end SettleByRate

section Pass

variable (dep : List α → List α → Bool) (l : List α)

omit [IsStrictOrderedRing K] in
theorem settleByRate_concat (a : α) : W.settleByRate dep (l ++ [a]) =
    settle W.higher dep takeIn [a] (W.settleByRate dep l) := by
  simp [settleByRate, settleAll]

omit [IsStrictOrderedRing K] in
theorem settleByRate_perm : (flat id (W.settleByRate dep l)).Perm l := by
  have perm := @settleAll_perm _ _ id W.higher dep takeIn (fun _ _ => rfl) (l.map fun a => [a])
  simpa [settleByRate, flatMap_map] using perm

theorem settleByRate_groups : (∀ g ∈ W.settleByRate dep l, g ≠ []) ∧
    W.Descending (W.settleByRate dep l) := by
  induction l using reverseRecOn with
  | nil => exact ⟨fun g hg => absurd hg not_mem_nil, Pairwise.nil⟩
  | append_singleton l a ih =>
    rw [settleByRate_concat]
    have single : [a] ≠ [] := cons_ne_nil a []
    exact ⟨settle_nonempty single ih.1, settle_descending single ih.1 ih.2⟩

theorem value_le_gain_settleByRate (c : K) {p : List α} (hp : p <+: l) :
    W.value c p ≤ W.gain c (W.settleByRate dep l) := by
  induction l using reverseRecOn with
  | nil =>
    rw [prefix_nil.mp hp, value_nil]
    rfl
  | append_singleton l a ih =>
    obtain ⟨nonempty, desc⟩ := settleByRate_groups (W := W) dep l
    rcases prefix_concat_iff.mp hp with whole | before
    · have perm := settleByRate_perm (W := W) dep (l ++ [a])
      rw [whole, ← W.value_perm c perm]
      exact W.value_flat_le_gain c _
    · rw [settleByRate_concat]
      exact (ih before).trans (gain_le_settle (cons_ne_nil a []) nonempty desc c)

end Pass

variable (W) in
/-- At every price each prefix of `l` is matched by one of `l'`. -/
def Dominated (l l' : List α) : Prop :=
  ∀ c p, p <+: l → ∃ p', p' <+: l' ∧ W.value c p ≤ W.value c p'

omit [IsStrictOrderedRing K] in
theorem Dominated.trans {l₁ l₂ l₃ : List α} (h : W.Dominated l₁ l₂) (h' : W.Dominated l₂ l₃) :
    W.Dominated l₁ l₃ := by
  intro c p hp
  obtain ⟨q, hq, le⟩ := h c p hp
  obtain ⟨r, hr, le'⟩ := h' c q hq
  exact ⟨r, hr, le.trans le'⟩

theorem dominated_flat (nonempty : ∀ g ∈ gs, g ≠ []) (desc : W.Descending gs)
    (le : ∀ c p, p <+: l → W.value c p ≤ W.gain c gs) : W.Dominated l (flat id gs) := by
  intro c p hp
  obtain ⟨q, hq, eq⟩ := exists_prefix c desc nonempty
  exact ⟨q, hq, eq ▸ le c p hp⟩

theorem dominated_settleByRate (dep : List α → List α → Bool) (l : List α) :
    W.Dominated l (flat id (W.settleByRate dep l)) :=
  dominated_flat (settleByRate_groups dep l).1 (settleByRate_groups dep l).2
    fun c _ hp => value_le_gain_settleByRate dep l c hp

variable (W) in
/-- Fees with the opposite sign, for orders that are read from their end. -/
def neg : Weighing α K := { W with fee := fun a => -W.fee a }

omit [IsStrictOrderedRing K] in
theorem value_neg (l : List α) : W.neg.value c l = -W.value (-c) l := by
  have fees_neg : W.neg.fees l = -W.fees l := by
    induction l with
    | nil => simp [fees]
    | cons a l ih =>
      simp only [fees, neg, map_cons, sum_cons] at ih ⊢
      rw [ih]
      ring
  rw [value, value, fees_neg]
  show -W.fees l - c * W.sizes l = _
  ring

theorem Dominated.reverse {l' : List α} (perm : l.Perm l') (h : W.neg.Dominated l l') :
    W.Dominated l.reverse l'.reverse := by
  intro c p ⟨r, split⟩
  have split' : r.reverse ++ p.reverse = l := by
    rw [← reverse_append, split, reverse_reverse]
  obtain ⟨q, ⟨t, hq⟩, le⟩ := h (-c) r.reverse ⟨p.reverse, split'⟩
  refine ⟨t.reverse, ⟨q.reverse, by rw [← reverse_append, hq]⟩, ?_⟩
  rw [value_neg, value_neg, neg_neg, W.value_perm c r.reverse_perm] at le
  have whole := W.value_perm c perm
  rw [← split', ← hq, value_append, value_append, W.value_perm c r.reverse_perm,
    W.value_perm c p.reverse_perm] at whole
  rw [W.value_perm c t.reverse_perm]
  linarith

section Curve

/-- The curve through the ends of the groups, the first group at the head. -/
def curve (W : Weighing α K) : List (List α) → K → K
  | [], _ => 0
  | g :: gs, s =>
    if s ≤ W.sizes g then W.fees g * s / W.sizes g else W.fees g + curve W gs (s - W.sizes g)

variable {s : K}

theorem curve_le_gain (c : K) (nonempty : ∀ g ∈ gs, g ≠ []) (hs : 0 ≤ s)
    (inside : s ≤ W.sizes gs.flatten) : W.curve gs s ≤ W.gain c gs + c * s := by
  induction gs generalizing s with
  | nil =>
    have zero : s = 0 := le_antisymm inside hs
    simp [curve, zero]
  | cons g gs ih =>
    have size := W.sizes_pos (nonempty g mem_cons_self)
    have gain_nonneg : 0 ≤ W.gain c gs := sum_nonneg (by simp)
    rw [curve, gain_cons]
    split_ifs with within
    · have share : W.fees g * s / W.sizes g = W.value c g * (s / W.sizes g) + c * s := by
        rw [value]
        field_simp
        ring
      have part : s / W.sizes g ≤ 1 := (div_le_one size).mpr within
      have part_nonneg : 0 ≤ s / W.sizes g := div_nonneg hs size.le
      have : W.value c g * (s / W.sizes g) ≤ max (W.value c g) 0 :=
        calc W.value c g * (s / W.sizes g)
            ≤ max (W.value c g) 0 * (s / W.sizes g) :=
              mul_le_mul_of_nonneg_right (le_max_left _ _) part_nonneg
          _ ≤ max (W.value c g) 0 := mul_le_of_le_one_right (le_max_right _ _) part
      linarith
    · rw [flatten_cons, sizes_append] at inside
      have rest := ih (forall_mem_cons.mp nonempty).2
        (sub_nonneg.mpr (not_le.mp within).le) (by linarith)
      have : W.value c g ≤ max (W.value c g) 0 := le_max_left _ _
      rw [value] at this ⊢
      linarith [mul_sub c s (W.sizes g)]

theorem exists_gain_eq_curve (nonempty : ∀ g ∈ gs, g ≠ [])
    (desc : gs.Pairwise fun g h => W.rate h ≤ W.rate g) (hs : 0 < s)
    (inside : s ≤ W.sizes gs.flatten) :
    ∃ g ∈ gs, W.curve gs s = W.gain (W.rate g) gs + W.rate g * s := by
  induction gs generalizing s with
  | nil => exact absurd (lt_of_lt_of_le hs inside) (lt_irrefl 0)
  | cons g gs ih =>
    obtain ⟨highest, desc⟩ := pairwise_cons.mp desc
    obtain ⟨hg, nonempty⟩ := forall_mem_cons.mp nonempty
    rw [curve]
    split_ifs with within
    · refine ⟨g, mem_cons_self, ?_⟩
      have nothing : W.gain (W.rate g) (g :: gs) = 0 := by
        apply gain_eq_zero
        exact forall_mem_cons.mpr
          ⟨(value_nonpos_iff hg).mpr le_rfl,
            fun h hh => (value_nonpos_iff (nonempty h hh)).mpr (highest h hh)⟩
      rw [nothing, zero_add, rate, div_mul_eq_mul_div]
    · rw [flatten_cons, sizes_append] at inside
      obtain ⟨h, hh, eq⟩ := ih nonempty desc (sub_pos.mpr (not_le.mp within)) (by linarith)
      refine ⟨h, mem_cons_of_mem _ hh, ?_⟩
      have worth : 0 ≤ W.value (W.rate h) g := (value_nonneg_iff hg).mpr (highest h hh)
      rw [gain_cons, max_eq_left worth, eq, value]
      ring

variable (W) in
/-- The groups of an order that rise to their end: a later group joins the one before it at a
strictly higher rate. The last group is at the head. -/
def chunks (l : List α) : List (List α) := W.settleByRate (fun _ _ => true) l

variable (W) in
def diagram (l : List α) (s : K) : K := W.curve (W.chunks l).reverse s

omit [IsStrictOrderedRing K] in
theorem flat_chunks (l : List α) : flat id (W.chunks l) = l := by
  have joins : ∀ (gs : List (List α)) (cur : List α),
      flat id (settle W.higher (fun _ _ => true) takeIn cur gs) = flat id gs ++ cur := by
    intro gs
    induction gs with
    | nil => simp [settle]
    | cons g gs ih =>
      intro cur
      rw [settle, if_pos rfl]
      split_ifs
      · rw [ih, takeIn, flat_cons, id, append_assoc]
      · rw [flat_cons, id]
  induction l using reverseRecOn with
  | nil => rfl
  | append_singleton l a ih => rw [chunks, settleByRate_concat, joins, ← chunks, ih]

theorem diagram_le_of_dominated {l' : List α} (perm : l.Perm l') (h : W.Dominated l l')
    (hs : 0 ≤ s) (inside : s ≤ W.sizes l) : W.diagram l s ≤ W.diagram l' s := by
  have sizes_chunks (l : List α) : W.sizes (W.chunks l).reverse.flatten = W.sizes l := by
    have := flat_chunks (W := W) l
    rw [flat, flatMap_id] at this
    rw [this]
  have sizes_eq : W.sizes l = W.sizes l' := (perm.map W.size).sum_eq
  have groups (l : List α) : (∀ g ∈ W.chunks l, g ≠ []) ∧ W.Descending (W.chunks l) :=
    settleByRate_groups _ l
  have up (c : K) : W.diagram l s ≤ W.gain c (W.chunks l) + c * s := by
    rw [← W.gain_perm c (W.chunks l).reverse_perm]
    exact curve_le_gain c (fun g hg => (groups l).1 g (mem_reverse.mp hg)) hs
      (sizes_chunks l ▸ inside)
  -- At each price the chunks of `l` are worth a prefix of it, which `l'` and its chunks match.
  have gain_le (c : K) : W.gain c (W.chunks l) ≤ W.gain c (W.chunks l') := by
    obtain ⟨p, hp, eq⟩ := exists_prefix c (groups l).2 (groups l).1
    rw [flat_chunks] at hp
    obtain ⟨p', hp', le⟩ := h c p hp
    rw [eq]
    exact le.trans (value_le_gain_settleByRate _ l' c hp')
  rcases hs.eq_or_lt with zero | pos
  · have start (gs : List (List α)) : W.curve gs 0 = 0 := by
      cases gs with
      | nil => rfl
      | cons g gs => rw [curve, if_pos (W.sizes_nonneg g), mul_zero, zero_div]
    rw [← zero, diagram, diagram, start, start]
  · obtain ⟨g, _, eq⟩ := exists_gain_eq_curve (fun g hg => (groups l').1 g (mem_reverse.mp hg))
      (pairwise_reverse.mpr (groups l').2) pos
      (by rw [sizes_chunks, ← sizes_eq]; exact inside)
    calc W.diagram l s ≤ W.gain (W.rate g) (W.chunks l) + W.rate g * s := up _
      _ ≤ W.gain (W.rate g) (W.chunks l') + W.rate g * s := by linarith [gain_le (W.rate g)]
      _ = W.diagram l' s := by rw [diagram, eq, W.gain_perm _ (reverse_perm _)]

end Curve

end Weighing

end Rbitcoin.Diagram
