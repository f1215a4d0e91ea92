import Mathlib.Data.Finset.Card
import Rbitcoin.Lib.Loop

/-! Depth first listing. A walk lists what a node needs before the node itself, and leaves out what
is known already. Where needs have no cycle it ends, and the list has every node once, after all
that the node needs. -/

namespace Rbitcoin.Gather

open List

variable {α : Type} (needs : α → List α) (already : Finset α)

/-- The walk from one node. It does not return when the fuel runs out. -/
def collect [DecidableEq α] : Nat → α → List α → Option (List α)
  | 0, _, _ => none
  | fuel + 1, t, out =>
    if t ∈ already ∨ t ∈ out then some out
    else do
      let out ← (needs t).foldlM (fun out p => collect fuel p out) out
      some (out ++ [t])

/-- Every node is listed once, is not known already, and comes after what it needs. -/
structure Listed (out : List α) : Prop where
  nodup : out.Nodup
  fresh : ∀ t ∈ out, t ∉ already
  needed : ∀ before t after, out = before ++ t :: after →
    ∀ p ∈ needs t, p ∈ already ∨ p ∈ before

/-- What a walk from the nodes of `l` adds to the list. -/
structure Collected (rank : α → Nat) (l out out' : List α) : Prop where
  listed : Listed needs already out'
  grows : out <+: out'
  all : ∀ t ∈ l, t ∈ already ∨ t ∈ out'
  new : ∀ x ∈ out', x ∈ out ∨ ∃ t ∈ l, rank x ≤ rank t

variable {needs already} {rank : α → Nat} {U : Finset α} {out : List α}

theorem listed_nil : Listed needs already [] where
  nodup := nodup_nil
  fresh := nofun
  needed before t after eq := absurd eq (by simp)

theorem Listed.push (listed : Listed needs already out) {t : α} (unknown : t ∉ already)
    (unlisted : t ∉ out) (needed : ∀ p ∈ needs t, p ∈ already ∨ p ∈ out) :
    Listed needs already (out ++ [t]) where
  nodup := nodup_append.mpr ⟨listed.nodup, nodup_singleton t, fun x hx y hy eq =>
    unlisted (by rwa [← mem_singleton.mp hy, ← eq])⟩
  fresh x hx := by
    obtain old | rfl := (mem_append.mp hx).imp_right mem_singleton.mp
    · exact listed.fresh x old
    · exact unknown
  needed before x after eq p hp := by
    -- either the last node or one of the list before
    obtain ⟨init, rfl, old⟩ | ⟨rfl, rfl, rfl⟩ :
        (∃ init, after = init ++ [t] ∧ out = before ++ x :: init) ∨
          after = [] ∧ before = out ∧ x = t := by
      rcases eq_nil_or_concat after with rfl | ⟨init, last, rfl⟩
      · obtain ⟨h, h'⟩ := append_inj' eq rfl
        cases h'
        exact Or.inr ⟨rfl, h.symm, rfl⟩
      · have eq' : out ++ [t] = (before ++ x :: init) ++ [last] := by simp [eq]
        obtain ⟨h, h'⟩ := append_inj' eq' rfl
        cases h'
        exact Or.inl ⟨init, concat_eq_append .., h⟩
    · exact listed.needed before x init old p hp
    · exact needed p hp

/-- A list that knows a part of what a second one is made beside is followed by that part of the
second. -/
theorem Listed.append_filter {ids add : List α} {part : α → Bool} (listed : Listed needs ∅ ids)
    (more : Listed needs already add) (mem : ∀ x, x ∈ ids ↔ x ∈ already ∧ part x = true)
    (closed : ∀ t, ∀ p ∈ needs t, part p = true) : Listed needs ∅ (ids ++ add.filter part) where
  nodup := by
    refine nodup_append.mpr ⟨listed.nodup, more.nodup.filter _, ?_⟩
    rintro x hx y hy rfl
    exact more.fresh x (mem_of_mem_filter hy) ((mem x).mp hx).1
  fresh _ _ := Finset.notMem_empty _
  needed before t after eq p hp := by
    have second : ∀ mid, add.filter part = mid ++ t :: after → p ∈ ids ++ mid := by
      intro mid tail
      obtain ⟨front, back, rfl, rfl, kept⟩ := filter_eq_append_iff.mp tail
      obtain ⟨dropped, rest, rfl, apart, -⟩ := filter_eq_cons_iff.mp kept
      have split : front ++ (dropped ++ t :: rest) = (front ++ dropped) ++ t :: rest := by
        rw [append_assoc]
      have isPart := closed t p hp
      rcases more.needed _ t rest split p hp with known | earlier
      · exact mem_append_left _ ((mem p).mpr ⟨known, isPart⟩)
      · rcases mem_append.mp earlier with earlier | earlier
        · exact mem_append_right _ (mem_filter.mpr ⟨earlier, isPart⟩)
        · exact absurd isPart (apart p earlier)
    right
    rcases append_eq_append_iff.mp eq with ⟨mid, rfl, tail⟩ | ⟨mid, old, tail⟩
    · exact second mid tail
    · cases mid with
      | nil =>
        have first := second [] tail.symm
        rwa [old, append_nil, append_nil] at first
      | cons x mid =>
        obtain ⟨rfl, -⟩ := cons.inj tail
        exact (listed.needed before t mid old p hp).resolve_left (Finset.notMem_empty p)

variable [DecidableEq α] {fuel : Nat}

/-- What a walk adds leads to its start. -/
theorem reach_of_collect {t : α} {out' : List α}
    (walked : collect needs already fuel t out = some out') :
    ∀ x ∈ out', x ∈ out ∨ Relation.ReflTransGen (fun p c => p ∈ needs c) x t := by
  induction fuel generalizing t out out' with
  | zero => cases walked
  | succ fuel ih =>
    unfold collect at walked
    split_ifs at walked
    · cases walked
      exact fun x mem => .inl mem
    · obtain ⟨mid, inner, last⟩ := Option.bind_eq_some_iff.mp walked
      cases last
      have below := Loop.foldlM_keeps (P := fun l => ∀ x ∈ l, x ∈ out ∨
        Relation.ReflTransGen (fun p c => p ∈ needs c) x t) (fun p need s s' kept one x mem => by
          rcases ih one x mem with old | leads
          · exact kept x old
          · exact .inr (leads.tail need)) (fun x mem => .inl mem) inner
      intro x mem
      rcases mem_append.mp mem with mem | mem
      · exact below x mem
      · cases mem_singleton.mp mem
        exact .inr .refl

theorem foldlM_collect (rank : α → Nat) (l : List α) (listed : Listed needs already out)
    (each : ∀ t ∈ l, ∀ out, Listed needs already out →
      ∃ out', collect needs already fuel t out = some out' ∧
        Collected needs already rank [t] out out') :
    ∃ out', l.foldlM (fun out t => collect needs already fuel t out) out = some out' ∧
      Collected needs already rank l out out' := by
  induction l generalizing out with
  | nil => exact ⟨out, rfl, listed, prefix_refl _, nofun, fun _ hx => Or.inl hx⟩
  | cons t l ih =>
    obtain ⟨mid, first, one⟩ := each t mem_cons_self out listed
    obtain ⟨out', rest, more⟩ := ih one.listed (forall_mem_cons.mp each).2
    refine ⟨out', ?_, more.listed, one.grows.trans more.grows, ?_, ?_⟩
    · rw [foldlM_cons, first]
      exact rest
    · intro s hs
      rcases mem_cons.mp hs with rfl | hs
      · exact (one.all s (mem_singleton_self s)).imp_right (more.grows.subset ·)
      · exact more.all s hs
    · intro x hx
      rcases more.new x hx with hx | ⟨s, hs, le⟩
      · rcases one.new x hx with hx | ⟨s, hs, le⟩
        · exact Or.inl hx
        · cases mem_singleton.mp hs
          exact Or.inr ⟨t, mem_cons_self .., le⟩
      · exact Or.inr ⟨s, mem_cons_of_mem _ hs, le⟩

theorem exists_collect (below : ∀ t, ∀ p ∈ needs t, p ∈ U ∧ rank p < rank t) {t : α}
    (enough : (U.filter (rank · < rank t)).card < fuel) (listed : Listed needs already out) :
    ∃ out', collect needs already fuel t out = some out' ∧
      Collected needs already rank [t] out out' := by
  induction fuel generalizing t out with
  | zero => exact absurd enough (Nat.not_lt_zero _)
  | succ fuel ih =>
    unfold collect
    by_cases known : t ∈ already ∨ t ∈ out
    · refine ⟨out, if_pos known, listed, prefix_refl _, fun s hs => ?_, fun _ hx => Or.inl hx⟩
      rwa [mem_singleton.mp hs]
    · have smaller : ∀ p ∈ needs t, (U.filter (rank · < rank p)).card < fuel := by
        intro p hp
        obtain ⟨inside, lower⟩ := below t p hp
        have strict : U.filter (rank · < rank p) ⊂ U.filter (rank · < rank t) := by
          refine Finset.ssubset_iff_of_subset ?_ |>.mpr ⟨p, ?_, ?_⟩
          · exact Finset.monotone_filter_right U fun x _ lt => lt.trans lower
          · exact Finset.mem_filter.mpr ⟨inside, lower⟩
          · exact fun mem => absurd (Finset.mem_filter.mp mem).2 (lt_irrefl _)
        have := Finset.card_lt_card strict
        omega
      obtain ⟨mid, walked, got⟩ := foldlM_collect rank (needs t) listed
        fun p hp out listed => ih (smaller p hp) listed
      have unlisted : t ∉ mid := by
        intro mem
        rcases got.new t mem with mem | ⟨p, hp, le⟩
        · exact known (Or.inr mem)
        · exact absurd (below t p hp).2 (not_lt.mpr le)
      refine ⟨mid ++ [t], ?_, got.listed.push (fun mem => known (Or.inl mem)) unlisted got.all,
        got.grows.trans (prefix_append ..), ?_, ?_⟩
      · rw [if_neg known, walked]
        rfl
      · intro s hs
        cases mem_singleton.mp hs
        exact Or.inr (mem_append_right _ (mem_singleton_self _))
      · intro x hx
        rcases mem_append.mp hx with hx | hx
        · rcases got.new x hx with hx | ⟨p, hp, le⟩
          · exact Or.inl hx
          · exact Or.inr ⟨t, mem_singleton_self _, le.trans (below t p hp).2.le⟩
        · cases mem_singleton.mp hx
          exact Or.inr ⟨t, mem_singleton_self _, le_rfl⟩

end Rbitcoin.Gather
