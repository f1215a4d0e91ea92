import Rbitcoin.Store.BdzRank

/-! The index of a key in a built hash: every key of the set has an index of its own below their
number, and every other key has one too. -/

namespace Rbitcoin.Store

open Bytes Outcome List Prod

theorem mulHigh_le (h : UInt64) (p : Nat) : mulHigh h p ≤ p - 1 := by
  have small : h.toNat < 2 ^ 64 := h.toNat_lt
  rcases Nat.eq_zero_or_pos p with rfl | pos
  · simp [mulHigh]
  · have : mulHigh h p < p := by
      rw [mulHigh, Nat.div_lt_iff_lt_mul (Nat.two_pow_pos 64), mul_comm]
      exact Nat.mul_lt_mul_of_pos_left small pos
    omega

section Thirds

variable {m a b c v : Nat} (ha : a ≤ m / 3 - 1) (hb : b ≤ m / 3 - 1) (hc : c ≤ m / 3 - 1)
  (h : v ∈ [a, m / 3 + b, 2 * (m / 3) + c])
include ha hb hc h

theorem getD_third : [a, m / 3 + b, 2 * (m / 3) + c].getD (third m v) 0 = v := by
  simp only [mem_cons, not_mem_nil, or_false] at h
  unfold third
  rcases h with h | h | h
  · split_ifs <;> simp <;> omega
  · split_ifs <;> simp <;> omega
  · split_ifs <;> simp <;> omega

theorem lt_of_mem_thirds (pos : 3 ≤ m) : v < m := by
  simp only [mem_cons, not_mem_nil, or_false] at h
  omega

end Thirds

variable {key seed : UInt64} {m v : Nat}

theorem hash3Partite_third (h : v ∈ hash3Partite key seed m) :
    (hash3Partite key seed m).getD (third m v) 0 = v :=
  getD_third (mulHigh_le _ _) (mulHigh_le _ _) (mulHigh_le _ _) h

theorem hash3Partite_lt (h : v ∈ hash3Partite key seed m) (pos : 3 ≤ m) : v < m :=
  lt_of_mem_thirds (mulHigh_le _ _) (mulHigh_le _ _) (mulHigh_le _ _) h pos

theorem three_le_of_once (once : (hash3Partite key seed m).count v = 1) : 3 ≤ m := by
  by_contra small
  have part : m / 3 = 0 := by omega
  have zeros : hash3Partite key seed m = replicate 3 0 := by
    simp [hash3Partite, part, mulHigh]
  rw [zeros, count_replicate] at once
  split_ifs at once
  omega

/-- The graph of the keys was peeled in this order. -/
structure PeeledKeys (keys : List UInt64) (seed : UInt64) (m : Nat) (order : List (Nat × Nat)) :
    Prop where
  perm : (order.map fst).Perm (List.range keys.length)
  peeled : Peel.Peeled (edge keys seed m) order

namespace PeeledKeys

variable {keys : List UInt64} {seed : UInt64} {m : Nat} {order : List (Nat × Nat)}
  (h : PeeledKeys keys seed m order)
include h

theorem length_eq : order.length = keys.length := by
  simpa using h.perm.length_eq

variable {i v : Nat}

theorem keys_nodup : keys.Nodup := Peel.Peeled.keys_nodup (hash3Partite · seed m) 0 h.peeled h.perm

theorem three_le (nonempty : keys ≠ []) : 3 ≤ m := by
  obtain ⟨v, hv⟩ := Peel.exists_vertex h.perm (length_pos_iff.mpr nonempty)
  exact three_le_of_once (h.peeled.once _ hv)

theorem vertex_lt {x : Nat × Nat} (hx : x ∈ order) : x.2 < m :=
  hash3Partite_lt (h.peeled.mem_verts hx) (three_le_of_once (h.peeled.once x hx))

theorem occupied (b : Nat) :
    Occupied (wordsAsBytes (assignCompact keys seed m order).2) b ↔ b ∈ order.map snd := by
  refine (occupied_foldr order fun x hx => ?_).2.2 b
  have := h.vertex_lt hx
  omega

theorem rank1_fromOcc (le : v ≤ m) :
    (CompactRank.fromOcc (assignCompact keys seed m order).2 m).rank1 v =
      Nat.count (· ∈ order.map snd) v := by
  have same (b : Nat) (hb : b < m) : Occupied (wordsAsBytes (assignCompact keys seed m order).2) b ↔
        Occupied (CompactRank.fromOcc (assignCompact keys seed m order).2 m).occ b :=
    (occupied_take (by rw [occPackedBytes]; omega)).symm
  rw [rank1_eq rfl same, CompactRank.fromOcc_m, min_eq_left le]
  exact count_congr fun b hb => (same b (by omega)).symm.trans (h.occupied b)

theorem count_occupied : Nat.count (· ∈ order.map snd) m = keys.length := by
  have all : (Finset.range m).filter (· ∈ order.map snd) = (order.map snd).toFinset := by
    ext b
    simp only [Finset.mem_filter, Finset.mem_range, mem_toFinset, and_iff_right_iff_imp]
    intro hb
    obtain ⟨x, hx, rfl⟩ := mem_map.mp hb
    exact h.vertex_lt hx
  rw [Nat.count_eq_card_filter_range, all, toFinset_card_of_nodup h.peeled.vertices_nodup,
    length_map, h.length_eq]

theorem labels_sum (hx : (i, v) ∈ order) :
    ((edge keys seed m i).map ((assignCompact keys seed m order).1.getD · 0)).sum % 3 =
      third m v := by
  have pos := three_le_of_once (h.peeled.once _ hx)
  have labels : (edge keys seed m i).map ((assignCompact keys seed m order).1.getD · 0) =
      (edge keys seed m i).map
        (Peel.assign (edge keys seed m) (fun _ v => third m v) 3 order).1 := by
    refine map_congr_left fun u hu => ?_
    have small := hash3Partite_lt hu pos
    simp [assignCompact, small]
  have small : third m v < 3 := by
    unfold third
    split_ifs <;> omega
  rw [labels, Peel.assign_sum (by decide) h.peeled _ hx, Nat.mod_eq_of_lt small]

/-- The index of a key is the rank of the vertex that named it. -/
theorem index_member (two : 2 ≤ keys.length) (hx : (i, v) ∈ order) :
    (BdzMphf.ofOrder keys keys.length seed m order).index (keys.getD i 0) =
      .ok (Nat.count (· ∈ order.map snd) v) := by
  have pos := three_le_of_once (h.peeled.once _ hx)
  have member := h.peeled.mem_verts hx
  have below : Nat.count (· ∈ order.map snd) v < keys.length := by
    rw [← h.count_occupied]
    exact Nat.count_strict_mono (mem_map.mpr ⟨_, hx, rfl⟩) (h.vertex_lt hx)
  have selected : (hash3Partite (keys.getD i 0) seed m).getD (third m v) 0 = v :=
    hash3Partite_third member
  have labels := h.labels_sum hx
  rw [edge] at labels
  simp only [BdzMphf.index, BdzMphf.ofOrder, BdzMphf.finishIndex, labels, selected,
    h.rank1_fromOcc (h.vertex_lt hx).le]
  rw [if_neg (by omega), if_neg (by omega), if_neg (by omega), min_eq_left (by omega)]

end PeeledKeys

end Rbitcoin.Store
