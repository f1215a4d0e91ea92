import Rbitcoin.Store.BdzFile

/-! What a build promises: the hash is minimal and perfect on the keys it was built of, and it
answers every other key without leaving its arrays. The key counter has 32 bits and is not checked,
so the promise ends where the number of keys is cut to zero or one. -/

namespace Rbitcoin.Store

open Bytes Outcome List BdzMphf

/-! ### The index with its accesses checked

Here `none` is a panic: an index out of range, or a sum that does not fit 32 bits. -/

def CompactRank.rank1? (rank : CompactRank) (v : Nat) : Option Nat := do
  let v := min v rank.m
  let si := v / rankSuperBits
  let below ← rank.supers[si]?
  let sum := below + popcountBits rank.occ (si * rankSuperBits) v
  if sum < 2 ^ 32 then some sum else none

namespace BdzMphf

variable (h : BdzMphf)

def finishIndex? (labels verts : List Nat) : Option Nat := do
  let v ← verts[labels.sum % 3]?
  let rank ← h.compact.rank1? v
  return min rank (h.n - 1)

def index? (key : UInt64) : Option (Result Nat) :=
  if h.n = 0 then some (.ok 0)
  else if h.n = 1 then some (.ok 0)
  else if h.modulus = 0 ∨ h.m = 0 then some (corrupt "bdz mphf: zero modulus")
  else
    let verts := hash3Partite key h.seed h.m
    match h.g with
    | .ram g => do
      let labels ← verts.mapM (g[·]?)
      let slot ← h.finishIndex? labels verts
      return .ok slot
    | .fd file off nBytes gBits =>
      match verts.mapM (loadG file off nBytes gBits) with
      | .error e => some (.error e)
      | .ok labels => (h.finishIndex? labels verts).map .ok

/-- The vertex that the labels in memory select for a key. -/
def selected (g : List Nat) (key : UInt64) : Nat :=
  let verts := hash3Partite key h.seed h.m
  verts.getD ((verts.map (g.getD · 0)).sum % 3) 0

/-- The index of the key is the number of occupied vertices below the one it selects, which is
occupied itself. -/
def RankOf (key : UInt64) (slot : Nat) : Prop :=
  ∃ g, h.g = .ram g ∧ Occupied h.compact.occ (h.selected g key) ∧
    slot = Nat.count (Occupied h.compact.occ) (h.selected g key)

/-- Every key has an index, and those of `keys` have the numbers below their count, each once. -/
def Perfect (keys : List UInt64) : Prop :=
  ∃ slot : UInt64 → Nat, (∀ key, h.index? key = some (.ok (slot key))) ∧
    Set.BijOn slot {key | key ∈ keys} (Set.Iio keys.length) ∧
    ∀ key ∈ keys, h.RankOf key (slot key)

end BdzMphf

theorem supersFrom_length (occ : Bytes) (m k i acc : Nat) :
    (supersFrom occ m k i acc).length = k + 1 := by
  induction k generalizing i acc with
  | zero => rfl
  | succ k ih => rw [supersFrom, length_cons, ih]

theorem CompactRank.rank1?_fromOcc (words : List Nat) {m : Nat} (m_lt : m < 2 ^ 32) (v : Nat) :
    (fromOcc words m).rank1? v = some ((fromOcc words m).rank1 v) := by
  have same (b : Nat) (hb : b < m) :
      Occupied (wordsAsBytes words) b ↔ Occupied (fromOcc words m).occ b :=
    (occupied_take (by rw [occPackedBytes]; omega)).symm
  have rank : (fromOcc words m).rank1 v = _ := rank1_eq rfl same v
  have inside : min v m / rankSuperBits < (fromOcc words m).supers.length := by
    have top : min v m / rankSuperBits ≤ (m + rankSuperBits - 1) / rankSuperBits :=
      Nat.div_le_div_right (by simp only [rankSuperBits]; omega)
    rw [fromOcc, supersFromOccBytes, supersFrom_length]
    omega
  have small : (fromOcc words m).rank1 v < 2 ^ 32 := by
    have := Nat.count_le (p := Occupied (fromOcc words m).occ) (n := min v m)
    rw [rank, fromOcc_m]
    omega
  rw [rank1, fromOcc_m, getD_eq_getElem _ _ inside] at small
  simp only [rank1?, rank1, fromOcc_m, getElem?_eq_getElem inside, getD_eq_getElem _ _ inside]
  exact if_pos small

theorem mapM_getElem? {g : List Nat} (verts : List Nat) (inside : ∀ v ∈ verts, v < g.length) :
    verts.mapM (g[·]?) = some (verts.map (g.getD · 0)) := by
  induction verts with
  | nil => rfl
  | cons v verts ih =>
    have hv := inside v mem_cons_self
    rw [mapM_cons, ih (forall_mem_cons.mp inside).2,
      getElem?_eq_getElem hv, map_cons, getD_eq_getElem _ _ hv]
    rfl

namespace BdzMphf

theorem finishIndex?_eq {h : BdzMphf} {words : List Nat} (rank : h.compact = .fromOcc words h.m)
    (m_lt : h.m < 2 ^ 32) {labels verts : List Nat} (three : verts.length = 3) :
    h.finishIndex? labels verts = some (h.finishIndex labels verts) := by
  have inside : labels.sum % 3 < verts.length := by omega
  simp only [finishIndex?, finishIndex, rank, CompactRank.rank1?_fromOcc words m_lt,
    getElem?_eq_getElem inside, getD_eq_getElem _ _ inside]
  rfl

theorem Built.index?_eq {h : BdzMphf} {g words : List Nat} (built : h.Built g words)
    (key : UInt64) : h.index? key = some (h.index key) := by
  have nonzero : h.n ≠ 0 := built.n_pos.ne'
  by_cases single : h.n = 1
  · simp [index?, index, if_pos single]
  · have three : 3 ≤ h.m := built.more (by omega)
    have modulus : ¬(h.modulus = 0 ∨ h.m = 0) := by
      have := built.modulus_eq
      omega
    have inside : ∀ v ∈ hash3Partite key h.seed h.m, v < g.length := fun v hv =>
      built.g_length ▸ hash3Partite_lt hv three
    have finished (labels : List Nat) : h.finishIndex? labels (hash3Partite key h.seed h.m) = _ :=
      finishIndex?_eq built.compact_eq built.m_lt rfl
    simp only [index?, index, if_neg nonzero, if_neg single, if_neg modulus, built.g_eq,
      mapM_getElem? _ inside, finished]
    rfl

end BdzMphf

theorem bijOn_of_injOn {keys : List UInt64} {slot : UInt64 → Nat} (nodup : keys.Nodup)
    (below : ∀ key ∈ keys, slot key < keys.length)
    (inj : ∀ {x y}, x ∈ keys → y ∈ keys → slot x = slot y → x = y) :
    Set.BijOn slot {key | key ∈ keys} (Set.Iio keys.length) := by
  have apart : Set.InjOn slot {key | key ∈ keys} := fun x hx y hy => inj hx hy
  refine ⟨below, apart, ?_⟩
  have onto := Finset.surjOn_of_injOn_of_card_le (s := keys.toFinset)
    (t := Finset.range keys.length) slot (by simpa [Set.MapsTo] using below) (by simpa using apart)
    (by rw [Finset.card_range, toFinset_card_of_nodup nodup])
  simpa using onto

namespace PeeledKeys

variable {keys : List UInt64} {seed : UInt64} {m : Nat} {order : List (Nat × Nat)}
  (h : PeeledKeys keys seed m order)
include h

theorem length_le : keys.length ≤ m := by
  rw [← h.count_occupied]
  exact Nat.count_le _

theorem occupied_fromOcc {b : Nat} (hb : b < m) :
    Occupied (CompactRank.fromOcc (assignCompact keys seed m order).2 m).occ b ↔
      b ∈ order.map Prod.snd :=
  (occupied_take (by rw [occPackedBytes]; omega)).trans (h.occupied b)

theorem selected_member {i v n : Nat} (hx : (i, v) ∈ order) :
    (ofOrder keys n seed m order).selected (assignCompact keys seed m order).1
      (keys.getD i 0) = v := by
  have member := h.peeled.mem_verts hx
  have third : (hash3Partite (keys.getD i 0) seed m).getD (third m v) 0 = v :=
    hash3Partite_third member
  have labels := h.labels_sum hx
  rw [edge] at labels
  simp only [selected, ofOrder, labels, third]

theorem perfect (two : 2 ≤ keys.length) (fits : keys.length < 2 ^ 32) (m_lt : m < 2 ^ 32) :
    (ofOrder keys keys.length seed m order).Perfect keys := by
  have built := built_ofOrder h two fits m_lt
  choose slot indexed using built.index_total
  have member {key : UInt64} (hkey : key ∈ keys) : ∃ i v, key = keys.getD i 0 ∧ (i, v) ∈ order ∧
      slot key = Nat.count (· ∈ order.map Prod.snd) v := by
    obtain ⟨i, hi, rfl⟩ := getElem_of_mem hkey
    obtain ⟨v, hv⟩ := Peel.exists_vertex h.perm hi
    have counted := h.index_member two hv
    rw [getD_eq_getElem _ 0 hi, indexed, Except.ok.injEq] at counted
    exact ⟨i, v, (getD_eq_getElem _ 0 hi).symm, hv, counted⟩
  refine ⟨slot, fun key => by rw [built.index?_eq, indexed], bijOn_of_injOn h.keys_nodup ?_ ?_, ?_⟩
  · intro key hkey
    have := index_le (indexed key)
    simp only [ofOrder] at this
    omega
  · intro x y hx hy same
    exact index_injOn h two hx hy (by rw [indexed, indexed, same])
  · intro key hkey
    obtain ⟨i, v, rfl, hv, counted⟩ := member hkey
    have inside : v < m := h.vertex_lt hv
    refine ⟨_, built.g_eq, ?_, ?_⟩
    · rw [h.selected_member hv]
      exact (h.occupied_fromOcc inside).mpr (mem_map.mpr ⟨_, hv, rfl⟩)
    · rw [h.selected_member hv, counted]
      exact count_congr fun b hb => (h.occupied_fromOcc (by omega)).symm

end PeeledKeys

namespace BdzMphf

theorem not_perfect_of_cut {h : BdzMphf} {keys : List UInt64} (many : 2 ≤ keys.length)
    (cut : h.n = 0 ∨ h.n = 1) : ¬h.Perfect keys := by
  rintro ⟨slot, indexed, ⟨-, -, onto⟩, -⟩
  obtain ⟨key, -, one⟩ := onto (show 1 ∈ Set.Iio keys.length from many)
  have zero : h.index? key = some (.ok 0) := by
    rcases cut with cut | cut
    · rw [index?, if_pos cut]
    · rw [index?, if_neg (by omega), if_pos cut]
  rw [indexed, one] at zero
  cases zero

theorem empty_perfect : empty.Perfect [] :=
  ⟨fun _ => 0, fun _ => rfl, by simp, by simp⟩

theorem single_perfect (key : UInt64) : single.Perfect [key] := by
  refine ⟨fun _ => 0, fun _ => rfl, bijOn_of_injOn (nodup_singleton key) ?_ ?_, ?_⟩
  · simp
  · intro x y hx hy _
    rw [mem_singleton.mp hx, mem_singleton.mp hy]
  · intro x _
    -- with one vertex every edge is that vertex three times
    have zero : single.selected [0] x = 0 := by
      simp [selected, single, hash3Partite, mulHigh]
    exact ⟨[0], rfl, by rw [zero]; decide, by rw [zero]; rfl⟩

/-- A build that succeeds gives a minimal perfect hash of its keys, and every key has an index,
unless the counter of 32 bits is cut to zero or one. -/
theorem buildCompact_perfect_iff (keys : List UInt64) :
    (∀ h, buildCompact keys = .ok h → h.Perfect keys) ↔
      keys.length < 2 ^ 32 ∨ 2 ≤ keys.length % 2 ^ 32 := by
  constructor
  · intro perfect
    by_contra cut
    have many : 2 ≤ keys.length := by omega
    by_cases zero : keys.length % 2 ^ 32 = 0
    · refine not_perfect_of_cut many (.inl rfl) (perfect .empty ?_)
      rw [buildCompact, if_pos zero]
    · refine not_perfect_of_cut many (.inr rfl) (perfect .single ?_)
      rw [buildCompact, if_neg zero, if_pos (by omega)]
  · intro condition h success
    rcases buildCompact_cases success with
      ⟨n, rfl⟩ | ⟨n, rfl⟩ | ⟨n, seed, m, order, m_lt, peeled, rfl⟩
    · have none : keys = [] := length_eq_zero_iff.mp (by omega)
      exact none ▸ empty_perfect
    · obtain ⟨key, rfl⟩ := length_eq_one_iff.mp (show keys.length = 1 by omega)
      exact single_perfect key
    · have fits : keys.length < 2 ^ 32 := peeled.length_le.trans_lt m_lt
      rw [Nat.mod_eq_of_lt fits] at n ⊢
      exact peeled.perfect n fits m_lt

/-- `2 ^ 32` different keys make a hash of no keys. -/
theorem buildCompact_not_perfect :
    ∃ h, buildCompact ((List.range (2 ^ 32)).map UInt64.ofNat) = .ok h ∧
      ¬h.Perfect ((List.range (2 ^ 32)).map UInt64.ofNat) := by
  have length : ((range (2 ^ 32)).map UInt64.ofNat).length = 2 ^ 32 := by
    rw [length_map, length_range]
  refine ⟨.empty, ?_, not_perfect_of_cut (by rw [length]; decide) (.inl rfl)⟩
  rw [buildCompact, length, if_pos (by decide)]

end BdzMphf

end Rbitcoin.Store
