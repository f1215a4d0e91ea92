import Rbitcoin.Lib.Image

/-! Records of one width in a byte string: a list of them is written one after another, and record
`i` stands at `i` times the width. -/

namespace Rbitcoin.Records

open Bytes List

section Width

variable {α : Type} {f : α → Bytes} {w : Nat} (size : ∀ a, (f a).length = w) (l : List α)
include size

theorem length_flatMap : (l.flatMap f).length = w * l.length := by
  rw [List.length_flatMap]
  simp only [size, map_const', sum_replicate_nat, mul_comm]

theorem flatMap_take (n : Nat) : (l.take n).flatMap f = (l.flatMap f).take (w * n) := by
  rcases le_total l.length n with long | short
  · have all : (l.flatMap f).length ≤ w * n := by
      rw [length_flatMap size]
      exact Nat.mul_le_mul_left w long
    rw [take_of_length_le long, take_of_length_le all]
  · have front : ((l.take n).flatMap f).length = w * n := by
      rw [length_flatMap size, length_take_of_le short]
    conv_rhs => rw [← take_append_drop n l, flatMap_append, ← front]
    exact take_left.symm

theorem flatMap_drop (n : Nat) : (l.drop n).flatMap f = (l.flatMap f).drop (w * n) := by
  have both : (l.take n).flatMap f ++ (l.drop n).flatMap f = l.flatMap f := by
    rw [← flatMap_append, take_append_drop]
  have split := take_append_drop (w * n) (l.flatMap f)
  rw [← flatMap_take size, ← both] at split
  rw [← both]
  exact (append_cancel_left split).symm

theorem slice_flatMap (i n : Nat) :
    slice (l.flatMap f) (w * i) (w * (i + n)) = ((l.drop i).take n).flatMap f := by
  rw [slice, ← flatMap_drop size, flatMap_take size, show w * (i + n) - w * i = w * n by
    rw [mul_add, Nat.add_sub_cancel_left]]

/-- The parts of a string that are `w` long, without a rest that is too short. -/
def chunks (w : Nat) (s : Bytes) : List Bytes :=
  (List.range (s.length / w)).map fun i => s.slice (w * i) (w * (i + 1))

theorem chunks_flatMap (positive : 0 < w) : chunks w (l.flatMap f) = l.map f := by
  have count : (l.flatMap f).length / w = l.length := by
    rw [length_flatMap size, Nat.mul_div_cancel_left _ positive]
  apply ext_getElem
  · simp only [chunks, length_map, length_range, count]
  · intro i _ inside
    rw [length_map] at inside
    have one : (l.drop i).take 1 = [l[i]] := by
      rw [drop_eq_getElem_cons inside]
      rfl
    simp only [chunks, getElem_map, getElem_range]
    rw [slice_flatMap size, one, flatMap_singleton]

end Width

theorem prefix_flatMap {α : Type} {l m : List α} (h : l <+: m) (f : α → Bytes) :
    l.flatMap f <+: m.flatMap f := by
  obtain ⟨rest, rfl⟩ := h
  rw [flatMap_append]
  exact prefix_append ..

/-- A way to write the values of a type as records of one width. -/
structure Format (α : Type) where
  width : Nat
  encode : α → Bytes
  decode : Bytes → α
  /-- The values that a record has room for. -/
  Fits : α → Prop
  width_pos : 0 < width
  length_encode : ∀ a, (encode a).length = width
  decode_encode : ∀ {a}, Fits a → decode (encode a) = a

namespace Format

variable {α : Type} (R : Format α)

/-- The records of a string; a rest that is too short for one is left out. -/
def readAll (s : Bytes) : List α := (chunks R.width s).map R.decode

theorem flatMap_eq_nil {l : List α} : l.flatMap R.encode = [] ↔ l = [] := by
  constructor
  · intro nothing
    have length := length_flatMap R.length_encode l
    rw [nothing, length_nil, eq_comm, Nat.mul_eq_zero] at length
    exact eq_nil_of_length_eq_zero (length.resolve_left R.width_pos.ne')
  · rintro rfl
    rfl

theorem readAll_flatMap {l : List α} (fits : ∀ a ∈ l, R.Fits a) :
    R.readAll (l.flatMap R.encode) = l := by
  rw [readAll, chunks_flatMap R.length_encode _ R.width_pos, map_map]
  conv_rhs => rw [← map_id l]
  exact map_congr_left fun a mem => R.decode_encode (fits a mem)

end Format

end Rbitcoin.Records
