import Mathlib.Tactic.Ring

/-! Byte strings: bounded reads, slices, and little-endian numbers; and sums that stop at the
greatest number of a machine word. -/

namespace Rbitcoin

open List

/-- `saturating_add` of two numbers of a width. -/
def saturatingAdd (bits a b : Nat) : Nat := min (a + b) (2 ^ bits - 1)

theorem saturatingAdd_eq {bits a b : Nat} (small : a + b < 2 ^ bits) :
    saturatingAdd bits a b = a + b := min_eq_left (Nat.le_sub_one_of_lt small)

abbrev satAdd := saturatingAdd 64

abbrev Bytes := List UInt8

instance : LawfulBEq Bytes := inferInstance

namespace Bytes

variable (s : Bytes)

/-- The byte at `i`. Callers stay inside the string; past it the value is `0`. -/
def byteAt (i : Nat) : UInt8 := s.getD i 0

def slice (a b : Nat) : Bytes := (s.drop a).take (b - a)

/-- `slice`, or `none` when the range is not inside `s`. -/
def slice? (a b : Nat) : Option Bytes :=
  if a ≤ b ∧ b ≤ s.length then some (s.slice a b) else none

variable {a b : Nat} {s : Bytes}

theorem slice_length (h : b ≤ s.length) : (s.slice a b).length = b - a := by
  simp only [slice, length_take, length_drop]
  omega

theorem slice?_eq_some (hab : a ≤ b) (hb : b ≤ s.length) : s.slice? a b = some (s.slice a b) := by
  rw [slice?, if_pos ⟨hab, hb⟩]

@[simp] theorem slice_self (s : Bytes) (a : Nat) : s.slice a a = [] := by
  simp [slice]

theorem slice_cons (ha : a < b) (hb : b ≤ s.length) :
    s.slice a b = s.byteAt a :: s.slice (a + 1) b := by
  obtain ⟨k, rfl⟩ : ∃ k, b = a + 1 + k := ⟨b - (a + 1), by omega⟩
  have h : s.drop a = s[a] :: s.drop (a + 1) := drop_eq_getElem_cons (by omega)
  have hbyte : s.byteAt a = s[a] := by
    rw [byteAt, getD_eq_getElem?_getD, getElem?_eq_getElem (by omega)]
    rfl
  rw [hbyte]
  simp only [slice, h, show a + 1 + k - a = k + 1 by omega, take_succ_cons, Nat.add_sub_cancel_left]

theorem byteAt_of_drop {s rest : Bytes} {i : Nat} {b : UInt8} (h : s.drop i = b :: rest) :
    s.byteAt i = b := by
  have : (s.drop i).getD 0 0 = b := by rw [h]; rfl
  simpa [byteAt] using this

theorem slice?_append {s p m t : Bytes} (h : s = p ++ m ++ t) (ha : a = p.length)
    (hb : b = a + m.length) : s.slice? a b = some m := by
  subst h ha hb
  rw [slice?_eq_some (by omega) (by simp only [length_append]; omega)]
  simp [slice]

theorem slice_append {s p m t : Bytes} (h : s = p ++ m ++ t) (ha : a = p.length)
    (hb : b = a + m.length) : s.slice a b = m := by
  subst h ha hb
  simp [slice]

theorem take_slice_drop (s : Bytes) (le : a ≤ b) : s.take a ++ s.slice a b ++ s.drop b = s := by
  have tail : (s.drop a).drop (b - a) = s.drop b := by
    rw [drop_drop, Nat.add_sub_cancel' le]
  rw [slice, append_assoc, ← tail, take_append_drop, take_append_drop]

/-- The number whose little-endian bytes are `s`. -/
def ofLe : Bytes → Nat
  | [] => 0
  | b :: s => b.toNat + 256 * ofLe s

/-- The `k` low bytes of `n`, least significant first. -/
def toLe : Nat → Nat → Bytes
  | 0, _ => []
  | k + 1, n => UInt8.ofNat n :: toLe k (n / 256)

@[simp] theorem toLe_length (k n : Nat) : (toLe k n).length = k := by
  induction k generalizing n with
  | zero => rfl
  | succ k ih => simp [toLe, ih]

theorem ofLe_toLe (k n : Nat) : ofLe (toLe k n) = n % 256 ^ k := by
  induction k generalizing n with
  | zero => simp [toLe, ofLe, Nat.mod_one]
  | succ k ih =>
    have h : (UInt8.ofNat n).toNat = n % 256 := by simp
    rw [toLe, ofLe, ih, h, pow_succ, mul_comm (256 ^ k), Nat.mod_mul]

theorem ofLe_toLe_of_lt {k n : Nat} (h : n < 256 ^ k) : ofLe (toLe k n) = n := by
  rw [ofLe_toLe, Nat.mod_eq_of_lt h]

theorem ofLe_lt (s : Bytes) : ofLe s < 256 ^ s.length := by
  induction s with
  | nil => simp [ofLe]
  | cons b s ih =>
    have hb := b.toNat_lt
    rw [ofLe, length_cons]
    omega

end Bytes

end Rbitcoin
