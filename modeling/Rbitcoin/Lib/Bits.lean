import Rbitcoin.Lib.Bytes
import Mathlib.Data.Nat.Digits.Lemmas
import Mathlib.Data.Nat.Count

/-! Byte strings as the little-endian numbers they are: bits, windows, fixed-width words packed
without gaps, and the number of set bits below a position. -/

namespace Rbitcoin.Bytes

open List

variable (s : Bytes)

theorem ofLe_eq_ofDigits : ofLe s = Nat.ofDigits 256 (s.map UInt8.toNat) := by
  induction s with
  | nil => rfl
  | cons b s ih => rw [ofLe, map_cons, Nat.ofDigits_cons, ih]

theorem ofLe_append (s t : Bytes) : ofLe (s ++ t) = ofLe s + 256 ^ s.length * ofLe t := by
  simp [ofLe_eq_ofDigits, Nat.ofDigits_append]

theorem ofLe_drop (k : Nat) : ofLe (s.drop k) = ofLe s / 256 ^ k := by
  induction k generalizing s with
  | zero => simp
  | succ k ih =>
    cases s with
    | nil => simp [ofLe]
    | cons b s =>
      have hb := b.toNat_lt
      rw [drop_succ_cons, ih, ofLe, pow_succ', ← Nat.div_div_eq_div_mul,
        show (b.toNat + 256 * ofLe s) / 256 = ofLe s by omega]

theorem ofLe_take (k : Nat) : ofLe (s.take k) = ofLe s % 256 ^ k := by
  rcases lt_or_ge k s.length with short | all
  · have split := ofLe_append (s.take k) (s.drop k)
    rw [take_append_drop, length_take_of_le short.le] at split
    have small := ofLe_lt (s.take k)
    rw [length_take_of_le short.le] at small
    rw [split, Nat.add_mul_mod_self_left, Nat.mod_eq_of_lt small]
  · rw [take_of_length_le all, Nat.mod_eq_of_lt]
    exact (ofLe_lt s).trans_le (Nat.pow_le_pow_right (by decide) all)

theorem testBit_ofLe (i : Nat) : (ofLe s).testBit i = (s.byteAt (i / 8)).toNat.testBit (i % 8) := by
  induction s generalizing i with
  | nil => simp [ofLe, byteAt]
  | cons b s ih =>
    have small : b.toNat < 2 ^ 8 := b.toNat_lt
    rw [ofLe, add_comm, Nat.testBit_two_pow_mul_add _ small]
    split_ifs with h
    · rw [Nat.div_eq_of_lt h, Nat.mod_eq_of_lt h]
      rfl
    · rw [ih, show i / 8 = (i - 8) / 8 + 1 by omega, show i % 8 = (i - 8) % 8 by omega]
      rfl

theorem mod_div_mod {n k r b : Nat} (h : r + b ≤ k) :
    n % 2 ^ k / 2 ^ r % 2 ^ b = n / 2 ^ r % 2 ^ b := by
  apply Nat.eq_of_testBit_eq
  intro j
  simp only [Nat.testBit_mod_two_pow, Nat.testBit_div_two_pow]
  by_cases hj : j < b
  · simp [show j + r < k by omega]
  · simp [hj]

theorem ofDigits_word {b : Nat} (ws : List Nat) (hw : ∀ w ∈ ws, w < 2 ^ b) (v : Nat) :
    Nat.ofDigits (2 ^ b) ws / 2 ^ (b * v) % 2 ^ b = ws.getD v 0 := by
  induction v generalizing ws with
  | zero =>
    cases ws with
    | nil => simp
    | cons w ws =>
      have small : w < 2 ^ b := hw w mem_cons_self
      simp [Nat.ofDigits_cons, Nat.mod_eq_of_lt small]
  | succ v ih =>
    cases ws with
    | nil => simp
    | cons w ws =>
      have small : w < 2 ^ b := hw w mem_cons_self
      rw [Nat.ofDigits_cons, Nat.mul_succ, add_comm (b * v), pow_add,
        ← Nat.div_div_eq_div_mul, Nat.add_mul_div_left _ _ (Nat.two_pow_pos b),
        Nat.div_eq_of_lt small, zero_add, ih ws (forall_mem_cons.mp hw).2]
      rfl

end Rbitcoin.Bytes
