import Rbitcoin.Lib.Bytes

/-! Byte images: a file as a byte string, overwritten in place. A read is a slice; a write changes
the slices it covers and no others. -/

namespace Rbitcoin.Bytes

open List

variable (s : Bytes)

def patch (off : Nat) (b : Bytes) : Bytes :=
  s.take off ++ b ++ s.drop (off + b.length)

theorem getElem?_slice (a e i : Nat) :
    (s.slice a e)[i]? = if i < e - a then s[a + i]? else none := by
  simp [slice, getElem?_take]

theorem byteAt_slice {s : Bytes} {a e i : Nat} (inside : i < e - a) :
    (s.slice a e).byteAt i = s.byteAt (a + i) := by
  rw [byteAt, getD_eq_getElem?_getD, getElem?_slice, if_pos inside, byteAt, getD_eq_getElem?_getD]

section Patch

variable {s b : Bytes} {off : Nat} (inside : off + b.length ≤ s.length)
include inside

theorem patch_length : (s.patch off b).length = s.length := by
  simp only [patch, length_append, length_take, length_drop]
  omega

theorem getElem?_patch (i : Nat) :
    (s.patch off b)[i]? = if off ≤ i ∧ i < off + b.length then b[i - off]? else s[i]? := by
  have front : (s.take off).length = off := length_take_of_le (by omega)
  rw [patch, append_assoc]
  rcases lt_or_ge i off with before | from_off
  · rw [if_neg (by omega), getElem?_append_left (by omega), getElem?_take_of_lt before]
  · rw [getElem?_append_right (by omega), front]
    rcases lt_or_ge i (off + b.length) with within | after
    · rw [if_pos ⟨from_off, within⟩, getElem?_append_left (by omega)]
    · rw [if_neg (by omega), getElem?_append_right (by omega), getElem?_drop]
      congr 1
      omega

theorem slice_patch_self : (s.patch off b).slice off (off + b.length) = b := by
  apply ext_getElem?
  intro i
  rw [getElem?_slice, getElem?_patch inside, Nat.add_sub_cancel_left, Nat.add_sub_cancel_left]
  split_ifs with h1 h2
  · rfl
  · omega
  · rw [getElem?_eq_none (not_lt.mp h1)]

theorem slice_patch_of_disjoint {a e : Nat} (apart : e ≤ off ∨ off + b.length ≤ a) :
    (s.patch off b).slice a e = s.slice a e := by
  apply ext_getElem?
  intro i
  rw [getElem?_slice, getElem?_slice, getElem?_patch inside]
  split_ifs with h1 h2
  · omega
  · rfl
  · rfl

end Patch

theorem slice_slice {s : Bytes} {a e c d : Nat} (h : a + d ≤ e) :
    (s.slice a e).slice c d = s.slice (a + c) (a + d) := by
  apply ext_getElem?
  intro i
  simp only [getElem?_slice, add_assoc]
  split_ifs <;> first | rfl | omega

theorem slice_middle {s p m t : Bytes} (h : s = p ++ m ++ t) {a b : Nat} (hb : b ≤ m.length) :
    s.slice (p.length + a) (p.length + b) = m.slice a b := by
  subst h
  apply ext_getElem?
  intro i
  rw [getElem?_slice, getElem?_slice, show p.length + b - (p.length + a) = b - a by omega]
  split_ifs with inside
  · rw [append_assoc, getElem?_append_right (by omega), getElem?_append_left (by omega)]
    congr 1
    omega
  · rfl

def wordSlot (i : Nat) : Bytes := s.slice (i * 8) (i * 8 + 8)

def setWord (i : Nat) (w : UInt64) : Bytes := s.patch (i * 8) (toLe 8 w.toNat)

section SetWord

variable {s : Bytes} {i : Nat} (inside : i * 8 + 8 ≤ s.length) (w : UInt64)
include inside

theorem setWord_length : (s.setWord i w).length = s.length :=
  patch_length (by simpa using inside)

theorem wordSlot_setWord_self : (s.setWord i w).wordSlot i = toLe 8 w.toNat := by
  have h := slice_patch_self (s := s) (b := toLe 8 w.toNat)
    (show i * 8 + _ ≤ _ by simpa using inside)
  simpa [wordSlot, setWord] using h

theorem wordSlot_setWord_ne {j : Nat} (ne : j ≠ i) : (s.setWord i w).wordSlot j = s.wordSlot j :=
  slice_patch_of_disjoint (by simpa using inside) (by rw [toLe_length]; omega)

end SetWord

theorem ofNat_ofLe_toLe (w : UInt64) : UInt64.ofNat (ofLe (toLe 8 w.toNat)) = w := by
  rw [ofLe_toLe_of_lt w.toNat_lt, UInt64.ofNat_toNat]

end Rbitcoin.Bytes
