import Rbitcoin.Store.LocJobs

/-! The create locator: two bytes for each create, its length in strides and its number of outputs,
from which the ranges of its outputs and of their spenders follow. -/

namespace Rbitcoin.Store

open Bytes Numbered Outcome

structure CreateLocAppend where
  txoutStart : Nat
  txoutLen : Nat
  spentStart : Nat
  nOut : UInt32
  deriving DecidableEq, Repr

/-- Ranges are a start and a length. -/
structure CreateLocPair where
  txout : Nat × Nat
  spent : Nat × Nat
  nOut : Nat
  deriving DecidableEq, Repr

/-- The packed row: the length in strides and the number of outputs. -/
structure CreateRow where
  strides : UInt32
  nOut : UInt32
  deriving DecidableEq, Repr

/-! ### The code of rows, slots and checkpoints -/

/-- The byte of a number, `0` where it has no room. -/
def lowByte (n : UInt32) : UInt8 := if 256 ≤ n.toNat then 0 else UInt8.ofNat n.toNat

theorem lowByte_eq_zero {n : UInt32} (positive : n ≠ 0) : lowByte n = 0 ↔ 256 ≤ n.toNat := by
  unfold lowByte
  split_ifs with large
  · simp [large]
  · have small : n.toNat < 256 := not_le.mp large
    rw [← UInt8.toNat_inj, UInt8.toNat_ofNat', Nat.mod_eq_of_lt small]
    simp only [large, iff_false]
    exact fun zero => positive (UInt32.toNat_inj.mp zero)

theorem toNat_lowByte {n : UInt32} (kept : lowByte n ≠ 0) : (lowByte n).toNat = n.toNat := by
  unfold lowByte at kept ⊢
  split_ifs at kept ⊢ with large
  · exact absurd rfl kept
  · rw [UInt8.toNat_ofNat', Nat.mod_eq_of_lt (not_le.mp large)]

namespace CreateLocAppend

variable (rec : CreateLocAppend)

def row : Result CreateRow := do
  rejectIf (rec.nOut = 0) (.corrupt "invariant: create n_out")
  let strides ← stridesFromAlignedLen rec.txoutLen
  return ⟨strides, rec.nOut⟩

def start : Nat × Nat := (rec.txoutStart, rec.spentStart)

/-- A product of 32 bits by the stride, which does not saturate. -/
def spentLen : Nat := rec.nOut.toNat * idxStride

def next : Nat × Nat :=
  (saturatingAdd 64 rec.txoutStart rec.txoutLen, saturatingAdd 64 rec.spentStart rec.spentLen)

def follows (rec after : CreateLocAppend) : Result Unit := do
  rejectIf (after.txoutStart ≠ rec.next.1) (.corrupt "invariant: create.loc txout starts")
  rejectIf (after.spentStart ≠ rec.next.2) (.corrupt "invariant: create.loc spent starts")

/-- What the checks of an append ask of a record. -/
structure Valid (rec : CreateLocAppend) : Prop where
  nOut : rec.nOut ≠ 0
  positive : 0 < rec.txoutLen
  aligned : rec.txoutLen % idxStride = 0
  strides : rec.txoutLen / idxStride < 2 ^ 32

def rowOf : CreateRow := ⟨UInt32.ofNat (rec.txoutLen / idxStride), rec.nOut⟩

def len : Nat × Nat := (rec.txoutLen, rec.spentLen)

theorem follows_eq {rec after : CreateLocAppend} (starts : after.start = rec.next) :
    rec.follows after = .ok () := by
  have txout : after.txoutStart = rec.next.1 := congrArg Prod.fst starts
  have spent : after.spentStart = rec.next.2 := congrArg Prod.snd starts
  rw [follows, rejectIf_neg (not_not.mpr txout), ok_bind, rejectIf_neg (not_not.mpr spent)]

section Valid

variable {rec : CreateLocAppend} (valid : rec.Valid)
include valid

theorem Valid.row_eq : rec.row = .ok rec.rowOf := by
  rw [row, rejectIf_neg valid.nOut,
    stridesFromAlignedLen_eq valid.positive valid.aligned valid.strides]
  rfl

theorem Valid.strides_mul : rec.rowOf.strides.toNat * idxStride = rec.txoutLen := by
  rw [show rec.rowOf.strides.toNat = _ from UInt32.toNat_ofNat_of_lt' valid.strides]
  exact Nat.div_mul_cancel (Nat.dvd_of_mod_eq_zero valid.aligned)

theorem Valid.strides_ne_zero : rec.rowOf.strides ≠ 0 := by
  intro zero
  have := valid.strides_mul
  have := valid.positive
  simp_all

end Valid

end CreateLocAppend

namespace CreateRow

variable (row : CreateRow)

def slot : Bytes := [lowByte row.strides, lowByte row.nOut]

def overflows : Bool := lowByte row.strides = 0 ∨ lowByte row.nOut = 0

/-- `pack_create_pair`, where the row itself goes to the overflow file. -/
def pack : Result (Bytes × Bool) := do
  rejectIf (row.nOut = 0) (.corrupt "invariant: create n_out")
  rejectIf (row.strides = 0) (.corrupt "invariant: create txout strides")
  return (row.slot, row.overflows)

/-- `encode_create_ovf_row`, and how `load_create_ovf` reads a row. -/
def ovfFormat : Records.Format (Nat × CreateRow) where
  width := 16
  encode x := toLe 8 x.1 ++ toLe 4 x.2.strides.toNat ++ toLe 4 x.2.nOut.toNat
  decode b := (ofLe (b.slice 0 8),
    ⟨UInt32.ofNat (ofLe (b.slice 8 12)), UInt32.ofNat (ofLe (b.slice 12 16))⟩)
  Fits x := x.1 < 2 ^ 64
  width_pos := by decide
  length_encode x := by simp
  decode_encode := by
    rintro ⟨fk, row⟩ fits
    have small (n : UInt32) : n.toNat < 256 ^ 4 := n.toNat_lt
    have large : fk < 256 ^ 8 := fits
    have first : slice (toLe 8 fk ++ toLe 4 row.strides.toNat ++ toLe 4 row.nOut.toNat) 0 8 =
        toLe 8 fk := slice_append (p := []) (List.append_assoc ..) rfl (by simp)
    have second : slice (toLe 8 fk ++ toLe 4 row.strides.toNat ++ toLe 4 row.nOut.toNat) 8 12 =
        toLe 4 row.strides.toNat := slice_append rfl (by simp) (by simp)
    have third : slice (toLe 8 fk ++ toLe 4 row.strides.toNat ++ toLe 4 row.nOut.toNat) 12 16 =
        toLe 4 row.nOut.toNat := slice_append (List.append_nil _).symm (by simp) (by simp)
    simp only [first, second, third, ofLe_toLe_of_lt large, ofLe_toLe_of_lt (small _),
      UInt32.ofNat_toNat]

def offFormat : Records.Format (Nat × Nat) where
  width := 16
  encode p := toLe 8 p.1 ++ toLe 8 p.2
  decode b := (ofLe (b.slice 0 8), ofLe (b.slice 8 16))
  Fits p := p.1 < 2 ^ 64 ∧ p.2 < 2 ^ 64
  width_pos := by decide
  length_encode p := by simp
  decode_encode := by
    rintro ⟨a, b⟩ ⟨large_a, large_b⟩
    have small_a : a < 256 ^ 8 := large_a
    have small_b : b < 256 ^ 8 := large_b
    have first : slice (toLe 8 a ++ toLe 8 b) 0 8 = toLe 8 a :=
      slice_append (p := []) rfl rfl (by simp)
    have second : slice (toLe 8 a ++ toLe 8 b) 8 16 = toLe 8 b :=
      slice_append (List.append_nil _).symm (by simp) (by simp)
    simp only [first, second, ofLe_toLe_of_lt small_a, ofLe_toLe_of_lt small_b]

def matchesSlot (slot : Bytes) : Bool :=
  let a := slot.byteAt 0
  let b := slot.byteAt 1
  if a ≠ 0 ∧ a.toNat ≠ row.strides.toNat then false
  else if b ≠ 0 ∧ b.toNat ≠ row.nOut.toNat then false
  else (a = 0 ∧ 256 ≤ row.strides.toNat) ∨ (b = 0 ∧ 256 ≤ row.nOut.toNat)

theorem matchesSlot_self {row : CreateRow} (strides : row.strides ≠ 0) (nOut : row.nOut ≠ 0)
    (overflows : row.overflows) : row.matchesSlot row.slot := by
  have left : ¬(lowByte row.strides ≠ 0 ∧ (lowByte row.strides).toNat ≠ row.strides.toNat) :=
    fun h => h.2 (toNat_lowByte h.1)
  have right : ¬(lowByte row.nOut ≠ 0 ∧ (lowByte row.nOut).toNat ≠ row.nOut.toNat) :=
    fun h => h.2 (toNat_lowByte h.1)
  have bytes : row.slot.byteAt 0 = lowByte row.strides ∧ row.slot.byteAt 1 = lowByte row.nOut :=
    ⟨rfl, rfl⟩
  rw [matchesSlot, bytes.1, bytes.2]
  simp only [CreateRow.overflows, decide_eq_true_eq] at overflows
  rw [if_neg left, if_neg right]
  simp only [← lowByte_eq_zero strides, ← lowByte_eq_zero nOut, and_self, decide_eq_true_eq]
  exact overflows

theorem overflows_of_matchesSlot {row other : CreateRow} (matched : other.matchesSlot row.slot) :
    row.overflows := by
  simp only [matchesSlot] at matched
  split_ifs at matched
  simp only [decide_eq_true_eq] at matched
  simp only [overflows, decide_eq_true_eq]
  exact matched.imp And.left And.left

end CreateRow

def createTexts : LocTexts where
  size := "invariant: create.loc size"
  offSize := "invariant: create.off size"
  offIndex := "invariant: create.off index"
  ovfSize := "invariant: create.loc ovf size"
  ovfOrder := "invariant: create.loc ovf order"
  truncate := "create.loc truncate past count"

def createFormat : LocFormat CreateLocAppend CreateRow (Nat × Nat) where
  texts := createTexts
  origin := (fileHeaderLen, fileHeaderLen)
  row := CreateLocAppend.row
  start := CreateLocAppend.start
  next := CreateLocAppend.next
  follows := CreateLocAppend.follows
  pack := CreateRow.pack
  ovf := CreateRow.ovfFormat
  off := CreateRow.offFormat
  rowMatchesSlot := CreateRow.matchesSlot
  Valid := CreateLocAppend.Valid
  rowOf := CreateLocAppend.rowOf
  len := CreateLocAppend.len
  slot := CreateRow.slot
  overflows := CreateRow.overflows
  InRange p := p.1 < 2 ^ 64 ∧ p.2 < 2 ^ 64
  weight := Prod.fst
  row_eq := CreateLocAppend.Valid.row_eq
  pack_eq valid := by
    have nOut : ¬(CreateLocAppend.rowOf _).nOut = 0 := valid.nOut
    rw [CreateRow.pack, rejectIf_neg nOut, ok_bind, rejectIf_neg valid.strides_ne_zero]
    rfl
  next_eq _ inRange := Prod.ext (saturatingAdd_eq inRange.1) (saturatingAdd_eq inRange.2)
  follows_eq := CreateLocAppend.follows_eq
  length_slot _ := rfl
  ovf_fits small _ := small
  off_fits inRange := inRange
  overflows_of_matches _ := CreateRow.overflows_of_matchesSlot
  matches_self valid := CreateRow.matchesSlot_self valid.strides_ne_zero valid.nOut
  inRange_of_add inRange :=
    ⟨Nat.lt_of_le_of_lt (Nat.le_add_right ..) inRange.1,
      Nat.lt_of_le_of_lt (Nat.le_add_right ..) inRange.2⟩
  weight_lt inRange := inRange.1
  weight_add p valid := Nat.lt_add_of_pos_right valid.positive

abbrev CreateLoc := Locator CreateRow (Nat × Nat)

end Rbitcoin.Store
