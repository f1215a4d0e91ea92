import Rbitcoin.Store.TableFile

/-! The statistics table: a cell of eight bytes for each create, where zeros say that nothing is
stamped. A new count moves the length of the file only. -/

namespace Rbitcoin.Store

open Bytes List

/-- From the header of the file to the first cell. -/
def txstatPad : Nat := 16

def txstatEntryLen : Nat := 8

/-- Fixed-width rows, one for each transaction. -/
structure TxStat where
  body : TableFile
  count : Nat
  covered : txstatPad + count * txstatEntryLen ≤ body.published
  stored : body.published ≤ body.data.length

theorem GrowPolicy.le_capacity (policy : GrowPolicy) (cur need : Nat) :
    need ≤ policy.capacity cur need := by
  cases policy <;> simp only [capacity] <;> (try split_ifs) <;> omega

namespace TableFile

variable (f : TableFile) (len : Nat)

theorem le_setLogicalLen : len ≤ (f.setLogicalLen len).data.length := by
  have reaches := f.policy.le_capacity (fileHeaderLen + f.data.length) (fileHeaderLen + len)
  unfold setLogicalLen ensureCapacity
  split_ifs with fits
  · exact fits
  · simp only [length_append, length_replicate]
    omega

/-- Growth adds zeros, and past its end a file reads as zeros. -/
theorem byteAt_setLogicalLen (i : Nat) : (f.setLogicalLen len).data.byteAt i = f.data.byteAt i := by
  unfold setLogicalLen ensureCapacity
  split_ifs
  · rfl
  · simp only [byteAt, getD_eq_getElem?_getD, getElem?_append, getElem?_replicate]
    grind

end TableFile

namespace TxStat

def entryOffset (fk : Nat) : Nat := txstatPad + (fk - 1) * txstatEntryLen

variable (t : TxStat)

def getCell (fk : Nat) : Result Bytes :=
  if fk = 0 then .error .invalidFk
  else if t.count < fk then .error .notFound
  else t.body.readAt (entryOffset fk) txstatEntryLen

def resize (count : Nat) : TxStat where
  body := t.body.setLogicalLen (txstatPad + count * txstatEntryLen)
  count := count
  covered := le_rfl
  stored := t.body.le_setLogicalLen _

def truncateToCount (newCount : Nat) : Result TxStat :=
  if t.count < newCount then corrupt "txstat.body truncate past count"
  else if newCount = t.count then .ok t
  else .ok (t.resize newCount)

def extendOrTruncateTo (newCount : Nat) : Result TxStat :=
  if newCount = t.count then .ok t
  else if newCount < t.count then t.truncateToCount newCount
  else .ok (t.resize newCount)

/-- The cell that `parse_cell` takes for unstamped. -/
def unstamped : Bytes := List.replicate txstatEntryLen 0

theorem getCell_eq {fk : Nat} (pos : 0 < fk) (counted : fk ≤ t.count) : t.getCell fk =
      .ok ((range txstatEntryLen).map fun i => t.body.data.byteAt (entryOffset fk + i)) := by
  have cells : entryOffset fk + txstatEntryLen ≤ t.body.published := by
    have := t.covered
    have := Nat.mul_le_mul_right txstatEntryLen (show fk - 1 + 1 ≤ t.count by omega)
    rw [add_mul, one_mul] at this
    unfold entryOffset
    omega
  have stored := t.stored
  rw [getCell, if_neg (by omega), if_neg (by omega), TableFile.readAt, if_neg (by decide),
    if_neg (by omega), TableFile.preadAll, pread_eq_ok (by omega)]
  congr 1
  have length := slice_length (a := entryOffset fk) (cells.trans stored)
  refine ext_getElem (by simp [length]) fun i inside _ => ?_
  have := byteAt_slice (s := t.body.data) (a := entryOffset fk) (length ▸ inside)
  simpa [byteAt, inside] using this

theorem getCell_unstamped {fk : Nat} (pos : 0 < fk) (counted : fk ≤ t.count) :
    t.getCell fk = .ok unstamped ↔
      ∀ i < txstatEntryLen, t.body.data.byteAt (entryOffset fk + i) = 0 := by
  rw [getCell_eq t pos counted, Except.ok.injEq, unstamped, eq_replicate_iff]
  simp

/-- Neither call writes a byte. -/
theorem truncate_extend {n m : Nat} (short : n ≤ t.count) (longer : n < m) :
    ∃ u v, t.truncateToCount n = .ok u ∧ u.extendOrTruncateTo m = .ok v ∧ v.count = m ∧
      v.body.data.byteAt = t.body.data.byteAt := by
  obtain ⟨u, truncated, count, bytes⟩ : ∃ u, t.truncateToCount n = .ok u ∧ u.count = n ∧
      u.body.data.byteAt = t.body.data.byteAt := by
    rw [truncateToCount, if_neg (not_lt.mpr short)]
    split_ifs with same
    · exact ⟨t, rfl, same.symm, rfl⟩
    · exact ⟨t.resize n, rfl, rfl, funext (t.body.byteAt_setLogicalLen _)⟩
  have extended : u.extendOrTruncateTo m = .ok (u.resize m) := by
    rw [extendOrTruncateTo, if_neg (by omega), if_neg (by omega)]
  exact ⟨u, u.resize m, truncated, extended, rfl,
    (funext (u.body.byteAt_setLogicalLen _)).trans bytes⟩

/-- One create, with a fee of one and a size of a hundred. -/
def oneStamped : TxStat where
  body := ⟨List.replicate txstatPad 0 ++ [1, 100, 0, 0, 0, 0, 0, 0], 24, 24, .slab⟩
  count := 1
  covered := by decide
  stored := by decide

end TxStat

end Rbitcoin.Store
