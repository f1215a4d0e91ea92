import Rbitcoin.Lib.Bytes

/-! Bytes at addresses: a read of a range, a write of a byte string, and what a read sees of a
write: all of it at its place, nothing of it elsewhere. -/

namespace Rbitcoin

open List

def Memory := Nat → UInt8

namespace Memory

variable (m : Memory)

def read (off n : Nat) : Bytes := (List.range n).map fun i => m (off + i)

def write (off : Nat) (b : Bytes) : Memory := fun i =>
  if off ≤ i ∧ i < off + b.length then b.byteAt (i - off) else m i

theorem getElem?_read (off n i : Nat) :
    (m.read off n)[i]? = if i < n then some (m (off + i)) else none := by
  rw [read, getElem?_map]
  split_ifs with inside
  · rw [getElem?_range inside, Option.map_some]
  · rw [getElem?_eq_none (by rw [length_range]; omega), Option.map_none]

theorem read_write_same (off : Nat) (b : Bytes) : (m.write off b).read off b.length = b := by
  refine ext_getElem? fun i => ?_
  rw [getElem?_read]
  split_ifs with inside
  · rw [write, if_pos (by omega), Nat.add_sub_cancel_left, Bytes.byteAt,
      getD_eq_getElem?_getD, getElem?_eq_getElem inside, Option.getD_some]
  · rw [getElem?_eq_none (not_lt.mp inside)]

theorem read_congr {m m' : Memory} {off n : Nat} (agree : ∀ i, off ≤ i → i < off + n → m i = m' i) :
    m.read off n = m'.read off n := by
  refine map_congr_left fun i mem => agree _ (by omega) ?_
  rw [mem_range] at mem
  omega

theorem read_write_apart {off n at_ : Nat} {b : Bytes}
    (apart : off + n ≤ at_ ∨ at_ + b.length ≤ off) : (m.write at_ b).read off n = m.read off n :=
  read_congr fun i low high => if_neg (by omega)

end Memory

end Rbitcoin
