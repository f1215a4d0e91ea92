import Mathlib.Data.List.AList
import Rbitcoin.Store.Fuse8Build

/-! The directory of the sealed overflow heads: numbered files, each kind with a suffix of its own,
and the filters that are read through a map of their file. -/

namespace Rbitcoin.Store

open Bytes Outcome List

abbrev Name := List Char

/-- What is in a file, by the suffix of its name. -/
inductive FileKind
  | data
  | idx
  | fuse8
  | mphf
  | val
  deriving DecidableEq, Repr

def FileKind.ext : FileKind → Name
  | .data => []
  | .idx => ['.', 'i', 'd', 'x']
  | .fuse8 => ['.', 'f', 'u', 's', 'e', '8']
  | .mphf => ['.', 'm', 'p', 'h', 'f']
  | .val => ['.', 'v', 'a', 'l']

/-- A number with at least six digits. -/
def sealedOvfPath (id : Nat) : Name :=
  List.leftpad 6 '0' ((Nat.digits 10 id).reverse.map Nat.digitChar)

def sidecar (path : Name) (kind : FileKind) : Name := path ++ kind.ext

/-- Digits, after a plus sign or not, of a number of 32 bits. -/
def parseU32 (s : Name) : Option Nat :=
  let digits := if s.head? = some '+' then s.tail else s
  if digits ≠ [] ∧ digits.all Char.isDigit then
    let n := Nat.ofDigits 10 (digits.reverse.map fun c => c.toNat - 48)
    if n < 2 ^ 32 then some n else none
  else none

def FileKind.ofSealed : FileKind → Bool
  | .data | .idx | .fuse8 => true
  | .mphf | .val => false

def FileKind.ofMerged : FileKind → Bool
  | .data | .idx => false
  | .fuse8 | .mphf | .val => true

@[simp] theorem sidecar_data (path : Name) : sidecar path .data = path := append_nil path

section Names

variable (id : Nat)

theorem sealedOvfPath_reverse : (sealedOvfPath id).reverse =
    ((Nat.digits 10 id) ++ replicate (6 - (Nat.digits 10 id).length) 0).map Nat.digitChar := by
  rw [sealedOvfPath, leftpad, reverse_append, ← map_reverse, reverse_reverse, reverse_replicate,
    map_append, map_replicate, length_map, length_reverse]
  rfl

theorem digitChar_toNat {d : Nat} (h : d < 10) : (Nat.digitChar d).toNat - 48 = d ∧
    (Nat.digitChar d).isDigit = true := by
  interval_cases d <;> decide

theorem digit_lt {d : Nat}
    (h : d ∈ Nat.digits 10 id ++ replicate (6 - (Nat.digits 10 id).length) 0) : d < 10 := by
  rcases mem_append.mp h with h | h
  · exact Nat.digits_lt_base (by decide) h
  · rw [eq_of_mem_replicate h]
    decide

theorem isDigit_of_mem {c : Char} (h : c ∈ sealedOvfPath id) : c.isDigit = true := by
  rw [← mem_reverse, sealedOvfPath_reverse] at h
  obtain ⟨d, hd, rfl⟩ := mem_map.mp h
  exact (digitChar_toNat (digit_lt id hd)).2

theorem ofDigits_sealedOvfPath :
    Nat.ofDigits 10 ((sealedOvfPath id).reverse.map fun c => c.toNat - 48) = id := by
  have digits : (sealedOvfPath id).reverse.map (fun c => c.toNat - 48) =
      Nat.digits 10 id ++ replicate (6 - (Nat.digits 10 id).length) 0 := by
    rw [sealedOvfPath_reverse, map_map]
    conv_rhs => rw [← map_id (Nat.digits 10 id ++ _)]
    apply map_congr_left
    intro d hd
    exact (digitChar_toNat (digit_lt id hd)).1
  rw [digits, Nat.ofDigits_append_replicate_zero, Nat.ofDigits_digits]

theorem parseU32_sealedOvfPath {id : Nat} (small : id < 2 ^ 32) :
    parseU32 (sealedOvfPath id) = some id := by
  have nonempty : sealedOvfPath id ≠ [] := by
    intro empty
    have length := congrArg length empty
    simp only [sealedOvfPath, leftpad, length_append, length_replicate, length_nil] at length
    omega
  have unsigned : (sealedOvfPath id).head? ≠ some '+' := by
    intro plus
    have := isDigit_of_mem id (mem_of_head? plus)
    exact absurd this (by decide)
  have digits : (sealedOvfPath id).all Char.isDigit = true :=
    all_eq_true.mpr fun c hc => isDigit_of_mem id hc
  simp only [parseU32, unsigned, if_false, nonempty, digits, ofDigits_sealedOvfPath, ne_eq,
    not_false_eq_true, and_self, if_true, small]

theorem sidecar_inj {i j : Nat} {k l : FileKind}
    (h : sidecar (sealedOvfPath i) k = sidecar (sealedOvfPath j) l) : i = j ∧ k = l := by
  -- the digits in front of the suffix, which starts with a dot
  have front (id : Nat) (kind : FileKind) :
      (sidecar (sealedOvfPath id) kind).takeWhile Char.isDigit = sealedOvfPath id := by
    rw [sidecar, takeWhile_append_of_pos fun c hc => isDigit_of_mem id hc]
    cases kind <;> simp [FileKind.ext]
  have paths : sealedOvfPath i = sealedOvfPath j := by
    rw [← front i k, ← front j l, h]
  constructor
  · rw [← ofDigits_sealedOvfPath i, ← ofDigits_sealedOvfPath j, paths]
  · rw [sidecar, sidecar, paths, append_cancel_left_eq] at h
    cases k <;> cases l <;> first | rfl | cases h

end Names

/-- What a file of the directory holds. -/
inductive File
  /-- Records of a key and a word. -/
  | sorted (recs : List (ShHeadKey × UInt64))
  /-- The first key of every page of records, and where the page starts. -/
  | idx (pages : List (ShHeadKey × Nat))
  | fuse (filter : BinaryFuse8)
  | mphf (bytes : Bytes)
  | val (bytes : Bytes)
  deriving DecidableEq, Repr

abbrev Dir := AList fun _ : Name => File

namespace Dir

def put (dir : Dir) (name : Name) (file : File) : Dir := AList.insert name file dir

def remove (dir : Dir) (name : Name) : Dir := AList.erase name dir

variable (dir : Dir)

@[simp] theorem lookup_put_self (name : Name) (file : File) :
    (dir.put name file).lookup name = some file := AList.lookup_insert dir

theorem lookup_put_ne {name other : Name} (file : File) (h : other ≠ name) :
    (dir.put name file).lookup other = dir.lookup other := AList.lookup_insert_ne h

@[simp] theorem lookup_remove_self (name : Name) :
    (dir.remove name).lookup name = none := AList.lookup_erase name dir

theorem lookup_remove_ne {name other : Name} (h : other ≠ name) :
    (dir.remove name).lookup other = dir.lookup other := AList.lookup_erase_ne h

end Dir

/-- A filter whose sizes were read when its file was opened, and whose fingerprints are read
through a map of the file. -/
structure SealedFuse8 where
  path : Name
  seed : UInt64
  segmentLength : Nat
  segmentLengthMask : Nat
  segmentCountLength : Nat
  deriving DecidableEq, Repr

namespace SealedFuse8

def ofFilter (path : Name) (f : BinaryFuse8) : SealedFuse8 :=
  ⟨path, f.seed, f.segmentLength, f.segmentLengthMask, f.segmentCountLength⟩

/-- A filter for distinct keys; an empty set gets a filter of the key zero. -/
def build (F : FuseFloats) (keys : List UInt64) : Result BinaryFuse8 :=
  match BinaryFuse8.tryFromKeys F (if keys.isEmpty then [0] else keys) with
  | some (.ok f) => .ok f
  | some (.error _) => corrupt
    (if keys.isEmpty then "binary fuse8 empty build" else "binary fuse8 build failed (dup keys?)")
  | none => .error .panic

/-- A filter is built of the keys and takes them, and its file opens. -/
def Builds (F : FuseFloats) (keys : List UInt64) : Prop :=
  ∃ f, build F keys = .ok f ∧ f.geometry = true ∧ ∀ key ∈ keys, f.contains key = true

def readFrom (dir : Dir) (path : Name) : Result SealedFuse8 :=
  match dir.lookup path with
  | some (.fuse f) =>
    if f.geometry then .ok (ofFilter path f) else corrupt "fuse8 v2 body unreadable"
  | some _ => corrupt "tx.head fuse magic"
  | none => corrupt "no such file"

/-- The map shows the file as it is now: when the file is created again under a map, the sizes are
those of the old file and the fingerprints those of the new one. Past the end of the new file the
rest of its last page reads as zero. -/
def contains (dir : Dir) (fuse : SealedFuse8) (key : UInt64) : Bool :=
  match dir.lookup fuse.path with
  | some (.fuse f) =>
    BinaryFuse8.contains ⟨fuse.seed, fuse.segmentLength, fuse.segmentLengthMask,
      fuse.segmentCountLength, f.fingerprints⟩ key
  | _ => false

theorem contains_ofFilter {dir : Dir} {path : Name} {f : BinaryFuse8}
    (file : dir.lookup path = some (.fuse f)) (key : UInt64) :
    (ofFilter path f).contains dir key = f.contains key := by
  simp only [contains, ofFilter, file]

end SealedFuse8

end Rbitcoin.Store
