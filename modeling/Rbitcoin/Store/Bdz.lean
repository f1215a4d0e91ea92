import Rbitcoin.Lib.Peel
import Rbitcoin.Store.Layout

/-! The compact BDZ minimal perfect hash. A key is an edge of three vertices, one in each third of
the vertex range. The graph is peeled, the vertices get labels of two bits so that the labels of an
edge say which of its vertices named it, and the rank of that vertex among the occupied ones is the
index of the key. -/

namespace Rbitcoin.Store

open Bytes Outcome

/-- The next state of the generator and its output. -/
def splitmix64 (seed : UInt64) : UInt64 × UInt64 :=
  let seed := seed + 0x9e3779b97f4a7c15
  let z := (seed ^^^ (seed >>> 30)) * 0xbf58476d1ce4e5b9
  let z := (z ^^^ (z >>> 27)) * 0x94d049bb133111eb
  (seed, z ^^^ (z >>> 31))

def mix64 (k : UInt64) : UInt64 :=
  let k := k ^^^ (k >>> 33)
  let k := k * 0xff51afd7ed558ccd
  let k := k ^^^ (k >>> 33)
  let k := k * 0xc4ceb9fe1a85ec53
  k ^^^ (k >>> 33)

def rotateLeft (h by_ : UInt64) : UInt64 := (h <<< by_) ||| (h >>> (64 - by_))

/-- The high word of a 128-bit product. -/
def mulHigh (h : UInt64) (p : Nat) : Nat := h.toNat * p / 2 ^ 64

def hash3Partite (key seed : UInt64) (m : Nat) : List Nat :=
  let part := m / 3
  let h := mix64 (key + seed)
  [mulHigh h part, part + mulHigh (rotateLeft h 21) part,
    2 * part + mulHigh (rotateLeft h 42) part]

def occPackedBytes (m : Nat) : Nat := (m + 7) / 8

def occSet (occ : List Nat) (v : Nat) : List Nat := occ.modify (v / 64) (· ||| 2 ^ (v % 64))

/-- The little-endian image of the words. -/
def wordsAsBytes (occ : List Nat) : Bytes := occ.flatMap (toLe 8)

def countOnes (byte : Nat) : Nat := Nat.count (fun k => byte.testBit k = true) 8

/-- The loop of `popcount_bits` from bit `b`, at most a byte a turn. -/
def popcountFrom (occ : Bytes) (hi : Nat) : Nat → Nat → Nat
  | 0, _ => 0
  | fuel + 1, b =>
    if b < hi then
      let bit := b % 8
      let take := min (8 - bit) (hi - b)
      let mask := if take = 8 then 0xff else (2 ^ take - 1) * 2 ^ bit
      countOnes ((occ.byteAt (b / 8)).toNat &&& mask) + popcountFrom occ hi fuel (b + take)
    else 0

def popcountBits (occ : Bytes) (lo hi : Nat) : Nat := popcountFrom occ hi (hi - lo) lo

def rankSuperBits : Nat := 512

/-- Set bits below every superblock from the `i`-th on, and below the end. -/
def supersFrom (occ : Bytes) (m : Nat) : Nat → Nat → Nat → List Nat
  | 0, _, acc => [acc]
  | k + 1, i, acc =>
    acc :: supersFrom occ m k (i + 1)
      (acc + popcountBits occ (i * rankSuperBits) (min ((i + 1) * rankSuperBits) m))

def supersFromOccBytes (occ : Bytes) (m : Nat) : List Nat :=
  supersFrom occ m ((m + rankSuperBits - 1) / rankSuperBits) 0 0

/-- A bitmap with the number of set bits before each of its blocks. -/
structure CompactRank where
  m : Nat
  occ : Bytes
  supers : List Nat
  deriving DecidableEq, Repr

namespace CompactRank

def empty : CompactRank := ⟨0, [], [0]⟩

def fromOcc (occ : List Nat) (m : Nat) : CompactRank where
  m
  occ := (wordsAsBytes occ).take (occPackedBytes m)
  supers := supersFromOccBytes (wordsAsBytes occ) m

@[simp] theorem fromOcc_m (occ : List Nat) (m : Nat) : (fromOcc occ m).m = m := rfl

/-- Occupied vertices below `v`. -/
def rank1 (rank : CompactRank) (v : Nat) : Nat :=
  let v := min v rank.m
  let si := v / rankSuperBits
  rank.supers.getD si 0 + popcountBits rank.occ (si * rankSuperBits) v

end CompactRank

/-- Labels in memory, or packed in a file. -/
inductive GStore
  | ram (g : List Nat)
  | fd (file : Bytes) (off nBytes gBits : Nat)
  deriving DecidableEq, Repr

/-- A minimal perfect hash, with its labels in memory or in a file. -/
structure BdzMphf where
  n : Nat
  m : Nat
  seed : UInt64
  modulus : Nat
  g : GStore
  compact : CompactRank
  deriving DecidableEq, Repr

def gPageBytes : Nat := 4096
def compactGBits : Nat := 2

/-- A word of `gBits` bits at bit `rem` of byte `off`. Bytes behind the page read as zero. -/
def extractGWindow (page : Bytes) (off rem gBits : Nat) : Nat :=
  let need := min ((rem + (gBits - 1)) / 8 + 1) 8
  ofLe ((page.drop off).take need) / 2 ^ rem % 2 ^ gBits

def loadGPage (file : Bytes) (gOff nBytes page : Nat) : Result Bytes :=
  if nBytes ≤ page * gPageBytes then .ok []
  else pread file (gOff + page * gPageBytes) (min (nBytes - page * gPageBytes) gPageBytes)

/-- The label of `v` from the page that holds it. A label of two bits does not straddle a byte, so
it is in one page. -/
def loadG (file : Bytes) (off nBytes gBits v : Nat) : Result Nat := do
  let start := v * gBits
  let page ← loadGPage file off nBytes (start / 8 / gPageBytes)
  return extractGWindow page (start / 8 % gPageBytes) (start % 8) gBits

namespace BdzMphf

/-- The vertex that the labels of an edge select, by its rank. -/
def finishIndex (h : BdzMphf) (labels verts : List Nat) : Nat :=
  min (h.compact.rank1 (verts.getD (labels.sum % 3) 0)) (h.n - 1)

/-- The index of a key. A key that is not in the set gets one too. -/
def index (h : BdzMphf) (key : UInt64) : Result Nat :=
  if h.n = 0 then .ok 0
  else if h.n = 1 then .ok 0
  else if h.modulus = 0 ∨ h.m = 0 then corrupt "bdz mphf: zero modulus"
  else
    let verts := hash3Partite key h.seed h.m
    match h.g with
    | .ram g => .ok (h.finishIndex (verts.map (g.getD · 0)) verts)
    | .fd file off nBytes gBits => do
      let labels ← verts.mapM (loadG file off nBytes gBits)
      return h.finishIndex labels verts

end BdzMphf

def maxSeed : Nat := 256

def triedSeeds : Nat → UInt64 → List UInt64
  | 0, _ => []
  | k + 1, rng =>
    let (rng, seed) := splitmix64 rng
    seed :: triedSeeds k rng

/-- Vertices for `n` keys: 1.23 each, at least three more than keys, a multiple of three. -/
def compactVertexCount (n : Nat) : Nat :=
  ((max (max ((n * 123 + 99) / 100) (n + 3)) 3 + 2) / 3 * 3) % 2 ^ 32

variable (keys : List UInt64)

def edge (seed : UInt64) (m i : Nat) : List Nat :=
  hash3Partite (keys.getD i 0) seed m

def peelOrder (seed : UInt64) (m : Nat) : Option (List (Nat × Nat)) :=
  Peel.order (edge keys seed m) keys.length m

def third (m v : Nat) : Nat :=
  if v < m / 3 then 0 else if v < 2 * (m / 3) then 1 else 2

/-- Labels and occupancy of a peeled graph. -/
def assignCompact (seed : UInt64) (m : Nat) (order : List (Nat × Nat)) : List Nat × List Nat :=
  let (g, _) := Peel.assign (edge keys seed m) (fun _ v => third m v) 3 order
  ((List.range m).map g,
    order.foldr (fun x occ => occSet occ x.2) (List.replicate ((m + 63) / 64) 0))

namespace BdzMphf

def empty : BdzMphf := ⟨0, 0, 0, 0, .ram [], .empty⟩

def single : BdzMphf := ⟨1, 1, 1, 1, .ram [0], .fromOcc (occSet [0] 0) 1⟩

/-- The hash of a peeled graph. -/
def ofOrder (keys : List UInt64) (n : Nat) (seed : UInt64) (m : Nat) (order : List (Nat × Nat)) :
    BdzMphf :=
  let (g, occ) := assignCompact keys seed m order
  { n, m, seed, modulus := n, g := .ram g, compact := .fromOcc occ m }

/-- Try the seeds until the graph of the keys peels. -/
def buildCompact (keys : List UInt64) : Result BdzMphf :=
  let n := keys.length % 2 ^ 32
  if n = 0 then .ok .empty
  else if n = 1 then .ok .single
  else
    let m := compactVertexCount n
    let peeled := (triedSeeds maxSeed 0x9e3779b97f4a7c15).findSome? fun seed =>
      (peelOrder keys seed m).map fun order => (seed, order)
    match peeled with
    | none => corrupt "bdz mphf: graph did not peel"
    | some (seed, order) => .ok (.ofOrder keys n seed m order)

end BdzMphf

end Rbitcoin.Store
