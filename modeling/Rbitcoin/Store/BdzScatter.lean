import Rbitcoin.Lib.Loop
import Rbitcoin.Store.BdzFile
import Rbitcoin.Store.BdzAssigned
import Mathlib.Data.Finset.Sort

/-! Looking up a batch of keys in a hash whose labels are packed in a file. Every page that some
label touches is read once. The reads complete in any order, and a label that straddles two pages
waits for the later of them. Whatever the order, each key gets the index that the unpacked labels in
memory give it. -/

namespace Rbitcoin.Store

open Bytes Outcome List Function

def hashVerts (key seed : UInt64) (m : Nat) (partite : Bool) : List Nat :=
  if partite then hash3Partite key seed m else hash3 key seed m

def unpackGAt (buf : Bytes) (v gBits : Nat) : Nat :=
  let start := v * gBits
  if buf.length ≤ start / 8 then 0
  else extractGWindow (buf.drop (start / 8)) 0 (start % 8) gBits

/-- A label to cut out: of which key and which of its vertices, and where it starts. -/
structure GExtract where
  ki : Nat
  slot : Nat
  off : Nat
  rem : Nat
  startPage : Nat
  deriving DecidableEq, Repr

/-- The page where a label ends, and the label. -/
def gExtract (ki slot vert gBits : Nat) : Nat × GExtract :=
  let start := vert * gBits
  let startByte := start / 8
  let last := start + (gBits - 1)
  (last / 8 / gPageBytes,
    { ki, slot, off := startByte % gPageBytes, rem := start % 8
      startPage := startByte / gPageBytes })

def vertexPages (v gBits : Nat) : List Nat :=
  let start := v * gBits
  let last := start + (gBits - 1)
  let p0 := start / 8 / gPageBytes
  let p1 := last / 8 / gPageBytes
  List.range' p0 (p1 + 1 - p0)

/-- The last eight bytes of a page, behind zeros if it is shorter. -/
def tailBytes (buf : Bytes) : Bytes :=
  List.replicate (8 - buf.length) 0 ++ buf.drop (buf.length - 8)

/-- The first eight bytes of a page, before zeros if it is shorter. -/
def headBytes (buf : Bytes) : Bytes := buf.take 8 ++ List.replicate (8 - buf.length) 0

/-- The labels of a batch that are still to be cut out, by the page where they end. A page that came
leaves its last bytes, and a label whose first page did not come yet waits there with the bytes of
its second. -/
structure GPageScatter (pages : Nat) where
  gBits : Nat
  bucketOf : Nat → Option (Fin pages)
  buckets : Fin pages → List GExtract
  tails : Fin pages → Option (Nat × Bytes)
  pending : Fin pages → List (GExtract × Bytes)
  words : List (List Nat)

/-- Every vertex of every key with its position. The position of a key is cut to 32 bits. -/
def extracts (gBits : Nat) (verts : List (List Nat)) : List (Nat × GExtract) :=
  verts.zipIdx.flatMap fun (v, ki) =>
    v.zipIdx.map fun (vert, slot) => gExtract (ki % 2 ^ 32) slot vert gBits

namespace GPageScatter

variable {pages : Nat} (s : GPageScatter pages)

def pushExtract (x : Nat × GExtract) : GPageScatter pages :=
  match s.bucketOf x.1 with
  | none => s
  | some bi => { s with buckets := update s.buckets bi (s.buckets bi ++ [x.2]) }

/-- No label yet. The page ids are distinct, so a page has one bucket. -/
def unfilled (gBits : Nat) (verts : List (List Nat)) (pageIds : List Nat) :
    GPageScatter pageIds.length where
  gBits
  bucketOf page := pageIds.finIdxOf? page
  buckets _ := []
  tails _ := none
  pending _ := []
  words := verts.map fun _ => [0, 0, 0]

def fromVerts (gBits : Nat) (verts : List (List Nat)) (pageIds : List Nat) :
    GPageScatter pageIds.length :=
  (extracts gBits verts).foldl pushExtract (unfilled gBits verts pageIds)

def put (e : GExtract) (val : Nat) : GPageScatter pages :=
  { s with words := s.words.modify e.ki (·.set e.slot val) }

/-- Cut a label out of the last bytes of its first page, which has `plen` bytes, and the bytes that
follow. An offset below zero is a panic, here `none`. -/
def putAcross (e : GExtract) (plen : Nat) (head next : Bytes) : Option (GPageScatter pages) :=
  if plen ≤ 8 + e.off then
    some (s.put e (extractGWindow (head ++ next) (8 + e.off - plen) e.rem s.gBits))
  else none

def putEnding (page : Nat) (buf : Bytes) (s : GPageScatter pages) (e : GExtract) :
    Option (GPageScatter pages) :=
  if e.startPage = page then some (s.put e (extractGWindow buf e.off e.rem s.gBits))
  else
    match s.bucketOf e.startPage with
    | none => some s
    | some sbi =>
      match s.tails sbi with
      | some (plen, head) => s.putAcross e plen head buf
      | none =>
        some { s with
          pending := update s.pending sbi (s.pending sbi ++ [(e, headBytes buf)]) }

def fill (page : Nat) (buf : Bytes) : Option (GPageScatter pages) :=
  match s.bucketOf page with
  | none => some s
  | some bi => do
    let tail := tailBytes buf
    let waiters := s.pending bi
    let s := { s with
      tails := update s.tails bi (some (buf.length, tail))
      pending := update s.pending bi [] }
    let s ← waiters.foldlM (fun s x => s.putAcross x.1 buf.length tail x.2) s
    let ending := s.buckets bi
    let s := { s with buckets := update s.buckets bi [] }
    ending.foldlM (putEnding page buf) s

end GPageScatter

/-- A hash whose labels are packed in a file, as it is opened: with ranks, or with values of its
own. -/
structure FdMphf where
  n : Nat
  m : Nat
  seed : UInt64
  modulus : Nat
  compact : Option CompactRank
  file : Bytes
  off : Nat
  nBytes : Nat
  gBits : Nat
  m_pos : 0 < m
  m_lt : m < 2 ^ 32
  gBits_pos : 1 ≤ gBits
  gBits_le : gBits ≤ 32
  nBytes_eq : nBytes = packedGBytes m gBits
  inside : off + nBytes ≤ file.length

namespace FdMphf

def verts (h : FdMphf) (key : UInt64) : List Nat :=
  hashVerts key h.seed h.m h.compact.isSome

/-- The labels are added in words of 32 bits. -/
def finishIndex (h : FdMphf) (labels verts : List Nat) : Nat :=
  let sum := labels.sum % 2 ^ 32
  match h.compact with
  | some rank => min (rank.rank1 (verts.getD (sum % 3) 0)) (h.n - 1)
  | none => sum % h.modulus

def indexFromG (h : FdMphf) (g : List Nat) (key : UInt64) : Nat :=
  let verts := h.verts key
  h.finishIndex (verts.map (g.getD · 0)) verts

def packed (h : FdMphf) : Bytes := h.file.slice h.off (h.off + h.nBytes)

def unpackG (h : FdMphf) : List Nat :=
  (List.range h.m).map fun v => unpackGAt h.packed v h.gBits

/-- The pages to read, in order and each once. -/
def pageIds (h : FdMphf) (keys : List UInt64) : List Nat :=
  (keys.flatMap fun key => (h.verts key).flatMap fun v => vertexPages v h.gBits).toFinset.sort
    (· ≤ ·)

/-- The pages in the order in which their reads complete. -/
def fillPages {pages : Nat} (h : FdMphf) :
    GPageScatter pages → List Nat → Option (Result (GPageScatter pages))
  | s, [] => some (.ok s)
  | s, page :: rest =>
    match loadGPage h.file h.off h.nBytes page with
    | .error e => some (.error e)
    | .ok buf =>
      match s.fill page buf with
      | none => none
      | some s => h.fillPages s rest

/-- Look up the keys, with the reads of the pages completing in the order `completed`. -/
def indexBatchFd (h : FdMphf) (keys : List UInt64) (completed : List Nat) :
    Option (Result (List Nat)) :=
  let verts := keys.map h.verts
  let scatter := GPageScatter.fromVerts h.gBits verts (h.pageIds keys)
  (h.fillPages scatter completed).map fun filled =>
    filled.map fun s => List.zipWith h.finishIndex s.words verts

end FdMphf

theorem ofLe_replicate_zero (k : Nat) : ofLe (replicate k 0) = 0 := by
  induction k with
  | zero => rfl
  | succ k ih => simp [replicate_succ, ofLe, ih]

section Windows

variable {gBits : Nat} (pos : 1 ≤ gBits) (le : gBits ≤ 32)
include pos le

theorem extractGWindow_eq (s : Bytes) (off : Nat) {rem : Nat} (hrem : rem < 8) :
    extractGWindow s off rem gBits = ofLe s / 2 ^ (8 * off + rem) % 2 ^ gBits := by
  have need : min ((rem + (gBits - 1)) / 8 + 1) 8 = (rem + (gBits - 1)) / 8 + 1 := by omega
  rw [extractGWindow, need, ofLe_take, ofLe_drop, show (256 : Nat) = 2 ^ 8 from rfl, ← pow_mul,
    ← pow_mul, mod_div_mod (by omega), Nat.div_div_eq_div_mul, ← pow_add]

theorem unpackGAt_eq (buf : Bytes) (v : Nat) :
    unpackGAt buf v gBits = ofLe buf / 2 ^ (v * gBits) % 2 ^ gBits := by
  have split : 8 * (v * gBits / 8) + v * gBits % 8 = v * gBits := Nat.div_add_mod ..
  simp only [unpackGAt]
  split_ifs with outside
  · have small : ofLe buf < 2 ^ (v * gBits) := by
      refine (ofLe_lt buf).trans_le ?_
      rw [show (256 : Nat) = 2 ^ 8 from rfl, ← pow_mul]
      exact Nat.pow_le_pow_right (by decide) (by omega)
    rw [Nat.div_eq_of_lt small, Nat.zero_mod]
  · rw [extractGWindow_eq pos le _ _ (Nat.mod_lt _ (by decide)), ofLe_drop,
      show (256 : Nat) = 2 ^ 8 from rfl, ← pow_mul, Nat.div_div_eq_div_mul, ← pow_add,
      Nat.zero_add, split]

theorem extractGWindow_stretch {packed stretch : Bytes} {a b off v : Nat}
    (value : ofLe stretch = ofLe packed / 256 ^ a % 256 ^ b)
    (start : 8 * (a + off) + v * gBits % 8 = v * gBits)
    (holds : 8 * off + v * gBits % 8 + gBits ≤ 8 * b) :
    extractGWindow stretch off (v * gBits % 8) gBits = unpackGAt packed v gBits := by
  rw [extractGWindow_eq pos le _ _ (Nat.mod_lt _ (by decide)), unpackGAt_eq pos le, value,
    show (256 : Nat) = 2 ^ 8 from rfl, ← pow_mul, ← pow_mul, mod_div_mod holds,
    Nat.div_div_eq_div_mul, ← pow_add, show 8 * a + (8 * off + v * gBits % 8) = v * gBits by omega]

end Windows

namespace FdMphf

variable (h : FdMphf) (p : Nat)

def page : Bytes := (h.packed.drop (p * gPageBytes)).take gPageBytes

def label (v : Nat) : Nat := unpackGAt h.packed v h.gBits

theorem packed_length : h.packed.length = h.nBytes := by
  have inside := h.inside
  rw [packed, slice_length inside, Nat.add_sub_cancel_left]

theorem page_length : (h.page p).length = min gPageBytes (h.nBytes - p * gPageBytes) := by
  rw [page, length_take, length_drop, h.packed_length]

theorem ofLe_page :
    ofLe (h.page p) = ofLe h.packed / 256 ^ (p * gPageBytes) % 256 ^ gPageBytes := by
  rw [page, ofLe_take, ofLe_drop]

theorem loadGPage_eq : loadGPage h.file h.off h.nBytes p = .ok (h.page p) := by
  have inside := h.inside
  rw [loadGPage]
  split_ifs with behind
  · rw [page, drop_eq_nil_of_le (h.packed_length ▸ behind), take_nil]
  · rw [pread_eq_ok (by omega), page, packed, slice, slice, Nat.add_sub_cancel_left,
      Nat.add_sub_cancel_left, drop_take, drop_drop, take_take, min_comm]

variable {h}

def endPage (h : FdMphf) (v : Nat) : Nat := (gExtract 0 0 v h.gBits).1

/-- `e` asks for the label of the vertex `v`, which stands at its place among the vertices. -/
structure Asks (h : FdMphf) (verts : List (List Nat)) (e : GExtract) (v : Nat) : Prop where
  place : (verts.getD e.ki [])[e.slot]? = some v
  extract : (gExtract e.ki e.slot v h.gBits).2 = e

variable {verts : List (List Nat)} {e : GExtract} {v : Nat}

theorem Asks.start (asks : h.Asks verts e v) : e.startPage = v * h.gBits / 8 / gPageBytes ∧
    e.off = v * h.gBits / 8 % gPageBytes ∧ e.rem = v * h.gBits % 8 := by
  rw [← asks.extract]
  exact ⟨rfl, rfl, rfl⟩

theorem Asks.mem_vertexPages (asks : h.Asks verts e v) :
    e.startPage ∈ vertexPages v h.gBits ∧ h.endPage v ∈ vertexPages v h.gBits := by
  have le : v * h.gBits / 8 / gPageBytes ≤ (v * h.gBits + (h.gBits - 1)) / 8 / gPageBytes :=
    Nat.div_le_div_right (Nat.div_le_div_right (Nat.le_add_right ..))
  rw [asks.start.1]
  simp only [endPage, gExtract, vertexPages, mem_range'_1]
  omega

theorem last_lt (hv : v < h.m) : (v * h.gBits + (h.gBits - 1)) / 8 < h.nBytes := by
  have room : (v + 1) * h.gBits ≤ h.m * h.gBits := Nat.mul_le_mul_right _ hv
  have pos := h.gBits_pos
  rw [h.nBytes_eq, packedGBytes]
  rw [add_mul] at room
  omega

theorem Asks.cut_page (asks : h.Asks verts e v) (starts : e.startPage = h.endPage v) :
    extractGWindow (h.page (h.endPage v)) e.off e.rem h.gBits = h.label v := by
  obtain ⟨start, off, rem⟩ := asks.start
  have pos := h.gBits_pos
  rw [off, rem]
  refine extractGWindow_stretch pos h.gBits_le (h.ofLe_page _) ?_ ?_
  · simp only [gPageBytes] at *
    omega
  · simp only [endPage, gExtract, gPageBytes] at *
    omega

/-- A label that straddles two pages: the first of them is whole, and the label starts in its last
eight bytes. -/
theorem Asks.straddles (asks : h.Asks verts e v) (hv : v < h.m)
    (apart : e.startPage ≠ h.endPage v) :
    h.endPage v = e.startPage + 1 ∧ (h.page e.startPage).length = gPageBytes ∧
      gPageBytes ≤ 8 + e.off := by
  obtain ⟨start, off, -⟩ := asks.start
  have le := h.gBits_le
  have last := last_lt hv
  rw [start] at apart
  rw [h.page_length, start, off]
  simp only [endPage, gExtract, gPageBytes] at apart ⊢
  omega

theorem ofLe_across {p b : Nat} {next : Bytes} (whole : (h.page p).length = gPageBytes)
    (value : ofLe next = ofLe h.packed / 256 ^ ((p + 1) * gPageBytes) % 256 ^ b) :
    ofLe (tailBytes (h.page p) ++ next) =
      ofLe h.packed / 256 ^ (p * gPageBytes + (gPageBytes - 8)) % 256 ^ (8 + b) := by
  have tail : tailBytes (h.page p) = (h.page p).drop (gPageBytes - 8) := by
    rw [tailBytes, whole, show 8 - gPageBytes = 0 from rfl, replicate_zero, nil_append]
  have size : (tailBytes (h.page p)).length = 8 := by
    rw [tail, length_drop, whole]
    rfl
  have first : ofLe (tailBytes (h.page p)) =
      ofLe h.packed / 256 ^ (p * gPageBytes + (gPageBytes - 8)) % 256 ^ 8 := by
    rw [tail, page, drop_take, drop_drop, ofLe_take, ofLe_drop]
    rfl
  rw [ofLe_append, size, first, value, pow_add 256 8, Nat.mod_mul, Nat.div_div_eq_div_mul,
    ← pow_add, show p * gPageBytes + (gPageBytes - 8) + 8 = (p + 1) * gPageBytes by
      simp only [gPageBytes]; omega]

theorem ofLe_headBytes :
    ofLe (headBytes (h.page p)) = ofLe h.packed / 256 ^ (p * gPageBytes) % 256 ^ 8 := by
  rw [headBytes, ofLe_append, ofLe_replicate_zero, mul_zero, add_zero, ofLe_take,
    h.ofLe_page, Nat.mod_mod_of_dvd _ (pow_dvd_pow 256 (by decide))]

theorem Asks.cut_across {b : Nat} {next : Bytes} (asks : h.Asks verts e v) (hv : v < h.m)
    (enough : 8 ≤ b) (apart : e.startPage ≠ h.endPage v)
    (value : ofLe next = ofLe h.packed / 256 ^ (h.endPage v * gPageBytes) % 256 ^ b) :
    extractGWindow (tailBytes (h.page e.startPage) ++ next) (8 + e.off - gPageBytes) e.rem h.gBits =
      h.label v := by
  obtain ⟨follows, whole, offset⟩ := asks.straddles hv apart
  obtain ⟨start, off, rem⟩ := asks.start
  have le := h.gBits_le
  rw [follows] at value
  have bytes := ofLe_across whole value
  rw [rem]
  refine extractGWindow_stretch h.gBits_pos le bytes ?_ ?_
  · simp only [gPageBytes] at *
    omega
  · simp only [gPageBytes] at *
    omega

/-- The vertices of a batch have labels, and every page of a label has a bucket of its own. -/
structure Batch {pages : Nat} (h : FdMphf) (verts : List (List Nat))
    (bucketOf : Nat → Option (Fin pages)) : Prop where
  below : ∀ row ∈ verts, ∀ v ∈ row, v < h.m
  apart : ∀ {p q i}, bucketOf p = some i → bucketOf q = some i → p = q
  covers : ∀ row ∈ verts, ∀ v ∈ row, ∀ p ∈ vertexPages v h.gBits, ∃ i, bucketOf p = some i

theorem Asks.mem (asks : h.Asks verts e v) : ∃ row ∈ verts, v ∈ row := by
  have place := asks.place
  by_cases inside : e.ki < verts.length
  · rw [getD_eq_getElem _ _ inside] at place
    exact ⟨_, getElem_mem inside, mem_of_getElem? place⟩
  · rw [getD_eq_default _ _ (by omega)] at place
    cases place

theorem Asks.eq {e' : GExtract} {v' : Nat} (asks : h.Asks verts e v) (asks' : h.Asks verts e' v')
    (ki : e'.ki = e.ki) (slot : e'.slot = e.slot) : v' = v := by
  have place := asks'.place
  rw [ki, slot, asks.place] at place
  exact (Option.some.inj place).symm

end FdMphf

/-! ### What a scatter holds -/

namespace GPageScatter

variable {pages : Nat}

theorem mem_update_nil {α : Type} {f : Fin pages → List α} {i j : Fin pages} {x : α} :
    x ∈ update f i [] j ↔ j ≠ i ∧ x ∈ f j := by
  by_cases same : j = i <;> simp [same]

theorem mem_update_append {α : Type} {f : Fin pages → List α} {i j : Fin pages} {x y : α} :
    x ∈ update f i (f i ++ [y]) j ↔ x ∈ f j ∨ j = i ∧ x = y := by
  by_cases same : j = i
  · subst same
    simp
  · simp [same]

/-- The label found for a vertex of a key. -/
def word (s : GPageScatter pages) (ki slot : Nat) : Nat := (s.words.getD ki []).getD slot 0

/-- The state of a batch. The pages `known` came, the buckets of `emptied` are empty, and the labels
in `hand` are about to be cut out. Every label is in a bucket, waits, is in hand or was found. -/
structure Held (h : FdMphf) (verts : List (List Nat)) (bucketOf : Nat → Option (Fin pages))
    (known emptied : List Nat) (hand : List GExtract) (s : GPageScatter pages) : Prop where
  gBits_eq : s.gBits = h.gBits
  bucketOf_eq : s.bucketOf = bucketOf
  rows : s.words.map List.length = verts.map List.length
  tails_eq : ∀ {p i}, bucketOf p = some i →
    s.tails i = if p ∈ known then some ((h.page p).length, tailBytes (h.page p)) else none
  bucket : ∀ {i e}, e ∈ s.buckets i →
    ∃ v, h.Asks verts e v ∧ bucketOf (h.endPage v) = some i ∧ h.endPage v ∉ emptied
  waits : ∀ {i x}, x ∈ s.pending i → x.1.startPage ∉ known ∧ bucketOf x.1.startPage = some i ∧
    ∃ v, h.Asks verts x.1 v ∧ x.1.startPage ≠ h.endPage v ∧ x.2 = headBytes (h.page (h.endPage v))
  settled : ∀ {e v}, h.Asks verts e v → (∃ i, e ∈ s.buckets i) ∨
    (∃ i x, x ∈ s.pending i ∧ x.1 = e) ∨ e ∈ hand ∨ s.word e.ki e.slot = h.label v

section Held

variable {h : FdMphf} {verts : List (List Nat)} {bucketOf : Nat → Option (Fin pages)}
  {known emptied : List Nat} {hand : List GExtract} {s : GPageScatter pages}

variable {e : GExtract} {v : Nat}

theorem word_put {ki slot : Nat} (val : Nat) (inside : e.ki < s.words.length)
    (within : e.slot < (s.words.getD e.ki []).length) :
    (s.put e val).word ki slot = if ki = e.ki ∧ slot = e.slot then val else s.word ki slot := by
  simp only [put, word, getD_eq_getElem?_getD] at within ⊢
  rw [getElem?_eq_getElem inside, Option.getD_some] at within
  by_cases ki_eq : ki = e.ki
  · subst ki_eq
    by_cases slot_eq : slot = e.slot
    · subst slot_eq
      simp [inside, within]
    · simp [inside, slot_eq, getElem?_set_ne (Ne.symm slot_eq)]
  · simp [ki_eq, Ne.symm ki_eq]

theorem Held.place_inside (held : Held h verts bucketOf known emptied hand s)
    (asks : h.Asks verts e v) : e.ki < s.words.length ∧ e.slot < (s.words.getD e.ki []).length := by
  have lengths := congrArg (·[e.ki]?) held.rows
  have place := asks.place
  simp only [getElem?_map, getD_eq_getElem?_getD] at lengths place ⊢
  cases row : verts[e.ki]? with
  | none => simp [row] at place
  | some row' =>
    rw [row] at place
    obtain ⟨within, -⟩ := List.getElem?_eq_some_iff.mp place
    rw [row] at lengths
    obtain ⟨words, found, same⟩ := Option.map_eq_some_iff.mp lengths
    rw [found, Option.getD_some, same]
    exact ⟨(List.getElem?_eq_some_iff.mp found).1, within⟩

theorem Held.own (held : Held h verts bucketOf known emptied hand s) {p : Nat} {i : Fin pages}
    (bucket : bucketOf p = some i) : s.bucketOf p = some i := by
  rw [held.bucketOf_eq, bucket]

theorem Held.put (held : Held h verts bucketOf known emptied (e :: hand) s)
    (asks : h.Asks verts e v) : Held h verts bucketOf known emptied hand (s.put e (h.label v)) :=
  { held with
    rows := by
      rw [← held.rows, GPageScatter.put]
      apply ext_getElem?
      intro k
      simp only [getElem?_map, getElem?_modify]
      cases s.words[k]? with
      | none => rfl
      | some row =>
        simp only [Option.map_eq_map, Option.map_some]
        split_ifs
        · rw [length_set]
        · rfl
    settled := by
      intro e' v' asks'
      obtain ⟨inside, within⟩ := held.place_inside asks
      rw [word_put _ inside within]
      split_ifs with same
      · rw [asks.eq asks' same.1 same.2]
        exact .inr (.inr (.inr rfl))
      · refine (held.settled asks').imp_right (Or.imp_right (Or.imp_left fun member => ?_))
        rcases mem_cons.mp member with rfl | member
        · exact absurd ⟨rfl, rfl⟩ same
        · exact member }

theorem Held.wait {i : Fin pages} (held : Held h verts bucketOf known emptied (e :: hand) s)
    (asks : h.Asks verts e v) (unknown : e.startPage ∉ known)
    (bucket : bucketOf e.startPage = some i) (apart : e.startPage ≠ h.endPage v) :
    Held h verts bucketOf known emptied hand { s with
      pending := update s.pending i
        (s.pending i ++ [(e, headBytes (h.page (h.endPage v)))]) } :=
  { held with
    waits := by
      intro j x member
      rcases mem_update_append.mp member with member | ⟨rfl, rfl⟩
      · exact held.waits member
      · exact ⟨unknown, bucket, v, asks, apart, rfl⟩
    settled := by
      intro e' v' asks'
      rcases held.settled asks' with bucket | ⟨j, x, member, same⟩ | member | found
      · exact .inl bucket
      · exact .inr (.inl ⟨j, x, mem_update_append.mpr (.inl member), same⟩)
      · rcases mem_cons.mp member with rfl | member
        · exact .inr (.inl ⟨i, _, mem_update_append.mpr (.inr ⟨rfl, rfl⟩), rfl⟩)
        · exact .inr (.inr (.inl member))
      · exact .inr (.inr (.inr found)) }

variable {p : Nat} {bi : Fin pages}

theorem notMem_cons_of_apart {q : Nat} {i : Fin pages} (bucket : bucketOf p = some bi)
    (bucket' : bucketOf q = some i) (other : i ≠ bi) (old : q ∉ known) : q ∉ p :: known := by
  refine not_mem_cons_of_ne_of_not_mem (fun same => other ?_) old
  rw [same, bucket] at bucket'
  exact (Option.some.inj bucket').symm

section

variable (batch : h.Batch verts bucketOf)
include batch

theorem Held.arrive (held : Held h verts bucketOf known emptied [] s)
    (bucket : bucketOf p = some bi) :
    Held h verts bucketOf (p :: known) emptied ((s.pending bi).map Prod.fst) { s with
      tails := update s.tails bi (some ((h.page p).length, tailBytes (h.page p)))
      pending := update s.pending bi [] } :=
  { held with
    tails_eq := by
      intro q i bucket'
      simp only [update_apply]
      split_ifs with same member member
      · rw [batch.apart bucket' (same ▸ bucket)]
      · exact absurd (batch.apart bucket' (same ▸ bucket) ▸ mem_cons_self ..) member
      · rw [held.tails_eq bucket', if_pos]
        refine (mem_cons.mp member).resolve_left fun eq => same ?_
        rw [eq, bucket] at bucket'
        exact (Option.some.inj bucket').symm
      · rw [held.tails_eq bucket', if_neg fun old => member (mem_cons_of_mem _ old)]
    waits := by
      intro i x member
      obtain ⟨other, member⟩ := mem_update_nil.mp member
      obtain ⟨unknown, bucket', rest⟩ := held.waits member
      exact ⟨notMem_cons_of_apart bucket bucket' other unknown, bucket', rest⟩
    settled := by
      intro e v asks
      rcases held.settled asks with found | ⟨i, x, member, rfl⟩ | member | found
      · exact .inl found
      · by_cases same : i = bi
        · subst same
          exact .inr (.inr (.inl (mem_map.mpr ⟨x, member, rfl⟩)))
        · exact .inr (.inl ⟨i, x, mem_update_nil.mpr ⟨same, member⟩, rfl⟩)
      · cases member
      · exact .inr (.inr (.inr found)) }

omit batch in
theorem Held.take (held : Held h verts bucketOf known emptied [] s)
    (bucket : bucketOf p = some bi) :
    Held h verts bucketOf known (p :: emptied) (s.buckets bi)
      { s with buckets := update s.buckets bi [] } :=
  { held with
    bucket := by
      intro i e member
      obtain ⟨other, member⟩ := mem_update_nil.mp member
      obtain ⟨v, asks, bucket', full⟩ := held.bucket member
      exact ⟨v, asks, bucket', notMem_cons_of_apart bucket bucket' other full⟩
    settled := by
      intro e v asks
      rcases held.settled asks with ⟨i, member⟩ | waiting | member | found
      · by_cases same : i = bi
        · subst same
          exact .inr (.inr (.inl member))
        · exact .inl ⟨i, mem_update_nil.mpr ⟨same, member⟩⟩
      · exact .inr (.inl waiting)
      · cases member
      · exact .inr (.inr (.inr found)) }

theorem Held.putAcross {b : Nat} {next : Bytes}
    (held : Held h verts bucketOf known emptied (e :: hand) s) (asks : h.Asks verts e v)
    (apart : e.startPage ≠ h.endPage v) (enough : 8 ≤ b)
    (value : ofLe next = ofLe h.packed / 256 ^ (h.endPage v * gPageBytes) % 256 ^ b) :
    ∃ s', s.putAcross e (h.page e.startPage).length (tailBytes (h.page e.startPage)) next =
      some s' ∧ Held h verts bucketOf known emptied hand s' := by
  obtain ⟨row, member, within⟩ := asks.mem
  have hv := batch.below row member v within
  obtain ⟨-, whole, offset⟩ := asks.straddles hv apart
  rw [GPageScatter.putAcross, whole, if_pos offset, held.gBits_eq,
    asks.cut_across hv enough apart value]
  exact ⟨_, rfl, held.put asks⟩

theorem Held.putEnding (held : Held h verts bucketOf known emptied (e :: hand) s)
    (asks : h.Asks verts e v) (ends : h.endPage v = p) :
    ∃ s', s.putEnding p (h.page p) e = some s' ∧ Held h verts bucketOf known emptied hand s' := by
  subst ends
  rw [GPageScatter.putEnding]
  split_ifs with starts
  · rw [held.gBits_eq, asks.cut_page starts]
    exact ⟨_, rfl, held.put asks⟩
  · obtain ⟨row, member, within⟩ := asks.mem
    obtain ⟨sbi, bucket⟩ := batch.covers row member v within _ asks.mem_vertexPages.1
    rw [held.own bucket]
    dsimp only
    rw [held.tails_eq bucket]
    split_ifs with known'
    · exact held.putAcross batch asks starts (by decide) (h.ofLe_page _)
    · exact ⟨_, rfl, held.wait asks known' bucket starts⟩

theorem Held.fill (held : Held h verts bucketOf known known [] s) (bucket : bucketOf p = some bi) :
    ∃ s', s.fill p (h.page p) = some s' ∧
      Held h verts bucketOf (p :: known) (p :: known) [] s' := by
  obtain ⟨mid, waited, midHeld⟩ := Loop.foldlM_returns
    (fun s x => s.putAcross x.1 (h.page p).length (tailBytes (h.page p)) x.2)
    (P := fun l => Held h verts bucketOf (p :: known) known (l.map Prod.fst))
    (fun x member rest s now => by
      obtain ⟨-, bucket', v, asks, apart, next⟩ := held.waits member
      rw [← batch.apart bucket' bucket] at now ⊢
      exact now.putAcross batch asks apart (le_refl 8) (next ▸ FdMphf.ofLe_headBytes _))
    (held.arrive batch bucket)
  obtain ⟨s', ended, held'⟩ := Loop.foldlM_returns (GPageScatter.putEnding p (h.page p))
    (P := Held h verts bucketOf (p :: known) (p :: known)) (fun e member rest s now => by
      obtain ⟨v, asks, bucket', -⟩ := midHeld.bucket member
      exact now.putEnding batch asks (batch.apart bucket' bucket)) (midHeld.take bucket)
  refine ⟨s', ?_, held'⟩
  rw [GPageScatter.fill, held.own bucket]
  simp only [Option.bind_eq_bind]
  rw [waited, Option.bind_some, ended]

theorem Held.fillPages (completed : List Nat) (buckets : ∀ p ∈ completed, ∃ i, bucketOf p = some i)
    (held : Held h verts bucketOf known known [] s) :
    ∃ s', h.fillPages s completed = some (.ok s') ∧
      Held h verts bucketOf (completed.reverse ++ known) (completed.reverse ++ known) [] s' := by
  induction completed generalizing s known with
  | nil => exact ⟨s, rfl, held⟩
  | cons p completed ih =>
    obtain ⟨bi, bucket⟩ := buckets p mem_cons_self
    obtain ⟨mid, filled, held⟩ := held.fill batch bucket
    obtain ⟨s', rest, held⟩ := ih (forall_mem_cons.mp buckets).2 held
    refine ⟨s', ?_, by simpa using held⟩
    simp only [FdMphf.fillPages, h.loadGPage_eq, filled, rest]

end

theorem Held.words_eq (held : Held h verts bucketOf known known [] s)
    (all : ∀ p i, bucketOf p = some i → p ∈ known) :
    s.words = verts.map (·.map h.label) := by
  have found {e : GExtract} {v : Nat} (asks : h.Asks verts e v) :
      s.word e.ki e.slot = h.label v := by
    rcases held.settled asks with ⟨i, member⟩ | ⟨i, x, member, -⟩ | member | found
    · obtain ⟨v, -, bucket, full⟩ := held.bucket member
      exact absurd (all _ _ bucket) full
    · obtain ⟨unknown, bucket, -⟩ := held.waits member
      exact absurd (all _ _ bucket) unknown
    · cases member
    · exact found
  have rows := held.rows
  have length : s.words.length = verts.length := by simpa using congrArg length rows
  refine ext_getElem (by simpa using length) fun ki inside _ => ?_
  have inside' : ki < verts.length := length ▸ inside
  have row : s.words[ki].length = verts[ki].length := by
    have := congrArg (·[ki]?) rows
    simpa [inside, inside'] using this
  refine ext_getElem (by simpa using row) fun slot within _ => ?_
  have within' : slot < verts[ki].length := row ▸ within
  have asks : h.Asks verts (gExtract ki slot verts[ki][slot] h.gBits).2 verts[ki][slot] :=
    ⟨by simp [gExtract, inside'], rfl⟩
  simpa [word, gExtract, inside, within] using found asks

end Held

/-! ### The start of a batch -/

/-- Only the buckets change. -/
theorem foldl_pushExtract (l : List (Nat × GExtract)) (s : GPageScatter pages) :
    ∃ buckets, l.foldl pushExtract s = { s with buckets } ∧ ∀ i e, e ∈ buckets i ↔
      e ∈ s.buckets i ∨ ∃ x ∈ l, x.2 = e ∧ s.bucketOf x.1 = some i := by
  induction l generalizing s with
  | nil => exact ⟨s.buckets, rfl, by simp⟩
  | cons x l ih =>
    rw [foldl_cons, pushExtract]
    cases bucket : s.bucketOf x.1 with
    | none =>
      obtain ⟨buckets, same, mem⟩ := ih s
      exact ⟨buckets, same, by simp [mem, bucket]⟩
    | some bi =>
      obtain ⟨buckets, same, mem⟩ := ih { s with buckets := _ }
      refine ⟨buckets, same, fun i e => ?_⟩
      rw [mem, mem_update_append]
      simp [bucket, or_assoc, eq_comm, and_comm]

theorem mem_extracts {gBits : Nat} {verts : List (List Nat)} {x : Nat × GExtract} :
    x ∈ extracts gBits verts ↔ ∃ ki row slot v, verts[ki]? = some row ∧ row[slot]? = some v ∧
      gExtract (ki % 2 ^ 32) slot v gBits = x := by
  simp only [extracts, mem_flatMap, mem_map, Prod.exists, mem_zipIdx_iff_getElem?]
  constructor
  · rintro ⟨row, ki, hrow, v, slot, hv, eq⟩
    exact ⟨ki, row, slot, v, hrow, hv, eq⟩
  · rintro ⟨ki, row, slot, v, hrow, hv, eq⟩
    exact ⟨row, ki, hrow, v, slot, hv, eq⟩

theorem fromVerts_held {h : FdMphf} {verts : List (List Nat)} {pageIds : List Nat}
    (batch : h.Batch verts fun page => pageIds.finIdxOf? page) (few : verts.length ≤ 2 ^ 32)
    (three : ∀ row ∈ verts, row.length = 3) :
    Held h verts (fun page => pageIds.finIdxOf? page) [] [] []
      (fromVerts h.gBits verts pageIds) := by
  obtain ⟨buckets, same, mem⟩ :=
    foldl_pushExtract (extracts h.gBits verts) (unfilled h.gBits verts pageIds)
  rw [fromVerts, same]
  refine ⟨rfl, rfl, ?_, fun _ => rfl, ?_, nofun, ?_⟩
  · rw [unfilled, map_map]
    exact map_congr_left fun row member => (three row member).symm
  · intro i e member
    simp only [mem, unfilled, not_mem_nil, false_or, mem_extracts] at member
    obtain ⟨x, ⟨ki, row, slot, v, hrow, hv, rfl⟩, rfl, bucket⟩ := member
    have inside : ki < verts.length := (List.getElem?_eq_some_iff.mp hrow).1
    rw [Nat.mod_eq_of_lt (by omega)] at bucket ⊢
    refine ⟨v, ⟨?_, rfl⟩, bucket, not_mem_nil⟩
    simp [gExtract, hrow, hv]
  · intro e v asks
    obtain ⟨row, member, within⟩ := asks.mem
    obtain ⟨i, bucket⟩ := batch.covers row member v within _ asks.mem_vertexPages.2
    refine .inl ⟨i, (mem i e).mpr (.inr ⟨_, mem_extracts.mpr ?_, asks.extract, bucket⟩)⟩
    have place := asks.place
    rw [getD_eq_getElem?_getD] at place
    cases hrow : verts[e.ki]? with
    | none => simp [hrow] at place
    | some row =>
      rw [hrow] at place
      have inside : e.ki < verts.length := (List.getElem?_eq_some_iff.mp hrow).1
      exact ⟨e.ki, row, e.slot, v, hrow, place, by rw [Nat.mod_eq_of_lt (by omega)]⟩

/-! ### Positions that are cut

The words of a key at a position from `2 ^ 32` on are never written. -/

/-- No label of the scatter is for a position from `2 ^ 32` on, where the words are those of
`base`. -/
structure Low (base : List (List Nat)) (s : GPageScatter pages) : Prop where
  buckets : ∀ i, ∀ e ∈ s.buckets i, e.ki < 2 ^ 32
  pending : ∀ i, ∀ x ∈ s.pending i, x.1.ki < 2 ^ 32
  words : ∀ k, 2 ^ 32 ≤ k → s.words[k]? = base[k]?

section Low

variable {base : List (List Nat)} {s s' : GPageScatter pages} {e : GExtract}

theorem Low.put (low : Low base s) (small : e.ki < 2 ^ 32) (val : Nat) :
    Low base (s.put e val) where
  buckets := low.buckets
  pending := low.pending
  words k hk := by
    have apart : e.ki ≠ k := by omega
    simp [GPageScatter.put, apart, low.words k hk]

theorem Low.putAcross {plen : Nat} {head next : Bytes} (low : Low base s) (small : e.ki < 2 ^ 32)
    (put : s.putAcross e plen head next = some s') : Low base s' := by
  rw [GPageScatter.putAcross] at put
  split_ifs at put
  cases put
  exact low.put small _

theorem Low.putEnding {page : Nat} {buf : Bytes} (low : Low base s) (small : e.ki < 2 ^ 32)
    (put : s.putEnding page buf e = some s') : Low base s' := by
  unfold GPageScatter.putEnding at put
  split at put
  · cases put
    exact low.put small _
  split at put
  · cases put
    exact low
  split at put
  · exact low.putAcross small put
  cases put
  refine ⟨low.buckets, fun i x member => ?_, low.words⟩
  rcases mem_update_append.mp member with member | ⟨-, rfl⟩
  · exact low.pending i x member
  · exact small

theorem Low.fill {page : Nat} {buf : Bytes} (low : Low base s)
    (filled : s.fill page buf = some s') : Low base s' := by
  unfold GPageScatter.fill at filled
  split at filled
  · cases filled
    exact low
  · next bi _ =>
    simp only [Option.bind_eq_bind, Option.bind_eq_some_iff] at filled
    obtain ⟨mid, waited, ended⟩ := filled
    have opened : Low base { s with
        tails := update s.tails bi (some (buf.length, tailBytes buf))
        pending := update s.pending bi [] } :=
      ⟨low.buckets, fun i x member => low.pending i x (mem_update_nil.mp member).2, low.words⟩
    have midLow : Low base mid :=
      Loop.foldlM_keeps (fun x mem _ _ now put => now.putAcross (low.pending bi x mem) put) opened
        waited
    have taken : Low base { mid with buckets := update mid.buckets bi [] } :=
      ⟨fun i x member => midLow.buckets i x (mem_update_nil.mp member).2, midLow.pending,
        midLow.words⟩
    exact Loop.foldlM_keeps (fun x mem _ _ now put => now.putEnding (midLow.buckets bi x mem) put)
      taken ended

theorem Low.fillPages {h : FdMphf} {completed : List Nat} (low : Low base s)
    (filled : h.fillPages s completed = some (.ok s')) : Low base s' := by
  induction completed generalizing s with
  | nil =>
    cases filled
    exact low
  | cons p completed ih =>
    simp only [FdMphf.fillPages, h.loadGPage_eq] at filled
    cases first : s.fill p (h.page p) with
    | none => simp [first] at filled
    | some mid =>
      simp only [first] at filled
      exact ih (low.fill first) filled

end Low

theorem fromVerts_low (gBits : Nat) (verts : List (List Nat)) (pageIds : List Nat) :
    Low (verts.map fun _ => [0, 0, 0]) (fromVerts gBits verts pageIds) := by
  obtain ⟨buckets, same, mem⟩ :=
    foldl_pushExtract (extracts gBits verts) (unfilled gBits verts pageIds)
  rw [fromVerts, same]
  refine ⟨fun i e member => ?_, nofun, fun k _ => rfl⟩
  simp only [mem, unfilled, not_mem_nil, false_or, mem_extracts] at member
  obtain ⟨x, ⟨ki, row, slot, v, -, -, rfl⟩, rfl, -⟩ := member
  exact Nat.mod_lt _ (Nat.two_pow_pos 32)

end GPageScatter

theorem hashVerts_length (key seed : UInt64) (m : Nat) (partite : Bool) :
    (hashVerts key seed m partite).length = 3 := by
  cases partite <;> rfl

theorem hashVerts_lt {key seed : UInt64} {m v : Nat} {partite : Bool} (pos : 0 < m)
    (mem : v ∈ hashVerts key seed m partite) : v < m := by
  cases partite with
  | false => exact BdzAssigned.hash3_lt pos mem
  | true =>
    by_cases small : m < 3
    · have part : m / 3 = 0 := by omega
      simp only [hashVerts, if_true, hash3Partite, part, mulHigh, mem_cons, not_mem_nil, or_false]
        at mem
      omega
    · exact hash3Partite_lt mem (by omega)

namespace FdMphf

variable {keys : List UInt64}

theorem mem_pageIds {h : FdMphf} {p : Nat} :
    p ∈ h.pageIds keys ↔ ∃ key ∈ keys, ∃ v ∈ h.verts key, p ∈ vertexPages v h.gBits := by
  simp [pageIds]

theorem batch (h : FdMphf) (keys : List UInt64) :
    h.Batch (keys.map h.verts) fun page => (h.pageIds keys).finIdxOf? page where
  below := forall_mem_map.mpr fun _ _ _ within => hashVerts_lt h.m_pos within
  apart := by
    intro p q i first second
    rw [← (finIdxOf?_eq_some_iff.mp first).1, ← (finIdxOf?_eq_some_iff.mp second).1]
  covers := by
    refine forall_mem_map.mpr fun key hkey v within p touches => ?_
    have listed : p ∈ h.pageIds keys := mem_pageIds.mpr ⟨key, hkey, v, within, touches⟩
    apply Option.ne_none_iff_exists'.mp
    rw [Ne, finIdxOf?_eq_none_iff]
    exact fun absent => absent listed

theorem indexFromG_unpackG (h : FdMphf) (key : UInt64) :
    h.indexFromG h.unpackG key = h.finishIndex ((h.verts key).map h.label) (h.verts key) := by
  have labels : (h.verts key).map (h.unpackG.getD · 0) = (h.verts key).map h.label :=
    map_congr_left fun v member => by
      have small : v < h.m := hashVerts_lt h.m_pos member
      simp [unpackG, label, small]
  rw [indexFromG, labels]

section Single

variable {rank : CompactRank} (h : FdMphf) (two : h.gBits = compactGBits)
include two

/-- A label of two bits is in one page. -/
theorem loadG_eq (v : Nat) : loadG h.file h.off h.nBytes h.gBits v = .ok (h.label v) := by
  have cut : extractGWindow (h.page (v * h.gBits / 8 / gPageBytes))
      (v * h.gBits / 8 % gPageBytes) (v * h.gBits % 8) h.gBits = h.label v := by
    refine extractGWindow_stretch h.gBits_pos h.gBits_le (h.ofLe_page _) ?_ ?_
    · simp only [gPageBytes]
      omega
    · simp only [two, gPageBytes, compactGBits]
      omega
  simp only [loadG, h.loadGPage_eq, ok_bind, cut]
  rfl

/-- One key looked up by itself gets the index that the batch gives it. -/
theorem index_fd_eq (compact : h.compact = some rank) (many : 2 ≤ h.n) (modulus : h.modulus ≠ 0)
    (key : UInt64) :
    (⟨h.n, h.m, h.seed, h.modulus, .fd h.file h.off h.nBytes h.gBits, rank⟩ : BdzMphf).index key =
      .ok (h.indexFromG h.unpackG key) := by
  have verts : h.verts key = hash3Partite key h.seed h.m := by
    simp [FdMphf.verts, hashVerts, compact]
  have small (v : Nat) : h.label v < 4 := by
    rw [label, unpackGAt_eq h.gBits_pos h.gBits_le, two]
    exact Nat.mod_lt _ (by decide)
  have sum : ((h.verts key).map h.label).sum % 2 ^ 32 = ((h.verts key).map h.label).sum := by
    obtain ⟨a, b, c, three⟩ := length_eq_three.mp (hashVerts_length key h.seed h.m h.compact.isSome)
    rw [FdMphf.verts, three]
    have := small a
    have := small b
    have := small c
    simp only [map_cons, map_nil, sum_cons, sum_nil]
    omega
  rw [indexFromG_unpackG, finishIndex, compact, sum, BdzMphf.index, ← verts]
  dsimp only
  rw [if_neg (by omega), if_neg (by omega), if_neg (not_or.mpr ⟨modulus, h.m_pos.ne'⟩),
    mapM_ok fun v _ => h.loadG_eq two v]
  rfl

end Single

theorem indexBatchFd_eq {h : FdMphf} {completed : List Nat} (few : keys.length ≤ 2 ^ 32)
    (complete : completed.Perm (h.pageIds keys)) :
    h.indexBatchFd keys completed = some (.ok (keys.map (h.indexFromG h.unpackG))) := by
  have three : ∀ row ∈ keys.map h.verts, row.length = 3 :=
    forall_mem_map.mpr fun _ _ => hashVerts_length ..
  have start := GPageScatter.fromVerts_held (h.batch keys) (by simpa using few) three
  obtain ⟨s, filled, held⟩ := start.fillPages (h.batch keys) completed fun p member => by
    obtain ⟨key, hkey, v, within, touches⟩ := mem_pageIds.mp (complete.mem_iff.mp member)
    exact (h.batch keys).covers _ (mem_map.mpr ⟨key, hkey, rfl⟩) v within p touches
  have words := held.words_eq fun p i bucket => by
    have listed : p ∈ h.pageIds keys :=
      (finIdxOf?_eq_some_iff.mp bucket).1 ▸ getElem_mem i.isLt
    simpa using complete.mem_iff.mpr listed
  simp only [indexBatchFd, filled, Option.map_some, Except.map, words]
  congr 2
  rw [map_map, zipWith_map, zipWith_self]
  exact map_congr_left fun key _ => (h.indexFromG_unpackG key).symm

/-- Three vertices that all have the label one. -/
def ones : FdMphf where
  n := 2
  m := 3
  seed := 0
  modulus := 5
  compact := none
  file := [0x55]
  off := 0
  nBytes := 1
  gBits := 2
  m_pos := by decide
  m_lt := by decide
  gBits_pos := by decide
  gBits_le := by decide
  nBytes_eq := by decide
  inside := by decide

theorem ones_indexFromG (key : UInt64) : ones.indexFromG ones.unpackG key = 3 := by
  have labels : (ones.verts key).map ones.label = replicate 3 1 := by
    rw [eq_replicate_iff]
    refine ⟨by rw [length_map]; exact hashVerts_length .., forall_mem_map.mpr fun v within => ?_⟩
    have small : v < 3 := hashVerts_lt ones.m_pos within
    interval_cases v <;> decide
  rw [indexFromG_unpackG, labels]
  rfl

theorem ones_not_indexBatchFd (many : 2 ^ 32 < keys.length) (completed : List Nat) :
    ones.indexBatchFd keys completed ≠ some (.ok (keys.map (ones.indexFromG ones.unpackG))) := by
  intro equal
  simp only [indexBatchFd, Option.map_eq_some_iff] at equal
  obtain ⟨filled, ran, result⟩ := equal
  cases filled with
  | error e => cases result
  | ok s =>
    simp only [Except.map, Except.ok.injEq] at result
    have low := (GPageScatter.fromVerts_low _ _ _).fillPages ran
    have words := low.words (2 ^ 32) le_rfl
    have found := congrArg (·[2 ^ 32]?) result
    simp only [getElem?_zipWith, words, getElem?_map, getElem?_eq_getElem many,
      Option.map_some, ones_indexFromG] at found
    cases found

/-- The batch gives every key the index that the labels in memory give it, whatever the hash, the
width of its labels and the order in which the pages come, exactly for batches whose positions fit
32 bits. -/
theorem indexBatchFd_eq_iff (keys : List UInt64) :
    (∀ (h : FdMphf) (completed : List Nat), completed.Perm (h.pageIds keys) →
      h.indexBatchFd keys completed = some (.ok (keys.map (h.indexFromG h.unpackG)))) ↔
      keys.length ≤ 2 ^ 32 := by
  constructor
  · intro agrees
    by_contra many
    exact ones_not_indexBatchFd (by omega) _ (agrees ones _ (Perm.refl _))
  · intro few h completed complete
    exact indexBatchFd_eq few complete

theorem indexBatchFd_ne : ones.indexBatchFd ((List.range (2 ^ 32 + 1)).map UInt64.ofNat)
        (ones.pageIds ((List.range (2 ^ 32 + 1)).map UInt64.ofNat)) ≠
      some (.ok (((List.range (2 ^ 32 + 1)).map UInt64.ofNat).map
        (ones.indexFromG ones.unpackG))) :=
  ones_not_indexBatchFd (by rw [length_map, length_range]; decide) _

end FdMphf

end Rbitcoin.Store
