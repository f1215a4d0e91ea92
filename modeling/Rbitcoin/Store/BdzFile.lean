import Rbitcoin.Store.BdzIndex

/-! The hash on disk: a header, the labels packed two bits each, and the occupancy bits. A hash that
was written and read back gives every key the index it had in memory. -/

namespace Rbitcoin.Store

open Bytes Outcome List

def packedGBytes (nVerts gBits : Nat) : Nat := (nVerts * gBits + 7) / 8

/-- The locals of `pack_g_write`: the bytes written and the bits not written yet. -/
structure GPack where
  out : Bytes
  acc : Nat
  accBits : Nat

/-- Add a label and write out the whole bytes. The new bits lie above the old ones, so their sum is
their union. -/
def GPack.add (gBits : Nat) (st : GPack) (val : Nat) : GPack :=
  let acc := st.acc + val % 2 ^ gBits * 2 ^ st.accBits
  let accBits := st.accBits + gBits
  ⟨st.out ++ toLe (accBits / 8) acc, acc / 256 ^ (accBits / 8), accBits % 8⟩

def packG (gBits : Nat) (g : List Nat) : Bytes :=
  let st := g.foldl (GPack.add gBits) ⟨[], 0, 0⟩
  if 0 < st.accBits then st.out ++ [UInt8.ofNat st.acc] else st.out

/-- The bytes and the bits in `st` are the labels `g`. -/
structure GPack.Holds (gBits : Nat) (g : List Nat) (st : GPack) : Prop where
  value : ofLe st.out + 256 ^ st.out.length * st.acc =
    Nat.ofDigits (2 ^ gBits) (g.map (· % 2 ^ gBits))
  size : 8 * st.out.length + st.accBits = gBits * g.length
  small : st.acc < 2 ^ st.accBits
  bits : st.accBits < 8

theorem GPack.Holds.add {gBits : Nat} {g : List Nat} {st : GPack} (h : st.Holds gBits g)
    (val : Nat) : (st.add gBits val).Holds gBits (g ++ [val]) := by
  have label : val % 2 ^ gBits < 2 ^ gBits := Nat.mod_lt _ (Nat.two_pow_pos _)
  have base : 256 ^ st.out.length * 2 ^ st.accBits = (2 ^ gBits) ^ g.length := by
    rw [show (256 : Nat) = 2 ^ 8 from rfl, ← pow_mul, ← pow_add, h.size, pow_mul]
  have fits : st.acc + val % 2 ^ gBits * 2 ^ st.accBits < 2 ^ (st.accBits + gBits) := by
    have step : (val % 2 ^ gBits + 1) * 2 ^ st.accBits ≤ 2 ^ gBits * 2 ^ st.accBits :=
      Nat.mul_le_mul_right _ label
    have := h.small
    rw [pow_add, mul_comm (2 ^ st.accBits)]
    rw [add_mul] at step
    omega
  refine ⟨?_, ?_, ?_, Nat.mod_lt _ (by decide)⟩
  · have split := Nat.mod_add_div (st.acc + val % 2 ^ gBits * 2 ^ st.accBits)
      (256 ^ ((st.accBits + gBits) / 8))
    simp only [GPack.add, ofLe_append, ofLe_toLe, length_append, toLe_length, pow_add, map_append,
      map_cons, map_nil, Nat.ofDigits_append, length_map, Nat.ofDigits_singleton, ← h.value, ← base]
    rw [add_assoc, mul_assoc, ← mul_add, split]
    ring
  · simp only [GPack.add, length_append, toLe_length, length_singleton]
    have := h.size
    rw [Nat.mul_succ]
    omega
  · simp only [GPack.add]
    rw [Nat.div_lt_iff_lt_mul (by positivity), show (256 : Nat) = 2 ^ 8 from rfl, ← pow_mul,
      ← pow_add, Nat.mod_add_div]
    exact fits

theorem GPack.holds_foldl {gBits : Nat} (g behind : List Nat) {st : GPack}
    (h : st.Holds gBits behind) : (g.foldl (GPack.add gBits) st).Holds gBits (behind ++ g) := by
  induction g generalizing st behind with
  | nil => simpa using h
  | cons val g ih => simpa using ih (behind ++ [val]) (h.add val)

theorem packG_spec (gBits : Nat) (g : List Nat) :
    ofLe (packG gBits g) = Nat.ofDigits (2 ^ gBits) (g.map (· % 2 ^ gBits)) ∧
      (packG gBits g).length = packedGBytes g.length gBits := by
  have start : GPack.Holds gBits [] ⟨[], 0, 0⟩ := ⟨by simp [ofLe], by simp, by simp, by decide⟩
  have h := GPack.holds_foldl g [] start
  rw [nil_append] at h
  rw [packG, packedGBytes, ← h.value]
  generalize g.foldl (GPack.add gBits) ⟨[], 0, 0⟩ = st at h
  obtain ⟨-, size, small, bits⟩ := h
  split_ifs with some
  · have byte : st.acc < 256 :=
      small.trans (Nat.pow_lt_pow_right (by decide) bits)
    rw [ofLe_append, length_append, length_singleton]
    constructor
    · simp [ofLe, Nat.mod_eq_of_lt byte]
    · rw [mul_comm g.length]
      omega
  · have zero : st.accBits = 0 := by omega
    rw [zero] at small
    constructor
    · rw [show st.acc = 0 by omega, mul_zero, add_zero]
    · rw [mul_comm g.length]
      omega

theorem page_byte {file pre packed post : Bytes} (file_eq : file = pre ++ packed ++ post)
    {base off len : Nat} (inPage : off + 1 ≤ len) (inside : base + off + 1 ≤ packed.length) :
    ((file.slice (pre.length + base) (pre.length + base + len)).drop off).take 1 =
      packed.slice (base + off) (base + off + 1) :=
  calc ((file.slice (pre.length + base) (pre.length + base + len)).drop off).take 1
    _ = (file.slice (pre.length + base) (pre.length + base + len)).slice off (off + 1) := by
      simp [slice]
    _ = file.slice (pre.length + base + off) (pre.length + base + (off + 1)) :=
      slice_slice (by omega)
    _ = file.slice (pre.length + (base + off)) (pre.length + (base + off + 1)) := by
      simp only [add_assoc]
    _ = packed.slice (base + off) (base + off + 1) := slice_middle file_eq inside

theorem loadG_packG {file pre post : Bytes} {g : List Nat}
    (file_eq : file = pre ++ packG 2 g ++ post) (small : ∀ x ∈ g, x < 2 ^ 2) {v : Nat}
    (hv : v < g.length) :
    loadG file pre.length (packG 2 g).length 2 v = .ok (g.getD v 0) := by
  obtain ⟨value, size⟩ := packG_spec 2 g
  rw [packedGBytes] at size
  have labels : g.map (· % 2 ^ 2) = g := by
    conv_rhs => rw [← map_id g]
    exact map_congr_left fun x hx => Nat.mod_eq_of_lt (small x hx)
  rw [labels] at value
  generalize packG 2 g = packed at *
  have total : file.length = pre.length + packed.length + post.length := by
    simp [file_eq, add_assoc]
  have split := Nat.div_add_mod (v * 2 / 8) gPageBytes
  have within : v * 2 / 8 % gPageBytes < gPageBytes := Nat.mod_lt _ (by decide)
  rw [mul_comm] at split
  -- two bits of one byte
  have window : min ((v * 2 % 8 + (2 - 1)) / 8 + 1) 8 = 1 := by omega
  have label : ofLe packed / 2 ^ (2 * v) % 2 ^ 2 = g.getD v 0 := by
    rw [value]
    exact ofDigits_word g small v
  rw [loadG, loadGPage, if_neg (by omega), pread_eq_ok (by omega)]
  simp only [ok_bind, pure, Except.pure, extractGWindow, window]
  rw [page_byte file_eq (by omega) (by omega), split, slice, ofLe_take, ofLe_drop,
    Nat.add_sub_cancel_left, pow_one,
    show (256 : Nat) = 2 ^ 8 from rfl, mod_div_mod (by omega), ← pow_mul, Nat.div_div_eq_div_mul,
    ← pow_add, show 8 * (v * 2 / 8) + v * 2 % 8 = 2 * v by omega, label]

def magic3 : Bytes := [0x42, 0x44, 0x5a, 0x33]

def headerLen3 : Nat := 32

def header3 (n m : Nat) (seed : UInt64) : Bytes :=
  magic3 ++ toLe 4 1 ++ toLe 4 n ++ toLe 4 m ++ toLe 8 seed.toNat ++ toLe 4 0 ++
    toLe 4 compactGBits

namespace BdzMphf

def writeCompactTo (h : BdzMphf) : Result Bytes :=
  match h.g with
  | .fd .. => corrupt "bdz mphf: write requires RAM g"
  | .ram g =>
    .ok (header3 h.n h.m h.seed ++
      if 0 < h.n then packG compactGBits g ++ h.compact.occ else [])

/-- The labels stay in the file. The mapped occupancy is the part of the file behind them. -/
def readCompactFrom (file : Bytes) : Result BdzMphf :=
  if file.length < headerLen3 then corrupt "bdz mphf: g length"
  else if file.slice 0 4 ≠ magic3 then corrupt "bdz mphf: bad magic"
  else if ofLe (file.slice 4 8) ≠ 1 then corrupt "bdz mphf: bad version"
  else if ofLe (file.slice 28 32) ≠ compactGBits then corrupt "bdz mphf: g_bits"
  else
    let n := ofLe (file.slice 8 12)
    let m := ofLe (file.slice 12 16)
    let seed := UInt64.ofNat (ofLe (file.slice 16 24))
    if n = 0 then .ok .empty
    else
      let nVerts := if n = 1 then 1 else m
      let gBytes := packedGBytes nVerts compactGBits
      let occN := occPackedBytes nVerts
      if file.length < headerLen3 + gBytes + occN then corrupt "bdz mphf: g length"
      else
        let occ := file.slice (headerLen3 + gBytes) (headerLen3 + gBytes + occN)
        .ok { n, m := nVerts, seed, modulus := n,
              g := .fd file headerLen3 gBytes compactGBits,
              compact := ⟨nVerts, occ, supersFromOccBytes occ nVerts⟩ }

/-- Where the bytes behind the hash start. -/
def trailerOff (h : BdzMphf) : Nat :=
  if h.n = 0 then headerLen3
  else headerLen3 + packedGBytes h.m compactGBits + occPackedBytes h.m

/-- A hash of at least one key as it is built. -/
structure Built (h : BdzMphf) (g words : List Nat) : Prop where
  n_pos : 0 < h.n
  n_lt : h.n < 2 ^ 32
  m_lt : h.m < 2 ^ 32
  one : h.n = 1 → h.m = 1
  more : 2 ≤ h.n → 3 ≤ h.m
  modulus_eq : h.modulus = h.n
  g_eq : h.g = .ram g
  g_length : g.length = h.m
  g_lt : ∀ x ∈ g, x < 2 ^ 2
  compact_eq : h.compact = .fromOcc words h.m
  words_length : h.m ≤ 64 * words.length

theorem wordsAsBytes_length (words : List Nat) :
    (wordsAsBytes words).length = 8 * words.length := by
  induction words with
  | nil => rfl
  | cons w words ih =>
    rw [wordsAsBytes, flatMap_cons, length_append, toLe_length, ← wordsAsBytes, ih, length_cons]
    omega

section Header

variable (n m : Nat) (seed : UInt64) (rest : Bytes)

theorem header3_length : (header3 n m seed).length = headerLen3 := by
  simp [header3, magic3, headerLen3]

theorem header3_fields :
    (header3 n m seed ++ rest).slice 0 4 = magic3 ∧
    (header3 n m seed ++ rest).slice 4 8 = toLe 4 1 ∧
    (header3 n m seed ++ rest).slice 8 12 = toLe 4 n ∧
    (header3 n m seed ++ rest).slice 12 16 = toLe 4 m ∧
    (header3 n m seed ++ rest).slice 16 24 = toLe 8 seed.toNat ∧
    (header3 n m seed ++ rest).slice 28 32 = toLe 4 compactGBits :=
  ⟨rfl, rfl, rfl, rfl, rfl, rfl⟩

end Header

namespace Built

variable {h : BdzMphf} {g words : List Nat} (built : h.Built g words)
include built

theorem occ_length : h.compact.occ.length = occPackedBytes h.m := by
  have := built.words_length
  rw [built.compact_eq, CompactRank.fromOcc]
  simp only [length_take, wordsAsBytes_length, occPackedBytes]
  omega

theorem packG_length : (packG compactGBits g).length = packedGBytes h.m compactGBits := by
  rw [(packG_spec _ _).2, built.g_length]

theorem writeCompactTo_eq : h.writeCompactTo =
    .ok (header3 h.n h.m h.seed ++ (packG compactGBits g ++ h.compact.occ)) := by
  rw [writeCompactTo, built.g_eq]
  simp only [built.n_pos, if_true]

theorem written_length :
    (header3 h.n h.m h.seed ++ (packG compactGBits g ++ h.compact.occ)).length = h.trailerOff := by
  have := built.n_pos
  rw [length_append, length_append, header3_length, built.packG_length, built.occ_length,
    trailerOff, if_neg (by omega), add_assoc]

theorem readCompactFrom_eq {file tail : Bytes}
    (file_eq : file = header3 h.n h.m h.seed ++ (packG compactGBits g ++ h.compact.occ) ++ tail) :
    readCompactFrom file = .ok { h with
      g := .fd file headerLen3 (packedGBytes h.m compactGBits) compactGBits
      compact := ⟨h.m, h.compact.occ, supersFromOccBytes h.compact.occ h.m⟩ } := by
  have pos := built.n_pos
  have size : file.length = headerLen3 + packedGBytes h.m compactGBits + occPackedBytes h.m +
      tail.length := by
    rw [file_eq, length_append, built.written_length, trailerOff, if_neg (by omega)]
  obtain ⟨f0, f4, f8, f12, f16, f28⟩ := header3_fields h.n h.m h.seed
    (packG compactGBits g ++ h.compact.occ ++ tail)
  rw [← append_assoc, ← file_eq] at f0 f4 f8 f12 f16 f28
  have hn : h.n % 256 ^ 4 = h.n := Nat.mod_eq_of_lt built.n_lt
  have hm : h.m % 256 ^ 4 = h.m := Nat.mod_eq_of_lt built.m_lt
  have hseed : UInt64.ofNat (h.seed.toNat % 256 ^ 8) = h.seed := by
    rw [show (256 : Nat) ^ 8 = 2 ^ 64 from rfl, Nat.mod_eq_of_lt h.seed.toNat_lt,
      UInt64.ofNat_toNat]
  have verts : (if h.n = 1 then 1 else h.m) = h.m := by
    split_ifs with single
    · exact (built.one single).symm
    · rfl
  have occ : file.slice (headerLen3 + packedGBytes h.m compactGBits)
      (headerLen3 + packedGBytes h.m compactGBits + occPackedBytes h.m) = h.compact.occ := by
    have front : (header3 h.n h.m h.seed ++ packG compactGBits g).length =
        headerLen3 + packedGBytes h.m compactGBits := by
      rw [length_append, header3_length, built.packG_length]
    have parts :
        file = header3 h.n h.m h.seed ++ packG compactGBits g ++ h.compact.occ ++ tail := by
      rw [file_eq]
      simp
    rw [← front, ← built.occ_length]
    simpa [slice] using slice_middle parts (a := 0) le_rfl
  simp only [readCompactFrom, f0, f4, f8, f12, f16, f28, ofLe_toLe, hn, hm, hseed, verts, occ,
    ne_eq, not_true_eq_false, if_false, built.modulus_eq]
  rw [if_neg (by omega), if_neg (by decide), if_neg (by decide), if_neg (by omega),
    if_neg (by omega)]

theorem index_readCompactFrom {file tail : Bytes}
    (file_eq : file = header3 h.n h.m h.seed ++ (packG compactGBits g ++ h.compact.occ) ++ tail)
    (key : UInt64) :
    ({ h with
      g := .fd file headerLen3 (packedGBytes h.m compactGBits) compactGBits
      compact := ⟨h.m, h.compact.occ, supersFromOccBytes h.compact.occ h.m⟩ } : BdzMphf).index key =
      h.index key := by
  have ranks (v : Nat) : (⟨h.m, h.compact.occ, supersFromOccBytes h.compact.occ h.m⟩ :
      CompactRank).rank1 v = h.compact.rank1 v := by
    have same (b : Nat) (hb : b < h.m) :
        Occupied (wordsAsBytes words) b ↔ Occupied h.compact.occ b := by
      rw [built.compact_eq]
      exact (occupied_take (by rw [occPackedBytes]; omega)).symm
    rw [rank1_eq rfl fun _ _ => Iff.rfl, rank1_eq (by rw [built.compact_eq]; rfl) (by
      rw [built.compact_eq] at same ⊢
      exact same)]
    simp [built.compact_eq]
  have parts : file = header3 h.n h.m h.seed ++ packG compactGBits g ++
      (h.compact.occ ++ tail) := by
    rw [file_eq]
    simp
  simp only [index, built.g_eq]
  by_cases single : h.n = 1
  · simp [single]
  · have two : 2 ≤ h.n := by
      have := built.n_pos
      omega
    have loaded : (hash3Partite key h.seed h.m).mapM
        (loadG file headerLen3 (packedGBytes h.m compactGBits) compactGBits) =
        .ok ((hash3Partite key h.seed h.m).map (g.getD · 0)) := by
      refine mapM_ok fun v hv => ?_
      rw [← built.packG_length]
      exact loadG_packG parts built.g_lt
        (by rw [built.g_length]; exact hash3Partite_lt hv (built.more two))
    simp [loaded, finishIndex, ranks]

end Built

theorem built_single : single.Built [0] (occSet [0] 0) where
  n_pos := by decide
  n_lt := by decide
  m_lt := by decide
  one _ := rfl
  more h := absurd h (by decide)
  modulus_eq := rfl
  g_eq := rfl
  g_length := rfl
  g_lt := by simp
  compact_eq := rfl
  words_length := by decide

variable {keys : List UInt64} {h : BdzMphf}

theorem built_ofOrder {seed : UInt64} {m : Nat} {order : List (Nat × Nat)}
    (h : PeeledKeys keys seed m order) (two : 2 ≤ keys.length) (fits : keys.length < 2 ^ 32)
    (m_lt : m < 2 ^ 32) :
    (ofOrder keys keys.length seed m order).Built (assignCompact keys seed m order).1
      (assignCompact keys seed m order).2 where
  n_pos := by simp only [ofOrder]; omega
  n_lt := fits
  m_lt := m_lt
  one single := by simp only [ofOrder] at single; omega
  more _ := h.three_le (by rintro rfl; simp at two)
  modulus_eq := rfl
  g_eq := rfl
  g_length := by simp [assignCompact, ofOrder]
  g_lt x hx := by
    obtain ⟨u, -, rfl⟩ := mem_map.mp hx
    exact (Peel.assign_lt _ _ (by decide) order u).trans (by decide)
  compact_eq := rfl
  words_length := by
    have inside : ∀ x ∈ order, x.2 / 64 < (m + 63) / 64 := fun x hx => by
      have := h.vertex_lt hx
      omega
    simp only [assignCompact, (occupied_foldr order inside).1, ofOrder]
    omega

theorem index_le {key : UInt64} {slot : Nat} (indexed : h.index key = .ok slot) :
    slot ≤ h.n - 1 := by
  rw [index] at indexed
  split_ifs at indexed
  · cases indexed
    omega
  · cases indexed
    omega
  · cases g : h.g with
    | ram labels =>
      simp only [g, Except.ok.injEq] at indexed
      rw [← indexed]
      exact min_le_right _ _
    | fd file off nBytes gBits =>
      simp only [g, bind_eq_ok] at indexed
      obtain ⟨labels, -, finished⟩ := indexed
      cases finished
      exact min_le_right _ _

theorem Built.index_total {g words : List Nat} (built : h.Built g words) (key : UInt64) :
    ∃ slot, h.index key = .ok slot := by
  have pos := built.n_pos
  rw [index, if_neg (by omega), built.g_eq]
  by_cases single : h.n = 1
  · exact ⟨0, if_pos single⟩
  · have := built.more (by omega)
    have := built.modulus_eq
    exact ⟨_, by rw [if_neg single, if_neg (by omega)]⟩

theorem readCompactFrom_n_lt {file : Bytes} (read : readCompactFrom file = .ok h) :
    h.n < 2 ^ 32 := by
  have field : ofLe (file.slice 8 12) < 2 ^ 32 := by
    have size : (file.slice 8 12).length ≤ 4 := by simp [slice]
    exact (ofLe_lt _).trans_le (Nat.pow_le_pow_right (by decide) size)
  simp only [readCompactFrom] at read
  split_ifs at read
  · cases read
    decide
  all_goals
    cases read
    exact field

/-- Some seed that is tried peels the graph of the keys, if they are distinct. -/
def Peels (keys : List UInt64) : Prop :=
  2 ≤ keys.length → keys.Nodup →
    ∃ seed ∈ triedSeeds maxSeed 0x9e3779b97f4a7c15,
      (peelOrder keys seed (compactVertexCount keys.length)).isSome

theorem index_injOn {seed : UInt64} {m : Nat} {order : List (Nat × Nat)}
    (h : PeeledKeys keys seed m order) (two : 2 ≤ keys.length) {x y : UInt64} (hx : x ∈ keys)
    (hy : y ∈ keys) (same : (ofOrder keys keys.length seed m order).index x =
      (ofOrder keys keys.length seed m order).index y) : x = y := by
  obtain ⟨i, hi, rfl⟩ := getElem_of_mem hx
  obtain ⟨j, hj, rfl⟩ := getElem_of_mem hy
  obtain ⟨v, hv⟩ := Peel.exists_vertex h.perm hi
  obtain ⟨w, hw⟩ := Peel.exists_vertex h.perm hj
  rw [← getD_eq_getElem _ 0 hi, ← getD_eq_getElem _ 0 hj, h.index_member two hv,
    h.index_member two hw, Except.ok.injEq] at same
  have vertices : v = w :=
    Nat.count_injective (mem_map.mpr ⟨_, hv, rfl⟩) (mem_map.mpr ⟨_, hw, rfl⟩) same
  have entries : (i, v) = (j, w) := by
    have := inj_on_of_nodup_map h.peeled.vertices_nodup hv hw vertices
    exact this
  simp only [Prod.mk.injEq] at entries
  simp only [entries.1]

/-- A hash that was built of keys that fit its counter. -/
structure BuiltOf (h : BdzMphf) (keys : List UInt64) : Prop where
  built : ∃ g words, h.Built g words
  n_eq : h.n = keys.length
  nodup : keys.Nodup
  injOn : ∀ {x y}, x ∈ keys → y ∈ keys → h.index x = h.index y → x = y

/-- A hash that is written and read again gives every key the same index. -/
theorem BuiltOf.reopen (of : h.BuiltOf keys) :
    ∃ staging, h.writeCompactTo = .ok staging ∧ ∀ tail, ∃ h', readCompactFrom (staging ++ tail) =
      .ok h' ∧ h'.n = keys.length ∧ h'.trailerOff = staging.length ∧
      ∀ key, h'.index key = h.index key := by
  obtain ⟨g, words, built⟩ := of.built
  refine ⟨_, built.writeCompactTo_eq, fun tail => ⟨_, built.readCompactFrom_eq rfl, of.n_eq, ?_,
    built.index_readCompactFrom rfl⟩⟩
  rw [built.written_length]
  rfl

theorem buildCompact_cases (success : buildCompact keys = .ok h) :
    (keys.length % 2 ^ 32 = 0 ∧ h = .empty) ∨ (keys.length % 2 ^ 32 = 1 ∧ h = .single) ∨
      (2 ≤ keys.length % 2 ^ 32 ∧ ∃ seed m order, m < 2 ^ 32 ∧ PeeledKeys keys seed m order ∧
        h = .ofOrder keys (keys.length % 2 ^ 32) seed m order) := by
  simp only [buildCompact] at success
  split_ifs at success with zero one
  · exact .inl ⟨zero, (Except.ok.inj success).symm⟩
  · exact .inr (.inl ⟨one, (Except.ok.inj success).symm⟩)
  · split at success
    · cases success
    · next seed order found =>
      obtain ⟨_, -, peeled⟩ := exists_of_findSome?_eq_some found
      obtain ⟨_, peeled, same⟩ := Option.map_eq_some_iff.mp peeled
      cases same
      exact .inr (.inr ⟨by omega, seed, _, order, Nat.mod_lt _ (Nat.two_pow_pos 32),
        ⟨(Peel.order_peeled peeled).1, (Peel.order_peeled peeled).2⟩, (Except.ok.inj success).symm⟩)

theorem buildCompact_builtOf (nonempty : keys ≠ []) (fits : keys.length < 2 ^ 32)
    (success : buildCompact keys = .ok h) : h.BuiltOf keys := by
  have pos : 0 < keys.length := length_pos_iff.mpr nonempty
  have small := Nat.mod_eq_of_lt fits
  rcases buildCompact_cases success with ⟨n, -⟩ | ⟨n, rfl⟩ | ⟨n, seed, m, order, m_lt, peeled, rfl⟩
  · omega
  · obtain ⟨key, rfl⟩ := length_eq_one_iff.mp (small ▸ n)
    refine ⟨⟨_, _, built_single⟩, rfl, nodup_singleton _, fun hx hy _ => ?_⟩
    rw [mem_singleton.mp hx, mem_singleton.mp hy]
  · rw [small] at n ⊢
    exact ⟨⟨_, _, built_ofOrder peeled n fits m_lt⟩, rfl, peeled.keys_nodup,
      fun hx hy => index_injOn peeled n hx hy⟩

theorem buildCompact_n_le (success : buildCompact keys = .ok h) : h.n ≤ keys.length := by
  have small : keys.length % 2 ^ 32 ≤ keys.length := Nat.mod_le _ _
  rcases buildCompact_cases success with ⟨-, rfl⟩ | ⟨n, rfl⟩ | ⟨-, _, _, _, -, -, rfl⟩
  · exact Nat.zero_le _
  · exact n.symm.trans_le small
  · exact small

theorem buildCompact_accepts (peels : Peels keys) (nodup : keys.Nodup)
    (fits : keys.length < 2 ^ 32) : ∃ h, buildCompact keys = .ok h := by
  simp only [buildCompact, Nat.mod_eq_of_lt fits]
  split_ifs with zero one
  · exact ⟨_, rfl⟩
  · exact ⟨_, rfl⟩
  · obtain ⟨seed, tried, peeled⟩ := peels (by omega) nodup
    split
    · next none_peels =>
      have := findSome?_eq_none_iff.mp none_peels seed tried
      rw [Option.map_eq_none_iff.mp this] at peeled
      cases peeled
    · exact ⟨_, rfl⟩

end BdzMphf

end Rbitcoin.Store
