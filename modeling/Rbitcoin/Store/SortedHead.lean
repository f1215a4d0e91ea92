import Rbitcoin.Lib.SortedSearch
import Rbitcoin.Store.Dir
import Rbitcoin.Store.Words

/-! A sealed overflow head: the records of its keys in order, an index of the first key of every
page, and a filter. Its keys stay what they are; their words are updated in place. -/

namespace Rbitcoin.Store

open Bytes Outcome SortedSearch List Option Prod SealedFuse8

def recsPerPage : Nat := 170
def dataHeaderLen : Nat := 32
def headSlotSize : Nat := 24

/-- A sealed head: sorted records, the index of their pages and a filter. -/
structure SortedHead where
  path : Name
  count : Nat
  idx : List (ShHeadKey × Nat)
  fuse : SealedFuse8
  deriving DecidableEq, Repr

/-- The fold of a key padded to 32 bytes. -/
def fuseKey16 (key : ShHeadKey) : UInt64 := mixKey16 key ^^^ 0 ^^^ 0

open Words (ofRecs ofRecs_cons set_ne word set_self)

namespace SortedHead

variable (recs : List (ShHeadKey × UInt64))

/-- The first key of every page and the offset of the page. -/
def pageIdx : List (ShHeadKey × Nat) :=
  (List.range ((recs.length + recsPerPage - 1) / recsPerPage)).filterMap fun j =>
    recs[j * recsPerPage]?.map fun r => (r.1, dataHeaderLen + j * recsPerPage * headSlotSize)

variable (dir : Dir)

def openHead (path : Name) : Result SortedHead :=
  match dir.lookup path with
  | some (.sorted recs) => do
    let idx ←
      match dir.lookup (sidecar path .idx) with
      | some (.idx pages) => .ok pages
      | some _ => corrupt "scripthash sorted head: bad idx"
      | none => corrupt "no such file"
    let fuse ← readFrom dir (sidecar path .fuse8)
    return { path, count := recs.length, idx, fuse }
  | some _ => corrupt "bad magic"
  | none => corrupt "no such file"

/-- Filter keys are handed over in order and once each. -/
def fuseKeys : List UInt64 :=
  ((recs.map fun r => fuseKey16 r.1).insertionSort fun a b => a.toNat ≤ b.toNat).dedup

/-- Write a head. The files that were written stay when a later step fails. -/
def write (F : FuseFloats) (dir : Dir) (path : Name) (recs : List (ShHeadKey × UInt64)) :
    Dir × Result SortedHead :=
  if recs.IsChain fun a b => a.1.rank < b.1.rank then
    let dir := dir.put path (.sorted recs)
    let dir := dir.put (sidecar path .idx) (.idx (pageIdx recs))
    match build F (fuseKeys recs) with
    | .error e => (dir, .error e)
    | .ok f =>
      let dir := dir.put (sidecar path .fuse8) (.fuse f)
      (dir, openHead dir path)
  else (dir, corrupt "scripthash sorted head: recs not strictly increasing")

variable (head : SortedHead)

def preadRecs (slot n : Nat) : Result (List (ShHeadKey × UInt64)) :=
  match dir.lookup head.path with
  | some (.sorted recs) =>
    if slot + n ≤ recs.length then .ok ((recs.drop slot).take n) else corrupt "pread short"
  | _ => corrupt "no such file"

variable (key : ShHeadKey)

/-- The record of a key and its position: the index leads to a page, and the page is scanned. -/
def locateRec : Result (Option (Nat × (ShHeadKey × UInt64))) :=
  if head.count = 0 ∨ head.idx = [] then .ok none
  else
    let ins := SortedSearch.lowerBound (fun e => e.1.rank) head.idx key.rank
    if head.idx[ins]?.map fst ≠ some key ∧ ins = 0 then .ok none
    else do
      let i := if head.idx[ins]?.map fst = some key then ins else ins - 1
      let pageOff := (head.idx.getD i (key, 0)).2
      let slot0 := (pageOff - dataHeaderLen) / headSlotSize
      let page ← head.preadRecs dir slot0 (min (head.count - slot0) recsPerPage)
      return SortedSearch.scan (fun r => r.1.rank) key.rank page slot0

def get : Result (Option ShHeadValue) :=
  if head.fuse.contains dir (fuseKey16 key) = false then .ok none
  else do
    match ← head.locateRec dir key with
    | none => return none
    | some (_, r) => return some (← unpack8Bytes r.2)

def updateValue (value : ShHeadValue) : Result (Dir × Bool) :=
  if head.fuse.contains dir (fuseKey16 key) = false then .ok (dir, false)
  else do
    match ← head.locateRec dir key with
    | none => return (dir, false)
    | some (slot, _) =>
      let enc ← pack8Bytes value
      match dir.lookup head.path with
      | some (.sorted recs) =>
        return (dir.put head.path (.sorted (recs.modify slot fun r => (r.1, enc))), true)
      | _ => corrupt "no such file"

def forEachOccupied : Result (List (ShHeadKey × ShHeadValue)) := do
  let recs ← head.preadRecs dir 0 head.count
  let vals ← recs.mapM fun r => do return (r.1, ← unpack8Bytes r.2)
  return vals.filter fun x => !x.2.isEmpty

abbrev Sorted : Prop :=
  recs.Pairwise fun a b => a.1.rank < b.1.rank

variable {recs : List (ShHeadKey × UInt64)}

theorem Sorted.nodup (h : Sorted recs) : (recs.map fst).Nodup := by
  rw [Nodup, pairwise_map]
  refine h.imp fun lt same => ?_
  rw [same] at lt
  exact lt_irrefl _ lt

section PageIdx

variable (recs : List (ShHeadKey × UInt64))

theorem pageIdx_getElem? (j : Nat) : (pageIdx recs)[j]? = recs[j * recsPerPage]?.map
    fun r => (r.1, dataHeaderLen + j * recsPerPage * headSlotSize) := by
  have all : pageIdx recs = (range ((recs.length + recsPerPage - 1) / recsPerPage)).map
      fun j => ((recs.getD (j * recsPerPage) (⟨replicate 16 0, rfl⟩, 0)).1,
        dataHeaderLen + j * recsPerPage * headSlotSize) := by
    apply filterMap_eq_map_iff_forall_eq_some.mpr
    intro j hj
    rw [mem_range, recsPerPage] at hj
    have inside : j * recsPerPage < recs.length := by
      rw [recsPerPage]
      omega
    rw [getElem?_eq_getElem inside, getD_eq_getElem _ _ inside]
    rfl
  rw [all, getElem?_map]
  by_cases inside : j * recsPerPage < recs.length
  · have page : j < (recs.length + recsPerPage - 1) / recsPerPage := by
      rw [recsPerPage] at inside ⊢
      omega
    rw [getElem?_range page, getElem?_eq_getElem inside, map_some, map_some,
      getD_eq_getElem _ _ inside]
  · have page : (recs.length + recsPerPage - 1) / recsPerPage ≤ j := by
      rw [recsPerPage] at inside ⊢
      omega
    rw [getElem?_eq_none (by simpa using page), getElem?_eq_none (by omega)]
    rfl

theorem pageIdx_entry {j : Nat} (h : j < (pageIdx recs).length) :
    ∃ inside : j * recsPerPage < recs.length,
      (pageIdx recs)[j] = (recs[j * recsPerPage].1,
        dataHeaderLen + j * recsPerPage * headSlotSize) := by
  have entry := pageIdx_getElem? recs j
  rw [getElem?_eq_getElem h] at entry
  by_cases inside : j * recsPerPage < recs.length
  · rw [getElem?_eq_getElem inside, map_some, some.injEq] at entry
    exact ⟨inside, entry⟩
  · rw [getElem?_eq_none (by omega)] at entry
    cases entry

variable {recs}

theorem lt_pageIdx_length {j : Nat} (h : j * recsPerPage < recs.length) :
    j < (pageIdx recs).length := by
  by_contra outside
  have entry := pageIdx_getElem? recs j
  rw [getElem?_eq_none (by omega), getElem?_eq_getElem h] at entry
  cases entry

theorem pageIdx_sorted (sorted : Sorted recs) :
    (pageIdx recs).Pairwise fun a b => a.1.rank < b.1.rank := by
  rw [pairwise_iff_getElem]
  intro i j hi hj lt
  obtain ⟨inside_i, entry_i⟩ := pageIdx_entry recs hi
  obtain ⟨inside_j, entry_j⟩ := pageIdx_entry recs hj
  rw [entry_i, entry_j]
  exact rank_mono sorted (Nat.mul_lt_mul_of_pos_right lt (by decide)) inside_j

theorem page_of_key (sorted : Sorted recs) {p : Nat} (hp : p < recs.length) :
    let ins := lowerBound (fun e => e.1.rank) (pageIdx recs) recs[p].1.rank
    ¬((pageIdx recs)[ins]?.map fst ≠ some recs[p].1 ∧ ins = 0) ∧
    (if (pageIdx recs)[ins]?.map fst = some recs[p].1 then ins else ins - 1) =
      p / recsPerPage := by
  intro ins
  have firsts := pageIdx_sorted sorted
  have page : p / recsPerPage * recsPerPage ≤ p := Nat.div_mul_le_self p recsPerPage
  have next : p < (p / recsPerPage + 1) * recsPerPage := by
    rw [recsPerPage]
    omega
  have inside : p / recsPerPage < (pageIdx recs).length := lt_pageIdx_length (by omega)
  obtain ⟨first_lt, first⟩ := pageIdx_entry recs inside
  by_cases start : p / recsPerPage * recsPerPage = p
  · -- The key opens its page, so the index holds it.
    have key : (pageIdx recs)[p / recsPerPage].1 = recs[p].1 := by
      rw [first]
      simp only [start]
    have ins_eq : ins = p / recsPerPage := by
      rcases Nat.lt_trichotomy ins (p / recsPerPage) with lt | eq | gt
      · have before := rank_mono firsts lt inside
        have := le_rank_of_lowerBound_le firsts (le_refl ins) (by omega)
        rw [key] at before
        omega
      · exact eq
      · have := rank_lt_of_lt_lowerBound gt inside
        rw [key] at this
        omega
    have exact_hit : (pageIdx recs)[ins]?.map fst = some recs[p].1 := by
      rw [ins_eq, getElem?_eq_getElem inside, map_some, key]
    exact ⟨fun miss => miss.1 exact_hit, by rw [if_pos exact_hit, ins_eq]⟩
  · -- The key lies after the first key of its page and before that of the next page.
    have before : (pageIdx recs)[p / recsPerPage].1.rank < recs[p].1.rank := by
      rw [first]
      exact rank_mono sorted (by omega) hp
    have past : p / recsPerPage < ins := by
      by_contra le
      have := le_rank_of_lowerBound_le firsts (not_lt.mp le) inside
      omega
    have after : ∀ j (hj : j < (pageIdx recs).length), p / recsPerPage < j →
        recs[p].1.rank < (pageIdx recs)[j].1.rank := by
      intro j hj lt
      obtain ⟨j_lt, entry⟩ := pageIdx_entry recs hj
      have page_le : (p / recsPerPage + 1) * recsPerPage ≤ j * recsPerPage :=
        Nat.mul_le_mul_right _ lt
      rw [entry]
      exact rank_mono sorted (by omega) j_lt
    have ins_eq : ins = p / recsPerPage + 1 := by
      by_contra ne
      have below : p / recsPerPage + 1 < ins := by omega
      have inside' : p / recsPerPage + 1 < (pageIdx recs).length :=
        lt_of_lt_of_le below lowerBound_le
      have := rank_lt_of_lt_lowerBound below inside'
      have := after _ inside' (Nat.lt_succ_self _)
      omega
    have miss : (pageIdx recs)[ins]?.map fst ≠ some recs[p].1 := by
      intro hit
      rw [map_eq_some_iff] at hit
      obtain ⟨e, at_ins, same⟩ := hit
      obtain ⟨ins_lt, rfl⟩ := List.getElem?_eq_some_iff.mp at_ins
      have := after ins ins_lt past
      rw [same] at this
      omega
    refine ⟨fun zero => Nat.succ_ne_zero _ (ins_eq.symm.trans zero.2), ?_⟩
    rw [if_neg miss, ins_eq, Nat.add_sub_cancel]

end PageIdx

/-! ### A head is a partial map -/

def pageRecs (recs : List (ShHeadKey × UInt64)) (j : Nat) : List (ShHeadKey × UInt64) :=
  (recs.drop (j * recsPerPage)).take recsPerPage

/-- The files of a head hold the records, and the filter takes their keys. -/
structure Holds (dir : Dir) (head : SortedHead) (recs : List (ShHeadKey × UInt64)) : Prop where
  data : dir.lookup head.path = some (.sorted recs)
  idxFile : dir.lookup (sidecar head.path .idx) = some (.idx (pageIdx recs))
  filter : ∃ f, dir.lookup (sidecar head.path .fuse8) = some (.fuse f) ∧ f.geometry ∧
    head.fuse = .ofFilter (sidecar head.path .fuse8) f ∧ ∀ r ∈ recs, f.contains (fuseKey16 r.1)
  sorted : Sorted recs
  count : head.count = recs.length
  idx : head.idx = pageIdx recs

namespace Holds

variable {dir : Dir} {head : SortedHead} {recs : List (ShHeadKey × UInt64)}
  (holds : Holds dir head recs)
include holds

theorem contains_of_mem {r : ShHeadKey × UInt64} (mem : r ∈ recs) :
    head.fuse.contains dir (fuseKey16 r.1) = true := by
  obtain ⟨f, file, -, fuse, all⟩ := holds.filter
  rw [fuse, contains_ofFilter file]
  exact all r mem

theorem preadRecs_page {j : Nat} (inside : j * recsPerPage < recs.length) :
    head.preadRecs dir (j * recsPerPage) (min (head.count - j * recsPerPage) recsPerPage) =
      .ok (pageRecs recs j) := by
  rw [preadRecs, holds.data, holds.count]
  refine (if_pos (by omega)).trans ?_
  rw [pageRecs, take_eq_take_min (i := recsPerPage), length_drop, min_comm]

variable {key : ShHeadKey}

theorem locateRec_none (missing : key ∉ recs.map fst) : head.locateRec dir key = .ok none := by
  have bound : lowerBound (fun e : ShHeadKey × Nat => e.1.rank) head.idx key.rank ≤
    head.idx.length := lowerBound_le
  unfold locateRec
  generalize lowerBound (fun e : ShHeadKey × Nat => e.1.rank) head.idx key.rank = ins at bound ⊢
  split
  · rfl
  · next nonempty =>
    dsimp only
    split
    · rfl
    · next here =>
      generalize page : (if head.idx[ins]?.map fst = some key then ins else ins - 1) = i
      have below : i < (pageIdx recs).length := by
        have some' : 0 < head.idx.length := length_pos_iff.mpr fun none =>
          nonempty (Or.inr none)
        rw [← holds.idx]
        split at page
        · next hit =>
          by_contra outside
          rw [page, getElem?_eq_none (by omega)] at hit
          cases hit
        · omega
      obtain ⟨inside, entry⟩ := pageIdx_entry recs below
      have slot : ((head.idx.getD i (key, 0)).2 - dataHeaderLen) / headSlotSize =
          i * recsPerPage := by
        rw [holds.idx, getD_eq_getElem _ _ below, entry]
        rw [Nat.add_sub_cancel_left, Nat.mul_div_cancel _ (by decide)]
      rw [slot, holds.preadRecs_page inside]
      refine congrArg Except.ok (scan_eq_none ?_ _)
      intro r mem same
      refine missing (mem_map.mpr ⟨r, mem_of_mem_drop (mem_of_mem_take mem), ?_⟩)
      exact ShHeadKey.rank_inj same

theorem locateRec_some {p : Nat} (hp : p < recs.length) :
    head.locateRec dir recs[p].1 = .ok (some (p, recs[p])) := by
  obtain ⟨known, page⟩ := page_of_key holds.sorted hp
  have below : p / recsPerPage < (pageIdx recs).length :=
    lt_pageIdx_length ((Nat.div_mul_le_self p recsPerPage).trans_lt hp)
  obtain ⟨inside, entry⟩ := pageIdx_entry recs below
  have nonempty : ¬(head.count = 0 ∨ head.idx = []) := by
    rw [holds.count, holds.idx]
    rintro (none | none)
    · omega
    · rw [none] at below
      cases below
  unfold locateRec
  rw [if_neg nonempty, holds.idx]
  dsimp only
  rw [if_neg known, page, getD_eq_getElem _ _ below, entry]
  rw [Nat.add_sub_cancel_left, Nat.mul_div_cancel _ (by decide), holds.preadRecs_page inside]
  have place : p % recsPerPage < (pageRecs recs (p / recsPerPage)).length := by
    rw [pageRecs, length_take, length_drop, recsPerPage]
    omega
  have split : p / recsPerPage * recsPerPage + p % recsPerPage = p :=
    Nat.div_add_mod' p recsPerPage
  have row : (pageRecs recs (p / recsPerPage))[p % recsPerPage] = recs[p] := by
    simp only [pageRecs, getElem_take, getElem_drop, split]
  have sorted : Sorted (pageRecs recs (p / recsPerPage)) :=
    holds.sorted.sublist ((take_sublist _ _).trans (drop_sublist _ _))
  have found := scan_eq_some sorted place (p / recsPerPage * recsPerPage)
    (x := recs[p].1.rank) (by rw [row])
  rw [row, split] at found
  exact congrArg Except.ok found

/-- A look-up through filter, index and page gives what the records hold. -/
theorem get_eq (key : ShHeadKey) : head.get dir key = (ofRecs recs).get key := by
  unfold get Words.get
  cases found : ofRecs recs key with
  | none =>
    rw [holds.locateRec_none (Words.ofRecs_eq_none.mp found)]
    split <;> rfl
  | some w =>
    have mem := (Words.ofRecs_eq_some holds.sorted.nodup).mp found
    obtain ⟨p, hp, at_p⟩ := getElem_of_mem mem
    have here := holds.locateRec_some hp
    rw [at_p] at here
    rw [holds.contains_of_mem mem, here]
    rfl

omit holds in
theorem ofRecs_modify (nodup : (recs.map fst).Nodup) {p : Nat} (hp : p < recs.length)
    (w : UInt64) :
    (recs.modify p fun r => (r.1, w)).map fst = recs.map fst ∧
      ofRecs (recs.modify p fun r => (r.1, w)) = (ofRecs recs).set recs[p].1 w := by
  induction recs generalizing p with
  | nil => cases hp
  | cons r recs ih =>
    obtain ⟨alone, nodup⟩ := nodup_cons.mp nodup
    cases p with
    | zero =>
      refine ⟨rfl, funext fun k => (ofRecs_cons (r.1, w) recs k).trans ?_⟩
      rw [getElem_cons_zero]
      by_cases same : k = r.1
      · rw [if_pos same, same]
        exact (set_self ..).symm
      · rw [if_neg same, set_ne w same, ofRecs_cons, if_neg same]
    | succ p =>
      have inside : p < recs.length := Nat.lt_of_succ_lt_succ hp
      obtain ⟨keys, words⟩ := ih nodup inside
      have other : r.1 ≠ recs[p].1 := fun same =>
        alone (same ▸ mem_map_of_mem (getElem_mem inside))
      rw [modify_succ_cons, getElem_cons_succ]
      refine ⟨congrArg (r.1 :: ·) keys, funext fun k => ?_⟩
      rw [ofRecs_cons, words]
      by_cases same : k = r.1
      · rw [if_pos same, same, set_ne w other, ofRecs_cons, if_pos rfl]
      · rw [if_neg same]
        by_cases here : k = recs[p].1
        · rw [here, set_self, set_self]
        · rw [set_ne w here, set_ne w here, ofRecs_cons, if_neg same]

theorem updateValue_none (value : ShHeadValue)
    (missing : ofRecs recs key = none) : head.updateValue dir key value = .ok (dir, false) := by
  unfold updateValue
  rw [holds.locateRec_none (Words.ofRecs_eq_none.mp missing)]
  split <;> rfl

omit holds in
theorem pageIdx_congr {recs recs' : List (ShHeadKey × UInt64)}
    (keys : recs'.map fst = recs.map fst) : pageIdx recs' = pageIdx recs := by
  apply ext_getElem?
  intro j
  have first : recs'[j * recsPerPage]?.map fst = recs[j * recsPerPage]?.map fst := by
    rw [← getElem?_map, ← getElem?_map, keys]
  have entry (o : Option (ShHeadKey × UInt64)) :
      o.map (fun r => (r.1, dataHeaderLen + j * recsPerPage * headSlotSize)) =
        (o.map fst).map fun k => (k, dataHeaderLen + j * recsPerPage * headSlotSize) := by
    rw [Option.map_map]
    rfl
  rw [pageIdx_getElem?, pageIdx_getElem?, entry, entry, first]

omit holds in
theorem sidecar_ne {path : Name} {kind : FileKind} (other : kind ≠ .data) :
    sidecar path kind ≠ path := by
  intro same
  have length := congrArg length same
  rw [sidecar, length_append] at length
  cases kind with
  | data => exact other rfl
  | idx | fuse8 | mphf | val => simp [FileKind.ext] at length

theorem updateValue_some {value : ShHeadValue} (storable : value.Storable) {old : UInt64}
    (member : ofRecs recs key = some old) :
    ∃ recs', head.updateValue dir key value = .ok (dir.put head.path (.sorted recs'), true) ∧
      Holds (dir.put head.path (.sorted recs')) head recs' ∧
      recs'.map fst = recs.map fst ∧
      ofRecs recs' = (ofRecs recs).set key (word value) := by
  have mem := (Words.ofRecs_eq_some holds.sorted.nodup).mp member
  obtain ⟨p, hp, at_p⟩ := getElem_of_mem mem
  have here := holds.locateRec_some hp
  rw [at_p] at here
  obtain ⟨keys, words⟩ := ofRecs_modify holds.sorted.nodup hp (word value)
  rw [at_p] at words
  refine ⟨recs.modify p fun r => (r.1, word value), ?_, ?_, keys, words⟩
  · unfold updateValue
    rw [holds.contains_of_mem mem, here]
    simp only [Words.pack8Bytes_eq storable, holds.data]
    rfl
  · have sorted : Sorted (recs.modify p fun r => (r.1, word value)) := by
      have by_key (l : List (ShHeadKey × UInt64)) :
          Sorted l ↔ (l.map fst).Pairwise fun a b => a.rank < b.rank := by
        rw [pairwise_map]
      rw [by_key, keys, ← by_key]
      exact holds.sorted
    obtain ⟨f, file, geometry, fuse, all⟩ := holds.filter
    refine ⟨Dir.lookup_put_self .., ?_, ⟨f, ?_, geometry, fuse, ?_⟩, sorted, ?_, ?_⟩
    · rw [Dir.lookup_put_ne _ _ (sidecar_ne (by decide)), pageIdx_congr keys]
      exact holds.idxFile
    · rw [Dir.lookup_put_ne _ _ (sidecar_ne (by decide))]
      exact file
    · intro r mem
      have known : r.1 ∈ recs.map fst := keys ▸ mem_map_of_mem mem
      obtain ⟨r', mem', same⟩ := mem_map.mp known
      rw [← same]
      exact all r' mem'
    · rw [holds.count, length_modify]
    · rw [holds.idx, pageIdx_congr keys]

theorem preadRecs_all : head.preadRecs dir 0 head.count = .ok recs := by
  rw [preadRecs, holds.data, holds.count]
  simp

end Holds

/-- A written head holds its records, and no other file changes. -/
theorem write_holds {F : FuseFloats} {dir : Dir} {path : Name} (sorted : Sorted recs)
    (builds : SealedFuse8.Builds F (fuseKeys recs)) :
    ∃ dir' head, write F dir path recs = (dir', .ok head) ∧ Holds dir' head recs ∧
      head.path = path ∧ ∀ name, name ≠ path → name ≠ sidecar path .idx →
        name ≠ sidecar path .fuse8 → dir'.lookup name = dir.lookup name := by
  obtain ⟨f, built, geometry, takes⟩ := builds
  have idx_ne_fuse : sidecar path .idx ≠ sidecar path .fuse8 := by
    intro same
    have := append_cancel_left same
    cases this
  let dir' := ((dir.put path (.sorted recs)).put (sidecar path .idx) (.idx (pageIdx recs))).put
    (sidecar path .fuse8) (.fuse f)
  have data : dir'.lookup path = some (.sorted recs) := by
    rw [Dir.lookup_put_ne _ _ (Holds.sidecar_ne (by decide)).symm,
      Dir.lookup_put_ne _ _ (Holds.sidecar_ne (by decide)).symm, Dir.lookup_put_self]
  have index : dir'.lookup (sidecar path .idx) = some (.idx (pageIdx recs)) := by
    rw [Dir.lookup_put_ne _ _ idx_ne_fuse, Dir.lookup_put_self]
  have filter : dir'.lookup (sidecar path .fuse8) = some (.fuse f) := Dir.lookup_put_self ..
  refine ⟨dir', ⟨path, recs.length, pageIdx recs, .ofFilter (sidecar path .fuse8) f⟩, ?_,
    ⟨data, index, ⟨f, filter, geometry, rfl, ?_⟩, sorted, rfl, rfl⟩, rfl, ?_⟩
  · rw [write, if_pos (isChain_iff_pairwise.mpr sorted), built]
    refine congrArg (Prod.mk dir') ?_
    change openHead dir' path = _
    unfold openHead readFrom
    simp only [data, index, filter, geometry]
    rfl
  · intro r mem
    apply takes
    rw [fuseKeys, mem_dedup, mem_insertionSort]
    exact mem_map_of_mem mem
  · intro name data idx fuse
    rw [Dir.lookup_put_ne _ _ fuse, Dir.lookup_put_ne _ _ idx, Dir.lookup_put_ne _ _ data]

end SortedHead

end Rbitcoin.Store
