import Rbitcoin.Store.LocJobs

/-! The locator of `seqsigwit`: sixteen bits for each record, its length in strides. -/

namespace Rbitcoin.Store

open Bytes Numbered Outcome List

structure DeltaRec where
  start : Nat
  len : Nat
  deriving DecidableEq, Repr

/-- `pack_u16_strides_seqsigwit`, where the strides themselves go to the overflow file. -/
def packU16StridesSeqsigwit (strides : UInt32) : Result (Bytes × Bool) := do
  rejectIf (strides = 0) (.corrupt "invariant: loc strides")
  if 65536 ≤ strides.toNat then return (toLe 2 0, true)
  return (toLe 2 strides.toNat, false)

namespace DeltaRec

def next (rec : DeltaRec) : Nat := saturatingAdd 64 rec.start rec.len

def follows (rec after : DeltaRec) : Result Unit :=
  rejectIf (after.start ≠ rec.next) (.corrupt "invariant: loc starts")

def ovfFormat : Records.Format (Nat × UInt32) where
  width := 12
  encode x := toLe 8 x.1 ++ toLe 4 x.2.toNat
  decode b := (ofLe (b.slice 0 8), UInt32.ofNat (ofLe (b.slice 8 12)))
  Fits x := x.1 < 2 ^ 64
  width_pos := by decide
  length_encode x := by simp
  decode_encode := by
    rintro ⟨fk, strides⟩ fits
    have large : fk < 256 ^ 8 := fits
    have small : strides.toNat < 256 ^ 4 := strides.toNat_lt
    have first : slice (toLe 8 fk ++ toLe 4 strides.toNat) 0 8 = toLe 8 fk :=
      slice_append (p := []) rfl rfl (by simp)
    have second : slice (toLe 8 fk ++ toLe 4 strides.toNat) 8 12 = toLe 4 strides.toNat :=
      slice_append (List.append_nil _).symm (by simp) (by simp)
    simp only [first, second, ofLe_toLe_of_lt large, ofLe_toLe_of_lt small, UInt32.ofNat_toNat]

def offFormat : Records.Format Nat where
  width := 8
  encode p := toLe 8 p
  decode b := ofLe b
  Fits p := p < 2 ^ 64
  width_pos := by decide
  length_encode p := by simp
  decode_encode fits := ofLe_toLe_of_lt fits

/-- `ovf_row_matches_slot` of one plane. -/
def matchesSlot (strides : UInt32) (slot : Bytes) : Bool :=
  slot.byteAt 0 = 0 ∧ slot.byteAt 1 = 0 ∧ 65536 ≤ strides.toNat

/-- What the checks of an append ask of a record. -/
structure Valid (rec : DeltaRec) : Prop where
  positive : 0 < rec.len
  aligned : rec.len % idxStride = 0
  strides : rec.len / idxStride < 2 ^ 32

def strides (rec : DeltaRec) : UInt32 := UInt32.ofNat (rec.len / idxStride)

section Valid

variable {rec : DeltaRec} (valid : rec.Valid)
include valid

theorem Valid.strides_mul : rec.strides.toNat * idxStride = rec.len := by
  rw [DeltaRec.strides, UInt32.toNat_ofNat_of_lt' valid.strides]
  exact Nat.div_mul_cancel (Nat.dvd_of_mod_eq_zero valid.aligned)

theorem Valid.strides_ne_zero : rec.strides ≠ 0 := by
  intro zero
  have := valid.strides_mul
  have := valid.positive
  simp_all

end Valid

end DeltaRec

/-- The number in a slot, `0` for an overflow. -/
def deltaDisk (strides : UInt32) : Nat := if 65536 ≤ strides.toNat then 0 else strides.toNat

theorem deltaDisk_lt (strides : UInt32) : deltaDisk strides < 256 ^ 2 := by
  rw [deltaDisk]
  split_ifs <;> omega

theorem deltaDisk_eq_zero {strides : UInt32} (positive : strides ≠ 0) :
    deltaDisk strides = 0 ↔ 65536 ≤ strides.toNat := by
  have : strides.toNat ≠ 0 := fun zero => positive (UInt32.toNat_inj.mp zero)
  rw [deltaDisk]
  split_ifs <;> omega

theorem deltaDisk_of_bytes {strides : UInt32} (first : (toLe 2 (deltaDisk strides)).byteAt 0 = 0)
    (second : (toLe 2 (deltaDisk strides)).byteAt 1 = 0) : deltaDisk strides = 0 := by
  have bytes : toLe 2 (deltaDisk strides) = [(toLe 2 (deltaDisk strides)).byteAt 0,
      (toLe 2 (deltaDisk strides)).byteAt 1] := rfl
  rw [first, second] at bytes
  rw [← ofLe_toLe_of_lt (deltaDisk_lt strides), bytes]
  rfl

def deltaTexts : LocTexts where
  size := "invariant: loc size"
  offSize := "invariant: loc checkpoint count"
  offIndex := "invariant: loc checkpoint index"
  ovfSize := "invariant: loc ovf size"
  ovfOrder := "invariant: loc ovf order"
  truncate := "seqsigwit.loc truncate past count"

def seqsigwitFormat : LocFormat DeltaRec UInt32 Nat where
  texts := deltaTexts
  origin := fileHeaderLen
  row rec := stridesFromAlignedLen rec.len
  start := DeltaRec.start
  next := DeltaRec.next
  follows := DeltaRec.follows
  pack := packU16StridesSeqsigwit
  ovf := DeltaRec.ovfFormat
  off := DeltaRec.offFormat
  rowMatchesSlot := DeltaRec.matchesSlot
  Valid := DeltaRec.Valid
  rowOf := DeltaRec.strides
  len := DeltaRec.len
  slot strides := toLe 2 (deltaDisk strides)
  overflows strides := 65536 ≤ strides.toNat
  InRange p := p < 2 ^ 64
  weight p := p
  row_eq valid := stridesFromAlignedLen_eq valid.positive valid.aligned valid.strides
  pack_eq valid := by
    rw [packU16StridesSeqsigwit, rejectIf_neg valid.strides_ne_zero, ok_bind, deltaDisk]
    split_ifs with large <;> simp [large] <;> rfl
  next_eq _ inRange := saturatingAdd_eq inRange
  follows_eq starts := rejectIf_neg (not_not.mpr starts) _
  length_slot _ := toLe_length ..
  ovf_fits small _ := small
  off_fits inRange := inRange
  overflows_of_matches valid matched := by
    obtain ⟨first, second, -⟩ := of_decide_eq_true matched
    exact decide_eq_true ((deltaDisk_eq_zero valid.strides_ne_zero).mp
      (deltaDisk_of_bytes first second))
  matches_self valid overflow := by
    have large := of_decide_eq_true overflow
    have zero := (deltaDisk_eq_zero valid.strides_ne_zero).mpr large
    rw [zero]
    exact decide_eq_true ⟨rfl, rfl, large⟩
  inRange_of_add inRange := Nat.lt_of_le_of_lt (Nat.le_add_right ..) inRange
  weight_lt inRange := inRange
  weight_add p valid := Nat.lt_add_of_pos_right valid.positive

abbrev DeltaLoc := Locator UInt32 Nat

structure DeltaWin where
  jobs : List LocJob
  winFirst : Nat
  n : Nat
  winStart : Nat

abbrev DeltaAnswers := List (Option (Nat × Nat))

namespace DeltaLoc

def append (L : DeltaLoc) (starts alignedLens : List Nat) : Result DeltaLoc := do
  rejectIf (starts.length ≠ alignedLens.length) (.corrupt "invariant: loc append length")
  seqsigwitFormat.append L (starts.zipWith DeltaRec.mk alignedLens)

variable (L : DeltaLoc)

/-- The turn of `plan_range_batch` for the jobs of one window, which is read as a whole. -/
def planWindow (jobs : List LocJob) : Result DeltaWin := do
  let w := locWindowOf ((jobs.head?.map Prod.snd).getD 0)
  let winFirst := w * locWindow + 1
  let winLast := min ((w + 1) * locWindow) L.count
  let winStart ← windowStart fileHeaderLen "invariant: loc checkpoint" L.checkpoints w
  return ⟨jobs, winFirst, winLast - winFirst + 1, winStart⟩

def ovfLookupStrides (rows : List (Nat × UInt32)) (fk : Nat) : Result UInt32 :=
  match rows.find? fun row => row.1 = fk with
  | some row => .ok row.2
  | none => corrupt "invariant: seqsigwit.loc overflow missing"

def diskAt (buf : Bytes) (i : Nat) : Nat := ofLe (buf.slice (i * 2) (i * 2 + 2))

/-- The strides of slot `i` of a window with an overflow. -/
def stridesAt (win : DeltaWin) (buf : Bytes) (i : Nat) : Result Nat :=
  if diskAt buf i = 0 then do
    let strides ← ovfLookupStrides L.ovfRows (win.winFirst + i)
    return strides.toNat
  else .ok (diskAt buf i)

/-- The starts of `k` records from slot `i` on, the first at `p`, and the end of the last. -/
def sums (read : Nat → Result Nat) : Nat → Nat → Nat → Result (List Nat)
  | 0, _, p => .ok [p]
  | k + 1, i, p => do
    let strides ← read i
    let rest ← sums read k (i + 1) (saturatingAdd 64 p (strides * idxStride))
    return p :: rest

/-- The starts in a window, with a look at the overflow rows if a slot overflows. -/
def windowStarts (win : DeltaWin) (buf : Bytes) : Result (List Nat) :=
  if (List.range win.n).any fun i => diskAt buf i = 0 then
    sums (stridesAt L win buf) win.n 0 win.winStart
  else sums (fun i => .ok (diskAt buf i)) win.n 0 win.winStart

/-- The turn of `finish_range_batch` for one window. -/
def finishWindow (out : DeltaAnswers) (x : DeltaWin × Bytes) : Result DeltaAnswers := do
  let ps ← windowStarts L x.1 x.2
  return x.1.jobs.foldl (fun out job =>
    out.set job.1 (some (ps.getD (locWithin job.2) 0,
      ps.getD (locWithin job.2 + 1) 0 - ps.getD (locWithin job.2) 0))) out

def rangeBatch (fks : List Nat) : Result DeltaAnswers := do
  let windows ← (windowJobs (locJobs L.count fks)).mapM (planWindow L)
  let filled ← windows.mapM fun win => do
    let buf ← L.loc.readAt (slotLen * (win.winFirst - 1)) (win.n * 2)
    return (win, buf)
  filled.foldlM (finishWindow L) (List.replicate fks.length none)

end DeltaLoc

/-! ### What a look-up finds -/

/-- What a record was appended with, for a number in range. -/
def DeltaRec.rangeOf (recs : List DeltaRec) (fk : Nat) : Option (Nat × Nat) :=
  if fk = 0 then none else recs[fk - 1]?.map fun rec => (rec.start, rec.len)

open DeltaLoc

section Batch

variable {L : DeltaLoc} {recs : List DeltaRec} (held : L.Holds seqsigwitFormat recs)

theorem diskAt_slots {part : List DeltaRec} {i : Nat} {rec : DeltaRec}
    (here : part[i]? = some rec) :
    diskAt (seqsigwitFormat.slots part) i = deltaDisk rec.strides := by
  rw [diskAt, show i * 2 = slotLen * i from mul_comm ..,
    show slotLen * i + 2 = slotLen * (i + 1) from rfl, seqsigwitFormat.slice_slots here]
  exact ofLe_toLe_of_lt (deltaDisk_lt _)

include held in
theorem ovfLookupStrides_eq {i : Nat} {rec : DeltaRec} (here : recs[i]? = some rec)
    (overflows : 65536 ≤ rec.strides.toNat) :
    ovfLookupStrides L.ovfRows (i + 1) = .ok rec.strides := by
  have mem := seqsigwitFormat.mem_ovfOf_of_overflows here (decide_eq_true overflows)
  have found := seqsigwitFormat.find?_ovfOf here (Subset.refl _) mem
  rw [ovfLookupStrides, held.ovfRows, found]
  rfl

theorem sums_eq {part : List DeltaRec} {start : Nat} {read : Nat → Result Nat}
    (valid : ∀ rec ∈ part, rec.Valid) (inRange : pos start DeltaRec.len part part.length < 2 ^ 64)
    (reads : ∀ {i rec}, part[i]? = some rec → read i = .ok rec.strides.toNat)
    {k i : Nat} (inside : i + k ≤ part.length) :
    sums read k i (pos start DeltaRec.len part i) =
      .ok ((range (k + 1)).map fun j => pos start DeltaRec.len part (i + j)) := by
  induction k generalizing i with
  | zero => rfl
  | succ k ih =>
    have here : part[i]? = some part[i] := getElem?_eq_getElem (by omega)
    have next := pos_succ start DeltaRec.len here
    have small : pos start DeltaRec.len part i + part[i].strides.toNat * idxStride < 2 ^ 64 := by
      rw [(valid _ (mem_of_getElem? here)).strides_mul, ← next]
      exact seqsigwitFormat.inRange_pos inRange (by omega) le_rfl
    rw [sums, reads here, ok_bind, saturatingAdd_eq small,
      (valid _ (mem_of_getElem? here)).strides_mul, ← next, ih (by omega), range_succ_eq_map
        (n := k + 1), map_cons, map_map]
    simp only [add_assoc, add_comm 1]
    rfl

/-- What is known of a window that is planned for a group of jobs. -/
def DeltaPlanned (recs : List DeltaRec) (fks : List Nat) (win : DeltaWin) : Prop :=
  ∃ w, w * locWindow + win.n ≤ recs.length ∧ win.winFirst = w * locWindow + 1 ∧
    win.winStart = seqsigwitFormat.posOf recs (w * locWindow) ∧
    ∀ job ∈ win.jobs, ∃ rec, locWithin job.2 < win.n ∧
      recs[w * locWindow + locWithin job.2]? = some rec ∧
      (fks.map (DeltaRec.rangeOf recs))[job.1]? = some (some (rec.start, rec.len))

include held

theorem deltaPlanWindow_spec {fks : List Nat} {jobs : List LocJob}
    (mem : jobs ∈ windowJobs (locJobs L.count fks)) :
    ∃ win, planWindow L jobs = .ok win ∧ win.jobs = jobs ∧ DeltaPlanned recs fks win := by
  obtain ⟨first, head, group⟩ := group_of_mem_windowJobs mem
  have first_mem := mem_of_mem_head? head
  have bounds := group.bounds first_mem
  have counted := group.inside first first_mem
  rw [held.count] at counted
  have start := windowStart_eq held "invariant: loc checkpoint"
    (show locWindowOf first.2 * locWindow < recs.length by omega)
  change windowStart fileHeaderLen _ L.checkpoints _ = _ at start
  refine ⟨⟨jobs, locWindowOf first.2 * locWindow + 1, min ((locWindowOf first.2 + 1) * locWindow)
      L.count - (locWindowOf first.2 * locWindow + 1) + 1,
      seqsigwitFormat.posOf recs (locWindowOf first.2 * locWindow)⟩, ?_, rfl, locWindowOf first.2,
    ?_, rfl, rfl, fun job hjob => ?_⟩
  · rw [planWindow, head]
    simp only [Option.map_some, Option.getD_some, start]
    rfl
  · rw [held.count]
    dsimp only
    omega
  · have number := group.number hjob
    have inside := group.inside job hjob
    have within : locWithin job.2 < locWindow := Nat.mod_lt _ (by decide)
    rw [held.count] at inside
    have here : recs[locWindowOf first.2 * locWindow + locWithin job.2]? =
        some recs[locWindowOf first.2 * locWindow + locWithin job.2] :=
      getElem?_eq_getElem (by omega)
    refine ⟨_, ?_, here, ?_⟩
    · rw [held.count, Nat.succ_mul]
      dsimp only
      omega
    · rw [getElem?_map, group.request job hjob, Option.map_some, DeltaRec.rangeOf,
        if_neg (group.positive job hjob).ne',
        show job.2 - 1 = locWindowOf first.2 * locWindow + locWithin job.2 by omega, here]
      rfl

theorem windowStarts_eq {win : DeltaWin} {w : Nat} (inside : w * locWindow + win.n ≤ recs.length)
    (first : win.winFirst = w * locWindow + 1)
    (start : win.winStart = seqsigwitFormat.posOf recs (w * locWindow)) :
    windowStarts L win (seqsigwitFormat.slots (windowPart recs w win.n)) =
      .ok ((range (win.n + 1)).map fun j => seqsigwitFormat.posOf recs (w * locWindow + j)) := by
  have length := length_windowPart inside
  have valid : ∀ rec ∈ windowPart recs w win.n, rec.Valid := fun rec mem =>
    held.contiguous.valid rec (mem_of_mem_drop (mem_of_mem_take mem))
  have position {k : Nat} (small : k ≤ win.n) :
      pos win.winStart DeltaRec.len (windowPart recs w win.n) k =
        seqsigwitFormat.posOf recs (w * locWindow + k) := by
    rw [start]
    exact pos_windowPart _ _ recs w small
  have inRange : pos win.winStart DeltaRec.len (windowPart recs w win.n)
      (windowPart recs w win.n).length < 2 ^ 64 := by
    rw [length, position le_rfl]
    exact seqsigwitFormat.inRange_pos held.contiguous.inRange inside le_rfl
  have run {read : Nat → Result Nat} (reads : ∀ {i rec},
      (windowPart recs w win.n)[i]? = some rec → read i = .ok rec.strides.toNat) :
      sums read win.n 0 win.winStart = .ok ((range (win.n + 1)).map fun j =>
        seqsigwitFormat.posOf recs (w * locWindow + j)) := by
    have all := sums_eq valid inRange reads (k := win.n) (i := 0) (by omega)
    rw [pos_zero] at all
    rw [all]
    refine congrArg Except.ok (map_congr_left fun j mem => ?_)
    have := mem_range.mp mem
    rw [zero_add, position (by omega)]
  have plain {i : Nat} {rec : DeltaRec} (here : (windowPart recs w win.n)[i]? = some rec)
      (kept : deltaDisk rec.strides ≠ 0) : deltaDisk rec.strides = rec.strides.toNat := by
    have nonzero := (valid rec (mem_of_getElem? here)).strides_ne_zero
    rw [deltaDisk, if_neg fun large => kept ((deltaDisk_eq_zero nonzero).mpr large)]
  have bound {i : Nat} {rec : DeltaRec} (here : (windowPart recs w win.n)[i]? = some rec) :
      i < win.n := length ▸ (List.getElem?_eq_some_iff.mp here).1
  rw [windowStarts]
  split_ifs with any
  · refine run fun {i rec} here => ?_
    have nonzero := (valid rec (mem_of_getElem? here)).strides_ne_zero
    have in_recs := (getElem?_windowPart (bound here)).symm.trans here
    rw [stridesAt, diskAt_slots here]
    split_ifs with zero
    · rw [first, show w * locWindow + 1 + i = w * locWindow + i + 1 by omega,
        ovfLookupStrides_eq held in_recs ((deltaDisk_eq_zero nonzero).mp zero)]
      rfl
    · rw [plain here zero]
  · refine run fun {i rec} here => ?_
    have kept : deltaDisk rec.strides ≠ 0 := by
      intro zero
      rw [← diskAt_slots here] at zero
      exact any (any_eq_true.mpr ⟨i, mem_range.mpr (bound here), decide_eq_true zero⟩)
    rw [diskAt_slots here, plain here kept]

theorem finishWindow_spec {fks : List Nat} {win : DeltaWin} (planned : DeltaPlanned recs fks win)
    {out : DeltaAnswers} (fits : out.length = (fks.map (DeltaRec.rangeOf recs)).length) :
    ∃ out', finishWindow L out (win, seqsigwitFormat.slots
        ((recs.drop (win.winFirst - 1)).take win.n)) = .ok out' ∧
      Emits (fks.map (DeltaRec.rangeOf recs)) win.jobs out out' := by
  obtain ⟨w, inside, first, start, jobs⟩ := planned
  have part : (recs.drop (win.winFirst - 1)).take win.n = windowPart recs w win.n := by
    rw [first]
    rfl
  rw [part, finishWindow, windowStarts_eq held inside first start]
  refine ⟨_, rfl, emits_foldl_set fits fun job mem => ?_⟩
  obtain ⟨rec, small, here, wanted⟩ := jobs job mem
  have at_place {k : Nat} (inside : k ≤ win.n) :
      ((range (win.n + 1)).map fun j =>
        seqsigwitFormat.posOf recs (w * locWindow + j)).getD k 0 =
        seqsigwitFormat.posOf recs (w * locWindow + k) := by
    rw [getD_eq_getElem?_getD, getElem?_map, getElem?_range (by omega)]
    rfl
  have next : seqsigwitFormat.posOf recs (w * locWindow + (locWithin job.2 + 1)) =
      seqsigwitFormat.posOf recs (w * locWindow + locWithin job.2) + rec.len := by
    rw [← add_assoc]
    exact pos_succ fileHeaderLen DeltaRec.len here
  have start : rec.start = seqsigwitFormat.posOf recs (w * locWindow + locWithin job.2) :=
    held.contiguous.starts here
  rw [wanted, at_place small.le, at_place small, next, start, Nat.add_sub_cancel_left]

/-- A batch of look-ups gives the range of each record. -/
theorem deltaRangeBatch_eq (fks : List Nat) :
    rangeBatch L fks = .ok (fks.map (DeltaRec.rangeOf recs)) := by
  obtain ⟨windows, plan, jobs, all⟩ := mapM_windowJobs
    fun part (mem : part ∈ windowJobs (locJobs L.count fks)) => deltaPlanWindow_spec held mem
  have reads : ∀ win ∈ windows, (do
      let buf ← L.loc.readAt (slotLen * (win.winFirst - 1)) (win.n * 2)
      return (win, buf)) = (.ok (win, seqsigwitFormat.slots
        ((recs.drop (win.winFirst - 1)).take win.n)) : Result (DeltaWin × Bytes)) := by
    intro win mem
    obtain ⟨w, inside, first, -⟩ := all win mem
    have long : slotLen * (win.winFirst - 1) + win.n * 2 ≤ (seqsigwitFormat.slots recs).length := by
      rw [seqsigwitFormat.length_slots, slotLen, first]
      omega
    rw [held.loc.readAt long long, seqsigwitFormat.slice_slots_take]
    rfl
  rw [rangeBatch, plan, ok_bind, mapM_ok reads]
  refine foldlM_windows rfl (·.1.jobs) (by rw [flatMap_map, jobs, held.count])
    fun x mem out fits => ?_
  obtain ⟨win, listed, rfl⟩ := mem_map.mp mem
  exact finishWindow_spec held (all win listed) fits

end Batch

end Rbitcoin.Store
