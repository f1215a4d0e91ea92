import Rbitcoin.Lib.SortedSearch
import Rbitcoin.Store.CreateLoc

/-! Look-ups in the create locator. A window of slots is summed up from its checkpoint, eight slots
at a time while none of them overflows, and slot by slot with the overflow rows otherwise. -/

namespace Rbitcoin.Store

open Bytes CreateLocAppend Numbered Outcome SortedSearch List

/-- A window to read: the jobs in it, its first number, how many slots, and where it starts. -/
structure LocWinRead where
  jobs : List LocJob
  winFirst : Nat
  n : Nat
  tx0 : Nat
  sp0 : Nat

/-- Slots up to the highest number that is asked for. -/
def locWindowNeedN (maxId winFirst winLast : Nat) : Nat :=
  if maxId < winFirst ∨ winLast < winFirst then 0 else min maxId winLast - winFirst + 1

namespace CreateLoc

/-- The turn of `plan_range_batch` for the jobs of one window. -/
def planWindow (L : CreateLoc) (jobs : List LocJob) : Result (Option LocWinRead) :=
  match jobs.head?, jobs.getLast? with
  | some first, some last =>
    let w := locWindowOf first.2
    let winFirst := w * locWindow + 1
    let winLast := min ((w + 1) * locWindow) L.count
    let n := locWindowNeedN last.2 winFirst winLast
    if n = 0 then .ok none
    else do
      let (tx0, sp0) ← windowStart (fileHeaderLen, fileHeaderLen)
        "invariant: create.off checkpoint" L.checkpoints w
      rejectIf (L.loc.published < slotLen * (winFirst - 1) + n * 2)
        (.corrupt "invariant: body read past published end")
      return some ⟨jobs, winFirst, n, tx0, sp0⟩
  | _, _ => .ok none

def planRangeBatch (L : CreateLoc) (fks : List Nat) : Result (List LocWinRead) := do
  let windows ← (windowJobs (locJobs L.count fks)).mapM (planWindow L)
  return windows.filterMap id

/-- The ends of all windows are checked again before the first read. -/
def preadWindows (L : CreateLoc) (windows : List LocWinRead) :
    Result (List (LocWinRead × Bytes)) := do
  rejectIf (∃ win ∈ windows, L.loc.published < slotLen * (win.winFirst - 1) + win.n * 2)
    (.corrupt "invariant: body read past published end")
  windows.mapM fun win => do
    let buf ← L.loc.preadAll (slotLen * (win.winFirst - 1)) (win.n * 2)
    return (win, buf)

end CreateLoc

abbrev CreateAnswers := List (Option CreateLocPair)

/-- The sums so far, the jobs that are left, and the answers. -/
structure PairScan where
  tx : Nat
  sp : Nat
  jobs : List LocJob
  out : CreateAnswers

namespace PairScan

def emitAt (i : Nat) (pair : CreateLocPair) :
    List LocJob → CreateAnswers → List LocJob × CreateAnswers
  | [], out => ([], out)
  | job :: jobs, out =>
    if locWithin job.2 = i then emitAt i pair jobs (out.set job.1 (some pair))
    else (job :: jobs, out)

def slot (s : PairScan) (i strides nOut : Nat) : PairScan :=
  let tlen := strides * idxStride
  let slen := nOut * idxStride
  let (jobs, out) := emitAt i ⟨(s.tx, tlen), (s.sp, slen), nOut⟩ s.jobs s.out
  ⟨saturatingAdd 64 s.tx tlen, saturatingAdd 64 s.sp slen, jobs, out⟩

/-- `deinterleave_pairs_u8x8`: the strides, the output counts, and whether a byte is `0`. -/
def deinterleavePairs (chunk : Bytes) : List UInt8 × List UInt8 × Bool :=
  let st := (List.range 8).map fun k => chunk.byteAt (k * 2)
  let no := (List.range 8).map fun k => chunk.byteAt (k * 2 + 1)
  (st, no, (List.range 8).any fun k => chunk.byteAt (k * 2) = 0 ∨ chunk.byteAt (k * 2 + 1) = 0)

/-- `inclusive_u8x8_times_8` from a sum on: the running sums of eight times the bytes. -/
def inclusiveTimes8 : Nat → List UInt8 → List Nat
  | _, [] => []
  | t, b :: bs =>
    let t := saturatingAdd 32 t (b.toNat * 8)
    t :: inclusiveTimes8 t bs

def lanePair (s : PairScan) (no : List UInt8) (txInc spInc : List Nat) (k : Nat) : CreateLocPair :=
  let tprev := if k = 0 then 0 else txInc.getD (k - 1) 0
  let sprev := if k = 0 then 0 else spInc.getD (k - 1) 0
  let tlen := txInc.getD k 0 - tprev
  let slen := spInc.getD k 0 - sprev
  ⟨(saturatingAdd 64 s.tx tprev, tlen), (saturatingAdd 64 s.sp sprev, slen), (no.getD k 0).toNat⟩

/-- The jobs at the front that are for the eight slots from `i` on. -/
def emitLane (i : Nat) (pair : Nat → CreateLocPair) :
    List LocJob → CreateAnswers → List LocJob × CreateAnswers
  | [], out => ([], out)
  | job :: jobs, out =>
    let within := locWithin job.2
    if within < i then emitLane i pair jobs out
    else if i + 8 ≤ within then (job :: jobs, out)
    else emitLane i pair jobs (out.set job.1 (some (pair (within - i))))

/-- Eight slots from `i` on. An overflow ends the scan with the answers so far. -/
def lane (s : PairScan) (buf : Bytes) (i : Nat) : Except CreateAnswers PairScan :=
  let (st, no, hasZero) := deinterleavePairs (buf.slice (i * 2) (i * 2 + 16))
  if hasZero then .error s.out
  else
    let txInc := inclusiveTimes8 0 st
    let spInc := inclusiveTimes8 0 no
    let (jobs, out) := emitLane i (s.lanePair no txInc spInc) s.jobs s.out
    .ok ⟨saturatingAdd 64 s.tx (txInc.getD 7 0), saturatingAdd 64 s.sp (spInc.getD 7 0), jobs, out⟩

/-- `k` times eight slots from `i` on. -/
def lanes (buf : Bytes) : Nat → Nat → PairScan → Except CreateAnswers PairScan
  | 0, _, s => .ok s
  | k + 1, i, s => do
    let s ← s.lane buf i
    lanes buf k (i + 8) s

def slots {ε : Type} (read : PairScan → Nat → Except ε (Nat × Nat)) :
    Nat → Nat → PairScan → Except ε PairScan
  | 0, _, s => .ok s
  | k + 1, i, s => do
    let (strides, nOut) ← read s i
    slots read k (i + 1) (s.slot i strides nOut)

/-- A slot that does not overflow. -/
def readPlain (buf : Bytes) (s : PairScan) (i : Nat) : Except CreateAnswers (Nat × Nat) :=
  let st := buf.byteAt (i * 2)
  let no := buf.byteAt (i * 2 + 1)
  if st = 0 ∨ no = 0 then .error s.out else .ok (st.toNat, no.toNat)

end PairScan

def extractPairsNoOvf (win : LocWinRead) (buf : Bytes) (out : CreateAnswers) :
    Except CreateAnswers CreateAnswers := do
  let s ← PairScan.lanes buf (win.n / 8) 0 ⟨win.tx0, win.sp0, win.jobs, out⟩
  let s ← PairScan.slots (PairScan.readPlain buf) (win.n % 8) (win.n / 8 * 8) s
  return s.out

/-- The binary search of rows in order. -/
def ovfLookupPair (rows : List (Nat × CreateRow)) (fk : Nat) : Result CreateRow :=
  match rows.find? fun row => row.1 = fk with
  | some row => .ok row.2
  | none => corrupt "invariant: create.loc overflow missing"

def decodeCreatePair (stridesB nOutB : UInt8) (fk : Nat) (ovf : List (Nat × CreateRow)) :
    Result (Nat × Nat) :=
  if stridesB = 0 ∨ nOutB = 0 then do
    let row ← ovfLookupPair ovf fk
    return (row.strides.toNat, row.nOut.toNat)
  else .ok (stridesB.toNat, nOutB.toNat)

/-- The rows from `first` to `last`, between the partition points of rows in order. -/
def ovfBetween (ovf : List (Nat × CreateRow)) (first last : Nat) : List (Nat × CreateRow) :=
  let lo := (ovf.takeWhile fun row => row.1 < first).length
  let hi := (ovf.takeWhile fun row => row.1 ≤ last).length
  (ovf.take hi).drop lo

def extractPairsOvf (win : LocWinRead) (buf : Bytes) (ovf : List (Nat × CreateRow))
    (out : CreateAnswers) : Result CreateAnswers := do
  let winOvf := ovfBetween ovf win.winFirst (win.winFirst + win.n - 1)
  let s ← PairScan.slots
    (fun _ i => decodeCreatePair (buf.byteAt (i * 2)) (buf.byteAt (i * 2 + 1)) (win.winFirst + i)
      winOvf)
    win.n 0 ⟨win.tx0, win.sp0, win.jobs, out⟩
  return s.out

namespace CreateLoc

/-- A window with an overflow is gone through again, over the answers that are there. -/
def extractWinPairs (L : CreateLoc) (out : CreateAnswers) (win : LocWinRead × Bytes) :
    Result CreateAnswers :=
  match extractPairsNoOvf win.1 win.2 out with
  | .ok out => .ok out
  | .error out => extractPairsOvf win.1 win.2 L.ovfRows out

def rangeBatch (L : CreateLoc) (fks : List Nat) : Result CreateAnswers := do
  let windows ← planRangeBatch L fks
  let filled ← preadWindows L windows
  filled.foldlM (extractWinPairs L) (List.replicate fks.length none)

end CreateLoc

/-! ### What a scan finds -/

variable {rec : CreateLocAppend}

theorem byteAt_slots {part : List CreateLocAppend} {i : Nat} (here : part[i]? = some rec) :
    (createFormat.slots part).byteAt (i * 2) = lowByte rec.rowOf.strides ∧
      (createFormat.slots part).byteAt (i * 2 + 1) = lowByte rec.nOut := by
  have slot := createFormat.slice_slots here
  have first := byteAt_slice (s := createFormat.slots part) (a := slotLen * i)
    (e := slotLen * (i + 1)) (i := 0) (by rw [slotLen]; omega)
  have second := byteAt_slice (s := createFormat.slots part) (a := slotLen * i)
    (e := slotLen * (i + 1)) (i := 1) (by rw [slotLen]; omega)
  rw [slot] at first second
  rw [mul_comm i 2]
  exact ⟨first.symm, second.symm⟩

def CreateLocAppend.pairAt (rec : CreateLocAppend) (p : Nat × Nat) : CreateLocPair :=
  ⟨(p.1, rec.txoutLen), (p.2, rec.spentLen), rec.nOut.toNat⟩

/-- A window: the creates in it, where it starts, and jobs in order with what they want. -/
structure PairWindow (part : List CreateLocAppend) (start : Nat × Nat) (want : CreateAnswers)
    (jobs : List LocJob) : Prop where
  valid : ∀ rec ∈ part, rec.Valid
  inRange : createFormat.InRange (pos start len part part.length)
  sorted : jobs.Pairwise fun a b => locWithin a.2 ≤ locWithin b.2
  wanted : ∀ job ∈ jobs, ∃ rec, part[locWithin job.2]? = some rec ∧
    want[job.1]? = some (some (rec.pairAt (pos start len part (locWithin job.2))))

open PairScan (inclusiveTimes8 emitAt emitLane lanes readPlain)

section Scan

variable {part : List CreateLocAppend} {start : Nat × Nat} {want out : CreateAnswers}
  {jobs : List LocJob}

/-- A scan that has come to slot `i`: the sums are those of the slots before it, and the jobs for
these are done. -/
structure PairScan.At (part : List CreateLocAppend) (start : Nat × Nat) (want : CreateAnswers)
    (jobs : List LocJob) (out : CreateAnswers) (i : Nat) (s : PairScan) : Prop where
  sums : (s.tx, s.sp) = pos start len part i
  done : ∃ done, jobs = done ++ s.jobs ∧ Emits want done out s.out
  ahead : ∀ job ∈ s.jobs, i ≤ locWithin job.2

variable {i k : Nat} {rec : CreateLocAppend} {s : PairScan}

/-- The jobs below `limit` at the front of those that are left are done. -/
theorem PairScan.At.emit (emit : List LocJob → CreateAnswers → List LocJob × CreateAnswers)
    {pair : LocJob → CreateLocPair} (limit : Nat) (nil : ∀ out, emit [] out = ([], out))
    (goes : ∀ job jobs out, i ≤ locWithin job.2 → locWithin job.2 < limit →
      emit (job :: jobs) out = emit jobs (out.set job.1 (some (pair job))))
    (stops : ∀ job jobs out, i ≤ locWithin job.2 → limit ≤ locWithin job.2 →
      emit (job :: jobs) out = (job :: jobs, out))
    (sorted : jobs.Pairwise fun a b => locWithin a.2 ≤ locWithin b.2)
    (fits : out.length = want.length) (scan : s.At part start want jobs out i)
    (wanted : ∀ job ∈ jobs, i ≤ locWithin job.2 → locWithin job.2 < limit →
      want[job.1]? = some (some (pair job))) :
    (∃ done, jobs = done ++ (emit s.jobs s.out).1 ∧ Emits want done out (emit s.jobs s.out).2) ∧
      ∀ job ∈ (emit s.jobs s.out).1, limit ≤ locWithin job.2 := by
  obtain ⟨-, ⟨done, rfl, emits⟩, ahead⟩ := scan
  generalize s.jobs = left at *
  generalize s.out = mid at *
  induction left generalizing done mid with
  | nil =>
    rw [nil]
    exact ⟨⟨done, rfl, emits⟩, nofun⟩
  | cons job left ih =>
    have front := ahead job mem_cons_self
    have mem : job ∈ done ++ job :: left := mem_append_right _ mem_cons_self
    rcases lt_or_ge (locWithin job.2) limit with before | past
    · have one := emits_set (emits.length.trans fits) (wanted job mem front before)
      rw [goes job left mid front before]
      rw [append_cons] at sorted wanted ⊢
      exact ih (done ++ [job]) (forall_mem_cons.mp ahead).2 sorted wanted _ (emits.append one)
    · rw [stops job left mid front past]
      refine ⟨⟨done, rfl, emits⟩, forall_mem_cons.mpr ⟨past, fun j hj => past.trans ?_⟩⟩
      exact (pairwise_cons.mp (pairwise_append.mp sorted).2.1).1 j hj

variable (window : PairWindow part start want jobs) (fits : out.length = want.length)
include window

theorem PairWindow.pos_succ (here : part[i]? = some rec) : pos start len part (i + 1) =
        pos start len part i + rec.len ∧
      createFormat.InRange (pos start len part i + rec.len) := by
  have next := Numbered.pos_succ start len here
  have inside := (List.getElem?_eq_some_iff.mp here).1
  refine ⟨next, ?_⟩
  rw [← next]
  exact LocFormat.inRange_pos window.inRange inside le_rfl

theorem PairScan.At.left (scan : s.At part start want jobs out i) :
    (∀ job ∈ s.jobs, job ∈ jobs) ∧ s.jobs.Pairwise fun a b => locWithin a.2 ≤ locWithin b.2 := by
  obtain ⟨done, split, -⟩ := scan.done
  have sorted := window.sorted
  rw [split] at sorted ⊢
  exact ⟨fun job => mem_append_right done, (pairwise_append.mp sorted).2.1⟩

include fits

theorem PairScan.At.slot (scan : s.At part start want jobs out i) (here : part[i]? = some rec) :
    (s.slot i rec.rowOf.strides.toNat rec.nOut.toNat).At part start want jobs out (i + 1) := by
  have valid := window.valid rec (mem_of_getElem? here)
  obtain ⟨next, inRange⟩ := window.pos_succ here
  have pair : (⟨(s.tx, rec.rowOf.strides.toNat * idxStride), (s.sp, rec.nOut.toNat * idxStride),
      rec.nOut.toNat⟩ : CreateLocPair) = rec.pairAt (pos start len part i) := by
    rw [← scan.sums, valid.strides_mul]
    rfl
  obtain ⟨done, later⟩ := scan.emit (emitAt i (rec.pairAt (pos start len part i))) (i + 1)
    (fun _ => rfl) (fun job jobs out front before => if_pos (by omega))
    (fun job jobs out front past => if_neg (by omega)) window.sorted fits
    fun job mem front before => by
      obtain ⟨rec', here', want'⟩ := window.wanted job mem
      obtain same : locWithin job.2 = i := by omega
      rw [same] at here' want'
      rw [want', Option.some.inj (here'.symm.trans here)]
  rw [PairScan.slot, pair]
  refine ⟨?_, done, later⟩
  rw [next, ← scan.sums]
  rw [← scan.sums] at inRange
  have tx : s.tx + rec.rowOf.strides.toNat * idxStride < 2 ^ 64 := by
    rw [valid.strides_mul]
    exact inRange.1
  exact Prod.ext ((saturatingAdd_eq tx).trans (by rw [valid.strides_mul]; rfl))
    (saturatingAdd_eq inRange.2)

def Partial (want : CreateAnswers) (jobs : List LocJob) (out out' : CreateAnswers) : Prop :=
  ∃ done ⊆ jobs, Emits want done out out'

omit window fits in
theorem PairScan.At.partly (scan : s.At part start want jobs out i) :
    Partial want jobs out s.out := by
  obtain ⟨done, split, emits⟩ := scan.done
  exact ⟨done, split ▸ subset_append_left .., emits⟩

theorem PairScan.At.slots {ε : Type} {read : PairScan → Nat → Except ε (Nat × Nat)}
    {stopped : ε → Prop}
    (reads : ∀ {s : PairScan} {i rec}, s.At part start want jobs out i → part[i]? = some rec →
      Ends (· = (rec.rowOf.strides.toNat, rec.nOut.toNat)) stopped (read s i))
    (scan : s.At part start want jobs out i) (inside : i + k ≤ part.length) :
    Ends (PairScan.At part start want jobs out (i + k)) stopped (PairScan.slots read k i s) := by
  induction k generalizing i s with
  | zero => exact scan
  | succ k ih =>
    have here : part[i]? = some part[i] := getElem?_eq_getElem (by omega)
    refine (reads scan here).bind ?_
    rintro _ rfl
    have := ih (scan.slot window fits here) (by omega)
    rwa [show i + 1 + k = i + (k + 1) by omega] at this

omit window fits in
theorem inclusiveTimes8_getD {l : List UInt8} {t : Nat} (small : t + l.length * 2040 < 2 ^ 32)
    (inside : k < l.length) :
    (inclusiveTimes8 t l).getD k 0 = t + ((l.take (k + 1)).map (·.toNat * 8)).sum := by
  induction l generalizing t k with
  | nil => simp at inside
  | cons b l ih =>
    have byte := b.toNat_lt
    rw [length_cons] at small inside
    have sum : saturatingAdd 32 t (b.toNat * 8) = t + b.toNat * 8 := saturatingAdd_eq (by omega)
    rw [inclusiveTimes8, sum]
    cases k with
    | zero => simp
    | succ k =>
      rw [getD_cons_succ, ih (by omega) (by omega), take_succ_cons, map_cons, sum_cons]
      omega

/-- The bytes of slot `i + j`. -/
abbrev stridesByte (part : List CreateLocAppend) (i j : Nat) : UInt8 :=
  (createFormat.slots part).byteAt ((i + j) * 2)

abbrev nOutByte (part : List CreateLocAppend) (i j : Nat) : UInt8 :=
  (createFormat.slots part).byteAt ((i + j) * 2 + 1)

/-- What the first `k` bytes stand for. -/
def sumTo (byte : Nat → UInt8) (k : Nat) : Nat := ((range k).map fun j => (byte j).toNat * 8).sum

omit window fits in
theorem sumTo_succ (byte : Nat → UInt8) :
    sumTo byte (k + 1) = sumTo byte k + (byte k).toNat * 8 := by
  simp [sumTo, range_succ]

/-- None of `k` slots from `i` on overflows. -/
def Plain (part : List CreateLocAppend) (i k : Nat) : Prop :=
  ∀ j < k, ∀ rec, part[i + j]? = some rec → lowByte rec.rowOf.strides ≠ 0 ∧ lowByte rec.nOut ≠ 0

omit fits in
theorem PairWindow.sums (inside : i + k ≤ part.length) (plain : Plain part i k) :
    pos start len part (i + k) =
      pos start len part i + (sumTo (stridesByte part i) k, sumTo (nOutByte part i) k) := by
  induction k with
  | zero => simp [sumTo]
  | succ k ih =>
    have here : part[i + k]? = some part[i + k] := getElem?_eq_getElem (by omega)
    have valid := window.valid _ (mem_of_getElem? here)
    obtain ⟨strides, nOut⟩ := plain k (Nat.lt_succ_self k) _ here
    obtain ⟨first, second⟩ : stridesByte part i k = _ ∧ nOutByte part i k = _ := byteAt_slots here
    rw [← add_assoc, (window.pos_succ here).1, ih (by omega) fun j small => plain j (by omega),
      sumTo_succ, sumTo_succ, first, second, toNat_lowByte strides, toNat_lowByte nOut]
    have len : part[i + k].len =
        (part[i + k].rowOf.strides.toNat * 8, part[i + k].nOut.toNat * 8) :=
      Prod.ext valid.strides_mul.symm rfl
    rw [add_assoc, len]
    rfl

omit window fits in
theorem getD_inclusiveTimes8_range {byte : Nat → UInt8} (inside : k < 8) :
    (inclusiveTimes8 0 ((range 8).map byte)).getD k 0 = sumTo byte (k + 1) := by
  rw [inclusiveTimes8_getD (by simp) (by simpa using inside), ← map_take, take_range,
    min_eq_left inside, map_map, zero_add]
  rfl

section

variable (scan : s.At part start want jobs out i)
include scan

omit fits in
theorem PairScan.At.laneSums (inside : i + k ≤ part.length) (plain : Plain part i k) :
    (saturatingAdd 64 s.tx (sumTo (stridesByte part i) k),
        saturatingAdd 64 s.sp (sumTo (nOutByte part i) k)) = pos start len part (i + k) := by
  have sums := window.sums inside plain
  have inRange := LocFormat.inRange_pos window.inRange inside le_rfl
  change createFormat.InRange (pos start len part (i + k)) at inRange
  rw [sums, ← scan.sums] at inRange ⊢
  exact Prod.ext (saturatingAdd_eq inRange.1) (saturatingAdd_eq inRange.2)

omit fits in
theorem PairScan.At.lanePair_eq (plain : Plain part i 8) (small : k < 8)
    (here : part[i + k]? = some rec) :
    s.lanePair ((range 8).map (nOutByte part i))
        (inclusiveTimes8 0 ((range 8).map (stridesByte part i)))
        (inclusiveTimes8 0 ((range 8).map (nOutByte part i))) k =
      rec.pairAt (pos start len part (i + k)) := by
  have inside := (List.getElem?_eq_some_iff.mp here).1
  have valid := window.valid rec (List.mem_of_getElem? here)
  obtain ⟨first, second⟩ := byteAt_slots here
  obtain ⟨strides, nOut⟩ := plain k small rec here
  have previous (byte : Nat → UInt8) : (if k = 0 then 0 else
      (inclusiveTimes8 0 ((range 8).map byte)).getD (k - 1) 0) = sumTo byte k := by
    split_ifs with zero
    · simp [zero, sumTo]
    · rw [getD_inclusiveTimes8_range (by omega), Nat.sub_add_cancel (by omega)]
  have own (byte : Nat → UInt8) : (inclusiveTimes8 0 ((range 8).map byte)).getD k 0 =
      sumTo byte k + (byte k).toNat * 8 := by
    rw [getD_inclusiveTimes8_range small, sumTo_succ]
  have count : ((range 8).map (nOutByte part i)).getD k 0 = lowByte rec.nOut := by
    rw [getD_eq_getElem?_getD, getElem?_map, getElem?_range small]
    exact second
  have sums := scan.laneSums window inside.le fun j lt => plain j (by omega)
  simp only [PairScan.lanePair, previous, own, count, Nat.add_sub_cancel_left, first, second,
    toNat_lowByte strides, toNat_lowByte nOut]
  rw [← sums, pairAt, ← valid.strides_mul]
  rfl

theorem PairScan.At.lane (inside : i + 8 ≤ part.length) :
    Ends (PairScan.At part start want jobs out (i + 8)) (Partial want jobs out)
      (s.lane (createFormat.slots part) i) := by
  have chunk {j : Nat} (small : j < 16) :
      (slice (createFormat.slots part) (i * 2) (i * 2 + 16)).byteAt j =
        (createFormat.slots part).byteAt (i * 2 + j) := byteAt_slice (by omega)
  have strides : (range 8).map (fun k =>
      (slice (createFormat.slots part) (i * 2) (i * 2 + 16)).byteAt (k * 2)) =
        (range 8).map (stridesByte part i) := by
    refine map_congr_left fun k mem => ?_
    have := mem_range.mp mem
    rw [chunk (by omega), stridesByte, add_mul]
  have counts : (range 8).map (fun k =>
      (slice (createFormat.slots part) (i * 2) (i * 2 + 16)).byteAt (k * 2 + 1)) =
        (range 8).map (nOutByte part i) := by
    refine map_congr_left fun k mem => ?_
    have := mem_range.mp mem
    rw [chunk (by omega), nOutByte, add_mul, add_assoc]
  simp only [PairScan.lane, PairScan.deinterleavePairs, strides, counts]
  split_ifs with zero
  · exact scan.partly
  · have plain : Plain part i 8 := by
      intro j small rec here
      obtain ⟨first, second⟩ := byteAt_slots here
      have none_zero := fun h => zero (any_eq_true.mpr ⟨j, mem_range.mpr small, h⟩)
      rw [chunk (by omega), chunk (by omega), ← add_assoc, ← add_mul, first, second,
        decide_eq_true_eq] at none_zero
      exact not_or.mp none_zero
    obtain ⟨done, later⟩ := scan.emit (emitLane i _) (i + 8) (fun _ => rfl)
      (fun job jobs out front before => by
        rw [emitLane, if_neg (by omega), if_neg (by omega)])
      (fun job jobs out front past => by rw [emitLane, if_neg (by omega), if_pos past])
      window.sorted fits fun job mem front before => by
        obtain ⟨rec, here, wanted⟩ := window.wanted job mem
        rw [show locWithin job.2 = i + (locWithin job.2 - i) by omega] at here wanted
        rw [wanted, ← scan.lanePair_eq window plain (by omega) here]
    refine PairScan.At.mk ?_ done later
    have sums := scan.laneSums window inside plain
    simpa only [getD_inclusiveTimes8_range (show 7 < 8 by decide)] using sums

theorem PairScan.At.lanes (inside : i + k * 8 ≤ part.length) :
    Ends (PairScan.At part start want jobs out (i + k * 8)) (Partial want jobs out)
      (lanes (createFormat.slots part) k i s) := by
  induction k generalizing i s with
  | zero => exact scan
  | succ k ih =>
    refine (scan.lane window fits (by omega)).bind fun s' scan' => ?_
    have := ih scan' (by omega)
    rwa [show i + 8 + k * 8 = i + (k + 1) * 8 by omega] at this

end

omit fits in
theorem PairScan.At.finished (scan : s.At part start want jobs out part.length) :
    Emits want jobs out s.out := by
  obtain ⟨done, split, emits⟩ := scan.done
  have none_left : s.jobs = [] := by
    refine eq_nil_iff_forall_not_mem.mpr fun job mem => ?_
    obtain ⟨rec, here, -⟩ := window.wanted job ((scan.left window).1 job mem)
    have := (List.getElem?_eq_some_iff.mp here).1
    have := scan.ahead job mem
    omega
  rw [none_left, append_nil] at split
  rwa [split]

omit window fits in
theorem at_start (part : List CreateLocAppend) (start : Nat × Nat) (want : CreateAnswers)
    (jobs : List LocJob) (out : CreateAnswers) :
    PairScan.At part start want jobs out 0 ⟨start.1, start.2, jobs, out⟩ where
  sums := (pos_zero ..).symm
  done := ⟨[], rfl, emits_nil want out⟩
  ahead _ _ := Nat.zero_le _

theorem extractPairsNoOvf_spec (winFirst : Nat) :
    Ends (Emits want jobs out) (Partial want jobs out)
      (extractPairsNoOvf ⟨jobs, winFirst, part.length, start.1, start.2⟩ (createFormat.slots part)
        out) := by
  have reads {s : PairScan} {i : Nat} {rec : CreateLocAppend}
      (scan : s.At part start want jobs out i) (here : part[i]? = some rec) :
      Ends (· = (rec.rowOf.strides.toNat, rec.nOut.toNat)) (Partial want jobs out)
        (readPlain (createFormat.slots part) s i) := by
    obtain ⟨first, second⟩ := byteAt_slots here
    simp only [readPlain, first, second]
    split_ifs with overflow
    · exact scan.partly
    · obtain ⟨strides, nOut⟩ := not_or.mp overflow
      rw [toNat_lowByte strides, toNat_lowByte nOut]
      rfl
  have eights := (at_start part start want jobs out).lanes window fits (k := part.length / 8)
    (by omega)
  refine eights.bind fun s scan => ?_
  rw [zero_add] at scan
  refine (scan.slots window fits reads (k := part.length % 8) (by omega)).bind fun s' last => ?_
  rw [show part.length / 8 * 8 + part.length % 8 = part.length by omega] at last
  exact last.finished window

end Scan

theorem ovfBetween_subset (l : List (Nat × CreateRow)) (first last : Nat) :
    ovfBetween l first last ⊆ l :=
  fun _ inside => mem_of_mem_take (mem_of_mem_drop inside)

theorem mem_ovfBetween {l : List (Nat × CreateRow)} (sorted : l.Pairwise fun x y => x.1 < y.1)
    {x : Nat × CreateRow} (mem : x ∈ l) {first last : Nat} (above : first ≤ x.1)
    (below : x.1 ≤ last) : x ∈ ovfBetween l first last := by
  obtain ⟨j, inside, rfl⟩ := getElem_of_mem mem
  have low : lowerBound Prod.fst l first ≤ j := by
    by_contra early
    have := rank_lt_of_lt_lowerBound (not_le.mp early) inside
    omega
  have high : j < lowerBound Prod.fst l (last + 1) := by
    by_contra late
    have := le_rank_of_lowerBound_le sorted (not_lt.mp late) inside
    omega
  simp only [lowerBound, Nat.lt_succ_iff] at low high
  refine mem_of_getElem? (i := j - (l.takeWhile fun row => row.1 < first).length) ?_
  rw [ovfBetween, getElem?_drop, Nat.add_sub_cancel' low, getElem?_take_of_lt high,
    getElem?_eq_getElem inside]

open CreateLoc

section Window

variable {recs : List CreateLocAppend} {w n : Nat}

theorem ovfLookupPair_eq {i : Nat} (small : i < n) (here : recs[w * locWindow + i]? = some rec)
    (overflows : rec.rowOf.overflows) :
    ovfLookupPair (ovfBetween (createFormat.ovfOf recs) (w * locWindow + 1)
      (w * locWindow + 1 + n - 1)) (w * locWindow + 1 + i) = .ok rec.rowOf := by
  have mem := mem_ovfBetween (createFormat.pairwise_ovfOf recs)
    (createFormat.mem_ovfOf_of_overflows here overflows)
    (show w * locWindow + 1 ≤ w * locWindow + i + 1 by omega)
    (show w * locWindow + i + 1 ≤ w * locWindow + 1 + n - 1 by omega)
  have found := createFormat.find?_ovfOf here (ovfBetween_subset ..) mem
  rw [ovfLookupPair, show w * locWindow + 1 + i = w * locWindow + i + 1 by omega, found]
  rfl

theorem decodeCreatePair_eq {i : Nat} (here : (windowPart recs w n)[i]? = some rec) :
    decodeCreatePair ((createFormat.slots (windowPart recs w n)).byteAt (i * 2))
        ((createFormat.slots (windowPart recs w n)).byteAt (i * 2 + 1)) (w * locWindow + 1 + i)
        (ovfBetween (createFormat.ovfOf recs) (w * locWindow + 1) (w * locWindow + 1 + n - 1)) =
      .ok (rec.rowOf.strides.toNat, rec.nOut.toNat) := by
  obtain ⟨first, second⟩ := byteAt_slots here
  have small : i < n := by
    have := (List.getElem?_eq_some_iff.mp here).1
    rw [windowPart, List.length_take] at this
    omega
  rw [decodeCreatePair, first, second]
  split_ifs with overflow
  · rw [getElem?_windowPart small] at here
    rw [ovfLookupPair_eq small here (decide_eq_true overflow)]
    rfl
  · obtain ⟨strides, nOut⟩ := not_or.mp overflow
    rw [toNat_lowByte strides, toNat_lowByte nOut]

section Extract

variable {start : Nat × Nat} {want out : CreateAnswers} {jobs : List LocJob}
  (window : PairWindow (windowPart recs w n) start want jobs) (fits : out.length = want.length)
  (inside : w * locWindow + n ≤ recs.length)
include window fits inside

theorem extractPairsOvf_spec :
    ∃ out', extractPairsOvf ⟨jobs, w * locWindow + 1, n, start.1, start.2⟩
        (createFormat.slots (windowPart recs w n)) (createFormat.ovfOf recs) out = .ok out' ∧
      Emits want jobs out out' := by
  refine Ends.ok ?_
  rw [extractPairsOvf]
  refine ((at_start _ start want jobs out).slots window fits ?_ ?_).bind fun s scan => ?_
  · intro s i rec _ here
    rw [decodeCreatePair_eq here]
    rfl
  · rw [length_windowPart inside, zero_add]
  · rw [zero_add] at scan
    exact PairScan.At.finished window (by rwa [length_windowPart inside])

theorem extractWinPairs_spec {L : CreateLoc} (rows : L.ovfRows = createFormat.ovfOf recs) :
    ∃ out', extractWinPairs L out (⟨jobs, w * locWindow + 1, n, start.1, start.2⟩,
        createFormat.slots (windowPart recs w n)) = .ok out' ∧ Emits want jobs out out' := by
  have length := length_windowPart inside
  have plain := extractPairsNoOvf_spec window fits (w * locWindow + 1)
  rw [length] at plain
  rw [extractWinPairs]
  generalize extractPairsNoOvf _ _ out = scanned at plain
  cases scanned with
  | ok out' => exact ⟨out', rfl, plain⟩
  | error e =>
    obtain ⟨done, sub, emits⟩ := plain
    obtain ⟨out', run, all⟩ := extractPairsOvf_spec window (emits.length.trans fits) inside
    rw [rows]
    exact ⟨out', run, emits.absorb sub all⟩

end Extract

end Window

def CreateLocAppend.rangeOf (recs : List CreateLocAppend) (fk : Nat) : Option CreateLocPair :=
  if fk = 0 then none
  else recs[fk - 1]?.map fun rec =>
    ⟨(rec.txoutStart, rec.txoutLen), (rec.spentStart, rec.spentLen), rec.nOut.toNat⟩

section Batch

variable {L : CreateLoc} {recs : List CreateLocAppend} (held : L.Holds createFormat recs)
include held

def Planned (recs : List CreateLocAppend) (fks : List Nat) (jobs : List LocJob) (win : LocWinRead) :
    Prop :=
  ∃ w n, w * locWindow + n ≤ recs.length ∧
    win = ⟨jobs, w * locWindow + 1, n, (createFormat.posOf recs (w * locWindow)).1,
      (createFormat.posOf recs (w * locWindow)).2⟩ ∧
    PairWindow (windowPart recs w n) (createFormat.posOf recs (w * locWindow))
      (fks.map (rangeOf recs)) jobs

theorem pairWindow_of_group {fks : List Nat} {jobs : List LocJob} {w n : Nat}
    (group : Group fks L.count w jobs) (reached : ∀ job ∈ jobs, job.2 ≤ w * locWindow + n)
    (inside : w * locWindow + n ≤ recs.length) :
    PairWindow (windowPart recs w n) (createFormat.posOf recs (w * locWindow))
      (fks.map (rangeOf recs)) jobs := by
  have position {k : Nat} (small : k ≤ n) :
      pos (createFormat.posOf recs (w * locWindow)) len (windowPart recs w n) k =
        createFormat.posOf recs (w * locWindow + k) := pos_windowPart _ _ recs w small
  refine ⟨fun rec mem => ?_, ?_, ?_, fun job mem => ?_⟩
  · exact held.contiguous.valid rec (mem_of_mem_drop (mem_of_mem_take mem))
  · rw [length_windowPart inside, position (le_refl n)]
    exact LocFormat.inRange_pos held.contiguous.inRange inside le_rfl
  · refine group.sorted.imp_of_mem fun {a b} ha hb le => ?_
    have := group.number ha
    have := group.number hb
    omega
  · have here := group.number mem
    have small : locWithin job.2 < n := by
      have := reached job mem
      omega
    have at_place : recs[w * locWindow + locWithin job.2]? =
        some recs[w * locWindow + locWithin job.2] := getElem?_eq_getElem (by omega)
    refine ⟨_, (getElem?_windowPart small).trans at_place, ?_⟩
    rw [getElem?_map, group.request job mem, position small.le, ← held.contiguous.starts at_place,
      Option.map_some, rangeOf, if_neg (group.positive job mem).ne',
      show job.2 - 1 = w * locWindow + locWithin job.2 by omega, at_place]
    rfl

theorem planWindow_spec {fks : List Nat} {jobs : List LocJob}
    (mem : jobs ∈ windowJobs (locJobs L.count fks)) :
    ∃ win, planWindow L jobs = .ok (some win) ∧ Planned recs fks jobs win := by
  obtain ⟨first, head, group⟩ := group_of_mem_windowJobs mem
  obtain ⟨last, at_end, last_mem, highest⟩ : ∃ last, jobs.getLast? = some last ∧ last ∈ jobs ∧
      ∀ job ∈ jobs, job.2 ≤ last.2 :=
    ⟨_, getLast?_eq_some_getLast group.ne_nil, getLast_mem _,
      fun job mem => group.sorted.rel_getLast_of_rel_getLast_getLast mem le_rfl⟩
  have counted : last.2 ≤ recs.length := held.count ▸ group.inside last last_mem
  have bounds := group.bounds last_mem
  rw [Nat.succ_mul] at bounds
  have need : locWindowNeedN last.2 (locWindowOf first.2 * locWindow + 1)
      (min ((locWindowOf first.2 + 1) * locWindow) L.count) =
        last.2 - locWindowOf first.2 * locWindow := by
    rw [locWindowNeedN, held.count, Nat.succ_mul, if_neg (by omega)]
    omega
  have named : ¬L.loc.published < slotLen * (locWindowOf first.2 * locWindow + 1 - 1) +
        (last.2 - locWindowOf first.2 * locWindow) * 2 := by
    rw [held.loc.published, createFormat.length_slots, slotLen]
    omega
  refine ⟨_, ?_, locWindowOf first.2, last.2 - locWindowOf first.2 * locWindow, by omega, rfl,
    pairWindow_of_group held group (fun job hjob => ?_) (by omega)⟩
  · simp only [planWindow, head, at_end, need]
    have start := windowStart_eq held "invariant: create.off checkpoint"
      (show locWindowOf first.2 * locWindow < recs.length by omega)
    change windowStart (fileHeaderLen, fileHeaderLen) _ L.checkpoints _ = _ at start
    rw [if_neg (by omega), start, rejectIf_neg named]
    rfl
  · have := highest job hjob
    omega

theorem planRangeBatch_spec (fks : List Nat) : ∃ windows, planRangeBatch L fks = .ok windows ∧
      windows.flatMap LocWinRead.jobs = locJobs L.count fks ∧
      ∀ win ∈ windows, Planned recs fks win.jobs win := by
  have each : ∀ part ∈ windowJobs (locJobs L.count fks), ∃ win?,
      planWindow L part = .ok win? ∧ win?.elim [] LocWinRead.jobs = part ∧
        ∃ win, win? = some win ∧ Planned recs fks win.jobs win := by
    intro part mem
    obtain ⟨_, run, w, n, inside, rfl, window⟩ := planWindow_spec held mem
    exact ⟨_, run, rfl, _, rfl, w, n, inside, rfl, window⟩
  obtain ⟨planned, plan, jobs, all⟩ := mapM_windowJobs each
  refine ⟨planned.filterMap id, by rw [planRangeBatch, plan]; rfl, ?_, fun win mem => ?_⟩
  · rw [← jobs]
    clear plan jobs all
    induction planned with
    | nil => rfl
    | cons win? planned ih =>
      cases win? with
      | none => exact ih
      | some win => exact congrArg (win.jobs ++ ·) ih
  · obtain ⟨_, listed, rfl⟩ := mem_filterMap.mp mem
    obtain ⟨_, same, good⟩ := all _ listed
    cases same
    exact good

theorem rangeBatch_eq (fks : List Nat) : rangeBatch L fks = .ok (fks.map (rangeOf recs)) := by
  obtain ⟨windows, plan, jobs, all⟩ := planRangeBatch_spec held fks
  have long : ∀ win ∈ windows,
      slotLen * (win.winFirst - 1) + win.n * 2 ≤ (createFormat.slots recs).length := by
    intro win mem
    obtain ⟨w, n, inside, shape, -⟩ := all win mem
    rw [createFormat.length_slots, slotLen, shape]
    dsimp only
    omega
  have named : ¬∃ win ∈ windows, L.loc.published < slotLen * (win.winFirst - 1) + win.n * 2 := by
    rintro ⟨win, mem, past⟩
    rw [held.loc.published] at past
    exact absurd (long win mem) (not_le.mpr past)
  have reads : ∀ win ∈ windows, (do
      let buf ← L.loc.preadAll (slotLen * (win.winFirst - 1)) (win.n * 2)
      return (win, buf)) = (.ok (win, createFormat.slots
        ((recs.drop (win.winFirst - 1)).take win.n)) : Result (LocWinRead × Bytes)) := by
    intro win mem
    rw [held.loc.preadAll (long win mem), createFormat.slice_slots_take]
    rfl
  rw [rangeBatch, plan, ok_bind, preadWindows, rejectIf_neg named, mapM_ok reads]
  refine foldlM_windows rfl (·.1.jobs) (by rw [flatMap_map, jobs, held.count])
    fun x mem out fits => ?_
  obtain ⟨win, listed, rfl⟩ := mem_map.mp mem
  obtain ⟨w, n, inside, shape, window⟩ := all win listed
  rw [shape]
  exact extractWinPairs_spec window fits inside held.ovfRows

end Batch

theorem createFormat_starts : createFormat.InRange createFormat.origin :=
  ⟨by decide, by decide⟩

/-- **The create locator.** After any run of contiguous appends and truncations, a batch of
numbers, in any order, repeated, null or past the end, is answered with what the creates were
appended with. -/
theorem rangeBatch_of_run (ops : List (LocOp CreateLocAppend))
    (contiguous : Run.AllMeet LocOp.apply createFormat.Admits [] ops) :
    ∃ L : CreateLoc, ops.foldlM createFormat.step LocCode.create = .ok L ∧
      ∀ fks, CreateLoc.rangeBatch L fks =
        .ok (fks.map (rangeOf (ops.foldl LocOp.apply []))) := by
  obtain ⟨L, run, held⟩ := (Locator.holds_create createFormat_starts).run contiguous
  exact ⟨L, run, rangeBatch_eq held⟩

/-- A create of two outputs, one that overflows and is cut off again, and one in its place. -/
def sampleCreates : List (LocOp CreateLocAppend) :=
  [.append [⟨16, 24, 16, 2⟩, ⟨40, 4096, 32, 300⟩], .truncate 1, .append [⟨40, 8, 32, 1⟩]]

theorem contiguous_first : createFormat.Contiguous [⟨16, 24, 16, 2⟩] :=
  (LocFormat.contiguous_nil createFormat_starts).snoc ⟨by decide, by decide, by decide, by decide⟩
    (by decide) ⟨by decide, by decide⟩

theorem contiguous_sample : createFormat.Contiguous [⟨16, 24, 16, 2⟩, ⟨40, 4096, 32, 300⟩] :=
  contiguous_first.snoc ⟨by decide, by decide, by decide, by decide⟩ (by decide)
    ⟨by decide, by decide⟩

theorem rangeBatch_of_run_sample : ∃ L : CreateLoc,
    sampleCreates.foldlM createFormat.step LocCode.create = .ok L ∧
      CreateLoc.rangeBatch L [2, 0, 1, 2, 7] = .ok [some ⟨(40, 8), (32, 8), 1⟩, none,
        some ⟨(16, 24), (16, 16), 2⟩, some ⟨(40, 8), (32, 8), 1⟩, none] := by
  have other : createFormat.Contiguous [⟨16, 24, 16, 2⟩, ⟨40, 8, 32, 1⟩] :=
    contiguous_first.snoc ⟨by decide, by decide, by decide, by decide⟩ (by decide)
      ⟨by decide, by decide⟩
  obtain ⟨L, run, ranges⟩ := rangeBatch_of_run sampleCreates
    ⟨contiguous_sample, (by decide : 1 ≤ 2), other, trivial⟩
  exact ⟨L, run, ranges [2, 0, 1, 2, 7]⟩

end Rbitcoin.Store
