import Rbitcoin.Lib.Numbered
import Rbitcoin.Store.TableFile

/-! Delta locators. A record of a body is found through three files: a slot of two bytes for each
record, which gives its length; a row in an overflow file for each record that a slot has no room
for; and a checkpoint after every window of records, which says where the next one starts. The
create locator and the one of `seqsigwit` differ in what a slot, a row and a position are, and run
the same code around it. -/

namespace Rbitcoin.Store

open Bytes Numbered Outcome

def idxStride : Nat := 8

def locWindow : Nat := 1024

def slotLen : Nat := 2

def stridesFromAlignedLen (len : Nat) : Result UInt32 :=
  if len = 0 ∨ len % idxStride ≠ 0 then corrupt "invariant: loc body length"
  else if 2 ^ 32 - 1 < len / idxStride then corrupt "invariant: loc strides"
  else .ok (UInt32.ofNat (len / idxStride))

theorem stridesFromAlignedLen_eq {len : Nat} (positive : 0 < len) (aligned : len % idxStride = 0)
    (small : len / idxStride < 2 ^ 32) :
    stridesFromAlignedLen len = .ok (UInt32.ofNat (len / idxStride)) := by
  rw [stridesFromAlignedLen, if_neg (by omega), if_neg (by omega)]

/-- The messages in which the locators differ. -/
structure LocTexts where
  size : String
  offSize : String
  offIndex : String
  ovfSize : String
  ovfOrder : String
  truncate : String

/-- What a locator stores of its records. -/
structure LocCode (Rec Row Pos : Type) where
  texts : LocTexts
  /-- Where the first record starts. -/
  origin : Pos
  /-- The row of a record, which is checked on the way. -/
  row : Rec → Result Row
  start : Rec → Pos
  /-- Where the record ends. -/
  next : Rec → Pos
  /-- The second record starts where the first one ends. -/
  follows : Rec → Rec → Result Unit
  /-- The slot of a row, and whether the row goes to the overflow file too. -/
  pack : Row → Result (Bytes × Bool)
  ovf : Records.Format (Nat × Row)
  off : Records.Format Pos
  /-- A row and a slot that are of one record which overflows. -/
  rowMatchesSlot : Row → Bytes → Bool

structure LocFiles where
  loc : TableFile
  ovf : TableFile
  off : TableFile

/-- The rows of records by number, with overflow rows and checkpoints. -/
structure Locator (Row Pos : Type) extends LocFiles where
  checkpoints : List Pos
  ovfRows : List (Nat × Row)
  count : Nat

/-- An append that is encoded and not written yet. -/
structure StagedLoc (Row Pos : Type) where
  base : Nat
  n : Nat
  locOff : Nat
  locBytes : Bytes
  ovfAt : Nat
  ovfBytes : Bytes
  newOvf : List (Nat × Row)
  offAt : Nat
  offBytes : Bytes
  newOffs : List (Nat × Pos)

/-- How many records `off_len` bytes of checkpoints can name: a short file keeps the last record
that does not need a missing window. -/
def checkpointFit (locCount offLen offSlot : Nat) : Option Nat :=
  if offSlot = 0 ∨ offLen % offSlot ≠ 0 then none
  else
    let nOff := offLen / offSlot
    let nNeed := locCount / locWindow
    if nNeed < nOff then none
    else if nOff = nNeed then some locCount
    else some ((nOff + 1) * locWindow - 1)

/-- The same, where a file of checkpoints that is too long keeps what the locator names. -/
def checkpointPrefix (locCount offLen offSlot : Nat) : Option Nat :=
  match checkpointFit locCount offLen offSlot with
  | some n => some n
  | none => if offSlot = 0 ∨ offLen % offSlot ≠ 0 then none else some locCount

theorem checkpointPrefix_spec {n c width : Nat} (positive : 0 < width) (inside : c ≤ n) :
    ∃ k, checkpointPrefix n (width * (c / locWindow)) width = some k ∧ c ≤ k ∧ k ≤ n ∧
      k / locWindow = c / locWindow ∧ (c = n → k = n) := by
  have whole : ¬(width = 0 ∨ width * (c / locWindow) % width ≠ 0) := by
    rw [Nat.mul_mod_right]
    omega
  have fewer : c / locWindow ≤ n / locWindow := Nat.div_le_div_right inside
  rw [checkpointPrefix, checkpointFit, if_neg whole, Nat.mul_div_cancel_left _ positive,
    if_neg (not_lt.mpr fewer)]
  by_cases same : c / locWindow = n / locWindow
  · rw [if_pos same]
    exact ⟨n, rfl, inside, le_refl n, same.symm, fun _ => rfl⟩
  · rw [if_neg same]
    refine ⟨_, rfl, ?_⟩
    unfold locWindow at *
    omega

namespace LocCode

variable {Rec Row Pos : Type} (C : LocCode Rec Row Pos)

def create : Locator Row Pos :=
  ⟨⟨.create .tight1MiB, .create .tight1MiB, .create .tight1MiB⟩, [], [], 0⟩

/-- The check against the next record of a batch, if there is one. -/
def checkNext (rec : Rec) : List Rec → Result Unit
  | [] => .ok ()
  | after :: _ => C.follows rec after

/-- The loop of `stage` over the records that come after `k` others. -/
def stageFrom : Nat → List Rec → Result (Bytes × List (Nat × Row) × List (Nat × Pos))
  | _, [] => .ok ([], [], [])
  | k, rec :: rest => do
    let fk := k + 1
    let row ← C.row rec
    C.checkNext rec rest
    let (slot, overflows) ← C.pack row
    let (locBytes, newOvf, newOffs) ← stageFrom (k + 1) rest
    return (slot ++ locBytes, if overflows then (fk, row) :: newOvf else newOvf,
      if fk % locWindow = 0 then (fk / locWindow - 1, C.next rec) :: newOffs else newOffs)

variable (L : Locator Row Pos)

def stage (recs : List Rec) : Result (StagedLoc Row Pos) := do
  let (locBytes, newOvf, newOffs) ← C.stageFrom L.count recs
  return {
    base := L.count
    n := recs.length
    locOff := slotLen * L.count
    locBytes := locBytes
    ovfAt := L.ovf.published
    ovfBytes := newOvf.flatMap C.ovf.encode
    newOvf := newOvf
    offAt := (newOffs.head?.map fun x => C.off.width * x.1).getD 0
    offBytes := newOffs.flatMap fun x => C.off.encode x.2
    newOffs := newOffs }

variable (staged : StagedLoc Row Pos)

def writePayloads : Locator Row Pos :=
  { L with
    loc := L.loc.writeUncommitted staged.locOff staged.locBytes
    ovf := L.ovf.writeUncommitted staged.ovfAt staged.ovfBytes
    off := L.off.writeUncommitted staged.offAt staged.offBytes }

def writeStaged : Result (Locator Row Pos) := do
  rejectIf (∃ first ∈ staged.newOvf.head?, ∃ last ∈ L.ovfRows.getLast?, first.1 ≤ last.1)
    (.corrupt C.texts.ovfOrder)
  rejectIf (∃ first ∈ staged.newOffs.head?, first.1 ≠ L.checkpoints.length)
    (.corrupt C.texts.offIndex)
  return writePayloads L staged

/-- The headers, and what is kept in memory. -/
def commitStaged : Locator Row Pos where
  loc := L.loc.publishEnd (staged.locOff + staged.locBytes.length)
  ovf := if staged.ovfBytes = [] then L.ovf
    else L.ovf.publishEnd (staged.ovfAt + staged.ovfBytes.length)
  off := if staged.offBytes = [] then L.off
    else L.off.publishEnd (staged.offAt + staged.offBytes.length)
  ovfRows := if staged.ovfBytes = [] then L.ovfRows else L.ovfRows ++ staged.newOvf
  checkpoints := if staged.offBytes = [] then L.checkpoints
    else L.checkpoints ++ staged.newOffs.map Prod.snd
  count := staged.base + staged.n

def append (recs : List Rec) : Result (Locator Row Pos) :=
  if recs = [] then .ok L
  else do
    let staged ← C.stage L recs
    let L ← C.writeStaged L staged
    return commitStaged L staged

/-- The checkpoints and the overflow rows never outlive the slots. -/
def fitOffAndOvf (newCount : Nat) : Locator Row Pos :=
  let kept := L.ovfRows.filter fun row => row.1 ≤ newCount
  { L with
    off := L.off.fit (C.off.width * (newCount / locWindow))
    ovf := L.ovf.fit (C.ovf.width * kept.length)
    ovfRows := kept }

def truncateToCount (newCount : Nat) : Result (Locator Row Pos) :=
  if L.count < newCount then corrupt C.texts.truncate
  else
    let cut := C.fitOffAndOvf L newCount
    if newCount = L.count then .ok cut
    else .ok { cut with
      loc := cut.loc.setLogicalLen (slotLen * newCount)
      checkpoints := cut.checkpoints.take (newCount / locWindow)
      count := newCount }

def checkOvfOrder : Nat → List (Nat × Row) → Result Unit
  | _, [] => .ok ()
  | prev, (fk, _) :: rows =>
    if fk = 0 ∨ prev ≠ 0 ∧ fk ≤ prev then corrupt C.texts.ovfOrder else checkOvfOrder fk rows

def loadOvf (ovf : TableFile) : Result (List (Nat × Row)) := do
  rejectIf (ovf.published % C.ovf.width ≠ 0) (.corrupt C.texts.ovfSize)
  let bytes ← ovf.readAt 0 ovf.published
  let rows := C.ovf.readAll bytes
  C.checkOvfOrder 0 rows
  return rows

/-- The count before a record whose overflow row was written, but not named by the header. -/
def cutForOvfRow (loc : TableFile) (count lastOvf : Nat) (bytes : Bytes) :
    Result (Option Nat) :=
  let (fk, row) := C.ovf.decode bytes
  if fk = 0 ∨ fk ≤ lastOvf ∨ count < fk then .ok none
  else do
    let slot ← loc.readAt (slotLen * (fk - 1)) slotLen
    return if C.rowMatchesSlot row slot then some (fk - 1) else none

/-- The next overflow row, if it is there, stands at the end that the header names. -/
def unresolvedOvfCut (loc ovf : TableFile) (count lastOvf : Nat) : Result (Option Nat) :=
  if count ≤ lastOvf then .ok none
  else
    match ovf.preadAll ovf.published C.ovf.width with
    | .error _ => .ok none
    | .ok bytes => C.cutForOvfRow loc count lastOvf bytes

/-- The end of `open`: a row past the overflow header belongs to a record that is not named. -/
def cutUnresolved : Result (Locator Row Pos) := do
  let lastOvf := (L.ovfRows.getLast?.map Prod.fst).getD 0
  match ← C.unresolvedOvfCut L.loc L.ovf L.count lastOvf with
  | some cut => C.truncateToCount L cut
  | none => return L

def openFiles (files : LocFiles) : Result (Locator Row Pos) := do
  let loc := files.loc.reopen
  let ovf := files.ovf.reopen
  let off := files.off.reopen
  rejectIf (loc.published % slotLen ≠ 0) (.corrupt C.texts.size)
  let full := loc.published / slotLen
  match checkpointPrefix full off.published C.off.width with
  | none => corrupt C.texts.offSize
  | some count =>
    let bytes ← off.readAt 0 (C.off.width * (count / locWindow))
    let ovfRows ← C.loadOvf ovf
    let opened ← C.truncateToCount ⟨⟨loc, ovf, off⟩, C.off.readAll bytes, ovfRows, full⟩ count
    C.cutUnresolved opened

end LocCode

end Rbitcoin.Store
