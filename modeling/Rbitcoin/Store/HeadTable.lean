import Rbitcoin.Store.Mphf
import Rbitcoin.Store.OpenAddress
import Rbitcoin.Store.SortedHead

/-! The heads of the script-hash index: shards sealed at the start, a table that takes new keys, the
sealed heads that it becomes when it is full, and the one head that the first eight of these are
merged into. A batch of upserts is routed by the homes that its keys had before it. The files of the
overflow directory are part of the state, and an operation that fails keeps what it has written. -/

namespace Rbitcoin.Store

open Bytes Outcome

/-- The merged head and its filter. -/
structure OvfL1 where
  path : Name
  head : MphfHead
  fuse : SealedFuse8
  deriving DecidableEq, Repr

/-- Where a key has its value. -/
inductive KeyHome
  | ingest
  | sealedOvf
  | main
  | absent
  deriving DecidableEq, Repr

/-- The heads of the script-hash index in their tiers. -/
structure HeadTable where
  dir : Dir
  ingest : ScriptHashHead
  sealedOvf : List SortedHead
  ovfL1 : Option OvfL1
  sortedMain : List (Option MphfHead)
  /-- The slots of a new ingest table. -/
  ingestSlots : Nat

abbrev Upsert := ShHeadKey × ShHeadValue

/-- The shard of a key, by the high bits of its first byte; the number of shards is a power of
two. -/
def prefixShardOf (key : ShHeadKey) (shards : Nat) : Nat :=
  if shards ≤ 1 then 0 else (key.bytes.headD 0).toNat >>> (8 - Nat.log2 shards)

namespace HeadTable

def sealedOvfCompactFiles : Nat := 8

variable (F : FuseFloats) (t : HeadTable) (key : ShHeadKey)

def shardIndex : Nat := prefixShardOf key t.sortedMain.length

def mainGet : Result (Option ShHeadValue) :=
  match t.sortedMain[t.shardIndex key]? with
  | some (some head) => head.get key
  | _ => .ok none

def l1Get : Result (Option ShHeadValue) :=
  match t.ovfL1 with
  | none => .ok none
  | some l1 => if l1.fuse.contains t.dir (mixKey16 key) then l1.head.get key else .ok none

def sealedGet (dir : Dir) (key : ShHeadKey) : List SortedHead → Result (Option ShHeadValue)
  | [] => .ok none
  | head :: heads => do
    match ← head.get dir key with
    | some v => return some v
    | none => sealedGet dir key heads

/-- The overflow first, then the main shards. -/
def locateHead : Result (Option (ShHeadValue × KeyHome)) := do
  if let some v ← t.ingest.get key then return some (v, .ingest)
  if let some v ← sealedGet t.dir key t.sealedOvf.reverse then return some (v, .sealedOvf)
  if let some v ← t.l1Get key then return some (v, .sealedOvf)
  if let some v ← t.mainGet key then return some (v, .main)
  return none

def keyHome : Result KeyHome := do
  return ((← t.locateHead key).map Prod.snd).getD .absent

/-- The records of some heads, one head after the other. -/
def mergedRecs (dir : Dir) : List SortedHead → Result (List (ShHeadKey × UInt64))
  | [] => .ok []
  | head :: heads => do
    let vals ← head.forEachOccupied dir
    let recs ← vals.mapM fun x => do return (x.1, ← pack8Bytes x.2)
    return recs ++ (← mergedRecs dir heads)

def byKey (recs : List (ShHeadKey × UInt64)) : List (ShHeadKey × UInt64) :=
  recs.insertionSort fun a b => a.1.rank ≤ b.1.rank

/-- One more than the greatest number among the names. -/
def nextOvfId : Nat :=
  min (((t.sealedOvf.filterMap fun h => parseU32 h.path).foldl max 0) + 1) (2 ^ 32 - 1)

def removeHead (dir : Dir) (head : SortedHead) : Dir :=
  ((dir.remove head.path).remove (sidecar head.path .idx)).remove (sidecar head.path .fuse8)

def l1FuseKeys (recs : List (ShHeadKey × UInt64)) : List UInt64 :=
  ((mix64Keys recs).insertionSort fun a b => a.toNat ≤ b.toNat).dedup

/-- Write the merged head; the heads that it is made of are dropped once it is installed. -/
def writeL1 (path : Name) (recs : List (ShHeadKey × UInt64)) : HeadTable × Result Unit :=
  match MphfHead.writePack8 recs with
  | .error e => (t, .error e)
  | .ok head =>
    let dir := (t.dir.put (sidecar path .mphf) (.mphf head.mphfFile)).put (sidecar path .val)
      (.val head.valFile)
    match SealedFuse8.build F (l1FuseKeys recs) with
    | .error e => ({ t with dir }, .error e)
    | .ok f =>
      let dir := dir.put (sidecar path .fuse8) (.fuse f)
      match SealedFuse8.readFrom dir (sidecar path .fuse8) with
      | .error e => ({ t with dir }, .error e)
      | .ok fuse =>
        ({ t with
            dir := t.sealedOvf.foldl removeHead dir
            sealedOvf := []
            ovfL1 := some ⟨path, head, fuse⟩ }, .ok ())

def compactSealedOvf : HeadTable × Result Unit :=
  if t.ovfL1.isSome ∨ t.sealedOvf.length < 2 then (t, .ok ())
  else
    match mergedRecs t.dir t.sealedOvf with
    | .error e => (t, .error e)
    | .ok recs =>
      if (byKey recs).IsChain fun a b => a.1 ≠ b.1 then
        t.writeL1 F (sealedOvfPath t.nextOvfId) (byKey recs)
      else (t, corrupt "invariant: sealed ovf compact saw a dual-home key")

def maybeCompactSealedOvf : HeadTable × Result Unit :=
  if t.ovfL1.isSome = false ∧ sealedOvfCompactFiles ≤ t.sealedOvf.length then t.compactSealedOvf F
  else (t, .ok ())

def sealRecs : Result (List (ShHeadKey × UInt64)) := do
  (← t.ingest.forEachOccupied).mapM fun x => do return (x.1, ← pack8Bytes x.2)

def sealPath : Name := sealedOvfPath (t.sealedOvf.length % 2 ^ 32)

/-- The table after a new head has joined the sealed ones and ingest has been created again. -/
def withSealed (dir : Dir) (head : SortedHead) : HeadTable :=
  { t with dir, sealedOvf := t.sealedOvf ++ [head], ingest := .createWithSlots t.ingestSlots }

def sealIngest : HeadTable × Result Unit :=
  match t.sealRecs with
  | .error e => (t, .error e)
  | .ok recs =>
    if recs = [] then (t, .ok ())
    else
      match t.dir.lookup t.sealPath with
      | none | some (.sorted _) =>
        match SortedHead.write F t.dir t.sealPath (byKey recs) with
        | (dir, .error e) => ({ t with dir }, .error e)
        | (dir, .ok head) => (t.withSealed dir head).maybeCompactSealedOvf F
      | some _ => (t, corrupt "scripthash.ovf: seal path occupied by non-sorted segment")

def maybeSealIngest : HeadTable × Result Unit :=
  if t.ingest.atSealLoad then t.sealIngest F else (t, .ok ())

/-- Chunks as large as the room before the next seal. A loop that seals an ingest table without
values would not end; it is given a round for each upsert and for each seal between two. -/
def ingestLoop : Nat → HeadTable → List Upsert → HeadTable × Result Unit
  | 0, t, _ => (t, corrupt "loop")
  | rounds + 1, t, ups =>
    if ups = [] then (t, .ok ())
    else if t.ingest.roomBeforeSeal = 0 then
      match t.sealIngest F with
      | (t, .error e) => (t, .error e)
      | (t, .ok ()) => ingestLoop rounds t ups
    else
      let n := min t.ingest.roomBeforeSeal ups.length
      match t.ingest.insertMany (ups.take n) with
      | (ingest, .error e) => ({ t with ingest }, .error e)
      | (ingest, .ok ()) =>
        match { t with ingest }.maybeSealIngest F with
        | (t, .error e) => (t, .error e)
        | (t, .ok ()) => ingestLoop rounds t (ups.drop n)

def ingestInsertMany (ups : List Upsert) : HeadTable × Result Unit :=
  ingestLoop F (2 * ups.length + 2) t ups

/-- An update of the main shard of a key, and whether the key was there. -/
def mainUpdate (u : Upsert) : Result (HeadTable × Bool) :=
  match t.sortedMain[t.shardIndex u.1]? with
  | some (some head) => do
    let (head, hit) ← head.updateValue u.1 u.2
    return ({ t with sortedMain := t.sortedMain.set (t.shardIndex u.1) (some head) }, hit)
  | _ => .ok (t, false)

/-- An update of the first of some heads that has the key. -/
def sealedUpdate (dir : Dir) (u : Upsert) : List SortedHead → Result (Dir × Bool)
  | [] => .ok (dir, false)
  | head :: heads => do
    let (dir, hit) ← head.updateValue dir u.1 u.2
    if hit then return (dir, true) else sealedUpdate dir u heads

/-- The words of the merged head are in a file of the directory. -/
def l1Update (u : Upsert) : Result (HeadTable × Bool) :=
  match t.ovfL1 with
  | none => .ok (t, false)
  | some l1 => do
    let (head, hit) ← l1.head.updateValue u.1 u.2
    return ({ t with
      dir := if hit then t.dir.put (sidecar l1.path .val) (.val head.valFile) else t.dir
      ovfL1 := some { l1 with head } }, hit)

/-- The main upserts are made; the others are sorted by where they go. -/
def routeUpserts : HeadTable → List (Upsert × KeyHome) → List Upsert × List Upsert →
    HeadTable × Result (List Upsert × List Upsert)
  | t, [], routed => (t, .ok routed)
  | t, (u, home) :: ups, (ingestUps, sealedUps) =>
    match home with
    | .ingest | .absent => routeUpserts t ups (ingestUps ++ [u], sealedUps)
    | .sealedOvf => routeUpserts t ups (ingestUps, sealedUps ++ [u])
    | .main =>
      match t.mainUpdate u with
      | .error e => (t, .error e)
      | .ok (t, hit) => routeUpserts t ups (if hit then ingestUps else ingestUps ++ [u], sealedUps)

def sealedMisses : HeadTable → List Upsert → HeadTable × Result (List Upsert)
  | t, [] => (t, .ok [])
  | t, u :: ups =>
    match sealedUpdate t.dir u t.sealedOvf.reverse with
    | .error e => (t, .error e)
    | .ok (dir, hit) =>
      match sealedMisses { t with dir } ups with
      | (t, .error e) => (t, .error e)
      | (t, .ok missed) => (t, .ok (if hit then missed else u :: missed))

/-- The upserts that the merged head does not take either. -/
def l1Misses : HeadTable → List Upsert → HeadTable × Result (List Upsert)
  | t, [] => (t, .ok [])
  | t, u :: ups =>
    match t.l1Update u with
    | .error e => (t, .error e)
    | .ok (t, hit) =>
      match l1Misses t ups with
      | (t, .error e) => (t, .error e)
      | (t, .ok missed) => (t, .ok (if hit then missed else u :: missed))

/-- The upserts of keys outside ingest are made there; what is left goes to ingest. -/
def updateHomes (upserts : List (Upsert × KeyHome)) : HeadTable × Result (List Upsert) :=
  match routeUpserts t upserts ([], []) with
  | (t, .error e) => (t, .error e)
  | (t, .ok (ingestUps, sealedUps)) =>
    match sealedMisses t sealedUps with
    | (t, .error e) => (t, .error e)
    | (t, .ok missed) =>
      match l1Misses t missed with
      | (t, .error e) => (t, .error e)
      | (t, .ok missed) => (t, .ok (ingestUps ++ missed))

def applyHeadUpserts (upserts : List (Upsert × KeyHome)) : HeadTable × Result Unit :=
  match t.updateHomes upserts with
  | (t, .error e) => (t, .error e)
  | (t, .ok ups) => t.ingestInsertMany F ups

def batchHomes (batch : List Upsert) : Result (List (Upsert × KeyHome)) :=
  batch.mapM fun u => do return (u, ← t.keyHome u.1)

/-- A batch: the homes of all keys are looked up before the first upsert. -/
def upsertBatch (batch : List Upsert) : HeadTable × Result Unit :=
  match t.batchHomes batch with
  | .error e => (t, .error e)
  | .ok upserts => t.applyHeadUpserts F upserts

end HeadTable

end Rbitcoin.Store
