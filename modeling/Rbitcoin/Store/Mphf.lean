import Rbitcoin.Lib.Run
import Rbitcoin.Store.BdzFile
import Rbitcoin.Store.Words

/-! A sealed shard of script-hash heads: a minimal perfect hash over 64-bit folds of the keys, the
fold of each member as a tag in its slot, and the words of the values in a file of their own.

A head is an exact map on folds. It is one on keys as far as the fold tells them apart. -/

namespace Rbitcoin.Store

open BdzMphf Bytes Outcome List Option Prod

/-- A head of sealed keys behind a minimal perfect hash. -/
structure MphfHead where
  mphfFile : Bytes
  valFile : Bytes
  mphf : BdzMphf
  tagsOff : Nat
  deriving DecidableEq, Repr

def mix64Keys (recs : List (ShHeadKey × UInt64)) : List UInt64 := recs.map fun r => mixKey16 r.1

namespace MphfHead

/-- Put every fold and every word in the slot of its fold. -/
def fillSlots (mphf : BdzMphf) : List (UInt64 × UInt64) → Bytes × Bytes → Result (Bytes × Bytes)
  | [], images => .ok images
  | (ku, w) :: recs, (tags, val) => do
    let slot ← mphf.index ku
    fillSlots mphf recs (tags.setWord slot ku, val.setWord slot w)

def openHead (mphfFile valFile : Bytes) : Result MphfHead := do
  let mphf ← BdzMphf.readCompactFrom mphfFile
  let tagsOff := mphf.trailerOff
  rejectIf (valFile.length ≠ mphf.n * 8) (.corrupt "sh mphf: val length")
  rejectIf (mphfFile.length ≠ tagsOff + mphf.n * 8) (.corrupt "sh mphf: tag length")
  return { mphfFile, valFile, mphf, tagsOff }

def writePack8Mixed (recs : List (ShHeadKey × UInt64)) (keys : List UInt64) : Result MphfHead := do
  let mphf ← BdzMphf.buildCompact keys
  let n := recs.length
  let (tags, val) ← fillSlots mphf (keys.zip (recs.map snd))
    (List.replicate (n * 8) 0, List.replicate (n * 8) 0)
  let staging ← mphf.writeCompactTo
  openHead (staging ++ tags) val

def writePack8 (recs : List (ShHeadKey × UInt64)) : Result MphfHead :=
  writePack8Mixed recs (mix64Keys recs)

variable (head : MphfHead)

def readVal (slot : Nat) : Result ShHeadValue := do
  let buf ← pread head.valFile (slot * 8) 8
  unpack8 (ofLe buf)

variable (key : ShHeadKey)

def slotIfPresent : Result (Option Nat) :=
  if head.mphf.n = 0 then .ok none
  else do
    let ku := mixKey16 key
    let slot ← head.mphf.index ku
    let tag ← pread head.mphfFile (head.tagsOff + slot * 8) 8
    return if UInt64.ofNat (ofLe tag) ≠ ku then none else some slot

def get : Result (Option ShHeadValue) := do
  match ← head.slotIfPresent key with
  | none => return none
  | some slot => return some (← head.readVal slot)

/-- The head after the update, and whether the key was there. -/
def updateValue (value : ShHeadValue) : Result (MphfHead × Bool) := do
  match ← head.slotIfPresent key with
  | none => return (head, false)
  | some slot =>
    let w ← pack8 value
    return ({ head with valFile := head.valFile.setWord slot (UInt64.ofNat w) }, true)

end MphfHead

open Words (ofRecs ofRecs_eq_some ofRecs_eq_none isSome_set set_self set_ne)

namespace MphfHead

/-- The head holds the words of `f`, each in the slot `idx` gives its fold. -/
structure Holds (head : MphfHead) (idx : UInt64 → Nat) (f : Words UInt64) : Prop where
  slot : ∀ key, head.slotIfPresent key =
    .ok (if (f (mixKey16 key)).isSome then some (idx (mixKey16 key)) else none)
  inside : ∀ {u w}, f u = some w → idx u * 8 + 8 ≤ head.valFile.length
  word : ∀ {u w}, f u = some w → head.valFile.wordSlot (idx u) = toLe 8 w.toNat
  apart : ∀ {u u' w w'}, f u = some w → f u' = some w' → idx u = idx u' → u = u'

namespace Holds

variable {head : MphfHead} {idx : UInt64 → Nat} {f : Words UInt64} (holds : head.Holds idx f)
include holds

theorem get_eq (key : ShHeadKey) : head.get key = f.get (mixKey16 key) := by
  cases found : f (mixKey16 key) with
  | none => simp [MphfHead.get, Words.get, holds.slot, found, pure, Except.pure]
  | some w =>
    have read : pread head.valFile (idx (mixKey16 key) * 8) 8 = .ok (toLe 8 w.toNat) := by
      rw [pread_eq_ok (holds.inside found), ← holds.word found, wordSlot]
    simp [MphfHead.get, Words.get, holds.slot, found, readVal, read,
      ofLe_toLe_of_lt (k := 8) w.toNat_lt]

theorem setWord {u : UInt64} (w : UInt64) (member : (f u).isSome) :
    ({ head with valFile := head.valFile.setWord (idx u) w } : MphfHead).Holds idx (f.set u w) := by
  obtain ⟨old, hold⟩ := isSome_iff_exists.mp member
  have inside := holds.inside hold
  have known {l x : UInt64} (h : f.set u w l = some x) : ∃ y, f l = some y := by
    rw [← isSome_iff_exists, ← isSome_set w member, h]
    rfl
  refine ⟨fun key => ?_, fun h => ?_, fun {l x} h => ?_, fun h h' => ?_⟩
  · rw [isSome_set w member]
    exact holds.slot key
  · obtain ⟨y, hy⟩ := known h
    rw [setWord_length inside]
    exact holds.inside hy
  · by_cases same : l = u
    · subst same
      rw [set_self, some.injEq] at h
      rw [← h]
      exact wordSlot_setWord_self inside w
    · rw [set_ne w same] at h
      rw [← holds.word h]
      exact wordSlot_setWord_ne inside w fun slots => same (holds.apart h hold slots)
  · obtain ⟨y, hy⟩ := known h
    obtain ⟨y', hy'⟩ := known h'
    exact holds.apart hy hy'

end Holds

variable (recs : List (ShHeadKey × UInt64))

def byFold : List (UInt64 × UInt64) :=
  recs.map fun r => (mixKey16 r.1, r.2)

theorem zip_mix64Keys : (mix64Keys recs).zip (recs.map snd) = byFold recs :=
  zip_map'

theorem map_fst_byFold : (byFold recs).map fst = mix64Keys recs := by
  simp [byFold, mix64Keys]

variable {recs : List (UInt64 × UInt64)}

theorem fillSlots_length {mphf : BdzMphf} {n : Nat} (small : mphf.n - 1 < n)
    {tags val tags' val' : Bytes} (htags : tags.length = n * 8) (hval : val.length = n * 8)
    (h : fillSlots mphf recs (tags, val) = .ok (tags', val')) : val'.length = n * 8 := by
  induction recs generalizing tags val with
  | nil =>
    cases h
    exact hval
  | cons r recs ih =>
    simp only [fillSlots, bind_eq_ok] at h
    obtain ⟨slot, indexed, h⟩ := h
    have := index_le indexed
    exact ih (by rw [setWord_length (by omega), htags]) (by rw [setWord_length (by omega), hval]) h

/-- `tags` and `val` hold the records in their slots. -/
structure Filled (idx : UInt64 → Nat) (n : Nat) (recs : List (UInt64 × UInt64))
    (tags val : Bytes) : Prop where
  tags_length : tags.length = n * 8
  val_length : val.length = n * 8
  tag : ∀ r ∈ recs, tags.wordSlot (idx r.1) = toLe 8 r.1.toNat
  word : ∀ r ∈ recs, val.wordSlot (idx r.1) = toLe 8 r.2.toNat

/-- The slots are filled from the first record on, so a slot keeps what its record wrote because
no later record has that slot. -/
theorem fillSlots_filled {mphf : BdzMphf} {idx : UInt64 → Nat} {n : Nat}
    (indexed : ∀ key, mphf.index key = .ok (idx key)) (small : ∀ key, idx key < n)
    (apart : (recs.map fun r => idx r.1).Nodup) {tags val : Bytes} (htags : tags.length = n * 8)
    (hval : val.length = n * 8) :
    ∃ tags' val', fillSlots mphf recs (tags, val) = .ok (tags', val') ∧
      Filled idx n recs tags' val' ∧
      ∀ i, (∀ r ∈ recs, i ≠ idx r.1) →
        tags'.wordSlot i = tags.wordSlot i ∧ val'.wordSlot i = val.wordSlot i := by
  induction recs generalizing tags val with
  | nil => exact ⟨tags, val, rfl, ⟨htags, hval, by simp, by simp⟩, fun _ _ => ⟨rfl, rfl⟩⟩
  | cons r recs ih =>
    rw [map_cons, nodup_cons] at apart
    have tagInside : idx r.1 * 8 + 8 ≤ tags.length := by
      have := small r.1
      omega
    have valInside : idx r.1 * 8 + 8 ≤ val.length := by omega
    obtain ⟨tags', val', filled, kept, rest⟩ := ih apart.2
      ((setWord_length tagInside r.1).trans htags) ((setWord_length valInside r.2).trans hval)
    have later : ∀ x ∈ recs, idx r.1 ≠ idx x.1 := fun x hx same =>
      apart.1 (mem_map.mpr ⟨x, hx, same.symm⟩)
    refine ⟨tags', val', ?_, ⟨kept.tags_length, kept.val_length, ?_, ?_⟩, fun i other => ?_⟩
    · simp only [fillSlots, indexed, ok_bind, filled]
    · rintro x (_ | ⟨_, hx⟩)
      · rw [(rest _ later).1, wordSlot_setWord_self tagInside]
      · exact kept.tag x hx
    · rintro x (_ | ⟨_, hx⟩)
      · rw [(rest _ later).2, wordSlot_setWord_self valInside]
      · exact kept.word x hx
    · obtain ⟨htag, hword⟩ := rest i (forall_mem_cons.mp other).2
      have ne := other r mem_cons_self
      rw [htag, hword]
      exact ⟨wordSlot_setWord_ne tagInside _ ne, wordSlot_setWord_ne valInside _ ne⟩

theorem exists_of_lt {idx : UInt64 → Nat} (small : ∀ key, idx key < recs.length)
    (apart : (recs.map fun r => idx r.1).Nodup) {i : Nat} (hi : i < recs.length) :
    ∃ r ∈ recs, idx r.1 = i := by
  have sub : (recs.map fun r => idx r.1) ⊆ range recs.length := fun j hj => by
    obtain ⟨r, -, rfl⟩ := mem_map.mp hj
    exact mem_range.mpr (small _)
  have perm : (recs.map fun r => idx r.1).Perm (range recs.length) :=
    (subperm_of_subset apart sub).perm_of_length_le (by simp)
  exact mem_map.mp (perm.mem_iff.mpr (mem_range.mpr hi))

section Written

variable {head : MphfHead} {recs : List (UInt64 × UInt64)} {idx : UInt64 → Nat}
  {staging tags val : Bytes} (nodup : (recs.map fst).Nodup)
  (small : ∀ key, idx key < recs.length) (apart : (recs.map fun r => idx r.1).Nodup)
  (filled : Filled idx recs.length recs tags val)
include nodup small apart filled

/-- A head over filled slots. A key whose fold is no member's meets the tag of another fold, since
every slot has its record. -/
theorem holds_of_filled (n_eq : head.mphf.n = recs.length)
    (indexed : ∀ key, head.mphf.index key = .ok (idx key))
    (file_eq : head.mphfFile = staging ++ tags) (off_eq : head.tagsOff = staging.length)
    (val_eq : head.valFile = val) : head.Holds idx (ofRecs recs) := by
  have injOn {x y : UInt64 × UInt64} (hx : x ∈ recs) (hy : y ∈ recs) (same : idx x.1 = idx y.1) :
      x = y := inj_on_of_nodup_map apart hx hy same
  have lookup {u w : UInt64} : ofRecs recs u = some w ↔ (u, w) ∈ recs :=
    ofRecs_eq_some nodup
  refine ⟨fun key => ?_, fun {u w} h => ?_, fun h => ?_, fun h h' same => ?_⟩
  · have inside := small (mixKey16 key)
    obtain ⟨r, hr, owner⟩ := exists_of_lt small apart inside
    have tag : pread head.mphfFile (head.tagsOff + idx (mixKey16 key) * 8) 8 =
        .ok (toLe 8 r.1.toNat) := by
      have within : idx (mixKey16 key) * 8 + 8 ≤ tags.length := by
        rw [filled.tags_length]
        omega
      rw [file_eq, off_eq, pread_eq_ok (by rw [length_append]; omega), ← filled.tag r hr, owner,
        add_assoc, slice_middle (s := staging ++ tags) (t := []) (by simp) within, wordSlot]
    simp only [slotIfPresent, indexed, tag, ok_bind, ofNat_ofLe_toLe]
    rw [if_neg (by omega)]
    by_cases same : r.1 = mixKey16 key
    · have found : ofRecs recs (mixKey16 key) = some r.2 := lookup.mpr (same ▸ hr)
      simp [found, same, pure, Except.pure]
    · have missing : ofRecs recs (mixKey16 key) = none := by
        rw [ofRecs_eq_none]
        intro member
        obtain ⟨x, hx, eq⟩ := mem_map.mp member
        exact same ((congrArg fst (injOn hr hx (by rw [owner, eq]))).trans eq)
      simp [missing, same, pure, Except.pure]
  · have := small u
    rw [val_eq, filled.val_length]
    omega
  · rw [val_eq]
    exact filled.word _ (lookup.mp h)
  · exact congrArg fst (injOn (lookup.mp h) (lookup.mp h') same)

end Written

theorem writePack8_holds {recs : List (ShHeadKey × UInt64)} {b : BdzMphf} (nonempty : recs ≠ [])
    (fits : recs.length < 2 ^ 32) (success : buildCompact (mix64Keys recs) = .ok b) :
    (mix64Keys recs).Nodup ∧ ∃ head idx, writePack8 recs = .ok head ∧
      head.Holds idx (ofRecs (byFold recs)) := by
  have of : b.BuiltOf (mix64Keys recs) :=
    buildCompact_builtOf (by simpa [mix64Keys] using nonempty)
      (by simpa [mix64Keys] using fits) success
  refine ⟨of.nodup, ?_⟩
  have total (key : UInt64) : ∃ slot, b.index key = .ok slot := by
    obtain ⟨_, _, built⟩ := of.built
    exact built.index_total key
  choose idx indexed using total
  have size : (mix64Keys recs).length = (byFold recs).length := by simp [mix64Keys, byFold]
  have small (key : UInt64) : idx key < (byFold recs).length := by
    have pos : 0 < (byFold recs).length := by
      simpa [byFold] using length_pos_iff.mpr nonempty
    have := index_le (indexed key)
    rw [of.n_eq] at this
    omega
  have nodup : ((byFold recs).map fst).Nodup := map_fst_byFold recs ▸ of.nodup
  have apart : ((byFold recs).map fun r => idx r.1).Nodup := by
    refine Nodup.map_on (fun x hx y hy same => ?_) nodup.of_map
    have folds : x.1 = y.1 := by
      apply of.injOn
      · exact map_fst_byFold recs ▸ mem_map.mpr ⟨x, hx, rfl⟩
      · exact map_fst_byFold recs ▸ mem_map.mpr ⟨y, hy, rfl⟩
      · rw [indexed, indexed, same]
    exact inj_on_of_nodup_map nodup hx hy folds
  have zeros : (replicate ((byFold recs).length * 8) (0 : UInt8)).length =
      (byFold recs).length * 8 := length_replicate ..
  obtain ⟨tags, val, fill, filled, -⟩ := fillSlots_filled indexed small apart zeros zeros
  obtain ⟨staging, written, reopened⟩ := of.reopen
  obtain ⟨mphf, read, n_eq, off_eq, same⟩ := reopened tags
  refine ⟨⟨staging ++ tags, val, mphf, mphf.trailerOff⟩, idx, ?_, ?_⟩
  · have filledRecs : recs.length = (byFold recs).length := by simp [byFold]
    simp only [writePack8, writePack8Mixed, success, ok_bind, zip_mix64Keys, filledRecs, fill,
      written, openHead, read]
    rw [rejectIf_neg (by rw [filled.val_length]; omega),
      rejectIf_neg (by rw [length_append, filled.tags_length, off_eq]; omega)]
    rfl
  · exact holds_of_filled nodup small apart filled (n_eq.trans size)
      (fun key => (same key).trans (indexed key)) rfl off_eq rfl

theorem writePack8_nil : ∃ head, writePack8 [] = .ok head ∧ ∀ idx, head.Holds idx (ofRecs []) := by
  refine ⟨⟨header3 0 0 0, [], .empty, headerLen3⟩, by decide, fun idx => ?_⟩
  refine ⟨fun key => ?_, fun h => ?_, fun h => ?_, fun h => ?_⟩
  · simp [slotIfPresent, empty, ofRecs]
  all_goals simp [ofRecs] at h

theorem lt_of_openHead {mphfFile valFile : Bytes} {head : MphfHead}
    (h : openHead mphfFile valFile = .ok head) : valFile.length < 2 ^ 32 * 8 := by
  simp only [openHead, bind_eq_ok, rejectIf_eq_ok] at h
  obtain ⟨mphf, read, _, size, -⟩ := h
  have := readCompactFrom_n_lt read
  omega

theorem lt_of_writePack8 {recs : List (ShHeadKey × UInt64)} {head : MphfHead}
    (h : writePack8 recs = .ok head) : recs.length < 2 ^ 32 := by
  simp only [writePack8, writePack8Mixed, bind_eq_ok] at h
  obtain ⟨b, success, ⟨tags, val⟩, fill, staging, -, opened⟩ := h
  rcases Nat.eq_zero_or_pos recs.length with zero | pos
  · omega
  · have small := buildCompact_n_le success
    rw [mix64Keys, length_map] at small
    have size := fillSlots_length (n := recs.length) (by omega) (length_replicate ..)
      (length_replicate ..) fill
    have : val.length < 2 ^ 32 * 8 := lt_of_openHead opened
    omega

/-! ### A head as a map on keys -/

def update (head : MphfHead) (u : ShHeadKey × ShHeadValue) : MphfHead × Result Bool :=
  Run.attempt head (head.updateValue u.1 u.2)

end MphfHead

def Words.update (f : Words ShHeadKey) (u : ShHeadKey × ShHeadValue) :
    Words ShHeadKey × Result Bool :=
  Run.attempt f (f.updateValue u.1 u.2)

namespace MphfHead

/-- As far as `asked` keys go, the head is the map `m`: it is so by fold, and the fold tells the
members among them from the others. -/
structure ShowsAs (asked : ShHeadKey → Prop) (head : MphfHead) (m : Words ShHeadKey) : Prop where
  byFold : ∃ idx f, head.Holds idx f ∧ ∀ key, asked key → m key = f (mixKey16 key)
  separate : ∀ {k l}, asked k → asked l → (m k).isSome → mixKey16 k = mixKey16 l → k = l

namespace ShowsAs

variable {asked : ShHeadKey → Prop} {head : MphfHead} {m : Words ShHeadKey}
  (shows : ShowsAs asked head m)
include shows

theorem get_eq {key : ShHeadKey} (ask : asked key) : head.get key = m.get key := by
  obtain ⟨idx, f, holds, agree⟩ := shows.byFold
  rw [holds.get_eq, Words.get, Words.get, agree key ask]

theorem congr {m' : Words ShHeadKey} (same : ∀ k, asked k → m' k = m k) :
    ShowsAs asked head m' := by
  obtain ⟨idx, f, holds, agree⟩ := shows.byFold
  refine ⟨⟨idx, f, holds, fun k hk => (same k hk).trans (agree k hk)⟩, fun {k l} hk hl member => ?_⟩
  rw [same k hk] at member
  exact shows.separate hk hl member

theorem update_step {u : ShHeadKey × ShHeadValue} (ask : asked u.1) :
    ShowsAs asked (head.update u).1 (m.update u).1 ∧ (head.update u).2 = (m.update u).2 := by
  obtain ⟨idx, f, holds, agree⟩ := shows.byFold
  obtain ⟨key, value⟩ := u
  cases found : m key with
  | none =>
    have missing : f (mixKey16 key) = none := (agree key ask).symm.trans found
    simp only [update, updateValue, Words.update, Words.updateValue, holds.slot, missing, found]
    exact ⟨shows, rfl⟩
  | some old =>
    have member : f (mixKey16 key) = some old := (agree key ask).symm.trans found
    cases packed : pack8 value with
    | error e =>
      simp only [update, updateValue, Words.update, Words.updateValue, holds.slot, member, found,
        packed]
      exact ⟨shows, rfl⟩
    | ok w =>
      simp only [update, updateValue, Words.update, Words.updateValue, holds.slot, member, found,
        packed, isSome_some, if_true, ok_bind, pure, Except.pure, Run.attempt_ok]
      have isMember : (m key).isSome := by rw [found]; rfl
      refine ⟨⟨⟨idx, _, holds.setWord _ (by rw [member]; rfl), fun l hl => ?_⟩, ?_⟩, trivial⟩
      · -- another asked key with this fold would be this key
        by_cases same : l = key
        · rw [same, set_self, set_self]
        · rw [set_ne _ same, set_ne]
          · exact agree l hl
          · exact fun folds => same (shows.separate ask hl isMember folds.symm).symm
      · intro k l hk hl some_k
        rw [isSome_set _ isMember] at some_k
        exact shows.separate hk hl some_k

theorem updateValue_some {key : ShHeadKey} (ask : asked key) (member : (m key).isSome)
    {value : ShHeadValue} (storable : value.Storable) :
    ∃ head', head.updateValue key value = .ok (head', true) ∧
      ShowsAs asked head' (m.set key (Words.word value)) ∧ head'.mphfFile = head.mphfFile ∧
      (openHead head.mphfFile head.valFile = .ok head →
        openHead head'.mphfFile head'.valFile = .ok head') := by
  obtain ⟨idx, f, holds, agree⟩ := shows.byFold
  obtain ⟨old, found⟩ := isSome_iff_exists.mp member
  have folded : f (mixKey16 key) = some old := (agree key ask).symm.trans found
  obtain ⟨w, packed, word⟩ := Words.pack8_eq storable
  have updated : head.updateValue key value =
      .ok ({ head with valFile := head.valFile.setWord (idx (mixKey16 key)) (Words.word value) },
        true) := by
    simp only [updateValue, holds.slot, folded, packed, ok_bind, word]
    rfl
  refine ⟨_, updated, ?_, rfl, fun opens => ?_⟩
  · have step := (shows.update_step (u := (key, value)) ask).1
    simp only [update, updated, Words.update, Words.updateValue, found, packed, ok_bind, word]
      at step
    exact step
  · simp only [openHead, bind_eq_ok] at opens ⊢
    obtain ⟨mphf, read, _, size, _, tags, same⟩ := opens
    have same := Except.ok.inj same
    refine ⟨mphf, read, (), ?_, (), tags, ?_⟩
    · rw [setWord_length (holds.inside folded), size]
    · rw [← same]
      rfl

end ShowsAs

/-- A written shard is the map of its records, for the keys that are asked: after any updates it
gave the answers of the map, and it is read as the map is read. -/
def ExactFor (recs : List (ShHeadKey × UInt64)) (asked : ShHeadKey → Prop) : Prop :=
  ∃ head, writePack8 recs = .ok head ∧
    ∀ updates : List (ShHeadKey × ShHeadValue), (∀ u ∈ updates, asked u.1) →
      (Run.run update head updates).2 = (Run.run Words.update (.ofRecs recs) updates).2 ∧
      ∀ key, asked key → (Run.run update head updates).1.get key =
        (Run.run Words.update (.ofRecs recs) updates).1.get key

/-- The fold tells the keys that are asked from the members. -/
def Separated (recs : List (ShHeadKey × UInt64)) (asked : ShHeadKey → Prop) : Prop :=
  ∀ key, asked key → key ∈ recs.map fst ∨ mixKey16 key ∉ mix64Keys recs

variable {asked : ShHeadKey → Prop} {head : MphfHead} {recs : List (ShHeadKey × UInt64)}

theorem showsAs_of_holds (nodup : (mix64Keys recs).Nodup) (separated : Separated recs asked)
    {idx : UInt64 → Nat} (holds : head.Holds idx (ofRecs (byFold recs))) :
    ShowsAs asked head (.ofRecs recs) := by
  have keys : (recs.map fst).Nodup := by
    have : (mix64Keys recs) = (recs.map fst).map mixKey16 := by simp [mix64Keys]
    exact (this ▸ nodup).of_map
  have folds : ((byFold recs).map fst).Nodup := map_fst_byFold recs ▸ nodup
  refine ⟨⟨idx, _, holds, fun key ask => ?_⟩, fun {k l} hk hl member same => ?_⟩
  · cases found : ofRecs recs key with
    | some w =>
      rw [ofRecs_eq_some keys] at found
      exact ((ofRecs_eq_some folds).mpr (mem_map.mpr ⟨_, found, rfl⟩)).symm
    | none =>
      rw [ofRecs_eq_none] at found
      rw [eq_comm, ofRecs_eq_none, map_fst_byFold]
      exact (separated key ask).resolve_left found
  · obtain ⟨w, member⟩ := isSome_iff_exists.mp member
    rw [ofRecs_eq_some keys] at member
    have known : l ∈ recs.map fst := (separated l hl).resolve_right fun other =>
      other (same ▸ mem_map.mpr ⟨_, member, rfl⟩)
    obtain ⟨r, hr, rfl⟩ := mem_map.mp known
    exact congrArg fst (inj_on_of_nodup_map nodup member hr same)

theorem opens_of_openHead {mphfFile valFile : Bytes}
    (opened : openHead mphfFile valFile = .ok head) :
    openHead head.mphfFile head.valFile = .ok head := by
  have opened' := opened
  simp only [openHead, bind_eq_ok] at opened'
  obtain ⟨_, _, _, _, _, _, same⟩ := opened'
  cases same
  exact opened

theorem writePack8_shows (peels : BdzMphf.Peels (mix64Keys recs)) (fits : recs.length < 2 ^ 32)
    (nodup : (mix64Keys recs).Nodup) (separated : Separated recs asked) :
    ∃ head, writePack8 recs = .ok head ∧ ShowsAs asked head (.ofRecs recs) ∧
      openHead head.mphfFile head.valFile = .ok head := by
  have written : ∃ head idx, writePack8 recs = .ok head ∧
      head.Holds idx (ofRecs (byFold recs)) := by
    rcases eq_or_ne recs [] with rfl | nonempty
    · obtain ⟨head, written, holds⟩ := writePack8_nil
      exact ⟨head, fun _ => 0, written, holds _⟩
    · obtain ⟨b, success⟩ := buildCompact_accepts peels nodup (by simpa [mix64Keys])
      exact (writePack8_holds nonempty fits success).2
  obtain ⟨head, idx, written, holds⟩ := written
  refine ⟨head, written, showsAs_of_holds nodup separated holds, ?_⟩
  simp only [writePack8, writePack8Mixed, bind_eq_ok] at written
  obtain ⟨_, -, _, -, _, -, opened⟩ := written
  exact opens_of_openHead opened

theorem exactFor_of_shows (written : writePack8 recs = .ok head)
    (start : ShowsAs asked head (.ofRecs recs)) : ExactFor recs asked := by
  refine ⟨head, written, fun updates all => ?_⟩
  have step {head : MphfHead} {m : Words ShHeadKey} {u : ShHeadKey × ShHeadValue}
      (ask : asked u.1) (shows : ShowsAs asked head m) :
      ShowsAs asked (head.update u).1 (m.update u).1 ∧ (head.update u).2 = (m.update u).2 :=
    shows.update_step ask
  obtain ⟨shows, answers⟩ := Run.run_simulates step start all
  exact ⟨answers, fun key ask => shows.get_eq ask⟩

/-- Given that the graph of distinct folds peels, a shard is exact for the keys that are asked just
when its counter has room for the records, their folds are distinct, and no key that is asked
shares the fold of another key that is a member. -/
theorem writePack8_exact_iff (recs : List (ShHeadKey × UInt64)) (asked : ShHeadKey → Prop)
    (peels : BdzMphf.Peels (mix64Keys recs)) :
    ExactFor recs asked ↔ recs.length < 2 ^ 32 ∧ (mix64Keys recs).Nodup ∧ Separated recs asked := by
  constructor
  · rintro ⟨head, written, exact⟩
    have fits := lt_of_writePack8 written
    rcases eq_or_ne recs [] with rfl | nonempty
    · exact ⟨fits, nodup_nil, fun _ _ => .inr (by simp [mix64Keys])⟩
    · obtain ⟨b, success⟩ : ∃ b, buildCompact (mix64Keys recs) = .ok b := by
        simp only [writePack8, writePack8Mixed, bind_eq_ok] at written
        exact ⟨_, written.choose_spec.1⟩
      obtain ⟨nodup, _, idx, same, holds⟩ := writePack8_holds nonempty fits success
      cases written.symm.trans same
      refine ⟨fits, nodup, fun key ask => ?_⟩
      -- a key with the fold of a member that is not one is read as that member
      by_contra collides
      rw [not_or, not_not] at collides
      obtain ⟨r, hr, fold⟩ := mem_map.mp collides.2
      have got := (exact [] (by simp)).2 key ask
      have folds : ((byFold recs).map fst).Nodup := map_fst_byFold recs ▸ nodup
      have stored : ofRecs (byFold recs) (mixKey16 key) = some r.2 :=
        (ofRecs_eq_some folds).mpr (mem_map.mpr ⟨r, hr, by rw [fold]⟩)
      simp only [Run.run, holds.get_eq, Words.get, stored, ofRecs_eq_none.mpr collides.1] at got
      cases value : unpack8 r.2.toNat <;> simp [value] at got
  · rintro ⟨fits, nodup, separated⟩
    obtain ⟨head, written, shows, -⟩ := writePack8_shows peels fits nodup separated
    exact exactFor_of_shows written shows

/-- A shard of two records is exact for its members and a key of another fold. -/
theorem writePack8_exact_two :
    let k : ShHeadKey := ⟨1 :: replicate 15 0, rfl⟩
    let l : ShHeadKey := ⟨2 :: replicate 15 0, rfl⟩
    let other : ShHeadKey := ⟨3 :: replicate 15 0, rfl⟩
    ExactFor [(k, 11), (l, 22)] (· ∈ [k, l, other]) := by
  intro k l other
  refine (writePack8_exact_iff _ _ ?_).mpr ⟨by decide, by decide, ?_⟩
  · intro _ _
    exact ⟨(triedSeeds maxSeed 0x9e3779b97f4a7c15).headD 0, by decide +kernel, by decide +kernel⟩
  · show ∀ key ∈ [k, l, other], _ ∨ _
    decide +kernel

/-- A key with its halves swapped has the same fold: it is read as the member it is not, and an
update of it changes that member. -/
theorem get_swapped_halves :
    let k : ShHeadKey := ⟨1 :: replicate 15 0, rfl⟩
    let swapped : ShHeadKey := ⟨replicate 8 0 ++ 1 :: replicate 7 0, rfl⟩
    ∃ head, writePack8 [(k, 5)] = .ok head ∧ swapped ≠ k ∧
      head.get swapped = .ok (some (.inlineOne 5)) ∧
      ∃ head', head.updateValue swapped (.inlineOne 6) = .ok (head', true) ∧
        head'.get k = .ok (some (.inlineOne 6)) := by
  refine ⟨_, rfl, by decide, by decide +kernel, _, rfl, by decide +kernel⟩

end MphfHead

end Rbitcoin.Store
