import Rbitcoin.Store.HeadUpserts

/-! Entering upserts in ingest, sealing it, and merging sealed heads. A seal moves the values of
ingest to a head of their own, and a merge those of the sealed heads to one; neither changes what is
read, as long as the number of the merged head is not taken again. -/

namespace Rbitcoin.Store

open Bytes Dir Outcome ScriptHashHead Tiers Words List Prod

variable {f : Words ShHeadKey}

theorem Words.live_enterAll {entries : List Upsert} (nodup : (entries.map fst).Nodup)
    (storable : ∀ x ∈ entries, x.2.Storable) (k : ShHeadKey) :
    (f.enterAll entries).live k = match entries.lookup k with
      | none => f.live k
      | some v => if v.isEmpty then none else some (word v) := by
  have entered := enterAll_apply (f := f) nodup k
  cases found : entries.lookup k with
  | none =>
    rw [found] at entered
    rw [live, live, entered]
  | some v =>
    have kept : v.Storable := storable _ ((Assoc.lookup_eq_some nodup).mp found)
    rw [found] at entered
    simp only [live, entered]
    cases empty : v.isEmpty with
    | true =>
      have zero := (word_eq_zero kept).mpr empty
      by_cases missing : f k = none <;> simp [missing, zero]
    | false =>
      have nonzero : word v ≠ 0 := fun h => by simp [(word_eq_zero kept).mp h] at empty
      simp [nonzero]

variable {recs : List (ShHeadKey × UInt64)}

/-- The values of some records, without the empty ones, have the words of the records again. -/
theorem Words.repack (words : ∀ r ∈ recs, ∃ v : ShHeadValue, v.Storable ∧ r.2 = word v) :
    ∃ vals, recs.mapM (fun r => do return (r.1, ← unpack8Bytes r.2)) =
        (.ok vals : Result (List Upsert)) ∧
      (vals.filter fun x => !x.2.isEmpty).mapM (fun x => do return (x.1, ← pack8Bytes x.2)) =
        (.ok (recs.filter fun r => r.2 ≠ 0) : Result (List (ShHeadKey × UInt64))) := by
  induction recs with
  | nil => exact ⟨[], rfl, rfl⟩
  | cons r recs ih =>
    obtain ⟨k, w⟩ := r
    obtain ⟨v, storable, rfl⟩ := words _ mem_cons_self
    obtain ⟨vals, unpacked, packed⟩ := ih (forall_mem_cons.mp words).2
    refine ⟨(k, v) :: vals, ?_, ?_⟩
    · rw [mapM_cons, unpacked, unpack8Bytes_word storable]
      rfl
    · cases empty : v.isEmpty with
      | true =>
        have zero := (word_eq_zero storable).mpr empty
        rw [filter_cons_of_neg (by simp [empty]), filter_cons_of_neg (by simp [zero])]
        exact packed
      | false =>
        have nonzero : word v ≠ 0 := fun h => by simp [(word_eq_zero storable).mp h] at empty
        rw [filter_cons_of_pos (by simp [empty]), filter_cons_of_pos (by simpa using nonzero),
          mapM_cons, packed, pack8Bytes_eq storable]
        rfl

namespace HeadTable

/-- Upserts of keys that are asked, each once, whose values can be kept. -/
structure Batch (asked : ShHeadKey → Prop) (ups : List Upsert) : Prop where
  nodup : (ups.map fst).Nodup
  asked : ∀ u ∈ ups, asked u.1
  storable : ∀ u ∈ ups, u.2.Storable

variable {asked : ShHeadKey → Prop} {recs : List (ShHeadKey × UInt64)}

theorem Batch.sublist {ups ups' : List Upsert} (batch : Batch asked ups) (sub : ups'.Sublist ups) :
    Batch asked ups' where
  nodup := batch.nodup.sublist (sub.map fst)
  asked u mem := batch.asked u (sub.subset mem)
  storable u mem := batch.storable u (sub.subset mem)

theorem Batch.entries {ups : List Upsert} (batch : Batch asked ups) (separate : Separate asked) :
    ScriptHashHead.Holds.Entries ups where
  nodup := batch.nodup
  nonzero u mem := separate.nonzero u.1 (batch.asked u mem)
  storable := batch.storable

namespace Shows

variable {asked : ShHeadKey → Prop} {t : HeadTable} {A : HeadTiers} (shows : t.Shows asked A)
include shows

theorem sealCap_pos : 0 < sealCap t.ingest.slots ∧ t.ingest.slots ≠ 0 := by
  obtain ⟨bits, three, -, -, slots⟩ := shows.slots
  have large : 2 ^ 3 ≤ 2 ^ bits := Nat.pow_le_pow_right (by decide) three
  rw [slots, sealCap]
  omega

theorem roomBeforeSeal_eq : t.ingest.roomBeforeSeal =
    sealCap t.ingest.slots - t.ingest.occupied := by
  rw [roomBeforeSeal]
  rw [shows.ingest.known]
  simp [shows.sealCap_pos.2]

theorem atSealLoad_iff : t.ingest.atSealLoad = true ↔
    sealCap t.ingest.slots ≤ t.ingest.occupied := by
  have nonzero := shows.sealCap_pos.2
  rw [atSealLoad, shows.ingest.known, sealCap]
  simp only [true_and, decide_eq_true_eq]
  omega

theorem enterAll {ups : List Upsert} (batch : Batch asked ups) (outside : ∀ u ∈ ups, A.Outside u.1)
    {ingest : ScriptHashHead} (holds : ingest.Holds (A.ingest.enterAll ups))
    (slots : ingest.slots = t.ingest.slots)
    (ready : ({ t with ingest } : HeadTable).Ready (A.ingest.enterAll ups)) :
    ({ t with ingest } : HeadTable).Shows asked { A with ingest := A.ingest.enterAll ups } ∧
      ({ A with ingest := A.ingest.enterAll ups } : HeadTiers).read = overlay A.read ups := by
  have live := live_enterAll (f := A.ingest) batch.nodup batch.storable
  have decodes : (A.ingest.enterAll ups).Decodes :=
    Words.Decodes.enterAll shows.decodes.1 batch.storable
  -- what is entered is in no other tier, and the rest of ingest is as it was
  have kept {k : ShHeadKey} (missing : ups.lookup k = none) :
      (A.ingest.enterAll ups).live k = A.ingest.live k := by rw [live, missing]
  have free {k : ShHeadKey} {v : ShHeadValue} (found : ups.lookup k = some v) :
      ∀ f ∈ A.main :: A.l1 :: A.files, f k = none := by
    obtain ⟨main, l1, files⟩ := outside _ ((Assoc.lookup_eq_some batch.nodup).mp found)
    simp only [mem_cons, forall_eq_or_imp]
    exact ⟨main, l1, files⟩
  obtain ⟨others, rest⟩ := pairwise_cons.mp shows.apart
  refine ⟨{ shows with
    ingest := holds
    slots := by
      obtain ⟨bits, h⟩ := shows.slots
      exact ⟨bits, by rw [slots]; exact h⟩
    ready := ready
    decodes := ⟨decodes, ?_⟩
    asked := ?_
    apart := pairwise_cons.mpr ⟨fun f mem k => ?_, rest⟩ }, funext fun k => ?_⟩
  · exact forall_mem_cons.mpr ⟨decodes.live, fun f mem => shows.decodes.2 f (mem_cons_of_mem _ mem)⟩
  · intro f mem k known
    rcases mem_cons.mp mem with rfl | mem
    · cases found : ups.lookup k with
      | none =>
        rw [kept found] at known
        exact shows.asked _ mem_cons_self k known
      | some v => exact batch.asked _ ((Assoc.lookup_eq_some batch.nodup).mp found)
    · exact shows.asked f (mem_cons_of_mem _ mem) k known
  · cases found : ups.lookup k with
    | none =>
      rw [kept found]
      exact others f mem k
    | some v => exact .inr (free found f mem)
  · rw [overlay_apply batch.nodup]
    unfold HeadTiers.read
    rw [HeadTiers.all, first, findSome?_cons]
    cases found : ups.lookup k with
    | none =>
      rw [kept found]
      rfl
    | some v =>
      have none_left : (A.main :: A.l1 :: A.files).findSome? (· k) = none :=
        findSome?_eq_none_iff.mpr (free found)
      have kept : v.Storable := batch.storable _ ((Assoc.lookup_eq_some batch.nodup).mp found)
      simp only [live, found]
      cases empty : v.isEmpty with
      | true => simp [none_left, (word_eq_zero kept).mpr empty]
      | false => simp

end Shows

theorem byKey_perm (recs : List (ShHeadKey × UInt64)) : (byKey recs).Perm recs :=
  perm_insertionSort _ recs

section

variable (nodup : (recs.map fst).Nodup)
include nodup

theorem byKey_nodup : ((byKey recs).map fst).Nodup :=
  ((byKey_perm recs).map fst).nodup_iff.mpr nodup

theorem byKey_sorted : SortedHead.Sorted (byKey recs) := by
  let le (a b : ShHeadKey × UInt64) : Prop := a.1.rank ≤ b.1.rank
  have ordered : (byKey recs).Pairwise le := pairwise_insertionSort le recs
  have keys := byKey_nodup nodup
  rw [Nodup, pairwise_map] at keys
  refine (ordered.and keys).imp fun {a b} h => ?_
  exact lt_of_le_of_ne h.1 fun same => h.2 (ShHeadKey.rank_inj same)

theorem byKey_chain : (byKey recs).IsChain fun a b => a.1 ≠ b.1 := by
  refine (isChain_iff_pairwise.mpr (byKey_sorted nodup)).imp fun a b lt same => ?_
  rw [same] at lt
  omega

theorem ofRecs_byKey
    (mem_recs : ∀ k w, (k, w) ∈ recs ↔ f k = some w) : ofRecs (byKey recs) = f := by
  funext k
  apply Option.ext
  intro w
  rw [ofRecs_eq_some (byKey_nodup nodup), (byKey_perm recs).mem_iff, mem_recs]

end

theorem Shows.sealRecs {t : HeadTable} {A : HeadTiers} (shows : t.Shows asked A) :
    ∃ recs, t.sealRecs = .ok recs ∧ (recs.map fst).Nodup ∧
      ∀ k w, (k, w) ∈ recs ↔ A.ingest.live k = some w := by
  have holds := shows.ingest
  obtain ⟨vals, unpacked, packed⟩ := repack
    fun r (mem : r ∈ t.ingest.table.filter fun s => !isEmptySlot s) =>
      shows.decodes.1 (holds.mem_slots.mp mem)
  have sealed : t.sealRecs =
      .ok ((t.ingest.table.filter fun s => !isEmptySlot s).filter fun r => r.2 ≠ 0) := by
    rw [HeadTable.sealRecs, forEachOccupied, unpacked]
    exact packed
  refine ⟨_, sealed, holds.slots_nodup.sublist (filter_sublist.map _), fun k w => ?_⟩
  rw [mem_filter, holds.mem_slots, live_eq_some, decide_eq_true_eq]

end HeadTable

namespace HeadTiers

/-- The values of ingest have moved to a head of their own. -/
def moved (A : HeadTiers) : HeadTiers :=
  { A with ingest := fun _ => none, files := A.files ++ [A.ingest.live] }

variable {A : HeadTiers}

theorem moved_all :
    A.moved.all = (fun _ => none) :: ((A.main :: A.l1 :: A.files) ++ [A.ingest.live]) :=
  rfl

theorem mem_moved (mem : f ∈ A.moved.all) : f = (fun _ => none) ∨ f ∈ A.all := by
  rw [moved_all] at mem
  simp only [mem_cons, mem_append] at mem
  simp only [all, mem_cons]
  tauto

theorem moved_apart (apart : Apart A.all) : Apart A.moved.all := by
  refine pairwise_cons.mpr ⟨fun _ _ _ => .inl rfl, apart.perm ?_⟩
  exact (perm_append_singleton A.ingest.live (A.main :: A.l1 :: A.files)).symm

/-- A zero word reads as no word. -/
theorem read_eq (k : ShHeadKey) : A.read k = (live (first A.all) k).getD 0 := by
  rw [read, live]
  cases first A.all k with
  | none => rfl
  | some w => by_cases zero : w = 0 <;> simp [Option.filter, zero]

theorem read_congr {A' : HeadTiers} (apart : Apart A.all) (apart' : Apart A'.all)
    (same : ∀ k w, w ≠ 0 → ((∃ f ∈ A.all, f k = some w) ↔ ∃ f ∈ A'.all, f k = some w)) :
    A.read = A'.read := by
  funext k
  rw [read_eq, read_eq]
  congr 1
  apply Option.ext
  intro w
  rw [live_eq_some, live_eq_some, first_eq_some apart, first_eq_some apart']
  exact and_congr_left (same k w)

theorem moved_read (apart : Apart A.all) : A.moved.read = A.read := by
  refine read_congr (moved_apart apart) apart fun k w _ => ?_
  rw [moved_all]
  simp only [all, mem_cons, mem_append]
  constructor
  · rintro ⟨f, rfl | h, found⟩
    · cases found
    · exact ⟨f, by tauto, found⟩
  · rintro ⟨f, h, found⟩
    exact ⟨f, by tauto, found⟩

end HeadTiers

namespace HeadTable

/-- Six digits are enough for the numbers of the sealed heads. -/
def Few (t : HeadTable) : Prop := t.ovfL1 = none → t.sealedOvf.length < ovfIds

namespace Shows

variable {asked : ShHeadKey → Prop} {t : HeadTable} {A : HeadTiers} (shows : t.Shows asked A)
include shows

theorem length_lt (few : t.Few) : t.sealedOvf.length < ovfIds := by
  have l1 := shows.l1
  unfold L1Shows at l1
  split at l1
  · next none => exact few none
  · omega

theorem sealPath_eq (few : t.Few) : t.sealPath = sealedOvfPath t.sealedOvf.length := by
  have small := shows.length_lt few
  rw [sealPath, Nat.mod_eq_of_lt (lt_trans small (by decide))]

section Sealed

variable (few : t.Few) {dir : Dir}
  (same : ∀ name, name ≠ t.sealPath → name ≠ sidecar t.sealPath .idx →
    name ≠ sidecar t.sealPath .fuse8 → dir.lookup name = t.dir.lookup name)
include few same

/-- A new head leaves the files of all other numbers as they are. -/
theorem lookup_others {id : Nat} {kind : FileKind} (ne : id ≠ t.sealedOvf.length) :
    dir.lookup (sidecar (sealedOvfPath id) kind) =
      t.dir.lookup (sidecar (sealedOvfPath id) kind) := by
  have differs (kind' : FileKind) : sidecar (sealedOvfPath id) kind ≠ sidecar t.sealPath kind' := by
    rw [shows.sealPath_eq few]
    exact fun same => ne (sidecar_inj same).1
  apply same
  · rw [← sidecar_data t.sealPath]
    exact differs .data
  · exact differs .idx
  · exact differs .fuse8

theorem withSealed_l1 (number : ∀ l1, t.ovfL1 = some l1 → t.sealPath ≠ l1.path)
    (head : SortedHead) : (t.withSealed dir head).L1Shows asked A.l1 := by
  have l1 := shows.l1
  unfold L1Shows at l1 ⊢
  simp only [HeadTable.withSealed]
  split at l1
  · exact l1
  · next l some =>
    obtain ⟨shows', id, path', above, small⟩ := l1
    have differs : id ≠ t.sealedOvf.length := by
      rintro rfl
      exact number l some ((shows.sealPath_eq few).trans path'.symm)
    refine ⟨shows'.frame fun kind _ => ?_, id, path', ?_, small⟩
    · rw [path']
      exact shows.lookup_others few same differs
    · rw [length_append, length_singleton]
      omega

theorem withSealed (number : ∀ l1, t.ovfL1 = some l1 → t.sealPath ≠ l1.path) {head : SortedHead}
    (holds : head.Holds dir recs) (words : ofRecs recs = A.ingest.live)
    (path : head.path = t.sealPath) : (t.withSealed dir head).Shows asked A.moved := by
  have sealPath := shows.sealPath_eq few
  obtain ⟨bits, three, small, slots, -⟩ := shows.slots
  obtain ⟨empty, size, zero⟩ := createWithSlots_holds three small
  exact {
    ingest := by
      rw [HeadTable.withSealed, slots]
      exact empty
    slots := ⟨bits, three, small, slots, by rw [HeadTable.withSealed, slots]; exact size⟩
    ready := by
      have large : 2 ^ 3 ≤ 2 ^ bits := Nat.pow_le_pow_right (by decide) three
      refine .inl ?_
      rw [HeadTable.withSealed, slots]
      simp only [sealCap]
      omega
    files := by
      refine rel_append (FilesHold.frame shows.files fun old mem kind ofSealed => ?_)
        (.cons ⟨recs, holds, words.symm⟩ .nil)
      obtain ⟨i, hi, path_i⟩ := shows.path_of_mem mem
      rw [path_i]
      exact shows.lookup_others few same (by omega)
    paths := by
      simp [HeadTable.withSealed, range_succ, shows.paths, path, sealPath]
    data := by
      intro id file found
      by_cases here : id = t.sealedOvf.length
      · rw [here, ← sealPath, ← path] at found
        exact ⟨recs, Option.some.inj (found.symm.trans holds.data)⟩
      · exact shows.data_frame (shows.lookup_others few same here) found
    l1 := shows.withSealed_l1 few same number head
    main := shows.main
    decodes := by
      refine ⟨nofun, fun f mem => ?_⟩
      rcases HeadTiers.mem_moved mem with rfl | old
      · exact nofun
      · exact shows.decodes.2 f old
    asked := by
      intro f mem k known
      rcases HeadTiers.mem_moved mem with rfl | old
      · cases known
      · exact shows.asked f old k known
    apart := HeadTiers.moved_apart shows.apart }

end Sealed

end Shows

end HeadTable

namespace HeadTiers

/-- The values of the sealed heads have moved to the merged one. -/
def mergedL1 (A : HeadTiers) : HeadTiers :=
  { A with l1 := Words.live (first A.files), files := [] }

variable {A : HeadTiers}

theorem mergedL1_apart (apart : Apart A.all) : Apart A.mergedL1.all := by
  obtain ⟨ingest, apart⟩ := pairwise_cons.mp apart
  obtain ⟨main, -⟩ := pairwise_cons.mp apart
  have within {f : Words ShHeadKey} (others : ∀ g ∈ A.files, ∀ k, f k = none ∨ g k = none)
      (k : ShHeadKey) : f k = none ∨ live (first A.files) k = none := by
    cases found : f k with
    | none => exact .inl rfl
    | some w =>
      have missing : first A.files k = none := first_eq_none.mpr fun g mem =>
        (others g mem k).resolve_left (by rw [found]; nofun)
      exact .inr (live_eq_none.mpr (by simp [missing]))
  refine pairwise_cons.mpr ⟨fun f mem => ?_, pairwise_cons.mpr ⟨fun f mem => ?_,
    pairwise_singleton ..⟩⟩
  · rcases mem_cons.mp mem with rfl | mem
    · exact ingest A.main (by simp)
    · obtain rfl := mem_singleton.mp mem
      exact within fun g mem => ingest g (by simp [mem])
  · obtain rfl := mem_singleton.mp mem
    exact within fun g mem => main g (by simp [mem])

theorem mergedL1_read (apart : Apart A.all) (vacant : A.l1 = fun _ => none) :
    A.mergedL1.read = A.read := by
  have files : Apart A.files :=
    (pairwise_cons.mp (pairwise_cons.mp (pairwise_cons.mp apart).2).2).2
  refine read_congr (mergedL1_apart apart) apart fun k w nonzero => ?_
  simp [all, mergedL1, vacant, live_eq_some, first_eq_some files, nonzero]

end HeadTiers

namespace HeadTable

variable {dir : Dir} {heads : List SortedHead} {name : Name}

theorem FilesHold.mergedRecs {files : List (Words ShHeadKey)} (holds : FilesHold dir heads files)
    (decodes : ∀ f ∈ files, Words.Decodes f) (apart : Apart files) :
    ∃ recs, HeadTable.mergedRecs dir heads = .ok recs ∧ (recs.map fst).Nodup ∧
      ∀ k w, (k, w) ∈ recs ↔ live (first files) k = some w := by
  induction holds with
  | nil => exact ⟨[], rfl, nodup_nil, by simp [live, first]⟩
  | @cons head f heads files here _ ih =>
    obtain ⟨recs, holds, rfl⟩ := here
    have whole := apart
    obtain ⟨others, apart⟩ := pairwise_cons.mp apart
    have mem_recs {r : ShHeadKey × UInt64} : r ∈ recs ↔ ofRecs recs r.1 = some r.2 :=
      (ofRecs_eq_some holds.sorted.nodup).symm
    obtain ⟨vals, unpacked, packed⟩ := repack fun r mem =>
      decodes _ mem_cons_self (mem_recs.mp mem)
    obtain ⟨rest, merged, nodup, mem_rest⟩ :=
      ih (forall_mem_cons.mp decodes).2 apart
    refine ⟨recs.filter (fun r => r.2 ≠ 0) ++ rest, ?_, ?_, fun k w => ?_⟩
    · have listed : head.forEachOccupied dir = .ok (vals.filter fun x => !x.2.isEmpty) := by
        rw [SortedHead.forEachOccupied, holds.preadRecs_all, ok_bind, unpacked]
        rfl
      rw [HeadTable.mergedRecs, listed, ok_bind, packed, merged]
      rfl
    · rw [map_append]
      refine (holds.sorted.nodup.sublist (filter_sublist.map _)).append nodup
        fun k in_recs in_rest => ?_
      obtain ⟨r, here, rfl⟩ := mem_map.mp in_recs
      obtain ⟨r', there, same⟩ := mem_map.mp in_rest
      have found := mem_recs.mp (mem_of_mem_filter here)
      have found' := (live_eq_some.mp ((mem_rest r'.1 r'.2).mp there)).1
      rw [same] at found'
      obtain ⟨g, hg, at_k⟩ := (first_eq_some apart).mp found'
      rcases others g hg _ with missing | missing
      · rw [found] at missing
        cases missing
      · rw [at_k] at missing
        cases missing
    · rw [mem_append, mem_filter, mem_recs, mem_rest, live_eq_some,
        live_eq_some, first_eq_some whole, first_eq_some apart]
      simp only [mem_cons, exists_eq_or_imp, decide_eq_true_eq]
      tauto

theorem lookup_removeHead {head : SortedHead}
    (ne : ∀ kind : FileKind, kind.ofSealed → name ≠ sidecar head.path kind) :
    (removeHead dir head).lookup name = dir.lookup name := by
  rw [removeHead, lookup_remove_ne _ (ne .fuse8 rfl), lookup_remove_ne _ (ne .idx rfl),
    lookup_remove_ne]
  rw [← sidecar_data head.path]
  exact ne .data rfl

theorem lookup_removeHeads
    (ne : ∀ head ∈ heads, ∀ kind : FileKind, kind.ofSealed → name ≠ sidecar head.path kind) :
    (heads.foldl removeHead dir).lookup name = dir.lookup name := by
  induction heads generalizing dir with
  | nil => rfl
  | cons head heads ih =>
    rw [foldl_cons, ih (forall_mem_cons.mp ne).2, lookup_removeHead (ne head mem_cons_self)]

theorem lookup_remove_none {other : Name} (missing : dir.lookup name = none) :
    (dir.remove other).lookup name = none := by
  by_cases same : name = other
  · rw [same, lookup_remove_self]
  · rw [lookup_remove_ne _ same, missing]

theorem lookup_removed {head : SortedHead} (mem : head ∈ heads) {kind : FileKind}
    (ofSealed : kind.ofSealed) :
    (heads.foldl removeHead dir).lookup (sidecar head.path kind) = none := by
  have stays {dir : Dir} {name : Name} (missing : dir.lookup name = none) (other : SortedHead) :
      (removeHead dir other).lookup name = none :=
    lookup_remove_none (lookup_remove_none (lookup_remove_none missing))
  have keeps {dir : Dir} {name : Name} (missing : dir.lookup name = none)
      (heads : List SortedHead) :
      (heads.foldl removeHead dir).lookup name = none := by
    induction heads generalizing dir with
    | nil => exact missing
    | cons other heads ih => exact ih (stays missing other)
  have removed {dir : Dir} : (removeHead dir head).lookup (sidecar head.path kind) = none := by
    cases kind with
    | data =>
      rw [sidecar_data]
      exact lookup_remove_none (lookup_remove_none (lookup_remove_self ..))
    | idx => exact lookup_remove_none (lookup_remove_self ..)
    | fuse8 => exact lookup_remove_self ..
    | mphf => cases ofSealed
    | val => cases ofSealed
  induction heads generalizing dir with
  | nil => cases mem
  | cons other heads ih =>
    rcases mem_cons.mp mem with rfl | mem
    · exact keeps removed heads
    · exact ih mem

theorem foldl_max_range (n : Nat) : (range n).foldl max 0 = n - 1 := by
  induction n with
  | zero => rfl
  | succ n ih =>
    rw [range_succ, foldl_append, ih]
    simp only [foldl_cons, foldl_nil]
    omega

/-- The records of the merged head have a perfect hash and a filter. -/
structure Merges (F : FuseFloats) (recs : List (ShHeadKey × UInt64)) : Prop where
  fits : recs.length < 2 ^ 32
  peels : BdzMphf.Peels (mix64Keys recs)
  filter : SealedFuse8.Builds F (l1FuseKeys recs)

namespace Shows

variable {asked : ShHeadKey → Prop} {t : HeadTable} {A : HeadTiers} (shows : t.Shows asked A)
include shows

theorem nextOvfId_eq (small : t.sealedOvf.length < ovfIds) (some_head : t.sealedOvf ≠ []) :
    t.nextOvfId = t.sealedOvf.length := by
  have ids : (t.sealedOvf.filterMap fun h => parseU32 h.path) = range t.sealedOvf.length := by
    have parse := congrArg (filterMap parseU32) shows.paths
    rw [filterMap_map, filterMap_map] at parse
    refine parse.trans ((filterMap_congr fun i mem => ?_).trans filterMap_some)
    have lt := mem_range.mp mem
    exact parseU32_sealedOvfPath (lt_trans lt (lt_trans small (by decide)))
  have pos := length_pos_iff.mpr some_head
  have bound : t.sealedOvf.length < 2 ^ 32 - 1 := lt_trans small (by decide)
  rw [nextOvfId, ids, foldl_max_range]
  omega

theorem files_asked {k : ShHeadKey} {w : UInt64} (found : live (first A.files) k = some w) :
    asked k := by
  obtain ⟨f, mem, found⟩ := (first_eq_some shows.files_apart).mp (live_eq_some.mp found).1
  exact shows.asked f (by simp [HeadTiers.all, mem]) k (by rw [found]; rfl)

/-- Merged records have keys that are asked, so every fold is of one key. -/
theorem merged_separated (separate : Separate asked) (nodup : (recs.map fst).Nodup)
    (words : ofRecs recs = live (first A.files)) :
    (mix64Keys recs).Nodup ∧ MphfHead.Separated recs asked := by
  have known {r : ShHeadKey × UInt64} (mem : r ∈ recs) : asked r.1 :=
    shows.files_asked (words ▸ (ofRecs_eq_some nodup).mpr mem)
  constructor
  · rw [mix64Keys, Nodup, pairwise_map]
    rw [Nodup, pairwise_map] at nodup
    refine nodup.imp_of_mem fun hr hr' ne same => ne ?_
    exact separate.fold _ _ (known hr) (known hr') same
  · intro key ask
    by_contra h
    rw [not_or, not_not] at h
    obtain ⟨r, mem, same⟩ := mem_map.mp h.2
    exact h.1 (mem_map.mpr ⟨r, mem, separate.fold _ _ (known mem) ask same⟩)

omit shows in
/-- The three files of the merged head, beside the others. -/
theorem lookup_l1Files {dir : Dir} {n : Nat} {head : MphfHead} {f : BinaryFuse8} :
    let path := sealedOvfPath n
    let dir' := ((dir.put (sidecar path .mphf) (.mphf head.mphfFile)).put (sidecar path .val)
      (.val head.valFile)).put (sidecar path .fuse8) (.fuse f)
    dir'.lookup (sidecar path .fuse8) = some (.fuse f) ∧
      dir'.lookup (sidecar path .mphf) = some (.mphf head.mphfFile) ∧
      dir'.lookup (sidecar path .val) = some (.val head.valFile) ∧
      ∀ id, dir'.lookup (sidecar (sealedOvfPath id) .data) =
        dir.lookup (sidecar (sealedOvfPath id) .data) := by
  have beside {id : Nat} {k l : FileKind} (ne : k ≠ l) :
      sidecar (sealedOvfPath id) k ≠ sidecar (sealedOvfPath n) l :=
    fun same => ne (sidecar_inj same).2
  refine ⟨lookup_put_self .., ?_, ?_, fun id => ?_⟩
  · rw [lookup_put_ne _ _ (beside (by decide)), lookup_put_ne _ _ (beside (by decide)),
      lookup_put_self]
  · rw [lookup_put_ne _ _ (beside (by decide)), lookup_put_self]
  · rw [lookup_put_ne _ _ (beside (by decide)), lookup_put_ne _ _ (beside (by decide)),
      lookup_put_ne _ _ (beside (by decide))]

theorem writeL1 (separate : Separate asked) (small : t.sealedOvf.length < ovfIds) {F : FuseFloats}
    (merges : Merges F recs) (nodup : (recs.map fst).Nodup)
    (words : ofRecs recs = live (first A.files)) :
    ∃ t', t.writeL1 F (sealedOvfPath t.sealedOvf.length) recs = (t', .ok ()) ∧
      t'.Shows asked A.mergedL1 ∧ t'.ingest = t.ingest ∧ t'.ovfL1 ≠ none ∧ t'.sealedOvf = [] := by
  obtain ⟨folds, separated⟩ := shows.merged_separated separate nodup words
  obtain ⟨head, written, shown, opens⟩ :=
    MphfHead.writePack8_shows merges.peels merges.fits folds separated
  obtain ⟨f, built, geometry, takes⟩ := merges.filter
  let path := sealedOvfPath t.sealedOvf.length
  let dir := ((t.dir.put (sidecar path .mphf) (.mphf head.mphfFile)).put (sidecar path .val)
    (.val head.valFile)).put (sidecar path .fuse8) (.fuse f)
  obtain ⟨fuseFile, mphfFile, valFile, others⟩ : dir.lookup (sidecar path .fuse8) = _ ∧ _ :=
    lookup_l1Files
  -- the sealed heads go, and none has the number of the merged one
  have kept {id : Nat} {kind : FileKind} (other : t.sealedOvf.length ≤ id) :
      (t.sealedOvf.foldl removeHead dir).lookup (sidecar (sealedOvfPath id) kind) =
        dir.lookup (sidecar (sealedOvfPath id) kind) := by
    refine lookup_removeHeads fun old mem kind' _ same => ?_
    obtain ⟨i, hi, path_i⟩ := shows.path_of_mem mem
    rw [path_i] at same
    have := (sidecar_inj same).1
    omega
  have read : SealedFuse8.readFrom dir (sidecar path .fuse8) =
      .ok (.ofFilter (sidecar path .fuse8) f) := by
    simp only [SealedFuse8.readFrom, fuseFile, geometry, if_true]
  have result : t.writeL1 F path recs = ({ t with
      dir := t.sealedOvf.foldl removeHead dir
      sealedOvf := []
      ovfL1 := some ⟨path, head, .ofFilter (sidecar path .fuse8) f⟩ }, .ok ()) := by
    simp only [HeadTable.writeL1, written, built]
    rw [read]
  refine ⟨_, result, ?_, rfl, Option.some_ne_none _, rfl⟩
  exact { shows with
    files := .nil
    paths := rfl
    data := by
      intro id file found
      by_cases old : id < t.sealedOvf.length
      · obtain ⟨-, path_id⟩ := shows.path_eq (getElem?_eq_getElem old)
        have gone : (t.sealedOvf.foldl removeHead dir).lookup
            (sidecar t.sealedOvf[id].path .data) = none := lookup_removed (getElem_mem old) rfl
        rw [sidecar_data, path_id] at gone
        rw [gone] at found
        cases found
      · exact shows.data_frame ((kept (by omega)).trans (others id)) found
    l1 := by
      refine ⟨⟨?_, ⟨f, (kept le_rfl).trans fuseFile, geometry, rfl, fun k known => ?_⟩,
        (kept le_rfl).trans mphfFile, (kept le_rfl).trans valFile, opens⟩, t.sealedOvf.length, rfl,
        Nat.zero_le _, small⟩
      · rw [HeadTiers.mergedL1, ← words]
        exact shown
      · obtain ⟨w, found⟩ := Option.isSome_iff_exists.mp known
        rw [HeadTiers.mergedL1, ← words, ofRecs_eq_some nodup] at found
        apply takes
        rw [l1FuseKeys, mem_dedup, mem_insertionSort]
        exact mem_map_of_mem found
    decodes := by
      refine ⟨shows.decodes.1, ?_⟩
      simp only [HeadTiers.all, HeadTiers.mergedL1, mem_cons, not_mem_nil, or_false,
        forall_eq_or_imp, forall_eq]
      exact ⟨shows.decodes.2 _ (by simp [HeadTiers.all]),
        shows.decodes.2 _ (by simp [HeadTiers.all]), Words.Decodes.live shows.files_decodes⟩
    asked := by
      simp only [HeadTiers.all, HeadTiers.mergedL1, mem_cons, not_mem_nil, or_false,
        forall_eq_or_imp, forall_eq]
      refine ⟨shows.asked _ (by simp [HeadTiers.all]), shows.asked _ (by simp [HeadTiers.all]), ?_⟩
      intro k known
      exact shows.files_asked (Option.some_get known).symm
    apart := HeadTiers.mergedL1_apart shows.apart }

theorem mergedRecs_eq : ∃ recs, mergedRecs t.dir t.sealedOvf = .ok recs ∧
    (recs.map fst).Nodup ∧ ∀ k w, (k, w) ∈ recs ↔ live (first A.files) k = some w :=
  FilesHold.mergedRecs shows.files (fun f mem => shows.decodes.2 f (by simp [HeadTiers.all, mem]))
    shows.files_apart

theorem compactSealedOvf (separate : Separate asked) (vacant : t.ovfL1 = none)
    (two : 2 ≤ t.sealedOvf.length) (small : t.sealedOvf.length < ovfIds) {F : FuseFloats}
    (merges : ∀ recs, mergedRecs t.dir t.sealedOvf = .ok recs → Merges F (byKey recs)) :
    ∃ t', t.compactSealedOvf F = (t', .ok ()) ∧ t'.Shows asked A.mergedL1 ∧
      t'.ingest = t.ingest ∧ t'.ovfL1 ≠ none ∧ t'.sealedOvf = [] := by
  obtain ⟨recs, merged, nodup, mem_recs⟩ := shows.mergedRecs_eq
  obtain ⟨t', written, rest⟩ := shows.writeL1 separate small (merges recs merged)
    (byKey_nodup nodup) (ofRecs_byKey nodup mem_recs)
  refine ⟨t', ?_, rest⟩
  have some_head : t.sealedOvf ≠ [] := fun empty => by simp [empty] at two
  rw [HeadTable.compactSealedOvf, if_neg (by rw [vacant]; simp; omega), merged]
  simp only [byKey_chain nodup, shows.nextOvfId_eq small some_head]
  exact written

end Shows

end HeadTable

end Rbitcoin.Store
