import Rbitcoin.Store.HeadSeal

/-! Runs of upsert batches. A key has one home, and a lookup gives the value of its last upsert, as
long as no seal falls between the lookup of a home and the upsert that it is for, and no seal takes
the number of the merged head. -/

namespace Rbitcoin.Store

open Bytes Outcome ScriptHashHead Tiers List Function Prod

namespace HeadTable

variable (F : FuseFloats)

/-! ### Seals that keep the homes -/

/-- What a seal of `t` asks for when the upserts `rest` of the batch are still to come. -/
structure Calm (t : HeadTable) (rest : List Upsert) : Prop where
  /-- Ingest has no value of a key that is still to be entered. -/
  rest : ∀ u ∈ rest, t.ingest.get u.1 = .ok none
  /-- The next number is not that of the merged head. -/
  number : ∀ l1, t.ovfL1 = some l1 → t.sealPath ≠ l1.path
  /-- The filter is built, and takes the keys. -/
  filter : ∀ recs, t.sealRecs = .ok recs →
    SealedFuse8.Builds F (SortedHead.fuseKeys (byKey recs))
  /-- If this is the eighth head, the eight are merged. -/
  merge : ∀ recs dir head, t.sealRecs = .ok recs →
    SortedHead.write F t.dir t.sealPath (byKey recs) = (dir, .ok head) → t.ovfL1 = none →
    sealedOvfCompactFiles ≤ (t.withSealed dir head).sealedOvf.length →
    ∀ merged, mergedRecs dir (t.withSealed dir head).sealedOvf = .ok merged →
      Merges F (byKey merged)

/-- Every seal of the ingest loop is calm. -/
def SealsCalmly : Nat → HeadTable → List Upsert → Prop
  | 0, _, _ => True
  | rounds + 1, t, ups =>
    if ups = [] then True
    else if t.ingest.roomBeforeSeal = 0 then
      Calm F t ups ∧ SealsCalmly rounds (t.sealIngest F).1 ups
    else
      let n := min t.ingest.roomBeforeSeal ups.length
      let t := { t with ingest := (t.ingest.insertMany (ups.take n)).1 }
      if t.ingest.atSealLoad then
        Calm F t (ups.drop n) ∧ SealsCalmly rounds (t.sealIngest F).1 (ups.drop n)
      else SealsCalmly rounds t (ups.drop n)

def BatchCalm (t : HeadTable) (batch : List Upsert) : Prop :=
  ∀ upserts t' ups, t.batchHomes batch = .ok upserts → t.updateHomes upserts = (t', .ok ups) →
    SealsCalmly F (2 * ups.length + 2) t' ups

variable {F}

namespace Shows

variable {asked : ShHeadKey → Prop} {t : HeadTable} {A : HeadTiers}

theorem live_of_get (shows : t.Shows asked A) {k : ShHeadKey} (got : t.ingest.get k = .ok none) :
    A.ingest.live k = none := by
  have decodes : A.ingest.live.Decodes := Words.Decodes.live shows.decodes.1
  rw [shows.ingest_get, Except.ok.injEq] at got
  exact decodes.eq_none got

theorem space_of_empty (shows : t.Shows asked A) (empty : A.ingest = fun _ => none) :
    t.ingest.occupied < sealCap t.ingest.slots := by
  rcases shows.ready with less | ⟨-, k, known⟩
  · exact less
  · rw [empty] at known
    cases known

theorem sealIngest (shows : t.Shows asked A) (separate : Separate asked) (bounded : t.Bounded)
    {rest : List Upsert} (calm : Calm F t rest) (filled : ∃ k, (A.ingest.live k).isSome) :
    ∃ t' A', t.sealIngest F = (t', .ok ()) ∧ t'.Shows asked A' ∧ t'.Bounded ∧ A'.read = A.read ∧
      (A'.ingest = fun _ => none) ∧
      ∀ k, A.Outside k → A.ingest.live k = none → A'.Outside k := by
  have few : t.Few := fun none => lt_of_le_of_lt (bounded none) (by decide)
  obtain ⟨recs, listed, nodup, mem_recs⟩ := shows.sealRecs
  obtain ⟨dir, head, written, holds, path, same⟩ :=
    @SortedHead.write_holds _ F t.dir t.sealPath (byKey_sorted nodup) (calm.filter recs listed)
  have shows₁ := shows.withSealed few same calm.number holds (ofRecs_byKey nodup mem_recs) path
  have nonempty : recs ≠ [] := by
    rintro rfl
    obtain ⟨k, known⟩ := filled
    obtain ⟨w, found⟩ := Option.isSome_iff_exists.mp known
    exact absurd ((mem_recs k w).mpr found) (by simp)
  have sealed : t.sealIngest F = (t.withSealed dir head).maybeCompactSealedOvf F := by
    have free : ∀ file, t.dir.lookup t.sealPath = some file → ∃ recs, file = .sorted recs := by
      exact shows.data _
    simp only [HeadTable.sealIngest, listed, nonempty, if_false, written]
    split
    · rfl
    · rfl
    · next file other found =>
      obtain ⟨recs', same⟩ := free _ found
      exact absurd same (other recs')
  have moved (k : ShHeadKey) (outside : A.Outside k) (dead : A.ingest.live k = none) :
      A.moved.Outside k := by
    refine ⟨outside.1, outside.2.1, fun f mem => ?_⟩
    rcases mem_append.mp mem with old | new
    · exact outside.2.2 f old
    · rw [mem_singleton.mp new]
      exact dead
  have size : (t.withSealed dir head).sealedOvf.length = t.sealedOvf.length + 1 := by
    simp [HeadTable.withSealed]
  have l1_same : (t.withSealed dir head).ovfL1 = t.ovfL1 := rfl
  by_cases merge : t.ovfL1 = none ∧ sealedOvfCompactFiles ≤ (t.withSealed dir head).sealedOvf.length
  · obtain ⟨vacant, eight⟩ := merge
    have small : (t.withSealed dir head).sealedOvf.length < ovfIds := by
      have := bounded vacant
      unfold sealedOvfCompactFiles at this
      unfold ovfIds
      omega
    have two : 2 ≤ (t.withSealed dir head).sealedOvf.length := le_trans (by decide) eight
    obtain ⟨t', compacted, shows', -, some_l1, -⟩ :=
      shows₁.compactSealedOvf separate vacant two small
      (calm.merge recs dir head listed written vacant eight)
    have no_l1 : A.moved.l1 = fun _ => none := by
      have l1 := shows₁.l1
      unfold L1Shows at l1
      rw [l1_same, vacant] at l1
      exact l1
    refine ⟨t', A.moved.mergedL1, ?_, shows', fun none => absurd none some_l1, ?_, rfl, ?_⟩
    · rw [sealed, maybeCompactSealedOvf, if_pos ⟨by rw [l1_same, vacant]; rfl, eight⟩, compacted]
    · rw [HeadTiers.mergedL1_read shows₁.apart no_l1, HeadTiers.moved_read shows.apart]
    · intro k outside dead
      obtain ⟨main, -, files⟩ := moved k outside dead
      refine ⟨main, Words.live_eq_none.mpr fun w found => ?_, forall_mem_nil _⟩
      rw [first_eq_none.mpr files] at found
      cases found
  · refine ⟨t.withSealed dir head, A.moved, ?_, shows₁, fun none => ?_,
      HeadTiers.moved_read shows.apart, rfl, moved⟩
    · rw [sealed, maybeCompactSealedOvf, if_neg]
      rintro ⟨vacant, eight⟩
      exact merge ⟨by simpa [l1_same] using vacant, eight⟩
    · by_contra many
      exact merge ⟨none, by omega⟩

theorem insertChunk (shows : t.Shows asked A) (separate : Separate asked) {ups : List Upsert}
    (batch : Batch asked ups) (outside : ∀ u ∈ ups, A.Outside u.1)
    (room : t.ingest.occupied + ups.length ≤ sealCap t.ingest.slots)
    (space : t.ingest.occupied < sealCap t.ingest.slots) :
    ∃ ingest, t.ingest.insertMany ups = (ingest, .ok ()) ∧
      ({ t with ingest } : HeadTable).Shows asked { A with ingest := A.ingest.enterAll ups } ∧
      ({ A with ingest := A.ingest.enterAll ups } : HeadTiers).read = overlay A.read ups := by
  obtain ⟨ingest, inserted, holds, slots, occupied⟩ :=
    shows.ingest.insertMany (batch.entries separate) room
  change ingest.occupied ≤ t.ingest.occupied + (ups.filter fun x => !x.2.isEmpty).length at occupied
  have some_new := length_filter_le (fun x => !x.2.isEmpty) ups
  have ready : ({ t with ingest } : HeadTable).Ready (A.ingest.enterAll ups) := by
    by_cases less : ingest.occupied < sealCap ingest.slots
    · exact .inl less
    · -- the slots that were taken last have values
      have full : ingest.occupied = sealCap ingest.slots := by
        rw [slots] at less ⊢
        omega
      refine .inr ⟨full, ?_⟩
      have taken : 0 < (ups.filter fun x => !x.2.isEmpty).length := by
        rw [slots] at full
        omega
      obtain ⟨u, filled⟩ := exists_mem_of_length_pos taken
      obtain ⟨mem, value⟩ := mem_filter.mp filled
      rw [Bool.not_eq_true'] at value
      have found : ups.lookup u.1 = some u.2 := (Assoc.lookup_eq_some batch.nodup).mpr mem
      refine ⟨u.1, ?_⟩
      rw [Words.live_enterAll batch.nodup batch.storable]
      simp [found, value]
  exact ⟨ingest, inserted, shows.enterAll batch outside holds slots ready⟩

/-- The rounds that the loop takes at most. -/
def roundsLeft (t : HeadTable) (ups : List Upsert) : Nat :=
  ups.length + if t.ingest.occupied < ScriptHashHead.sealCap t.ingest.slots then 1 else 2

theorem ingestLoop (separate : Separate asked) {rounds : Nat} (shows : t.Shows asked A)
    (bounded : t.Bounded) {ups : List Upsert} (batch : Batch asked ups)
    (outside : ∀ u ∈ ups, A.Outside u.1) (calm : SealsCalmly F rounds t ups)
    (enough : roundsLeft t ups ≤ rounds) :
    ∃ t' A', HeadTable.ingestLoop F rounds t ups = (t', .ok ()) ∧ t'.Shows asked A' ∧ t'.Bounded ∧
      A'.read = overlay A.read ups := by
  induction rounds generalizing t A ups with
  | zero =>
    unfold roundsLeft at enough
    split_ifs at enough <;> omega
  | succ rounds ih =>
    unfold SealsCalmly at calm
    unfold HeadTable.ingestLoop
    by_cases done : ups = []
    · subst done
      exact ⟨t, A, if_pos rfl, shows, bounded, rfl⟩
    rw [if_neg done] at calm ⊢
    have some_left : 0 < ups.length := length_pos_iff.mpr done
    have room_eq := shows.roomBeforeSeal_eq
    by_cases full : t.ingest.roomBeforeSeal = 0
    · -- nothing fits: ingest is sealed first
      rw [if_pos full] at calm ⊢
      obtain ⟨calm, later⟩ := calm
      have no_space : ¬t.ingest.occupied < sealCap t.ingest.slots := by omega
      obtain ⟨t', A', sealed, shows', bounded', read', empty, stays⟩ :=
        shows.sealIngest separate bounded calm (shows.ready.resolve_left no_space).2
      rw [sealed] at later ⊢
      have space := shows'.space_of_empty empty
      obtain ⟨t₂, A₂, looped, shows₂, bounded₂, read₂⟩ := ih shows' bounded' batch
        (fun u mem => stays u.1 (outside u mem) (shows.live_of_get (calm.rest u mem))) later (by
          unfold roundsLeft at enough ⊢
          rw [if_neg no_space] at enough
          rw [if_pos space]
          omega)
      exact ⟨t₂, A₂, looped, shows₂, bounded₂, by rw [read₂, read']⟩
    · rw [if_neg full] at calm ⊢
      have space : t.ingest.occupied < sealCap t.ingest.slots := by omega
      generalize chunk_eq : min t.ingest.roomBeforeSeal ups.length = n at calm ⊢
      have front : Batch asked (ups.take n) := batch.sublist (take_sublist _ _)
      have back : Batch asked (ups.drop n) := batch.sublist (drop_sublist _ _)
      have split : overlay A.read ups = overlay (overlay A.read (ups.take n)) (ups.drop n) := by
        rw [← overlay_append, take_append_drop]
      obtain ⟨ingest, inserted, shows₁, read₁⟩ := shows.insertChunk separate front
        (fun u mem => outside u (mem_of_mem_take mem))
        (by rw [length_take]; omega) space
      simp only [inserted] at calm ⊢
      -- the rest of the batch has other keys than the chunk
      have outside₁ : ∀ u ∈ ups.drop n, A.Outside u.1 := fun u mem =>
        outside u (mem_of_mem_drop mem)
      have size : (ups.drop n).length = ups.length - n := length_drop ..
      unfold roundsLeft at enough
      rw [if_pos space] at enough
      by_cases load : ({ t with ingest } : HeadTable).ingest.atSealLoad = true
      · simp only [maybeSealIngest, load] at calm ⊢
        obtain ⟨calm, later⟩ := calm
        have no_space := not_lt.mpr (shows₁.atSealLoad_iff.mp load)
        obtain ⟨t', A', sealed, shows', bounded', read', empty, stays⟩ :=
          shows₁.sealIngest separate bounded calm (shows₁.ready.resolve_left no_space).2
        rw [sealed] at later ⊢
        have space' := shows'.space_of_empty empty
        obtain ⟨t₂, A₂, looped, shows₂, bounded₂, read₂⟩ := ih shows' bounded' back
          (fun u mem => stays u.1 (outside₁ u mem) (shows₁.live_of_get (calm.rest u mem))) later (by
            unfold roundsLeft
            rw [if_pos space']
            omega)
        exact ⟨t₂, A₂, looped, shows₂, bounded₂, by rw [read₂, read', read₁, split]⟩
      · simp only [maybeSealIngest, load] at calm ⊢
        have space' : ingest.occupied < sealCap ingest.slots := by
          by_contra less
          exact load (shows₁.atSealLoad_iff.mpr (not_lt.mp less))
        obtain ⟨t₂, A₂, looped, shows₂, bounded₂, read₂⟩ := ih shows₁ bounded back outside₁ calm (by
          unfold roundsLeft
          rw [if_pos space']
          omega)
        exact ⟨t₂, A₂, looped, shows₂, bounded₂, by rw [read₂, read₁, split]⟩

theorem batchHomes (shows : t.Shows asked A) {batch : List Upsert} (ask : ∀ u ∈ batch, asked u.1) :
    ∃ upserts, t.batchHomes batch = .ok upserts ∧ upserts.map fst = batch ∧
      ∀ x ∈ upserts, A.IsHome x.1.1 x.2 := by
  induction batch with
  | nil => exact ⟨[], rfl, rfl, by simp⟩
  | cons u batch ih =>
    obtain ⟨found, located, -, isHome⟩ := shows.locateHead_eq (ask u mem_cons_self)
    obtain ⟨upserts, homes, keys, all⟩ := ih (forall_mem_cons.mp ask).2
    refine ⟨(u, (found.map snd).getD .absent) :: upserts, ?_, by simp [keys], ?_⟩
    · unfold HeadTable.batchHomes at homes ⊢
      rw [mapM_cons, keyHome, located, homes]
      rfl
    · exact forall_mem_cons.mpr ⟨isHome, all⟩

theorem sentTo_perm (ups : List (Upsert × KeyHome)) :
    (sentTo ups (· = .main) ++ (sentTo ups (· = .sealedOvf) ++
      sentTo ups fun h => h = .ingest ∨ h = .absent)).Perm (ups.map fst) := by
  unfold sentTo
  rw [← map_append, ← map_append]
  apply Perm.map
  induction ups with
  | nil => exact .rfl
  | cons x ups ih =>
    obtain ⟨u, home⟩ := x
    cases home with
    | main => simpa using ih
    | sealedOvf => simpa using perm_middle.trans (ih.cons _)
    | ingest | absent =>
      rw [← append_assoc]
      refine perm_middle.trans (Perm.cons _ ?_)
      rw [append_assoc]
      exact ih

theorem updateHomes (shows : t.Shows asked A) {upserts : List (Upsert × KeyHome)}
    (homes : ∀ x ∈ upserts, A.IsHome x.1.1 x.2) (batch : Batch asked (upserts.map fst)) :
    ∃ t' A' done, t.updateHomes upserts =
        (t', .ok (sentTo upserts fun h => h = .ingest ∨ h = .absent)) ∧
      t'.Shows asked A' ∧ (t.Bounded → t'.Bounded) ∧ A.SameKeys A' ∧
      A'.read = overlay A.read done ∧
      (done ++ sentTo upserts fun h => h = .ingest ∨ h = .absent).Perm (upserts.map fst) := by
  have storable : ∀ x ∈ upserts, x.1.2.Storable := fun x mem =>
    batch.storable x.1 (mem_map_of_mem mem)
  have sealedHome : ∀ u ∈ sentTo upserts (· = .sealedOvf),
      A.IsHome u.1 .sealedOvf ∧ u.2.Storable := by
    intro u sent
    obtain ⟨x, passed, rfl⟩ := mem_map.mp sent
    obtain ⟨mem, home⟩ := mem_filter.mp passed
    have isHome := homes x mem
    rw [of_decide_eq_true home] at isHome
    exact ⟨isHome, storable x mem⟩
  obtain ⟨t₁, A₁, routed, shows₁, kept₁, sets₁⟩ := shows.routeUpserts homes storable [] []
  obtain ⟨t₂, A₂, hits, missed, flushed, shows₂, kept₂, sets₂, perm, in_l1⟩ := shows₁.sealedMisses
    (fun u mem => sets₁.sameKeys.isHome (sealedHome u mem).1) fun u mem => (sealedHome u mem).2
  obtain ⟨t₃, A₃, tried, shows₃, kept₃, sets₃⟩ := shows₂.l1Misses in_l1
    fun u mem => (sealedHome u (perm.subset (mem_append_right _ mem))).2
  refine ⟨t₃, A₃, sentTo upserts (· = .main) ++ (hits ++ missed), ?_, shows₃,
    kept₃ ∘ kept₂ ∘ kept₁, (sets₁.sameKeys.trans sets₂.sameKeys).trans sets₃.sameKeys, ?_, ?_⟩
  · simp only [nil_append] at routed
    simp only [HeadTable.updateHomes, routed, flushed, tried, append_nil]
  · rw [sets₃.read shows₂.apart, sets₂.read shows₁.apart, sets₁.read shows.apart, overlay_append,
      overlay_append]
  · refine Perm.trans ?_ (sentTo_perm upserts)
    rw [append_assoc]
    exact (perm.append_right _).append_left _

end Shows

variable {asked : ShHeadKey → Prop} {t : HeadTable} {m : ShHeadKey → ShHeadValue}

theorem Shows.upsertBatch {A : HeadTiers} (separate : Separate asked) (shows : t.Shows asked A)
    (bounded : t.Bounded) {batch : List Upsert} (ok : Batch asked batch)
    (calm : BatchCalm F t batch) :
    ∃ t' A', t.upsertBatch F batch = (t', .ok ()) ∧ t'.Shows asked A' ∧ t'.Bounded ∧
      A'.read = overlay A.read batch := by
  obtain ⟨upserts, located, keys, homes⟩ := shows.batchHomes ok.asked
  obtain ⟨t₁, A₁, done, updated, shows₁, kept, sameKeys, read₁, perm⟩ :=
    shows.updateHomes homes (keys ▸ ok)
  rw [keys] at perm
  generalize left_eq : (sentTo upserts fun h => h = .ingest ∨ h = .absent) = left at updated perm
  have rest : Batch asked left := by
    have sub : ∀ u ∈ left, u ∈ batch := fun u mem => perm.subset (mem_append_right _ mem)
    have nodup : ((done ++ left).map fst).Nodup :=
      (perm.map fst).nodup_iff.mpr ok.nodup
    rw [map_append] at nodup
    exact ⟨(nodup_append.mp nodup).2.1, fun u mem => ok.asked u (sub u mem),
      fun u mem => ok.storable u (sub u mem)⟩
  have outside : ∀ u ∈ left, A₁.Outside u.1 := by
    intro u sent
    rw [← left_eq] at sent
    obtain ⟨x, passed, rfl⟩ := mem_map.mp sent
    obtain ⟨mem, free⟩ := mem_filter.mp passed
    exact sameKeys.outside (.of_home shows.apart (homes x mem) (of_decide_eq_true free))
  obtain ⟨t', A', looped, shows', bounded', read'⟩ := ingestLoop separate shows₁ (kept bounded) rest
    outside (calm upserts t₁ left located updated) (by
      unfold roundsLeft
      split_ifs <;> omega)
  refine ⟨t', A', ?_, shows', bounded', ?_⟩
  · simp only [HeadTable.upsertBatch, located, applyHeadUpserts, updated]
    exact looped
  · rw [read', read₁, ← overlay_append]
    exact overlay_perm perm ((perm.map fst).nodup_iff.mpr ok.nodup)

section Homes

variable (t : HeadTable)

def views (key : ShHeadKey) : List (Result (Option ShHeadValue)) :=
  t.ingest.get key :: t.mainGet key ::
    (match t.ovfL1 with
      | none => .ok none
      | some l1 => l1.head.get key) :: t.sealedOvf.map (·.get t.dir key)

def hasValue : Result (Option ShHeadValue) → Bool
  | .ok (some v) => !v.isEmpty
  | _ => false

def homeCount (key : ShHeadKey) : Nat := (t.views key).countP hasValue

end Homes

theorem count_le_one {fs : List (Words ShHeadKey)} (apart : Apart fs) (key : ShHeadKey) :
    fs.countP (fun f => (f key).isSome) ≤ 1 := by
  induction fs with
  | nil => exact Nat.zero_le _
  | cons f fs ih =>
    obtain ⟨others, apart⟩ := pairwise_cons.mp apart
    rw [countP_cons]
    split_ifs with member
    · have none_left : fs.countP (fun f => (f key).isSome) = 0 := by
        refine countP_eq_zero.mpr fun g mem known => ?_
        rcases others g mem key with missing | missing
        · rw [missing] at member
          cases member
        · rw [missing] at known
          cases known
      omega
    · exact ih apart

namespace Shows

variable {asked : ShHeadKey → Prop} {t : HeadTable} {A : HeadTiers} (shows : t.Shows asked A)
include shows

variable {key : ShHeadKey}

theorem views_eq (ask : asked key) : t.views key = A.all.map fun f => .ok (Words.values f key) := by
  have sealed : t.sealedOvf.map (·.get t.dir key) =
      A.files.map fun f => .ok (Words.values f key) := by
    have decodes : ∀ f ∈ A.files, Words.Decodes f := fun f mem =>
      shows.decodes.2 f (by simp [HeadTiers.all, mem])
    have files := shows.files
    generalize t.sealedOvf = heads, A.files = files at files decodes ⊢
    induction files with
    | nil => rfl
    | cons here _ ih =>
      obtain ⟨recs, holds, rfl⟩ := here
      have decodes' : (Words.ofRecs recs).Decodes := decodes _ mem_cons_self
      rw [map_cons, map_cons, ih (forall_mem_cons.mp decodes).2, holds.get_eq, decodes'.get_eq]
  have merged : (match t.ovfL1 with
      | none => .ok none
      | some l1 => l1.head.get key) = (.ok (A.l1.values key) : Result (Option ShHeadValue)) := by
    have decodes : A.l1.Decodes := shows.decodes.2 A.l1 (by simp [HeadTiers.all])
    rw [← decodes.get_eq]
    have l1 := shows.l1
    unfold L1Shows at l1
    cases held : t.ovfL1 with
    | none =>
      rw [held] at l1
      simp only [l1, Words.get]
    | some l =>
      rw [held] at l1
      exact l1.1.head.get_eq ask
  rw [views, shows.ingest_get, shows.mainGet_eq ask, merged, sealed]
  rfl

theorem homeCount_le (ask : asked key) : t.homeCount key ≤ 1 := by
  refine le_trans ?_ (count_le_one shows.apart key)
  rw [homeCount, shows.views_eq ask, countP_map]
  refine countP_mono_left fun f mem valued => ?_
  have decodes : Words.Decodes f := shows.decodes.2 f mem
  rw [← decodes.isSome_values]
  cases value : Words.values f key with
  | none => simp [hasValue, value] at valued
  | some v => rfl

theorem locateHead_value (ask : asked key) {v : ShHeadValue} (storable : v.Storable)
    (read : A.read key = Words.word v) :
    ∃ found, t.locateHead key = .ok found ∧ (found.map fst).getD .empty = v := by
  obtain ⟨found, located, value, -⟩ := shows.locateHead_eq ask
  refine ⟨found, located, ?_⟩
  rw [value]
  unfold HeadTiers.read at read
  cases first_eq : first A.all key with
  | none =>
    rw [first_eq] at read
    have empty := (Words.word_eq_zero storable).mp read.symm
    rw [Words.values_of_none first_eq]
    exact (ShHeadValue.isEmpty_iff.mp empty).symm
  | some w =>
    rw [first_eq] at read
    have word : w = Words.word v := read
    rw [Words.values_of_word storable (word ▸ first_eq)]
    rfl

end Shows

/-- A table with an empty overflow over some main shards. -/
def start (slots : Nat) (main : List (Option MphfHead)) : HeadTable where
  dir := ∅
  ingest := .createWithSlots slots
  sealedOvf := []
  ovfL1 := none
  sortedMain := main
  ingestSlots := slots

/-- The main shards hold a map, as far as keys are asked. -/
structure MainHolds (asked : ShHeadKey → Prop) (main : List (Option MphfHead))
    (words : Words ShHeadKey) : Prop where
  shards : ∀ i, (start 0 main).ShardShows asked words i
  decodes : words.Decodes
  asked : ∀ k, (words k).isSome → asked k

variable {words : Words ShHeadKey}

theorem start_shows {main : List (Option MphfHead)} (holds : MainHolds asked main words)
    {bits : Nat} (three : 3 ≤ bits) (small : bits < 64) :
    (start (2 ^ bits) main).Shows asked ⟨fun _ => none, words, fun _ => none, []⟩ := by
  obtain ⟨empty, size, zero⟩ := createWithSlots_holds three small
  have large : 2 ^ 3 ≤ 2 ^ bits := Nat.pow_le_pow_right (by decide) three
  exact {
    ingest := empty
    slots := ⟨bits, three, small, rfl, size⟩
    ready := by
      refine .inl ?_
      simp only [start, sealCap]
      omega
    files := .nil
    paths := rfl
    data := fun _ _ found => by cases found
    l1 := rfl
    main := holds.shards
    decodes := by
      have none : Words.Decodes fun _ : ShHeadKey => none := fun found => by cases found
      simp only [HeadTiers.all, mem_cons, not_mem_nil, or_false, forall_eq_or_imp, forall_eq]
      exact ⟨@none, @none, holds.decodes, @none⟩
    asked := by
      simp only [HeadTiers.all, mem_cons, not_mem_nil, or_false, forall_eq_or_imp, forall_eq]
      exact ⟨fun _ known => (by cases known), holds.asked, fun _ known => (by cases known)⟩
    apart := by
      simp only [HeadTiers.all, Apart, pairwise_cons, mem_cons, not_mem_nil,
        or_false, forall_eq_or_imp, forall_eq]
      exact ⟨⟨fun _ => .inl rfl, fun _ => .inl rfl⟩, fun _ => .inr trivial, by simp, .nil⟩ }

def afterBatch (F : FuseFloats) (t : HeadTable) (batch : List Upsert) : HeadTable :=
  (t.upsertBatch F batch).1

/-- The values after some upserts, one after the other. -/
def latest (m : ShHeadKey → ShHeadValue) (ups : List Upsert) : ShHeadKey → ShHeadValue :=
  ups.foldl (fun m u => Function.update m u.1 u.2) m

theorem overlay_latest {r : ShHeadKey → UInt64} (words : ∀ k, r k = Words.word (m k))
    (ups : List Upsert) (k : ShHeadKey) : overlay r ups k = Words.word (latest m ups k) := by
  induction ups generalizing m r with
  | nil => exact words k
  | cons u ups ih =>
    refine ih fun l => ?_
    simp only
    by_cases same : l = u.1
    · rw [same, update_self, update_self]
    · rw [update_of_ne same, update_of_ne same, words]

theorem latest_storable (start : ∀ k, (m k).Storable) {ups : List Upsert}
    (storable : ∀ u ∈ ups, u.2.Storable) (k : ShHeadKey) : (latest m ups k).Storable := by
  induction ups generalizing m with
  | nil => exact start k
  | cons u ups ih =>
    refine ih (fun l => ?_) (forall_mem_cons.mp storable).2
    simp only
    by_cases same : l = u.1
    · rw [same, update_self]
      exact storable u mem_cons_self
    · rw [update_of_ne same]
      exact start l

def valueIn (words : Words ShHeadKey) (k : ShHeadKey) : ShHeadValue := (words.values k).getD .empty

def Keeps (asked : ShHeadKey → Prop) (t : HeadTable) (m : ShHeadKey → ShHeadValue) : Prop :=
  (∀ k, (m k).Storable) ∧ t.Bounded ∧ ∃ A, t.Shows asked A ∧ ∀ k, A.read k = Words.word (m k)

theorem Keeps.upsertBatch (separate : Separate asked) (keeps : t.Keeps asked m)
    {batch : List Upsert} (ok : Batch asked batch) (calm : BatchCalm F t batch) :
    (t.upsertBatch F batch).2 = .ok () ∧ (t.afterBatch F batch).Keeps asked (latest m batch) := by
  obtain ⟨storable, bounded, A, shows, read⟩ := keeps
  obtain ⟨t', A', made, shows', bounded', read'⟩ := shows.upsertBatch separate bounded ok calm
  rw [afterBatch, made]
  refine ⟨rfl, latest_storable storable ok.storable, bounded', A', shows', fun k => ?_⟩
  rw [read', overlay_latest read]

theorem Keeps.batches (separate : Separate asked) (keeps : t.Keeps asked m)
    {batches : List (List Upsert)} (ok : ∀ batch ∈ batches, Batch asked batch)
    (calm : Run.AllMeet (afterBatch F) (BatchCalm F) t batches) :
    (batches.foldl (afterBatch F) t).Keeps asked (latest m batches.flatten) := by
  induction batches generalizing t m with
  | nil => exact keeps
  | cons batch batches ih =>
    obtain ⟨-, kept⟩ := keeps.upsertBatch separate (ok batch mem_cons_self) calm.1
    have rest := ih kept (forall_mem_cons.mp ok).2 calm.2
    rwa [flatten_cons, latest, foldl_append]

theorem valueIn_word (decodes : words.Decodes) (k : ShHeadKey) :
    (valueIn words k).Storable ∧ (words k).getD 0 = Words.word (valueIn words k) := by
  cases found : words k with
  | none =>
    rw [valueIn, Words.values_of_none found]
    exact ⟨trivial, rfl⟩
  | some w =>
    obtain ⟨v, storable, rfl⟩ := decodes found
    rw [valueIn, Words.values_of_word storable found]
    exact ⟨storable, rfl⟩

theorem start_keeps {main : List (Option MphfHead)} (holds : MainHolds asked main words)
    {bits : Nat} (three : 3 ≤ bits) (small : bits < 64) :
    (start (2 ^ bits) main).Keeps asked (valueIn words) := by
  refine ⟨fun k => (valueIn_word holds.decodes k).1, fun _ => Nat.zero_le _, _,
    start_shows holds three small, fun k => ?_⟩
  have read : first [fun _ => none, words, fun _ => none] k = words k := by
    simp only [first, findSome?_cons]
    cases words k <;> rfl
  exact (congrArg (·.getD 0) read).trans (valueIn_word holds.decodes k).2

/-- In a run of batches whose seals are all calm, every batch is made, no key has a value in two
heads, a merge would find no key twice, and every key is found with the value of its last upsert. -/
theorem single_home (F : FuseFloats) (asked : ShHeadKey → Prop) (separate : Separate asked)
    (bits : Nat) (three : 3 ≤ bits) (small : bits < 64) (main : List (Option MphfHead))
    (words : Words ShHeadKey) (holds : MainHolds asked main words) (batches : List (List Upsert))
    (ok : ∀ batch ∈ batches, Batch asked batch)
    (calm : Run.AllMeet (afterBatch F) (BatchCalm F) (start (2 ^ bits) main) batches) :
    ∀ done rest, batches = done ++ rest →
      let t := done.foldl (afterBatch F) (start (2 ^ bits) main)
      (∀ batch ∈ rest.head?, (t.upsertBatch F batch).2 = .ok ()) ∧
        (∀ recs, mergedRecs t.dir t.sealedOvf = .ok recs →
          (byKey recs).IsChain fun a b => a.1 ≠ b.1) ∧
        ∀ key, asked key → t.homeCount key ≤ 1 ∧ ∃ found, t.locateHead key = .ok found ∧
            (found.map fst).getD .empty = latest (valueIn words) done.flatten key := by
  rintro done rest rfl t
  have kept := (start_keeps holds three small).batches separate
    (fun batch mem => ok batch (mem_append_left _ mem)) calm.of_append
  obtain ⟨storable, bounded, A, shows, read⟩ := kept
  refine ⟨fun batch head => ?_, fun recs merged => ?_, fun key ask =>
    ⟨shows.homeCount_le ask, shows.locateHead_value ask (storable key) (read key)⟩⟩
  · cases rest with
    | nil => cases head
    | cons next rest =>
      cases head
      exact (Keeps.upsertBatch separate ⟨storable, bounded, A, shows, read⟩
        (ok batch (by simp)) calm.next).1
  · obtain ⟨recs', merged', nodup, -⟩ := shows.mergedRecs_eq
    cases merged.symm.trans merged'
    exact byKey_chain nodup

/-- A key whose other bytes are zero. -/
def smallKey (lo hi : UInt8) : ShHeadKey := ⟨lo :: hi :: List.replicate 14 0, rfl⟩

/-- Six of the seven values at which ingest of eight slots is sealed. -/
def sixUpserts : List Upsert := [(smallKey 23 1, .inlineOne 1), (smallKey 79 4, .inlineOne 2),
  (smallKey 159 1, .inlineOne 3), (smallKey 160 1, .inlineOne 4), (smallKey 228 1, .inlineOne 5),
  (smallKey 242 0, .inlineOne 6)]

/-- A new key, which fills ingest, and then a key of the six. -/
def sealingUpserts : List Upsert := [(smallKey 16 4, .inlineOne 7), (smallKey 242 0, .inlineOne 8)]

theorem builds_of_eval {F : FuseFloats} {recs : Result (List (ShHeadKey × UInt64))}
    {keys : List (ShHeadKey × UInt64) → List UInt64}
    (known : (recs.toOption.all fun recs => (SealedFuse8.build F (keys recs)).toOption.any fun f =>
      f.geometry && (keys recs).all f.contains) = true) :
    ∀ r, recs = .ok r → SealedFuse8.Builds F (keys r) := by
  rintro r rfl
  cases built : SealedFuse8.build F (keys r) with
  | error e =>
    rw [Except.toOption, Option.all_some, built] at known
    cases known
  | ok f =>
    simp only [built, Except.toOption, Option.all_some, Option.any_some, Bool.and_eq_true,
      all_eq_true] at known
    exact ⟨f, built, known⟩

/-- The seventh value fills ingest. -/
def sevenUpserts : List Upsert := sixUpserts ++ [(smallKey 16 4, .inlineOne 7)]

/-- Seven upserts fill ingest of eight slots, which is sealed behind the last. -/
theorem single_home_seven :
    ((start (2 ^ 3) []).afterBatch sampleFloats sevenUpserts).sealedOvf.length = 1 ∧
    ((start (2 ^ 3) []).afterBatch sampleFloats sevenUpserts).homeCount (smallKey 242 0) ≤ 1 ∧
    ∃ found, ((start (2 ^ 3) []).afterBatch sampleFloats sevenUpserts).locateHead
        (smallKey 242 0) = .ok found ∧ (found.map fst).getD .empty = .inlineOne 6 := by
  refine ⟨by decide +kernel, ?_⟩
  have folds : ∀ k ∈ sevenUpserts.map fst, ∀ l ∈ sevenUpserts.map fst,
      mixKey16 k = mixKey16 l → k = l := by decide +kernel
  have separate : Separate (· ∈ sevenUpserts.map fst) :=
    ⟨by decide +kernel, fun k l hk hl => folds k hk l hl⟩
  have holds : MainHolds (· ∈ sevenUpserts.map fst) [] fun _ => none :=
    ⟨fun _ _ _ _ => rfl, nofun, nofun⟩
  have ok : ∀ b ∈ [sevenUpserts], Batch (· ∈ sevenUpserts.map fst) b := by
    intro b mem
    obtain rfl := mem_singleton.mp mem
    exact ⟨by decide +kernel, fun u => mem_map_of_mem, by decide +kernel⟩
  have calm : BatchCalm sampleFloats (start (2 ^ 3) []) sevenUpserts := by
    intro upserts t' ups located updated
    have homes : (start (2 ^ 3) []).batchHomes sevenUpserts =
        .ok (sevenUpserts.map (·, .absent)) := by decide +kernel
    cases homes.symm.trans located
    have left : (start (2 ^ 3) []).updateHomes (sevenUpserts.map (·, .absent)) =
      (start (2 ^ 3) [], .ok sevenUpserts) := rfl
    cases left.symm.trans updated
    have last : sevenUpserts.drop
        (min (start (2 ^ 3) []).ingest.roomBeforeSeal sevenUpserts.length) = [] := by
      decide +kernel
    rw [SealsCalmly, if_neg (by decide), if_neg (by decide +kernel)]
    simp only [last]
    rw [if_pos (by decide +kernel)]
    refine ⟨⟨by simp, nofun, builds_of_eval (by decide +kernel), ?_⟩, ?_⟩
    · intro _ _ _ _ _ _ (eight : 8 ≤ 1)
      omega
    · trivial
  obtain ⟨-, -, found⟩ := single_home sampleFloats _ separate 3 (by decide) (by decide) []
    (fun _ => none) holds [sevenUpserts] ok ⟨calm, trivial⟩ [sevenUpserts] [] rfl
  obtain ⟨one, found⟩ := found (smallKey 242 0) (by decide +kernel)
  rw [foldl_cons, foldl_nil] at one found
  have value : latest (valueIn fun _ => none) [sevenUpserts].flatten (smallKey 242 0) =
      .inlineOne 6 := by decide +kernel
  rw [value] at found
  exact ⟨one, found⟩

/-- The home of the second key was looked up before the seal that the first one makes: its old value
is sealed, and its new one is entered in the next ingest. -/
theorem homeCount_two :
    let F := sampleFloats
    let t := (start 8 []).afterBatch F sixUpserts
    (sixUpserts.map fst).Nodup ∧ (sealingUpserts.map fst).Nodup ∧
      Accepts ((start 8 []).upsertBatch F sixUpserts).2 ∧
      Accepts (t.upsertBatch F sealingUpserts).2 ∧
      (t.afterBatch F sealingUpserts).homeCount (smallKey 242 0) = 2 := by
  decide +kernel

end HeadTable

end Rbitcoin.Store
