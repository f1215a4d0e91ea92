import Rbitcoin.Store.HeadTiers

/-! A batch of upserts keeps the tiers of a table: keys that are in main or in an overflow head are
updated there, the others are entered in ingest, and a seal or a merge moves keys without changing
what is read. -/

namespace Rbitcoin.Store

open Bytes Outcome Tiers Words List

variable {dir dir' : Dir}

theorem SortedHead.Holds.frame {head : SortedHead} {recs : List (ShHeadKey × UInt64)}
    (holds : head.Holds dir recs)
    (same : ∀ kind, kind.ofSealed → dir'.lookup (sidecar head.path kind) =
      dir.lookup (sidecar head.path kind)) : head.Holds dir' recs where
  data := by
    have data := same .data rfl
    rw [sidecar_data] at data
    exact data.trans holds.data
  idxFile := (same .idx rfl).trans holds.idxFile
  filter := by
    rw [same .fuse8 rfl]
    exact holds.filter
  sorted := holds.sorted
  count := holds.count
  idx := holds.idx

theorem OvfL1.Shows.frame {asked : ShHeadKey → Prop} {l1 : OvfL1} {f : Words ShHeadKey}
    (shows : l1.Shows asked dir f)
    (same : ∀ kind, kind.ofMerged → dir'.lookup (sidecar l1.path kind) =
      dir.lookup (sidecar l1.path kind)) : l1.Shows asked dir' f where
  head := shows.head
  filter := by
    rw [same .fuse8 rfl]
    exact shows.filter
  mphfFile := (same .mphf rfl).trans shows.mphfFile
  valFile := (same .val rfl).trans shows.valFile
  opens := shows.opens

namespace HeadTable

variable {files : List (Words ShHeadKey)} {heads : List SortedHead}

theorem FilesHold.frame (holds : FilesHold dir heads files)
    (same : ∀ head ∈ heads, ∀ kind, kind.ofSealed → dir'.lookup (sidecar head.path kind) =
      dir.lookup (sidecar head.path kind)) : FilesHold dir' heads files := by
  induction holds with
  | nil => exact .nil
  | cons here _ ih =>
    obtain ⟨recs, holds, eq⟩ := here
    exact .cons ⟨recs, holds.frame (same _ mem_cons_self), eq⟩ (ih (forall_mem_cons.mp same).2)

/-- There are no more heads than are merged at once. -/
def Bounded (t : HeadTable) : Prop :=
  t.ovfL1 = none → t.sealedOvf.length ≤ sealedOvfCompactFiles

namespace Shows

variable {asked : ShHeadKey → Prop} {t : HeadTable} {A : HeadTiers} (shows : t.Shows asked A)
include shows

variable {head : SortedHead} {u : Upsert} {dir : Dir}

theorem data_frame {id : Nat} {file : File}
    (same : dir.lookup (sidecar (sealedOvfPath id) .data) =
      t.dir.lookup (sidecar (sealedOvfPath id) .data))
    (found : dir.lookup (sealedOvfPath id) = some file) : ∃ recs, file = .sorted recs := by
  rw [sidecar_data] at same
  exact shows.data id file (same.symm.trans found)

theorem path_eq {i : Nat} (at_i : t.sealedOvf[i]? = some head) :
    i < t.sealedOvf.length ∧ head.path = sealedOvfPath i := by
  obtain ⟨hi, rfl⟩ := List.getElem?_eq_some_iff.mp at_i
  have paths := congrArg (fun l => l[i]?) shows.paths
  simp only [getElem?_map, getElem?_eq_getElem hi, getElem?_range hi] at paths
  exact ⟨hi, Option.some.inj paths⟩

theorem path_of_mem (mem : head ∈ t.sealedOvf) :
    ∃ i < t.sealedOvf.length, head.path = sealedOvfPath i := by
  obtain ⟨i, at_i⟩ := getElem?_of_mem mem
  obtain ⟨hi, path⟩ := shows.path_eq at_i
  exact ⟨i, hi, path⟩

theorem mainUpdate (member : (A.main u.1).isSome) (storable : u.2.Storable) :
    ∃ t', t.mainUpdate u = .ok (t', true) ∧ (t.Bounded → t'.Bounded) ∧
      t'.Shows asked { A with main := A.main.set u.1 (word u.2) } := by
  have sets := HeadTiers.Sets.main (u := u) member
  have ask : asked u.1 := shows.asked A.main (by simp [HeadTiers.all]) u.1 member
  have shard := shows.main (t.shardIndex u.1)
  unfold ShardShows at shard
  split at shard
  · next head at_shard =>
    obtain ⟨head', updated, shows', -⟩ :=
      shard.updateValue_some ⟨ask, rfl⟩ member storable
    refine ⟨{ t with sortedMain := t.sortedMain.set (t.shardIndex u.1) (some head') },
      by simp only [HeadTable.mainUpdate, at_shard, updated]; rfl, id, ?_⟩
    have inside := (List.getElem?_eq_some_iff.mp at_shard).1
    refine { shows with
      main := fun i => ?_
      decodes := ⟨shows.decodes.1, sets.decodes shows.decodes.2 storable⟩
      asked := sets.asked shows.asked
      apart := (sets.apart_read shows.apart).1 }
    have shards (k : ShHeadKey) :
        { t with sortedMain := t.sortedMain.set (t.shardIndex u.1) (some head') }.shardIndex k =
          t.shardIndex k := by
      simp [shardIndex]
    unfold ShardShows
    simp only [shards]
    by_cases here : t.shardIndex u.1 = i
    · rw [← here, getElem?_set_self inside]
      exact shows'
    · rw [getElem?_set_ne here]
      have other := shows.main i
      unfold ShardShows at other
      have elsewhere {k : ShHeadKey} (hk : t.shardIndex k = i) :
          A.main.set u.1 (word u.2) k = A.main k :=
        set_ne _ fun same => here (same ▸ hk)
      split at other
      · exact other.congr fun k hk => elsewhere hk.2
      · intro k hk in_i
        rw [elsewhere in_i]
        exact other k hk in_i
  · rw [shard u.1 ask rfl] at member
    cases member

omit shows in
theorem sealedUpdate_none (holds : FilesHold dir heads files)
    (missing : ∀ f ∈ files, f u.1 = none) :
    sealedUpdate dir u heads = .ok (dir, false) := by
  induction holds with
  | nil => rfl
  | cons here _ ih =>
    obtain ⟨recs, holds, rfl⟩ := here
    rw [sealedUpdate, holds.updateValue_none u.2 (missing _ mem_cons_self)]
    exact ih (forall_mem_cons.mp missing).2

omit shows in
theorem sealedUpdate_some (holds : FilesHold dir heads files) (member : ∃ f ∈ files, (f u.1).isSome)
    (storable : u.2.Storable) :
    ∃ head ∈ heads, ∃ recs recs', head.Holds dir recs ∧ (ofRecs recs u.1).isSome ∧
      sealedUpdate dir u heads = .ok (dir.put head.path (.sorted recs'), true) ∧
      head.Holds (dir.put head.path (.sorted recs')) recs' ∧
      ofRecs recs' = (ofRecs recs).set u.1 (word u.2) := by
  induction holds with
  | nil =>
    obtain ⟨f, mem, -⟩ := member
    cases mem
  | @cons head f heads files here rest ih =>
    obtain ⟨recs, holds, rfl⟩ := here
    cases found : ofRecs recs u.1 with
    | some old =>
      obtain ⟨recs', updated, holds', -, words⟩ := holds.updateValue_some storable found
      refine ⟨head, mem_cons_self .., recs, recs', holds, by rw [found]; rfl, ?_, holds', words⟩
      rw [sealedUpdate, updated]
      rfl
    | none =>
      have later : ∃ f ∈ files, (f u.1).isSome := by
        obtain ⟨f, mem, member⟩ := member
        rcases mem_cons.mp mem with rfl | mem
        · rw [found] at member
          cases member
        · exact ⟨f, mem, member⟩
      obtain ⟨head', mem, recs', recs'', holds', known, updated, result⟩ := ih later
      refine ⟨head', mem_cons_of_mem _ mem, recs', recs'', holds', known, ?_, result⟩
      rw [sealedUpdate, holds.updateValue_none u.2 found]
      exact updated

theorem putSorted {i : Nat} {recs recs' : List (ShHeadKey × UInt64)}
    (at_i : t.sealedOvf[i]? = some head) (holds : head.Holds t.dir recs)
    (member : (ofRecs recs u.1).isSome) (storable : u.2.Storable)
    (holds' : head.Holds (t.dir.put head.path (.sorted recs')) recs')
    (words : ofRecs recs' = (ofRecs recs).set u.1 (word u.2)) :
    ∃ A', A.Sets u A' ∧
      ({ t with dir := t.dir.put head.path (.sorted recs') } : HeadTable).Shows asked A' := by
  obtain ⟨hi, path⟩ := shows.path_eq at_i
  have file_i : A.files[i]? = some (ofRecs recs) := by
    have hi' : i < A.files.length := shows.files.length_eq ▸ hi
    obtain ⟨recs₀, holds₀, eq⟩ := shows.files.get hi hi'
    obtain ⟨_, rfl⟩ := List.getElem?_eq_some_iff.mp at_i
    have same := Option.some.inj (holds₀.data.symm.trans holds.data)
    cases same
    rw [getElem?_eq_getElem hi']
    exact congrArg some eq
  have sets : A.Sets u _ := .file file_i member
  have others {j : Nat} {kind : FileKind} (ne : j ≠ i ∨ kind ≠ .data) :
      (t.dir.put head.path (.sorted recs')).lookup (sidecar (sealedOvfPath j) kind) =
        t.dir.lookup (sidecar (sealedOvfPath j) kind) := by
    apply Dir.lookup_put_ne
    rw [path, ← sidecar_data (sealedOvfPath i)]
    intro same
    obtain ⟨rfl, rfl⟩ := sidecar_inj same
    rcases ne with ne | ne <;> exact ne rfl
  refine ⟨_, sets, { shows with
    files := ?_
    data := ?_
    l1 := ?_
    decodes := ⟨shows.decodes.1, sets.decodes shows.decodes.2 storable⟩
    asked := sets.asked shows.asked
    apart := (sets.apart_read shows.apart).1 }⟩
  · refine forall₂_iff_get.mpr ⟨by rw [length_set]; exact shows.files.length_eq,
      fun j hj hj' => ?_⟩
    simp only [get_eq_getElem]
    by_cases here : j = i
    · subst here
      obtain ⟨_, rfl⟩ := List.getElem?_eq_some_iff.mp at_i
      exact ⟨recs', holds', by rw [List.getElem_set_self, words]⟩
    · rw [getElem_set_ne (Ne.symm here)]
      obtain ⟨recs₀, holds₀, eq⟩ := shows.files.get hj (by rwa [length_set] at hj')
      have path_j := (shows.path_eq (getElem?_eq_getElem hj)).2
      refine ⟨recs₀, holds₀.frame fun kind _ => ?_, eq⟩
      rw [get_eq_getElem, path_j]
      exact others (.inl here)
  · intro id file found
    by_cases here : id = i
    · rw [here, ← path, Dir.lookup_put_self] at found
      exact ⟨recs', (Option.some.inj found).symm⟩
    · exact shows.data_frame (others (.inl here)) found
  · have l1 := shows.l1
    unfold L1Shows at l1 ⊢
    split at l1
    · next none =>
      rw [none]
      exact l1
    · next l some =>
      rw [some]
      obtain ⟨shows', id, path', rest⟩ := l1
      refine ⟨shows'.frame fun kind merged => ?_, id, path', rest⟩
      rw [path']
      refine others (.inr ?_)
      rintro rfl
      cases merged

theorem sealedUpdate (member : ∃ f ∈ A.files, (f u.1).isSome) (storable : u.2.Storable) :
    ∃ dir A', HeadTable.sealedUpdate t.dir u t.sealedOvf.reverse = .ok (dir, true) ∧
      A.Sets u A' ∧ ({ t with dir } : HeadTable).Shows asked A' := by
  obtain ⟨f, mem, member⟩ := member
  obtain ⟨head, mem, recs, recs', holds, known, updated, holds', words⟩ :=
    sealedUpdate_some (rel_reverse shows.files) ⟨f, mem_reverse.mpr mem, member⟩ storable
  obtain ⟨i, at_i⟩ := getElem?_of_mem (mem_reverse.mp mem)
  obtain ⟨A', sets, shows'⟩ := shows.putSorted at_i holds known storable holds' words
  exact ⟨_, A', updated, sets, shows'⟩

theorem l1Update (member : (A.l1 u.1).isSome) (storable : u.2.Storable) :
    ∃ t', t.l1Update u = .ok (t', true) ∧ (t.Bounded → t'.Bounded) ∧
      t'.Shows asked { A with l1 := A.l1.set u.1 (word u.2) } := by
  have sets := HeadTiers.Sets.l1 (u := u) member
  have ask : asked u.1 := shows.asked A.l1 (by simp [HeadTiers.all]) u.1 member
  have l1 := shows.l1
  unfold L1Shows at l1
  split at l1
  · rw [l1] at member
    cases member
  · next l some =>
    obtain ⟨shows', id, path, above, small⟩ := l1
    obtain ⟨head', updated, shown, kept, opens⟩ := shows'.head.updateValue_some ask member storable
    have beside {kind : FileKind} (ne : kind ≠ .val) :
        sidecar l.path kind ≠ sidecar l.path .val := by
      rw [path]
      exact fun same => ne (sidecar_inj same).2
    have others {j : Nat} {kind : FileKind} (ne : kind ≠ .val) :
        (t.dir.put (sidecar l.path .val) (.val head'.valFile)).lookup
          (sidecar (sealedOvfPath j) kind) = t.dir.lookup (sidecar (sealedOvfPath j) kind) := by
      apply Dir.lookup_put_ne
      rw [path]
      intro same
      exact ne (sidecar_inj same).2
    have result : t.l1Update u = .ok ({ t with
        dir := t.dir.put (sidecar l.path .val) (.val head'.valFile)
        ovfL1 := .some { l with head := head' } }, true) := by
      simp only [HeadTable.l1Update, some, updated]
      rfl
    refine ⟨_, result, fun _ vacant => (by cases vacant), { shows with
      files := ?_
      data := ?_
      l1 := ?_
      decodes := ⟨shows.decodes.1, sets.decodes shows.decodes.2 storable⟩
      asked := sets.asked shows.asked
      apart := (sets.apart_read shows.apart).1 }⟩
    · refine FilesHold.frame shows.files fun head mem kind ofSealed => ?_
      obtain ⟨i, -, path_i⟩ := shows.path_of_mem mem
      rw [path_i]
      refine others ?_
      rintro rfl
      cases ofSealed
    · exact fun id file found => shows.data_frame (others (by decide)) found
    · refine ⟨⟨shown, ?_, ?_, ?_, opens shows'.opens⟩, id, path, above, small⟩
      · obtain ⟨g, file, geometry, fuse, all⟩ := shows'.filter
        refine ⟨g, ?_, geometry, fuse, fun k known => all k ?_⟩
        · exact (Dir.lookup_put_ne _ _ (beside (by decide))).trans file
        · rwa [isSome_set _ member] at known
      · rw [kept]
        exact (Dir.lookup_put_ne _ _ (beside (by decide))).trans shows'.mphfFile
      · exact Dir.lookup_put_self ..

end Shows

end HeadTable

def overlay (m : ShHeadKey → UInt64) (ups : List Upsert) : ShHeadKey → UInt64 :=
  ups.foldl (fun m u => Function.update m u.1 (Words.word u.2)) m

theorem overlay_append (m : ShHeadKey → UInt64) (ups ups' : List Upsert) :
    overlay m (ups ++ ups') = overlay (overlay m ups) ups' := foldl_append ..

variable {ups : List Upsert}

theorem overlay_apply {m : ShHeadKey → UInt64} (nodup : (ups.map Prod.fst).Nodup) (k : ShHeadKey) :
    overlay m ups k = ((ups.lookup k).map word).getD (m k) := by
  induction ups generalizing m with
  | nil => rfl
  | cons u ups ih =>
    rw [map_cons, nodup_cons] at nodup
    rw [overlay, foldl_cons, ← overlay, ih nodup.2, lookup_cons]
    by_cases same : k = u.1
    · subst same
      rw [Assoc.lookup_eq_none.mpr nodup.1, beq_self_eq_true]
      exact Function.update_self ..
    · rw [beq_eq_false_iff_ne.mpr same, Function.update_of_ne same]

theorem overlay_perm {m : ShHeadKey → UInt64} {ups ups' : List Upsert} (perm : ups.Perm ups')
    (nodup : (ups.map Prod.fst).Nodup) : overlay m ups = overlay m ups' := by
  funext k
  rw [overlay_apply nodup, overlay_apply ((perm.map Prod.fst).nodup_iff.mp nodup),
    Assoc.lookup_perm perm nodup]

namespace HeadTiers

/-- Upserts of keys that are in tiers other than ingest. -/
inductive SetsAll : HeadTiers → List Upsert → HeadTiers → Prop
  | nil (A : HeadTiers) : SetsAll A [] A
  | cons {A A' A'' : HeadTiers} {u : Upsert} {ups : List Upsert} (first : A.Sets u A')
    (rest : SetsAll A' ups A'') : SetsAll A (u :: ups) A''

variable {A A' : HeadTiers} {ups : List Upsert}

theorem SetsAll.sameKeys (sets : SetsAll A ups A') : SameKeys A A' := by
  induction sets with
  | nil A => exact .refl A
  | cons first _ ih => exact first.sameKeys.trans ih

theorem SetsAll.read (sets : SetsAll A ups A') (apart : Apart A.all) :
    A'.read = overlay A.read ups := by
  induction sets with
  | nil => rfl
  | cons first _ ih =>
    obtain ⟨apart', read'⟩ := first.apart_read apart
    rw [ih apart', read']
    rfl

end HeadTiers

open HeadTable (routeUpserts sealedMisses)

namespace HeadTable.Shows

variable {asked : ShHeadKey → Prop} {t : HeadTable} {A : HeadTiers}

def sentTo (ups : List (Upsert × KeyHome)) (home : KeyHome → Bool) : List Upsert :=
  (ups.filter fun x => home x.2).map Prod.fst

/-- What is homed in the main tier is set there, and the rest goes on to its tier. -/
theorem routeUpserts (shows : t.Shows asked A) {ups : List (Upsert × KeyHome)}
    (homes : ∀ x ∈ ups, A.IsHome x.1.1 x.2) (storable : ∀ x ∈ ups, x.1.2.Storable)
    (ingestUps sealedUps : List Upsert) :
    ∃ t' A', routeUpserts t ups (ingestUps, sealedUps) =
        (t', .ok (ingestUps ++ sentTo ups (fun h => h = .ingest ∨ h = .absent),
          sealedUps ++ sentTo ups (· = .sealedOvf))) ∧
      t'.Shows asked A' ∧ (t.Bounded → t'.Bounded) ∧ A.SetsAll (sentTo ups (· = .main)) A' := by
  induction ups generalizing t A ingestUps sealedUps with
  | nil => exact ⟨t, A, by simp [routeUpserts, sentTo], shows, id, .nil A⟩
  | cons x ups ih =>
    obtain ⟨u, home⟩ := x
    have here := homes _ mem_cons_self
    have later := (forall_mem_cons.mp homes).2
    have kept := (forall_mem_cons.mp storable).2
    cases home with
    | ingest =>
      obtain ⟨t', A', routed, rest⟩ := ih shows later kept (ingestUps ++ [u]) sealedUps
      exact ⟨t', A', by simpa [routeUpserts, sentTo] using routed, rest⟩
    | absent =>
      obtain ⟨t', A', routed, rest⟩ := ih shows later kept (ingestUps ++ [u]) sealedUps
      exact ⟨t', A', by simpa [routeUpserts, sentTo] using routed, rest⟩
    | sealedOvf =>
      obtain ⟨t', A', routed, rest⟩ := ih shows later kept ingestUps (sealedUps ++ [u])
      exact ⟨t', A', by simpa [routeUpserts, sentTo] using routed, rest⟩
    | main =>
      obtain ⟨t₁, updated, kept₁, shows₁⟩ :=
        shows.mainUpdate here (storable _ mem_cons_self)
      have sets := HeadTiers.Sets.main (u := u) here
      obtain ⟨t', A', routed, shows', kept', rest⟩ := ih shows₁
        (fun x mem => sets.sameKeys.isHome (later x mem)) kept ingestUps sealedUps
      exact ⟨t', A', by simpa [routeUpserts, sentTo, updated] using routed, shows',
        kept' ∘ kept₁, .cons sets rest⟩

theorem sealedMisses (shows : t.Shows asked A) (homes : ∀ u ∈ ups, A.IsHome u.1 .sealedOvf)
    (storable : ∀ u ∈ ups, u.2.Storable) :
    ∃ t' A' hits missed, sealedMisses t ups = (t', .ok missed) ∧ t'.Shows asked A' ∧
      (t.Bounded → t'.Bounded) ∧ A.SetsAll hits A' ∧ (hits ++ missed).Perm ups ∧
      ∀ u ∈ missed, (A'.l1 u.1).isSome := by
  induction ups generalizing t A with
  | nil => exact ⟨t, A, [], [], rfl, shows, id, .nil A, .rfl, by simp⟩
  | cons u ups ih =>
    have here := homes _ mem_cons_self
    have later := (forall_mem_cons.mp homes).2
    have kept := (forall_mem_cons.mp storable).2
    by_cases member : ∃ f ∈ A.files, (f u.1).isSome
    · obtain ⟨dir, A₁, updated, sets, shows₁⟩ :=
        shows.sealedUpdate member (storable _ mem_cons_self)
      obtain ⟨t', A', hits, missed, result, shows', bounded, rest, perm, l1⟩ :=
        ih shows₁ (fun u mem => sets.sameKeys.isHome (later u mem)) kept
      refine ⟨t', A', u :: hits, missed, ?_, shows', bounded, .cons sets rest, perm.cons u, l1⟩
      simp only [sealedMisses, updated, result]
      rfl
    · have missing : ∀ f ∈ A.files.reverse, f u.1 = none := by simpa using member
      have updated := sealedUpdate_none (rel_reverse shows.files) (u := u) missing
      obtain ⟨t', A', hits, missed, result, shows', bounded, rest, perm, l1⟩ := ih shows later kept
      refine ⟨t', A', hits, u :: missed, ?_, shows', bounded, rest,
        perm_middle.trans (perm.cons u), ?_⟩
      · simp only [sealedMisses, updated, result]
        rfl
      · intro v mem
        rcases mem_cons.mp mem with rfl | mem
        · rw [rest.sameKeys.l1]
          exact here.resolve_left member
        · exact l1 v mem

theorem l1Misses (shows : t.Shows asked A) (members : ∀ u ∈ ups, (A.l1 u.1).isSome)
    (storable : ∀ u ∈ ups, u.2.Storable) :
    ∃ t' A', HeadTable.l1Misses t ups = (t', .ok []) ∧ t'.Shows asked A' ∧
      (t.Bounded → t'.Bounded) ∧ A.SetsAll ups A' := by
  induction ups generalizing t A with
  | nil => exact ⟨t, A, rfl, shows, id, .nil A⟩
  | cons u ups ih =>
    have here := members _ mem_cons_self
    obtain ⟨t₁, updated, kept, shows₁⟩ := shows.l1Update here (storable _ mem_cons_self)
    have sets := HeadTiers.Sets.l1 (u := u) here
    obtain ⟨t', A', result, shows', kept', rest⟩ := ih shows₁
      (fun v mem => by
        rw [sets.sameKeys.l1]
        exact members v (mem_cons_of_mem _ mem))
      (forall_mem_cons.mp storable).2
    refine ⟨t', A', ?_, shows', kept' ∘ kept, .cons sets rest⟩
    simp only [HeadTable.l1Misses, updated, result]
    rfl

end HeadTable.Shows

end Rbitcoin.Store
