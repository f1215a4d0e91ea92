import Rbitcoin.Lib.Tiers
import Rbitcoin.Store.HeadTable

/-! What the heads are for: one map from keys to values, kept as tiers that have no key in common.
The table shows its tiers; a lookup reads the map, and an update of a key goes to the tier that has
it. -/

namespace Rbitcoin.Store

open Bytes Outcome Tiers Function

namespace Words

variable {κ : Type}

def live (f : Words κ) : Words κ := fun k => (f k).filter (· ≠ 0)

variable {f : Words κ} {k : κ}

/-- What is read of two maps one after the other, the first of which decodes. -/
theorem bind_or {a b : Option UInt64}
    (decodes : ∀ w, a = some w → ∃ v : ShHeadValue, v.Storable ∧ w = word v) :
    (a.or b).bind (fun w => (unpack8Bytes w).toOption) =
      (a.bind fun w => (unpack8Bytes w).toOption).or
        (b.bind fun w => (unpack8Bytes w).toOption) := by
  cases a with
  | none => rfl
  | some w =>
    obtain ⟨v, storable, rfl⟩ := decodes w rfl
    simp [unpack8Bytes_word storable, Except.toOption]

theorem Decodes.eq_none (decodes : f.Decodes) (missing : f.values k = none) : f k = none := by
  have known := decodes.isSome_values k
  rw [missing] at known
  exact Option.isNone_iff_eq_none.mp (Option.isSome_eq_false_iff.mp known.symm)

theorem live_eq_some {w : UInt64} : f.live k = some w ↔ f k = some w ∧ w ≠ 0 := by
  simp [live]

theorem live_eq_none : f.live k = none ↔ ∀ w, f k = some w → w = 0 := by
  simp [live]

theorem word_eq_zero {v : ShHeadValue} (storable : v.Storable) : word v = 0 ↔ v.isEmpty := by
  obtain ⟨w, packed, -, zero⟩ := pack8Bytes_storable storable
  rw [word, packed]
  exact zero.trans ShHeadValue.isEmpty_iff.symm

theorem Decodes.live (decodes : f.Decodes) : f.live.Decodes :=
  fun found => decodes (live_eq_some.mp found).1

theorem Decodes.values_live (decodes : f.Decodes) (k : κ) :
    f.live.values k = (f.values k).filter fun v => !v.isEmpty := by
  cases found : f k with
  | none =>
    have missing : f.live k = none := live_eq_none.mpr (by simp [found])
    rw [values_of_none found, values_of_none missing]
    rfl
  | some w =>
    obtain ⟨v, storable, rfl⟩ := decodes found
    rw [values_of_word storable found]
    cases empty : v.isEmpty with
    | true =>
      have zero := (word_eq_zero storable).mpr empty
      have missing : f.live k = none := live_eq_none.mpr (by simp [found, zero])
      rw [values_of_none missing]
      simp [Option.filter, empty]
    | false =>
      have nonzero : word v ≠ 0 := fun zero => by simp [(word_eq_zero storable).mp zero] at empty
      rw [values_of_word storable (live_eq_some.mpr ⟨found, nonzero⟩)]
      simp [Option.filter, empty]

end Words

/-- The tiers as maps from keys to words. -/
structure HeadTiers where
  ingest : Words ShHeadKey
  main : Words ShHeadKey
  l1 : Words ShHeadKey
  files : List (Words ShHeadKey)

namespace HeadTiers

variable (A : HeadTiers)

def all : List (Words ShHeadKey) := A.ingest.live :: A.main :: A.l1 :: A.files

/-- The word of a key, zero for a key without a value. -/
def read (k : ShHeadKey) : UInt64 := (first A.all k).getD 0

def IsHome (k : ShHeadKey) : KeyHome → Prop
  | .ingest => (A.ingest.live k).isSome
  | .sealedOvf => (∃ f ∈ A.files, (f k).isSome) ∨ (A.l1 k).isSome
  | .main => (A.main k).isSome
  | .absent => ∀ f ∈ A.all, f k = none

/-- The key may be entered in ingest. -/
def Outside (k : ShHeadKey) : Prop :=
  A.main k = none ∧ A.l1 k = none ∧ ∀ f ∈ A.files, f k = none

theorem Outside.of_home {A : HeadTiers} {k : ShHeadKey} {home : KeyHome} (apart : Apart A.all)
    (isHome : A.IsHome k home) (free : home = .ingest ∨ home = .absent) : A.Outside k := by
  obtain ⟨others, -⟩ := List.pairwise_cons.mp apart
  have rest : ∀ f ∈ A.main :: A.l1 :: A.files, f k = none := by
    intro f mem
    rcases free with rfl | rfl
    · exact (others f mem k).resolve_left (Option.isSome_iff_ne_none.mp isHome)
    · exact isHome f (List.mem_cons_of_mem _ mem)
  exact ⟨rest _ (by simp), rest _ (by simp), fun f mem => rest f (by simp [mem])⟩

end HeadTiers

/-- The merged head is a map, and its filter takes the members. -/
structure OvfL1.Shows (asked : ShHeadKey → Prop) (dir : Dir) (l1 : OvfL1) (f : Words ShHeadKey) :
    Prop where
  head : l1.head.ShowsAs asked f
  filter : ∃ g, dir.lookup (sidecar l1.path .fuse8) = some (.fuse g) ∧ g.geometry ∧
    l1.fuse = .ofFilter (sidecar l1.path .fuse8) g ∧ ∀ k, (f k).isSome → g.contains (mixKey16 k)
  mphfFile : dir.lookup (sidecar l1.path .mphf) = some (.mphf l1.head.mphfFile)
  valFile : dir.lookup (sidecar l1.path .val) = some (.val l1.head.valFile)
  opens : MphfHead.openHead l1.head.mphfFile l1.head.valFile = .ok l1.head

namespace HeadTable

def ovfIds : Nat := 10 ^ 6

/-- The merged head, if there is one, has a number that no sealed head has. -/
def L1Shows (asked : ShHeadKey → Prop) (t : HeadTable) (f : Words ShHeadKey) : Prop :=
  match t.ovfL1 with
  | none => f = fun _ => none
  | some l1 => l1.Shows asked t.dir f ∧
    ∃ id, l1.path = sealedOvfPath id ∧ t.sealedOvf.length ≤ id ∧ id < ovfIds

def ShardShows (asked : ShHeadKey → Prop) (t : HeadTable) (f : Words ShHeadKey) (i : Nat) : Prop :=
  match t.sortedMain[i]? with
  | some (some head) => head.ShowsAs (fun k => asked k ∧ t.shardIndex k = i) f
  | _ => ∀ k, asked k → t.shardIndex k = i → f k = none

/-- Ingest has room, or it is full and something is in it. -/
def Ready (t : HeadTable) (f : Words ShHeadKey) : Prop :=
  t.ingest.occupied < ScriptHashHead.sealCap t.ingest.slots ∨
    t.ingest.occupied = ScriptHashHead.sealCap t.ingest.slots ∧ ∃ k, (f.live k).isSome

/-- The sealed heads of a table hold the maps. -/
abbrev FilesHold (dir : Dir) (heads : List SortedHead) (files : List (Words ShHeadKey)) : Prop :=
  List.Forall₂ (fun head f => ∃ recs, head.Holds dir recs ∧ f = Words.ofRecs recs) heads files

/-- The tiers of a table. Their keys are among those that are ever asked, of which no two share a
fold. -/
structure Shows (asked : ShHeadKey → Prop) (t : HeadTable) (A : HeadTiers) : Prop where
  ingest : t.ingest.Holds A.ingest
  slots : ∃ bits, 3 ≤ bits ∧ bits < 64 ∧ t.ingestSlots = 2 ^ bits ∧ t.ingest.slots = 2 ^ bits
  ready : t.Ready A.ingest
  files : FilesHold t.dir t.sealedOvf A.files
  paths : t.sealedOvf.map SortedHead.path = (List.range t.sealedOvf.length).map sealedOvfPath
  data : ∀ id file, t.dir.lookup (sealedOvfPath id) = some file → ∃ recs, file = .sorted recs
  l1 : t.L1Shows asked A.l1
  main : ∀ i, t.ShardShows asked A.main i
  decodes : A.ingest.Decodes ∧ ∀ f ∈ A.all, f.Decodes
  asked : ∀ f ∈ A.all, ∀ k, (f k).isSome → asked k
  apart : Apart A.all

/-- Keys that the heads keep apart: no key is all zeros, and the fold of a key is its own. -/
structure Separate (asked : ShHeadKey → Prop) : Prop where
  nonzero : ∀ k, asked k → k ≠ zeroKey
  fold : ∀ k l, asked k → asked l → mixKey16 k = mixKey16 l → k = l

end HeadTable

theorem OvfL1.Shows.get_eq {asked : ShHeadKey → Prop} {dir : Dir} {l1 : OvfL1}
    {f : Words ShHeadKey} (shows : l1.Shows asked dir f) {key : ShHeadKey} (ask : asked key) :
    (if l1.fuse.contains dir (mixKey16 key) then l1.head.get key else .ok none) = f.get key := by
  obtain ⟨g, file, -, fuse, all⟩ := shows.filter
  rw [fuse, SealedFuse8.contains_ofFilter file]
  split_ifs with taken
  · exact shows.head.get_eq ask
  · have missing : f key = none := by
      by_contra member
      exact taken (all key (Option.isSome_iff_ne_none.mpr member))
    rw [Words.get, missing]

open HeadTiers

open Words (values ofRecs bind_or word isSome_set)

namespace HeadTable.Shows

variable {asked : ShHeadKey → Prop} {t : HeadTable} {A : HeadTiers} (shows : t.Shows asked A)
include shows

variable (key : ShHeadKey)

theorem ingest_get : t.ingest.get key = .ok (A.ingest.live.values key) := by
  rw [shows.ingest.get_eq shows.decodes.1, Words.Decodes.values_live shows.decodes.1]

variable {key : ShHeadKey}

theorem l1Get_eq (ask : asked key) : t.l1Get key = .ok (A.l1.values key) := by
  have decodes : A.l1.Decodes := shows.decodes.2 A.l1 (by simp [all])
  rw [← decodes.get_eq]
  have l1 := shows.l1
  unfold L1Shows at l1
  unfold l1Get
  cases held : t.ovfL1 with
  | none =>
    rw [held] at l1
    simp only [l1, Words.get]
  | some l =>
    rw [held] at l1
    exact l1.1.get_eq ask

theorem mainGet_eq (ask : asked key) : t.mainGet key = .ok (A.main.values key) := by
  have decodes : A.main.Decodes := shows.decodes.2 A.main (by simp [all])
  rw [← decodes.get_eq]
  have shard := shows.main (t.shardIndex key)
  unfold ShardShows at shard
  unfold mainGet
  match held : t.sortedMain[t.shardIndex key]? with
  | some (some head) =>
    simp only [held] at shard
    exact shard.get_eq ⟨ask, rfl⟩
  | some none | none =>
    simp only [held] at shard
    simp only [Words.get, shard key ask rfl]

omit shows in
theorem sealedGet_eq {dir : Dir} {heads : List SortedHead} {files : List (Words ShHeadKey)}
    (holds : FilesHold dir heads files) (decodes : ∀ f ∈ files, f.Decodes) (key : ShHeadKey) :
    sealedGet dir key heads = .ok (values (first files) key) := by
  induction holds with
  | nil => rfl
  | @cons head f heads files here _ ih =>
    obtain ⟨recs, holds, rfl⟩ := here
    have decodes' : (ofRecs recs).Decodes := decodes _ List.mem_cons_self
    have split : values (first (ofRecs recs :: files)) key =
        ((ofRecs recs).values key).or (values (first files) key) := by
      rw [values, first_cons, bind_or fun w => decodes']
      rfl
    rw [sealedGet, holds.get_eq, decodes'.get_eq, ok_bind, split]
    cases values (ofRecs recs) key with
    | none => exact ih fun f mem => decodes f (List.mem_cons_of_mem _ mem)
    | some v => rfl

theorem files_apart : Apart A.files :=
  (List.pairwise_cons.mp (List.pairwise_cons.mp (List.pairwise_cons.mp shows.apart).2).2).2

theorem files_decodes : Words.Decodes (first A.files) := by
  intro k w found
  obtain ⟨f, mem, found⟩ := (first_eq_some shows.files_apart).mp found
  exact shows.decodes.2 f (by simp [all, mem]) found

theorem sealedGet_reverse :
    sealedGet t.dir key t.sealedOvf.reverse = .ok (values (first A.files) key) := by
  have reversed := List.rel_reverse shows.files
  rw [sealedGet_eq reversed fun f mem => shows.decodes.2 f (by
    simp only [all, List.mem_cons]
    exact .inr (.inr (.inr (List.mem_reverse.mp mem))))]
  have same : first A.files.reverse key = first A.files key := by
    apply first_congr (shows.files_apart.perm (List.reverse_perm _).symm) shows.files_apart
    simp
  rw [values, values, same]

/-- The value of a key, in the order in which the tiers are asked. -/
theorem values_all : values (first A.all) key =
    (A.ingest.live.values key).or ((values (first A.files) key).or
      ((A.l1.values key).or (A.main.values key))) := by
  have perm : (A.ingest.live :: (A.files ++ [A.l1, A.main])).Perm A.all :=
    (List.perm_append_comm.trans (List.Perm.swap ..)).cons _
  have same : first A.all key = (A.ingest.live key).or ((first A.files key).or
      ((A.l1 key).or (A.main key))) := by
    rw [first_congr shows.apart (shows.apart.perm perm.symm) fun w => by simp only [perm.mem_iff],
      first_cons, first_append, first_cons, first_cons]
    exact congrArg _ (congrArg _ (congrArg _ (Option.or_none ..)))
  rw [values, same, bind_or fun w => shows.decodes.2 _ (by simp [all]),
    bind_or fun w => shows.files_decodes, bind_or fun w => shows.decodes.2 _ (by simp [all])]
  rfl

theorem locateHead_eq (ask : asked key) :
    ∃ found : Option (ShHeadValue × KeyHome), t.locateHead key = .ok found ∧
      found.map Prod.fst = values (first A.all) key ∧
      A.IsHome key ((found.map Prod.snd).getD .absent) := by
  have member {f : Words ShHeadKey} (decodes : f.Decodes) {v : ShHeadValue}
      (value : f.values key = some v) : (f key).isSome := by
    rw [← decodes.isSome_values, value]
    rfl
  have ingest' : A.ingest.live.Decodes := shows.decodes.2 _ (by simp [all])
  have l1' : A.l1.Decodes := shows.decodes.2 _ (by simp [all])
  have main' : A.main.Decodes := shows.decodes.2 _ (by simp [all])
  rw [shows.values_all]
  unfold locateHead
  rw [shows.ingest_get]
  cases ingest : A.ingest.live.values key with
  | some v => exact ⟨some (v, .ingest), rfl, rfl, member ingest' ingest⟩
  | none =>
    rw [shows.sealedGet_reverse]
    cases files : values (first A.files) key with
    | some v =>
      have known := List.findSome?_isSome_iff.mp (member shows.files_decodes files)
      exact ⟨some (v, .sealedOvf), rfl, rfl, .inl known⟩
    | none =>
      rw [shows.l1Get_eq ask]
      cases l1 : A.l1.values key with
      | some v => exact ⟨some (v, .sealedOvf), rfl, rfl, .inr (member l1' l1)⟩
      | none =>
        rw [shows.mainGet_eq ask]
        cases main : A.main.values key with
        | some v => exact ⟨some (v, .main), rfl, rfl, member main' main⟩
        | none =>
          have missing : ∀ f ∈ A.all, f key = none := by
            simp only [all, List.mem_cons, forall_eq_or_imp]
            exact ⟨ingest'.eq_none ingest, main'.eq_none main, l1'.eq_none l1,
              first_eq_none.mp (Words.Decodes.eq_none shows.files_decodes files)⟩
          exact ⟨none, rfl, rfl, missing⟩

end HeadTable.Shows

namespace HeadTiers

/-- An upsert of a key that is in a tier other than ingest. -/
inductive Sets (A : HeadTiers) (u : Upsert) : HeadTiers → Prop
  | main (member : (A.main u.1).isSome) :
    Sets A u { A with main := A.main.set u.1 (Words.word u.2) }
  | l1 (member : (A.l1 u.1).isSome) : Sets A u { A with l1 := A.l1.set u.1 (Words.word u.2) }
  | file {i : Nat} {f : Words ShHeadKey} (at_i : A.files[i]? = some f) (member : (f u.1).isSome) :
    Sets A u { A with files := A.files.set i (f.set u.1 (Words.word u.2)) }

/-- Every tier has the keys that it had. -/
structure SameKeys (A A' : HeadTiers) : Prop where
  ingest : A'.ingest = A.ingest
  main : ∀ k, (A'.main k).isSome = (A.main k).isSome
  l1 : ∀ k, (A'.l1 k).isSome = (A.l1 k).isSome
  files : ∀ k, (∃ f ∈ A'.files, (f k).isSome) ↔ ∃ f ∈ A.files, (f k).isSome

variable {A A' A'' : HeadTiers}

theorem SameKeys.refl (A : HeadTiers) : SameKeys A A :=
  ⟨rfl, fun _ => rfl, fun _ => rfl, fun _ => .rfl⟩

theorem SameKeys.trans (h : SameKeys A A') (h' : SameKeys A' A'') : SameKeys A A'' where
  ingest := h'.ingest.trans h.ingest
  main k := (h'.main k).trans (h.main k)
  l1 k := (h'.l1 k).trans (h.l1 k)
  files k := (h'.files k).trans (h.files k)

variable {k : ShHeadKey}

theorem outside_iff : A.Outside k ↔ (A.main k).isSome = false ∧
    (A.l1 k).isSome = false ∧ ¬∃ f ∈ A.files, (f k).isSome := by
  simp [Outside]

theorem SameKeys.outside (same : SameKeys A A') (outside : A.Outside k) : A'.Outside k := by
  rw [outside_iff] at outside ⊢
  rw [same.main, same.l1, same.files]
  exact outside

theorem SameKeys.isHome (same : SameKeys A A') {home : KeyHome} (isHome : A.IsHome k home) :
    A'.IsHome k home := by
  cases home with
  | ingest => rwa [IsHome, same.ingest]
  | sealedOvf => rwa [IsHome, same.files, same.l1]
  | main => rwa [IsHome, same.main]
  | absent =>
    have absent_iff (A : HeadTiers) :
        A.IsHome k .absent ↔ A.ingest.live k = none ∧ A.Outside k := by
      simp [IsHome, all, Outside]
    rw [absent_iff] at isHome ⊢
    rw [same.ingest]
    exact ⟨isHome.1, same.outside isHome.2⟩

namespace Sets

variable {u : Upsert} (sets : Sets A u A')
include sets

theorem all_eq : ∃ i f, A.all[i]? = some f ∧ (f u.1).isSome ∧
    A'.all = A.all.set i (update f u.1 (some (word u.2))) := by
  cases sets with
  | main member => exact ⟨1, A.main, rfl, member, rfl⟩
  | l1 member => exact ⟨2, A.l1, rfl, member, rfl⟩
  | @file i f at_i member => exact ⟨i + 3, f, at_i, member, rfl⟩

theorem sameKeys : SameKeys A A' := by
  cases sets with
  | main member => exact ⟨rfl, isSome_set _ member, fun _ => rfl, fun _ => .rfl⟩
  | l1 member => exact ⟨rfl, fun _ => rfl, isSome_set _ member, fun _ => .rfl⟩
  | @file i f at_i member =>
    refine ⟨rfl, fun _ => rfl, fun _ => rfl, fun k => exists_mem_set at_i ?_⟩
    rw [isSome_set _ member]

theorem apart_read (apart : Apart A.all) :
    Apart A'.all ∧ A'.read = update A.read u.1 (word u.2) := by
  obtain ⟨i, f, at_i, member, all⟩ := sets.all_eq
  obtain ⟨apart', first'⟩ := apart.set at_i member (word u.2)
  refine ⟨all ▸ apart', funext fun k => ?_⟩
  rw [read, all, first']
  by_cases same : k = u.1
  · rw [same, update_self, update_self]
    rfl
  · rw [update_of_ne same, update_of_ne same]
    rfl

theorem decodes (decodes : ∀ f ∈ A.all, Words.Decodes f) (storable : u.2.Storable) :
    ∀ f ∈ A'.all, Words.Decodes f := by
  obtain ⟨i, f, at_i, -, all⟩ := sets.all_eq
  intro g mem
  rw [all] at mem
  rcases List.mem_or_eq_of_mem_set mem with old | rfl
  · exact decodes g old
  · exact Words.Decodes.set (decodes f (List.mem_of_getElem? at_i)) storable u.1

theorem asked {asked : ShHeadKey → Prop} (known : ∀ f ∈ A.all, ∀ k, (f k).isSome → asked k) :
    ∀ f ∈ A'.all, ∀ k, (f k).isSome → asked k := by
  obtain ⟨i, f, at_i, member, all⟩ := sets.all_eq
  intro g mem k some_k
  rw [all] at mem
  rcases List.mem_or_eq_of_mem_set mem with old | rfl
  · exact known g old k some_k
  · apply known f (List.mem_of_getElem? at_i)
    rw [← isSome_set (word u.2) member]
    exact some_k

end Sets

end HeadTiers

end Rbitcoin.Store
