import Mathlib.Data.List.SplitBy
import Rbitcoin.Store.LocatorRows

/-! Batches of look-ups in a locator. A request for a number that is in range is a job; the jobs are
sorted by number and grouped by window, every window is read once, and what is found for a job goes
to its place in the answer. -/

namespace Rbitcoin.Store

open Numbered Outcome List Prod

/-- The place of a request in its batch, and its number. -/
abbrev LocJob := Nat × Nat

def locWindowOf (id : Nat) : Nat := (id - 1) / locWindow

def locWithin (id : Nat) : Nat := (id - 1) % locWindow

/-- The jobs of a batch; `0` is the null number. The order of equal numbers makes no difference. -/
def locJobs (count : Nat) (fks : List Nat) : List LocJob :=
  (fks.zipIdx.filterMap fun x => if x.1 = 0 ∨ count < x.1 then none else some (x.2, x.1)).mergeSort
    fun a b => a.2 ≤ b.2

def windowJobs (jobs : List LocJob) : List (List LocJob) :=
  jobs.splitBy fun a b => locWindowOf a.2 == locWindowOf b.2

section Jobs

variable {count : Nat} {fks : List Nat}

theorem mem_locJobs {job : LocJob} : job ∈ locJobs count fks ↔
    fks[job.1]? = some job.2 ∧ 0 < job.2 ∧ job.2 ≤ count := by
  obtain ⟨place, id⟩ := job
  rw [locJobs, mem_mergeSort, mem_filterMap]
  constructor
  · rintro ⟨⟨fk, i⟩, mem, made⟩
    split_ifs at made with out
    cases made
    exact ⟨mk_mem_zipIdx_iff_getElem?.mp mem, by omega, by omega⟩
  · rintro ⟨here, positive, inside⟩
    exact ⟨(id, place), mk_mem_zipIdx_iff_getElem?.mpr here, by
      rw [if_neg (by omega)]⟩

theorem pairwise_locJobs : (locJobs count fks).Pairwise fun a b => a.2 ≤ b.2 := by
  have sorted : (locJobs count fks).Pairwise fun a b => decide (a.2 ≤ b.2) = true :=
    pairwise_mergeSort (fun a b c => by simpa using le_trans)
      (fun a b => by simpa using le_total a.2 b.2) _
  exact sorted.imp fun h => by simpa using h

theorem flatten_windowJobs (jobs : List LocJob) : (windowJobs jobs).flatten = jobs :=
  flatten_splitBy ..

/-- The plans of all windows have the jobs of the batch. -/
theorem mapM_windowJobs {ω : Type} {plan : List LocJob → Result ω} {jobsOf : ω → List LocJob}
    {P : ω → Prop} {jobs : List LocJob}
    (each : ∀ part ∈ windowJobs jobs, ∃ win, plan part = .ok win ∧ jobsOf win = part ∧ P win) :
    ∃ windows, (windowJobs jobs).mapM plan = .ok windows ∧ windows.flatMap jobsOf = jobs ∧
      ∀ win ∈ windows, P win := by
  obtain ⟨windows, plan, all⟩ := mapM_forall₂ each
  refine ⟨windows, plan, ?_⟩
  rw [← flatten_windowJobs jobs]
  clear each plan
  generalize windowJobs jobs = groups at all ⊢
  induction all with
  | nil => simp
  | cons one rest ih =>
    rw [flatMap_cons, one.1, ih.1]
    exact ⟨rfl, forall_mem_cons.mpr ⟨one.2, ih.2⟩⟩

/-- A run of jobs in order, all of one window. -/
structure Group (fks : List Nat) (count w : Nat) (jobs : List LocJob) : Prop where
  ne_nil : jobs ≠ []
  request : ∀ job ∈ jobs, fks[job.1]? = some job.2
  positive : ∀ job ∈ jobs, 0 < job.2
  inside : ∀ job ∈ jobs, job.2 ≤ count
  window : ∀ job ∈ jobs, locWindowOf job.2 = w
  sorted : jobs.Pairwise fun a b => a.2 ≤ b.2

theorem group_of_mem_windowJobs {jobs : List LocJob} (mem : jobs ∈ windowJobs (locJobs count fks)) :
    ∃ first, jobs.head? = some first ∧ Group fks count (locWindowOf first.2) jobs := by
  have ne_nil : jobs ≠ [] := ne_nil_of_mem_splitBy mem
  obtain ⟨first, rest, rfl⟩ := exists_cons_of_ne_nil ne_nil
  have sub : (first :: rest) <:+: locJobs count fks := by
    rw [← flatten_windowJobs (locJobs count fks)]
    exact infix_of_mem_flatten mem
  have all (job) (h : job ∈ first :: rest) := mem_locJobs.mp (sub.subset h)
  refine ⟨first, rfl, ne_nil, fun job h => (all job h).1, fun job h => (all job h).2.1,
    fun job h => (all job h).2.2, ?_, pairwise_locJobs.sublist sub.sublist⟩
  have same : (first :: rest).Pairwise fun a b => locWindowOf a.2 = locWindowOf b.2 := by
    exact ((isChain_of_mem_splitBy mem).imp fun _ _ h => by simpa using h).pairwise
  exact forall_mem_cons.mpr ⟨rfl, fun job later => ((pairwise_cons.mp same).1 job later).symm⟩

section Group

variable {w : Nat} {jobs : List LocJob} {job : LocJob} (group : Group fks count w jobs)
  (mem : job ∈ jobs)
include group mem

theorem Group.number : job.2 = w * locWindow + locWithin job.2 + 1 := by
  have window := group.window job mem
  have positive := group.positive job mem
  have parts := Nat.div_add_mod (job.2 - 1) locWindow
  rw [locWindowOf] at window
  rw [window, mul_comm] at parts
  rw [locWithin]
  omega

theorem Group.bounds : w * locWindow + 1 ≤ job.2 ∧ job.2 ≤ (w + 1) * locWindow := by
  have number := group.number mem
  have within : locWithin job.2 < locWindow := Nat.mod_lt _ (by decide)
  rw [Nat.succ_mul]
  omega

end Group

end Jobs

section Start

variable {Rec Row Pos : Type}

def windowStart (origin : Pos) (missing : String) (checkpoints : List Pos) (w : Nat) : Result Pos :=
  if w = 0 then .ok origin
  else
    match checkpoints[w - 1]? with
    | none => corrupt missing
    | some p => .ok p

theorem windowStart_marks [AddCommMonoid Pos] (origin : Pos) (len : Rec → Pos) (missing : String)
    {recs : List Rec} {w : Nat} (inside : w ≤ recs.length / locWindow) :
    windowStart origin missing (marks origin len locWindow recs) w =
      .ok (pos origin len recs (w * locWindow)) := by
  rw [windowStart]
  split_ifs with zero
  · rw [zero, zero_mul, pos_zero]
  · rw [getElem?_marks _ _ _ (by omega), Nat.sub_add_cancel (by omega)]

theorem windowStart_eq [AddCommMonoid Pos] {F : LocFormat Rec Row Pos} {L : Locator Row Pos}
    {recs : List Rec} (held : L.Holds F recs) (missing : String) {w : Nat}
    (inside : w * locWindow < recs.length) :
    windowStart F.origin missing L.checkpoints w = .ok (F.posOf recs (w * locWindow)) := by
  rw [held.checkpoints]
  exact windowStart_marks F.origin F.len missing ((Nat.le_div_iff_mul_le (by decide)).mpr inside.le)

end Start

section Part

variable {α : Type}

def windowPart (recs : List α) (w n : Nat) : List α := (recs.drop (w * locWindow)).take n

theorem getElem?_windowPart {recs : List α} {w n i : Nat} (small : i < n) :
    (windowPart recs w n)[i]? = recs[w * locWindow + i]? := by
  rw [windowPart, getElem?_take_of_lt small, getElem?_drop]

theorem length_windowPart {recs : List α} {w n : Nat} (inside : w * locWindow + n ≤ recs.length) :
    (windowPart recs w n).length = n := by
  rw [windowPart, length_take, length_drop]
  omega

theorem pos_windowPart {M : Type} [AddCommMonoid M] (origin : M) (len : α → M) (recs : List α)
    (w : Nat) {n k : Nat} (small : k ≤ n) :
    pos (pos origin len recs (w * locWindow)) len (windowPart recs w n) k =
      pos origin len recs (w * locWindow + k) := by
  rw [windowPart, pos_take, min_eq_left small, pos_drop]

end Part

/-- What is told of the record with a number, from one on. -/
def numbered {α β : Type} (value : α → β) (recs : List α) (fk : Nat) : Option β :=
  if fk = 0 then none else recs[fk - 1]?.map value

/-- What is wanted for the jobs stands at their places; the other places are as before. -/
structure Emits {β : Type} (want : List (Option β)) (jobs : List LocJob)
    (out out' : List (Option β)) : Prop where
  length : out'.length = out.length
  place : ∀ p, out'[p]? = if p ∈ jobs.map fst then want[p]? else out[p]?

section Emits

variable {β : Type} {want out mid out' : List (Option β)} {jobs jobs' : List LocJob}

theorem emits_nil (want out : List (Option β)) : Emits want [] out out :=
  ⟨rfl, fun p => by simp⟩

theorem emits_set {job : LocJob} {v : β} (fits : out.length = want.length)
    (wanted : want[job.1]? = some (some v)) : Emits want [job] out (out.set job.1 (some v)) := by
  refine ⟨length_set, fun p => ?_⟩
  have inside : job.1 < out.length := fits ▸ (List.getElem?_eq_some_iff.mp wanted).1
  by_cases here : p = job.1
  · subst here
    simp [getElem?_set_self inside, wanted]
  · simp [getElem?_set_ne (Ne.symm here), here]

theorem Emits.append (first : Emits want jobs out mid) (second : Emits want jobs' mid out') :
    Emits want (jobs ++ jobs') out out' := by
  refine ⟨second.length.trans first.length, fun p => ?_⟩
  rw [second.place, first.place, map_append]
  by_cases last : p ∈ jobs'.map fst
  · rw [if_pos last, if_pos (mem_append_right _ last)]
  · by_cases early : p ∈ jobs.map fst <;> simp [last, early]

theorem Emits.absorb (first : Emits want jobs out mid) (sub : jobs ⊆ jobs')
    (second : Emits want jobs' mid out') : Emits want jobs' out out' := by
  refine ⟨second.length.trans first.length, fun p => ?_⟩
  rw [second.place, first.place]
  by_cases last : p ∈ jobs'.map fst
  · rw [if_pos last, if_pos last]
  · have early : p ∉ jobs.map fst := fun mem => last (map_subset fst sub mem)
    rw [if_neg last, if_neg last, if_neg early]

theorem emits_foldl_set {value : LocJob → β} (fits : out.length = want.length)
    (wanted : ∀ job ∈ jobs, want[job.1]? = some (some (value job))) :
    Emits want jobs out (jobs.foldl (fun out job => out.set job.1 (some (value job))) out) := by
  induction jobs generalizing out with
  | nil => exact emits_nil want out
  | cons job jobs ih =>
    have one := emits_set fits (wanted job mem_cons_self)
    exact one.append (ih (one.length.trans fits) (forall_mem_cons.mp wanted).2)

theorem emits_foldlM {ι : Type} {step : List (Option β) → ι → Result (List (Option β))}
    {jobsOf : ι → List LocJob} {items : List ι} (fits : out.length = want.length)
    (emits : ∀ x ∈ items, ∀ out : List (Option β), out.length = want.length →
      ∃ out', step out x = .ok out' ∧ Emits want (jobsOf x) out out') :
    ∃ out', items.foldlM step out = .ok out' ∧ Emits want (items.flatMap jobsOf) out out' := by
  induction items generalizing out with
  | nil => exact ⟨out, rfl, emits_nil want out⟩
  | cons x items ih =>
    obtain ⟨mid, one, first⟩ := emits x mem_cons_self out fits
    obtain ⟨out', rest, second⟩ := ih (first.length.trans fits) fun y hy =>
      emits y (mem_cons_of_mem x hy)
    refine ⟨out', ?_, first.append second⟩
    rw [foldlM_cons, one, ok_bind, rest]

theorem Emits.eq_map {lookup : Nat → Option β} {count : Nat} {fks : List Nat}
    (miss : ∀ fk, fk = 0 ∨ count < fk → lookup fk = none)
    (done : Emits (fks.map lookup) (locJobs count fks) (replicate fks.length none) out') :
    out' = fks.map lookup := by
  apply ext_getElem?
  intro p
  rw [done.place]
  split_ifs with job
  · rfl
  · rw [getElem?_map]
    cases here : fks[p]? with
    | none => simpa using here
    | some fk =>
      have inside := (List.getElem?_eq_some_iff.mp here).1
      have out : fk = 0 ∨ count < fk := by
        by_contra inRange
        refine job (mem_map.mpr ⟨(p, fk), mem_locJobs.mpr ⟨here, ?_⟩, rfl⟩)
        omega
      rw [Option.map_some, miss fk out, getElem?_replicate_of_lt inside]

/-- Windows with all jobs of a batch, one after the other, answer the batch from a list of records
that are numbered from one. -/
theorem foldlM_windows {α ω : Type} {recs : List α} {value : α → β} {lookup : Nat → Option β}
    (numbers : lookup = numbered value recs) {fks : List Nat}
    {step : List (Option β) → ω → Result (List (Option β))} (jobsOf : ω → List LocJob)
    {windows : List ω} (jobs : windows.flatMap jobsOf = locJobs recs.length fks)
    (emits : ∀ win ∈ windows, ∀ out : List (Option β), out.length = (fks.map lookup).length →
      ∃ out', step out win = .ok out' ∧ Emits (fks.map lookup) (jobsOf win) out out') :
    windows.foldlM step (replicate fks.length none) = .ok (fks.map lookup) := by
  obtain ⟨out, run, done⟩ := emits_foldlM (show (replicate fks.length none).length = _ by
    rw [length_replicate, length_map]) emits
  rw [jobs] at done
  rw [run, done.eq_map]
  rintro fk (rfl | past)
  · rw [numbers]
    rfl
  · rw [numbers, numbered, getElem?_eq_none (by omega)]
    split <;> rfl

end Emits

end Rbitcoin.Store
