import Rbitcoin.Store.CreateRanges
import Rbitcoin.Store.DeltaLoc

/-! Locators that are opened again. An append writes three payloads and then the three headers that
name them, and the process may stop after any of the six writes. An open goes by the headers: it
takes the slots that have their checkpoints, and leaves out those from a record on whose overflow
row was written and not named. -/

namespace Rbitcoin.Store

open Bytes Numbered Outcome TableFile List DeltaRec

variable {Rec Row Pos : Type} [AddCommMonoid Pos]

namespace LocFormat

variable (F : LocFormat Rec Row Pos)

/-- What an open finds: the slots of all records, the overflow rows of the first `m` of them and
the checkpoints of the first `c`. What the other headers do not name is on disk all the same. -/
structure OnDisk (files : LocFiles) (all : List Rec) (m c : Nat) : Prop where
  contiguous : F.Contiguous all
  ovfInside : m ≤ all.length
  offInside : c ≤ all.length
  loc : files.loc.reopen.Holds (F.slots all)
  ovf : files.ovf.reopen.Shows ((F.ovfOf all).flatMap F.ovf.encode)
    ((F.ovfOf (all.take m)).flatMap F.ovf.encode).length
  off : files.off.reopen.Shows ((F.marksOf all).flatMap F.off.encode)
    ((F.marksOf (all.take c)).flatMap F.off.encode).length

variable {F} {all : List Rec} {m n c : Nat}

theorem marksOf_take_eq (inside : n ≤ all.length) (before : c ≤ all.length)
    (same : n / locWindow = c / locWindow) : F.marksOf (all.take n) = F.marksOf (all.take c) := by
  rw [marksOf, marks_take _ _ _ inside, same, ← marks_take _ _ _ before, marksOf]

theorem ovfOf_fits (contiguous : F.Contiguous all) : ∀ x ∈ F.ovfOf all, F.ovf.Fits x :=
  fun _ mem => F.ovf_fits (lt_of_le_of_lt (F.fst_le_of_mem_ovfOf mem) contiguous.length_lt) _

theorem marksOf_fits (contiguous : F.Contiguous all) : ∀ p ∈ F.marksOf all, F.off.Fits p := by
  intro p mem
  obtain ⟨w, small, rfl⟩ := mem_map.mp mem
  have whole : (w + 1) * locWindow ≤ all.length :=
    (Nat.le_div_iff_mul_le (by decide)).mp (mem_range.mp small)
  exact F.off_fits (inRange_pos contiguous.inRange whole le_rfl)

omit [AddCommMonoid Pos] in
theorem checkOvfOrder_ok (C : LocCode Rec Row Pos) {rows : List (Nat × Row)} {prev : Nat}
    (above : ∀ x ∈ rows, prev < x.1) (sorted : rows.Pairwise fun x y => x.1 < y.1) :
    C.checkOvfOrder prev rows = .ok () := by
  induction rows generalizing prev with
  | nil => rfl
  | cons x rows ih =>
    have first := above x mem_cons_self
    rw [pairwise_cons] at sorted
    rw [LocCode.checkOvfOrder, if_neg (by omega)]
    exact ih sorted.1 sorted.2

theorem loadOvf_eq (contiguous : F.Contiguous all) {file : TableFile}
    (held : file.Holds ((F.ovfOf all).flatMap F.ovf.encode)) :
    F.loadOvf file = .ok (F.ovfOf all) := by
  have whole : ¬file.published % F.ovf.width ≠ 0 := by
    rw [held.published, Records.length_flatMap F.ovf.length_encode, Nat.mul_mod_right]
    exact not_not.mpr rfl
  have ordered : F.checkOvfOrder 0 (F.ovfOf all) = .ok () :=
    checkOvfOrder_ok _ (fun x mem => (F.mem_ovfOf.mp mem).1) (F.pairwise_ovfOf all)
  rw [LocCode.loadOvf, rejectIf_neg whole, ok_bind, held.published, held.readAll, ok_bind,
    F.ovf.readAll_flatMap (ovfOf_fits contiguous)]
  dsimp only
  rw [ordered]
  rfl

end LocFormat

namespace Locator

open LocFormat

variable {F : LocFormat Rec Row Pos} {L : Locator Row Pos} {all : List Rec} {n m c : Nat}

theorem View.more_rows (view : L.View F all n m c) {k : Nat}
    (same : F.ovfOf (all.take k) = F.ovfOf (all.take m)) : L.View F all n k c :=
  { view with
    ovfRows := by rw [same, view.ovfRows]
    ovf := by rw [same]; exact view.ovf }

theorem le_lastOvf {rows : List (Nat × Row)} (sorted : rows.Pairwise fun x y => x.1 < y.1)
    {x : Nat × Row} (mem : x ∈ rows) : x.1 ≤ (rows.getLast?.map Prod.fst).getD 0 := by
  obtain ⟨front, last, rfl⟩ :=
    (eq_nil_or_concat' rows).resolve_left (ne_nil_of_mem mem)
  rw [getLast?_concat]
  rcases mem_append.mp mem with before | at_end
  · exact ((pairwise_append.mp sorted).2.2 x before last (by simp)).le
  · rw [mem_singleton.mp at_end]
    exact le_rfl

theorem View.lastOvf_le (view : L.View F all n m c) :
    (L.ovfRows.getLast?.map Prod.fst).getD 0 ≤ m := by
  rw [view.ovfRows]
  cases last : (F.ovfOf (all.take m)).getLast? with
  | none => exact Nat.zero_le m
  | some x =>
    have bound := F.fst_le_of_mem_ovfOf (mem_of_getLast? last)
    rw [length_take] at bound
    exact bound.trans (min_le_left ..)

theorem View.readSlot (view : L.View F all n m c) {i : Nat} {a : Rec} (here : all[i]? = some a)
    (counted : i < n) : L.loc.readAt (slotLen * i) slotLen = .ok (F.slot (F.rowOf a)) := by
  have inside := view.inside
  have next : slotLen * i + slotLen = slotLen * (i + 1) := (Nat.mul_succ ..).symm
  have bytes := view.loc.readAt (show slotLen * i + slotLen ≤ slotLen * n by
      exact Nat.mul_le_mul_left _ counted)
    (by rw [next, F.length_slots]; exact Nat.mul_le_mul_left _ (by omega))
  rwa [next, F.slice_slots here] at bytes

section Cut

variable (view : L.View F all n m n) (before : m ≤ n)
include view

/-- Where no row is missing, the bytes after the rows name no record: only a slot that overflows
matches a row. -/
theorem View.cut_none (same : F.ovfOf (all.take n) = F.ovfOf (all.take m)) :
    F.unresolvedOvfCut L.loc L.ovf L.count ((L.ovfRows.getLast?.map Prod.fst).getD 0) =
      .ok none := by
  rw [LocCode.unresolvedOvfCut]
  split_ifs with done
  · rfl
  · cases L.ovf.preadAll L.ovf.published F.ovf.width with
    | error e => rfl
    | ok bytes =>
      dsimp only
      rw [LocCode.cutForOvfRow]
      generalize F.ovf.decode bytes = stale
      obtain ⟨fk, row⟩ := stale
      dsimp only
      split_ifs with outside
      · rfl
      · have inside := view.inside
        rw [view.count] at outside
        have here : all[fk - 1]? = some all[fk - 1] := getElem?_eq_getElem (by omega)
        have other : F.rowMatchesSlot row (F.slot (F.rowOf all[fk - 1])) = false := by
          rw [Bool.eq_false_iff]
          intro found
          have overflows := F.overflows_of_matches
            (view.contiguous.valid _ (mem_of_getElem? here)) found
          have counted : (all.take n)[fk - 1]? = some all[fk - 1] := by
            rw [getElem?_take_of_lt (by omega), here]
          have mem := F.mem_ovfOf_of_overflows counted overflows
          rw [same, ← view.ovfRows] at mem
          have sorted : L.ovfRows.Pairwise fun x y => x.1 < y.1 := by
            rw [view.ovfRows]
            exact F.pairwise_ovfOf _
          have := le_lastOvf sorted mem
          omega
        rw [view.readSlot here (by omega), ok_bind, other]
        rfl

include before

theorem View.ovfOf_take_eq : F.ovfOf (all.take n) = F.ovfOf (all.take m) ++
    selectFrom F.overflows m (((all.take n).drop m).map F.rowOf) := by
  have inside := view.inside
  have length : (all.take m).length = m := length_take_of_le (by omega)
  have split : all.take n = all.take m ++ (all.take n).drop m := by
    conv_lhs => rw [← take_append_drop m (all.take n), take_take, min_eq_left before]
  conv_lhs => rw [split]
  rw [F.ovfOf_append, length]

theorem View.cut_some {fk : Nat} {row : Row} {rest : List (Nat × Row)}
    (missing : selectFrom F.overflows m (((all.take n).drop m).map F.rowOf) = (fk, row) :: rest) :
    m < fk ∧ fk ≤ n ∧
    F.unresolvedOvfCut L.loc L.ovf L.count ((L.ovfRows.getLast?.map Prod.fst).getD 0) =
      .ok (some (fk - 1)) ∧ F.ovfOf (all.take (fk - 1)) = F.ovfOf (all.take m) := by
  have inside := view.inside
  have rows := view.ovfOf_take_eq before
  rw [missing] at rows
  have above : m < fk := ((mem_selectFrom F.overflows).mp (missing ▸ mem_cons_self)).1
  have mem : (fk, row) ∈ F.ovfOf (all.take n) := by simp [rows]
  have counted : fk ≤ n := by
    have := F.fst_le_of_mem_ovfOf mem
    rwa [length_take_of_le inside] at this
  have here : all[fk - 1]? = some all[fk - 1] := getElem?_eq_getElem (by omega)
  obtain ⟨-, at_number, overflows⟩ := F.mem_ovfOf.mp mem
  rw [getElem?_map, getElem?_take_of_lt (by omega), here, Option.map_some,
    Option.some.injEq] at at_number
  subst at_number
  have bytes : L.ovf.preadAll L.ovf.published F.ovf.width =
      .ok (F.ovf.encode (fk, F.rowOf all[fk - 1])) := by
    obtain ⟨later, whole⟩ := prefix_ovfOf_take (F := F) all n
    have next : ((F.ovfOf all).drop (F.ovfOf (all.take m)).length).take 1 =
        [(fk, F.rowOf all[fk - 1])] := by
      rw [← whole, rows, append_assoc, drop_left]
      rfl
    have size := Records.length_flatMap F.ovf.length_encode (F.ovfOf (all.take m))
    have fits : ((F.ovfOf (all.take m)).flatMap F.ovf.encode).length + F.ovf.width ≤
        ((F.ovfOf all).flatMap F.ovf.encode).length := by
      rw [size, Records.length_flatMap F.ovf.length_encode, ← Nat.mul_succ]
      refine Nat.mul_le_mul_left _ ?_
      rw [← whole, rows]
      simp only [length_append, length_cons]
      omega
    have read := view.ovf.preadAll fits
    rw [size, ← Nat.mul_add_one, Records.slice_flatMap F.ovf.length_encode, next,
      flatMap_singleton, ← size] at read
    rw [view.ovf.published, read]
  have decoded : F.ovf.decode (F.ovf.encode (fk, F.rowOf all[fk - 1])) =
      (fk, F.rowOf all[fk - 1]) :=
    F.ovf.decode_encode (F.ovf_fits (by have := view.contiguous.length_lt; omega) _)
  have found := F.matches_self (view.contiguous.valid _ (mem_of_getElem? here)) overflows
  have last := view.lastOvf_le
  refine ⟨above, counted, ?_, ?_⟩
  · rw [LocCode.unresolvedOvfCut, view.count, if_neg (by omega), bytes]
    dsimp only
    rw [LocCode.cutForOvfRow, decoded]
    dsimp only
    rw [if_neg (by omega), view.readSlot here (by omega), ok_bind, if_pos found]
    rfl
  · have later : ((fk, F.rowOf all[fk - 1]) :: rest).filter (fun x => x.1 ≤ fk - 1) = [] := by
      have sorted := missing ▸ pairwise_selectFrom F.overflows m (((all.take n).drop m).map F.rowOf)
      rw [filter_eq_nil_iff]
      refine forall_mem_cons.mpr ⟨by simp; omega, fun x after => ?_⟩
      have := (pairwise_cons.mp sorted).1 x after
      simp
      omega
    have fewer := F.filter_ovfOf all n (fk - 1)
    rw [rows, filter_append, later, append_nil, F.filter_ovfOf,
      min_eq_right (by omega), min_eq_left (by omega)] at fewer
    exact fewer.symm

end Cut

end Locator

namespace LocFormat.OnDisk

open LocFormat

variable {F : LocFormat Rec Row Pos} {files : LocFiles} {all : List Rec} {m c : Nat}

theorem opened (disk : F.OnDisk files all m c) :
    ∃ (L : Locator Row Pos) (k : Nat), F.openFiles files = F.cutUnresolved L ∧
      c ≤ k ∧ k ≤ all.length ∧ (c = all.length → k = all.length) ∧
      L.View F all k (min k m) k := by
  obtain ⟨k, fits, above, below, same, full⟩ :=
    checkpointPrefix_spec F.off.width_pos disk.offInside
  have slots : files.loc.reopen.published = slotLen * all.length := by
    rw [disk.loc.published, F.length_slots]
  have whole : ¬slotLen * all.length % slotLen ≠ 0 := by
    rw [Nat.mul_mod_right]
    exact not_not.mpr rfl
  have count : slotLen * all.length / slotLen = all.length :=
    Nat.mul_div_cancel_left _ (by decide)
  have marked : F.marksOf (all.take k) = F.marksOf (all.take c) :=
    marksOf_take_eq below disk.offInside same
  have length : ((F.marksOf (all.take c)).flatMap F.off.encode).length =
      F.off.width * (k / locWindow) := by
    rw [Records.length_flatMap F.off.length_encode, F.length_marksOf,
      length_take_of_le disk.offInside, same]
  have named : files.off.reopen.published = F.off.width * (c / locWindow) := by
    rw [disk.off.published, length, same]
  have marks := (disk.off.shorter
    (Records.prefix_flatMap (prefix_marksOf_take all c) F.off.encode)).readAll
  rw [length] at marks
  have decoded : F.off.readAll ((F.marksOf (all.take c)).flatMap F.off.encode) =
      F.marksOf (all.take k) := by
    rw [F.off.readAll_flatMap (marksOf_fits (disk.contiguous.take c)), marked]
  have loaded := loadOvf_eq (disk.contiguous.take m) (disk.ovf.shorter
    (Records.prefix_flatMap (prefix_ovfOf_take all m) F.ovf.encode))
  have view : (⟨⟨files.loc.reopen, files.ovf.reopen, files.off.reopen⟩, F.marksOf (all.take k),
      F.ovfOf (all.take m), all.length⟩ : Locator Row Pos).View F all all.length m k :=
    ⟨disk.contiguous, le_rfl, rfl, rfl, rfl, F.length_slots all ▸ disk.loc, disk.ovf,
      marked ▸ disk.off⟩
  obtain ⟨L, cut, view⟩ := view.truncateToCount (le_refl k) below
  refine ⟨L, k, ?_, above, below, full, view⟩
  simp only [LocCode.openFiles, slots, rejectIf_neg whole, ok_bind, count, named, fits, marks,
    loaded, decoded, cut]

theorem openFiles (disk : F.OnDisk files all m c) :
    ∃ L, F.openFiles files = .ok L ∧ min m c ≤ L.count ∧ L.count ≤ all.length ∧
      (m = all.length → c = all.length → L.count = all.length) ∧
      L.Holds F (all.take L.count) := by
  obtain ⟨opened, k, start, above, below, full, view⟩ := disk.opened
  have rows := view.ovfOf_take_eq (min_le_left k m)
  cases missing : selectFrom F.overflows (min k m) (((all.take k).drop (min k m)).map F.rowOf) with
  | nil =>
    rw [missing, append_nil] at rows
    refine ⟨opened, by rw [start, LocCode.cutUnresolved, view.cut_none rows]; rfl, ?_⟩
    rw [view.count]
    exact ⟨by omega, below, fun _ => full, (view.more_rows rows).holds⟩
  | cons first rest =>
    obtain ⟨fk, row⟩ := first
    obtain ⟨after, counted, unresolved, rows⟩ := view.cut_some (min_le_left k m) missing
    obtain ⟨L, shorter, view⟩ := view.truncateToCount (show fk - 1 ≤ k by omega) (le_refl k)
    rw [min_eq_right (by omega)] at view
    refine ⟨L, by rw [start, LocCode.cutUnresolved, unresolved]; exact shorter, ?_⟩
    rw [view.count]
    exact ⟨by omega, by omega, by omega, (view.more_rows rows).holds⟩

theorem openFiles_all (disk : F.OnDisk files all all.length all.length) :
    ∃ L, F.openFiles files = .ok L ∧ L.count = all.length ∧ L.Holds F all := by
  obtain ⟨L, opened, -, -, full, held⟩ := disk.openFiles
  have count := full rfl rfl
  rw [count, take_length] at held
  exact ⟨L, opened, count, held⟩

end LocFormat.OnDisk

/-- What the first writes of an append leave of the files. -/
def LocCode.stopped (files : LocFiles) (staged : StagedLoc Row Pos) (writes torn : Nat) :
    LocFiles where
  loc := files.loc.stopped 0 3 staged.locOff staged.locBytes writes torn
  ovf := files.ovf.stopped 1 4 staged.ovfAt staged.ovfBytes writes torn
  off := files.off.stopped 2 5 staged.offAt staged.offBytes writes torn

/-- The headers that are written by then name the whole append. -/
def StagedLoc.Persisted (staged : StagedLoc Row Pos) (writes : Nat) : Prop :=
  3 < writes ∧ (staged.ovfBytes = [] ∨ 4 < writes) ∧ (staged.offBytes = [] ∨ 5 < writes)

/-- An append that stops after some of its writes, and the open after it. -/
def LocCode.openStopped (C : LocCode Rec Row Pos) (L : Locator Row Pos) (new : List Rec)
    (writes torn : Nat) : Result (Locator Row Pos) :=
  if new = [] then C.openFiles L.toLocFiles
  else do
    let staged ← C.stage L new
    let _ ← C.writeStaged L staged
    C.openFiles (LocCode.stopped L.toLocFiles staged writes torn)

namespace Locator

open LocFormat

variable {F : LocFormat Rec Row Pos} {L : Locator Row Pos} {recs new : List Rec}

theorem Holds.onDisk (held : L.Holds F recs) :
    F.OnDisk L.toLocFiles recs recs.length recs.length where
  contiguous := held.contiguous
  ovfInside := le_rfl
  offInside := le_rfl
  loc := shows_reopen held.loc.stored held.loc.header le_rfl
  ovf := by
    rw [take_length]
    exact shows_reopen held.ovf.stored held.ovf.header le_rfl
  off := by
    rw [take_length]
    exact shows_reopen held.off.stored held.off.header le_rfl

theorem Holds.onDisk_before (held : L.Holds F recs) {writes : Nat} (before : writes ≤ 3)
    (torn : Nat) : F.OnDisk (LocCode.stopped L.toLocFiles (F.staged recs new) writes torn) recs
      recs.length recs.length where
  contiguous := held.contiguous
  ovfInside := le_rfl
  offInside := le_rfl
  loc := stopped_before held.loc (fun _ => rfl) (by omega) torn
  ovf := by
    rw [take_length]
    exact stopped_before held.ovf (fun _ => rfl) (by omega) torn
  off := by
    rw [take_length]
    exact stopped_before held.off (offAt_staged F recs new) (by omega) torn

/-- The records that a file names which has new ones from write `last` on. -/
def namedBy (recs new : List Rec) (b : Bytes) (writes last : Nat) : Nat :=
  if b ≠ [] ∧ writes ≤ last then recs.length else (recs ++ new).length

theorem namedBy_bounds (recs new : List Rec) (b : Bytes) (writes last : Nat) :
    recs.length ≤ namedBy recs new b writes last ∧
      namedBy recs new b writes last ≤ (recs ++ new).length := by
  rw [namedBy, length_append]
  split_ifs <;> omega

theorem stopped_named (bytes : List Rec → Bytes) {file : TableFile} {b : Bytes}
    (held : file.Holds (bytes recs)) (grows : bytes (recs ++ new) = bytes recs ++ b)
    {off : Nat} (at_end : b ≠ [] → off = (bytes recs).length) {i writes : Nat} (after : i < writes)
    (torn : Nat) : (file.stopped i (3 + i) off b writes torn).reopen.Shows (bytes (recs ++ new))
      (bytes ((recs ++ new).take (namedBy recs new b writes (3 + i)))).length := by
  have shown := stopped_after held at_end after (3 + i) torn
  rw [← grows] at shown
  rw [namedBy]
  split_ifs at shown ⊢ with old
  · rwa [take_left]
  · rwa [take_length]

theorem Holds.onDisk_after (held : L.Holds F recs) (contiguous : F.Contiguous (recs ++ new))
    {writes : Nat} (after : 3 < writes) (torn : Nat) :
    F.OnDisk (LocCode.stopped L.toLocFiles (F.staged recs new) writes torn) (recs ++ new)
      (namedBy recs new (F.staged recs new).ovfBytes writes 4)
      (namedBy recs new (F.staged recs new).offBytes writes 5) where
  contiguous := contiguous
  ovfInside := (namedBy_bounds ..).2
  offInside := (namedBy_bounds ..).2
  loc := by
    have shown := stopped_named F.slots held.loc (F.slots_append recs new) (fun _ => rfl)
      (show 0 < writes by omega) torn
    rwa [namedBy, if_neg (by omega), take_length] at shown
  ovf := stopped_named (fun recs => (F.ovfOf recs).flatMap F.ovf.encode) held.ovf
    (by rw [F.ovfOf_append, flatMap_append]; rfl) (fun _ => rfl) (by omega) torn
  off := stopped_named (fun recs => (F.marksOf recs).flatMap F.off.encode) held.off
    (by rw [F.marksOf_append, flatMap_append, offBytes_staged]; rfl)
    (offAt_staged F recs new) (by omega) torn

theorem Holds.openStopped (held : L.Holds F recs) (contiguous : F.Contiguous (recs ++ new))
    (writes torn : Nat) :
    ∃ L' : Locator Row Pos, F.openStopped L new writes torn = .ok L' ∧ recs.length ≤ L'.count ∧
      (∀ staged, F.stage L new = .ok staged → staged.Persisted writes →
        L'.count = (recs ++ new).length) ∧ L'.Holds F ((recs ++ new).take L'.count) := by
  rw [LocCode.openStopped]
  by_cases nothing : new = []
  · subst nothing
    obtain ⟨L', opened, count, held'⟩ := held.onDisk.openFiles_all
    refine ⟨L', by rw [if_pos rfl, opened], count.ge, ?_⟩
    rw [append_nil, count, take_length]
    exact ⟨fun _ _ _ => rfl, held'⟩
  · rw [if_neg nothing, held.stage_eq contiguous, ok_bind, held.writeStaged_eq]
    by_cases before : writes ≤ 3
    · obtain ⟨L', opened, count, held'⟩ := (held.onDisk_before before torn).openFiles_all
      refine ⟨L', opened, count.ge, fun staged _ persisted => ?_, ?_⟩
      · exact absurd persisted.1 (not_lt.mpr before)
      · rwa [count, take_left]
    · obtain ⟨L', opened, above, below, full, held'⟩ :=
        (held.onDisk_after contiguous (not_le.mp before) torn).openFiles
      have rows := namedBy_bounds recs new (F.staged recs new).ovfBytes writes 4
      have marks := namedBy_bounds recs new (F.staged recs new).offBytes writes 5
      refine ⟨L', opened, by omega, fun staged same persisted => ?_, held'⟩
      obtain rfl : F.staged recs new = staged := Except.ok.inj same
      refine full (if_neg ?_) (if_neg ?_)
      · rintro ⟨some_rows, early⟩
        exact absurd (persisted.2.1.resolve_left some_rows) (not_lt.mpr early)
      · rintro ⟨some_marks, early⟩
        exact absurd (persisted.2.2.resolve_left some_marks) (not_lt.mpr early)

end Locator

/-- Locators that appends, truncations and stops lead to, with the records that they have then. -/
inductive LocFormat.Reached (F : LocFormat Rec Row Pos) : Locator Row Pos → List Rec → Prop
  | create : F.Reached LocCode.create []
  | step {L L' : Locator Row Pos} {recs : List Rec} {op : LocOp Rec} : F.Reached L recs →
      F.Admits recs op → F.step L op = .ok L' → F.Reached L' (LocOp.apply recs op)
  | stop {L L' : Locator Row Pos} {recs new : List Rec} {writes torn : Nat} : F.Reached L recs →
      F.Contiguous (recs ++ new) → F.openStopped L new writes torn = .ok L' →
      F.Reached L' ((recs ++ new).take L'.count)

theorem LocFormat.Reached.holds {F : LocFormat Rec Row Pos} {L : Locator Row Pos}
    {recs : List Rec} (starts : F.InRange F.origin) (reached : F.Reached L recs) :
    L.Holds F recs := by
  induction reached with
  | create => exact Locator.holds_create starts
  | step before admits run ih =>
    obtain ⟨_, done, held⟩ := ih.step admits
    rw [run, Except.ok.injEq] at done
    rwa [done]
  | stop before contiguous run ih =>
    obtain ⟨_, done, -, -, held⟩ := ih.openStopped contiguous _ _
    rw [run, Except.ok.injEq] at done
    rwa [done]

theorem seqsigwitFormat_starts : seqsigwitFormat.InRange seqsigwitFormat.origin :=
  (by decide : fileHeaderLen < 2 ^ 64)

/-- **Recovery of the locators.** Wherever an append stops, in any history of appends, truncations
and earlier stops, both locators open with at least the records that were persisted, and each
record up to their count has the range that it was appended with. -/
theorem openStopped_ranges :
    (∀ {L : CreateLoc} {recs new : List CreateLocAppend}, createFormat.Reached L recs →
      createFormat.Contiguous (recs ++ new) → ∀ writes torn, ∃ L' : CreateLoc,
        createFormat.openStopped L new writes torn = .ok L' ∧ recs.length ≤ L'.count ∧
        (∀ staged, createFormat.stage L new = .ok staged → staged.Persisted writes →
          L'.count = (recs ++ new).length) ∧
        ∀ fks, CreateLoc.rangeBatch L' fks =
          .ok (fks.map (CreateLocAppend.rangeOf ((recs ++ new).take L'.count)))) ∧
    (∀ {L : DeltaLoc} {recs new : List DeltaRec}, seqsigwitFormat.Reached L recs →
      seqsigwitFormat.Contiguous (recs ++ new) → ∀ writes torn, ∃ L' : DeltaLoc,
        seqsigwitFormat.openStopped L new writes torn = .ok L' ∧ recs.length ≤ L'.count ∧
        (∀ staged, seqsigwitFormat.stage L new = .ok staged → staged.Persisted writes →
          L'.count = (recs ++ new).length) ∧
        ∀ fks, DeltaLoc.rangeBatch L' fks =
          .ok (fks.map (rangeOf ((recs ++ new).take L'.count)))) := by
  constructor
  · intro L recs new reached contiguous writes torn
    obtain ⟨L', opened, above, persisted, held⟩ :=
      (reached.holds createFormat_starts).openStopped contiguous writes torn
    exact ⟨L', opened, above, persisted, rangeBatch_eq held⟩
  · intro L recs new reached contiguous writes torn
    obtain ⟨L', opened, above, persisted, held⟩ :=
      (reached.holds seqsigwitFormat_starts).openStopped contiguous writes torn
    exact ⟨L', opened, above, persisted, deltaRangeBatch_eq held⟩

/-- Two creates, the second with an overflow row, and a stop after the header of the slots. -/
theorem openStopped_ranges_sample : ∃ L' : CreateLoc,
    createFormat.openStopped LocCode.create [⟨16, 24, 16, 2⟩, ⟨40, 4096, 32, 300⟩] 4 0 = .ok L' ∧
      0 ≤ L'.count ∧ ∀ fks, CreateLoc.rangeBatch L' fks = .ok (fks.map (CreateLocAppend.rangeOf
        (([⟨16, 24, 16, 2⟩, ⟨40, 4096, 32, 300⟩] : List CreateLocAppend).take L'.count))) := by
  obtain ⟨L', opened, above, -, ranges⟩ := openStopped_ranges.1 .create contiguous_sample 4 0
  exact ⟨L', opened, above, ranges⟩

theorem DeltaLoc.append_eq (L : DeltaLoc) (new : List DeltaRec) :
    L.append (new.map start) (new.map len) = seqsigwitFormat.append L new := by
  rw [append, rejectIf_neg (by simp), ok_bind, zipWith_map, zipWith_self]
  exact congrArg _ (map_id' new)

/-- After any history with stops the locator takes every append that goes on where it ends and every
truncation to a count that it has, and answers for its records then and now. -/
theorem delta_after_stops {L : DeltaLoc} {recs : List DeltaRec}
    (reached : seqsigwitFormat.Reached L recs) :
    (∀ new, seqsigwitFormat.Contiguous (recs ++ new) → ∃ L' : DeltaLoc,
      L.append (new.map start) (new.map len) = .ok L' ∧
      ∀ fks, L'.rangeBatch fks = .ok (fks.map (rangeOf (recs ++ new)))) ∧
    (∀ n ≤ recs.length, ∃ L' : DeltaLoc, seqsigwitFormat.truncateToCount L n = .ok L' ∧
      ∀ fks, L'.rangeBatch fks = .ok (fks.map (rangeOf (recs.take n)))) ∧
    ∀ fks, L.rangeBatch fks = .ok (fks.map (rangeOf recs)) := by
  have held := reached.holds seqsigwitFormat_starts
  refine ⟨fun new contiguous => ?_, fun n inside => ?_, deltaRangeBatch_eq held⟩
  · obtain ⟨L', run, held'⟩ := held.append contiguous
    exact ⟨L', (L.append_eq new).trans run, deltaRangeBatch_eq held'⟩
  · obtain ⟨L', run, held'⟩ := held.truncateToCount inside
    exact ⟨L', run, deltaRangeBatch_eq held'⟩

/-- A record with an overflow row, and a second whose append stops after the header of the slots:
the locator that opens has the first record and goes on after it. -/
theorem delta_after_stop :
    ∃ L L' : DeltaLoc, DeltaLoc.append LocCode.create [16] [524288] = .ok L ∧
      seqsigwitFormat.openStopped L [⟨524304, 524288⟩] 4 0 = .ok L' ∧
      L'.rangeBatch [1, 2] = .ok [some (16, 524288), none] ∧
      ∃ L'' : DeltaLoc, L'.append [524304] [8] = .ok L'' ∧
        L''.rangeBatch [2] = .ok [some (524304, 8)] := by
  have one : seqsigwitFormat.Contiguous [⟨16, 524288⟩] :=
    (LocFormat.contiguous_nil seqsigwitFormat_starts).snoc ⟨by decide, by decide, by decide⟩
      (by decide) (show 524304 < 2 ^ 64 by decide)
  have two : seqsigwitFormat.Contiguous [⟨16, 524288⟩, ⟨524304, 524288⟩] :=
    one.snoc ⟨by decide, by decide, by decide⟩ (by decide) (show 1048592 < 2 ^ 64 by decide)
  have other : seqsigwitFormat.Contiguous [⟨16, 524288⟩, ⟨524304, 8⟩] :=
    one.snoc ⟨by decide, by decide, by decide⟩ (by decide) (show 524312 < 2 ^ 64 by decide)
  obtain ⟨L, run, -⟩ := (delta_after_stops .create).1 [⟨16, 524288⟩] one
  have admits : seqsigwitFormat.Admits [] (.append [⟨16, 524288⟩]) := one
  have reached : seqsigwitFormat.Reached L [⟨16, 524288⟩] :=
    .step .create admits ((DeltaLoc.append_eq _ _).symm.trans run)
  obtain ⟨L', opened, -⟩ := (reached.holds seqsigwitFormat_starts).openStopped two 4 0
  have count : L'.count = 1 := by
    have counted : ((DeltaLoc.append LocCode.create [16] [524288]).bind fun L =>
        seqsigwitFormat.openStopped L [⟨524304, 524288⟩] 4 0).toOption.map (·.count) = some 1 := by
      decide +kernel
    rw [show DeltaLoc.append LocCode.create [16] [524288] = .ok L from run] at counted
    rw [Except.bind, opened] at counted
    exact Option.some.inj counted
  have again : seqsigwitFormat.Reached L' [⟨16, 524288⟩] := by
    have stopped := reached.stop two opened
    rwa [count] at stopped
  obtain ⟨L'', run', ranges⟩ := (delta_after_stops again).1 [⟨524304, 8⟩] other
  exact ⟨L, L', run, opened, (delta_after_stops again).2.2 [1, 2], L'', run', ranges [2]⟩

end Rbitcoin.Store
