import Rbitcoin.Lib.Run
import Rbitcoin.Store.Locator

/-! What a locator is for: a list of records that stand one after another. The files and the memory
of a locator hold the list, an append makes it longer and a truncation shorter. -/

namespace Rbitcoin.Store

open Bytes Numbered Outcome Records List

/-- A code of a locator with what it means: the records that it takes, their lengths, and slots and
rows that say which of them overflow. -/
structure LocFormat (Rec Row Pos : Type) [AddCommMonoid Pos] extends LocCode Rec Row Pos where
  Valid : Rec → Prop
  rowOf : Rec → Row
  len : Rec → Pos
  slot : Row → Bytes
  overflows : Row → Bool
  /-- Positions that the offsets of a body have room for. -/
  InRange : Pos → Prop
  weight : Pos → Nat
  row_eq : ∀ {a}, Valid a → row a = .ok (rowOf a)
  pack_eq : ∀ {a}, Valid a → pack (rowOf a) = .ok (slot (rowOf a), overflows (rowOf a))
  next_eq : ∀ {a}, Valid a → InRange (start a + len a) → next a = start a + len a
  follows_eq : ∀ {a b}, start b = next a → follows a b = .ok ()
  length_slot : ∀ row, (slot row).length = slotLen
  ovf_fits : ∀ {fk : Nat}, fk < 2 ^ 64 → ∀ row, ovf.Fits (fk, row)
  off_fits : ∀ {p}, InRange p → off.Fits p
  overflows_of_matches : ∀ {a row}, Valid a → rowMatchesSlot row (slot (rowOf a)) →
    overflows (rowOf a)
  matches_self : ∀ {a}, Valid a → overflows (rowOf a) → rowMatchesSlot (rowOf a) (slot (rowOf a))
  inRange_of_add : ∀ {p a}, InRange (p + len a) → InRange p
  weight_lt : ∀ {p}, InRange p → weight p < 2 ^ 64
  weight_add : ∀ {a} (p), Valid a → weight p < weight (p + len a)

variable {Rec Row Pos : Type} [AddCommMonoid Pos] (F : LocFormat Rec Row Pos)

namespace LocFormat

variable (recs : List Rec)

/-- The position after the first `k` records. -/
def posOf (k : Nat) : Pos := pos F.origin F.len recs k

def slots : Bytes := recs.flatMap fun a => F.slot (F.rowOf a)

def ovfOf : List (Nat × Row) := selectFrom F.overflows 0 (recs.map F.rowOf)

def marksOf : List Pos := marks F.origin F.len locWindow recs

/-- The records fill a body from its start. -/
structure Contiguous (recs : List Rec) : Prop where
  valid : ∀ a ∈ recs, F.Valid a
  starts : ∀ {i a}, recs[i]? = some a → F.start a = F.posOf recs i
  inRange : F.InRange (F.posOf recs recs.length)

theorem length_slots : (F.slots recs).length = slotLen * recs.length :=
  length_flatMap (fun a => F.length_slot (F.rowOf a)) recs

theorem slots_append (recs new : List Rec) : F.slots (recs ++ new) = F.slots recs ++ F.slots new :=
  flatMap_append

variable {a : Rec} {i : Nat} {recs : List Rec}

theorem slice_slots (here : recs[i]? = some a) :
    slice (F.slots recs) (slotLen * i) (slotLen * (i + 1)) = F.slot (F.rowOf a) := by
  obtain ⟨inside, rfl⟩ := List.getElem?_eq_some_iff.mp here
  have one : (recs.drop i).take 1 = [recs[i]] := by
    rw [drop_eq_getElem_cons inside]
    rfl
  rw [slots, slice_flatMap fun a => F.length_slot (F.rowOf a), one, flatMap_singleton]

theorem slice_slots_take (recs : List Rec) (k n : Nat) :
    slice (F.slots recs) (slotLen * k) (slotLen * k + n * 2) = F.slots ((recs.drop k).take n) := by
  rw [show slotLen * k + n * 2 = slotLen * (k + n) by rw [slotLen]; omega, slots,
    slice_flatMap fun a => F.length_slot (F.rowOf a)]
  rfl

theorem mem_ovfOf {fk : Nat} {row : Row} : (fk, row) ∈ F.ovfOf recs ↔
    0 < fk ∧ (recs.map F.rowOf)[fk - 1]? = some row ∧ F.overflows row := mem_selectFrom F.overflows

theorem pairwise_ovfOf (recs : List Rec) : (F.ovfOf recs).Pairwise fun x y => x.1 < y.1 :=
  pairwise_selectFrom ..

theorem find?_ovfOf (here : recs[i]? = some a) {rows : List (Nat × Row)}
    (some_rows : rows ⊆ F.ovfOf recs) (mem : (i + 1, F.rowOf a) ∈ rows) :
    (rows.find? fun row => row.1 = i + 1) = some (i + 1, F.rowOf a) := by
  cases found : find? _ _ with
  | none =>
    rw [find?_eq_none] at found
    exact absurd (by simp) (found _ mem)
  | some row =>
    obtain ⟨fk, row⟩ := row
    have number : fk = i + 1 := by
      have := find?_some found
      rwa [decide_eq_true_eq] at this
    subst number
    obtain ⟨-, at_number, -⟩ := F.mem_ovfOf.mp (some_rows (mem_of_find?_eq_some found))
    rw [Nat.add_sub_cancel, getElem?_map, here, Option.map_some, Option.some.injEq] at at_number
    rw [at_number]

theorem mem_ovfOf_of_overflows (here : recs[i]? = some a) (overflows : F.overflows (F.rowOf a)) :
    (i + 1, F.rowOf a) ∈ F.ovfOf recs := by
  refine F.mem_ovfOf.mpr ⟨Nat.succ_pos i, ?_, overflows⟩
  rw [Nat.add_sub_cancel, getElem?_map, here]
  rfl

section Contiguous

variable {F} {recs : List Rec}

theorem inRange_pos {start : Pos} {n k : Nat} (inRange : F.InRange (pos start F.len recs n))
    (before : k ≤ n) (inside : n ≤ recs.length) : F.InRange (pos start F.len recs k) := by
  induction n with
  | zero => rwa [Nat.le_zero.mp before]
  | succ n ih =>
    rcases lt_or_ge n k with last | earlier
    · rwa [show k = n + 1 by omega]
    · have here : recs[n]? = some recs[n] := getElem?_eq_getElem (by omega)
      rw [pos_succ _ _ here] at inRange
      exact ih (F.inRange_of_add inRange) earlier (by omega)

theorem Contiguous.take (contiguous : F.Contiguous recs) (n : Nat) :
    F.Contiguous (recs.take n) where
  valid a mem := contiguous.valid a (mem_of_mem_take mem)
  starts := by
    intro i a here
    have inside : i < n ∧ recs[i]? = some a := by
      rw [getElem?_take] at here
      split_ifs at here with small
      exact ⟨small, here⟩
    rw [contiguous.starts inside.2, posOf, posOf, pos_take, min_eq_left inside.1.le]
  inRange := by
    rw [posOf, pos_take]
    refine inRange_pos contiguous.inRange ?_ le_rfl
    rw [length_take]
    omega

theorem contiguous_nil (starts : F.InRange F.origin) : F.Contiguous [] where
  valid := by simp
  starts := by simp
  inRange := by
    rw [posOf, length_nil, pos_zero]
    exact starts

theorem Contiguous.snoc (contiguous : F.Contiguous recs) {a : Rec} (valid : F.Valid a)
    (starts : F.start a = F.posOf recs recs.length)
    (inRange : F.InRange (F.posOf recs recs.length + F.len a)) : F.Contiguous (recs ++ [a]) where
  valid := by
    intro b mem
    rcases mem_append.mp mem with old | new
    · exact contiguous.valid b old
    · rwa [mem_singleton.mp new]
  starts := by
    intro i b here
    rcases lt_or_ge i recs.length with old | new
    · rw [getElem?_append_left old] at here
      rw [contiguous.starts here, posOf, posOf, pos_append _ _ old.le]
    · have inside := (List.getElem?_eq_some_iff.mp here).1
      obtain rfl : i = recs.length := by
        rw [length_append, length_singleton] at inside
        omega
      rw [getElem?_concat_length] at here
      rw [← Option.some.inj here, starts, posOf, posOf, pos_append _ _ le_rfl]
  inRange := by
    rw [length_append, length_singleton, posOf, pos_snoc]
    exact inRange

theorem Contiguous.length_lt (contiguous : F.Contiguous recs) : recs.length < 2 ^ 64 := by
  have grows : ∀ k ≤ recs.length, k ≤ F.weight (F.posOf recs k) := by
    intro k
    induction k with
    | zero => exact fun _ => Nat.zero_le _
    | succ k ih =>
      intro inside
      have here : recs[k]? = some recs[k] := getElem?_eq_getElem (by omega)
      have more := F.weight_add (F.posOf recs k) (contiguous.valid _ (getElem_mem inside))
      have next : F.posOf recs (k + 1) = F.posOf recs k + F.len recs[k] := pos_succ _ _ here
      rw [next]
      omega
  have := grows _ le_rfl
  have := F.weight_lt contiguous.inRange
  omega

end Contiguous

theorem length_marksOf (recs : List Rec) : (F.marksOf recs).length = recs.length / locWindow :=
  length_marks ..

theorem stageFrom_eq {new : List Rec} (contiguous : F.Contiguous (recs ++ new)) :
    F.stageFrom recs.length new = .ok (F.slots new,
      selectFrom F.overflows recs.length (new.map F.rowOf),
      marksFrom F.len locWindow recs.length (F.posOf recs recs.length) new) := by
  induction new generalizing recs with
  | nil => rfl
  | cons a new ih =>
    have later : F.Contiguous ((recs ++ [a]) ++ new) := by rwa [← append_cons]
    have valid := contiguous.valid a (by simp)
    have here : F.start a = F.posOf recs recs.length := by
      have at_end : (recs ++ a :: new)[recs.length]? = some a := by simp
      rw [contiguous.starts at_end, posOf, pos_append _ _ le_rfl, posOf]
    have after : F.posOf (recs ++ [a]) (recs.length + 1) =
        F.posOf recs recs.length + F.len a := pos_snoc ..
    have reached : F.posOf ((recs ++ [a]) ++ new) (recs.length + 1) = F.start a + F.len a := by
      rw [posOf, pos_append _ _ (by simp), ← posOf, after, here]
    have next : F.next a = F.start a + F.len a := by
      refine F.next_eq valid ?_
      rw [← reached]
      exact inRange_pos later.inRange (by simp) le_rfl
    have check : F.checkNext a new = .ok () := by
      cases new with
      | nil => rfl
      | cons b new =>
        have at_next : ((recs ++ [a]) ++ b :: new)[recs.length + 1]? = some b := by simp
        refine F.follows_eq ?_
        rw [later.starts at_next, reached, next]
    have rest := ih later
    rw [length_append, length_singleton, after] at rest
    simp only [LocCode.stageFrom, F.row_eq valid, check, F.pack_eq valid, rest, ok_bind, next, here]
    rfl

theorem ovfOf_append (recs new : List Rec) : F.ovfOf (recs ++ new) =
    F.ovfOf recs ++ selectFrom F.overflows recs.length (new.map F.rowOf) := by
  rw [ovfOf, map_append, selectFrom_append, length_map, zero_add, ovfOf]

theorem marksOf_append (recs new : List Rec) : F.marksOf (recs ++ new) = F.marksOf recs ++
    (marksFrom F.len locWindow recs.length (F.posOf recs recs.length) new).map Prod.snd :=
  marks_append F.origin F.len (by decide) recs new

theorem filter_ovfOf (recs : List Rec) (m n : Nat) :
    (F.ovfOf (recs.take m)).filter (fun x => x.1 ≤ n) = F.ovfOf (recs.take (min n m)) := by
  have := filter_selectFrom F.overflows 0 n ((recs.take m).map F.rowOf)
  rw [zero_add, ← map_take, take_take] at this
  exact this

theorem fst_le_of_mem_ovfOf {x : Nat × Row} (mem : x ∈ F.ovfOf recs) : x.1 ≤ recs.length := by
  obtain ⟨above, here, -⟩ := (mem_selectFrom F.overflows).mp mem
  have := (List.getElem?_eq_some_iff.mp here).1
  rw [List.length_map] at this
  omega

/-- What an append to a locator that holds the records stages. -/
def staged (recs new : List Rec) : StagedLoc Row Pos :=
  let newOvf := selectFrom F.overflows recs.length (new.map F.rowOf)
  let newOffs := marksFrom F.len locWindow recs.length (F.posOf recs recs.length) new
  { base := recs.length
    n := new.length
    locOff := (F.slots recs).length
    locBytes := F.slots new
    ovfAt := ((F.ovfOf recs).flatMap F.ovf.encode).length
    ovfBytes := newOvf.flatMap F.ovf.encode
    newOvf := newOvf
    offAt := (newOffs.head?.map fun x => F.off.width * x.1).getD 0
    offBytes := newOffs.flatMap fun x => F.off.encode x.2
    newOffs := newOffs }

end LocFormat

/-- The files have the records of `all`. The locator counts `n` of them, and it has the overflow
rows of the first `m` and the checkpoints of the first `c`. -/
structure Locator.View (L : Locator Row Pos) (all : List Rec) (n m c : Nat) : Prop where
  contiguous : F.Contiguous all
  inside : n ≤ all.length
  count : L.count = n
  ovfRows : L.ovfRows = F.ovfOf (all.take m)
  checkpoints : L.checkpoints = F.marksOf (all.take c)
  loc : L.loc.Shows (F.slots all) (slotLen * n)
  ovf : L.ovf.Shows ((F.ovfOf all).flatMap F.ovf.encode)
    ((F.ovfOf (all.take m)).flatMap F.ovf.encode).length
  off : L.off.Shows ((F.marksOf all).flatMap F.off.encode)
    ((F.marksOf (all.take c)).flatMap F.off.encode).length

/-- The locator holds the records, and counts them all. -/
structure Locator.Holds (L : Locator Row Pos) (recs : List Rec) : Prop where
  contiguous : F.Contiguous recs
  count : L.count = recs.length
  ovfRows : L.ovfRows = F.ovfOf recs
  checkpoints : L.checkpoints = F.marksOf recs
  loc : L.loc.Holds (F.slots recs)
  ovf : L.ovf.Holds ((F.ovfOf recs).flatMap F.ovf.encode)
  off : L.off.Holds ((F.marksOf recs).flatMap F.off.encode)

namespace LocFormat

variable {F} {L : Locator Row Pos} {recs new all : List Rec} {n m c : Nat}

theorem prefix_ovfOf_take (recs : List Rec) (n : Nat) : F.ovfOf (recs.take n) <+: F.ovfOf recs := by
  conv_rhs => rw [← take_append_drop n recs, ovfOf_append]
  exact prefix_append ..

theorem prefix_marksOf_take (recs : List Rec) (n : Nat) :
    F.marksOf (recs.take n) <+: F.marksOf recs := by
  conv_rhs => rw [← take_append_drop n recs, marksOf_append]
  exact prefix_append ..

end LocFormat

namespace Locator

open LocFormat

variable {F} {L : Locator Row Pos} {recs new all : List Rec} {n m c : Nat}

theorem View.holds (view : L.View F all n n n) : L.Holds F (all.take n) where
  contiguous := view.contiguous.take n
  count := by rw [view.count, length_take_of_le view.inside]
  ovfRows := view.ovfRows
  checkpoints := view.checkpoints
  loc := by
    rw [TableFile.Holds, F.length_slots, length_take_of_le view.inside]
    exact view.loc.shorter (prefix_flatMap ( take_prefix ..) _)
  ovf := view.ovf.shorter (prefix_flatMap (prefix_ovfOf_take all n) _)
  off := view.off.shorter (prefix_flatMap (prefix_marksOf_take all n) _)

theorem Holds.view (held : L.Holds F recs) : L.View F recs recs.length recs.length recs.length where
  contiguous := held.contiguous
  inside := le_rfl
  count := held.count
  ovfRows := by rw [take_length, held.ovfRows]
  checkpoints := by rw [take_length, held.checkpoints]
  loc := F.length_slots recs ▸ held.loc
  ovf := by rw [take_length]; exact held.ovf
  off := by rw [take_length]; exact held.off

theorem holds_create (starts : F.InRange F.origin) :
    (LocCode.create : Locator Row Pos).Holds F ([] : List Rec) where
  contiguous := contiguous_nil starts
  count := rfl
  ovfRows := rfl
  checkpoints := (marks_nil ..).symm
  loc := TableFile.holds_create _
  ovf := TableFile.holds_create _
  off := by
    rw [marksOf, marks_nil]
    exact TableFile.holds_create _

theorem Holds.stage_eq (held : L.Holds F recs) (contiguous : F.Contiguous (recs ++ new)) :
    F.stage L new = .ok (F.staged recs new) := by
  simp only [LocCode.stage, held.count, F.stageFrom_eq contiguous, held.ovf.published,
    staged, F.length_slots]
  rfl

theorem Holds.writeStaged_eq (held : L.Holds F recs) :
    F.writeStaged L (F.staged recs new) = .ok (LocCode.writePayloads L (F.staged recs new)) := by
  have ordered : ¬∃ first ∈ (F.staged recs new).newOvf.head?, ∃ last ∈ L.ovfRows.getLast?,
      first.1 ≤ last.1 := by
    rintro ⟨⟨fk, row⟩, first, last, at_end, before⟩
    have above := ((mem_selectFrom F.overflows).mp (mem_of_mem_head? first)).1
    rw [held.ovfRows] at at_end
    have below := F.fst_le_of_mem_ovfOf (mem_of_mem_getLast? at_end)
    omega
  have numbered : ¬∃ first ∈ (F.staged recs new).newOffs.head?,
      first.1 ≠ L.checkpoints.length := by
    rintro ⟨first, mem, other⟩
    rw [held.checkpoints, F.length_marksOf] at other
    exact other (fst_of_head?_marksFrom F.len mem)
  rw [LocCode.writeStaged, rejectIf_neg ordered, rejectIf_neg numbered]
  rfl

section Staged

variable (F) (recs new)

theorem ovfBytes_staged : (F.staged recs new).ovfBytes = [] ↔ (F.staged recs new).newOvf = [] :=
  F.ovf.flatMap_eq_nil

theorem offBytes_staged : (F.staged recs new).offBytes =
    ((F.staged recs new).newOffs.map Prod.snd).flatMap F.off.encode := by
  rw [flatMap_map]
  rfl

theorem offBytes_staged_eq_nil :
    (F.staged recs new).offBytes = [] ↔ (F.staged recs new).newOffs = [] := by
  rw [offBytes_staged, F.off.flatMap_eq_nil, map_eq_nil_iff]

theorem offAt_staged (some_new : (F.staged recs new).offBytes ≠ []) :
    (F.staged recs new).offAt = ((F.marksOf recs).flatMap F.off.encode).length := by
  rw [Ne, offBytes_staged_eq_nil] at some_new
  obtain ⟨first, rest, cons⟩ := exists_cons_of_ne_nil some_new
  have head : (F.staged recs new).newOffs.head? = some first := by rw [cons]; rfl
  have number : first.1 = recs.length / locWindow := fst_of_head?_marksFrom F.len head
  rw [length_flatMap F.off.length_encode, F.length_marksOf, ← number]
  have shown : (F.staged recs new).offAt =
      ((F.staged recs new).newOffs.head?.map fun x => F.off.width * x.1).getD 0 := rfl
  rw [shown, head]
  rfl

end Staged

theorem Holds.commitStaged (held : L.Holds F recs) (contiguous : F.Contiguous (recs ++ new)) :
    (LocCode.commitStaged (LocCode.writePayloads L (F.staged recs new))
      (F.staged recs new)).Holds F (recs ++ new) where
  contiguous := contiguous
  count := by simp [LocCode.commitStaged, LocFormat.staged]
  ovfRows := by
    simp only [LocCode.commitStaged, LocCode.writePayloads, ovfBytes_staged, held.ovfRows,
      F.ovfOf_append]
    split_ifs with none_new
    · rw [show selectFrom F.overflows recs.length (new.map F.rowOf) = [] from none_new, append_nil]
    · rfl
  checkpoints := by
    simp only [LocCode.commitStaged, LocCode.writePayloads, offBytes_staged_eq_nil,
      held.checkpoints, F.marksOf_append]
    split_ifs with none_new
    · rw [show marksFrom F.len locWindow recs.length (F.posOf recs recs.length) new = [] from
        none_new, map_nil, append_nil]
    · rfl
  loc := by
    rw [F.slots_append]
    exact held.loc.append (F.slots new)
  ovf := by
    rw [F.ovfOf_append, flatMap_append]
    exact held.ovf.appendIf fun _ => rfl
  off := by
    have longer : (F.marksOf (recs ++ new)).flatMap F.off.encode =
        (F.marksOf recs).flatMap F.off.encode ++ (F.staged recs new).offBytes := by
      rw [F.marksOf_append, flatMap_append, offBytes_staged]
      rfl
    rw [longer]
    exact held.off.appendIf (offAt_staged F recs new)

theorem Holds.append (held : L.Holds F recs) (contiguous : F.Contiguous (recs ++ new)) :
    ∃ L', F.append L new = .ok L' ∧ L'.Holds F (recs ++ new) := by
  by_cases nothing : new = []
  · subst nothing
    exact ⟨L, by rw [LocCode.append, if_pos rfl], by rwa [append_nil]⟩
  · refine ⟨_, ?_, held.commitStaged contiguous⟩
    rw [LocCode.append, if_neg nothing, held.stage_eq contiguous, ok_bind, held.writeStaged_eq]
    rfl

theorem View.truncateToCount (view : L.View F all n m c) {k : Nat} (named : k ≤ c)
    (counted : c ≤ n) :
    ∃ L', F.truncateToCount L k = .ok L' ∧ L'.View F all k (min k m) k := by
  have fewer : L.ovfRows.filter (fun row => row.1 ≤ k) = F.ovfOf (all.take (min k m)) := by
    rw [view.ovfRows, F.filter_ovfOf]
  have kept : F.ovf.width * (L.ovfRows.filter fun row => row.1 ≤ k).length =
      ((F.ovfOf (all.take (min k m))).flatMap F.ovf.encode).length := by
    rw [fewer, length_flatMap F.ovf.length_encode]
  have marked : F.off.width * (k / locWindow) =
      ((F.marksOf (all.take k)).flatMap F.off.encode).length := by
    rw [length_flatMap F.off.length_encode, F.length_marksOf,
      length_take_of_le (by have := view.inside; omega)]
  have ovf := view.ovf.fit (F.ovf.width * (L.ovfRows.filter fun row => row.1 ≤ k).length)
  have off := view.off.fit (F.off.width * (k / locWindow))
  rw [LocCode.truncateToCount, view.count, if_neg (by omega)]
  by_cases same : k = n
  · subst same
    obtain rfl : c = k := by omega
    rw [if_pos rfl]
    exact ⟨_, rfl, view.contiguous, view.inside, view.count, fewer, view.checkpoints, view.loc,
      kept ▸ ovf, marked ▸ off⟩
  · rw [if_neg same]
    refine ⟨_, rfl, view.contiguous, by have := view.inside; omega, rfl, fewer, ?_,
      view.loc.setLogicalLen _, kept ▸ ovf, marked ▸ off⟩
    have inside : k ≤ (all.take c).length := by
      rw [length_take_of_le (by have := view.inside; omega)]
      exact named
    have marks := marks_take F.origin F.len locWindow inside
    rw [take_take, min_eq_left named] at marks
    rw [show (F.fitOffAndOvf L k).checkpoints = L.checkpoints from rfl, view.checkpoints]
    exact marks.symm

theorem Holds.truncateToCount (held : L.Holds F recs) {k : Nat} (inside : k ≤ recs.length) :
    ∃ L', F.truncateToCount L k = .ok L' ∧ L'.Holds F (recs.take k) := by
  obtain ⟨L', run, view⟩ := held.view.truncateToCount inside le_rfl
  rw [min_eq_left inside] at view
  exact ⟨L', run, view.holds⟩

end Locator

inductive LocOp (Rec : Type)
  | append (recs : List Rec)
  | truncate (count : Nat)

/-- What an operation does to the records. -/
def LocOp.apply (recs : List Rec) : LocOp Rec → List Rec
  | .append new => recs ++ new
  | .truncate count => recs.take count

def LocCode.step (C : LocCode Rec Row Pos) (L : Locator Row Pos) :
    LocOp Rec → Result (Locator Row Pos)
  | .append recs => C.append L recs
  | .truncate count => C.truncateToCount L count

/-- An append goes on where the records end; a truncation is to a number that there is. -/
def LocFormat.Admits (recs : List Rec) : LocOp Rec → Prop
  | .append new => F.Contiguous (recs ++ new)
  | .truncate count => count ≤ recs.length

theorem Locator.Holds.step {F : LocFormat Rec Row Pos} {L : Locator Row Pos} {recs : List Rec}
    (held : L.Holds F recs) {op : LocOp Rec} (admits : F.Admits recs op) :
    ∃ L', F.step L op = .ok L' ∧ L'.Holds F (LocOp.apply recs op) := by
  cases op with
  | append new => exact held.append admits
  | truncate count => exact held.truncateToCount admits

/-- A run of appends and truncations leaves the files that its records ask for. -/
theorem Locator.Holds.run {F : LocFormat Rec Row Pos} {L : Locator Row Pos} {recs : List Rec}
    (held : L.Holds F recs) {ops : List (LocOp Rec)}
    (admits : Run.AllMeet LocOp.apply F.Admits recs ops) :
    ∃ L', ops.foldlM F.step L = .ok L' ∧ L'.Holds F (ops.foldl LocOp.apply recs) := by
  induction ops generalizing L recs with
  | nil => exact ⟨L, rfl, held⟩
  | cons op ops ih =>
    obtain ⟨mid, one, held⟩ := held.step admits.1
    obtain ⟨L', rest, held⟩ := ih held admits.2
    exact ⟨L', by rw [foldlM_cons, one, ok_bind, rest], held⟩

end Rbitcoin.Store
