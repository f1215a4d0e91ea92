import Mathlib.Data.List.Flatten
import Rbitcoin.Script.Signature

/-! Base script codes. A walk over a script goes from instruction to instruction, and the push of a
signature that it finds is a whole instruction. So a walk filters the instructions, what it leaves
has the instructions that it kept, and deletions commute. -/

namespace Rbitcoin.Script

open Bytes Walk Outcome Option UInt8
open List hiding any_eq_true beq_eq_decide filter_filter

def findAndDelete (script data : Bytes) : Bytes :=
  (legacyScriptCodeNeedles script false [encodePush data]).1

def stripOpCodeseparator (script : Bytes) : Bytes := (legacyScriptCodeNeedles script true []).1

/-- The instructions of a script, each with its bytes. Of a push whose length is cut off a walk
keeps the opcode. -/
inductive Pieces : Bytes → List Bytes → Prop
  | done : Pieces [] []
  | cut {s : Bytes} (nonempty : s ≠ []) (cut : instructionEnd s 0 = none) : Pieces s [s.take 1]
  | next {s : Bytes} {e : Nat} {ps : List Bytes} (nonempty : s ≠ [])
      (ends : instructionEnd s 0 = some e) (rest : Pieces (s.drop e) ps) :
      Pieces s (s.take e :: ps)

variable {s t : Bytes} {e : Nat} {ps : List Bytes}

theorem pushHeader_drop {script : Bytes} {i : Nat} (inside : i ≤ script.length) :
    pushHeader script i = (pushHeader (script.drop i) 0).map fun (j, n) => (i + j, n) := by
  have byte : Bytes.byteAt (script.drop i) 0 = script.byteAt i := by
    simp [byteAt]
  have bytes (b : Nat) : Bytes.slice (script.drop i) 1 b = script.slice (i + 1) (i + b) := by
    rw [slice, slice, drop_drop, Nat.add_sub_add_left]
  have room (k : Nat) : k ≤ (script.drop i).length ↔ i + k ≤ script.length := by
    rw [length_drop]
    omega
  simp only [pushHeader, byte, bytes, room]
  split_ifs <;> rfl

theorem instructionEnd_drop {script : Bytes} {i : Nat} (inside : i < script.length) :
    instructionEnd script i = (instructionEnd (script.drop i) 0).map (i + ·) := by
  have some_byte : 0 < (script.drop i).length := by
    rw [length_drop]
    omega
  rw [instructionEnd_eq inside, instructionEnd_eq some_byte, pushHeader_drop inside.le]
  cases pushHeader (script.drop i) 0 with
  | none => rfl
  | some jn =>
    simp only [map_some, length_drop, some.injEq]
    omega

theorem pushHeader_append {j n : Nat} (header : pushHeader s 0 = some (j, n)) (fits : j ≤ s.length)
    (t : Bytes) : pushHeader (s.take j ++ t) 0 = some (j, n) := by
  have pos := (pushHeader_bounds header).1
  have byte : Bytes.byteAt (s.take j ++ t) 0 = s.byteAt 0 := by
    cases s with
    | nil => simp at fits; omega
    | cons b s =>
      obtain ⟨k, rfl⟩ : ∃ k, j = k + 1 := ⟨j - 1, by omega⟩
      rfl
  have bytes {b : Nat} (le : b ≤ j) : Bytes.slice (s.take j ++ t) 1 b = s.slice 1 b := by
    rw [slice, slice, drop_append_of_le_length (by rw [length_take]; omega),
      take_append_of_le_length (by rw [length_drop, length_take]; omega),
      drop_take, take_take, min_eq_left (by omega)]
  simp only [pushHeader] at header ⊢
  split_ifs at header with h1 h2 h3 h4 h5 h6 h7
  all_goals
    obtain ⟨rfl, rfl⟩ := header
    simp [*]

theorem instructionEnd_take (nonempty : s ≠ []) (ends : instructionEnd s 0 = some e) :
    0 < e ∧ e ≤ s.length ∧
      ∀ t, (e = s.length → t = []) → instructionEnd (s.take e ++ t) 0 = some e := by
  have pos := length_pos_iff.mpr nonempty
  rw [instructionEnd_eq pos] at ends
  obtain ⟨⟨j, n⟩, header, ends⟩ := map_eq_some_iff.mp ends
  obtain ⟨forward, inside⟩ := pushHeader_bounds header
  have fits := inside pos
  dsimp only at ends
  refine ⟨by omega, by omega, fun t last => ?_⟩
  by_cases short : s.length ≤ j + n
  · have whole : e = s.length := by omega
    rw [last whole, append_nil, whole, take_length, instructionEnd_eq pos, header]
    exact congrArg some (min_eq_right short)
  · have split : s.take e ++ t = s.take j ++ ((s.drop j).take (e - j) ++ t) := by
      rw [← append_assoc, ← take_add, Nat.add_sub_cancel' (by omega)]
    have length : (s.take e ++ t).length = e + t.length := by
      rw [length_append, length_take, min_eq_left (by omega)]
    rw [instructionEnd_eq (by omega), length, split, pushHeader_append header fits]
    simp only [map_some, some.injEq]
    omega

/-- A push length that is cut off stays so in front of nothing. -/
theorem instructionEnd_take_one (nonempty : s ≠ []) (cut : instructionEnd s 0 = none) :
    instructionEnd (s.take 1) 0 = none := by
  obtain ⟨op, rest, rfl⟩ := exists_cons_of_ne_nil nonempty
  rw [instructionEnd_eq (Nat.succ_pos _), map_eq_none_iff] at cut ⊢
  have byte : Bytes.byteAt (op :: rest) 0 = op := rfl
  have byte' : Bytes.byteAt ((op :: rest).take 1) 0 = op := rfl
  simp only [pushHeader, byte, byte'] at cut ⊢
  split_ifs at cut with low pd1 _ pd2 _ pd4
  · simp [pd1]
  · simp [pd2]
  · simp [pd4]

theorem Pieces.filter (pieces : Pieces s ps) (keep : Bytes → Bool) :
    Pieces (ps.filter keep).flatten (ps.filter keep) := by
  induction pieces with
  | done => exact .done
  | @cut s nonempty cut =>
    rw [filter_cons, filter_nil]
    split_ifs
    · rw [flatten_singleton]
      have again : Pieces (s.take 1) [(s.take 1).take 1] :=
        .cut (by simpa using nonempty) (instructionEnd_take_one nonempty cut)
      rwa [take_take] at again
    · exact .done
  | @next s e ps nonempty ends rest ih =>
    rw [filter_cons]
    split_ifs
    · obtain ⟨pos, inside, stays⟩ := instructionEnd_take nonempty ends
      have length : (s.take e).length = e := by rw [length_take, min_eq_left inside]
      have last (whole : e = s.length) : (ps.filter keep).flatten = [] := by
        rw [whole, drop_length] at rest
        cases rest with
        | done => rfl
        | cut nonempty => exact absurd rfl nonempty
        | next nonempty => exact absurd rfl nonempty
      have again := stays _ last
      have front : (s.take e ++ (ps.filter keep).flatten).take e = s.take e := by
        rw [take_append_of_le_length (by omega), take_take, min_self]
      have behind : (s.take e ++ (ps.filter keep).flatten).drop e = (ps.filter keep).flatten := by
        rw [drop_append_of_le_length (by omega), drop_eq_nil_of_le (by omega), nil_append]
      have whole : s.take e ++ (ps.filter keep).flatten ≠ [] := by
        apply ne_nil_of_length_pos
        rw [length_append]
        omega
      have pieces := Pieces.next whole again (behind.symm ▸ ih)
      rwa [front] at pieces
    · exact ih

theorem exists_pieces (s : Bytes) : ∃ ps, Pieces s ps := by
  induction size : s.length using Nat.strong_induction_on generalizing s with
  | _ n ih =>
    by_cases empty : s = []
    · exact ⟨[], empty ▸ .done⟩
    · cases ends : instructionEnd s 0 with
      | none => exact ⟨_, .cut empty ends⟩
      | some e =>
        obtain ⟨pos, inside, -⟩ := instructionEnd_take empty ends
        obtain ⟨ps, rest⟩ := ih (s.drop e).length (by rw [length_drop]; omega) (s.drop e) rfl
        exact ⟨_, .next empty ends rest⟩

variable {data : Bytes}

theorem pushHeader_encodePush (short : data.length ≤ maxScriptElementSize) (t : Bytes) :
    ∃ j, pushHeader (encodePush data ++ t) 0 = some (j, data.length) ∧
      j + data.length = (encodePush data).length := by
  unfold maxScriptElementSize at short
  have small : (ofNat data.length).toNat = data.length % 256 := toNat_ofNat'
  unfold encodePush
  dsimp only
  split_ifs with h1 h2 h3
  · have h1 : data.length < 76 := h1
    refine ⟨1, ?_, by simp [add_comm]⟩
    have low : ofNat data.length ≤ opPushbytes75 := by
      rw [le_iff_toNat_le]
      simp only [opPushbytes75, reduceToNat]
      omega
    simp only [pushHeader, cons_append, byteAt, getD_cons_zero]
    rw [if_pos low, small, Nat.mod_eq_of_lt (by omega)]
  · refine ⟨2, ?_, by simp; omega⟩
    have length : ofLe [ofNat data.length] = data.length := by
      rw [ofLe, ofLe]
      omega
    simp [pushHeader, byteAt, slice, length]
  · refine ⟨3, ?_, by simp; omega⟩
    have length : ofLe (toLe 2 data.length) = data.length := ofLe_toLe_of_lt (by omega)
    simp [pushHeader, byteAt, slice, length]
  · omega

theorem instructionEnd_encodePush (short : data.length ≤ maxScriptElementSize)
    (t : Bytes) : instructionEnd (encodePush data ++ t) 0 = some (encodePush data).length := by
  obtain ⟨j, header, length⟩ := pushHeader_encodePush short t
  have forward := (pushHeader_bounds header).1
  have whole : (encodePush data ++ t).length = (encodePush data).length + t.length :=
    length_append
  rw [instructionEnd_eq (by omega), header]
  simp [length]

/-- The first instruction, or the opcode of a push whose length is cut off. -/
def firstPiece (s : Bytes) : Bytes := s.take ((instructionEnd s 0).getD 1)

theorem isPrefixOf_iff_firstPiece (short : data.length ≤ maxScriptElementSize)
    (s : Bytes) : (encodePush data).isPrefixOf s = true ↔ firstPiece s = encodePush data := by
  rw [ isPrefixOf_iff_prefix]
  constructor
  · rintro ⟨t, rfl⟩
    rw [firstPiece, instructionEnd_encodePush short, getD_some, take_left]
  · intro same
    rw [← same]
    exact take_prefix ..

theorem encodePush_ne_nil (data : Bytes) : encodePush data ≠ [] := by
  unfold encodePush
  dsimp only
  split_ifs <;> simp

/-- The instruction at the front is the separator. -/
theorem firstPiece_eq_codeseparator (nonempty : s ≠ []) :
    s.byteAt 0 = opCodeseparator ↔ firstPiece s = [opCodeseparator] := by
  obtain ⟨op, rest, rfl⟩ := exists_cons_of_ne_nil nonempty
  constructor
  · rintro rfl
    rfl
  · intro same
    unfold firstPiece at same
    generalize (instructionEnd (op :: rest) 0).getD 1 = k at same
    cases k with
    | zero => cases same
    | succ k => exact (cons.inj same).1

section Walk

variable {sigs : List Bytes} (short : ∀ sig ∈ sigs, sig.length ≤ maxScriptElementSize)
  (dropSep : Bool) {script : Bytes} {i : Nat} {out : Option Bytes} {deleted : Bool}
include short

def Kept (dropSep : Bool) (sigs : List Bytes) (p : Bytes) : Bool :=
  decide (p ∉ sigs.map encodePush) && !(dropSep && p == [opCodeseparator])

theorem find_needle (s : Bytes) :
    (sigs.map encodePush).find? (fun needle => !needle.isEmpty && needle.isPrefixOf s) =
      if firstPiece s ∈ sigs.map encodePush then some (firstPiece s) else none := by
  have matches_iff {sig : Bytes} (mem : sig ∈ sigs) :
      (!(encodePush sig).isEmpty && (encodePush sig).isPrefixOf s) = true ↔
        firstPiece s = encodePush sig := by
    rw [← isPrefixOf_iff_firstPiece (short sig mem)]
    simp [encodePush_ne_nil]
  cases found : (sigs.map encodePush).find? (fun needle =>
      !needle.isEmpty && needle.isPrefixOf s) with
  | none =>
    rw [if_neg]
    intro in_needles
    obtain ⟨sig, mem, same⟩ := mem_map.mp in_needles
    have missed := find?_eq_none.mp found _ (mem_map_of_mem mem)
    exact missed ((matches_iff mem).mpr same.symm)
  | some needle =>
    have in_needles := mem_of_find?_eq_some found
    obtain ⟨sig, mem, rfl⟩ := mem_map.mp in_needles
    have hit := find?_some found
    have same := (matches_iff mem).mp hit
    rw [same, if_pos in_needles]

/-- At a push whose length is cut off the walk stops with the opcode. -/
theorem codeTurn_cut (more : i < script.length) (cut : instructionEnd (script.drop i) 0 = none)
    (out : Option Bytes) (deleted : Bool) :
    (script.drop i).take 1 ∉ sigs.map encodePush ∧
      Kept dropSep sigs ((script.drop i).take 1) = true ∧
      ∃ out', codeTurn script dropSep (sigs.map encodePush) ⟨out, deleted, i⟩ =
          .stop (out', deleted) ∧
        out'.getD script = out.getD (script.take i) ++ (script.drop i).take 1 := by
  have nonempty : script.drop i ≠ [] := by simpa using more
  have first : firstPiece (script.drop i) = (script.drop i).take 1 := by
    rw [firstPiece, cut, getD_none]
  have no_needle : (script.drop i).take 1 ∉ sigs.map encodePush := by
    intro in_needles
    obtain ⟨sig, mem, same⟩ := mem_map.mp in_needles
    have found := (isPrefixOf_iff_firstPiece (short sig mem) _).mpr (first.trans same.symm)
    obtain ⟨t, front⟩ := isPrefixOf_iff_prefix.mp found
    rw [← front, instructionEnd_encodePush (short sig mem)] at cut
    cases cut
  have no_separator : (script.drop i).take 1 ≠ [opCodeseparator] := by
    intro same
    obtain ⟨op, rest, split⟩ := exists_cons_of_ne_nil nonempty
    rw [split] at same cut
    obtain rfl : op = opCodeseparator := (cons.inj same).1
    cases cut
  have ends : instructionEnd script i = none := by
    rw [instructionEnd_drop more, cut]
    rfl
  have byte : (script.drop i).take 1 = [script.byteAt i] := by
    rw [← slice_one script more, Bytes.slice, Nat.add_sub_cancel_left]
  have grown : script.take (i + 1) = script.take i ++ [script.byteAt i] := by
    rw [take_add, byte]
  refine ⟨no_needle, by simp [Kept, no_needle, no_separator], ?_⟩
  simp only [codeTurn, more, if_true, find_needle short, first, no_needle, if_false, ends]
  rw [byte]
  cases out with
  | some buf => exact ⟨_, rfl, rfl⟩
  | none =>
    split_ifs with after
    · exact ⟨_, rfl, grown⟩
    · refine ⟨_, rfl, ?_⟩
      rw [getD_none, getD_none, ← grown, take_of_length_le (by omega)]

/-- At an instruction the walk goes on behind it, with the instruction if that is kept. -/
theorem codeTurn_next (more : i < script.length) (ends : instructionEnd (script.drop i) 0 = some e)
    (out : Option Bytes) (deleted : Bool) :
    ∃ out', codeTurn script dropSep (sigs.map encodePush) ⟨out, deleted, i⟩ =
        .next ⟨out', deleted || decide ((script.drop i).take e ∈ sigs.map encodePush), i + e⟩ ∧
      out'.getD (script.take (i + e)) = out.getD (script.take i) ++
        if Kept dropSep sigs ((script.drop i).take e) then (script.drop i).take e else [] := by
  have nonempty : script.drop i ≠ [] := by simpa using more
  obtain ⟨-, fits, -⟩ := instructionEnd_take nonempty ends
  have first : firstPiece (script.drop i) = (script.drop i).take e := by
    rw [firstPiece, ends, getD_some]
  have length : ((script.drop i).take e).length = e := by
    rw [length_take, min_eq_left fits]
  have ends' : instructionEnd script i = some (i + e) := by
    rw [instructionEnd_drop more, ends]
    rfl
  have separator : script.byteAt i = opCodeseparator ↔
      (script.drop i).take e = [opCodeseparator] := by
    rw [← first, ← firstPiece_eq_codeseparator nonempty]
    simp [byteAt]
  by_cases needle : (script.drop i).take e ∈ sigs.map encodePush
  · refine ⟨some (out.getD (script.take i)), ?_, by simp [Kept, needle]⟩
    simp [codeTurn, more, find_needle short, first, needle, length]
  rw [decide_eq_false needle, Bool.or_false]
  by_cases sep : dropSep ∧ script.byteAt i = opCodeseparator
  · refine ⟨some (out.getD (script.take i)), ?_, by simp [Kept, sep.1, separator.mp sep.2]⟩
    simp [codeTurn, more, find_needle short, first, needle, ends', sep]
  · refine ⟨out.map (· ++ (script.drop i).take e), ?_, ?_⟩
    · simp [codeTurn, more, find_needle short, first, needle, ends', sep, Bytes.slice]
    · have stays : Kept dropSep sigs ((script.drop i).take e) = true := by
        rw [separator, not_and_or] at sep
        simp only [Kept, needle]
        simpa using sep
      rw [if_pos stays]
      cases out with
      | some buf => rfl
      | none => rw [map_none, getD_none, getD_none, take_add]

/-- The walk over the rest of a script appends what is kept of it to what it has so far. -/
theorem code_run {fuel : Nat} (pieces : Pieces s ps) (rest : script.drop i = s)
    (inside : i ≤ script.length) (enough : script.length - i < fuel) :
    ∃ out', run (codeTurn script dropSep (sigs.map encodePush)) fuel ⟨out, deleted, i⟩ =
        some (out', deleted || ps.any (· ∈ sigs.map encodePush)) ∧
      out'.getD script = out.getD (script.take i) ++ (ps.filter (Kept dropSep sigs)).flatten := by
  obtain ⟨fuel, rfl⟩ : ∃ k, fuel = k + 1 := ⟨fuel - 1, by omega⟩
  induction pieces generalizing fuel i out deleted with
  | done =>
    have past : script.length ≤ i := drop_eq_nil_iff.mp rest
    refine ⟨out, run_stop ?_ fuel, ?_⟩
    · rw [codeTurn, if_neg (not_lt.mpr past), any_nil, Bool.or_false]
    · rw [take_of_length_le past, filter_nil, flatten_nil, append_nil]
  | cut nonempty cut =>
    subst rest
    obtain ⟨no_needle, kept, out', stops, bytes⟩ :=
      codeTurn_cut short dropSep (by simpa using nonempty) cut out deleted
    refine ⟨out', ?_, ?_⟩
    · rw [run_stop stops, any_cons, decide_eq_false no_needle, any_nil, Bool.or_false,
        Bool.or_false]
    · rw [bytes, filter_cons, if_pos kept, filter_nil, flatten_singleton]
  | @next s e ps nonempty ends _ ih =>
    subst rest
    obtain ⟨pos, fits, -⟩ := instructionEnd_take nonempty ends
    rw [length_drop] at fits
    obtain ⟨out₁, turn, grown⟩ :=
      codeTurn_next short dropSep (by simpa using nonempty) ends out deleted
    obtain ⟨fuel, rfl⟩ : ∃ k, fuel = k + 1 := ⟨fuel - 1, by omega⟩
    obtain ⟨out', ran, kept⟩ :=
      @ih (i + e) out₁ _ (by rw [drop_drop]) (by omega) fuel (by omega)
    refine ⟨out', ?_, ?_⟩
    · rw [run_next turn, ran, any_cons, Bool.or_assoc]
    · rw [kept, grown, filter_cons]
      split <;> simp

theorem legacyScriptCodeNeedles_eq (pieces : Pieces s ps) :
    legacyScriptCodeNeedles s dropSep (sigs.map encodePush) =
      ((ps.filter (Kept dropSep sigs)).flatten, ps.any (· ∈ sigs.map encodePush)) := by
  obtain ⟨out, ran, kept⟩ := @code_run s ps sigs short dropSep s 0 none false (s.length + 1) pieces
    rfl (Nat.zero_le _) (by omega)
  rw [legacyScriptCodeNeedles, ran]
  dsimp only
  rw [kept, Bool.false_or, take_zero, getD_none, nil_append]

theorem legacyScriptCode_eq (pieces : Pieces s ps) : legacyScriptCode s sigs =
      .ok ((ps.filter (Kept true sigs)).flatten, ps.any (· ∈ sigs.map encodePush)) := by
  have pushes (sig : Bytes) (mem : sig ∈ sigs) :
      (do let raw ← scriptElem sig; return encodePush raw : Result Bytes) =
        .ok (encodePush sig) := by
    rw [scriptElem, rejectIf_neg (not_lt.mpr (short sig mem))]
    rfl
  rw [legacyScriptCode, mapM_ok pushes, ok_bind, legacyScriptCodeNeedles_eq short true pieces]
  rfl

end Walk

/-- The script as a walk with nothing to drop leaves it: without the bytes after an opcode whose
push length is cut off. -/
def cutTail (script : Bytes) : Bytes := (legacyScriptCodeNeedles script false []).1

theorem cutTail_eq (pieces : Pieces s ps) : cutTail s = ps.flatten := by
  have all : ps.filter (Kept false []) = ps := filter_eq_self.mpr fun p _ => rfl
  have walk := legacyScriptCodeNeedles_eq (forall_mem_nil _) false pieces
  rw [map_nil, all] at walk
  rw [cutTail, walk]

theorem stripOpCodeseparator_eq (pieces : Pieces s ps) :
    stripOpCodeseparator s = (ps.filter (· ≠ [opCodeseparator])).flatten := by
  have others : Kept true [] = fun p => decide (p ≠ [opCodeseparator]) := by
    funext p
    simp [Kept, beq_eq_decide]
  have walk := legacyScriptCodeNeedles_eq (forall_mem_nil _) true pieces
  rw [map_nil, others] at walk
  rw [stripOpCodeseparator, walk]

section Deletions

variable {sig : Bytes} (short : sig.length ≤ maxScriptElementSize)
include short

theorem findAndDelete_eq (pieces : Pieces s ps) :
    findAndDelete s sig = (ps.filter (· ≠ encodePush sig)).flatten := by
  have others : Kept false [sig] = fun p => decide (p ≠ encodePush sig) := by
    funext p
    simp [Kept]
  have walk := legacyScriptCodeNeedles_eq (forall_mem_singleton.mpr short) false pieces
  rw [map_singleton, others] at walk
  rw [findAndDelete, walk]

theorem findAndDelete_pieces (pieces : Pieces s ps) :
    Pieces (findAndDelete s sig) (ps.filter (· ≠ encodePush sig)) := by
  rw [findAndDelete_eq short pieces]
  exact pieces.filter _

/-- A deletion does more than cut the tail when the push is one of the instructions. -/
theorem findAndDelete_ne_iff (pieces : Pieces s ps) :
    findAndDelete s sig ≠ cutTail s ↔ encodePush sig ∈ ps := by
  rw [findAndDelete_eq short pieces, cutTail_eq pieces, not_iff_comm]
  constructor
  · intro absent
    congr 1
    rw [filter_eq_self]
    intro p mem
    exact decide_eq_true fun same => absent (same ▸ mem)
  · -- the pieces are not empty, so a dropped one is missed in the bytes
    intro same mem
    obtain ⟨before, after, rfl⟩ := append_of_mem mem
    have fewer (ps : List Bytes) :
        (ps.filter (· ≠ encodePush sig)).flatten.length ≤ ps.flatten.length :=
      filter_sublist.flatten.length_le
    have left := fewer before
    have right := fewer after
    have push := length_pos_of_ne_nil (encodePush_ne_nil sig)
    have lengths := congrArg length same
    rw [filter_append, filter_cons_of_neg (by simp)] at lengths
    simp only [flatten_append, flatten_cons, length_append] at lengths
    omega

end Deletions

theorem deletions_pieces {order : List Bytes}
    (short : ∀ sig ∈ order, sig.length ≤ maxScriptElementSize) (pieces : Pieces s ps) :
    Pieces (order.foldl findAndDelete s) (ps.filter (· ∉ order.map encodePush)) := by
  induction order generalizing s ps with
  | nil => simpa using pieces
  | cons sig order ih =>
    obtain ⟨first, later⟩ := forall_mem_cons.mp short
    have rest := ih later (findAndDelete_pieces first pieces)
    rw [List.filter_filter] at rest
    have both : (fun p => decide (p ∉ (sig :: order).map encodePush)) = fun p =>
        decide (p ∉ order.map encodePush) && decide (p ≠ encodePush sig) := by
      simp [Bool.and_comm]
    rwa [both]

/-- One walk deletes the pushes of the signatures as one deletion after the other does, in any
order, and then drops the separators. It reports a deletion when one of those did more than cut the
tail. -/
theorem legacyScriptCode_eq_deletions (script : Bytes) {sigs order : List Bytes}
    (short : ∀ sig ∈ sigs, sig.length ≤ maxScriptElementSize) (perm : order.Perm sigs) :
    ∃ deleted, legacyScriptCode script sigs =
        .ok (stripOpCodeseparator (order.foldl findAndDelete script), deleted) ∧
      (deleted = true ↔ ∃ before sig after, order = before ++ sig :: after ∧
        findAndDelete (before.foldl findAndDelete script) sig ≠
          cutTail (before.foldl findAndDelete script)) := by
  obtain ⟨ps, pieces⟩ := exists_pieces script
  have short' : ∀ sig ∈ order, sig.length ≤ maxScriptElementSize :=
    fun sig mem => short sig (perm.subset mem)
  have same_pushes (p : Bytes) : p ∈ order.map encodePush ↔ p ∈ sigs.map encodePush :=
    (perm.map encodePush).mem_iff
  refine ⟨ps.any (· ∈ sigs.map encodePush), ?_, ?_⟩
  · have filters : (fun p => decide (p ≠ [opCodeseparator]) && decide (p ∉ order.map encodePush)) =
        Kept true sigs := by
      funext p
      simp [Kept, same_pushes, Bool.and_comm, beq_eq_decide]
    rw [legacyScriptCode_eq short pieces,
      stripOpCodeseparator_eq (deletions_pieces short' pieces), List.filter_filter, filters]
  · have deletes {before after : List Bytes} {sig : Bytes}
        (split : order = before ++ sig :: after) :
        findAndDelete (before.foldl findAndDelete script) sig ≠
            cutTail (before.foldl findAndDelete script) ↔
          encodePush sig ∈ ps ∧ encodePush sig ∉ before.map encodePush := by
      have earlier := @deletions_pieces script ps before
        (fun sig mem => short' sig (by simp [split, mem])) pieces
      rw [findAndDelete_ne_iff (short' sig (by simp [split])) earlier, mem_filter,
        decide_eq_true_iff]
    rw [List.any_eq_true]
    constructor
    · rintro ⟨p, mem, push⟩
      have in_order := (same_pushes p).mpr (of_decide_eq_true push)
      -- the first signature with this push is the one whose deletion drops it
      obtain ⟨pushes, pushes', split, first⟩ := eq_append_cons_of_mem in_order
      obtain ⟨before, rest, whole, rfl, tail⟩ := map_eq_append_iff.mp split
      obtain ⟨sig, after, rfl, rfl, -⟩ := map_eq_cons_iff.mp tail
      exact ⟨before, sig, after, whole, (deletes whole).mpr ⟨mem, first⟩⟩
    · rintro ⟨before, sig, after, split, changed⟩
      refine ⟨encodePush sig, ((deletes split).mp changed).1, decide_eq_true ?_⟩
      rw [← same_pushes]
      exact mem_map_of_mem (by simp [split])

theorem legacyScriptCode_two_signatures : ∃ deleted,
      legacyScriptCode [1, 7, 0xab, 1, 9, 0x51] [[7], [9]] =
        .ok (stripOpCodeseparator ([[9], [7]].foldl findAndDelete [1, 7, 0xab, 1, 9, 0x51]),
          deleted) ∧
      (deleted = true ↔ ∃ before sig after, [[9], [7]] = before ++ sig :: after ∧
        findAndDelete (before.foldl findAndDelete [1, 7, 0xab, 1, 9, 0x51]) sig ≠
          cutTail (before.foldl findAndDelete [1, 7, 0xab, 1, 9, 0x51])) :=
  legacyScriptCode_eq_deletions _ (by decide) (by decide)

/-- A push length cut off at the end: the deletion leaves the opcode alone, and no signature was
dropped. -/
theorem cut_length_not_reported : legacyScriptCode [0x4d, 5] [[1]] = .ok ([0x4d], false) ∧
      findAndDelete [0x4d, 5] [1] ≠ [0x4d, 5] := by
  decide

end Rbitcoin.Script
