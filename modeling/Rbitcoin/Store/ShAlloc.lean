import Rbitcoin.Lib.Memory
import Rbitcoin.Lib.Run
import Rbitcoin.Store.Layout

/-! The allocator of the script-hash bodies. Blocks come in classes of doubling size, from the
freelist of the class or from the end of the body; freed blocks are linked through their first eight
bytes. Pages start at multiples of 4 KiB, and the gap that this leaves goes to the freelists of
smaller classes. -/

namespace Rbitcoin.Store.ShAlloc

open Bytes List Function

/-- The body of a table: its bytes, and the length that reads go by. -/
structure Body where
  mem : Memory
  len : Nat

variable (body : Body)

def Body.readAt (off n : Nat) : Result Bytes :=
  if body.len < off + n then corrupt "pread past logical end" else .ok (body.mem.read off n)

def Body.writeAt (off : Nat) (b : Bytes) : Body :=
  if b = [] then body else ⟨body.mem.write off b, max body.len (off + b.length)⟩

/-- `set_logical_len` to a length that is not shorter. -/
def Body.extend (len : Nat) : Body :=
  if body.len < len then { body with len := len } else body

def shMaxClass : Nat := 24

def shMaxSlabClass : Nat := 7

def shPageSlabClass : Nat := 8

def shPageSize : Nat := 4096

/-- The first byte after the headers. -/
def payloadStart : Nat := 4096

def slabBytes (cls : Nat) : Nat := 16 * 2 ^ cls

/-- The header of the allocator. -/
structure AllocState where
  liveCount : Nat
  bump : Nat
  /-- The first free block of each class, or zero. -/
  freeHead : Nat → Nat

/-- The largest of the classes below pages that fits. -/
def largestRelocClassLe (bytes : Nat) : Option Nat :=
  (List.range (shMaxSlabClass + 1)).reverse.find? fun cls => slabBytes cls ≤ bytes

abbrev FreeHeads := Nat → Nat

def pushFreeHead (freeHead : FreeHeads) (cls off : Nat) : Result (Body × FreeHeads) :=
  if shMaxClass + 1 ≤ cls then corrupt "scripthash free class overflow"
  else .ok (body.writeAt off (toLe 8 (freeHead cls)), update freeHead cls off)

def popFreeHead (freeHead : FreeHeads) (cls : Nat) : Result (Option Nat × FreeHeads) :=
  if shMaxClass + 1 ≤ cls ∨ freeHead cls = 0 then .ok (none, freeHead)
  else do
    let next ← body.readAt (freeHead cls) 8
    return (some (freeHead cls), update freeHead cls (ofLe next))

theorem slabBytes_pos (cls : Nat) : 0 < slabBytes cls := by
  rw [slabBytes]
  positivity

def carveGapIntoFreelist (body : Body) (freeHead : FreeHeads) (off upTo : Nat) :
    Result (Body × FreeHeads) :=
  if off < upTo then
    match largestRelocClassLe (upTo - off) with
    | none => .ok (body, freeHead)
    | some cls =>
      match pushFreeHead body freeHead cls off with
      | .error e => .error e
      | .ok (body, freeHead) => carveGapIntoFreelist body freeHead (off + slabBytes cls) upTo
  else .ok (body, freeHead)
termination_by upTo - off
decreasing_by
  have := slabBytes_pos cls
  omega

def alignPage (off : Nat) : Nat := (off + 4095) / 4096 * 4096

variable (alloc : AllocState)

def alignBump : Result (Body × AllocState) :=
  if alignPage alloc.bump ≠ alloc.bump then do
    let (body, freeHead) ← carveGapIntoFreelist body alloc.freeHead alloc.bump
      (alignPage alloc.bump)
    return (body, { alloc with freeHead := freeHead, bump := alignPage alloc.bump })
  else .ok (body, alloc)

def alignFor (cls : Nat) : Result (Body × AllocState) :=
  if shPageSlabClass ≤ cls then alignBump body alloc else .ok (body, alloc)

/-- The bump goes up by a size, and the body is as long. -/
def takeBump (need : Nat) : Nat × Body × AllocState :=
  (alloc.bump, body.extend (alloc.bump + need), { alloc with bump := alloc.bump + need })

def allocExtent (nPages : Nat) : Result (Nat × Body × AllocState) :=
  if nPages = 0 then corrupt "scripthash empty extent"
  else do
    let (body, alloc) ← alignBump body alloc
    return takeBump body alloc (nPages * shPageSize)

def allocSlab (cls : Nat) : Result (Nat × Body × AllocState) :=
  if shMaxClass < cls then corrupt "scripthash page class overflow"
  else do
    let (popped, freeHead) ← popFreeHead body alloc.freeHead cls
    match popped with
    | some off => return (off, body, { alloc with freeHead := freeHead })
    | none =>
      let (body, alloc) ← alignFor body alloc cls
      return takeBump body alloc (slabBytes cls)

def freeSlab (cls off : Nat) : Result (Body × AllocState) := do
  let (body, freeHead) ← pushFreeHead body alloc.freeHead cls off
  return (body, { alloc with freeHead := freeHead })

/-- A block of a class at an offset. -/
structure Block where
  cls : Nat
  off : Nat
  deriving DecidableEq, Repr

namespace Block

def last (b : Block) : Nat := b.off + slabBytes b.cls

def Apart (a b : Block) : Prop := a.last ≤ b.off ∨ b.last ≤ a.off

theorem Apart.symm {a b : Block} (apart : a.Apart b) : b.Apart a := Or.symm apart

/-- A block between the headers and the bump, at a multiple of sixteen, or of 4 KiB from the page
class on. -/
structure Placed (bump : Nat) (b : Block) : Prop where
  known : b.cls ≤ shMaxClass
  after : payloadStart ≤ b.off
  inside : b.last ≤ bump
  sixteen : b.off % 16 = 0
  page : shPageSlabClass ≤ b.cls → b.off % shPageSize = 0

end Block

theorem sixteen_le_slabBytes (cls : Nat) : 16 ≤ slabBytes cls := by
  have := Nat.one_le_two_pow (n := cls)
  rw [slabBytes]
  omega

theorem slabBytes_mod (cls : Nat) : slabBytes cls % 16 = 0 := Nat.mul_mod_right 16 _

/-- The offsets are linked, from the head on: each block starts with the next one, and zero ends the
list. -/
def Linked (mem : Memory) : Nat → List Nat → Prop
  | head, [] => head = 0
  | head, off :: offs => head = off ∧ off ≠ 0 ∧ Linked mem (ofLe (mem.read off 8)) offs

theorem Linked.congr {mem mem' : Memory} {head : Nat} {offs : List Nat}
    (linked : Linked mem head offs) (same : ∀ off ∈ offs, mem'.read off 8 = mem.read off 8) :
    Linked mem' head offs := by
  induction offs generalizing head with
  | nil => exact linked
  | cons off offs ih =>
    refine ⟨linked.1, linked.2.1, ?_⟩
    rw [same off mem_cons_self]
    exact ih linked.2.2 (forall_mem_cons.mp same).2

def ofClass (free : List Block) (cls : Nat) : List Nat :=
  (free.filter fun b => b.cls = cls).map Block.off

theorem mem_ofClass {free : List Block} {cls off : Nat} :
    off ∈ ofClass free cls ↔ ⟨cls, off⟩ ∈ free := by
  rw [ofClass, mem_map]
  constructor
  · rintro ⟨b, mem, rfl⟩
    rw [mem_filter, decide_eq_true_eq] at mem
    rw [← mem.2]
    exact mem.1
  · exact fun mem => ⟨_, mem_filter.mpr ⟨mem, by simp⟩, rfl⟩

/-- What the freelists hold, beside other blocks: all of them apart, in place, and each list linked
through its blocks. -/
structure Free (body : Body) (freeHead : FreeHeads) (bump : Nat) (others free : List Block) :
    Prop where
  linked : ∀ cls ≤ shMaxClass, Linked body.mem (freeHead cls) (ofClass free cls)
  apart : (others ++ free).Pairwise Block.Apart
  placed : ∀ b ∈ others ++ free, b.Placed bump
  readable : ∀ b ∈ free, b.off + 8 ≤ body.len
  sixteen : bump % 16 = 0
  start : payloadStart ≤ bump
  small : bump < 2 ^ 64

variable {b : Block}

theorem Block.Placed.mono {bump bump' : Nat} (placed : b.Placed bump)
    (le : bump ≤ bump') : b.Placed bump' :=
  { placed with inside := placed.inside.trans le }

theorem Block.Placed.lt {bump : Nat} (placed : b.Placed bump) : b.off + 16 ≤ bump := by
  have size := sixteen_le_slabBytes b.cls
  have inside : b.off + slabBytes b.cls ≤ bump := placed.inside
  omega

namespace Free

variable {body : Body} {freeHead : FreeHeads} {bump : Nat} {others free : List Block}

section

variable (h : Free body freeHead bump others free)
include h

theorem freeHead_lt {cls : Nat} (known : cls ≤ shMaxClass) : freeHead cls < 2 ^ 64 := by
  have linked := h.linked cls known
  have small := h.small
  cases offs : ofClass free cls with
  | nil =>
    rw [offs] at linked
    rw [show freeHead cls = 0 from linked]
    decide
  | cons off rest =>
    rw [offs] at linked
    have mem : ⟨cls, off⟩ ∈ free := mem_ofClass.mp (offs ▸ mem_cons_self)
    have inside : off + 16 ≤ bump := (h.placed _ (mem_append_right _ mem)).lt
    rw [linked.1]
    omega

theorem push {bump' : Nat} (le : bump ≤ bump') (sixteen : bump' % 16 = 0) (small : bump' < 2 ^ 64)
    (placed : b.Placed bump') (apart : ∀ c ∈ others ++ free, b.Apart c) :
    Free (body.writeAt b.off (toLe 8 (freeHead b.cls))) (update freeHead b.cls b.off) bump'
      others (b :: free) := by
  have written : body.writeAt b.off (toLe 8 (freeHead b.cls)) =
      ⟨body.mem.write b.off (toLe 8 (freeHead b.cls)), max body.len (b.off + 8)⟩ := by
    rw [Body.writeAt, if_neg (ne_nil_of_length_pos (by simp)), toLe_length]
  have kept : ∀ cls, ∀ off ∈ ofClass free cls,
      (body.mem.write b.off (toLe 8 (freeHead b.cls))).read off 8 = body.mem.read off 8 := by
    intro cls off mem
    refine Memory.read_write_apart _ ?_
    rw [toLe_length]
    have beside := apart _ (mem_append_right _ (mem_ofClass.mp mem))
    have mine := sixteen_le_slabBytes b.cls
    have other := sixteen_le_slabBytes cls
    simp only [Block.Apart, Block.last] at beside
    omega
  rw [written]
  refine ⟨fun cls known => ?_, ?_, ?_, ?_, sixteen, h.start.trans le, small⟩
  · by_cases same : cls = b.cls
    · have next : ofLe ((body.mem.write b.off (toLe 8 (freeHead b.cls))).read b.off 8) =
          freeHead b.cls := by
        have back := body.mem.read_write_same b.off (toLe 8 (freeHead b.cls))
        rw [toLe_length] at back
        rw [back, ofLe_toLe_of_lt]
        exact (h.freeHead_lt placed.known).trans_le (by norm_num)
      have front : ofClass (b :: free) cls = b.off :: ofClass free cls := by
        rw [ofClass, filter_cons_of_pos (by simp [same])]
        rfl
      rw [front, same, update_self]
      refine ⟨rfl, ?_, ?_⟩
      · have after : 4096 ≤ b.off := placed.after
        omega
      · rw [next]
        exact (h.linked _ placed.known).congr (kept _)
    · have other : ofClass (b :: free) cls = ofClass free cls := by
        rw [ofClass, filter_cons_of_neg (by simpa using Ne.symm same)]
        rfl
      rw [other, update_of_ne same]
      exact (h.linked cls known).congr (kept cls)
  · refine (Perm.pairwise_iff Block.Apart.symm perm_middle).mpr ?_
    exact pairwise_cons.mpr ⟨apart, h.apart⟩
  · intro c mem
    rcases mem_cons.mp (perm_middle.mem_iff.mp mem) with rfl | mem
    · exact placed
    · exact (h.placed c mem).mono le
  · exact forall_mem_cons.mpr
      ⟨le_max_right .., fun c mem => (h.readable c mem).trans (le_max_left ..)⟩

theorem pop {cls : Nat} (known : cls ≤ shMaxClass) (some_free : freeHead cls ≠ 0) :
    ∃ freeHead' free', popFreeHead body freeHead cls = .ok (some (freeHead cls), freeHead') ∧
      Free body freeHead' bump (⟨cls, freeHead cls⟩ :: others) free' := by
  have linked := h.linked cls known
  cases offs : ofClass free cls with
  | nil =>
    rw [offs] at linked
    exact absurd linked some_free
  | cons off rest =>
    rw [offs] at linked
    obtain ⟨rfl, -, next⟩ := linked
    have blocks := offs
    rw [ofClass, map_eq_cons_iff] at blocks
    obtain ⟨b, tail, filtered, at_head, rest_eq⟩ := blocks
    obtain ⟨front, back, rfl, skipped, is_class, filtered_back⟩ := filter_eq_cons_iff.mp filtered
    rw [decide_eq_true_eq] at is_class
    have block : b = ⟨cls, freeHead cls⟩ := by
      rw [← is_class, is_class, ← at_head, ← is_class]
    have mem : b ∈ front ++ b :: back := mem_append_right _ mem_cons_self
    have readable : freeHead cls + 8 ≤ body.len := by
      have := h.readable b mem
      rwa [block] at this
    have moved : (others ++ (front ++ b :: back)).Perm ((b :: others) ++ (front ++ back)) :=
      (perm_middle.append_left others).trans perm_middle
    refine ⟨update freeHead cls (ofLe (body.mem.read (freeHead cls) 8)), front ++ back,
      ?_, ?_, ?_, ?_, ?_, h.sixteen, h.start, h.small⟩
    · rw [popFreeHead, if_neg (by rw [not_or]; exact ⟨by omega, some_free⟩), Body.readAt,
        if_neg (by omega)]
      rfl
    · intro cls' known'
      by_cases same : cls' = cls
      · have left : ofClass (front ++ back) cls = rest := by
          rw [ofClass, filter_append, filter_eq_nil_iff.mpr (by simpa using skipped),
            nil_append, filtered_back, rest_eq]
        rw [same, update_self, left]
        exact next
      · have other : ofClass (front ++ back) cls' = ofClass (front ++ b :: back) cls' := by
          rw [ofClass, ofClass, filter_append, filter_append,
            filter_cons_of_neg (by simpa [is_class] using Ne.symm same)]
        rw [update_of_ne same, other]
        exact h.linked cls' known'
    · rw [← block]
      exact (Perm.pairwise_iff Block.Apart.symm moved).mp h.apart
    · rw [← block]
      exact fun c mem => h.placed c (moved.mem_iff.mpr mem)
    · intro c mem
      refine h.readable c ?_
      rcases mem_append.mp mem with left | right
      · exact mem_append_left _ left
      · exact mem_append_right _ (mem_cons_of_mem _ right)

theorem grow {body' : Body} (mem : body'.mem = body.mem) (long : body.len ≤ body'.len) {bump' : Nat}
    (le : bump ≤ bump') (sixteen : bump' % 16 = 0) (small : bump' < 2 ^ 64) {fresh : List Block}
    (apart : fresh.Pairwise Block.Apart) (placed : ∀ b ∈ fresh, b.Placed bump' ∧ bump ≤ b.off) :
    Free body' freeHead bump' (fresh ++ others) free := by
  refine ⟨?_, ?_, ?_, ?_, sixteen, h.start.trans le, small⟩
  · rw [mem]
    exact h.linked
  · rw [append_assoc, pairwise_append]
    refine ⟨apart, h.apart, fun b new c old => Or.inr ?_⟩
    exact (h.placed c old).inside.trans (placed b new).2
  · intro b among
    rw [append_assoc, mem_append] at among
    rcases among with new | old
    · exact (placed b new).1
    · exact (h.placed b old).mono le
  · exact fun b among => (h.readable b among).trans long

end

end Free

section Calls

variable {body : Body} {alloc : AllocState} {others free : List Block}

theorem largestRelocClassLe_eq_some {bytes cls : Nat}
    (found : largestRelocClassLe bytes = some cls) :
    cls ≤ shMaxSlabClass ∧ slabBytes cls ≤ bytes := by
  have mem := mem_of_find?_eq_some found
  rw [mem_reverse, mem_range] at mem
  exact ⟨Nat.le_of_lt_succ mem, by simpa using find?_some found⟩

theorem carveGap_spec {freeHead : FreeHeads} {off upTo : Nat} (le : off ≤ upTo)
    (sixteen : upTo % 16 = 0) (small : upTo < 2 ^ 64)
    (h : Free body freeHead off others free) :
    ∃ body' freeHead' free', carveGapIntoFreelist body freeHead off upTo = .ok (body', freeHead') ∧
        Free body' freeHead' upTo others free' := by
  induction rest : upTo - off using Nat.strongRecOn generalizing body freeHead off free with
  | ind n ih =>
    have stop : Free body freeHead upTo others free :=
      h.grow rfl le_rfl le sixteen small Pairwise.nil (by simp)
    rw [carveGapIntoFreelist]
    by_cases more : off < upTo
    · rw [if_pos more]
      cases found : largestRelocClassLe (upTo - off) with
      | none => exact ⟨body, freeHead, free, rfl, stop⟩
      | some cls =>
        obtain ⟨reloc, fits⟩ := largestRelocClassLe_eq_some found
        have known : cls ≤ shMaxClass := reloc.trans (by decide)
        have size := sixteen_le_slabBytes cls
        have start := h.start
        have aligned := h.sixteen
        have placed : (⟨cls, off⟩ : Block).Placed (off + slabBytes cls) :=
          ⟨known, start, le_rfl, aligned, fun page => absurd (page.trans reloc) (by decide)⟩
        have apart : ∀ c ∈ others ++ free, (⟨cls, off⟩ : Block).Apart c :=
          fun c mem => Or.inr (h.placed c mem).inside
        have next := h.push (Nat.le_add_right off (slabBytes cls))
          (by rw [Nat.add_mod, slabBytes_mod, aligned]) (by omega) placed apart
        dsimp only
        rw [pushFreeHead, if_neg (by omega)]
        exact ih (upTo - (off + slabBytes cls)) (by omega) (by omega) next rfl
    · rw [if_neg more]
      exact ⟨body, freeHead, free, rfl, stop⟩

theorem alignPage_spec (off : Nat) :
    off ≤ alignPage off ∧ alignPage off < off + 4096 ∧ alignPage off % 4096 = 0 := by
  rw [alignPage]
  omega

theorem alignBump_spec (room : alloc.bump + 4095 < 2 ^ 64)
    (h : Free body alloc.freeHead alloc.bump others free) :
    ∃ body' alloc' free', alignBump body alloc = .ok (body', alloc') ∧
      alloc'.bump = alignPage alloc.bump ∧
      Free body' alloc'.freeHead alloc'.bump others free' := by
  obtain ⟨le, lt, page⟩ := alignPage_spec alloc.bump
  rw [alignBump]
  split_ifs with gap
  · obtain ⟨body', freeHead', free', run, h'⟩ := carveGap_spec le (by omega) (by omega) h
    refine ⟨body', { alloc with freeHead := freeHead', bump := alignPage alloc.bump }, free', ?_,
      rfl, h'⟩
    rw [run]
    rfl
  · rw [not_not] at gap
    exact ⟨body, alloc, free, rfl, gap.symm, h⟩

theorem extend_mem (body : Body) (len : Nat) : (body.extend len).mem = body.mem := by
  rw [Body.extend]
  split_ifs <;> rfl

theorem extend_len (body : Body) (len : Nat) : body.len ≤ (body.extend len).len := by
  rw [Body.extend]
  split_ifs with longer
  · exact le_of_lt longer
  · exact le_rfl

def pagesFrom (off n : Nat) : List Block :=
  (List.range n).map fun i => ⟨shPageSlabClass, off + i * shPageSize⟩

theorem pagesFrom_apart (off n : Nat) : (pagesFrom off n).Pairwise Block.Apart := by
  rw [pagesFrom, pairwise_map]
  refine pairwise_lt_range.imp fun {i j} less => Or.inl ?_
  show off + i * 4096 + slabBytes 8 ≤ off + j * 4096
  rw [show slabBytes 8 = 4096 from rfl]
  omega

theorem allocExtent_spec {nPages : Nat} (some_page : nPages ≠ 0)
    (room : alloc.bump + 4095 + nPages * shPageSize < 2 ^ 64)
    (h : Free body alloc.freeHead alloc.bump others free) :
    ∃ off body' alloc' free', allocExtent body alloc nPages = .ok (off, body', alloc') ∧
      Free body' alloc'.freeHead alloc'.bump (pagesFrom off nPages ++ others) free' := by
  obtain ⟨body', alloc', free', run, bump, h'⟩ := alignBump_spec (by omega) h
  obtain ⟨le, lt, page⟩ := alignPage_spec alloc.bump
  refine ⟨alloc'.bump, body'.extend (alloc'.bump + nPages * shPageSize),
    { alloc' with bump := alloc'.bump + nPages * shPageSize }, free', ?_,
    h'.grow (extend_mem ..) (extend_len ..) (Nat.le_add_right alloc'.bump (nPages * shPageSize))
      ?_ ?_ (pagesFrom_apart ..) ?_⟩
  · rw [allocExtent, if_neg some_page, run]
    rfl
  · rw [show shPageSize = 4096 from rfl]
    omega
  · omega
  · intro b mem
    obtain ⟨i, inside, rfl⟩ := mem_map.mp mem
    rw [mem_range] at inside
    have start : 4096 ≤ alloc'.bump := h'.start
    have size : shPageSize = 4096 := rfl
    refine ⟨⟨?_, ?_, ?_, ?_, fun _ => ?_⟩, Nat.le_add_right ..⟩
    · show 8 ≤ 24
      decide
    · show 4096 ≤ alloc'.bump + i * shPageSize
      omega
    · show alloc'.bump + i * shPageSize + slabBytes 8 ≤ alloc'.bump + nPages * shPageSize
      rw [show slabBytes 8 = 4096 from rfl, size]
      omega
    · show (alloc'.bump + i * shPageSize) % 16 = 0
      rw [size]
      omega
    · show (alloc'.bump + i * shPageSize) % shPageSize = 0
      rw [size]
      omega

theorem allocSlab_spec {cls : Nat} (known : cls ≤ shMaxClass)
    (room : alloc.bump + 4095 + slabBytes cls < 2 ^ 64)
    (h : Free body alloc.freeHead alloc.bump others free) :
    ∃ off body' alloc' free', allocSlab body alloc cls = .ok (off, body', alloc') ∧
      Free body' alloc'.freeHead alloc'.bump (⟨cls, off⟩ :: others) free' := by
  rw [allocSlab, if_neg (not_lt.mpr known)]
  by_cases some_free : alloc.freeHead cls = 0
  · have none_free : popFreeHead body alloc.freeHead cls = .ok (none, alloc.freeHead) :=
      if_pos (Or.inr some_free)
    have aligned : ∃ body' alloc' free',
        alignFor body alloc cls = .ok (body', alloc') ∧ alloc'.bump + slabBytes cls < 2 ^ 64 ∧
        (shPageSlabClass ≤ cls → alloc'.bump % shPageSize = 0) ∧
        Free body' alloc'.freeHead alloc'.bump others free' := by
      by_cases page : shPageSlabClass ≤ cls
      · obtain ⟨body', alloc', free', run, bump, h'⟩ := alignBump_spec (by omega) h
        obtain ⟨le, lt, at_page⟩ := alignPage_spec alloc.bump
        rw [← bump] at le lt at_page
        exact ⟨body', alloc', free', by rw [alignFor, if_pos page, run], by omega, fun _ => at_page,
          h'⟩
      · exact ⟨body, alloc, free, if_neg page, by omega, fun p => absurd p page, h⟩
    obtain ⟨body', alloc', free', run, room', at_page, h'⟩ := aligned
    refine ⟨alloc'.bump, body'.extend (alloc'.bump + slabBytes cls),
      { alloc' with bump := alloc'.bump + slabBytes cls }, free', ?_,
      h'.grow (extend_mem ..) (extend_len ..) (Nat.le_add_right alloc'.bump (slabBytes cls))
        ?_ room' (pairwise_singleton _ _) ?_⟩
    · rw [none_free]
      rw [run]
      rfl
    · rw [Nat.add_mod, slabBytes_mod, h'.sixteen]
    · intro b mem
      rw [mem_singleton] at mem
      rw [mem]
      exact ⟨⟨known, h'.start, le_rfl, h'.sixteen, at_page⟩, le_rfl⟩
  · obtain ⟨freeHead', free', run, h'⟩ := h.pop known some_free
    refine ⟨alloc.freeHead cls, body, { alloc with freeHead := freeHead' }, free', ?_, h'⟩
    rw [run]
    rfl

theorem freeSlab_spec {left : List Block} (same : others.Perm (b :: left))
    (h : Free body alloc.freeHead alloc.bump others free) :
    ∃ body' alloc' free', freeSlab body alloc b.cls b.off = .ok (body', alloc') ∧
      alloc'.bump = alloc.bump ∧ Free body' alloc'.freeHead alloc'.bump left free' := by
  have moved : (others ++ free).Perm (b :: (left ++ free)) := same.append_right free
  have apart := (Perm.pairwise_iff Block.Apart.symm moved).mp h.apart
  rw [pairwise_cons] at apart
  have placed : b.Placed alloc.bump := h.placed b (moved.mem_iff.mpr mem_cons_self)
  have rest : Free body alloc.freeHead alloc.bump left free :=
    { h with
      apart := apart.2
      placed c mem := h.placed c (moved.mem_iff.mpr (mem_cons_of_mem _ mem)) }
  refine ⟨_, { alloc with freeHead := update alloc.freeHead b.cls b.off }, b :: free, ?_,
    rfl, rest.push le_rfl h.sixteen h.small placed apart.1⟩
  rw [freeSlab, pushFreeHead, if_neg (by have := placed.known; omega)]
  rfl

theorem fill_spec (mine : b ∈ others) {off : Nat} {bytes : Bytes} (low : b.off ≤ off)
    (high : off + bytes.length ≤ b.last)
    (h : Free body alloc.freeHead alloc.bump others free) :
    Free (body.writeAt off bytes) alloc.freeHead alloc.bump others free := by
  rw [Body.writeAt]
  split_ifs with nothing
  · exact h
  · refine ⟨fun cls known => (h.linked cls known).congr fun off' mem => ?_, h.apart, h.placed,
      fun c mem => (h.readable c mem).trans (le_max_left ..), h.sixteen, h.start, h.small⟩
    refine Memory.read_write_apart _ ?_
    have beside : b.Apart ⟨cls, off'⟩ :=
      (pairwise_append.mp h.apart).2.2 b mine _ (mem_ofClass.mp mem)
    have other := sixteen_le_slabBytes cls
    simp only [Block.Apart, Block.last] at beside high
    omega

end Calls

/-- The body, the state of the allocator and the blocks that are in use. A page of an extent is a
block: pages are freed one by one. -/
structure Heap where
  body : Body
  alloc : AllocState
  live : List Block

/-- What the index does with its blocks. -/
inductive Call
  | allocSlab (cls : Nat)
  | allocExtent (nPages : Nat)
  | freeSlab (cls off : Nat)
  /-- The owner of a block writes some bytes of it. -/
  | fill (block : Block) (off : Nat) (bytes : Bytes)

/-- The heap after a call; one that fails leaves it. -/
def Heap.call (heap : Heap) : Call → Heap
  | .allocSlab cls =>
    match allocSlab heap.body heap.alloc cls with
    | .ok (off, body, alloc) => ⟨body, alloc, ⟨cls, off⟩ :: heap.live⟩
    | .error _ => heap
  | .allocExtent nPages =>
    match allocExtent heap.body heap.alloc nPages with
    | .ok (off, body, alloc) => ⟨body, alloc, pagesFrom off nPages ++ heap.live⟩
    | .error _ => heap
  | .freeSlab cls off =>
    match freeSlab heap.body heap.alloc cls off with
    | .ok (body, alloc) => ⟨body, alloc, heap.live.erase ⟨cls, off⟩⟩
    | .error _ => heap
  | .fill _ off bytes => { heap with body := heap.body.writeAt off bytes }

/-- A block is freed while it is in use, bytes are written to a block in use, and the offsets of a
new block have 64 bits. -/
def Heap.Admits (heap : Heap) : Call → Prop
  | .allocSlab cls => heap.alloc.bump + 4095 + slabBytes cls < 2 ^ 64
  | .allocExtent nPages => heap.alloc.bump + 4095 + nPages * shPageSize < 2 ^ 64
  | .freeSlab cls off => ⟨cls, off⟩ ∈ heap.live
  | .fill block off bytes =>
    block ∈ heap.live ∧ block.off ≤ off ∧ off + bytes.length ≤ block.last

def Heap.empty (mem : Memory) : Heap := ⟨⟨mem, payloadStart⟩, ⟨0, payloadStart, fun _ => 0⟩, []⟩

def Heap.Sound (heap : Heap) : Prop :=
  ∃ free, Free heap.body heap.alloc.freeHead heap.alloc.bump heap.live free

theorem Heap.Sound.call {heap : Heap} (sound : heap.Sound) {c : Call} (admits : heap.Admits c) :
    (heap.call c).Sound := by
  obtain ⟨free, h⟩ := sound
  cases c with
  | allocSlab cls =>
    by_cases known : cls ≤ shMaxClass
    · obtain ⟨off, body', alloc', free', run, h'⟩ := allocSlab_spec known admits h
      rw [Heap.call, run]
      exact ⟨free', h'⟩
    · have refused : ShAlloc.allocSlab heap.body heap.alloc cls =
          corrupt "scripthash page class overflow" := if_pos (not_le.mp known)
      rw [Heap.call, refused]
      exact ⟨free, h⟩
  | allocExtent nPages =>
    by_cases nothing : nPages = 0
    · have refused : ShAlloc.allocExtent heap.body heap.alloc nPages =
          corrupt "scripthash empty extent" := if_pos nothing
      rw [Heap.call, refused]
      exact ⟨free, h⟩
    · obtain ⟨off, body', alloc', free', run, h'⟩ := allocExtent_spec nothing admits h
      rw [Heap.call, run]
      exact ⟨free', h'⟩
  | freeSlab cls off =>
    have used : ⟨cls, off⟩ ∈ heap.live := admits
    obtain ⟨body', alloc', free', run, -, h'⟩ := freeSlab_spec (perm_cons_erase used) h
    rw [Heap.call, run]
    exact ⟨free', h'⟩
  | fill block off bytes => exact ⟨free, fill_spec admits.1 admits.2.1 admits.2.2 h⟩

theorem Heap.empty_sound (mem : Memory) : (Heap.empty mem).Sound := by
  refine ⟨[], ?_, Pairwise.nil, ?_, ?_, ?_, le_rfl, ?_⟩
  · exact fun cls known => rfl
  · exact fun b mem => absurd mem (by simp [Heap.empty])
  · exact fun b mem => absurd mem (by simp)
  · show payloadStart % 16 = 0
    decide
  · show payloadStart < 2 ^ 64
    decide

/-- **The heap.** After any calls, of which each frees a block in use, the blocks in use are apart
from each other, in place, and apart from the blocks of the freelists, which the links lead through.
-/
theorem heap_blocks_apart (mem : Memory) (calls : List Call)
    (admits : Run.AllMeet Heap.call Heap.Admits (Heap.empty mem) calls) :
    let heap := calls.foldl Heap.call (Heap.empty mem)
    heap.live.Pairwise Block.Apart ∧ (∀ b ∈ heap.live, b.Placed heap.alloc.bump) ∧
      ∃ free, (∀ cls ≤ shMaxClass,
        Linked heap.body.mem (heap.alloc.freeHead cls) (ofClass free cls)) ∧
        ∀ b ∈ heap.live, ∀ c ∈ free, b.Apart c := by
  have sound := admits.invariant Heap.Sound (fun _ _ sound admits => sound.call admits)
    (Heap.empty_sound mem)
  obtain ⟨free, h⟩ := sound
  have apart := pairwise_append.mp h.apart
  exact ⟨apart.1, fun b mem => h.placed b (mem_append_left _ mem), free, h.linked, apart.2.2⟩

theorem heap_blocks_apart_sample : Run.AllMeet Heap.call Heap.Admits (Heap.empty fun _ => 0)
        [.allocSlab 3, .allocExtent 2, .freeSlab 8 8192] ∧
      ([Call.allocSlab 3, .allocExtent 2, .freeSlab 8 8192].foldl Heap.call
        (Heap.empty fun _ => 0)).live.Pairwise Block.Apart := by
  have admits : Run.AllMeet Heap.call Heap.Admits (Heap.empty fun _ => 0)
      [.allocSlab 3, .allocExtent 2, .freeSlab 8 8192] := by
    refine ⟨?_, ?_, ?_, trivial⟩
    · show _ < _
      decide +kernel
    · show _ < _
      decide +kernel
    · show _ ∈ _
      decide +kernel
  exact ⟨admits, (heap_blocks_apart _ _ admits).1⟩

/-- A block of 32 bytes after one of 16 is not at a multiple of its size. -/
theorem slab_not_aligned :
    ([Call.allocSlab 0, .allocSlab 1].foldl Heap.call (Heap.empty fun _ => 0)).live =
      [⟨1, 4112⟩, ⟨0, 4096⟩] ∧ ¬slabBytes 1 ∣ 4112 := by
  constructor
  · decide +kernel
  · decide

end Rbitcoin.Store.ShAlloc
