import Rbitcoin.Lib.Records
import Rbitcoin.Store.Layout

/-! Table files: bytes after a header that says how many of them count. A write lands before the
header names it, so what is past the length in the header is spare: zeros that growth left, or
records of a write that was not finished or that was cut off later. Offsets and lengths are counted
from the end of the header. -/

namespace Rbitcoin.Store

open Bytes List

def fileHeaderLen : Nat := 16

def createFileSlack : Nat := 64

/-- How far a file grows when it has to. -/
inductive GrowPolicy
  | slab
  | tight1MiB
  | align64k
  deriving DecidableEq, Repr

/-- The new length of a file of `cur` bytes that needs `need`, which is more. -/
def GrowPolicy.capacity (policy : GrowPolicy) (cur need : Nat) : Nat :=
  match policy with
  | .tight1MiB => max (need + 2 ^ 20) need
  | .align64k => max ((need + 65535) / 65536 * 65536) need
  | .slab =>
    if cur < 64 * 2 ^ 20 then
      -- One turn of the doubling loop reaches the need.
      if max cur 64 < need then max (max cur 64 * 2) need else max cur 64
    else
      let (headroom, step) :=
        if 8 * 2 ^ 30 ≤ cur then (2 ^ 30, 512 * 2 ^ 20)
        else if 2 ^ 30 ≤ cur then (512 * 2 ^ 20, 256 * 2 ^ 20)
        else (256 * 2 ^ 20, 64 * 2 ^ 20)
      max ((need + headroom + step - 1) / step * step) need

/-- A table file: its bytes, the length on disk and the length in memory. -/
structure TableFile where
  /-- What is on disk after the header. -/
  data : Bytes
  /-- The length in the header, which the next open goes by. -/
  header : Nat
  /-- The length in memory, which readers go by. -/
  published : Nat
  policy : GrowPolicy
  deriving DecidableEq, Repr

namespace TableFile

def create (policy : GrowPolicy) : TableFile := ⟨List.replicate createFileSlack 0, 0, 0, policy⟩

variable (f : TableFile)

/-- Memory is lost; a header that names more than there is counts for what there is. -/
def reopen : TableFile := { f with published := min f.header f.data.length }

def ensureCapacity (need : Nat) : TableFile :=
  if need ≤ f.data.length then f
  else
    let capacity := f.policy.capacity (fileHeaderLen + f.data.length) (fileHeaderLen + need)
    { f with data := f.data ++ List.replicate (capacity - fileHeaderLen - f.data.length) 0 }

/-- Bytes on disk that no header names yet. -/
def writeUncommitted (off : Nat) (b : Bytes) : TableFile :=
  if b = [] then f
  else
    let f := f.ensureCapacity (off + b.length)
    { f with data := f.data.patch off b }

/-- A longer end is stored in the header, and readers see it. -/
def publishEnd (last : Nat) : TableFile :=
  if f.published < last then { f with published := last, header := last } else f

/-- Another length, in memory and in the header. The bytes past it stay. -/
def setLogicalLen (len : Nat) : TableFile :=
  { f.ensureCapacity len with published := len, header := len }

def preadAll (off n : Nat) : Result Bytes := pread f.data off n

def readAt (off n : Nat) : Result Bytes :=
  if n = 0 then .ok []
  else if f.published < off + n then corrupt "pread past logical end"
  else f.preadAll off n

section Writes

variable (f : TableFile)

theorem prefix_ensureCapacity (need : Nat) : f.data <+: (f.ensureCapacity need).data := by
  unfold ensureCapacity
  split_ifs
  · exact prefix_rfl
  · exact prefix_append ..

@[simp] theorem header_ensureCapacity (need : Nat) : (f.ensureCapacity need).header = f.header := by
  unfold ensureCapacity
  split_ifs <;> rfl

@[simp] theorem published_ensureCapacity (need : Nat) :
    (f.ensureCapacity need).published = f.published := by
  unfold ensureCapacity
  split_ifs <;> rfl

@[simp] theorem header_writeUncommitted (off : Nat) (b : Bytes) :
    (f.writeUncommitted off b).header = f.header := by
  unfold writeUncommitted
  split_ifs <;> simp

@[simp] theorem published_writeUncommitted (off : Nat) (b : Bytes) :
    (f.writeUncommitted off b).published = f.published := by
  unfold writeUncommitted
  split_ifs <;> simp

theorem prefix_setLogicalLen (len : Nat) : f.data <+: (f.setLogicalLen len).data :=
  f.prefix_ensureCapacity len

variable {f} {s : Bytes}

theorem append_prefix_writeUncommitted (stored : s <+: f.data) (b : Bytes) :
    s ++ b <+: (f.writeUncommitted s.length b).data := by
  unfold writeUncommitted
  by_cases nothing : b = []
  · rw [nothing, append_nil]
    exact stored
  · rw [if_neg nothing]
    obtain ⟨rest, grown⟩ := stored.trans (f.prefix_ensureCapacity (s.length + b.length))
    simp only [patch, ← grown, take_left]
    exact prefix_append ..

theorem prefix_writeUncommitted (stored : s <+: f.data) {off : Nat} (past : s.length ≤ off)
    (b : Bytes) : s <+: (f.writeUncommitted off b).data := by
  unfold writeUncommitted
  split_ifs
  · exact stored
  · obtain ⟨rest, grown⟩ := stored.trans (f.prefix_ensureCapacity (off + b.length))
    simp only [patch, ← grown, append_assoc, past, take_of_length_le, take_append]
    exact prefix_append ..

end Writes

/-- The length is set where it differs. -/
def fit (len : Nat) : TableFile :=
  if f.published ≠ len then f.setLogicalLen len else f

/-- The string is on disk; the header and the readers count its first `n` bytes. -/
structure Shows (f : TableFile) (s : Bytes) (n : Nat) : Prop where
  stored : s <+: f.data
  header : f.header = n
  published : f.published = n

/-- The file counts the whole string. -/
abbrev Holds (s : Bytes) : Prop := f.Shows s s.length

section Shows

variable {f : TableFile} {s t : Bytes} {n : Nat}

theorem holds_create (policy : GrowPolicy) : (create policy).Holds [] :=
  ⟨ nil_prefix, rfl, rfl⟩

theorem Shows.shorter (shown : f.Shows s n) (part : t <+: s) : f.Shows t n :=
  { shown with stored := part.trans shown.stored }

theorem Shows.fit (shown : f.Shows s n) (len : Nat) : (f.fit len).Shows s len := by
  unfold TableFile.fit
  split_ifs with other
  · exact ⟨shown.stored.trans (f.prefix_setLogicalLen len), rfl, rfl⟩
  · have same : f.published = len := not_not.mp other
    exact ⟨shown.stored, by rw [shown.header, ← shown.published, same], same⟩

theorem Shows.setLogicalLen (shown : f.Shows s n) (len : Nat) : (f.setLogicalLen len).Shows s len :=
  ⟨shown.stored.trans (f.prefix_setLogicalLen len), rfl, rfl⟩

theorem shows_reopen (stored : s <+: f.data) (header : f.header = n) (inside : n ≤ s.length) :
    f.reopen.Shows s n :=
  ⟨stored, header, by rw [reopen, header, min_eq_left (inside.trans stored.length_le)]⟩

theorem Shows.append (held : f.Holds s) (b : Bytes) :
    ((f.writeUncommitted s.length b).publishEnd (s.length + b.length)).Holds (s ++ b) := by
  have stored := append_prefix_writeUncommitted held.stored b
  have length : (s ++ b).length = s.length + b.length := length_append
  unfold publishEnd
  rw [published_writeUncommitted, held.published]
  by_cases more : s.length < s.length + b.length
  · rw [if_pos more]
    exact ⟨stored, length.symm, length.symm⟩
  · rw [if_neg more]
    exact ⟨stored, by rw [header_writeUncommitted, held.header, length]; omega,
      by rw [published_writeUncommitted, held.published, length]; omega⟩

theorem Shows.appendIf (held : f.Holds s) {off : Nat} {b : Bytes}
    (at_end : b ≠ [] → off = s.length) :
    (if b = [] then f.writeUncommitted off b
      else (f.writeUncommitted off b).publishEnd (off + b.length)).Holds (s ++ b) := by
  split_ifs with nothing
  · rw [nothing, append_nil, writeUncommitted]
    exact held
  · rw [at_end nothing]
    exact held.append b

theorem Shows.preadAll (shown : f.Shows s n) {off k : Nat} (inside : off + k ≤ s.length) :
    f.preadAll off k = .ok (s.slice off (off + k)) := by
  obtain ⟨rest, whole⟩ := shown.stored
  have long : off + k ≤ f.data.length := by
    rw [← whole, length_append]
    omega
  have part : f.data.slice off (off + k) = s.slice off (off + k) := by
    have := slice_middle (s := f.data) (p := []) (m := s) (t := rest) (by simpa using whole.symm)
      inside (a := off)
    simpa using this
  rw [TableFile.preadAll, pread_eq_ok long, part]

theorem Shows.readAt (shown : f.Shows s n) {off k : Nat} (counted : off + k ≤ n)
    (inside : off + k ≤ s.length) : f.readAt off k = .ok (s.slice off (off + k)) := by
  unfold TableFile.readAt
  by_cases nothing : k = 0
  · rw [if_pos nothing, nothing, add_zero, slice_self]
  · rw [if_neg nothing, if_neg (by rw [shown.published]; omega), shown.preadAll inside]

theorem Shows.readAll (held : f.Holds s) : f.readAt 0 s.length = .ok s := by
  have whole : s.slice 0 (0 + s.length) = s := by simp [slice]
  have bytes := held.readAt (le_of_eq (zero_add s.length)) (le_of_eq (zero_add s.length))
  rwa [whole] at bytes

end Shows

/-- What the first writes of an operation leave of a file that gets a payload, by the write with one
number, and a header that names it, by the write with the other. A stop within the payload leaves
`torn` bytes of it. -/
def stopped (payload header off : Nat) (b : Bytes) (writes torn : Nat) : TableFile :=
  if b = [] then f
  else if writes < payload then f
  else if writes = payload then
    (f.ensureCapacity (off + b.length)).writeUncommitted off (b.take torn)
  else if writes ≤ header then f.writeUncommitted off b
  else (f.writeUncommitted off b).publishEnd (off + b.length)

section Stops

variable {f : TableFile} {s b : Bytes} {payload header off writes : Nat}

theorem stopped_before (held : f.Holds s) (at_end : b ≠ [] → off = s.length)
    (before : writes ≤ header) (torn : Nat) :
    (f.stopped payload header off b writes torn).reopen.Holds s := by
  have stored : s <+: (f.stopped payload header off b writes torn).data ∧
      (f.stopped payload header off b writes torn).header = s.length := by
    unfold stopped
    split_ifs with nothing
    · exact ⟨held.stored, held.header⟩
    · exact ⟨held.stored, held.header⟩
    · have grown := held.stored.trans (f.prefix_ensureCapacity (off + b.length))
      exact ⟨prefix_writeUncommitted grown (at_end nothing).ge _, by simp [held.header]⟩
    · exact ⟨prefix_writeUncommitted held.stored (at_end nothing).ge _, by simp [held.header]⟩
  exact shows_reopen stored.1 stored.2 le_rfl

theorem stopped_after (held : f.Holds s) (at_end : b ≠ [] → off = s.length)
    (after : payload < writes) (header torn : Nat) :
    (f.stopped payload header off b writes torn).reopen.Shows (s ++ b)
      (if b ≠ [] ∧ writes ≤ header then s.length else (s ++ b).length) := by
  have shorter : s.length ≤ (s ++ b).length := by
    rw [length_append]
    exact Nat.le_add_right ..
  unfold stopped
  by_cases nothing : b = []
  · subst nothing
    rw [if_pos rfl, append_nil]
    exact shows_reopen held.stored held.header le_rfl
  · rw [if_neg nothing, if_neg (by omega), if_neg (by omega), at_end nothing]
    by_cases named : writes ≤ header
    · rw [if_pos named, if_pos ⟨nothing, named⟩]
      exact shows_reopen (append_prefix_writeUncommitted held.stored b) (by simp [held.header])
        shorter
    · have grown := held.append b
      rw [if_neg named, if_neg fun both => named both.2]
      exact shows_reopen grown.stored grown.header le_rfl

end Stops

end TableFile

end Rbitcoin.Store
