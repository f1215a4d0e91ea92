import Mathlib.Algebra.Order.BigOperators.Group.List
import Rbitcoin.Lib.Bytes

/-! The rate limit of a peer. Two buckets of one second count what was accepted, and the older one
is weighed by how much of it lies in the second before a message. So one second can hold nearly
twice the limit, and not more. -/

namespace Rbitcoin.Net

open List

/-- One second, in nanoseconds. -/
def rateWindow : Nat := 1000000000

structure Message where
  time : Nat
  payloadLen : Nat
  deriving DecidableEq

/-- The two buckets and their limits. -/
structure PeerRateLimiter where
  currentStart : Nat
  curMsgs : Nat
  curBytes : Nat
  prevMsgs : Nat
  prevBytes : Nat
  maxMsgs : Nat
  maxBytes : Nat

namespace PeerRateLimiter

def new (now maxMsgs maxBytes : Nat) : PeerRateLimiter :=
  ⟨now, 0, 0, 0, 0, max maxMsgs 1, max maxBytes 1⟩

variable (l : PeerRateLimiter)

def roll (now : Nat) : PeerRateLimiter :=
  let elapsed := now - l.currentStart
  if elapsed < rateWindow then l
  else if rateWindow + rateWindow ≤ elapsed then
    { l with currentStart := now, curMsgs := 0, curBytes := 0, prevMsgs := 0, prevBytes := 0 }
  else
    { l with
      currentStart := l.currentStart + rateWindow, curMsgs := 0, curBytes := 0
      prevMsgs := l.curMsgs, prevBytes := l.curBytes }

/-- The milliseconds of the older bucket in the second before `now`. -/
def prevWeight (now : Nat) : Nat :=
  1000 - min ((now - l.currentStart) / 1000000) 1000

def nextMsgs (m : Message) : Nat :=
  saturatingAdd 64 (l.curMsgs + l.prevMsgs * l.prevWeight m.time / 1000) 1

/-- The plain sum and product of 64 bits wrap around. -/
def nextBytes (m : Message) : Nat :=
  saturatingAdd 64 ((l.curBytes + l.prevBytes * l.prevWeight m.time % 2 ^ 64 / 1000) % 2 ^ 64)
    m.payloadLen

def noteAt (m : Message) : PeerRateLimiter × Bool :=
  let l := l.roll m.time
  if l.maxMsgs < l.nextMsgs m ∨ l.maxBytes < l.nextBytes m then (l, false)
  else
    ({ l with
      curMsgs := saturatingAdd 32 l.curMsgs 1
      curBytes := saturatingAdd 64 l.curBytes m.payloadLen }, true)

/-- The limiter and the messages it has accepted, after one more message. -/
def note (s : PeerRateLimiter × List Message) (m : Message) : PeerRateLimiter × List Message :=
  let (l, fits) := s.1.noteAt m
  (l, if fits then s.2 ++ [m] else s.2)

def accepted (messages : List Message) : List Message :=
  (messages.foldl note (l, [])).2

/-- The messages in the second from `t` on. -/
def within (t : Nat) (messages : List Message) : List Message :=
  messages.filter fun m => t ≤ m.time ∧ m.time < t + rateWindow

section Counts

/-! A counter of messages or of bytes. -/

variable (cost : Message → Nat) {limit prev cur now t : Nat} {old older newer : List Message}
  {m : Message}

def total (messages : List Message) : Nat := (messages.map cost).sum

/-- The counters of two buckets. -/
structure Counts (limit prev cur : Nat) (older newer : List Message) : Prop where
  prev_eq : prev = total cost older
  cur_eq : cur = total cost newer
  prev_le : prev ≤ limit
  cur_le : cur ≤ limit

variable {cost}

theorem total_append (a b : List Message) : total cost (a ++ b) = total cost a + total cost b := by
  rw [total, map_append, sum_append]
  rfl

theorem total_singleton (m : Message) : total cost [m] = cost m := sum_singleton

theorem total_within_le (messages : List Message) :
    total cost (within t messages) ≤ total cost messages :=
  (filter_sublist.map cost).sum_le_sum fun _ _ => Nat.zero_le _

theorem within_gone (gone : ∀ m ∈ old, m.time + rateWindow ≤ now) (late : now < t + rateWindow) :
    within t old = [] := by
  refine filter_eq_nil_iff.mpr fun m mem inside => ?_
  have := gone m mem
  have := of_decide_eq_true inside
  omega

/-- No second holds more than twice the limit, less a thousandth. -/
def Bounded (cost : Message → Nat) (limit : Nat) (messages : List Message) : Prop :=
  ∀ t, total cost (within t messages) ≤ 2 * limit - limit / 1000

/-- The older bucket counts with at least a thousandth. -/
theorem Counts.bounded (counts : Counts cost limit prev cur older newer) {weight : Nat}
    (weighs : 0 < weight) (fits : cur + prev * weight / 1000 + cost m ≤ limit)
    (gone : ∀ e ∈ old, e.time + rateWindow ≤ m.time)
    (before : Bounded cost limit (old ++ older ++ newer)) :
    Bounded cost limit (old ++ older ++ newer ++ [m]) := by
  intro t
  by_cases inside : t ≤ m.time ∧ m.time < t + rateWindow
  · have weighed : prev / 1000 ≤ prev * weight / 1000 :=
      Nat.div_le_div_right (Nat.le_mul_of_pos_right prev weighs)
    have held : within t (old ++ older ++ newer ++ [m]) = within t (older ++ newer ++ [m]) := by
      simp only [append_assoc, within, filter_append old]
      rw [← within, within_gone gone inside.2, nil_append]
    have counted : total cost (within t (older ++ newer ++ [m])) ≤ _ := total_within_le _
    rw [total_append, total_append, total_singleton, ← counts.prev_eq, ← counts.cur_eq,
      ← held] at counted
    have := counts.prev_le
    omega
  · rw [within, filter_append, filter_cons_of_neg (by simpa using inside), filter_nil, append_nil]
    exact before t

theorem Counts.none : Counts cost limit 0 0 [] [] :=
  ⟨rfl, rfl, Nat.zero_le _, Nat.zero_le _⟩

theorem Counts.roll (counts : Counts cost limit prev cur older newer) :
    Counts cost limit cur 0 newer [] :=
  ⟨counts.cur_eq, rfl, counts.cur_le, Nat.zero_le _⟩

theorem Counts.add (counts : Counts cost limit prev cur older newer) (fits : cur + cost m ≤ limit) :
    Counts cost limit prev (cur + cost m) older (newer ++ [m]) :=
  { counts with
    cur_eq := by rw [total_append, ← counts.cur_eq, total_singleton]
    cur_le := fits }

end Counts

/-- A limiter and what it has accepted: messages that no second reaches any more, those of the older
bucket and those of the newer one. -/
structure Held (M B : Nat) (l : PeerRateLimiter) (log : List Message) (now : Nat)
    (old older newer : List Message) : Prop where
  parts : log = old ++ older ++ newer
  gone : ∀ m ∈ old, m.time + rateWindow ≤ now
  older_time : ∀ m ∈ older, m.time < l.currentStart
  newer_time : ∀ m ∈ newer, m.time < l.currentStart + rateWindow
  msgs : Counts (fun _ => 1) M l.prevMsgs l.curMsgs older newer
  bytes : Counts Message.payloadLen B l.prevBytes l.curBytes older newer
  maxMsgs : l.maxMsgs = M
  maxBytes : l.maxBytes = B
  msgs_le : Bounded (fun _ => 1) M log
  bytes_le : Bounded Message.payloadLen B log

def Kept (M B : Nat) (s : PeerRateLimiter × List Message) (now : Nat) : Prop :=
  ∃ old older newer, Held M B s.1 s.2 now old older newer

section Steps

variable {M B now : Nat} {l : PeerRateLimiter} {log old older newer : List Message} {m : Message}

theorem Held.roll (held : Held M B l log now old older newer) {later : Nat} (after : now ≤ later) :
    later < (l.roll later).currentStart + rateWindow ∧
      ∃ old older newer, Held M B (l.roll later) log later old older newer := by
  have second : 0 < rateWindow := by decide
  have gone : ∀ m ∈ old, m.time + rateWindow ≤ later := fun m mem => (held.gone m mem).trans after
  rw [PeerRateLimiter.roll]
  split_ifs with same far
  · exact ⟨by omega, old, older, newer, { held with gone }⟩
  · refine ⟨Nat.lt_add_of_pos_right second, log, [], [], { held with
      parts := by simp, gone := ?_, older_time := nofun, newer_time := nofun
      msgs := .none, bytes := .none }⟩
    rw [held.parts]
    refine forall_mem_append.mpr ⟨forall_mem_append.mpr ⟨gone, fun m mem => ?_⟩, fun m mem => ?_⟩
    · have := held.older_time m mem
      omega
    · have := held.newer_time m mem
      omega
  · refine ⟨by simp only; omega, old ++ older, newer, [], { held with
      parts := by rw [append_nil, held.parts], gone := forall_mem_append.mpr ⟨gone, fun m mem => ?_⟩
      older_time := held.newer_time, newer_time := nofun
      msgs := held.msgs.roll, bytes := held.bytes.roll }⟩
    have := held.older_time m mem
    omega

theorem le_of_saturatingAdd_le {bits a b limit : Nat} (small : limit < 2 ^ bits - 1)
    (h : saturatingAdd bits a b ≤ limit) : a + b ≤ limit :=
  (min_le_iff.mp h).resolve_right (not_le.mpr small)

variable (smallM : M < 2 ^ 32) (smallB : 1000 * B < 2 ^ 64) {s : PeerRateLimiter × List Message}
include smallM smallB

theorem Kept.note (kept : Kept M B s now) (after : now ≤ m.time) : Kept M B (note s m) m.time := by
  obtain ⟨l, log⟩ := s
  obtain ⟨_, _, _, held⟩ := kept
  obtain ⟨soon, old, older, newer, held⟩ := held.roll after
  rw [PeerRateLimiter.note, noteAt]
  generalize l.roll m.time = r at soon held ⊢
  have weighs : 0 < r.prevWeight m.time := by
    simp only [rateWindow] at soon
    rw [prevWeight]
    omega
  by_cases full : r.maxMsgs < r.nextMsgs m ∨ r.maxBytes < r.nextBytes m
  · simp only [if_pos full]
    exact ⟨old, older, newer, held⟩
  · simp only [if_neg full]
    obtain rfl := held.parts
    have product : r.prevBytes * r.prevWeight m.time ≤ B * 1000 :=
      Nat.mul_le_mul held.bytes.prev_le (Nat.sub_le _ _)
    have cur_le := held.bytes.cur_le
    rw [not_or, not_lt, not_lt, held.maxMsgs, held.maxBytes, nextMsgs, nextBytes,
      Nat.mod_eq_of_lt (a := r.prevBytes * _) (by omega), Nat.mod_eq_of_lt (by omega)] at full
    have msgs := le_of_saturatingAdd_le (by omega) full.1
    have bytes := le_of_saturatingAdd_le (by omega) full.2
    rw [saturatingAdd_eq (by omega), saturatingAdd_eq (by omega)]
    exact ⟨old, older, newer ++ [m], { held with
      parts := append_assoc ..
      newer_time := forall_mem_append.mpr ⟨held.newer_time, forall_mem_singleton.mpr soon⟩
      msgs := held.msgs.add (by omega), bytes := held.bytes.add (by omega)
      msgs_le := held.msgs.bounded weighs msgs held.gone held.msgs_le
      bytes_le := held.bytes.bounded weighs bytes held.gone held.bytes_le }⟩

theorem Kept.notes (kept : Kept M B s now) {messages : List Message}
    (after : ∀ m ∈ messages, now ≤ m.time) (sorted : messages.Pairwise fun a b => a.time ≤ b.time) :
    ∃ now, Kept M B (messages.foldl PeerRateLimiter.note s) now := by
  induction messages generalizing s now with
  | nil => exact ⟨now, kept⟩
  | cons m messages ih =>
    obtain ⟨first, rest⟩ := pairwise_cons.mp sorted
    exact ih (kept.note smallM smallB (after m mem_cons_self)) first rest

end Steps

/-- **The limiter.** In any second it accepts at most twice the messages and twice the bytes of its
budgets. -/
theorem accepted_bounded (start maxMsgs maxBytes : Nat) (smallM : maxMsgs < 2 ^ 32)
    (smallB : 1000 * maxBytes < 2 ^ 64) (messages : List Message)
    (sorted : messages.Pairwise fun a b => a.time ≤ b.time) :
    Bounded (fun _ => 1) (max maxMsgs 1) ((new start maxMsgs maxBytes).accepted messages) ∧
      Bounded Message.payloadLen (max maxBytes 1)
        ((new start maxMsgs maxBytes).accepted messages) := by
  have fresh : Kept (max maxMsgs 1) (max maxBytes 1) (new start maxMsgs maxBytes, []) 0 :=
    ⟨[], [], [], rfl, nofun, nofun, nofun, .none, .none, rfl, rfl, fun _ => Nat.zero_le _,
      fun _ => Nat.zero_le _⟩
  obtain ⟨_, _, _, _, held⟩ :=
    fresh.notes (by omega) (by omega) (fun _ _ => Nat.zero_le _) sorted
  exact ⟨held.msgs_le, held.bytes_le⟩

/-- Two messages late in a second and one in the middle of the next. -/
def lateBurst : List Message := [⟨900000000, 1⟩, ⟨900000000, 1⟩, ⟨1500000000, 1⟩]

theorem accepted_bounded_lateBurst :
    total (fun _ => 1) (within 900000000 ((new 0 2 10).accepted lateBurst)) ≤ 4 :=
  (accepted_bounded 0 2 10 (by decide) (by decide) lateBurst (by decide)).1 _

theorem accepted_lateBurst :
    2 < total (fun _ => 1) (within 900000000 ((new 0 2 10).accepted lateBurst)) := by
  decide

end PeerRateLimiter

end Rbitcoin.Net
