import Mathlib.Algebra.Group.Nat.Defs
import Mathlib.Order.Defs.LinearOrder

/-! The prune anchor: the height below which witness data may go. The flush after a batch seals the
tip or is withheld. In tip mode the commit waits for it; in the initial download the next commit or
disconnect joins it. -/

namespace Rbitcoin.Ibd

/-- The last sealed tip, where `u32::MAX` stands for none. -/
structure SealedTip where
  word : Nat

namespace SealedTip

def store (height : Option Nat) : SealedTip := ⟨height.getD (2 ^ 32 - 1)⟩

def get (t : SealedTip) : Option Nat := if t.word = 2 ^ 32 - 1 then none else some t.word

def shrunkTo (t : SealedTip) (now : Option Nat) : SealedTip :=
  match t.get with
  | none => store now
  | some sealed => if now.all (· < sealed) then store now else t

/-- The height prune may advance to. `landed` is the height this flush sealed. -/
def forPrune (t : SealedTip) (before landed : Option Nat) : SealedTip × Option Nat :=
  match landed, t.get with
  | some height, _ => (store (some height), some height)
  | none, some height => (t, some height)
  | none, none => (store before, before)

theorem eq_of_get_store {o : Option Nat} {h : Nat} (stored : (store o).get = some h) :
    o = some h := by
  cases o with
  | none => cases stored
  | some v =>
    unfold get at stored
    split_ifs at stored
    exact stored

end SealedTip

/-- The confirmed blocks and what of them is on disk. -/
structure Tips where
  /-- How many blocks are confirmed. -/
  blocks : Nat
  sealedTip : SealedTip
  /-- What the flush in the background seals. -/
  running : Option Nat
  /-- How many of the blocks were there at open or are up to a tip that a flush sealed, which the
  code does not count. -/
  durable : Nat

inductive TipOp
  /-- A batch of one block and `more`. -/
  | confirm (tipMode : Bool) (more : Nat) (seals : Bool)
  | join
  | disconnect

namespace Tips

open SealedTip

def heightOf (blocks : Nat) : Option Nat := if blocks = 0 then none else some (blocks - 1)

def atOpen (blocks : Nat) : Tips := ⟨blocks, store (heightOf blocks), none, blocks⟩

variable (s : Tips)

def landed (height : Option Nat) : Tips :=
  match height with
  | none => s
  | some h => { s with sealedTip := store height, durable := max s.durable (h + 1) }

def joinTipFlush : Tips := { s.landed s.running with running := none }

/-- `flush_tip`: the state after it and the height for pruning. -/
def flushTip (tipMode seals : Bool) (before : Option Nat) : Tips × Option Nat :=
  let height := if seals then heightOf s.blocks else none
  let s := if tipMode then s.landed height else { s with running := height }
  let (sealedTip, anchor) := s.sealedTip.forPrune before (if tipMode then height else none)
  ({ s with sealedTip }, anchor)

def confirm (tipMode : Bool) (more : Nat) (seals : Bool) : Tips × Option Nat :=
  let s := s.joinTipFlush
  { s with blocks := s.blocks + more + 1 }.flushTip tipMode seals (heightOf s.blocks)

def disconnectTip : Tips :=
  let s := s.joinTipFlush
  if s.blocks = 0 then s
  else
    let now := s.blocks - 1
    { s with
      blocks := now
      sealedTip := s.sealedTip.shrunkTo (heightOf now)
      durable := min s.durable now }

def step : TipOp → Tips
  | .confirm tipMode more seals => (s.confirm tipMode more seals).1
  | .join => s.joinTipFlush
  | .disconnect => s.disconnectTip

/-- With the flush in the background joined, something is sealed unless the chain is empty. -/
def Settled : Prop := s.joinTipFlush.sealedTip.get = none → s.blocks = 0

/-- The states of the runs in which the chain is settled before every step. -/
inductive Reaches (start : Tips) : Tips → Prop
  | refl : Reaches start start
  | step {s : Tips} (op : TipOp) : Reaches start s → s.Settled → Reaches start (s.step op)

def Anchored : Prop := ∀ h, s.sealedTip.get = some h → h < s.durable

variable {s : Tips} {before : Option Nat}

theorem heightOf_lt {n h : Nat} (tip : heightOf n = some h) : h < n := by
  unfold heightOf at tip
  split_ifs at tip
  cases tip
  omega

theorem Anchored.landed (anchored : s.Anchored) (height : Option Nat) :
    (s.landed height).Anchored := by
  cases height with
  | none => exact anchored
  | some v =>
    intro h stored
    cases eq_of_get_store stored
    exact Nat.lt_of_lt_of_le (Nat.lt_succ_self _) (Nat.le_max_right ..)

/-- The fallback to the tip before the batch is the only anchor that nothing has sealed. -/
theorem Anchored.flushTip (anchored : s.Anchored) (known : s.sealedTip.get = none → before = none)
    (tipMode seals : Bool) : (s.flushTip tipMode seals before).1.Anchored ∧
      ∀ h, (s.flushTip tipMode seals before).2 = some h →
        h < (s.flushTip tipMode seals before).1.durable := by
  have keeps {s : Tips} (anchored : s.Anchored) (known : s.sealedTip.get = none → before = none) :
      { s with sealedTip := (s.sealedTip.forPrune before none).1 }.Anchored ∧
        ∀ h, (s.sealedTip.forPrune before none).2 = some h → h < s.durable := by
    unfold forPrune
    cases shown : s.sealedTip.get with
    | some v => exact ⟨anchored, fun h same => anchored h (shown.trans same)⟩
    | none =>
      rw [known shown]
      exact ⟨fun h stored => absurd (eq_of_get_store stored) nofun, nofun⟩
  cases tipMode with
  | false => exact keeps (s := { s with running := _ }) anchored known
  | true =>
    unfold Tips.flushTip
    generalize (if seals then heightOf s.blocks else none) = height
    cases height with
    | none => exact keeps anchored known
    | some v =>
      refine ⟨anchored.landed (some v), ?_⟩
      rintro h ⟨⟩
      exact Nat.lt_of_lt_of_le (Nat.lt_succ_self _) (Nat.le_max_right ..)

theorem blocks_joinTipFlush : s.joinTipFlush.blocks = s.blocks := by
  unfold joinTipFlush landed
  split <;> rfl

theorem Anchored.confirm (anchored : s.Anchored) (settled : s.Settled) (tipMode : Bool) (more : Nat)
    (seals : Bool) : (s.confirm tipMode more seals).1.Anchored ∧
      ∀ h, (s.confirm tipMode more seals).2 = some h →
        h < (s.confirm tipMode more seals).1.durable := by
  refine Anchored.flushTip (s := { s.joinTipFlush with blocks := _ }) (anchored.landed s.running)
    (fun unsealed => ?_) tipMode seals
  rw [blocks_joinTipFlush, settled unsealed]
  rfl

theorem Anchored.disconnectTip (anchored : s.Anchored) (settled : s.Settled) :
    s.disconnectTip.Anchored := by
  have joined : s.joinTipFlush.Anchored := anchored.landed s.running
  unfold Tips.disconnectTip
  dsimp only
  split_ifs with empty
  · exact joined
  intro h stored
  dsimp only [shrunkTo] at stored ⊢
  cases shown : s.joinTipFlush.sealedTip.get with
  | none => exact absurd (blocks_joinTipFlush.trans (settled shown)) empty
  | some v =>
    have below := joined v shown
    rw [shown] at stored
    dsimp only at stored
    split_ifs at stored with lower
    · have tip := eq_of_get_store stored
      have := heightOf_lt tip
      simp [tip] at lower
      omega
    · cases shown.symm.trans stored
      cases tip : heightOf (s.joinTipFlush.blocks - 1) with
      | none => simp [tip] at lower
      | some w =>
        have := heightOf_lt tip
        simp [tip] at lower
        omega

theorem Reaches.anchored {blocks : Nat} (reached : Reaches (atOpen blocks) s) : s.Anchored := by
  induction reached with
  | refl => exact fun h stored => heightOf_lt (eq_of_get_store stored)
  | step op _ settled anchored =>
    cases op with
    | confirm tipMode more seals => exact (anchored.confirm settled tipMode more seals).1
    | join => exact anchored.landed _
    | disconnect => exact anchored.disconnectTip settled

/-- **Prune anchors.** The height that a batch hands to the pruning is durable, in every run
whose steps all meet a settled chain. -/
theorem confirm_anchor_durable {blocks : Nat} {s : Tips} (reached : Reaches (atOpen blocks) s)
    (settled : s.Settled) (tipMode : Bool) (more : Nat) (seals : Bool) (h : Nat)
    (returned : (s.confirm tipMode more seals).2 = some h) :
    h < (s.confirm tipMode more seals).1.durable :=
  (reached.anchored.confirm settled tipMode more seals).2 h returned

/-- A disconnect from ten blocks, and a flush in the background that is not joined yet. -/
theorem confirm_anchor_durable_ten :
    8 < (((atOpen 10).step .disconnect).confirm false 3 true).1.durable :=
  confirm_anchor_durable (.step .disconnect .refl fun h => by cases h) (fun h => by cases h)
    false 3 true 8 rfl

/-- On an empty store the first flush is withheld, and the second batch takes the block of the first
for sealed. -/
theorem confirm_anchor_withheld :
    let s := (atOpen 0).step (.confirm false 0 false)
    (s.confirm false 0 false).2 = some 0 ∧ (s.confirm false 0 false).1.durable = 0 :=
  ⟨rfl, rfl⟩

end Tips

end Rbitcoin.Ibd
