import Mathlib.Data.List.Chain
import Mathlib.Data.List.Nodup
import Rbitcoin.Lib.Bytes
import Rbitcoin.Lib.Outcome

/-! The choice of a heavier branch of headers during the initial download. A candidate is walked
back to the active chain, and the branch is taken when its headers carry more work than the blocks
that it would replace. -/

namespace Rbitcoin.Ibd

open Outcome List

inductive NetError
  | store
  | consensus (text : String)
  deriving DecidableEq, Repr

abbrev Result := Except NetError

/-- A stored header with the row of its parent. -/
structure HeaderRecord where
  hash : Bytes
  prevFk : Option Nat
  bits : UInt32
  deriving DecidableEq, Repr

def zeroHash : Bytes := List.replicate 32 0

def ancestorWalkMax : Nat := 10000

section Stored

variable (recs : List HeaderRecord)

def getHeaderByHash (hash : Bytes) : Option HeaderRecord := recs.find? (·.hash == hash)

def getHeader (fk : Nat) : Result HeaderRecord :=
  match recs[fk]? with
  | some rec => .ok rec
  | none => .error .store

def parentHashOf (hash : Bytes) : Result (Option Bytes) :=
  match getHeaderByHash recs hash with
  | none => .ok none
  | some rec =>
    match rec.prevFk with
    | none => .ok (some zeroHash)
    | some fk => do
      let parent ← getHeader recs fk
      return some parent.hash

def Child (a b : Bytes) : Prop :=
  ∃ rec fk parent, getHeaderByHash recs b = some rec ∧ rec.prevFk = some fk ∧
    recs[fk]? = some parent ∧ parent.hash = a

end Stored

/-- The stored headers and the active chain, genesis first. The headers are a tree: the root is
stored first and each other header after its parent. `work` is the work of a compact target, and
each header met its target, so that the work of a chain fits a `Work`. -/
structure ChainHub (work : UInt32 → Nat) where
  recs : List HeaderRecord
  distinct : (recs.map (·.hash)).Nodup
  nonzero : ∀ rec ∈ recs, rec.hash ≠ zeroHash
  root : ∀ i (rec : HeaderRecord), recs[i]? = some rec → rec.prevFk = none → i = 0
  parents : ∀ i (rec : HeaderRecord) fk, recs[i]? = some rec → rec.prevFk = some fk → fk < i
  chain : List HeaderRecord
  genesis : chain = [] ∨ chain.head? = recs.head?
  stored : ∀ rec ∈ chain, rec ∈ recs
  linked : (chain.map (·.hash)).IsChain (Child recs)
  fits : ∀ path : List Bytes, path.IsChain (Child recs) →
    (path.map fun h => ((getHeaderByHash recs h).map (work ·.bits)).getD 0).sum < 2 ^ 256

namespace ChainHub

variable {work : UInt32 → Nat} (hub : ChainHub work) (hash : Bytes)

def heightOfHash : Option Nat := hub.chain.findIdx? (·.hash == hash)

def isConnected : Bool := (hub.heightOfHash hash).isSome

def tipHash : Option Bytes := hub.chain.getLast?.map (·.hash)

/-- The hashes from `cur` back to the active chain, oldest first, in front of those walked. -/
def headerHashesToBestAncestorN : Nat → Bytes → List Bytes → Result (List Bytes)
  | 0, _, path => .ok path
  | n + 1, cur, path =>
    if hub.isConnected cur then .ok path
    else
      match getHeaderByHash hub.recs cur with
      | none => .ok (cur :: path)
      | some rec =>
        match rec.prevFk with
        | none => .ok (cur :: path)
        | some fk => do
          let parent ← getHeader hub.recs fk
          headerHashesToBestAncestorN n parent.hash (cur :: path)

def headerWorkOf : Option Nat := (getHeaderByHash hub.recs hash).map (work ·.bits)

/-- `sum_work`: an overflow of 256 bits is an error. -/
def sumWork (acc : Nat) : List Nat → Result Nat
  | [] => .ok acc
  | w :: works =>
    if acc + w < 2 ^ 256 then sumWork (acc + w) works else .error (.consensus "work overflow")

def ourWorkFromLca (lcaHeight : Nat) : Result Nat :=
  sumWork 0 ((hub.chain.drop (lcaHeight + 1)).map (work ·.bits))

/-- The index at which the work so far first passes `ours`; the sums wrap. -/
def heavierPrefixFrom (ours : Nat) : Nat → Nat → List Bytes → Option Nat
  | _, _, [] => none
  | i, acc, h :: path =>
    match hub.headerWorkOf h with
    | none => none
    | some w =>
      let acc := (acc + w) % 2 ^ 256
      if ours < acc then some i else heavierPrefixFrom ours (i + 1) acc path

def shortestHeavierHeaderPrefix (path : List Bytes) : Result (Option Nat) :=
  match path with
  | [] => .ok none
  | first :: _ => do
    match ← parentHashOf hub.recs first with
    | none => .ok none
    | some parent =>
      let ours ← hub.ourWorkFromLca ((hub.heightOfHash parent).getD 0)
      return hub.heavierPrefixFrom ours 0 0 path

/-- The next header on the active chain after `join`, if `join` is on it. -/
def nextOnChain (join : Bytes) : Option Bytes :=
  (hub.heightOfHash join).bind fun height => hub.chain[height + 1]?.map (·.hash)

def connectingHashesHeavierDisconnectedN (candidate : Bytes) (walkMax : Nat) :
    Result (Option (List Bytes)) :=
  match hub.tipHash with
  | none => .ok none
  | some tip =>
    if candidate = tip ∨ hub.isConnected candidate then .ok none
    else do
      let path ← hub.headerHashesToBestAncestorN walkMax candidate []
      match path with
      | [] => .ok none
      | first :: _ =>
        match ← parentHashOf hub.recs first with
        | none => .ok (some path)
        | some join =>
          if join = tip ∨ tip ∈ path then .ok none
          else if hub.nextOnChain join = some first then .ok none
          else if !hub.isConnected join ∧ join ≠ zeroHash then .ok none
          else do
            let heavier ← hub.shortestHeavierHeaderPrefix path
            return heavier.map fun _ => path

/-- The first candidate with a heavier branch, all of whose hashes are valid. -/
def selectHeavierPath (invalid : List Bytes) : List Bytes → Result (Option (List Bytes))
  | [] => .ok none
  | cand :: cands =>
    if cand ∈ invalid then selectHeavierPath invalid cands
    else do
      match ← hub.connectingHashesHeavierDisconnectedN cand ancestorWalkMax with
      | none => selectHeavierPath invalid cands
      | some path =>
        if path.any (· ∈ invalid) then selectHeavierPath invalid cands else return some path

def Stored : Prop := ∃ rec, getHeaderByHash hub.recs hash = some rec

/-- A branch off the active chain at `join`, oldest first. -/
structure Branch (join : Bytes) (path : List Bytes) : Prop where
  linked : (join :: path).IsChain (Child hub.recs)
  joined : hub.isConnected join = true
  apart : ∀ h ∈ path, hub.isConnected h = false

def pathWork (path : List Bytes) : Nat := (path.map fun h => (hub.headerWorkOf h).getD 0).sum

def workAbove (join : Bytes) : Nat :=
  ((hub.chain.drop ((hub.heightOfHash join).getD 0 + 1)).map (work ·.bits)).sum

/-- The branch of a candidate: it leaves the active chain below the tip and has more work than the
active chain from there on. -/
def Heavier (cand : Bytes) (path : List Bytes) : Prop :=
  path.getLast? = some cand ∧
    ∃ join, hub.Branch join path ∧ hub.tipHash ≠ some join ∧ hub.workAbove join < hub.pathWork path

variable {hub} {join cand cur : Bytes} {path : List Bytes} {n : Nat} {rec : HeaderRecord}

theorem of_getHeaderByHash {recs : List HeaderRecord}
    (found : getHeaderByHash recs cur = some rec) : rec ∈ recs ∧ rec.hash = cur := by
  have own := find?_some found
  exact ⟨mem_of_find?_eq_some found, eq_of_beq own⟩

theorem find_of_mem (mem : rec ∈ hub.recs) : getHeaderByHash hub.recs rec.hash = some rec := by
  obtain ⟨other, found⟩ : ∃ other, getHeaderByHash hub.recs rec.hash = some other :=
    Option.isSome_iff_exists.mp (find?_isSome.mpr ⟨rec, mem, beq_self_eq_true _⟩)
  obtain ⟨mem', same⟩ := of_getHeaderByHash found
  rw [found, inj_on_of_nodup_map hub.distinct mem' mem same]

theorem isConnected_iff : hub.isConnected cur = true ↔ ∃ rec ∈ hub.chain, rec.hash = cur := by
  rw [isConnected, heightOfHash, findIdx?_isSome]
  simp

theorem stored_of_connected (connected : hub.isConnected cur = true) : hub.Stored cur := by
  obtain ⟨rec, mem, rfl⟩ := isConnected_iff.mp connected
  exact ⟨rec, find_of_mem (hub.stored rec mem)⟩

theorem isConnected_tip {tip : Bytes} (is_tip : hub.tipHash = some tip) :
    hub.isConnected tip = true := by
  obtain ⟨rec, last, rfl⟩ := Option.map_eq_some_iff.mp is_tip
  exact isConnected_iff.mpr ⟨rec, mem_of_getLast? last, rfl⟩

theorem exists_tip (started : hub.chain ≠ []) : ∃ tip, hub.tipHash = some tip :=
  Option.isSome_iff_exists.mp (by simpa [tipHash] using started)

theorem ne_tip {tip : Bytes} (is_tip : hub.tipHash = some tip)
    (off : hub.isConnected cur = false) : cur ≠ tip := by
  rintro rfl
  rw [isConnected_tip is_tip] at off
  cases off

/-- A stored header off the active chain has a parent: only the root has none. -/
theorem exists_parent (started : hub.chain ≠ []) (found : getHeaderByHash hub.recs cur = some rec)
    (apart : hub.isConnected cur = false) :
    ∃ fk parent, rec.prevFk = some fk ∧ hub.recs[fk]? = some parent := by
  obtain ⟨mem, own⟩ := of_getHeaderByHash found
  obtain ⟨i, here⟩ := mem_iff_getElem?.mp mem
  cases link : rec.prevFk with
  | none =>
    have first := hub.root i rec here link
    subst first
    have head := hub.genesis.resolve_left started
    rw [head?_eq_getElem?, head?_eq_getElem?, here] at head
    rw [isConnected_iff.mpr ⟨rec, mem_of_getElem? head, own⟩] at apart
    cases apart
  | some fk =>
    have before := hub.parents i rec fk here link
    have inside : i < hub.recs.length := (List.getElem?_eq_some_iff.mp here).1
    exact ⟨fk, _, rfl, List.getElem?_eq_getElem (before.trans inside)⟩

theorem parentHashOf_of_child {a b : Bytes} (child : Child hub.recs a b) :
    parentHashOf hub.recs b = .ok (some a) := by
  obtain ⟨rec, fk, parent, found, link, here, rfl⟩ := child
  simp only [parentHashOf, found, link, getHeader, here]
  rfl

theorem stored_of_child {a b : Bytes} (child : Child hub.recs a b) : hub.Stored a := by
  obtain ⟨-, fk, parent, -, -, here, rfl⟩ := child
  exact ⟨parent, find_of_mem (mem_of_getElem? here)⟩

theorem walk_step {rec parent : HeaderRecord} {fk : Nat} (apart : hub.isConnected cur = false)
    (found : getHeaderByHash hub.recs cur = some rec) (link : rec.prevFk = some fk)
    (here : hub.recs[fk]? = some parent) :
    hub.headerHashesToBestAncestorN (n + 1) cur path =
      hub.headerHashesToBestAncestorN n parent.hash (cur :: path) := by
  simp [headerHashesToBestAncestorN, apart, found, link, getHeader, here]

theorem Branch.walk (branch : hub.Branch join path) (ends : (join :: path).getLast? = some cur)
    (short : path.length ≤ n) (rest : List Bytes) :
    hub.headerHashesToBestAncestorN n cur rest = .ok (path ++ rest) := by
  induction path using reverseRecOn generalizing cur n rest with
  | nil =>
    obtain rfl : join = cur := Option.some.inj ends
    cases n with
    | zero => rfl
    | succ n => rw [headerHashesToBestAncestorN, if_pos branch.joined, nil_append]
  | append_singleton path last ih =>
    rw [← cons_append, getLast?_concat, Option.some.injEq] at ends
    subst ends
    obtain ⟨linked, -, child⟩ := isChain_append.mp
      (show ((join :: path) ++ [last]).IsChain (Child hub.recs) from branch.linked)
    obtain ⟨before, is_last⟩ : ∃ before, (join :: path).getLast? = some before :=
      Option.isSome_iff_exists.mp (getLast?_isSome.mpr (cons_ne_nil _ _))
    obtain ⟨rec, fk, parent, found, link, here, rfl⟩ := child before is_last last rfl
    obtain ⟨k, rfl⟩ : ∃ k, n = k + 1 := ⟨n - 1, by simp at short; omega⟩
    have shorter : hub.Branch join path :=
      ⟨linked, branch.joined, fun h mem => branch.apart h (mem_append_left _ mem)⟩
    rw [walk_step (branch.apart last (by simp)) found link here,
      ih shorter is_last (by simpa using short), append_assoc]
    rfl

/-- A walk from a stored header gives hashes off the active chain, each with its parent in front. -/
theorem exists_walk (started : hub.chain ≠ []) (n : Nat) (stored : hub.Stored cur)
    (rest : List Bytes) :
    ∃ join path, hub.headerHashesToBestAncestorN n cur rest = .ok (path ++ rest) ∧
      path.length ≤ n ∧ (join :: path).IsChain (Child hub.recs) ∧
      (join :: path).getLast? = some cur ∧ ∀ h ∈ path, hub.isConnected h = false := by
  induction n generalizing cur rest with
  | zero => exact ⟨cur, [], rfl, le_rfl, by simp, rfl, by simp⟩
  | succ n ih =>
    cases connected : hub.isConnected cur with
    | true =>
      refine ⟨cur, [], ?_, Nat.zero_le _, by simp, rfl, by simp⟩
      rw [headerHashesToBestAncestorN, if_pos connected, nil_append]
    | false =>
      obtain ⟨rec, found⟩ := stored
      obtain ⟨fk, parent, link, here⟩ := exists_parent started found connected
      obtain ⟨join, path, walked, short, linked, ends, apart⟩ :=
        ih ⟨parent, find_of_mem (mem_of_getElem? here)⟩ (cur :: rest)
      refine ⟨join, path ++ [cur], ?_, by simpa using short, ?_, ?_, ?_⟩
      · rw [walk_step connected found link here, walked, append_assoc]
        rfl
      · refine isChain_append.mpr ⟨linked, by simp, fun a last b first => ?_⟩
        cases ends.symm.trans last
        cases first
        exact ⟨rec, fk, parent, found, link, here, rfl⟩
      · rw [← cons_append, getLast?_concat]
      · exact forall_mem_append.mpr ⟨apart, forall_mem_singleton.mpr connected⟩

theorem sumWork_eq {works : List Nat} {acc : Nat} (fits : acc + works.sum < 2 ^ 256) :
    sumWork acc works = .ok (acc + works.sum) := by
  induction works generalizing acc with
  | nil => rfl
  | cons w works ih =>
    rw [sum_cons, ← add_assoc] at fits
    rw [sumWork, if_pos (by omega), ih fits, sum_cons, add_assoc]

theorem ourWorkFromLca_eq (join : Bytes) :
    hub.ourWorkFromLca ((hub.heightOfHash join).getD 0) = .ok (hub.workAbove join) := by
  have fits : hub.workAbove join < 2 ^ 256 := by
    have above := hub.fits _ (hub.linked.drop ((hub.heightOfHash join).getD 0 + 1))
    rw [← map_drop, map_map] at above
    refine lt_of_eq_of_lt (congrArg List.sum (map_congr_left fun rec mem => ?_)) above
    rw [Function.comp, find_of_mem (hub.stored rec (mem_of_mem_drop mem))]
    rfl
  rw [ourWorkFromLca, sumWork_eq, zero_add]
  · rfl
  · rwa [zero_add]

/-- Sums of work that fit do not wrap, and the last is the greatest. -/
theorem heavierPrefixFrom_isSome {ours acc i : Nat} (stored : ∀ h ∈ path, hub.Stored h)
    (fits : acc + hub.pathWork path < 2 ^ 256) (not_yet : acc ≤ ours) :
    (hub.heavierPrefixFrom ours i acc path).isSome = decide (ours < acc + hub.pathWork path) := by
  induction path generalizing acc i with
  | nil => simpa [heavierPrefixFrom, pathWork] using not_yet
  | cons h path ih =>
    obtain ⟨⟨rec, found⟩, later⟩ := forall_mem_cons.mp stored
    have first : hub.headerWorkOf h = some (work rec.bits) := by rw [headerWorkOf, found]; rfl
    have total : hub.pathWork (h :: path) = work rec.bits + hub.pathWork path := by
      rw [pathWork, map_cons, first]
      rfl
    rw [total] at fits ⊢
    simp only [heavierPrefixFrom, first]
    rw [Nat.mod_eq_of_lt (by omega)]
    by_cases passed : ours < acc + work rec.bits
    · rw [if_pos passed]
      have more : ours < acc + (work rec.bits + hub.pathWork path) := by omega
      simp [more]
    · rw [if_neg passed, ih later (by omega) (by omega), add_assoc]

theorem stored_of_linked (linked : (join :: path).IsChain (Child hub.recs)) :
    ∀ h ∈ path, hub.Stored h := by
  induction path generalizing join with
  | nil => exact forall_mem_nil _
  | cons first path ih =>
    obtain ⟨child, rest⟩ := isChain_cons_cons.mp linked
    obtain ⟨rec, -, -, found, -⟩ := child
    exact forall_mem_cons.mpr ⟨⟨rec, found⟩, ih rest⟩

theorem Heavier.not_connected (heavier : hub.Heavier cand path) : hub.isConnected cand = false := by
  obtain ⟨ends, join, branch, -⟩ := heavier
  exact branch.apart cand (mem_of_getLast? ends)

theorem Heavier.stored (heavier : hub.Heavier cand path) : hub.Stored cand := by
  obtain ⟨ends, join, branch, -⟩ := heavier
  exact stored_of_linked branch.linked cand (mem_of_getLast? ends)

theorem shortestHeavierHeaderPrefix_eq {first : Bytes}
    (linked : (join :: first :: path).IsChain (Child hub.recs)) :
    ∃ found, hub.shortestHeavierHeaderPrefix (first :: path) = .ok found ∧
      found.isSome = decide (hub.workAbove join < hub.pathWork (first :: path)) := by
  obtain ⟨child, rest⟩ := isChain_cons_cons.mp linked
  have fits : hub.pathWork (first :: path) < 2 ^ 256 := hub.fits _ rest
  have passes := @heavierPrefixFrom_isSome work hub (first :: path) (hub.workAbove join) 0 0
    (stored_of_linked linked) (by rwa [Nat.zero_add]) (Nat.zero_le _)
  refine ⟨_, ?_, by rw [passes, zero_add]⟩
  simp only [shortestHeavierHeaderPrefix, parentHashOf_of_child child, ok_bind,
    ourWorkFromLca_eq join]
  rfl

theorem connecting_walked {tip first : Bytes} (is_tip : hub.tipHash = some tip)
    (off : hub.isConnected cand = false)
    (walked : hub.headerHashesToBestAncestorN n cand [] = .ok (first :: path))
    (linked : (join :: first :: path).IsChain (Child hub.recs))
    (apart : ∀ h ∈ first :: path, hub.isConnected h = false) :
    hub.connectingHashesHeavierDisconnectedN cand n =
      .ok (if join ≠ tip ∧ hub.isConnected join = true ∧
        hub.workAbove join < hub.pathWork (first :: path) then some (first :: path) else none) := by
  have child := (isChain_cons_cons.mp linked).1
  obtain ⟨found, checked, heavier⟩ := shortestHeavierHeaderPrefix_eq linked
  have tip_out : tip ∉ first :: path := fun mem => ne_tip is_tip (apart tip mem) rfl
  have not_next : hub.nextOnChain join ≠ some first := by
    intro next
    obtain ⟨height, -, next⟩ := Option.bind_eq_some_iff.mp next
    obtain ⟨rec, here, rfl⟩ := Option.map_eq_some_iff.mp next
    have on_chain := isConnected_iff.mpr ⟨rec, mem_of_getElem? here, rfl⟩
    rw [apart _ mem_cons_self] at on_chain
    cases on_chain
  have nonzero : join ≠ zeroHash := by
    obtain ⟨rec, found⟩ := stored_of_child child
    obtain ⟨mem, rfl⟩ := of_getHeaderByHash found
    exact hub.nonzero rec mem
  simp only [connectingHashesHeavierDisconnectedN, is_tip, ne_tip is_tip off, off, walked, ok_bind,
    parentHashOf_of_child child, tip_out, not_next, checked]
  by_cases at_tip : join = tip
  · simp [at_tip]
  · cases joined : hub.isConnected join with
    | false => simp [nonzero]
    | true =>
      cases found with
      | none =>
        have lighter : ¬hub.workAbove join < hub.pathWork (first :: path) := by simpa using heavier
        simp [at_tip, lighter]
        rfl
      | some i =>
        have more : hub.workAbove join < hub.pathWork (first :: path) := by simpa using heavier
        simp [at_tip, more]
        rfl

/-- A stored candidate gives its branch, if that is heavier and within the bound. -/
theorem connecting_stored (started : hub.chain ≠ []) (n : Nat) (stored : hub.Stored cand) :
    ∃ found, hub.connectingHashesHeavierDisconnectedN cand n = .ok found ∧
      ∀ path, found = some path ↔ hub.Heavier cand path ∧ path.length ≤ n := by
  obtain ⟨tip, is_tip⟩ := exists_tip started
  cases connected : hub.isConnected cand with
  | true =>
    refine ⟨none, by simp [connectingHashesHeavierDisconnectedN, is_tip, connected], ?_⟩
    intro path
    refine iff_of_false (by simp) fun heavier => ?_
    rw [heavier.1.not_connected] at connected
    cases connected
  | false =>
    obtain ⟨join, path, walked, short, linked, ends, apart⟩ := exists_walk started n stored []
    rw [append_nil] at walked
    -- a branch within the bound is the one that the walk finds
    have only {join' : Bytes} {other : List Bytes} (branch : hub.Branch join' other)
        (ends' : other.getLast? = some cand) (short : other.length ≤ n) : other = path := by
      have again := branch.walk (by rw [getLast?_cons, ends', Option.getD_some]) short []
      rw [walked, append_nil] at again
      exact (Except.ok.inj again).symm
    cases path with
    | nil =>
      refine ⟨none, ?_, fun other => iff_of_false (by simp) ?_⟩
      · simp [connectingHashesHeavierDisconnectedN, is_tip, walked]
      · rintro ⟨⟨ends', join', branch, -⟩, short⟩
        rw [only branch ends' short] at ends'
        cases ends'
    | cons first rest =>
      have child := (isChain_cons_cons.mp linked).1
      refine ⟨_, connecting_walked is_tip connected walked linked apart, fun other => ?_⟩
      rw [Option.ite_none_right_eq_some, Option.some.injEq]
      constructor
      · rintro ⟨⟨not_tip, joined, more⟩, rfl⟩
        refine ⟨⟨?_, join, ⟨linked, joined, apart⟩, ?_, more⟩, short⟩
        · rwa [getLast?_cons_cons] at ends
        · rw [is_tip]
          exact fun same => not_tip (Option.some.inj same).symm
      · rintro ⟨⟨ends', join', branch, not_tip, more⟩, short⟩
        obtain rfl := only branch ends' short
        have parent' := parentHashOf_of_child (isChain_cons_cons.mp branch.linked).1
        rw [parentHashOf_of_child child] at parent'
        obtain rfl := Option.some.inj (Except.ok.inj parent')
        exact ⟨⟨fun same => not_tip (same ▸ is_tip), branch.joined, more⟩, rfl⟩

/-- A candidate without a stored header is returned as a branch. -/
theorem connecting_not_stored (started : hub.chain ≠ []) (n : Nat)
    (missing : getHeaderByHash hub.recs cand = none) :
    hub.connectingHashesHeavierDisconnectedN cand (n + 1) = .ok (some [cand]) := by
  obtain ⟨tip, is_tip⟩ := exists_tip started
  have off : hub.isConnected cand = false := by
    by_contra connected
    obtain ⟨rec, found⟩ := stored_of_connected (Bool.of_not_eq_false connected)
    rw [missing] at found
    cases found
  simp [connectingHashesHeavierDisconnectedN, headerHashesToBestAncestorN, parentHashOf, is_tip,
    ne_tip is_tip off, off, missing]

variable (hub) in
/-- The candidate has a valid heavier branch within the bound of the walk. -/
def Qualifies (invalid : List Bytes) (cand : Bytes) : Prop :=
  ∃ path, hub.Heavier cand path ∧ path.length ≤ ancestorWalkMax ∧ ∀ h ∈ path, h ∉ invalid

variable {invalid cands : List Bytes}

theorem select_passed (started : hub.chain ≠ []) (known : cand ∈ invalid ∨ hub.Stored cand)
    (fails : ¬hub.Qualifies invalid cand) :
    hub.selectHeavierPath invalid (cand :: cands) = hub.selectHeavierPath invalid cands := by
  rw [selectHeavierPath]
  by_cases marked : cand ∈ invalid
  · rw [if_pos marked]
  obtain ⟨found, connecting, branch⟩ :=
    connecting_stored started ancestorWalkMax (known.resolve_left marked)
  rw [if_neg marked, connecting, ok_bind]
  cases found with
  | none => rfl
  | some path =>
    obtain ⟨heavier, short⟩ := (branch path).mp rfl
    have bad : path.any (· ∈ invalid) = true := by
      by_contra valid
      refine fails ⟨path, heavier, short, fun h mem in_invalid => valid ?_⟩
      exact any_eq_true.mpr ⟨h, mem, decide_eq_true in_invalid⟩
    dsimp only
    rw [if_pos bad]

theorem select_qualifies (started : hub.chain ≠ []) (qualifies : hub.Qualifies invalid cand) :
    ∃ path, hub.selectHeavierPath invalid (cand :: cands) = .ok (some path) ∧
      hub.Heavier cand path ∧ ∀ h ∈ path, h ∉ invalid := by
  obtain ⟨path, heavier, short, valid⟩ := qualifies
  have mem := mem_of_getLast? heavier.1
  obtain ⟨found, connecting, same⟩ := connecting_stored started ancestorWalkMax heavier.stored
  have none_bad : path.any (· ∈ invalid) = false := by
    rw [any_eq_false]
    exact fun h mem => by simpa using valid h mem
  refine ⟨path, ?_, heavier, valid⟩
  rw [selectHeavierPath, if_neg (valid cand mem), connecting, (same path).mpr ⟨heavier, short⟩,
    ok_bind]
  dsimp only
  rw [none_bad]
  rfl

theorem select_not_stored (started : hub.chain ≠ []) (unmarked : cand ∉ invalid)
    (missing : ¬hub.Stored cand) :
    hub.selectHeavierPath invalid (cand :: cands) = .ok (some [cand]) := by
  have absent : getHeaderByHash hub.recs cand = none :=
    Option.eq_none_iff_forall_ne_some.mpr fun rec found => missing ⟨rec, found⟩
  rw [selectHeavierPath, ancestorWalkMax, connecting_not_stored started 9999 absent]
  simp [unmarked]
  rfl

/-- A candidate without a header ends the choice, unless one before it qualifies. -/
theorem select_unknown (started : hub.chain ≠ []) {before after : List Bytes}
    (unmarked : cand ∉ invalid) (missing : ¬hub.Stored cand)
    (fail : ∀ c ∈ before, ¬hub.Qualifies invalid c) :
    ∃ c, ¬hub.Stored c ∧
      hub.selectHeavierPath invalid (before ++ cand :: after) = .ok (some [c]) := by
  induction before with
  | nil => exact ⟨cand, missing, select_not_stored started unmarked missing⟩
  | cons d before ih =>
    obtain ⟨fails, fail⟩ := forall_mem_cons.mp fail
    by_cases known : d ∈ invalid ∨ hub.Stored d
    · rw [cons_append, select_passed started known fails]
      exact ih fail
    · obtain ⟨unmarked', missing'⟩ := not_or.mp known
      exact ⟨d, missing', select_not_stored started unmarked' missing'⟩

/-- A valid heavier branch of a candidate is chosen, if there is one within the bound. -/
def ChoosesWell (hub : ChainHub work) (invalid cands : List Bytes) : Prop :=
  ∃ found, hub.selectHeavierPath invalid cands = .ok found ∧
    (∀ path, found = some path →
      ∃ cand ∈ cands, hub.Heavier cand path ∧ ∀ h ∈ path, h ∉ invalid) ∧
    ((∃ cand ∈ cands, hub.Qualifies invalid cand) → found.isSome)

theorem select_known (started : hub.chain ≠ [])
    (known : ∀ before cand after, cands = before ++ cand :: after →
      cand ∈ invalid ∨ hub.Stored cand ∨ ∃ c ∈ before, hub.Qualifies invalid c) :
    hub.ChoosesWell invalid cands := by
  induction cands with
  | nil => exact ⟨none, rfl, by simp, by simp⟩
  | cons cand cands ih =>
    by_cases qualifies : hub.Qualifies invalid cand
    · obtain ⟨path, chosen, branch⟩ := select_qualifies started qualifies
      refine ⟨some path, chosen, ?_, fun _ => rfl⟩
      intro _ same
      cases same
      exact ⟨cand, mem_cons_self, branch⟩
    · have here : cand ∈ invalid ∨ hub.Stored cand := by simpa using known [] cand cands rfl
      have later : hub.ChoosesWell invalid cands := by
        refine ih fun before c after split => ?_
        have among := known (cand :: before) c after (by rw [split, cons_append])
        simpa [qualifies] using among
      obtain ⟨found, chosen, sound, complete⟩ := later
      refine ⟨found, (select_passed started here qualifies).trans chosen, ?_, ?_⟩
      · intro path same
        obtain ⟨c, mem, branch⟩ := sound path same
        exact ⟨c, mem_cons_of_mem _ mem, branch⟩
      · rintro ⟨c, mem, valid⟩
        rcases mem_cons.mp mem with rfl | mem
        · exact absurd valid qualifies
        · exact complete ⟨c, mem, valid⟩

theorem select_of_empty (empty : hub.chain = []) (cands : List Bytes) :
    hub.selectHeavierPath invalid cands = .ok none := by
  induction cands with
  | nil => rfl
  | cons cand cands ih =>
    have no_tip : hub.tipHash = none := by rw [tipHash, empty]; rfl
    simp [selectHeavierPath, connectingHashesHeavierDisconnectedN, no_tip, ih]

theorem Qualifies.started (qualifies : hub.Qualifies invalid cand) : hub.chain ≠ [] := by
  obtain ⟨path, ⟨-, join, branch, -⟩, -⟩ := qualifies
  obtain ⟨rec, mem, -⟩ := isConnected_iff.mp branch.joined
  exact ne_nil_of_mem mem

/-- The path that is chosen is a valid heavier branch of a candidate, and one is chosen if there is
one within the bound of the walk: as long as each candidate without a stored header is marked
invalid or comes after one that qualifies. -/
theorem selectHeavierPath_iff (hub : ChainHub work) (invalid cands : List Bytes) :
    (∃ found, hub.selectHeavierPath invalid cands = .ok found ∧
      (∀ path, found = some path →
        ∃ cand ∈ cands, hub.Heavier cand path ∧ ∀ h ∈ path, h ∉ invalid) ∧
      ((∃ cand ∈ cands, hub.Qualifies invalid cand) → found.isSome)) ↔
    (hub.chain ≠ [] → ∀ before cand after, cands = before ++ cand :: after →
      cand ∈ invalid ∨ hub.Stored cand ∨ ∃ c ∈ before, hub.Qualifies invalid c) := by
  by_cases started : hub.chain = []
  · refine iff_of_true ⟨none, select_of_empty started cands, by simp, ?_⟩ (absurd started)
    rintro ⟨cand, -, qualifies⟩
    exact absurd started qualifies.started
  rw [forall_prop_of_true started]
  refine ⟨?_, select_known started⟩
  rintro ⟨found, chosen, sound, -⟩ before cand after rfl
  by_contra unknown
  obtain ⟨unmarked, missing, none_before⟩ : cand ∉ invalid ∧ ¬hub.Stored cand ∧
      ∀ c ∈ before, ¬hub.Qualifies invalid c := by simpa using unknown
  obtain ⟨c, missing', chosen'⟩ := select_unknown started unmarked missing none_before
  obtain ⟨cand', -, heavier, -⟩ := sound [c] (Except.ok.inj (chosen.symm.trans chosen'))
  cases heavier.1
  exact missing' heavier.stored

def genesisOnly : ChainHub fun _ => 1 where
  recs := [⟨[1], none, 0x1d00ffff⟩]
  distinct := by decide
  nonzero := by decide
  root i rec here _ := by
    have inside := (List.getElem?_eq_some_iff.mp here).1
    simp at inside
    exact inside
  parents i rec fk here link := by
    rw [List.mem_singleton.mp (List.mem_of_getElem? here)] at link
    cases link
  chain := [⟨[1], none, 0x1d00ffff⟩]
  genesis := Or.inr rfl
  stored := by decide
  linked := List.isChain_singleton _
  fits path linked := by
    match path, linked with
    | [], _ => decide
    | [a], _ =>
      have one (found : Option HeaderRecord) : (found.map fun _ => 1).getD 0 < 2 ^ 256 := by
        cases found <;> simp
      exact one _
    | a :: b :: path, linked =>
      obtain ⟨rec, fk, parent, found, link, -⟩ := (List.isChain_cons_cons.mp linked).1
      rw [List.mem_singleton.mp (of_getHeaderByHash found).1] at link
      cases link

/-- A candidate without a stored header is chosen, with no parent on the active chain. -/
theorem not_stored_chosen : genesisOnly.selectHeavierPath [] [[7]] = .ok (some [[7]]) ∧
      ¬∃ join, genesisOnly.Branch join [[7]] := by
  have missing : ¬genesisOnly.Stored [7] := by
    rintro ⟨rec, found⟩
    cases found
  refine ⟨select_not_stored (cons_ne_nil _ _) not_mem_nil missing, ?_⟩
  rintro ⟨join, branch⟩
  exact missing (stored_of_linked branch.linked [7] mem_cons_self)

end ChainHub

end Rbitcoin.Ibd
