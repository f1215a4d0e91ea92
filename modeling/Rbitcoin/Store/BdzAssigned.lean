import Mathlib.Algebra.Order.BigOperators.Group.List
import Rbitcoin.Store.BdzIndex

/-! The BDZ hash with values of its own: the labels of the three vertices of a key add up to the
value that was assigned to the key. -/

namespace Rbitcoin.Store

open Outcome List

/-- The three vertices of a key, moved on where they coincide. -/
def hash3 (key seed : UInt64) (m : Nat) : List Nat :=
  let h := mix64 (key + seed)
  let a := mulHigh h m
  let b := mulHigh (rotateLeft h 21) m
  let c := mulHigh (rotateLeft h 42) m
  let b := if b = a then (b + 1) % m else b
  let c :=
    if c = a ∨ c = b then
      let c := (c + 1) % m
      if c = a ∨ c = b then (c + 1) % m else c
    else c
  [a, b, c]

/-- A hash without ranks, its labels in memory. -/
structure BdzAssigned where
  n : Nat
  m : Nat
  seed : UInt64
  modulus : Nat
  g : List Nat
  deriving DecidableEq, Repr

def plainEdge (keys : List UInt64) (seed : UInt64) (m i : Nat) : List Nat :=
  hash3 (keys.getD i 0) seed m

/-- The labels of a peeled graph, in words of 32 bits. -/
def labelsFrom (verts : Nat → List Nat) (rank : Nat → Nat) (modulus : Nat) :
    List (Nat × Nat) → (Nat → Nat) × (Nat → Bool)
  | [] => (fun _ => 0, fun _ => false)
  | (e, v) :: rest =>
    let (g, assigned) := labelsFrom verts rank modulus rest
    let s := ((verts e).map fun u => if assigned u then g u else 0).sum % 2 ^ 32
    let label := ((rank e + modulus) % 2 ^ 32 + 2 ^ 32 - s % modulus) % 2 ^ 32 % modulus
    (Function.update g v label, Function.update assigned v true)

def assignG (keys : List UInt64) (ranks : List Nat) (seed : UInt64) (m modulus : Nat)
    (order : List (Nat × Nat)) : List Nat :=
  (List.range m).map (labelsFrom (plainEdge keys seed m) (ranks.getD · 0) modulus order).1

namespace BdzAssigned

/-- Vertices for `n` keys: 1.23 each, at least three more than keys. -/
def vertexCount (n : Nat) : Nat := max (max ((n * 123 + 99) / 100) (n + 3)) 3 % 2 ^ 32

def buildFromRanks (keys : List UInt64) (ranks : List Nat) (modulus : Nat) : Result BdzAssigned :=
  let n := keys.length % 2 ^ 32
  if n = 0 then .ok ⟨0, 0, 0, modulus, []⟩
  else if n = 1 then .ok ⟨1, 1, 1, modulus, [ranks.getD 0 0]⟩
  else
    let m := vertexCount n
    let peeled := (triedSeeds maxSeed 0x9e3779b97f4a7c15).findSome? fun seed =>
      (Peel.order (plainEdge keys seed m) keys.length m).map fun order => (seed, order)
    match peeled with
    | none => corrupt "bdz mphf: graph did not peel"
    | some (seed, order) => .ok ⟨n, m, seed, modulus, assignG keys ranks seed m modulus order⟩

/-- Every value is below the modulus and none comes twice. -/
def checkValues (modulus : Nat) : List Nat → List Nat → Result Unit
  | _, [] => .ok ()
  | seen, v :: values =>
    if modulus ≤ v then corrupt "bdz mphf: assigned value"
    else if v ∈ seen then corrupt "bdz mphf: assigned duplicate"
    else checkValues modulus (v :: seen) values

def buildAssigned (keys : List UInt64) (values : List Nat) (modulus : Nat) : Result BdzAssigned :=
  if keys.length ≠ values.length then corrupt "bdz mphf: assigned len"
  else if keys = [] then buildFromRanks keys values modulus
  else if modulus = 0 then corrupt "bdz mphf: assigned modulus"
  else do
    checkValues modulus [] values
    buildFromRanks keys values modulus

def index (h : BdzAssigned) (key : UInt64) : Result Nat :=
  if h.n = 0 then .ok 0
  else if h.n = 1 then .ok (h.g.headD 0)
  else if h.modulus = 0 ∨ h.m = 0 then corrupt "bdz mphf: zero modulus"
  else .ok (((hash3 key h.seed h.m).map (h.g.getD · 0)).sum % 2 ^ 32 % h.modulus)

variable {modulus m : Nat} {values : List Nat} {seed : UInt64} {keys : List UInt64}

theorem checkValues_ok {seen : List Nat} (ok : checkValues modulus seen values = .ok ()) :
    values.Nodup ∧ (∀ v ∈ values, v < modulus) ∧ ∀ v ∈ values, v ∉ seen := by
  induction values generalizing seen with
  | nil => simp
  | cons v values ih =>
    unfold checkValues at ok
    split_ifs at ok with large known
    obtain ⟨nodup, below, fresh⟩ := ih ok
    have apart : v ∉ values := fun mem => fresh v mem mem_cons_self
    exact ⟨nodup_cons.mpr ⟨apart, nodup⟩, forall_mem_cons.mpr ⟨by omega, below⟩,
      forall_mem_cons.mpr ⟨known, fun x mem old => fresh x mem (mem_cons_of_mem _ old)⟩⟩

theorem hash3_length (key seed : UInt64) (m : Nat) : (hash3 key seed m).length = 3 := rfl

theorem hash3_lt {key : UInt64} {v : Nat} (pos : 0 < m) (mem : v ∈ hash3 key seed m) : v < m := by
  have first (h : UInt64) : mulHigh h m < m := by
    have := mulHigh_le h m
    omega
  have next (x : Nat) : (x + 1) % m < m := Nat.mod_lt _ pos
  simp only [hash3, mem_cons, not_mem_nil, or_false] at mem
  rcases mem with rfl | rfl | rfl
  · exact first _
  · split_ifs <;> first | exact next _ | exact first _
  · split_ifs <;> first | exact next _ | exact first _

section Labels

variable {verts : Nat → List Nat} {rank : Nat → Nat} {modulus : Nat}

theorem labelsFrom_eq (three : ∀ e, (verts e).length = 3) (pos : 0 < modulus)
    (word : 3 * modulus ≤ 2 ^ 32) {order : List (Nat × Nat)}
    (below : ∀ x ∈ order, rank x.1 < modulus) :
    labelsFrom verts rank modulus order = Peel.assign verts (fun e _ => rank e) modulus order := by
  induction order with
  | nil => rfl
  | cons x order ih =>
    obtain ⟨e, v⟩ := x
    rw [labelsFrom, Peel.assign, ih (forall_mem_cons.mp below).2]
    have small (u : Nat) :
        (if (Peel.assign verts (fun e _ => rank e) modulus order).2 u then
          (Peel.assign verts (fun e _ => rank e) modulus order).1 u else 0) ≤ modulus - 1 := by
      have := Peel.assign_lt verts (fun e _ => rank e) pos order u
      split_ifs <;> omega
    have total := sum_le_card_nsmul _ _ (forall_mem_map.mpr fun u (_ : u ∈ verts e) => small u)
    rw [length_map, three e, Nat.nsmul_eq_mul] at total
    have fits := below _ mem_cons_self
    simp only at fits ⊢
    generalize ((verts e).map fun u =>
      if (Peel.assign verts (fun e _ => rank e) modulus order).2 u then
        (Peel.assign verts (fun e _ => rank e) modulus order).1 u else 0).sum = s at total ⊢
    have rest := Nat.mod_lt s pos
    have same : ((rank e + modulus) % 2 ^ 32 + 2 ^ 32 - s % 2 ^ 32 % modulus) % 2 ^ 32 =
        rank e + modulus - s % modulus := by
      rw [Nat.mod_eq_of_lt (a := s) (by omega)]
      omega
    rw [same]

end Labels

theorem nodup_of_order {order : List (Nat × Nat)}
    (peeled : Peel.order (plainEdge keys seed m) keys.length m = some order) : keys.Nodup := by
  obtain ⟨perm, peeled⟩ := Peel.order_peeled peeled
  exact Peel.Peeled.keys_nodup (hash3 · seed m) 0 peeled perm

theorem buildFromRanks_cases {ranks : List Nat} {h : BdzAssigned} (two : 2 ≤ keys.length)
    (fits : keys.length < 2 ^ 32) (ok : buildFromRanks keys ranks modulus = .ok h) :
    ∃ seed order, Peel.order (plainEdge keys seed (vertexCount keys.length)) keys.length
        (vertexCount keys.length) = some order ∧
      h = ⟨keys.length, vertexCount keys.length, seed, modulus,
        assignG keys ranks seed (vertexCount keys.length) modulus order⟩ := by
  simp only [buildFromRanks, Nat.mod_eq_of_lt fits] at ok
  rw [if_neg (by omega), if_neg (by omega)] at ok
  split at ok
  · cases ok
  · next seed order found =>
    obtain ⟨_, -, peeled⟩ := exists_of_findSome?_eq_some found
    obtain ⟨_, peeled, same⟩ := Option.map_eq_some_iff.mp peeled
    cases same
    exact ⟨seed, order, peeled, (Except.ok.inj ok).symm⟩

theorem index_member {order : List (Nat × Nat)} (two : 2 ≤ keys.length) (m_pos : 0 < m)
    (lengths : keys.length = values.length) (below : ∀ v ∈ values, v < modulus)
    (word : 3 * modulus ≤ 2 ^ 32)
    (peeled : Peel.order (plainEdge keys seed m) keys.length m = some order) {i : Nat}
    (hi : i < keys.length) :
    (⟨keys.length, m, seed, modulus, assignG keys values seed m modulus order⟩ :
      BdzAssigned).index (keys.getD i 0) = .ok (values.getD i 0) := by
  obtain ⟨perm, peeled⟩ := Peel.order_peeled peeled
  have rank_lt {j : Nat} (hj : j < keys.length) : values.getD j 0 < modulus := by
    rw [getD_eq_getElem _ _ (lengths ▸ hj)]
    exact below _ (getElem_mem _)
  have pos : 0 < modulus := Nat.lt_of_le_of_lt (Nat.zero_le _) (rank_lt hi)
  have edges {x : Nat × Nat} (mem : x ∈ order) : x.1 < keys.length :=
    mem_range.mp (perm.mem_iff.mp (mem_map_of_mem mem))
  have labels : labelsFrom (plainEdge keys seed m) (values.getD · 0) modulus order =
      Peel.assign (plainEdge keys seed m) (fun e _ => values.getD e 0) modulus order :=
    labelsFrom_eq (fun e => hash3_length _ _ _) pos word fun x mem => rank_lt (edges mem)
  obtain ⟨x, mem, named⟩ : ∃ x ∈ order, x.1 = i :=
    mem_map.mp (perm.mem_iff.mpr (mem_range.mpr hi))
  have sum : ((plainEdge keys seed m x.1).map (Peel.assign (plainEdge keys seed m)
      (fun e _ => values.getD e 0) modulus order).1).sum % modulus = values.getD x.1 0 % modulus :=
    Peel.assign_sum pos peeled x mem
  rw [named] at sum
  have read :
      (hash3 (keys.getD i 0) seed m).map ((assignG keys values seed m modulus order).getD · 0)
      = (plainEdge keys seed m i).map (Peel.assign (plainEdge keys seed m)
          (fun e _ => values.getD e 0) modulus order).1 := by
    refine map_congr_left fun u hu => ?_
    have inside := hash3_lt m_pos hu
    rw [assignG, labels, getD_eq_getElem _ _ (by simpa using inside), getElem_map, getElem_range]
  have total := sum_le_card_nsmul _ _ (forall_mem_map.mpr
    fun u (_ : u ∈ plainEdge keys seed m i) => Nat.le_sub_one_of_lt
      (Peel.assign_lt (plainEdge keys seed m) (fun e _ => values.getD e 0) pos order u))
  rw [length_map, plainEdge, hash3_length, ← plainEdge, Nat.nsmul_eq_mul] at total
  simp only [index, read]
  rw [if_neg (by omega), if_neg (by omega), if_neg (by omega), Nat.mod_eq_of_lt (b := 2 ^ 32)
    (by omega)]
  rw [sum, Nat.mod_eq_of_lt (rank_lt hi)]

/-- A build that succeeds gives every key its value. With two keys or more it succeeds only if they
are distinct. -/
theorem buildAssigned_index :
    (∀ (keys : List UInt64) (values : List Nat) (modulus : Nat) (h : BdzAssigned),
      keys.Nodup → values.Nodup → (∀ v ∈ values, v < modulus) → 3 * modulus ≤ 2 ^ 32 →
      buildAssigned keys values modulus = .ok h →
        ∀ (i : Nat) (key : UInt64) (value : Nat), keys[i]? = some key → values[i]? = some value →
          h.index key = .ok value) ∧
    ∀ (keys : List UInt64) (values : List Nat) (modulus : Nat), modulus < 2 ^ 32 →
      2 ≤ keys.length → ¬keys.Nodup → ¬Accepts (buildAssigned keys values modulus) := by
  constructor
  · intro keys values modulus h _ nodup below word ok i key value at_key at_value
    obtain ⟨hi, rfl⟩ := List.getElem?_eq_some_iff.mp at_key
    obtain ⟨hv, rfl⟩ := List.getElem?_eq_some_iff.mp at_value
    unfold buildAssigned at ok
    split_ifs at ok with lengths empty zero
    · subst empty
      cases hi
    · rw [not_not] at lengths
      obtain ⟨_, -, ok⟩ := bind_eq_ok.mp ok
      have length := Peel.length_le_of_nodup nodup below
      have fits : keys.length < 2 ^ 32 := by omega
      by_cases one : keys.length = 1
      · have first : i = 0 := by omega
        subst first
        simp only [buildFromRanks, one] at ok
        cases ok
        simp only [getD_eq_getElem _ _ hv]
        rfl
      · obtain ⟨seed, order, peeled, rfl⟩ := buildFromRanks_cases (by omega) fits ok
        have m_pos : 0 < vertexCount keys.length := by
          unfold vertexCount
          omega
        have member := index_member (by omega) m_pos lengths below word peeled hi
        rwa [getD_eq_getElem _ _ hi, getD_eq_getElem _ _ hv] at member
  · rintro keys values modulus word two twice ⟨h, ok⟩
    unfold buildAssigned at ok
    split_ifs at ok with lengths empty zero
    · subst empty
      cases two
    · obtain ⟨_, checked, ok⟩ := bind_eq_ok.mp ok
      obtain ⟨nodup, below, -⟩ := checkValues_ok checked
      have length := Peel.length_le_of_nodup nodup below
      obtain ⟨seed, order, peeled, -⟩ := buildFromRanks_cases two (by omega) ok
      exact twice (nodup_of_order peeled)

/-- Two keys with values below five, and two equal keys. -/
theorem buildAssigned_index_two :
    (∃ h, buildAssigned [7, 8] [3, 0] 5 = .ok h ∧ h.index 7 = .ok 3 ∧ h.index 8 = .ok 0) ∧
      ¬Accepts (buildAssigned [7, 7] [3, 0] 5) := by
  have built : Accepts (buildAssigned [7, 8] [3, 0] 5) := by decide +kernel
  obtain ⟨h, ok⟩ := built
  have member := buildAssigned_index.1 [7, 8] [3, 0] 5 h (by decide) (by decide) (by decide)
    (by decide) ok
  exact ⟨⟨h, ok, member 0 7 3 rfl rfl, member 1 8 0 rfl rfl⟩,
    buildAssigned_index.2 [7, 7] [3, 0] 5 (by decide) (by decide) (by decide)⟩

end BdzAssigned

end Rbitcoin.Store
