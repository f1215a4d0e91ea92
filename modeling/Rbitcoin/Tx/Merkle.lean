import Mathlib.Data.Nat.Bitwise
import Rbitcoin.Tx.Block

/-! Merkle trees. The branch of a leaf folds to the root of its list, and the branch of the first
leaf is that of every list with the same other leaves. Two lists whose trees have no collision have
one root only if one of them is mutated. -/

namespace Rbitcoin.Tx.Encoding

open List Function Loop

variable (E : Encoding)

def merkleRootFromTxids (leaves : List Bytes) : Bytes := (E.merkleRootMutated leaves).1

/-- A turn of the loop of `merkle_branch`, over the branch, the level and the index. -/
def branchTurn (s : List Bytes × List Bytes × Nat) :
    List Bytes ⊕ (List Bytes × List Bytes × Nat) :=
  if 1 < s.2.1.length then
    let sibling := min (s.2.2 ^^^ 1) (s.2.1.length - 1)
    .inr (s.1 ++ [s.2.1.getD sibling []], E.merkleParentLevel s.2.1, s.2.2 / 2)
  else .inl s.1

def merkleBranch (leaves : List Bytes) (index : Nat) : List Bytes :=
  (run E.branchTurn (leaves.length + 1) ([], leaves, index)).getD []

def merkleRootFromBranch (leaf : Bytes) (branch : List Bytes) (index : Nat) : Bytes :=
  branch.zipIdx.foldl (fun acc step =>
    if (index >>> step.2) &&& 1 = 0 then E.hash256Concat acc step.1
    else E.hash256Concat step.1 acc) leaf

/-- The root is reached after `d` turns. -/
structure Height (leaves : List Bytes) (d : Nat) : Prop where
  more : ∀ k < d, 1 < (E.merkleParentLevel^[k] leaves).length
  top : (E.merkleParentLevel^[d] leaves).length = 1

/-- A level that the loop takes for mutated. -/
def Doubled (level : List Bytes) : Prop := ∃ pair ∈ chunksExact2 level, pair.1 = pair.2

variable {E} {leaves : List Bytes} {d : Nat}

theorem Height.parent (height : E.Height leaves (d + 1)) :
    E.Height (E.merkleParentLevel leaves) d where
  more k below := height.more (k + 1) (Nat.succ_lt_succ below)
  top := height.top

variable (E) in
theorem exists_height (some_leaf : leaves ≠ []) : ∃ d, E.Height leaves d := by
  induction size : leaves.length using Nat.strong_induction_on generalizing leaves with
  | _ n ih =>
    subst size
    have pos := length_pos_iff.mpr some_leaf
    by_cases one : leaves.length = 1
    · exact ⟨0, nofun, one⟩
    · have length := E.merkleParentLevel_length leaves
      have some_parent : E.merkleParentLevel leaves ≠ [] := by
        apply length_pos_iff.mp
        omega
      obtain ⟨d, height⟩ := ih _ (by omega) some_parent rfl
      have more : 1 < leaves.length := by omega
      exact ⟨d + 1, Nat.forall_lt_succ_left.mpr ⟨more, height.more⟩, height.top⟩

theorem Height.ends {f : Bool} {r : Bytes × Bool} (height : E.Height leaves d)
    (ends : Loop.Ends E.merkleTurn (f, leaves) r) :
    r.1 = (E.merkleParentLevel^[d] leaves).headD [] ∧
      (r.2 = false ↔ f = false ∧ ∀ k < d, ¬Doubled (E.merkleParentLevel^[k] leaves)) := by
  induction d generalizing leaves f with
  | zero =>
    have one : leaves.length = 1 := height.top
    have result := ends.last (if_neg (by simp [one]))
    rw [← result]
    simp
  | succ d ih =>
    have more : 1 < leaves.length := height.more 0 (Nat.succ_pos d)
    obtain ⟨root, flag⟩ := ih height.parent (ends.next (if_pos more))
    refine ⟨root, flag.trans ?_⟩
    have doubled : ((chunksExact2 leaves).any fun pair => pair.1 == pair.2) = false ↔
        ¬Doubled leaves := by
      simp only [Doubled, any_eq_false, beq_iff_eq, not_exists, not_and]
    rw [Bool.or_eq_false_iff, doubled, and_assoc]
    exact and_congr_right fun _ =>
      (Nat.forall_lt_succ_left (p := fun k => ¬Doubled (E.merkleParentLevel^[k] leaves))).symm

theorem Height.root (height : E.Height leaves d) :
    E.merkleRootFromTxids leaves = (E.merkleParentLevel^[d] leaves).headD [] ∧
      ((E.merkleRootMutated leaves).2 = false ↔
        ∀ k < d, ¬Doubled (E.merkleParentLevel^[k] leaves)) := by
  have some_leaf : leaves ≠ [] := by
    rintro rfl
    have empty (k : Nat) : E.merkleParentLevel^[k] [] = [] := iterate_fixed rfl k
    have top := height.top
    rw [empty] at top
    cases top
  obtain ⟨root, flag⟩ := height.ends ⟨_, E.merkleRootMutated_run some_leaf⟩
  exact ⟨root, flag.trans (and_iff_right rfl)⟩

variable (E) in
theorem merkleParentLevel_getD {level : List Bytes} {j : Nat} (inside : 2 * j < level.length) :
    (E.merkleParentLevel level).getD j [] = E.hash256Concat (level.getD (2 * j) [])
        (level.getD (min (2 * j + 1) (level.length - 1)) []) := by
  unfold merkleParentLevel
  fun_induction chunksExact2 level generalizing j with
  | case1 a b rest ih =>
    rw [padded_cons_cons, chunksExact2, map_cons]
    cases j with
    | zero => simp
    | succ j =>
      have inside' : 2 * j < rest.length := by
        simp only [length_cons] at inside
        omega
      have first : 2 * (j + 1) = 2 * j + 2 := by omega
      have second : min (2 * (j + 1) + 1) ((a :: b :: rest).length - 1) =
          min (2 * j + 1) (rest.length - 1) + 2 := by
        simp only [length_cons]
        omega
      rw [second, first]
      simpa using ih inside'
  | case2 l short =>
    match l with
    | [] => cases inside
    | [a] =>
      obtain rfl : j = 0 := by simpa using inside
      rfl
    | a :: b :: rest => exact absurd rfl (short a b rest)

variable (E) in
theorem merkleRootFromBranch_cons (leaf sibling : Bytes) (branch : List Bytes) (index : Nat) :
    E.merkleRootFromBranch leaf (sibling :: branch) index =
      E.merkleRootFromBranch (if index % 2 = 0 then E.hash256Concat leaf sibling
        else E.hash256Concat sibling leaf) branch (index / 2) := by
  have deeper (depth : Nat) : index >>> (depth + 1) = (index / 2) >>> depth := by
    rw [add_comm, Nat.shiftRight_add, Nat.shiftRight_one]
  unfold merkleRootFromBranch
  rw [zipIdx_cons, foldl_cons, Nat.shiftRight_zero, Nat.and_one_is_mod, zero_add,
    zipIdx_eq_map_add, foldl_map]
  simp only [add_comm 1, deeper]

variable (E) in
theorem hash_sibling {level : List Bytes} {i : Nat} (inside : i < level.length) :
    let sibling := level.getD (min (i ^^^ 1) (level.length - 1)) []
    (if i % 2 = 0 then E.hash256Concat (level.getD i []) sibling
      else E.hash256Concat sibling (level.getD i [])) =
        (E.merkleParentLevel level).getD (i / 2) [] := by
  intro sibling
  rw [merkleParentLevel_getD E (by omega)]
  split_ifs with even
  · have left : 2 * (i / 2) = i := by omega
    rw [left, ← Nat.xor_one_of_even (Nat.even_iff.mpr even)]
  · have odd : i % 2 = 1 := by omega
    have right : min (2 * (i / 2) + 1) (level.length - 1) = i := by omega
    have left : min (i ^^^ 1) (level.length - 1) = 2 * (i / 2) := by
      rw [Nat.xor_one_of_odd (Nat.odd_iff.mpr odd)]
      omega
    rw [right, ← left]

theorem Height.branch {b r : List Bytes} {i : Nat} (height : E.Height leaves d)
    (inside : i < leaves.length) (ends : Loop.Ends E.branchTurn (b, leaves, i) r) :
    ∃ branch, r = b ++ branch ∧ E.merkleRootFromBranch (leaves.getD i []) branch i =
      (E.merkleParentLevel^[d] leaves).headD [] := by
  induction d generalizing leaves b i with
  | zero =>
    have one : leaves.length = 1 := height.top
    have result := ends.last (if_neg (by simp [one]))
    obtain rfl : i = 0 := by omega
    obtain ⟨leaf, rfl⟩ := length_eq_one_iff.mp one
    exact ⟨[], by rw [← result, append_nil], rfl⟩
  | succ d ih =>
    have more : 1 < leaves.length := height.more 0 (Nat.succ_pos d)
    have inside' : i / 2 < (E.merkleParentLevel leaves).length := by
      rw [merkleParentLevel_length]
      omega
    obtain ⟨branch, rfl, root⟩ := ih height.parent inside' (ends.next (if_pos more))
    refine ⟨_ :: branch, append_assoc .., ?_⟩
    rw [merkleRootFromBranch_cons, hash_sibling E inside, root]
    rfl

variable (E) in
theorem merkleBranch_ends (leaves : List Bytes) (i : Nat) :
    Loop.Ends E.branchTurn ([], leaves, i) (E.merkleBranch leaves i) := by
  have turns (s t : List Bytes × List Bytes × Nat) (_ : True) (goes_on : E.branchTurn s = .inr t) :
      True ∧ t.2.1.length < s.2.1.length := by
    unfold branchTurn at goes_on
    split_ifs at goes_on with more
    rw [← Sum.inr.inj goes_on, merkleParentLevel_length]
    exact ⟨trivial, by omega⟩
  have enough : (([], leaves, i) : List Bytes × List Bytes × Nat).2.1.length < leaves.length + 1 :=
    Nat.lt_succ_self leaves.length
  obtain ⟨r, ran⟩ := run_ends turns trivial enough
  refine ⟨leaves.length + 1, ?_⟩
  rw [merkleBranch, ran, Option.getD_some]

variable (E) in
theorem branch_run_first (n : Nat) (b rest : List Bytes) (leaf leaf' : Bytes) :
    run E.branchTurn n (b, leaf :: rest, 0) =
      run E.branchTurn n (b, leaf' :: rest, 0) := by
  induction n generalizing b rest leaf leaf' with
  | zero => rfl
  | succ n ih =>
    cases rest with
    | nil => rfl
    | cons next rest =>
      have turn (leaf : Bytes) : E.branchTurn (b, leaf :: next :: rest, 0) =
          .inr (b ++ [next], E.hash256Concat leaf next :: E.merkleParentLevel rest, 0) := by
        unfold branchTurn
        rw [if_pos (by simp)]
        simp [merkleParentLevel, padded_cons_cons, chunksExact2]
      rw [run_of_inr (turn leaf), run_of_inr (turn leaf')]
      exact ih ..

/-- The branch of every leaf leads to the root, and that of the first one is not made of it. -/
theorem merkleBranch_root (E : Encoding) (leaves : List Bytes) (i : Nat)
    (inside : i < leaves.length) :
    E.merkleRootFromBranch leaves[i] (E.merkleBranch leaves i) i = E.merkleRootFromTxids leaves ∧
      ∀ leaf, E.merkleBranch (leaves.set 0 leaf) 0 = E.merkleBranch leaves 0 := by
  have some_leaf : leaves ≠ [] := ne_nil_of_length_pos (Nat.zero_lt_of_lt inside)
  constructor
  · obtain ⟨d, height⟩ := exists_height E some_leaf
    obtain ⟨branch, same, root⟩ := height.branch inside (merkleBranch_ends E leaves i)
    rw [same, height.root.1, ← root, nil_append, getD_eq_getElem _ _ inside]
  · intro leaf
    cases leaves with
    | nil => exact absurd rfl some_leaf
    | cons first rest =>
      rw [set_cons_zero, merkleBranch, merkleBranch, length_cons, length_cons, branch_run_first]

/-- A hash that keeps its input. -/
def plain : Encoding := .standard id id

theorem merkleBranch_root_last :
    plain.merkleRootFromBranch [3] (plain.merkleBranch [[1], [2], [3]] 2) 2 =
      plain.merkleRootFromTxids [[1], [2], [3]] :=
  (merkleBranch_root plain [[1], [2], [3]] 2 (by decide)).1

/-! ### Lists with one root -/

def nodeHash (E : Encoding) (pair : Bytes × Bytes) : Bytes := E.hash256Concat pair.1 pair.2

/-- The pairs that are hashed on the way to the root. -/
def treePairs (E : Encoding) (leaves : List Bytes) : Set (Bytes × Bytes) :=
  {pair | ∃ k, 1 < (E.merkleParentLevel^[k] leaves).length ∧
    pair ∈ chunksExact2 (padded (E.merkleParentLevel^[k] leaves))}

variable {a b : List Bytes}

theorem merkleParentLevel_cons_cons (x y : Bytes) (rest : List Bytes) :
    E.merkleParentLevel (x :: y :: rest) = E.nodeHash (x, y) :: E.merkleParentLevel rest := by
  rw [merkleParentLevel, padded_cons_cons, chunksExact2]
  rfl

theorem merkleParentLevel_eq_nil (none : E.merkleParentLevel a = []) : a = [] := by
  have length := E.merkleParentLevel_length a
  rw [none, length_nil] at length
  exact length_eq_zero_iff.mp (by omega)

theorem Doubled.of_tail {x y : Bytes} {rest : List Bytes} (doubled : Doubled rest) :
    Doubled (x :: y :: rest) := by
  obtain ⟨pair, mem, same⟩ := doubled
  exact ⟨pair, mem_cons_of_mem _ mem, same⟩

/-- A last hash that was taken twice is one that is there twice in a longer level. -/
theorem doubled_of_single {x : Bytes}
    (injective : Set.InjOn E.nodeHash
      ({pair | pair ∈ chunksExact2 (padded [x])} ∪ {pair | pair ∈ chunksExact2 (padded b)}))
    (same : E.merkleParentLevel [x] = E.merkleParentLevel b) : b = [x] ∨ Doubled b := by
  have here : (x, x) ∈ chunksExact2 (padded [x]) := mem_cons_self
  match b with
  | [] => cases same
  | [z] =>
    have node : E.nodeHash (x, x) = E.nodeHash (z, z) := (cons.inj same).1
    cases injective (.inl here) (.inr (mem_cons_self (l := []))) node
    exact .inl rfl
  | z :: w :: rest =>
    rw [merkleParentLevel_cons_cons] at same
    obtain ⟨node, -⟩ := cons.inj same
    have there : (z, w) ∈ chunksExact2 (padded (z :: w :: rest)) := by
      rw [padded_cons_cons]
      exact mem_cons_self
    cases injective (.inl here) (.inr there) node
    exact .inr ⟨(x, x), mem_cons_self, rfl⟩

theorem eq_of_parent
    (injective : Set.InjOn E.nodeHash
      ({pair | pair ∈ chunksExact2 (padded a)} ∪ {pair | pair ∈ chunksExact2 (padded b)}))
    (same : E.merkleParentLevel a = E.merkleParentLevel b) (clean : ¬Doubled a)
    (clean' : ¬Doubled b) : a = b := by
  fun_induction chunksExact2 a generalizing b with
  | case1 x y rest ih =>
    rcases b with _ | ⟨z, _ | ⟨w, rest'⟩⟩
    · cases merkleParentLevel_eq_nil same
    · rw [Set.union_comm] at injective
      exact ((doubled_of_single injective same.symm).resolve_right clean)
    · simp only [padded_cons_cons] at injective
      rw [merkleParentLevel_cons_cons, merkleParentLevel_cons_cons] at same
      obtain ⟨node, others⟩ := cons.inj same
      cases injective (.inl mem_cons_self) (.inr mem_cons_self) node
      have tails : rest = rest' := by
        apply ih _ others (fun again => clean again.of_tail) (fun again => clean' again.of_tail)
        exact injective.mono (Set.union_subset_union (fun _ => mem_cons_of_mem _)
          (fun _ => mem_cons_of_mem _))
      rw [tails]
  | case2 l short =>
    rcases l with _ | ⟨x, _ | ⟨y, rest⟩⟩
    · exact (merkleParentLevel_eq_nil same.symm).symm
    · exact ((doubled_of_single injective same).resolve_right clean').symm
    · exact absurd rfl (short x y rest)

theorem Height.descend {e : Nat} (height : E.Height a d) (height' : E.Height b (d + e))
    (injective : Set.InjOn E.nodeHash (E.treePairs a ∪ E.treePairs b))
    (clean : ∀ k < d, ¬Doubled (E.merkleParentLevel^[k] a))
    (clean' : ∀ k < d + e, ¬Doubled (E.merkleParentLevel^[k] b))
    (root : (E.merkleParentLevel^[d] a).headD [] = (E.merkleParentLevel^[d + e] b).headD []) :
    a = E.merkleParentLevel^[e] b := by
  induction d generalizing a e with
  | zero =>
    obtain ⟨x, one⟩ := length_eq_one_iff.mp height.top
    obtain ⟨y, one'⟩ := length_eq_one_iff.mp height'.top
    rw [zero_add] at one' root
    rw [one, one'] at root
    have same : x = y := root
    rw [one', ← same]
    exact one
  | succ d ih =>
    -- one level up `b` is `e + 1` levels under `a`
    have shift : d + (e + 1) = d + 1 + e := by omega
    have parents : E.merkleParentLevel a = E.merkleParentLevel (E.merkleParentLevel^[e] b) := by
      rw [← iterate_succ_apply' E.merkleParentLevel]
      apply ih height.parent (shift ▸ height')
      · refine injective.mono (Set.union_subset_union_left _ ?_)
        rintro pair ⟨k, long, mem⟩
        exact ⟨k + 1, long, mem⟩
      · exact fun k below => clean (k + 1) (Nat.succ_lt_succ below)
      · exact shift ▸ clean'
      · rw [shift]
        exact root
    refine eq_of_parent (injective.mono ?_) parents (clean 0 (Nat.succ_pos d)) (clean' e (by omega))
    refine Set.union_subset_union (fun pair mem => ⟨0, height.more 0 (Nat.succ_pos d), mem⟩) ?_
    exact fun pair mem => ⟨e, height'.more e (by omega), mem⟩

theorem eq_of_height_le {d' : Nat} (height : E.Height a d) (height' : E.Height b d') (le : d ≤ d')
    (injective : Set.InjOn E.nodeHash (E.treePairs a ∪ E.treePairs b))
    (apart : ∀ leaf ∈ a, ∀ pair ∈ E.treePairs b, leaf ≠ E.nodeHash pair)
    (clean : (E.merkleRootMutated a).2 = false) (clean' : (E.merkleRootMutated b).2 = false)
    (root : E.merkleRootFromTxids a = E.merkleRootFromTxids b) : a = b := by
  obtain ⟨e, rfl⟩ := Nat.exists_eq_add_of_le le
  rw [height.root.1, height'.root.1] at root
  have same := height.descend height' injective (height.root.2.mp clean)
    (height'.root.2.mp clean') root
  cases e with
  | zero => exact same
  | succ e =>
    -- the leaves of `a` would be nodes of the tree of `b`
    rw [iterate_succ_apply'] at same
    have long := height'.more e (by omega)
    match level : E.merkleParentLevel^[e] b with
    | [] => simp [level] at long
    | [_] => simp [level] at long
    | x :: y :: rest =>
      rw [level, merkleParentLevel_cons_cons] at same
      have node : (x, y) ∈ E.treePairs b := by
        refine ⟨e, long, ?_⟩
        rw [level, padded_cons_cons]
        exact mem_cons_self
      exact absurd rfl (apart _ (same ▸ mem_cons_self) (x, y) node)

/-- Two lists of leaves without mutation have the same root only if they are the same, unless the
node hash has a collision among the pairs of the two trees or a leaf is a node. -/
theorem leaves_eq_of_root (E : Encoding) (a b : List Bytes) (some_leaf : a ≠ [])
    (some_leaf' : b ≠ [])
    (injective : Set.InjOn E.nodeHash (E.treePairs a ∪ E.treePairs b))
    (apart : ∀ leaf ∈ a ++ b, ∀ pair ∈ E.treePairs a ∪ E.treePairs b, leaf ≠ E.nodeHash pair)
    (clean : (E.merkleRootMutated a).2 = false) (clean' : (E.merkleRootMutated b).2 = false)
    (root : E.merkleRootFromTxids a = E.merkleRootFromTxids b) : a = b := by
  obtain ⟨d, height⟩ := exists_height E some_leaf
  obtain ⟨d', height'⟩ := exists_height E some_leaf'
  rcases le_total d d' with le | le
  · refine eq_of_height_le height height' le injective (fun leaf mem pair node => ?_) clean clean'
      root
    exact apart leaf (mem_append_left _ mem) pair (.inr node)
  · rw [Set.union_comm] at injective
    refine (eq_of_height_le height' height le injective (fun leaf mem pair node => ?_) clean' clean
      root.symm).symm
    exact apart leaf (mem_append_right _ mem) pair (.inl node)

theorem treePairs_single (leaf : Bytes) : E.treePairs [leaf] = ∅ := by
  have single (k : Nat) : (E.merkleParentLevel^[k] [leaf]).length = 1 := by
    induction k with
    | zero => rfl
    | succ k ih => rw [iterate_succ_apply', merkleParentLevel_length, ih]
  refine Set.eq_empty_of_forall_notMem fun pair ⟨k, long, _⟩ => ?_
  rw [single] at long
  omega

theorem treePairs_pair (x y : Bytes) : E.treePairs [x, y] = {(x, y)} := by
  have pairs : chunksExact2 (padded [x, y]) = [(x, y)] := by
    rw [padded_cons_cons]
    rfl
  have up : E.merkleParentLevel [x, y] = [E.nodeHash (x, y)] := merkleParentLevel_cons_cons x y []
  ext pair
  constructor
  · rintro ⟨k, long, mem⟩
    cases k with
    | zero =>
      rw [iterate_zero_apply, pairs] at mem
      exact mem_singleton.mp mem
    | succ k =>
      rw [iterate_succ_apply, up] at long mem
      have none : pair ∈ E.treePairs [E.nodeHash (x, y)] := ⟨k, long, mem⟩
      rw [treePairs_single] at none
      exact none.elim
  · rintro rfl
    refine ⟨0, Nat.one_lt_two, ?_⟩
    rw [iterate_zero_apply, pairs]
    exact mem_cons_self

theorem leaves_eq_of_root_pair : [[1], [2]] = ([[1], [2]] : List Bytes) := by
  refine leaves_eq_of_root plain _ _ nofun nofun ?_ ?_ (by decide) (by decide) rfl
  · rw [treePairs_pair, Set.union_self]
    exact Set.injOn_singleton ..
  · rw [treePairs_pair, Set.union_self]
    rintro leaf mem pair rfl
    revert leaf
    decide

/-- No leaf at all has the root of one leaf of zeros. -/
theorem empty_root_zero : plain.treePairs [] ∪ plain.treePairs [List.replicate 32 0] = ∅ ∧
    (plain.merkleRootMutated []).2 = false ∧
    (plain.merkleRootMutated [List.replicate 32 0]).2 = false ∧
    plain.merkleRootFromTxids [] = plain.merkleRootFromTxids [List.replicate 32 0] ∧
    ([] : List Bytes) ≠ [List.replicate 32 0] := by
  refine ⟨?_, by decide⟩
  have none : plain.treePairs [] = ∅ := by
    refine Set.eq_empty_of_forall_notMem fun pair ⟨k, long, _⟩ => ?_
    rw [iterate_fixed rfl] at long
    cases long
  rw [none, treePairs_single, Set.union_self]

end Rbitcoin.Tx.Encoding
