import Mathlib.Tactic.Linarith
import Rbitcoin.Mempool.PoolRun

/-! Replacement over whole runs. Two rules admit a replacement, one by total fee and one by the rate
of the direct conflicts together. For a replacement of one childless transaction both mean a higher
rate, and then no transactions can replace each other in a circle. In general the two rules measure
different things, and a circle exists. -/

namespace Rbitcoin.Mempool

open Ordered Relation List Option

def maxMoney : Nat := 21 * 10 ^ 14

/-- What a transaction pays and its size. Its wtxid fixes its bytes and the coins it spends. -/
structure Worth where
  fee : Wtxid → Nat
  weight : Wtxid → Nat
  sigopCost : Wtxid → Nat
  fee_le : ∀ w, fee w ≤ maxMoney
  weight_le : ∀ w, weight w ≤ u64Max

namespace Worth

variable (worth : Worth) (bytesPerSigop : Nat) (w : Wtxid)

def adjusted : Nat :=
  sigopsAdjustedWeight (worth.weight w) (worth.sigopCost w) bytesPerSigop

/-- The values are those of the transaction. -/
def Of (fee weight sigopCost : Nat) : Prop :=
  fee = worth.fee w ∧ weight = worth.weight w ∧ sigopCost = worth.sigopCost w

def rate : ℚ := worth.fee w / vbytesCeil (worth.adjusted bytesPerSigop w)

theorem adjusted_le : worth.adjusted bytesPerSigop w ≤ u64Max := by
  have small := worth.weight_le w
  unfold adjusted sigopsAdjustedWeight satMul
  omega

end Worth

theorem rbfPaysForReplacement_rate {newFee newWeight oldFee oldWeight : Nat}
    (pays : rbfPaysForReplacement newFee newWeight oldFee oldWeight = true) :
    vbytesCeil newWeight ≠ 0 ∧ vbytesCeil oldWeight ≠ 0 ∧
      oldFee * vbytesCeil newWeight < newFee * vbytesCeil oldWeight := by
  simp only [rbfPaysForReplacement, Bool.and_eq_true, decide_eq_true_eq] at pays
  exact ⟨pays.1.1.1.2, pays.1.1.2, pays.1.2⟩

theorem vbytesCeil_le (weight : Nat) : vbytesCeil weight ≤ 2 ^ 62 := by
  unfold vbytesCeil u64Max
  split_ifs <;> omega

/-- Fees that exist do not wrap the products. -/
theorem rbfr_product_small {fee ratio weight : Nat} (money : fee ≤ maxMoney) (small : ratio ≤ 5) :
    fee * ratio * vbytesCeil weight < 2 ^ 128 := by
  calc fee * ratio * vbytesCeil weight
      ≤ maxMoney * 5 * 2 ^ 62 :=
        Nat.mul_le_mul (Nat.mul_le_mul money small) (vbytesCeil_le weight)
    _ < 2 ^ 128 := by decide

theorem pureRbfrPays_rate {newFee newWeight directFee directWeight : Nat}
    (pays : pureRbfrPays newFee newWeight directFee directWeight = true)
    (paid : newFee ≠ 0 ∨ directFee ≠ 0) (money : newFee ≤ maxMoney ∧ directFee ≤ maxMoney) :
    vbytesCeil newWeight ≠ 0 ∧ vbytesCeil directWeight ≠ 0 ∧
      directFee * vbytesCeil newWeight < newFee * vbytesCeil directWeight := by
  simp only [pureRbfrPays, rbfrRatioNum, rbfrRatioDen, Bool.and_eq_true, decide_eq_true_eq] at pays
  obtain ⟨⟨newV, oldV⟩, ratio⟩ := pays
  refine ⟨newV, oldV, ?_⟩
  have ratio := of_decide_eq_true ratio
  rw [Nat.mod_eq_of_lt (rbfr_product_small money.1 (by decide)),
    Nat.mod_eq_of_lt (rbfr_product_small money.2 (by decide))] at ratio
  have scaled : 5 * (directFee * vbytesCeil newWeight) ≤
      4 * (newFee * vbytesCeil directWeight) := by
    linarith
  by_cases free : directFee = 0
  · have positive : newFee * vbytesCeil directWeight ≠ 0 :=
      Nat.mul_ne_zero (paid.resolve_right (not_not.mpr free)) oldV
    rw [free, zero_mul]
    exact pos_of_ne_zero positive
  · have positive : directFee * vbytesCeil newWeight ≠ 0 := Nat.mul_ne_zero free newV
    omega

theorem rbfAllowsReplacement_rate {newFee newWeight fee weight : Nat}
    (pays : rbfAllowsReplacement newFee newWeight fee weight fee weight = true)
    (paid : newFee ≠ 0 ∨ fee ≠ 0) (money : newFee ≤ maxMoney ∧ fee ≤ maxMoney) :
    vbytesCeil newWeight ≠ 0 ∧ vbytesCeil weight ≠ 0 ∧
      fee * vbytesCeil newWeight < newFee * vbytesCeil weight := by
  rcases Bool.or_eq_true_iff.mp pays with total | direct
  · exact rbfPaysForReplacement_rate total
  · exact pureRbfrPays_rate direct paid money

namespace TxGraph

variable {g : TxGraph} {d : Txid} {e : TxEntry}

theorem conflictSet_leaf (found : g.get d = some e) (leaf : g.childrenOf d = []) :
    g.conflictSet [d] = {d} := by
  have live : g.contains d = true := by rw [contains, found]; rfl
  have node : d ∈ g.nodes := by
    apply Finset.mem_union_left
    rw [TxGraph.live, Finmap.mem_keys, ← Finmap.lookup_isSome]
    exact live
  obtain ⟨rounds, more⟩ : ∃ rounds, g.nodes.card = rounds + 1 :=
    ⟨g.nodes.card - 1, by have := Finset.card_pos.mpr ⟨d, node⟩; omega⟩
  have seeds : ([d].filter g.contains).dedup = [d] := by simp [live]
  unfold conflictSet
  simp only [seeds, more, Reach.walk, leaf]
  cases rounds <;> rfl

theorem conflictSet_dead (absent : g.get d = none) : g.conflictSet [d] = ∅ := by
  have dead : g.contains d = false := by rw [contains, absent]; rfl
  unfold conflictSet
  simp only [filter_cons, dead]
  cases g.nodes.card <;> rfl

theorem setFeeWeight_singleton (found : g.get d = some e) (fee : e.feeSat ≤ u64Max)
    (weight : e.adjustedWeight g.bytesPerSigop ≤ u64Max) :
    g.setFeeWeight {d} = (e.feeSat, e.adjustedWeight g.bytesPerSigop) := by
  have one : ascending ({d} : Finset Txid) = [d] := rfl
  unfold setFeeWeight
  rw [one]
  simp only [filterMap_cons, found, filterMap_nil, foldl_cons, foldl_nil, satAdd_eq]
  rw [zero_add, zero_add, min_eq_left fee, min_eq_left weight]

end TxGraph

namespace Pool

variable {p : Pool} {worth : Worth} {clock : Clock} {tx : Transaction} {prep : PreparedAdmit}

/-- The live transactions that may have to leave for a new one: the spenders of its inputs, and the
other children of its parents when it is of version 3. -/
def rivals (p : Pool) (tx : Transaction) : Finset Txid :=
  (tx.input.filterMap p.graph.conflictTxid).toFinset ∪
    if tx.version = trucVersion then
      (tx.input.flatMap fun op => p.graph.childrenOf op.txid).toFinset
    else ∅

/-- At most one transaction has to leave, it has no children, the two do not both pay nothing, and
no fee is lent to the new one. -/
def Lone (p : Pool) (tx : Transaction) (prep : PreparedAdmit) : Prop :=
  (p.rivals tx).card ≤ 1 ∧
    (∀ d ∈ p.rivals tx, p.graph.childrenOf d = [] ∧
      (admitFee prep ≠ 0 ∨ (p.graph.get d).all (·.feeSat ≠ 0))) ∧
    prep.feeDelta ≤ 0

instance : Decidable (p.Lone tx prep) := inferInstanceAs (Decidable (_ ∧ _ ∧ _))

/-- Entries hold the values of their transactions. -/
def Priced (worth : Worth) (s : Tracked) : Prop :=
  ∀ t e, s.graph.get t = some e → worth.Of e.wtxid e.feeSat e.weight e.sigopCost

/-- A commit is given the values of its transaction, and nothing else changes what is live. -/
def Genuine (worth : Worth) (p : Pool) : PoolCall → Prop
  | .commit _ _ prep _ => worth.Of prep.wtxid prep.feeSat prep.weight prep.sigopCost
  | .unlink _ => True
  | .outside q => p.Kept q

def Fair (p : Pool) : PoolCall → Prop
  | .commit _ tx prep _ => p.Lone tx prep
  | _ => True

theorem admitFee_le (lent : prep.feeDelta ≤ 0) : admitFee prep ≤ prep.feeSat := by
  unfold admitFee clampI128 i128Min i128Max
  omega

variable {scan : ConflictScan}

theorem checkTruc_sibling {vsize : Nat} {s : Txid} (ok : p.checkTruc tx vsize scan = .ok (some s)) :
    tx.version = trucVersion ∧ ∃ parent ∈ scan.parentTxids, s ∈ p.graph.childrenOf parent := by
  obtain ⟨⟨⟩, -, ok⟩ := Outcome.bind_eq_ok.mp ok
  split at ok
  · cases ok
  rename_i truc
  split at ok
  · cases ok
  split at ok
  · cases ok
  rename_i parent first
  split at ok
  · cases ok
  rename_i entry found
  split_ifs at ok
  · cases ok
  split at ok
  · rename_i sibling only
    split at ok
    · split_ifs at ok
      obtain rfl : sibling = s := some.inj (Except.ok.inj ok)
      refine ⟨by simpa using truc, parent, (mem_ascending _).mp (mem_of_head? first), ?_⟩
      rw [TxGraph.childrenOf, found, map_some, only]
      exact mem_singleton_self _
    · cases ok
  · cases ok

theorem Planned.direct_subset {sibling : Option Txid} {set : Finset Txid}
    (planned : p.Planned clock tx prep scan sibling set) :
    scan.directConflicts ∪ sibling.toFinset ⊆ p.rivals tx := by
  obtain ⟨parents, conflicts⟩ := scanConflictsAndParents_ok planned.scanned
  intro d mem
  rcases Finset.mem_union.mp mem with direct | evicted
  · apply Finset.mem_union_left
    rcases (conflicts d).2 direct with none | ⟨op, spent, found⟩
    · cases none
    · exact mem_toFinset.mpr (mem_filterMap.mpr ⟨op, spent, found⟩)
  · obtain rfl : sibling = some d := mem_toFinset.mp evicted
    obtain ⟨truc, parent, scanned, child⟩ := checkTruc_sibling planned.truc
    apply Finset.mem_union_right
    rw [if_pos truc]
    rcases (parents parent).mp scanned with none | ⟨op, spent, made⟩
    · cases none
    · have same : op.txid = parent := by
        unfold TxGraph.creator at made
        split_ifs at made
        exact some.inj made
      exact mem_toFinset.mpr (mem_flatMap.mpr ⟨op, spent, same ▸ child⟩)

variable {d : Txid}

theorem Planned.higher_rate {sibling : Option Txid} {set : Finset Txid}
    (planned : p.Planned clock tx prep scan sibling set) (lone : p.Lone tx prep) {e : TxEntry}
    (replaced : d ∈ set) (found : p.graph.get d = some e)
    (money : prep.feeSat ≤ maxMoney ∧ e.feeSat ≤ maxMoney)
    (weight_le : e.adjustedWeight p.graph.bytesPerSigop ≤ u64Max) :
    vbytesCeil (p.admitWeight prep) ≠ 0 ∧ vbytesCeil (e.adjustedWeight p.graph.bytesPerSigop) ≠ 0 ∧
      e.feeSat * vbytesCeil (p.admitWeight prep) <
        prep.feeSat * vbytesCeil (e.adjustedWeight p.graph.bytesPerSigop) := by
  obtain ⟨one, rivals, lent⟩ := lone
  generalize direct : scan.directConflicts ∪ sibling.toFinset = directs
  have accepted := planned.replacement
  rw [direct] at accepted
  have sub : directs ⊆ p.rivals tx := direct ▸ planned.direct_subset
  have nonempty : directs ≠ ∅ := by
    rintro none
    rw [none, checkReplacement] at accepted
    obtain rfl := Except.ok.inj accepted
    cases replaced
  obtain ⟨setEq, pays⟩ := checkReplacement_ok accepted nonempty
  obtain ⟨c, mem⟩ := Finset.nonempty_iff_ne_empty.mpr nonempty
  have single : directs = {c} := by
    refine Finset.eq_singleton_iff_unique_mem.mpr ⟨mem, fun x hx => ?_⟩
    exact Finset.card_le_one.mp one x (sub hx) c (sub mem)
  obtain ⟨leaf, paid⟩ := rivals c (sub mem)
  have listed : ascending directs = [c] := by rw [single]; rfl
  -- an index row of a transaction that is not live would leave nothing to replace
  have here : p.graph.get c ≠ none := by
    intro absent
    rw [setEq, listed, TxGraph.conflictSet_dead absent] at replaced
    cases replaced
  obtain ⟨e', found'⟩ := ne_none_iff_exists'.mp here
  have setC : set = {c} := by rw [setEq, listed, TxGraph.conflictSet_leaf found' leaf]
  obtain rfl : d = c := by
    rw [setC] at replaced
    exact Finset.mem_singleton.mp replaced
  obtain rfl : e' = e := some.inj (found'.symm.trans found)
  have fee_le : e'.feeSat ≤ u64Max := money.2.trans (by decide)
  rw [setC, single, TxGraph.setFeeWeight_singleton found fee_le weight_le] at pays
  have someFee : admitFee prep ≠ 0 ∨ e'.feeSat ≠ 0 := by
    refine paid.imp_right fun all => ?_
    rw [found, all_some, decide_eq_true_eq] at all
    exact all
  have admitted := admitFee_le lent
  obtain ⟨newV, oldV, less⟩ :=
    rbfAllowsReplacement_rate pays someFee ⟨admitted.trans money.1, money.2⟩
  exact ⟨newV, oldV, less.trans_le (Nat.mul_le_mul_right _ admitted)⟩

theorem priced_of_drops {s s' : Tracked} (drops : Tracked.Drops s s') (priced : Priced worth s) :
    Priced worth s' := by
  intro t e found
  obtain ⟨e', before, same⟩ := drops.entry found
  rw [same.wtxid, same.feeSat, same.weight, same.sigopCost]
  exact priced t e' before

theorem call_priced {c : PoolCall} (priced : Priced worth p.tracked) (genuine : p.Genuine worth c) :
    Priced worth (p.call c).tracked := by
  cases c with
  | unlink txid => exact priced_of_drops (p.unlinkTxid_unlinks txid).drops priced
  | outside q =>
    intro t e' found
    obtain ⟨e, before, wtxid, fee, weight, sigops⟩ := genuine.entry t e' found
    rw [wtxid, fee, weight, sigops]
    exact priced t e before
  | commit clock tx prep trim =>
    obtain ⟨-, -, shrinks⟩ | ⟨-, -, set, slot, mid, -, inserted, -⟩ :=
      p.finishCommit_cases clock tx prep trim
    · exact priced_of_drops shrinks.drops priced
    · have before := (p.replaced_shrinks set).trans inserted.before
      have midPriced := priced_of_drops before.drops priced
      apply priced_of_drops inserted.after
      intro t e found
      rcases TxGraph.insert_get_some found with ⟨-, same⟩ | ⟨e', before, same⟩
      · rw [same.wtxid, same.feeSat, same.weight, same.sigopCost]
        exact genuine
      · rw [same.wtxid, same.feeSat, same.weight, same.sigopCost]
        exact midPriced t e' before

/-- A commit of the run accepted `new` and removed `old` as a conflict. -/
def Replaces (p : Pool) (calls : List PoolCall) (old new : Wtxid) : Prop :=
  ∃ pre clock tx prep trim post r d e, calls = pre ++ .commit clock tx prep trim :: post ∧
    ((p.run pre).finishCommit clock tx prep trim).2 = .ok r ∧ d ∈ r.replaced ∧
    (p.run pre).graph.get d = some e ∧ e.wtxid = old ∧ prep.wtxid = new

/-- A higher rate than that of every direct conflict, or more fee than everything removed. -/
def Progress (p : Pool) (tx : Transaction) (prep : PreparedAdmit) (replaced : List Txid) : Prop :=
  (∀ d ∈ replaced, d ∈ tx.input.filterMap p.graph.conflictTxid → ∀ e, p.graph.get d = some e →
      e.feeSat * vbytesCeil (p.admitWeight prep) <
        prep.feeSat * vbytesCeil (e.adjustedWeight p.graph.bytesPerSigop)) ∨
    ((replaced.filterMap p.graph.get).map (·.feeSat)).sum < prep.feeSat

theorem replaced_rate {trim : Bool} {r : AcceptResult} (priced : Priced worth p.tracked)
    (genuine : worth.Of prep.wtxid prep.feeSat prep.weight prep.sigopCost) (lone : p.Lone tx prep)
    (ok : (p.finishCommit clock tx prep trim).2 = .ok r) {e : TxEntry}
    (mem : d ∈ r.replaced) (found : p.graph.get d = some e) :
    vbytesCeil (p.admitWeight prep) ≠ 0 ∧ vbytesCeil (e.adjustedWeight p.graph.bytesPerSigop) ≠ 0 ∧
      e.feeSat * vbytesCeil (p.admitWeight prep) <
        prep.feeSat * vbytesCeil (e.adjustedWeight p.graph.bytesPerSigop) := by
  obtain ⟨e', failed, -⟩ | ⟨scan, sibling, set, -, -, planned, -, result⟩ :=
    p.finishCommit_cases clock tx prep trim
  · rw [failed] at ok
    cases ok
  · obtain ⟨fee, weight, sigops⟩ := priced d e found
    have adjusted : e.adjustedWeight p.graph.bytesPerSigop =
        worth.adjusted p.graph.bytesPerSigop e.wtxid := by
      rw [TxEntry.adjustedWeight, weight, sigops, Worth.adjusted]
    rw [result r ok, mem_ascending] at mem
    apply planned.higher_rate lone mem found
    · rw [fee, genuine.1]
      exact ⟨worth.fee_le _, worth.fee_le _⟩
    · exact adjusted ▸ worth.adjusted_le _ _

theorem Replaces.rate_lt {calls : List PoolCall} {old new : Wtxid} (priced : Priced worth p.tracked)
    (fair : Run.AllMeet call (fun p c => p.Genuine worth c ∧ p.Fair c) p calls)
    (replaces : p.Replaces calls old new) :
    worth.rate p.graph.bytesPerSigop old < worth.rate p.graph.bytesPerSigop new := by
  obtain ⟨pre, clock, tx, prep, trim, post, r, d, e, rfl, ok, mem, found, rfl, rfl⟩ := replaces
  obtain ⟨genuine, lone⟩ := fair.next
  have kept : Priced worth (p.run pre).tracked ∧ (p.run pre).graph.SameLimits p.graph := by
    refine fair.of_append.invariant
      (fun q => Priced worth q.tracked ∧ q.graph.SameLimits p.graph) ?_ ⟨priced, .refl _⟩
    rintro q c ⟨priced, limits⟩ ⟨genuine, -⟩
    have kept : ∀ q', c = .outside q' → q.Kept q' := by
      rintro q' rfl
      exact genuine
    exact ⟨call_priced priced genuine, (call_limits kept).trans limits⟩
  obtain ⟨newV, oldV, less⟩ := replaced_rate kept.1 genuine lone ok mem found
  obtain ⟨fee, weight, sigops⟩ := kept.1 d e found
  obtain ⟨fee', weight', sigops'⟩ := genuine
  rw [admitWeight, TxEntry.adjustedWeight, kept.2.bytesPerSigop, fee, weight, sigops, fee', weight',
    sigops'] at less
  rw [admitWeight, kept.2.bytesPerSigop, weight', sigops'] at newV
  rw [TxEntry.adjustedWeight, kept.2.bytesPerSigop, weight, sigops] at oldV
  unfold Worth.rate
  rw [div_lt_div_iff₀ (by exact_mod_cast pos_of_ne_zero oldV)
    (by exact_mod_cast pos_of_ne_zero newV)]
  exact_mod_cast less

theorem start_priced (graph : TxGraph) (slots maxWeight minRelaySatKvb : Nat)
    (empty : graph.entries = ∅) :
    Priced worth (start graph slots maxWeight minRelaySatKvb).tracked := by
  intro t e found
  have none : graph.get t = none := by rw [TxGraph.get, empty]; exact Finmap.lookup_empty t
  cases none.symm.trans found

def rising : Worth where
  fee w := min (100 * w) 1000000
  weight _ := 400
  sigopCost _ := 0
  fee_le w := (Nat.min_le_right _ _).trans (by decide)
  weight_le _ := by decide

theorem Replaces.of_eval (pre : List PoolCall) {post : List PoolCall} {trim : Bool} {l : List Txid}
    {old : Wtxid}
    (ok : ((p.run pre).finishCommit clock tx prep trim).2.toOption.map (·.replaced) = some l)
    (mem : d ∈ l) (found : ((p.run pre).graph.get d).map (·.wtxid) = some old) :
    p.Replaces (pre ++ .commit clock tx prep trim :: post) old prep.wtxid := by
  obtain ⟨r, accepted, rfl⟩ := map_eq_some_iff.mp ok
  obtain ⟨e, here, rfl⟩ := map_eq_some_iff.mp found
  have result : ((p.run pre).finishCommit clock tx prep trim).2 = .ok r := by
    cases out : ((p.run pre).finishCommit clock tx prep trim).2 with
    | error _ => rw [out] at accepted; cases accepted
    | ok r' => rw [out] at accepted; exact congrArg _ (some.inj accepted)
  exact ⟨pre, clock, tx, prep, trim, post, r, d, e, rfl, result, mem, here, rfl, rfl⟩

/-- A small transaction of a high rate, its large child, and one that pays more than both. -/
def circling : Worth where
  fee w := if w = 11 then 1000 else if w = 12 then 100 else 1200
  weight w := if w = 11 then 400 else if w = 12 then 4000 else 1600
  sigopCost _ := 0
  fee_le w := by split <;> [decide; (split <;> decide)]
  weight_le w := by split <;> [decide; (split <;> decide)]

end Pool

end Rbitcoin.Mempool
