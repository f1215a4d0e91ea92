import Rbitcoin.Lib.Settle
import Mathlib.Algebra.Group.Int.Defs
import Mathlib.Data.Finset.Lattice.Fold
import Mathlib.Data.List.Sort

/-! The linearization of a cluster: candidate ancestor sets by feerate, a backward and a forward
pass that merges and swaps groups, and the order in which chunks are given out. Positions are the
indices of the members of the cluster. Lists that the source uses as stacks have their top at the
head. -/

namespace Rbitcoin.Mempool

open Settle List

def i128Min : Int := -2 ^ 127
def i128Max : Int := 2 ^ 127 - 1
def u64Max : Nat := 2 ^ 64 - 1

def clampI128 (x : Int) : Int := max i128Min (min x i128Max)

/-- A fee over a size, compared without division. -/
structure FeeFrac where
  fee : Int
  size : Nat
  deriving DecidableEq, Repr

namespace FeeFrac

instance : Inhabited FeeFrac := ⟨⟨0, 0⟩⟩

variable (a b : FeeFrac)

def cross : Int × Int := (clampI128 (a.fee * b.size), clampI128 (b.fee * a.size))

def higherRate : Bool := (a.cross b).2 < (a.cross b).1

/-- The fee rate first, then the smaller size wins a tie. -/
def rank : Ordering :=
  (compare (a.cross b).1 (a.cross b).2).then (compare b.size a.size)

def add : FeeFrac := ⟨clampI128 (a.fee + b.fee), min (a.size + b.size) u64Max⟩

def sub : FeeFrac := ⟨clampI128 (a.fee - b.fee), a.size - b.size⟩

/-- The fee with the opposite sign, which wraps at the least `i128`. -/
def negFee (a : FeeFrac) : FeeFrac := { a with fee := if a.fee = i128Min then i128Min else -a.fee }

end FeeFrac

def reduce {α : Type} (f : α → α → α) : List α → Option α
  | [] => none
  | a :: l => some (l.foldl f a)

abbrev TxSet := Finset Nat

/-- A cluster by position: rates, ancestors and descendants. -/
structure DepGraph where
  feerate : List FeeFrac
  ancestors : List TxSet
  descendants : List TxSet

namespace DepGraph

/-- The positions that `i` spends. Those outside the cluster and `i` itself are ignored. -/
def parentsOf (n : Nat) (parents : List (List Nat)) (i : Nat) : List Nat :=
  (parents.getD i []).filter fun p => p < n && p != i

/-- The positions that spend `p`, once for each time they name it. -/
def childrenOf (n : Nat) (parents : List (List Nat)) (p : Nat) : List Nat :=
  (range n).flatMap fun i => ((parentsOf n parents i).filter (· == p)).map fun _ => i

/-- The state of the walk that collects ancestors. -/
structure Walk where
  ancestors : List TxSet
  pending : List Nat
  ready : List Nat

/-- `c` learns the ancestors of its parent `p`, and is ready after its last parent. -/
def visit (p : Nat) (w : Walk) (c : Nat) : Walk :=
  let pending := w.pending.modify c (· - 1)
  { ancestors := w.ancestors.modify c (· ∪ w.ancestors.getD p ∅)
    pending
    ready := if pending.getD c 0 = 0 then c :: w.ready else w.ready }

/-- Each position gets ready at most once, so that `n` rounds empty the stack. -/
def walk (children : Nat → List Nat) : Nat → Walk → Walk
  | 0, w => w
  | rounds + 1, w =>
    match w.ready with
    | [] => w
    | p :: ready => walk children rounds ((children p).foldl (visit p) { w with ready })

def start (n : Nat) (parents : List (List Nat)) : Walk :=
  let pending := (range n).map fun i => (parentsOf n parents i).length
  { ancestors := (range n).map fun i => {i}
    pending
    ready := ((range n).filter fun i => pending.getD i 0 = 0).reverse }

def new (feerate : List FeeFrac) (parents : List (List Nat)) : DepGraph :=
  let n := feerate.length
  let ancestors := (walk (childrenOf n parents) n (start n parents)).ancestors
  { feerate
    ancestors
    descendants := (range n).map fun a =>
      ((range n).filter fun i => a ∈ ancestors.getD i ∅).toFinset }

variable (g : DepGraph)

def len : Nat := g.feerate.length
def rateOf (i : Nat) : FeeFrac := g.feerate.getD i default
def anc (i : Nat) : TxSet := g.ancestors.getD i ∅
def desc (i : Nat) : TxSet := g.descendants.getD i ∅

/-- The positions of a set, the lowest first. -/
def iter (set : TxSet) : List Nat := (range g.len).filter (· ∈ set)

def setFeerate (set : TxSet) : FeeFrac := (g.iter set).foldl (fun f i => f.add (g.rateOf i)) default

/-- Fewer ancestors first, then the lower position. -/
def topoOrder (set : TxSet) : List Nat :=
  (g.iter set).insertionSort fun i j =>
    (g.anc i).card < (g.anc j).card ∨ (g.anc i).card = (g.anc j).card ∧ i ≤ j

/-- The state of the loop that picks by ancestor rate. -/
structure Picking where
  todo : TxSet
  ancRate : List FeeFrac
  out : List Nat

/-- Take the ancestor set of the best rate among what is left. -/
def pickBest (st : Picking) : Option Picking :=
  let better := fun b i =>
    if (st.ancRate.getD i default).rank (st.ancRate.getD b default) = .gt then i else b
  match reduce better (g.iter st.todo) with
  | none => none
  | some best =>
    let pick := g.anc best ∩ st.todo
    let less := fun ancRate t => (g.iter (g.desc t ∩ st.todo)).foldl
      (fun ancRate d => ancRate.modify d (·.sub (g.rateOf t))) ancRate
    some
      { todo := st.todo \ pick
        ancRate := (g.iter pick).foldl less st.ancRate
        out := st.out ++ g.topoOrder pick }

/-- Each round takes a position at least. -/
def pickAll : Nat → Picking → Picking
  | 0, st => st
  | rounds + 1, st =>
    match g.pickBest st with
    | none => st
    | some st => pickAll rounds st

/-- Transactions that move together while a linearization is improved. -/
structure Group where
  txs : List Nat
  set : TxSet
  deps : TxSet
  feerate : FeeFrac

def Group.absorbBefore (cur prev : Group) : Group :=
  { txs := prev.txs ++ cur.txs
    set := cur.set ∪ prev.set
    deps := cur.deps ∪ prev.deps
    feerate := cur.feerate.add prev.feerate }

def single (rev : Bool) (i : Nat) : Group :=
  { txs := [i]
    set := {i}
    deps := if rev then g.desc i else g.anc i
    feerate := if rev then (g.rateOf i).negFee else g.rateOf i }

def groups (rev : Bool) (order : List Nat) : List Group :=
  settleAll (fun cur prev => cur.feerate.higherRate prev.feerate)
    (fun cur prev => !Disjoint cur.deps prev.set) Group.absorbBefore (order.map (g.single rev))

/-- One pass, from the end of the order when `rev`. -/
def pass (rev : Bool) (lin : List Nat) : List Nat :=
  if rev then (flat Group.txs (g.groups true lin.reverse)).reverse
  else flat Group.txs (g.groups false lin)

def postLinearize (lin : List Nat) : List Nat := g.pass false (g.pass true lin)

def chunkLengths (inOrder : List FeeFrac) : List Nat :=
  ((settleAll (fun cur last => cur.1.higherRate last.1) (fun _ _ => true)
    (fun cur last => (cur.1.add last.1, cur.2 + last.2))
    (inOrder.map fun fr => (fr, 1))).map Prod.snd).reverse

structure ChunkOf where
  set : TxSet
  feerate : FeeFrac
  top : Nat
  deriving DecidableEq

/-- Cut an order into pieces of the given lengths. -/
def cut : List Nat → List Nat → List (List Nat)
  | [], _ => []
  | len :: lens, lin => lin.take len :: cut lens (lin.drop len)

def chunksOf (lin : List Nat) : List ChunkOf :=
  (cut (chunkLengths (lin.map g.rateOf)) lin).map fun piece =>
    { set := piece.toFinset
      feerate := g.setFeerate piece.toFinset
      top := piece.foldl max 0 }

def ready (done : TxSet) (c : ChunkOf) : Bool := (g.iter c.set).all fun t => g.anc t \ c.set ⊆ done

/-- The next transaction of a chunk: the best rate of those whose ancestors are given out. -/
def nextTx (left done : TxSet) : Option Nat :=
  reduce (fun b t => if (g.rateOf t).rank (g.rateOf b) = .gt then t else b)
    ((g.iter left).filter fun t => g.anc t \ {t} ⊆ done)

def emit : Nat → TxSet → TxSet → List Nat → TxSet × List Nat
  | 0, _, done, out => (done, out)
  | rounds + 1, left, done, out =>
    match g.nextTx left done with
    | none => (done, out)
    | some t => emit rounds (left \ {t}) (insert t done) (out ++ [t])

/-- The index of the next chunk: the best of those that are ready. -/
def nextChunk (chunks : List ChunkOf) (done : TxSet) : Option Nat :=
  let chunk := fun k => chunks.getD k ⟨∅, default, 0⟩
  let better := fun b k =>
    if ((chunk k).feerate.rank (chunk b).feerate).then (compare (chunk b).top (chunk k).top) = .gt
    then k else b
  reduce better ((range chunks.length).filter fun k => g.ready done (chunk k))

def emitChunks : Nat → List ChunkOf → TxSet → List Nat → List Nat
  | 0, _, _, out => out
  | rounds + 1, chunks, done, out =>
    match g.nextChunk chunks done with
    | none => out
    | some pick =>
      let (done, out) := g.emit g.len (chunks.getD pick ⟨∅, default, 0⟩).set done out
      emitChunks rounds (chunks.eraseIdx pick) done out

def outputOrder (lin : List Nat) : List Nat :=
  let chunks := g.chunksOf lin
  g.emitChunks chunks.length chunks ∅ []

/-- Nothing is taken yet. -/
def pickStart : Picking :=
  { todo := Finset.range g.len
    ancRate := g.ancestors.map g.setFeerate
    out := [] }

def linearize : List Nat :=
  g.outputOrder (g.postLinearize (g.pickAll g.len g.pickStart).out)

end DepGraph

end Rbitcoin.Mempool
