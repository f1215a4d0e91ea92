import Rbitcoin.Lib.Assoc
import Rbitcoin.Store.Layout

/-! What a head of script hashes is for: a partial map from keys to the words of their values. -/

namespace Rbitcoin.Store

abbrev Words (κ : Type) := κ → Option UInt64

namespace Words

variable {κ : Type}

def get (f : Words κ) (k : κ) : Result (Option ShHeadValue) :=
  match f k with
  | none => .ok none
  | some w => do return some (← unpack8 w.toNat)

def word (v : ShHeadValue) : UInt64 :=
  match pack8Bytes v with
  | .ok w => w
  | .error _ => 0

variable {v : ShHeadValue} {f : Words κ} {k : κ} {l entries : List (κ × ShHeadValue)}

theorem pack8Bytes_eq (storable : v.Storable) : pack8Bytes v = .ok (word v) := by
  obtain ⟨w, packed, -⟩ := pack8Bytes_storable storable
  rw [word, packed]

theorem pack8_eq (storable : v.Storable) : ∃ w, pack8 v = .ok w ∧ UInt64.ofNat w = word v := by
  have packed := pack8Bytes_eq storable
  rw [pack8Bytes, Outcome.bind_eq_ok] at packed
  obtain ⟨w, packed, same⟩ := packed
  exact ⟨w, packed, Except.ok.inj same⟩

theorem unpack8Bytes_word (storable : v.Storable) : unpack8Bytes (word v) = .ok v := by
  obtain ⟨w, packed, unpacked, -⟩ := pack8Bytes_storable storable
  rw [word, packed]
  exact unpacked

def Decodes (f : Words κ) : Prop :=
  ∀ {k w}, f k = some w → ∃ v : ShHeadValue, v.Storable ∧ w = word v

def values (f : Words κ) (k : κ) : Option ShHeadValue :=
  (f k).bind fun w => (unpack8Bytes w).toOption

theorem values_of_word (storable : v.Storable) (h : f k = some (word v)) : f.values k = some v := by
  simp [values, h, unpack8Bytes_word storable, Except.toOption]

theorem values_of_none (h : f k = none) : f.values k = none := by
  simp [values, h]

theorem Decodes.isSome_values (decodes : f.Decodes) (k : κ) :
    (f.values k).isSome = (f k).isSome := by
  cases h : f k with
  | none =>
    rw [values_of_none h]
    rfl
  | some w =>
    obtain ⟨v, storable, rfl⟩ := decodes h
    rw [values_of_word storable h]
    rfl

theorem Decodes.get_eq (decodes : f.Decodes) (k : κ) : f.get k = .ok (f.values k) := by
  cases h : f k with
  | none => rw [values_of_none h, get, h]
  | some w =>
    obtain ⟨v, storable, rfl⟩ := decodes h
    have unpacked : unpack8 (word v).toNat = .ok v := unpack8Bytes_word storable
    rw [values_of_word storable h, get, h]
    simp only [unpacked]
    rfl

variable [DecidableEq κ]

def ofRecs (recs : List (κ × UInt64)) : Words κ := fun k => recs.lookup k

theorem ofRecs_cons (r : κ × UInt64) (recs : List (κ × UInt64)) (k : κ) :
    ofRecs (r :: recs) k = if k = r.1 then some r.2 else ofRecs recs k := by
  rw [ofRecs, List.lookup_cons]
  by_cases same : k = r.1
  · rw [same, beq_self_eq_true, if_pos rfl]
  · rw [beq_eq_false_iff_ne.mpr same, if_neg same]
    rfl

def set (f : Words κ) (k : κ) (w : UInt64) : Words κ := Function.update f k (some w)

@[simp] theorem set_self (f : Words κ) (k : κ) (w : UInt64) : f.set k w k = some w :=
  Function.update_self (β := fun _ => Option UInt64) k (some w) f

theorem set_ne {l : κ} (w : UInt64) (h : l ≠ k) : f.set k w l = f l :=
  Function.update_of_ne (β := fun _ => Option UInt64) h (some w) f

theorem isSome_set (w : UInt64) (member : (f k).isSome) (l : κ) :
    (f.set k w l).isSome = (f l).isSome := by
  by_cases same : l = k
  · rw [same, set_self, member]
    rfl
  · rw [set_ne w same]

/-- Only members are updated, and only the member itself. -/
def updateValue (f : Words κ) (k : κ) (value : ShHeadValue) : Result (Words κ × Bool) :=
  match f k with
  | none => .ok (f, false)
  | some _ => do
    let w ← pack8 value
    return (f.set k (UInt64.ofNat w), true)

theorem ofRecs_eq_some {recs : List (κ × UInt64)} (nodup : (recs.map Prod.fst).Nodup) {w : UInt64} :
    ofRecs recs k = some w ↔ (k, w) ∈ recs :=
  Assoc.lookup_eq_some nodup

theorem ofRecs_eq_none {recs : List (κ × UInt64)} : ofRecs recs k = none ↔ k ∉ recs.map Prod.fst :=
  Assoc.lookup_eq_none

def enter (f : Words κ) (x : κ × ShHeadValue) : Words κ :=
  if x.2.isEmpty ∧ f x.1 = none then f else f.set x.1 (word x.2)

def enterAll (f : Words κ) (entries : List (κ × ShHeadValue)) : Words κ := entries.foldl enter f

theorem enter_self (f : Words κ) (x : κ × ShHeadValue) :
    f.enter x x.1 = if x.2.isEmpty ∧ f x.1 = none then none else some (word x.2) := by
  unfold enter
  split_ifs with skipped
  · exact skipped.2
  · exact set_self f x.1 _

theorem enter_ne {x : κ × ShHeadValue} (h : k ≠ x.1) : f.enter x k = f k := by
  unfold enter
  split_ifs
  · rfl
  · exact set_ne _ h

theorem enterAll_apply (nodup : (entries.map Prod.fst).Nodup) (k : κ) :
    f.enterAll entries k = match entries.lookup k with
      | none => f k
      | some v => if v.isEmpty ∧ f k = none then none else some (word v) := by
  induction entries generalizing f with
  | nil => rfl
  | cons x entries ih =>
    rw [List.map_cons, List.nodup_cons] at nodup
    rw [enterAll, List.foldl_cons, ← enterAll, ih nodup.2, List.lookup_cons]
    by_cases same : k = x.1
    · subst same
      rw [Assoc.lookup_eq_none.mpr nodup.1, beq_self_eq_true]
      exact enter_self f x
    · rw [beq_eq_false_iff_ne.mpr same]
      cases entries.lookup k with
      | none => exact enter_ne same
      | some v => simp only [enter_ne same]

theorem enterAll_perm {l' : List (κ × ShHeadValue)} (perm : l.Perm l')
    (nodup : (l.map Prod.fst).Nodup) : f.enterAll l = f.enterAll l' := by
  funext k
  rw [enterAll_apply nodup, enterAll_apply ((perm.map Prod.fst).nodup_iff.mp nodup),
    Assoc.lookup_perm perm nodup]

theorem Decodes.set (decodes : f.Decodes) (storable : v.Storable) (k : κ) :
    (f.set k (word v)).Decodes := by
  intro l w h
  by_cases same : l = k
  · rw [same, set_self, Option.some.injEq] at h
    exact ⟨v, storable, h.symm⟩
  · rw [set_ne _ same] at h
    exact decodes h

theorem Decodes.enterAll (decodes : f.Decodes) (storable : ∀ x ∈ entries, x.2.Storable) :
    (f.enterAll entries).Decodes := by
  induction entries generalizing f with
  | nil => exact decodes
  | cons x entries ih =>
    apply ih
    · unfold enter
      split_ifs
      · exact decodes
      · exact decodes.set (storable x List.mem_cons_self) x.1
    · exact fun y hy => storable y (List.mem_cons_of_mem _ hy)

end Words

end Rbitcoin.Store
