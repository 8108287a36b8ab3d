import Bytecask.Lib.RangeSet
import Bytecask.Store

/-! The writes of a SQL transaction as its later statements read them: point entries over deleted ranges. -/

namespace Bytecask.Sql

open SortedMap

inductive Effect where
  | put (key value : Bytes)
  | del (key : Bytes)
  | delRange (lo hi : Bytes) (h : lo < hi)
  | guardUnchanged (key : Bytes)
  | guardRange (lo hi : Bytes)
  | guardUniqueRange (lo hi : Bytes)
  | guardPresent (key : Bytes)
  | guardAbsent (key : Bytes)
deriving DecidableEq

def Effect.isWrite : Effect → Bool
  | .put _ _ | .del _ | .delRange _ _ _ => true
  | .guardUnchanged _ | .guardRange _ _ | .guardUniqueRange _ _ | .guardPresent _ | .guardAbsent _ => false

def Effect.on (m : SortedMap Bytes Bytes) : Effect → SortedMap Bytes Bytes
  | .put key value => m.insert key value
  | .del key => m.erase key
  | .delRange lo hi _ => m.filter (fun k _ => !(lo ≤ k ∧ k < hi))
  | .guardUnchanged _ | .guardRange _ _ | .guardUniqueRange _ _ | .guardPresent _ | .guardAbsent _ => m

def applied (m : SortedMap Bytes Bytes) (es : List Effect) : SortedMap Bytes Bytes := es.foldl Effect.on m

structure Overlay where
  points : SortedMap Bytes (Option Bytes) := SortedMap.empty
  ranges : RangeSet Bytes := RangeSet.empty
deriving DecidableEq

namespace Overlay

def empty (o : Overlay) : Bool := o.points.entries.isEmpty && o.ranges.isEmpty

def rangeAt (o : Overlay) (key : Bytes) : Option (Bytes × Bytes) := o.ranges.rangeAt key

def covered (o : Overlay) (key : Bytes) : Bool := (o.rangeAt key).isSome

def putsUnder (o : Overlay) (pre : Bytes) : Bool :=
  ((o.points.entries.dropWhile (fun p => p.1 < pre)).takeWhile (fun p => pre <+: p.1)).any (fun p => p.2.isSome)

def find (o : Overlay) (key : Bytes) : Option (Option Bytes) :=
  match o.points.get key with
  | some v => some v
  | none => if o.covered key then some none else none

def meets (o : Overlay) (lo hi : Bytes) : Bool :=
  (o.points.entries.dropWhile (fun p => p.1 < lo)).head?.any (fun p => p.1 < hi) || o.covered lo ||
    (o.ranges.bounds.entries.dropWhile (fun r => r.1 < lo)).head?.any (fun r => r.1 < hi)

def set (o : Overlay) (key : Bytes) (value : Option Bytes) : Overlay := { o with points := o.points.insert key value }

def put (o : Overlay) (key value : Bytes) : Overlay := o.set key (some value)

def del (o : Overlay) (key : Bytes) : Overlay := o.set key none

def delRange (o : Overlay) (lo hi : Bytes) (h : lo < hi) : Overlay where
  points := o.points.filter (fun k _ => !(lo ≤ k ∧ k < hi))
  ranges := o.ranges.add lo hi h

def record (o : Overlay) : Effect → Overlay
  | .put key value => o.put key value
  | .del key => o.del key
  | .delRange lo hi h => o.delRange lo hi h
  | .guardUnchanged _ | .guardRange _ _ | .guardUniqueRange _ _ | .guardPresent _ | .guardAbsent _ => o

def recordAll (o : Overlay) (es : List Effect) : Overlay := es.foldl record o

def atop (o : Overlay) (m : SortedMap Bytes Bytes) (key : Bytes) : Option Bytes := (o.find key).getD (m.get key)

variable {o : Overlay} {k : Bytes}

lemma covered_iff : o.covered k = true ↔ k ∈ o.ranges := by
  rw [covered, rangeAt, Option.isSome_iff_ne_none, ne_eq, RangeSet.rangeAt_eq_none, not_not]

lemma find_set (o : Overlay) (key : Bytes) (value : Option Bytes) (k : Bytes) :
    (o.set key value).find k = if k = key then some value else o.find k := by
  have hcov : (o.set key value).covered k = o.covered k := rfl
  rw [find, hcov, set]
  by_cases hk : k = key
  · rw [hk, get_insert_self, if_pos rfl]
  · rw [get_insert_ne _ _ hk, if_neg hk, find]

lemma find_delRange (o : Overlay) {lo hi : Bytes} (h : lo < hi) (k : Bytes) :
    (o.delRange lo hi h).find k = if lo ≤ k ∧ k < hi then some none else o.find k := by
  have hcov : (o.delRange lo hi h).covered k = true ↔ o.covered k = true ∨ (lo ≤ k ∧ k < hi) := by
    rw [covered_iff, covered_iff]
    exact RangeSet.mem_add h
  have hpoints : (o.delRange lo hi h).points.get k = (o.points.get k).filter (fun _ => !decide (lo ≤ k ∧ k < hi)) :=
    get_filter _ _ _
  rw [find, hpoints, find]
  by_cases hk : lo ≤ k ∧ k < hi
  · have hgone : (o.points.get k).filter (fun _ => !decide (lo ≤ k ∧ k < hi)) = none := by
      cases o.points.get k <;> simp [hk]
    rw [hgone, if_pos hk]
    exact if_pos (hcov.2 (.inr hk))
  · have hkept : (o.points.get k).filter (fun _ => !decide (lo ≤ k ∧ k < hi)) = o.points.get k := by
      cases o.points.get k <;> simp [hk, Option.filter_some]
    have hsame : (o.delRange lo hi h).covered k = o.covered k := by
      rw [Bool.eq_iff_iff, hcov, or_iff_left hk]
    rw [hkept, if_neg hk, hsame]

lemma atop_record (o : Overlay) (e : Effect) {m n : SortedMap Bytes Bytes} (h : ∀ k, o.atop m k = n.get k) (k : Bytes) :
    (o.record e).atop m k = (e.on n).get k := by
  have hk := h k
  rw [atop] at hk ⊢
  cases e with
  | put key value =>
    rw [record, put, find_set, Effect.on, get_insert]
    split_ifs
    · rfl
    · exact hk
  | del key =>
    rw [record, del, find_set, Effect.on, get_erase]
    split_ifs
    · rfl
    · exact hk
  | delRange lo hi h =>
    rw [record, find_delRange, Effect.on, get_filter]
    split_ifs with hin
    · cases n.get k <;> simp [hin]
    · rw [hk]
      cases n.get k <;> simp [hin, Option.filter_some]
  | guardUnchanged | guardRange | guardUniqueRange | guardPresent | guardAbsent => exact hk

lemma atop_recordAll (es : List Effect) (o : Overlay) {m n : SortedMap Bytes Bytes} (h : ∀ k, o.atop m k = n.get k) (k : Bytes) :
    (o.recordAll es).atop m k = (applied n es).get k := by
  induction es generalizing o n with
  | nil => exact h k
  | cons e es ih => exact ih _ (o.atop_record e h)

theorem atop_effects (m : SortedMap Bytes Bytes) (es : List Effect) (k : Bytes) :
    (recordAll {} es).atop m k = (applied m es).get k := atop_recordAll es {} (fun _ => rfl) k

lemma atop_of_empty (h : o.empty = true) (m : SortedMap Bytes Bytes) (k : Bytes) : o.atop m k = m.get k := by
  obtain ⟨hp, hr⟩ := Bool.and_eq_true_iff.1 h
  have hpoint : o.points.get k = none := get_eq_none.2 fun v hv => by
    rw [List.isEmpty_iff.1 hp] at hv
    cases hv
  have hcov : ¬ o.covered k = true := fun hc => RangeSet.not_mem_of_isEmpty hr (covered_iff.1 hc)
  rw [atop, find, hpoint, if_neg hcov]
  rfl

end Overlay

end Bytecask.Sql
