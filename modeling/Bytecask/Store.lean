import Bytecask.WritePlan

/-! What the engine is to its callers: a map from keys to values, each with the sequence that wrote it, and plans
that commit as a whole or change nothing. -/

namespace Bytecask

open SortedMap

structure Record where
  sequence : ℕ
  value : Bytes
deriving DecidableEq, Repr

structure Store where
  entries : SortedMap Bytes Record := SortedMap.empty
  nextSeq : ℕ := 1
deriving DecidableEq

structure Plan where
  snap : Option Store := none
  writes : List WriteOp := []
  guards : List (Bytes × Precondition) := []
  rangeGuards : List RangeGuard := []

namespace Plan

def ensure (p : Plan) (key : Bytes) (pre : Precondition) : Option Plan :=
  match p.guards.lookup key with
  | some g => if g = pre then some p else none
  | none => some { p with guards := p.guards ++ [(key, pre)] }

def ensureRangeUnchanged (p : Plan) (lo hi : Bytes) : Option Plan :=
  if lo < hi then some { p with rangeGuards := p.rangeGuards ++ [⟨lo, hi⟩] } else none

variable {p q : Plan} {key : Bytes} {pre : Precondition}

lemma ensure_keeps (h : p.ensure key pre = some q) : q.writes = p.writes ∧ q.snap = p.snap := by
  rw [ensure] at h
  split at h
  · split_ifs at h
    cases h
    exact ⟨rfl, rfl⟩
  · cases h
    exact ⟨rfl, rfl⟩

lemma ensure_guards (h : p.ensure key pre = some q) : p.guards ⊆ q.guards ∧ (key, pre) ∈ q.guards := by
  rw [ensure] at h
  split at h
  · rename_i g hg
    split_ifs at h with heq
    cases h
    obtain ⟨before, after, hsplit, -⟩ := List.lookup_eq_some_iff.1 hg
    refine ⟨List.Subset.refl _, ?_⟩
    rw [hsplit, ← heq]
    exact List.mem_append_right _ List.mem_cons_self
  · cases h
    exact ⟨List.subset_append_left _ _, List.mem_append_right _ (List.mem_singleton_self _)⟩

end Plan

def WriteOp.leaves (op : WriteOp) (k : Bytes) (old : Option Bytes) : Option Bytes :=
  match op with
  | .pointPut key value => if k = key then some value else old
  | .pointDel key => if k = key then none else old
  | .rangeDel lo hi => if lo ≤ k ∧ k < hi then none else old

def WriteOp.Touches (op : WriteOp) (k : Bytes) : Prop :=
  match op with
  | .pointPut key _ => k = key
  | .pointDel key => k = key
  | .rangeDel lo hi => lo ≤ k ∧ k < hi

instance (k : Bytes) : (op : WriteOp) → Decidable (op.Touches k)
  | .pointPut _ _ | .pointDel _ => inferInstanceAs (Decidable (_ = _))
  | .rangeDel _ _ => inferInstanceAs (Decidable (_ ∧ _))

namespace Store

def get (s : Store) (k : Bytes) : Option Bytes := (s.entries.get k).map Record.value

def version (s : Store) (k : Bytes) : ℕ := ((s.entries.get k).map Record.sequence).getD 0

def sameRange (s snap : Store) (lo hi : Bytes) : Bool :=
  (s.entries.range lo hi ++ snap.entries.range lo hi).all (fun e => s.version e.1 = snap.version e.1)

def holds (s : Store) (snap : Option Store) (key : Bytes) : Precondition → Bool
  | .none => true
  | .mustExist => (s.get key).isSome
  | .mustBeAbsent => (s.get key).isNone
  | .mustBeUnchanged => s.version key = (snap.map (fun t => t.version key)).getD 0

def unchanged (s snap : Store) : WriteOp → Bool
  | .pointPut key _ => s.version key = snap.version key
  | .pointDel key => s.version key = snap.version key
  | .rangeDel lo hi => s.sameRange snap lo hi

def passes (s : Store) (p : Plan) : Bool :=
  p.guards.all (fun g => s.holds p.snap g.1 g.2) &&
    match p.snap with
    | none => true
    | some snap => p.rangeGuards.all (fun g => s.sameRange snap g.lo g.hi) && p.writes.all (s.unchanged snap)

def write (m : SortedMap Bytes Record) (seq : ℕ) : WriteOp → SortedMap Bytes Record
  | .pointPut key value => m.insert key ⟨seq, value⟩
  | .pointDel key => m.erase key
  | .rangeDel lo hi => m.filter (fun k _ => !(lo ≤ k ∧ k < hi))

def writeAll : SortedMap Bytes Record → ℕ → List WriteOp → SortedMap Bytes Record
  | m, _, [] => m
  | m, seq, op :: ops => writeAll (write m seq op) (seq + 1) ops

def apply (s : Store) (ops : List WriteOp) : Store :=
  if 1 < ops.length then ⟨writeAll s.entries (s.nextSeq + 1) ops, s.nextSeq + ops.length + 2⟩
  else ⟨writeAll s.entries s.nextSeq ops, s.nextSeq + ops.length⟩

def commit (s : Store) (p : Plan) : Option Store := if s.passes p then some (s.apply p.writes) else none

variable {s t u snap : Store} {k : Bytes} {op : WriteOp} {ops : List WriteOp}

section Write

variable {m : SortedMap Bytes Record} {seq : ℕ} {r : Record}

lemma get_write (m : SortedMap Bytes Record) (seq : ℕ) (op : WriteOp) (k : Bytes) :
    ((write m seq op).get k).map Record.value = op.leaves k ((m.get k).map Record.value) := by
  cases op with
  | pointPut key value =>
    rw [write, WriteOp.leaves, get_insert]
    split_ifs <;> rfl
  | pointDel key =>
    rw [write, WriteOp.leaves, get_erase]
    split_ifs <;> rfl
  | rangeDel lo hi =>
    rw [write, WriteOp.leaves, get_filter]
    split_ifs with h
    · cases m.get k <;> simp [h]
    · cases m.get k <;> simp [h]

lemma get_writeAll (m : SortedMap Bytes Record) (seq : ℕ) (ops : List WriteOp) (k : Bytes) :
    ((writeAll m seq ops).get k).map Record.value =
      ops.foldl (fun v op => op.leaves k v) ((m.get k).map Record.value) := by
  induction ops generalizing m seq with
  | nil => rfl
  | cons op ops ih => rw [writeAll, ih, get_write, List.foldl_cons]

lemma get_apply (s : Store) (ops : List WriteOp) (k : Bytes) :
    (s.apply ops).get k = ops.foldl (fun v op => op.leaves k v) (s.get k) := by
  rw [apply]
  split_ifs
  · exact get_writeAll _ _ _ _
  · exact get_writeAll _ _ _ _

lemma mem_write (h : (write m seq op).get k = some r) :
    (m.get k = some r ∧ (¬ op.Touches k)) ∨ (op.Touches k ∧ r.sequence = seq) := by
  cases op with
  | pointPut key value =>
    rw [write, get_insert] at h
    split_ifs at h with hk
    · exact .inr ⟨hk, by rw [← Option.some.inj h]⟩
    · exact .inl ⟨h, hk⟩
  | pointDel key =>
    rw [write, get_erase] at h
    split_ifs at h with hk
    exact .inl ⟨h, hk⟩
  | rangeDel lo hi =>
    rw [write, get_filter, Option.filter_eq_some_iff] at h
    exact .inl ⟨h.1, of_decide_eq_false ((Bool.not_eq_true' _).mp h.2)⟩

lemma mem_writeAll (h : (writeAll m seq ops).get k = some r) :
    (m.get k = some r ∧ ∀ op ∈ ops, ¬ op.Touches k) ∨ (seq ≤ r.sequence ∧ r.sequence < seq + ops.length) := by
  induction ops generalizing m seq with
  | nil => exact .inl ⟨h, by simp⟩
  | cons op ops ih =>
    rw [List.length_cons]
    rcases ih h with ⟨hm, hno⟩ | hseq
    · rcases mem_write hm with ⟨hm, ht⟩ | ⟨-, hr⟩
      · exact .inl ⟨hm, by simpa using ⟨ht, hno⟩⟩
      · exact .inr (by omega)
    · exact .inr (by omega)

end Write

section History

structure Sound (s : Store) : Prop where
  positive : 0 < s.nextSeq
  below : ∀ k r, s.entries.get k = some r → 0 < r.sequence ∧ r.sequence < s.nextSeq

structure Follows (s t : Store) : Prop where
  nextSeq : s.nextSeq ≤ t.nextSeq
  entries : ∀ k r, t.entries.get k = some r → s.entries.get k = some r ∨ s.nextSeq ≤ r.sequence

lemma Follows.refl (s : Store) : Follows s s := ⟨le_rfl, fun _ _ h => .inl h⟩

lemma Follows.trans (h : Follows s t) (h' : Follows t u) : Follows s u := by
  refine ⟨h.nextSeq.trans h'.nextSeq, fun k r hr => ?_⟩
  rcases h'.entries k r hr with hr | hr
  · exact h.entries k r hr
  · exact .inr (h.nextSeq.trans hr)

lemma follows_apply (s : Store) (ops : List WriteOp) : Follows s (s.apply ops) := by
  rw [apply]
  split_ifs
  · refine ⟨by simp only; omega, fun k r hr => ?_⟩
    exact (mem_writeAll hr).imp And.left fun h => by omega
  · refine ⟨by simp only; omega, fun k r hr => ?_⟩
    exact (mem_writeAll hr).imp And.left And.left

lemma Sound.apply (h : s.Sound) (ops : List WriteOp) : (s.apply ops).Sound := by
  have hpos := h.positive
  rw [Store.apply]
  split_ifs
  · refine ⟨by simp only; omega, fun k r hr => ?_⟩
    rcases mem_writeAll hr with ⟨hr, -⟩ | hr
    · have := h.below k r hr
      simp only
      omega
    · simp only
      omega
  · refine ⟨by simp only; omega, fun k r hr => ?_⟩
    rcases mem_writeAll hr with ⟨hr, -⟩ | hr
    · have := h.below k r hr
      simp only
      omega
    · simp only
      omega

lemma Sound.empty : (Store.mk SortedMap.empty 1).Sound := ⟨Nat.one_pos, fun _ _ h => by cases h⟩

lemma Sound.version_lt (h : s.Sound) (k : Bytes) : s.version k < s.nextSeq := by
  rw [version]
  cases hr : s.entries.get k with
  | none => exact h.positive
  | some r => exact (h.below k r hr).2

lemma Sound.version_eq_zero (h : s.Sound) : s.version k = 0 ↔ s.entries.get k = none := by
  rw [version]
  cases hr : s.entries.get k with
  | none => simp
  | some r => simpa using (h.below k r hr).1.ne'

lemma Sound.eq_of_version (h : s.Sound) (hf : Follows s t) (hv : t.version k = s.version k) :
    t.entries.get k = s.entries.get k := by
  cases ht : t.entries.get k with
  | none =>
    have hzero : s.version k = 0 := by rw [← hv, version, ht]; rfl
    exact (h.version_eq_zero.1 hzero).symm
  | some r =>
    refine ((hf.entries k r ht).resolve_right fun hle => ?_).symm
    have hlt := h.version_lt k
    have hr : t.version k = r.sequence := by rw [version, ht]; rfl
    omega

lemma get_eq_of_entries (h : t.entries.get k = s.entries.get k) : t.get k = s.get k := by rw [get, get, h]

end History

section Checks

variable {lo hi : Bytes} {p : Plan}

lemma version_eq_zero_of_get (h : s.entries.get k = none) : s.version k = 0 := by rw [version, h]; rfl

lemma sameRange_iff : s.sameRange snap lo hi ↔ ∀ k, lo ≤ k → k < hi → s.version k = snap.version k := by
  simp only [sameRange, List.all_eq_true, List.mem_append, mem_range, decide_eq_true_eq]
  constructor
  · intro h k hlo hhi
    cases hs : s.entries.get k with
    | some r => exact h _ (.inl ⟨get_eq_some.1 hs, hlo, hhi⟩)
    | none =>
      cases ht : snap.entries.get k with
      | some r => exact h _ (.inr ⟨get_eq_some.1 ht, hlo, hhi⟩)
      | none => rw [version_eq_zero_of_get hs, version_eq_zero_of_get ht]
  · rintro h ⟨k, r⟩ (⟨-, hlo, hhi⟩ | ⟨-, hlo, hhi⟩)
    · exact h k hlo hhi
    · exact h k hlo hhi

lemma unchanged_iff : s.unchanged snap op ↔ ∀ k, op.Touches k → s.version k = snap.version k := by
  cases op with
  | pointPut | pointDel => simp [unchanged, WriteOp.Touches]
  | rangeDel lo hi => simp [unchanged, WriteOp.Touches, sameRange_iff]

lemma version_of_passes (h : s.passes p) (hs : p.snap = some snap) (hop : op ∈ p.writes) (hk : op.Touches k) :
    s.version k = snap.version k := by
  rw [passes, hs] at h
  simp only [Bool.and_eq_true, List.all_eq_true] at h
  exact unchanged_iff.1 (h.2.2 op hop) k hk

lemma holds_of_passes (h : s.passes p) {key : Bytes} {pre : Precondition} (hg : (key, pre) ∈ p.guards) : s.holds p.snap key pre := by
  rw [passes, Bool.and_eq_true_iff, List.all_eq_true] at h
  exact h.1 _ hg

lemma commit_eq_some : s.commit p = some t ↔ s.passes p ∧ t = s.apply p.writes := by
  rw [commit]
  split_ifs with h
  · simp [h, eq_comm]
  · simp [h]

end Checks

end Store

end Bytecask
