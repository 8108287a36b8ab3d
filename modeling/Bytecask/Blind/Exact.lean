import Bytecask.Blind.Checked

/-! The check of a plan against the head, over what the blind key directories stand for: it passes exactly when no key it
covers differs by presence or sequence. -/

namespace Bytecask.Blind

open EngineState List

variable {ε : Type}

section Decides

variable {α β : Type}

def Decides (x : Except (Stop ε) α) (P : Prop) : Prop :=
  match x with
  | .ok _ => P
  | .error (.lost _) => ¬ P
  | .error (.thrown _) => False

variable {x : Except (Stop ε) α} {P Q : Prop}
variable {f : α → Except (Stop ε) β} {l : List α}

lemma Decides.congr (h : Decides x P) (hpq : P ↔ Q) : Decides x Q := propext hpq ▸ h

lemma Decides.map (h : Decides x P) (f : α → β) : Decides (x.map f) P := by
  cases x with
  | ok a => exact h
  | error e => cases e <;> exact h

lemma Decides.bind (h : Decides x P) (hf : ∀ a, P → Decides (f a) Q) : Decides (x >>= f) (P ∧ Q) := by
  cases x with
  | ok a => exact (hf a h).congr ⟨fun hq => ⟨h, hq⟩, And.right⟩
  | error e =>
    cases e with
    | thrown e => exact h
    | lost r => exact fun hpq => h hpq.1

lemma Decides.forM {f : α → Except (Stop ε) Unit} {P : α → Prop} (h : ∀ a ∈ l, Decides (f a) (P a)) :
    Decides (l.forM f) (∀ a ∈ l, P a) := by
  induction l with
  | nil => exact fun a ha => absurd ha not_mem_nil
  | cons a l ih =>
    have hrest := ih fun b hb => h b (mem_cons_of_mem a hb)
    exact ((h a mem_cons_self).bind fun _ _ => hrest).congr forall_mem_cons.symm

lemma Decides.foldlM {f : β → α → Except (Stop ε) β} {P : α → Prop} (h : ∀ b, ∀ a ∈ l, Decides (f b a) (P a)) (b : β) :
    Decides (l.foldlM f b) (∀ a ∈ l, P a) := by
  induction l generalizing b with
  | nil => exact fun a ha => absurd ha not_mem_nil
  | cons a l ih =>
    refine ((h b a mem_cons_self).bind fun b' _ => ?_).congr forall_mem_cons.symm
    exact ih (fun b c hc => h b c (mem_cons_of_mem a hc)) b'

lemma decides_reading {y : Except ε α} {a : α} (hy : y = .ok a) (hf : Decides (f a) P) : Decides (reading y >>= f) P := by
  rw [hy]
  exact hf

lemma decides_unless (c : Prop) [Decidable c] (r : ℕ) (a : α) :
    Decides (if c then throw (.lost r) else return a : Except (Stop ε) α) (¬ c) := by
  split_ifs with hc
  · exact not_not.2 hc
  · exact hc

end Decides

def refs (d : KeyDir) : KeyDirTree := d.map toBlindRef

def Reads (ctx : KeyDirCtx ε) (d : KeyDir) : Prop :=
  ∀ k e, d.get k = some e → ctx.keyAt (toBlindRef e) = .ok ⟨e.sequence, e.valueSize, k⟩

def versionOf (d : KeyDir) (k : Bytes) : Option ℕ := (d.get k).map KeyDirEntry.sequence

def pairsIn (d : KeyDir) (lo hi : Bytes) : Set (Bytes × ℕ) := { x | lo ≤ x.1 ∧ x.1 < hi ∧ versionOf d x.1 = some x.2 }

section Reads

variable {ctx : KeyDirCtx ε} {d : KeyDir}
variable {lo hi : Bytes}

lemma Reads.entryAt (h : Reads ctx d) {k : Bytes} {e : KeyDirEntry} (he : d.get k = some e) :
    ctx.entryAt (toBlindRef e) = .ok e := by
  rw [KeyDirCtx.entryAt, h k e he]
  rfl

lemma Reads.kdGet (h : Reads ctx d) (k : Bytes) : kdGet (refs d) k ctx = .ok (d.get k) := by
  rw [Blind.kdGet, refs, SortedMap.get_map]
  cases hk : d.get k with
  | none => rfl
  | some e =>
    simp only [Option.map_some]
    rw [h.entryAt hk]
    rfl

lemma mem_range_refs {x : Bytes × BlindRef} :
    x ∈ (refs d).range lo hi ↔ ∃ e, d.get x.1 = some e ∧ x.2 = toBlindRef e ∧ lo ≤ x.1 ∧ x.1 < hi := by
  rw [SortedMap.mem_range, ← SortedMap.get_eq_some, refs, SortedMap.get_map, Option.map_eq_some_iff]
  constructor
  · rintro ⟨⟨e, he, hr⟩, hlo, hhi⟩
    exact ⟨e, he, hr.symm, hlo, hhi⟩
  · rintro ⟨e, he, hr, hlo, hhi⟩
    exact ⟨⟨e, he, hr.symm⟩, hlo, hhi⟩

lemma pairsIn_eq_iff {S H : KeyDir} : pairsIn S lo hi = pairsIn H lo hi ↔ ∀ k, lo ≤ k → k < hi → versionOf S k = versionOf H k := by
  constructor
  · intro h k hlo hhi
    refine Option.ext fun n => ?_
    have hmem : (k, n) ∈ pairsIn S lo hi ↔ (k, n) ∈ pairsIn H lo hi := by rw [h]
    constructor
    · exact fun hn => (hmem.1 ⟨hlo, hhi, hn⟩).2.2
    · exact fun hn => (hmem.2 ⟨hlo, hhi, hn⟩).2.2
  · intro h
    ext ⟨k, n⟩
    constructor
    · rintro ⟨hlo, hhi, hn⟩
      exact ⟨hlo, hhi, (h k hlo hhi) ▸ hn⟩
    · rintro ⟨hlo, hhi, hn⟩
      exact ⟨hlo, hhi, (h k hlo hhi).symm ▸ hn⟩

end Reads

/-- A snapshot and a head over key directories `S` and `H`: what they read is there, and a location names one record, of one
key, in both. -/
structure Between (s : Snapshot ε) (t : Transient ε) (S H : KeyDir) : Prop where
  snapshot : s.keyDir = refs S
  head : t.keyDir = refs H
  reads_snapshot : Reads s.kdCtx S
  reads_head : Reads t.kdCtx H
  positive_snapshot : ∀ k e, S.get k = some e → e.sequence ≠ 0
  positive_head : ∀ k e, H.get k = some e → e.sequence ≠ 0
  one_record : ∀ k k' e e', S.get k = some e → H.get k' = some e' → toBlindRef e = toBlindRef e' → k = k' ∧ e = e'

def SameFor (S H : KeyDir) : WriteOp → Prop
  | .pointPut k _ => versionOf S k = versionOf H k
  | .pointDel k => versionOf S k = versionOf H k
  | .rangeDel lo hi => pairsIn S lo hi = pairsIn H lo hi

def GuardHolds (S H : KeyDir) (k : Bytes) : Precondition → Prop
  | .none => True
  | .mustExist => (H.get k).isSome
  | .mustBeAbsent => H.get k = none
  | .mustBeUnchanged => versionOf S k = versionOf H k

structure WritePlan.Unchanged (p : WritePlan ε) (S H : KeyDir) : Prop where
  guards : ∀ k g, p.guards.get k = some g → GuardHolds S H k g
  ranges : ∀ g ∈ p.rangeGuards, pairsIn S g.lo g.hi = pairsIn H g.lo g.hi
  writes : ∀ op ∈ p.writes, SameFor S H op

section Between

variable {s : Snapshot ε} {t : Transient ε} {S H : KeyDir} {p : WritePlan ε}
variable {op : WriteOp} {i : ℕ} {k : Bytes}

lemma sequenceOr0_eq_iff {c e : Option KeyDirEntry} (hc : ∀ x, c = some x → x.sequence ≠ 0) (he : ∀ x, e = some x → x.sequence ≠ 0) :
    sequenceOr0 c = sequenceOr0 e ↔ e.map KeyDirEntry.sequence = c.map KeyDirEntry.sequence := by
  cases c with
  | none =>
    cases e with
    | none => simp
    | some x => simpa [sequenceOr0, eq_comm] using he x rfl
  | some y =>
    cases e with
    | none => simpa [sequenceOr0] using hc y rfl
    | some x => simp [sequenceOr0, eq_comm]

section

variable (h : Between s t S H)

include h

lemma Between.headGet (k : Bytes) : kdGet t.keyDir k t.kdCtx = .ok (H.get k) := by
  rw [h.head]
  exact h.reads_head.kdGet k

lemma Between.snapGet (k : Bytes) : kdGet s.keyDir k s.kdCtx = .ok (S.get k) := by
  rw [h.snapshot]
  exact h.reads_snapshot.kdGet k

lemma Between.sequences (k : Bytes) :
    sequenceOr0 (H.get k) = sequenceOr0 (S.get k) ↔ versionOf S k = versionOf H k :=
  sequenceOr0_eq_iff (h.positive_head k) (h.positive_snapshot k)

lemma Between.rangeChanged (lo hi : Bytes) : Decides (t.rangeChanged s lo hi) (pairsIn S lo hi = pairsIn H lo hi) := by
  have hinserted : ∀ x ∈ t.keyDir.range lo hi, Decides (do
      let entry ← reading (t.kdCtx.entryAt x.2)
      let snapEntry ← reading (kdGet s.keyDir x.1 s.kdCtx)
      if entry.sequence ≠ sequenceOr0 snapEntry then throw (.lost entry.sequence) : Except (Stop ε) Unit)
      (versionOf S x.1 = versionOf H x.1) := by
    rintro ⟨k, r⟩ hx
    rw [h.head, mem_range_refs] at hx
    obtain ⟨e, he, rfl, -, -⟩ := hx
    refine decides_reading (h.reads_head.entryAt he) (decides_reading (h.snapGet k) ?_)
    have hseq := h.sequences k
    rw [he] at hseq
    exact (decides_unless _ _ _).congr (not_not.trans hseq)
  have hdeleted : ∀ x ∈ s.keyDir.range lo hi, Decides (do
      let cur ← reading (kdGet t.keyDir x.1 t.kdCtx)
      if cur.isNone then throw (.lost t.headLatest) : Except (Stop ε) Unit) ((H.get x.1).isSome) := by
    rintro ⟨k, r⟩ hx
    refine decides_reading (h.headGet k) ((decides_unless _ _ _).congr ?_)
    rw [Bool.not_eq_true, Option.isNone_eq_false_iff]
  refine ((Decides.forM hinserted).bind fun _ _ => Decides.forM hdeleted).congr ?_
  rw [pairsIn_eq_iff]
  constructor
  · rintro ⟨hins, hdel⟩ k hlo hhi
    cases hk : H.get k with
    | some e => exact hins (k, toBlindRef e) (by rw [h.head]; exact mem_range_refs.2 ⟨e, hk, rfl, hlo, hhi⟩)
    | none =>
      cases hs : S.get k with
      | none => rw [versionOf, versionOf, hk, hs]
      | some e =>
        have hin := hdel (k, toBlindRef e) (by rw [h.snapshot]; exact mem_range_refs.2 ⟨e, hs, rfl, hlo, hhi⟩)
        rw [hk] at hin
        cases hin
  · intro hsame
    refine ⟨fun x hx => ?_, fun x hx => ?_⟩
    · rw [h.head, mem_range_refs] at hx
      obtain ⟨-, -, -, hlo, hhi⟩ := hx
      exact hsame x.1 hlo hhi
    · rw [h.snapshot, mem_range_refs] at hx
      obtain ⟨e, he, -, hlo, hhi⟩ := hx
      have hv := hsame x.1 hlo hhi
      rw [versionOf, versionOf, he] at hv
      cases hk : H.get x.1 with
      | none =>
        rw [hk] at hv
        cases hv
      | some _ => rfl

lemma Between.checkGuard (hs : p.snap = some s) (k : Bytes) (g : Precondition) :
    Decides (t.checkGuard p k g) (GuardHolds S H k g) := by
  refine decides_reading (h.headGet k) ?_
  cases g with
  | none => exact trivial
  | mustExist =>
    split_ifs with hk <;> exact hk
  | mustBeAbsent => exact (decides_unless _ _ _).congr Option.not_isSome_iff_eq_none
  | mustBeUnchanged =>
    simp only [hs]
    refine decides_reading (h.snapGet k) ?_
    have hseq := h.sequences k
    split_ifs with hk
    · exact hseq.1 hk
    · exact mt hseq.2 hk

lemma Between.snapshotEntry (hs : p.snap = some s) (hi : p.writes[i]? = some op)
    (hk : s.resolveEntry op = kdGet s.keyDir k s.kdCtx) : p.snapshotEntry s i k = .ok (S.get k) := by
  rw [WritePlan.snapshotEntry]
  rcases p.resolved with hnil | ⟨s', hs', hall⟩
  · rw [hnil]
    exact h.snapGet k
  · cases hs.symm.trans hs'
    obtain ⟨e, he, hr⟩ := List.getElem?_of_mapM_ok hall hi
    rw [hk, h.snapGet] at hr
    cases hr
    rw [he]

lemma Between.pointConflict (hk : p.snapshotEntry s i k = .ok (S.get k)) :
    Decides (t.pointConflict p s i k) (versionOf S k = versionOf H k) := by
  refine decides_reading hk ?_
  rw [versionOf, versionOf]
  cases hs : S.get k with
  | none =>
    refine decides_reading (h.headGet k) ?_
    cases hc : H.get k with
    | none => rfl
    | some c => exact nofun
  | some e =>
    by_cases hat : kdHolds t.keyDir k e = true
    · rw [if_pos (show (some e).any (fun at' => kdHolds _ k at') = true from hat)]
      have href : t.keyDir.get k = some _ := of_decide_eq_true hat
      rw [h.head, refs, SortedMap.get_map, Option.map_eq_some_iff] at href
      obtain ⟨c, hc, href⟩ := href
      obtain ⟨-, rfl⟩ := h.one_record k k e c hs hc href.symm
      rw [hc]
      exact rfl
    · rw [if_neg (show ¬ (some e).any (fun at' => kdHolds _ k at') = true from hat)]
      refine decides_reading (h.headGet k) ?_
      cases hc : H.get k with
      | none => exact nofun
      | some c =>
        refine (decides_unless _ _ _).congr (not_not.trans ?_)
        rw [Option.map_some, Option.map_some, Option.some_inj]
        exact eq_comm

lemma Between.writeConflict (hs : p.snap = some s) (hi : p.writes[i]? = some op) :
    Decides (t.writeConflict p s (op, i)) (SameFor S H op) := by
  cases op with
  | pointPut | pointDel => exact h.pointConflict (h.snapshotEntry hs hi rfl)
  | rangeDel lo up => exact h.rangeChanged lo up

lemma Between.validatePreconditions (hs : p.snap = some s) : Decides (t.validatePreconditions p false) (p.Unchanged S H) := by
  have hguards : Decides (p.guards.entries.foldlM (fun r g => (t.checkGuard p g.1 g.2).map (max r)) 0)
      (∀ g ∈ p.guards.entries, GuardHolds S H g.1 g.2) :=
    Decides.foldlM (fun r g _ => (h.checkGuard hs g.1 g.2).map _) 0
  have hranges : ∀ heldOn, Decides (p.rangeGuards.foldlM (fun _ g => t.checkRangeGuard s g) heldOn)
      (∀ g ∈ p.rangeGuards, pairsIn S g.lo g.hi = pairsIn H g.lo g.hi) := by
    refine Decides.foldlM fun _ g _ => ?_
    exact (h.rangeChanged g.lo g.hi).map (fun _ => t.headLatest)
  have hwrites : Decides (p.writes.zipIdx.forM (t.writeConflict p s)) (∀ w ∈ p.writes.zipIdx, SameFor S H w.1) :=
    Decides.forM fun w hw => h.writeConflict hs (mem_zipIdx_iff_getElem?.1 hw)
  have hall : Decides (t.validatePreconditions p false) ((∀ g ∈ p.guards.entries, GuardHolds S H g.1 g.2) ∧
      (∀ g ∈ p.rangeGuards, pairsIn S g.lo g.hi = pairsIn H g.lo g.hi) ∧ ∀ w ∈ p.writes.zipIdx, SameFor S H w.1) := by
    rw [Transient.validatePreconditions, hs]
    exact hguards.bind fun heldOn _ => (hranges heldOn).bind fun held _ => hwrites.map (fun _ => held)
  refine hall.congr ?_
  constructor
  · rintro ⟨hg, hr, hw⟩
    refine ⟨fun k g hk => hg _ (SortedMap.get_eq_some.1 hk), hr, fun op hop => ?_⟩
    obtain ⟨i, hi⟩ := mem_iff_getElem?.1 hop
    exact hw (op, i) (mem_zipIdx_iff_getElem?.2 hi)
  · rintro ⟨hg, hr, hw⟩
    refine ⟨fun g hmem => hg g.1 g.2 (SortedMap.get_eq_some.2 hmem), hr, fun w hmem => hw w.1 ?_⟩
    exact mem_of_getElem? (mem_zipIdx_iff_getElem?.1 hmem)

end

def WritePlan.unresolved (p : WritePlan ε) : WritePlan ε := { p with snapEntries := [], resolved := .inl rfl }

lemma Between.validatePreconditions_unresolved (h : Between s t S H) (hs : p.snap = some s) (deferPuts : Bool) :
    t.validatePreconditions p.unresolved deferPuts = t.validatePreconditions p deferPuts := by
  have hwrite : ∀ w ∈ p.writes.zipIdx, t.writeConflict p.unresolved s w = t.writeConflict p s w := by
    rintro ⟨op, i⟩ hw
    have hi := List.mem_zipIdx_iff_getElem?.1 hw
    have hpoint : ∀ k, s.resolveEntry op = kdGet s.keyDir k s.kdCtx → t.pointConflict p.unresolved s i k = t.pointConflict p s i k := by
      intro k hk
      have hq : p.unresolved.snapshotEntry s i k = .ok (S.get k) := h.snapGet k
      rw [Transient.pointConflict, Transient.pointConflict, h.snapshotEntry hs hi hk, hq]
    cases op with
    | pointPut k | pointDel k => exact hpoint k rfl
    | rangeDel lo up => rfl
  have hwrites : p.writes.zipIdx.forM (t.writeConflict p.unresolved s) = p.writes.zipIdx.forM (t.writeConflict p s) :=
    List.forM_congr hwrite
  have hsnap : p.unresolved.snap = some s := hs
  rw [Transient.validatePreconditions, Transient.validatePreconditions, hs, hsnap]
  simp only [← hwrites]
  rfl

end Between

end Bytecask.Blind
