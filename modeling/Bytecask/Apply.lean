import Bytecask.Mirror
import Bytecask.WritePlan

/-! A plan applied on the leader, by either path, leaves what ingesting its entries would leave. -/

namespace Bytecask

open List

/-- The plan's snapshot was taken of the engine that now appends to `a`: each record of it is where it
was, unless its whole file is gone. -/
def WritePlan.Honest (p : WritePlan) (C : Contents) (a : FileId) : Prop :=
  ∀ k d, p.snapGet k = some d → C.RecordAt k d ∨ (d.fileId ≠ a ∧ C d.fileId = [])

namespace WritePlan.Honest

variable {p : WritePlan} {C : Contents} {a : FileId}

lemma extend (h : p.Honest C a) (es : List DataEntry) : p.Honest (C.extend a es) a := by
  intro k d hd
  rcases h k d hd with hr | ⟨hne, hgone⟩
  · exact .inl (hr.extend a es)
  · exact .inr ⟨hne, (C.extend_ne hne es).trans hgone⟩

lemma eq_of_sameRecord (h : p.Honest C a) {k : Bytes} {d e : KeyDirEntry} (hd : p.snapGet k = some d)
    (he : C.RecordAt k e) (hs : e.SameRecord d) : e = d := by
  rcases h k d hd with hr | ⟨-, hgone⟩
  · exact he.unique hr hs
  · obtain ⟨v, hv⟩ := he.mem
    rw [hs.1, hgone] at hv
    cases hv

end WritePlan.Honest

namespace EngineState

section NextSeq

def withNextSeq (s : EngineState) (n : ℕ) : EngineState := { s with nextSeq := n }

lemma applyIngestEntry_withNextSeq (s : EngineState) (n : ℕ) (e : DataEntry) (offset : ℕ) :
    (s.withNextSeq n).applyIngestEntry e offset = (s.applyIngestEntry e offset).withNextSeq n := by
  have hfold : ∀ (gone : List (Bytes × KeyDirEntry)) (s : EngineState),
      gone.foldl (fun t e => t.release e.1 (some e.2)) (s.withNextSeq n) =
        (gone.foldl (fun t e => t.release e.1 (some e.2)) s).withNextSeq n := by
    intro gone
    induction gone with
    | nil => exact fun s => rfl
    | cons x gone ih => exact fun s => ih (s.release x.1 (some x.2))
  obtain ⟨seq, ty, key, value⟩ := e
  cases ty
  case put => cases h : s.keyDir.get key <;> simp [applyIngestEntry, kdPut, release, h, patch, withNextSeq]
  case delete => cases h : s.keyDir.get key <;> simp [applyIngestEntry, kdErase, release, h, patch, withNextSeq]
  case rangeDel =>
    simp only [applyIngestEntry, eraseRange_eq, lostKeys, hfold]
    rfl
  case bulkBegin | bulkEnd => rfl
  case changeMarker => rfl

lemma applyEntries_withNextSeq (s : EngineState) (n : ℕ) (es : List (DataEntry × ℕ)) :
    (s.withNextSeq n).applyEntries es = (s.applyEntries es).withNextSeq n := by
  induction es generalizing s with
  | nil => rfl
  | cons p es ih => rw [applyEntries_cons, applyEntries_cons, applyIngestEntry_withNextSeq, ih]

end NextSeq

section Write

variable {C : Contents} {B : FileId → ℕ × ℕ} {s : EngineState} {p : WritePlan}

lemma get_of_holds (h : Indexed C B s) (hp : p.Honest C s.activeFileId) {k : Bytes} {d : KeyDirEntry} (hd : p.snapGet k = some d)
    (hk : kdHolds s.keyDir k d = true) : s.keyDir.get k = some d := by
  obtain ⟨e, he, hs⟩ := kdHolds_iff.1 hk
  rw [he, hp.eq_of_sameRecord hd ((h.keys k e).1 he).1 hs]

lemma put_by_location (h : Indexed C B s) (hp : p.Honest C s.activeFileId) (k : Bytes) (e : KeyDirEntry) :
    ((p.snapGet k).bind (fun at' => (kdPutAt s.keyDir k at' e).map (fun d => (d, some (kdHit at'))))).getD
      (kdPut s.keyDir k e) = kdPut s.keyDir k e := by
  cases hd : p.snapGet k with
  | none => rfl
  | some d =>
    by_cases hk : kdHolds s.keyDir k d = true
    · simp [kdPutAt, hk, kdPut, kdHit, get_of_holds h hp hd hk]
    · simp [kdPutAt, hk]

lemma erase_by_location (h : Indexed C B s) (hp : p.Honest C s.activeFileId) (k : Bytes) :
    ((p.snapGet k).bind (fun at' => (kdEraseAt s.keyDir k at').map (fun d => (d, some (kdHit at'))))).getD
      (kdErase s.keyDir k) = kdErase s.keyDir k := by
  cases hd : p.snapGet k with
  | none => rfl
  | some d =>
    by_cases hk : kdHolds s.keyDir k d = true
    · simp [kdEraseAt, hk, kdErase, kdHit, get_of_holds h hp hd hk]
    · simp [kdEraseAt, hk]

lemma applyWrite_eq (h : Indexed C B s) (hp : p.Honest C s.activeFileId) (op : WriteOp) (offset : ℕ) :
    s.applyWrite p op offset =
      (s.applyIngestEntry (op.entry s.nextSeq) offset).withNextSeq (s.nextSeq + 1) := by
  cases op with
  | pointPut key value =>
    simp only [applyWrite, WritePlan.resolvedEntry, put_by_location h hp]
    rfl
  | pointDel key =>
    simp only [applyWrite, WritePlan.resolvedEntry, erase_by_location h hp]
    rfl
  | rangeDel lo hi => rfl

end Write

section Sequences

variable {ops : List WriteOp} {e : DataEntry} (s : EngineState) (p : WritePlan)

lemma opEntries_sequences (seq : ℕ) (ops : List WriteOp) :
    (opEntries seq ops).map DataEntry.sequence = List.range' seq ops.length := by
  induction ops generalizing seq with
  | nil => rfl
  | cons op ops ih =>
    rw [opEntries, map_cons, ih, length_cons, range'_succ]
    cases op <;> rfl

lemma prepareWrite_sequences : (s.prepareWrite p).map DataEntry.sequence = List.range' s.nextSeq (s.prepareWrite p).length := by
  rw [prepareWrite]
  split_ifs
  · simp only [cons_append, map_cons, map_append, opEntries_sequences, map_nil, length_cons,
      length_append, opEntries_length, length_nil, Nat.zero_add]
    rw [range'_succ, range'_concat, Nat.one_mul]
  · rw [opEntries_sequences, opEntries_length]

lemma opEntry_shaped (seq : ℕ) (op : WriteOp) : (op.entry seq).Shaped := by
  cases op <;> simp [WriteOp.entry, DataEntry.Shaped]

lemma mem_opEntries {seq : ℕ} (h : e ∈ opEntries seq ops) : ∃ op ∈ ops, ∃ n, e = op.entry n := by
  induction ops generalizing seq with
  | nil => cases h
  | cons op ops ih =>
    rcases mem_cons.1 h with rfl | h
    · exact ⟨op, mem_cons_self, seq, rfl⟩
    · obtain ⟨op', hop, hn⟩ := ih h
      exact ⟨op', mem_cons_of_mem op hop, hn⟩

lemma prepareWrite_shaped : ∀ e ∈ s.prepareWrite p, e.Shaped := by
  intro e he
  have hop : ∀ seq, e ∈ opEntries seq p.writes → e.Shaped := by
    intro seq he
    obtain ⟨op, -, n, rfl⟩ := mem_opEntries he
    exact opEntry_shaped n op
  rw [prepareWrite] at he
  split_ifs at he with hm
  · rcases mem_append.1 he with he | he
    · rcases mem_cons.1 he with rfl | he
      · exact ⟨rfl, rfl⟩
      · exact hop _ he
    · rw [mem_singleton.1 he]
      exact ⟨rfl, rfl⟩
  · exact hop _ he

lemma prepareWrite_written (hs : 0 < s.nextSeq) : Written (s.prepareWrite p) ∧
    ∀ e ∈ s.prepareWrite p, s.nextSeq ≤ e.sequence := by
  have hseq := s.prepareWrite_sequences p
  have hle : ∀ e ∈ s.prepareWrite p, s.nextSeq ≤ e.sequence := by
    intro e he
    have hm : e.sequence ∈ (s.prepareWrite p).map DataEntry.sequence := mem_map_of_mem he
    rw [hseq, mem_range'_1] at hm
    exact hm.1
  have hasc : ((s.prepareWrite p).map DataEntry.sequence).Pairwise (· < ·) := by
    rw [hseq]
    exact pairwise_lt_range'
  exact ⟨⟨s.prepareWrite_shaped p, pairwise_map.1 hasc, fun e he => hs.trans_le (hle e he)⟩, hle⟩

lemma opEntries_types {seq : ℕ} (h : e ∈ opEntries seq ops) :
    e.entryType ≠ .bulkBegin ∧ e.entryType ≠ .bulkEnd ∧ e.entryType ≠ .changeMarker := by
  obtain ⟨op, -, n, rfl⟩ := mem_opEntries h
  cases op <;> simp [WriteOp.entry]

lemma prepareWrite_markersIn : markersIn (s.prepareWrite p) = [] := by
  rw [markersIn, map_eq_nil_iff, filter_eq_nil_iff]
  intro e he
  rw [decide_eq_true_eq]
  rw [prepareWrite] at he
  split_ifs at he with hm
  · rcases mem_append.1 he with he | he
    · rcases mem_cons.1 he with rfl | he
      · simp
      · exact (opEntries_types he).2.2
    · rw [mem_singleton.1 he]
      simp
  · exact (opEntries_types he).2.2

lemma prepareWrite_isUnit {p : WritePlan} (hp : p.writes ≠ []) : IsUnit (s.prepareWrite p) := by
  rw [prepareWrite]
  split_ifs with hm
  · exact IsUnit.batch rfl rfl (fun x hx => (opEntries_types hx).2)
  · obtain ⟨op, hop⟩ : ∃ op, p.writes = [op] := by
      rw [WritePlan.multi, decide_eq_true_eq, not_lt] at hm
      exact length_eq_one_iff.1 (le_antisymm hm (length_pos_of_ne_nil hp))
    rw [hop]
    exact IsUnit.single (@opEntries_types [op] _ _ mem_cons_self).1

end Sequences

section Writes

variable {C : Contents} {B : FileId → ℕ × ℕ} {s : EngineState} {p : WritePlan}
variable {es : List DataEntry}

/-- What the writes of a plan find before each of them. -/
structure Ready (C : Contents) (B : FileId → ℕ × ℕ) (p : WritePlan) (s : EngineState) : Prop where
  indexed : Indexed C B s
  honest : p.Honest C s.activeFileId
  below : ∀ id, ∀ x ∈ C id, x.sequence < s.nextSeq

lemma Ready.entry {e : DataEntry} (h : Ready C B p s) (hs : e.Shaped) (hseq : e.sequence = s.nextSeq) :
    Ready (C.extend s.activeFileId [e]) B p
      ((s.applyIngestEntry e (bytesOf (C s.activeFileId))).withNextSeq (s.nextSeq + 1)) := by
  have hi := h.indexed.entry hs (hseq.symm ▸ h.below)
  refine ⟨⟨hi.keys, hi.stats⟩, ?_, fun id x hx => ?_⟩
  · exact (s.applyIngestEntry_activeFileId e _).symm ▸ h.honest.extend _
  · rcases Contents.mem_extend.1 hx with hx | ⟨-, hx⟩
    · exact Nat.lt_succ_of_lt (h.below id x hx)
    · rw [mem_singleton.1 hx, hseq]
      exact Nat.lt_succ_self _

lemma bytesOf_extend_active (e : DataEntry) (size n : ℕ) :
    bytesOf (C.extend s.activeFileId [e] ((s.applyIngestEntry e size).withNextSeq n).activeFileId) =
      bytesOf (C s.activeFileId) + e.size := by
  have hact : ((s.applyIngestEntry e size).withNextSeq n).activeFileId = s.activeFileId :=
    s.applyIngestEntry_activeFileId e size
  rw [hact, Contents.extend_self, bytesOf_append, bytesOf_cons, bytesOf_nil, Nat.add_zero]

lemma applyWrite_fold (h : Ready C B p s) (ops : List WriteOp) :
    (ops.zip (offsetsFrom (bytesOf (C s.activeFileId)) (opEntries s.nextSeq ops))).foldl
        (fun t op => t.applyWrite p op.1 op.2) s =
      (s.applyEntries (located (bytesOf (C s.activeFileId)) (opEntries s.nextSeq ops))).withNextSeq
        (s.nextSeq + ops.length) := by
  induction ops generalizing C s with
  | nil => rfl
  | cons op ops ih =>
    have hrest := ih (h.entry (opEntry_shaped _ op) (by cases op <;> rfl))
    rw [bytesOf_extend_active, applyEntries_withNextSeq] at hrest
    have hlen : s.nextSeq + 1 + ops.length = s.nextSeq + (op :: ops).length := by
      rw [length_cons]
      omega
    rw [← hlen]
    simp only [opEntries, offsetsFrom, located, map_cons, zip_cons_cons, foldl_cons,
      applyWrite_eq h.indexed h.honest, applyEntries_cons]
    exact hrest

lemma applyEntries_append (s : EngineState) (es fs : List (DataEntry × ℕ)) :
    s.applyEntries (es ++ fs) = (s.applyEntries es).applyEntries fs := by
  rw [applyEntries, applyEntries, applyEntries, foldl_append]

lemma zip_offsetsFrom_append (ops : List WriteOp) (hlen : es.length = ops.length) (size : ℕ)
    (fs : List DataEntry) : ops.zip (offsetsFrom size (es ++ fs)) = ops.zip (offsetsFrom size es) := by
  rw [offsetsFrom, offsetsFrom, located_append, map_append, ← append_nil ops,
    zip_append (by simpa using hlen.symm)]
  simp

def writesApplied (s : EngineState) (p : WritePlan) (offsets : List ℕ) : EngineState :=
  let began := if p.multi then s.applyMarker else s
  let ops := p.writes.zip (if p.multi then offsets.tail else offsets)
  let written := ops.foldl (fun t op => t.applyWrite p op.1 op.2) began
  if p.multi then written.applyMarker else written

lemma writesApplied_eq (h : Ready C B p s) :
    s.writesApplied p (offsetsFrom (bytesOf (C s.activeFileId)) (s.prepareWrite p)) =
      (s.applyEntries (located (bytesOf (C s.activeFileId)) (s.prepareWrite p))).withNextSeq
        (s.nextSeq + (s.prepareWrite p).length) := by
  by_cases hm : p.multi = true
  · let b : DataEntry := ⟨s.nextSeq, .bulkBegin, [], []⟩
    let z : DataEntry := ⟨s.nextSeq + 1 + p.writes.length, .bulkEnd, [], []⟩
    have hprep : s.prepareWrite p = b :: (opEntries (s.nextSeq + 1) p.writes ++ [z]) := by
      rw [prepareWrite, if_pos hm, cons_append]
    have hfold := applyWrite_fold (@Ready.entry C B s p b h ⟨rfl, rfl⟩ rfl) p.writes
    rw [bytesOf_extend_active, applyEntries_withNextSeq] at hfold
    generalize bytesOf (C s.activeFileId) = size at hfold ⊢
    have hlen : (s.prepareWrite p).length = p.writes.length + 2 := by
      rw [hprep]
      simp
    have hbegin : s.applyMarker = (s.applyIngestEntry b size).withNextSeq (s.nextSeq + 1) := rfl
    have hend : ∀ (t : EngineState) (n offset : ℕ),
        (t.withNextSeq n).applyMarker = (t.applyIngestEntry z offset).withNextSeq (n + 1) := fun t n offset => rfl
    have htail : (offsetsFrom size (b :: (opEntries (s.nextSeq + 1) p.writes ++ [z]))).tail =
        offsetsFrom (size + b.size) (opEntries (s.nextSeq + 1) p.writes ++ [z]) := rfl
    rw [hlen, writesApplied, if_pos hm, if_pos hm, if_pos hm, hprep, htail,
      zip_offsetsFrom_append _ (opEntries_length _ _), hbegin]
    refine (congrArg _ hfold).trans ?_
    have hnext : s.nextSeq + (p.writes.length + 2) = s.nextSeq + 1 + p.writes.length + 1 := by omega
    rw [located, applyEntries_cons, located_append, applyEntries_append, hnext]
    exact hend _ _ 0
  · have hprep : s.prepareWrite p = opEntries s.nextSeq p.writes := by rw [prepareWrite, if_neg hm]
    rw [writesApplied, if_neg hm, if_neg hm, if_neg hm, hprep, applyWrite_fold h, opEntries_length]

lemma prepareWrite_ne_nil (s : EngineState) {p : WritePlan} (hne : p.writes ≠ []) : s.prepareWrite p ≠ [] := by
  rw [prepareWrite]
  split_ifs
  · simp
  · intro h
    have hlen := congrArg List.length h
    rw [opEntries_length] at hlen
    exact hne (length_eq_zero_iff.1 hlen)

lemma prepareWrite_lastSeq (s : EngineState) {p : WritePlan} (hs : 0 < s.nextSeq) (hne : p.writes ≠ []) :
    lastSeq (s.prepareWrite p) + 1 = s.nextSeq + (s.prepareWrite p).length := by
  have hpos := length_pos_of_ne_nil (s.prepareWrite_ne_nil hne)
  have hlast : (s.prepareWrite p).getLast?.map DataEntry.sequence =
      some (s.nextSeq + (s.prepareWrite p).length - 1) := by
    rw [← List.getLast?_map, prepareWrite_sequences, List.getLast?_range', if_neg (Nat.ne_of_gt hpos)]
  rw [(s.prepareWrite_written p hs).1.lastSeq_eq, hlast, Option.getD_some]
  omega

lemma prepareWrite_head (s : EngineState) {p : WritePlan} {e : DataEntry}
    (h : s.prepareWrite p = e :: es) : e.sequence = s.nextSeq := by
  have hseq := s.prepareWrite_sequences p
  rw [h, map_cons, length_cons, range'_succ] at hseq
  exact (List.cons.inj hseq).1

lemma applyWrites_eq (h : Mirror C s) (hp : p.Honest C s.activeFileId) (hne : p.writes ≠ []) :
    s.applyWrites p (offsetsFrom (bytesOf (C s.activeFileId)) (s.prepareWrite p)) =
      s.applyIngest (s.prepareWrite p) (offsetsFrom (bytesOf (C s.activeFileId)) (s.prepareWrite p)) := by
  have happ := writesApplied_eq ⟨h.indexed, hp, h.below⟩
  have hlast := s.prepareWrite_lastSeq h.positive hne
  have hwrites : ∀ offsets, s.applyWrites p offsets = (s.writesApplied p offsets).patch s.activeFileId
      { minSequence := s.nextSeq, maxSequence := (s.writesApplied p offsets).nextSeq - 1 } := fun offsets => rfl
  rw [hwrites, happ]
  obtain ⟨e, es, hes⟩ := exists_cons_of_ne_nil (s.prepareWrite_ne_nil hne)
  have hhead := s.prepareWrite_head hes
  have hle : s.nextSeq ≤ lastSeq (s.prepareWrite p) := by
    rw [hes, ← hhead]
    exact le_lastSeq mem_cons_self
  rw [← hlast]
  rw [hes] at hle ⊢
  rw [applyIngest_eq, if_pos hle, hhead]
  rfl

end Writes

end EngineState

end Bytecask
