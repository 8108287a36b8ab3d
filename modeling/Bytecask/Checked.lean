import Bytecask.Apply

/-! Puts checked by the descents that apply them: a plan is applied as `apply_writes` would apply it,
or taken back without a trace. -/

namespace Bytecask.EngineState

open List SortedMap WriteOp

def placed (fileId : FileId) (seq : ℕ) : List (WriteOp × ℕ) → List (Bytes × KeyDirEntry)
  | [] => []
  | (.pointPut key value, offset) :: rest => (key, ⟨seq, offset, fileId, value.length⟩) :: placed fileId (seq + 1) rest
  | (.pointDel _, _) :: rest => placed fileId (seq + 1) rest
  | (.rangeDel _ _, _) :: rest => placed fileId (seq + 1) rest

def Undo.bytesIn (u : Undo) (id : FileId) : ℕ :=
  (u.was.map (fun w => if w.fileId = id then entrySize u.key.length w.valueSize else 0)).getD 0

def removedIn (undo : List Undo) (id : FileId) : ℕ := (undo.map (fun u => u.bytesIn id)).sum

def placedIn (xs : List (Bytes × KeyDirEntry)) (id : FileId) : ℕ :=
  (xs.map (fun x => if x.2.fileId = id then entrySize x.1.length x.2.valueSize else 0)).sum

lemma abandon_put {d d₀ : KeyDir} {undo : List Undo} (h : abandon d undo = some d₀) (key : Bytes) (e : KeyDirEntry) :
    abandon (d.insert key e) (⟨key, e, d.get key⟩ :: undo) = some d₀ := by
  have hsame : kdHolds (d.insert key e) key e = true := kdHolds_iff.2 ⟨e, by simp, rfl, rfl⟩
  have hstep : takeBack (d.insert key e) ⟨key, e, d.get key⟩ = some d := by
    cases hk : d.get key with
    | some was => simp [takeBack, kdRestore, kdPutAt, hsame, insert_insert, insert_of_get hk]
    | none => simp [takeBack, kdRemove, kdEraseAt, hsame, erase_of_get_none hk]
  rw [abandon, foldlM_cons, hstep]
  exact h

lemma liveBytesIn_step (d : KeyDir) (key : Bytes) (e : KeyDirEntry) (id : FileId) :
    liveBytesIn (d.insert key e) id + Undo.bytesIn ⟨key, e, d.get key⟩ id =
      liveBytesIn d id + if e.fileId = id then entrySize key.length e.valueSize else 0 := by
  have hwas : Undo.bytesIn ⟨key, e, d.get key⟩ id =
      ((d.get key).map (fun w => if w.fileId = id then entrySize key.length w.valueSize else 0)).getD 0 := rfl
  rw [liveBytesIn_insert, liveBytesIn_erase d key id, hwas]
  omega

section Spec

variable {R : Bytes → KeyDirEntry → Prop} {p : WritePlan}
variable (hsnap : ∀ k d e, p.snapGet k = some d → R k e → e.SameRecord d → e = d)

include hsnap

lemma checkedPuts_spec (fileId : FileId) (ops : List (WriteOp × ℕ)) (hputs : ∀ op ∈ ops, op.1.isPointPut = true)
    (d d₀ : KeyDir) (seq : ℕ) (undo : List Undo) (hd : ∀ k e, d.get k = some e → R k e)
    (hnew : ∀ x ∈ placed fileId seq ops, R x.1 x.2) (hab : abandon d undo = some d₀) :
    match checkedPuts p fileId ops d seq undo with
    | .error (d', undo') => abandon d' undo' = some d₀
    | .ok (d', undo') => d' = (placed fileId seq ops).foldl (fun d x => d.insert x.1 x.2) d ∧
        ∀ id, liveBytesIn d' id + removedIn undo' id =
          liveBytesIn d id + removedIn undo id + placedIn (placed fileId seq ops) id := by
  induction ops generalizing d seq undo with
  | nil => exact ⟨rfl, fun id => rfl⟩
  | cons op ops ih =>
    obtain ⟨op, offset⟩ := op
    cases op with
    | pointDel | rangeDel => simp [isPointPut] at hputs
    | pointPut key value =>
      let e : KeyDirEntry := ⟨seq, offset, fileId, value.length⟩
      have hputs' : ∀ op ∈ ops, op.1.isPointPut = true := fun op hop => hputs op (mem_cons_of_mem _ hop)
      have hrest := ih hputs' (d.insert key e) (seq + 1) (⟨key, e, d.get key⟩ :: undo)
        (by
          intro k x hx
          rw [get_insert] at hx
          split_ifs at hx with hk
          · cases hx
            exact hk ▸ hnew (key, e) mem_cons_self
          · exact hd k x hx)
        (fun x hx => hnew x (mem_cons_of_mem _ hx)) (abandon_put hab key e)
      have hgoal : match checkedPuts p fileId ops (d.insert key e) (seq + 1) (⟨key, e, d.get key⟩ :: undo) with
          | .error (d', undo') => abandon d' undo' = some d₀
          | .ok (d', undo') =>
            d' = (placed fileId seq ((.pointPut key value, offset) :: ops)).foldl (fun d x => d.insert x.1 x.2) d ∧
              ∀ id, liveBytesIn d' id + removedIn undo' id = liveBytesIn d id + removedIn undo id +
                placedIn (placed fileId seq ((.pointPut key value, offset) :: ops)) id := by
        revert hrest
        cases checkedPuts p fileId ops (d.insert key e) (seq + 1) (⟨key, e, d.get key⟩ :: undo) with
        | error r => exact id
        | ok r =>
          rintro ⟨hfold, hlive⟩
          refine ⟨hfold, fun id => ?_⟩
          have hstep := liveBytesIn_step d key e id
          have hrest := hlive id
          simp only [removedIn, placedIn, placed, map_cons, sum_cons] at hrest ⊢
          simp only [e] at hstep hrest
          omega
      cases hs : p.snapGet key with
      | some at' =>
        by_cases hk : kdHolds d key at' = true
        · obtain ⟨x, hx, hsame⟩ := kdHolds_iff.1 hk
          have hget : d.get key = some at' := by rw [hx, hsnap key at' x hs (hd key x hx) hsame]
          rw [hget] at hgoal
          simpa only [checkedPuts, hs, kdPutAt, hk, if_true, kdHit] using hgoal
        · rw [Bool.not_eq_true] at hk
          simp only [checkedPuts, hs, kdPutAt, hk, Bool.false_eq_true, if_false]
          exact hab
      | none =>
        cases hk : d.get key with
        | none =>
          rw [hk] at hgoal
          simpa only [checkedPuts, hs, kdPut, hk] using hgoal
        | some was =>
          have habandon := abandon_put hab key e
          rw [hk] at habandon
          simpa only [checkedPuts, hs, kdPut, hk] using habandon

end Spec

section Placed

variable {ops : List WriteOp}

lemma placed_located (fileId : FileId) {seq size : ℕ} {x : Bytes × KeyDirEntry}
    (h : x ∈ placed fileId seq (ops.zip (offsetsFrom size (opEntries seq ops)))) :
    ∃ v, (⟨x.2.sequence, .put, x.1, v⟩, x.2.fileOffset) ∈ located size (opEntries seq ops) ∧
      v.length = x.2.valueSize ∧ x.2.fileId = fileId := by
  induction ops generalizing seq size with
  | nil => cases h
  | cons op ops ih =>
    have hrest : x ∈ placed fileId (seq + 1)
        (ops.zip (offsetsFrom (size + (op.entry seq).size) (opEntries (seq + 1) ops))) →
        ∃ v, (⟨x.2.sequence, .put, x.1, v⟩, x.2.fileOffset) ∈ located size (opEntries seq (op :: ops)) ∧
          v.length = x.2.valueSize ∧ x.2.fileId = fileId := by
      intro hx
      obtain ⟨v, hv, hl⟩ := ih hx
      exact ⟨v, mem_cons_of_mem _ hv, hl⟩
    cases op with
    | pointPut key value =>
      rcases mem_cons.1 h with rfl | h
      · exact ⟨value, mem_cons_self, rfl, rfl⟩
      · exact hrest h
    | pointDel | rangeDel => exact hrest h

lemma placedIn_placed (fileId id : FileId) (hputs : ∀ op ∈ ops, op.isPointPut = true) (seq size : ℕ) :
    placedIn (placed fileId seq (ops.zip (offsetsFrom size (opEntries seq ops)))) id =
      if id = fileId then (ops.map WriteOp.bytes).sum else 0 := by
  induction ops generalizing seq size with
  | nil => simp [placed, placedIn]
  | cons op ops ih =>
    have hrest := ih (fun op hop => hputs op (mem_cons_of_mem _ hop)) (seq + 1) (size + (op.entry seq).size)
    cases op with
    | pointDel | rangeDel => simp [isPointPut] at hputs
    | pointPut key value =>
      have hcons : placedIn (placed fileId seq
          ((pointPut key value :: ops).zip (offsetsFrom size (opEntries seq (.pointPut key value :: ops))))) id =
          (if fileId = id then entrySize key.length value.length else 0) + placedIn (placed fileId (seq + 1)
            (ops.zip (offsetsFrom (size + (WriteOp.entry seq (.pointPut key value)).size) (opEntries (seq + 1) ops)))) id := rfl
      rw [hcons, hrest]
      by_cases hid : id = fileId
      · simp [hid, WriteOp.bytes]
      · simp [hid, Ne.symm]

lemma puts_keyDir (s : EngineState) (hputs : ∀ op ∈ ops, op.isPointPut = true) (seq size : ℕ) :
    (s.applyEntries (located size (opEntries seq ops))).keyDir =
      (placed s.activeFileId seq (ops.zip (offsetsFrom size (opEntries seq ops)))).foldl
        (fun d x => d.insert x.1 x.2) s.keyDir := by
  induction ops generalizing s seq size with
  | nil => rfl
  | cons op ops ih =>
    have hrest := ih (s.applyIngestEntry (op.entry seq) size) (fun op hop => hputs op (mem_cons_of_mem _ hop))
      (seq + 1) (size + (op.entry seq).size)
    rw [applyIngestEntry_activeFileId] at hrest
    cases op with
    | pointDel | rangeDel => simp [isPointPut] at hputs
    | pointPut key value =>
      have hput : (s.applyIngestEntry (WriteOp.entry seq (.pointPut key value)) size).keyDir =
          s.keyDir.insert key ⟨seq, size, s.activeFileId, value.length⟩ := by
        simp [applyIngestEntry, WriteOp.entry, kdPut]
      rw [hput] at hrest
      exact hrest

lemma puts_counts (hputs : ∀ op ∈ ops, op.isPointPut = true) (seq : ℕ) :
    bytesOf (opEntries seq ops) = (ops.map WriteOp.bytes).sum ∧ tombstoneBytesOf (opEntries seq ops) = 0 ∧
      markerBytesOf (opEntries seq ops) = 0 ∧ changeMarkerBytesOf (opEntries seq ops) = 0 := by
  induction ops generalizing seq with
  | nil => exact ⟨rfl, rfl, rfl, rfl⟩
  | cons op ops ih =>
    obtain ⟨h₁, h₂, h₃, h₄⟩ := ih (fun op hop => hputs op (mem_cons_of_mem _ hop)) (seq + 1)
    cases op with
    | pointDel | rangeDel => simp [isPointPut] at hputs
    | pointPut key value =>
      refine ⟨?_, ?_, ?_, ?_⟩
      · simp [opEntries, h₁, WriteOp.entry, DataEntry.size, WriteOp.bytes]
      · rw [opEntries, tombstoneBytesOf_cons, h₂]
        rfl
      · rw [opEntries, markerBytesOf_cons, h₃]
        rfl
      · rw [opEntries, changeMarkerBytesOf_cons, h₄]
        rfl

end Placed

section Result

variable (us : List Undo)

lemma releaseAll_frame (t : EngineState) :
    (us.foldl (fun t u => t.release u.key u.was) t).keyDir = t.keyDir ∧
      (us.foldl (fun t u => t.release u.key u.was) t).changeMarkers = t.changeMarkers ∧
      (us.foldl (fun t u => t.release u.key u.was) t).rest = t.rest := by
  induction us generalizing t with
  | nil => exact ⟨rfl, rfl, rfl⟩
  | cons u us ih =>
    obtain ⟨h₁, h₂, h₃⟩ := ih _
    have hrest : (t.release u.key u.was).rest = t.rest := by cases u.was <;> rfl
    exact ⟨h₁.trans (release_keyDir t _ _), h₂.trans (release_changeMarkers t _ _), h₃.trans hrest⟩

lemma releaseAll_stats (t : EngineState) (id : FileId) :
    (us.foldl (fun t u => t.release u.key u.was) t).fileStats.get id =
      (t.fileStats.get id).map (fun st => { st with liveBytes := st.liveBytes - removedIn us id }) := by
  induction us generalizing t with
  | nil => simp [removedIn]
  | cons u us ih =>
    have hstep : (t.release u.key u.was).fileStats.get id =
        (t.fileStats.get id).map (fun st => { st with liveBytes := st.liveBytes - u.bytesIn id }) := by
      cases hw : u.was with
      | none => simp [release, Undo.bytesIn, hw]
      | some w =>
        simp only [release, get_patch, Undo.bytesIn, hw, Option.map_some, Option.getD_some,
          FileStats.apply_liveRemoved]
        by_cases hid : id = w.fileId
        · simp [hid]
        · simp [hid, Ne.symm]
    rw [foldl_cons, ih, hstep, Option.map_map]
    simp only [Function.comp_def, removedIn, map_cons, sum_cons, Nat.sub_sub]

lemma removedIn_reverse (id : FileId) : removedIn us.reverse id = removedIn us id := by
  simp [removedIn]

end Result

section Plan

variable (s : EngineState) (p : WritePlan) (size : ℕ)

def firstPut : ℕ := if p.multi then s.nextSeq + 1 else s.nextSeq

def putStart : ℕ := if p.multi then size + entrySize 0 0 else size

lemma prepareWrite_split : s.prepareWrite p = (if p.multi then [⟨s.nextSeq, .bulkBegin, [], []⟩] else []) ++
    (opEntries (s.firstPut p) p.writes ++
      if p.multi then [⟨s.nextSeq + 1 + p.writes.length, .bulkEnd, [], []⟩] else []) := by
  rw [prepareWrite, firstPut]
  split_ifs <;> simp

lemma checked_ops : p.writes.zip (if p.multi then (offsetsFrom size (s.prepareWrite p)).tail
      else offsetsFrom size (s.prepareWrite p)) =
    p.writes.zip (offsetsFrom (putStart p size) (opEntries (s.firstPut p) p.writes)) := by
  by_cases hm : p.multi = true
  · have htail : (offsetsFrom size (s.prepareWrite p)).tail = offsetsFrom (size + entrySize 0 0)
        (opEntries (s.nextSeq + 1) p.writes ++ [⟨s.nextSeq + 1 + p.writes.length, .bulkEnd, [], []⟩]) := by
      rw [prepareWrite, if_pos hm]
      rfl
    rw [if_pos hm, htail, zip_offsetsFrom_append _ (opEntries_length _ _), putStart, firstPut, if_pos hm, if_pos hm]
  · rw [if_neg hm, putStart, firstPut, if_neg hm, if_neg hm, prepareWrite, if_neg hm]

lemma located_ops_subset {q : DataEntry × ℕ} (hq : q ∈ located (putStart p size) (opEntries (s.firstPut p) p.writes)) :
    q ∈ located size (s.prepareWrite p) := by
  rw [prepareWrite_split, located_append, located_append]
  refine mem_append_right _ (mem_append_left _ ?_)
  have hstart : size + bytesOf (if p.multi then [⟨s.nextSeq, .bulkBegin, [], []⟩] else []) = putStart p size := by
    rw [putStart]
    split_ifs <;> rfl
  rw [hstart]
  exact hq

lemma prepareWrite_puts_keyDir (hputs : ∀ op ∈ p.writes, op.isPointPut = true) :
    (s.applyEntries (located size (s.prepareWrite p))).keyDir =
      (placed s.activeFileId (s.firstPut p)
        (p.writes.zip (offsetsFrom (putStart p size) (opEntries (s.firstPut p) p.writes)))).foldl
        (fun d x => d.insert x.1 x.2) s.keyDir := by
  by_cases hm : p.multi = true
  · let b : DataEntry := ⟨s.nextSeq, .bulkBegin, [], []⟩
    have hputs' := puts_keyDir (s.applyIngestEntry b size) hputs (s.nextSeq + 1) (size + b.size)
    have hkeep : ∀ (t : EngineState) (q : DataEntry × ℕ), q.1.entryType = .bulkEnd → (t.applyEntries [q]).keyDir = t.keyDir := by
      rintro t ⟨⟨seq, ty, key, value⟩, offset⟩ hq
      cases hq
      rfl
    rw [prepareWrite, if_pos hm, cons_append, located, applyEntries_cons, located_append, applyEntries_append,
      firstPut, putStart, if_pos hm, if_pos hm]
    exact (hkeep _ _ rfl).trans hputs'
  · rw [prepareWrite, if_neg hm, firstPut, putStart, if_neg hm, if_neg hm, puts_keyDir s hputs]

lemma prepareWrite_puts_counts (hputs : ∀ op ∈ p.writes, op.isPointPut = true) :
    bytesOf (s.prepareWrite p) = (p.writes.map WriteOp.bytes).sum + (if p.multi then 2 * markerSize .bulkBegin else 0) ∧
      tombstoneBytesOf (s.prepareWrite p) = 0 ∧
      markerBytesOf (s.prepareWrite p) = (if p.multi then 2 * markerSize .bulkBegin else 0) ∧
      changeMarkerBytesOf (s.prepareWrite p) = 0 := by
  obtain ⟨h₁, h₂, h₃, h₄⟩ := puts_counts hputs (s.firstPut p)
  rw [prepareWrite_split]
  simp only [bytesOf_append, tombstoneBytesOf_append, markerBytesOf_append, changeMarkerBytesOf_append, h₁, h₂, h₃, h₄]
  split_ifs
  · refine ⟨?_, rfl, rfl, rfl⟩
    simp [DataEntry.size, markerSize]
    omega
  · exact ⟨by simp, rfl, rfl, rfl⟩

end Plan

section Outcome

variable {C : Contents} {s : EngineState} {p : WritePlan}

def landedDelta (s : EngineState) (p : WritePlan) : FileStatsDelta where
  liveAdded := (p.writes.map WriteOp.bytes).sum
  totalAdded := (p.writes.map WriteOp.bytes).sum + if p.multi then 2 * markerSize .bulkBegin else 0
  markerAdded := if p.multi then 2 * markerSize .bulkBegin else 0
  minSequence := s.nextSeq
  maxSequence := (s.firstPut p + p.writes.length + if p.multi then 1 else 0) - 1

def putsLanded (s : EngineState) (p : WritePlan) (keyDir : KeyDir) : EngineState :=
  { s with keyDir, nextSeq := s.firstPut p + p.writes.length + if p.multi then 1 else 0 }.patch s.activeFileId
    (s.landedDelta p)

lemma prepareWrite_length (s : EngineState) (p : WritePlan) :
    s.nextSeq + (s.prepareWrite p).length = s.firstPut p + p.writes.length + if p.multi then 1 else 0 := by
  rw [prepareWrite_split, firstPut]
  split_ifs
  · simp
    omega
  · simp

lemma putsLanded_stats (h : Mirror C s) (hne : p.writes ≠ []) (hputs : ∀ op ∈ p.writes, op.isPointPut = true)
    {keyDir : KeyDir} {undo : List Undo} (hlive : ∀ id, liveBytesIn keyDir id + removedIn undo id =
      liveBytesIn s.keyDir id + if id = s.activeFileId then (p.writes.map WriteOp.bytes).sum else 0)
    {id : FileId} {st : FileStats} (hst : s.fileStats.get id = some st) :
    (undo.reverse.foldl (fun t u => t.release u.key u.was) (s.putsLanded p keyDir)).fileStats.get id =
      some (fileStatsOf keyDir id (C.extend s.activeFileId (s.prepareWrite p) id)
        (boundsOf (C.extend s.activeFileId (s.prepareWrite p)) id)) := by
  have hgot : (s.putsLanded p keyDir).fileStats.get id = (s.fileStats.get id).map (fun st =>
      if id = s.activeFileId then st.apply (s.landedDelta p) else st) := get_patch _ _ _ _
  have hl := hlive id
  have hold := h.indexed.stats id st hst
  rw [releaseAll_stats, removedIn_reverse, hgot, hst, Option.map_some, Option.map_some, Option.some.injEq, hold]
  by_cases hid : id = s.activeFileId
  · subst hid
    obtain ⟨h₁, h₂, h₃, h₄⟩ := s.prepareWrite_puts_counts p hputs
    obtain ⟨e, es, hes⟩ := exists_cons_of_ne_nil (s.prepareWrite_ne_nil hne)
    have hw := (s.prepareWrite_written p h.positive).1
    have hhead := s.prepareWrite_head hes
    have hlast := s.prepareWrite_lastSeq h.positive hne
    have hbounds := boundsOf_extend (h.log.written _) (hes ▸ hw)
      (fun x hx => hhead.symm ▸ h.below s.activeFileId x hx)
    rw [if_pos rfl] at hl ⊢
    rw [← hes, hhead] at hbounds
    rw [hbounds, Function.update_self, Contents.extend_self, fileStatsOf, fileStatsOf, countsOf, countsOf,
      foldl_append, foldl_count (s.prepareWrite p), h₁, h₂, h₃, h₄, FileStats.mk.injEq]
    simp only [FileStats.apply, landedDelta, Nat.add_zero]
    rw [← s.prepareWrite_length]
    refine ⟨?_, trivial, trivial, ?_, trivial, trivial, trivial⟩ <;> omega
  · rw [if_neg hid] at hl ⊢
    have hbounds : boundsOf (C.extend s.activeFileId (s.prepareWrite p)) id = boundsOf C id := by
      rw [boundsOf, boundsOf, Contents.extend_ne C hid]
    rw [Contents.extend_ne C hid, hbounds, fileStatsOf, fileStatsOf, FileStats.mk.injEq]
    refine ⟨?_, rfl, rfl, rfl, rfl, rfl, rfl⟩
    show liveBytesIn s.keyDir id - removedIn undo id = liveBytesIn keyDir id
    omega

lemma placed_recordAt {size : ℕ} (hsize : bytesOf (C s.activeFileId) = size) :
    ∀ x ∈ placed s.activeFileId (s.firstPut p) (p.writes.zip (offsetsFrom (putStart p size) (opEntries (s.firstPut p) p.writes))),
      (C.extend s.activeFileId (s.prepareWrite p)).RecordAt x.1 x.2 := by
  intro x hx
  obtain ⟨v, hv, hl, hf⟩ := placed_located _ hx
  refine ⟨v, ?_, hl⟩
  rw [hf, Contents.extend_self, located_append, Nat.zero_add, hsize]
  exact mem_append_right _ (s.located_ops_subset p size hv)

lemma applyPutsChecked_eq (s : EngineState) (p : WritePlan) (size : ℕ) :
    s.applyPutsChecked p (offsetsFrom size (s.prepareWrite p)) =
      match checkedPuts p s.activeFileId
        (p.writes.zip (offsetsFrom (putStart p size) (opEntries (s.firstPut p) p.writes))) s.keyDir (s.firstPut p) [] with
      | .error (d, undo) =>
        match abandon d undo with
        | some keyDir => .abandoned { s with keyDir }
        | none => .undoFault
      | .ok (keyDir, undo) => .applied (undo.reverse.foldl (fun t u => t.release u.key u.was) (s.putsLanded p keyDir)) := by
  rw [applyPutsChecked, s.checked_ops p size]
  rfl

lemma applyPutsChecked_spec (h : Mirror C s) (hp : p.Honest C s.activeFileId) (hc : canApplyPutsChecked p = true) :
    match s.applyPutsChecked p (offsetsFrom (bytesOf (C s.activeFileId)) (s.prepareWrite p)) with
    | .applied t => t = s.applyIngest (s.prepareWrite p) (offsetsFrom (bytesOf (C s.activeFileId)) (s.prepareWrite p))
    | .abandoned t => t = s
    | .undoFault => False := by
  generalize hsize : bytesOf (C s.activeFileId) = size
  simp only [canApplyPutsChecked, Bool.and_eq_true, Bool.not_eq_true', isEmpty_eq_false_iff, all_eq_true] at hc
  obtain ⟨⟨-, hne⟩, hputs⟩ := hc
  have hspec := checkedPuts_spec (R := (C.extend s.activeFileId (s.prepareWrite p)).RecordAt)
    (fun _ _ _ hd he hs => (hp.extend _).eq_of_sameRecord hd he hs) s.activeFileId
    (p.writes.zip (offsetsFrom (putStart p size) (opEntries (s.firstPut p) p.writes)))
    (fun op hop => hputs op.1 (of_mem_zip hop).1) s.keyDir s.keyDir (s.firstPut p) []
    (fun k e he => ((h.indexed.keys k e).1 he).1.extend _ _)
    (placed_recordAt hsize) rfl
  rw [s.applyPutsChecked_eq p size]
  revert hspec
  cases hres : checkedPuts p s.activeFileId
    (p.writes.zip (offsetsFrom (putStart p size) (opEntries (s.firstPut p) p.writes))) s.keyDir (s.firstPut p) [] with
  | error r =>
    intro hab
    simp only [hab]
  | ok r =>
    obtain ⟨keyDir, undo⟩ := r
    rintro ⟨hkeys, hlive⟩
    obtain ⟨f₁, f₂, f₃⟩ := releaseAll_frame undo.reverse (s.putsLanded p keyDir)
    obtain ⟨hw, hnew⟩ := s.prepareWrite_written p h.positive
    have hmirror := h.ingest (s.prepareWrite_ne_nil hne) hw (s.prepareWrite_isUnit hne).units hnew
    have hlast := s.prepareWrite_lastSeq h.positive hne
    rw [hsize] at hmirror
    have hkeyDir : (s.applyIngest (s.prepareWrite p) (offsetsFrom size (s.prepareWrite p))).keyDir = keyDir := by
      rw [applyIngest_keyDir, prepareWrite_puts_keyDir s p size hputs, hkeys]
    refine ext_rest (f₁.trans hkeyDir.symm) (SortedMap.ext fun id => ?_) (f₂.trans ?_) (f₃.trans ?_)
    · have hsome := s.applyIngest_isSome size (s.prepareWrite p) id
      cases hst : s.fileStats.get id with
      | none =>
        rw [hst, Option.isSome_none, Option.isSome_eq_false_iff, Option.isNone_iff_eq_none] at hsome
        have hnone : (s.putsLanded p keyDir).fileStats.get id = none :=
          (get_patch _ _ _ _).trans (by rw [Option.map_eq_none_iff]; exact hst)
        rw [hsome, releaseAll_stats, hnone, Option.map_none]
      | some st =>
        rw [hst, Option.isSome_some] at hsome
        obtain ⟨st', hst'⟩ := Option.isSome_iff_exists.1 hsome
        rw [hst', hmirror.indexed.stats id st' hst', hkeyDir]
        refine putsLanded_stats h hne hputs (fun id => ?_) hst
        have := hlive id
        rw [placedIn_placed _ _ hputs] at this
        simpa [removedIn] using this
    · rw [applyIngest_changeMarkers, prepareWrite_markersIn, append_nil]
      rfl
    · rw [applyIngest_rest s size _ (s.prepareWrite_ne_nil hne) hnew, hlast, prepareWrite_length]
      rfl

end Outcome

end Bytecask.EngineState
