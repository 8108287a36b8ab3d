import Bytecask.Recovery.Spec

/-! Recovery's result does not depend on the order of the files, on the threads or on the hints' frames. -/

namespace Bytecask.Recovery

open List ChangeMarker

/-- What an entry of the key directory has bits for. -/
def Packs (id : FileId) (he : HintEntry) : Prop :=
  he.sequence < 2 ^ 48 ∧ id < 2 ^ 20 ∧ he.fileOffset < 2 ^ 32 ∧ he.valueSize < 2 ^ 28

def newestData (es : List HintEntry) : List HintEntry :=
  es.filter fun he => he.entryType.isData && es.all fun x => !x.entryType.isData || x.key ≠ he.key || x.sequence ≤ he.sequence

def RecoveredFile.Packed (rf : RecoveredFile) : Prop := ∀ he ∈ newestData rf.entries, Packs rf.fileId he

instance (rf : RecoveredFile) : Decidable rf.Packed :=
  inferInstanceAs (Decidable (∀ he ∈ _, _ ∧ _ ∧ _ ∧ _))

/-- `recovery_load_streams` with what `KeyDirEntry::make` throws: each file's newest entry of each key is packed, Deletes too. -/
def recoveryLoadPacked (s : EngineState) (files : List RecoveredFile) (recoveryThreads : ℕ) (strict : Bool) :
    Except RecoveryError Recovered := do
  let r ← recoveryLoadStreams s files recoveryThreads strict
  if ∀ rf ∈ files, rf.Packed then return r else throw .packedLimit

def RecoveredFile.content (rf : RecoveredFile) : FileId × List HintEntry × ℕ := (rf.fileId, rf.entries, rf.totalBytes)

structure Reordered (files' files : List RecoveredFile) : Prop where
  readable : ∀ rf ∈ files', rf.hint.isSome
  perm : (files'.map RecoveredFile.content).Perm (files.map RecoveredFile.content)

variable {files files' : List RecoveredFile} {s : EngineState}
variable {ms : List ChangeMarker} {r r' : Recovered}

lemma recoveryLoadPacked_eq {recoveryThreads : ℕ} {strict : Bool} (h : recoveryLoadStreams s files recoveryThreads strict = .ok r) :
    recoveryLoadPacked s files recoveryThreads strict = if ∀ rf ∈ files, rf.Packed then .ok r else .error .packedLimit := by
  rw [recoveryLoadPacked, h]
  rfl

lemma Reordered.refl (h : Recoverable files) : Reordered files files := ⟨h.readable, Perm.refl _⟩

section

variable (h : Reordered files' files)

include h

lemma Reordered.exists_iff (P : FileId × List HintEntry × ℕ → Prop) :
    (∃ rf ∈ files', P rf.content) ↔ ∃ rf ∈ files, P rf.content := by
  have hmap : ∀ fs : List RecoveredFile,
      (∃ rf ∈ fs, P rf.content) ↔ ∃ c ∈ fs.map RecoveredFile.content, P c := by simp
  rw [hmap, hmap]
  exact exists_congr fun c => and_congr h.perm.mem_iff Iff.rfl

lemma Reordered.forall_iff (P : FileId × List HintEntry × ℕ → Prop) :
    (∀ rf ∈ files', P rf.content) ↔ ∀ rf ∈ files, P rf.content := by
  have hex := h.exists_iff (fun c => ¬ P c)
  rw [← not_iff_not]
  simpa using hex

lemma Reordered.contents : (files'.map RecoveredFile.entries).Perm (files.map RecoveredFile.entries) := by
  have hmap : ∀ fs : List RecoveredFile,
      fs.map RecoveredFile.entries = (fs.map RecoveredFile.content).map (fun c => c.2.1) := by
    intro fs
    rw [map_map]
    rfl
  rw [hmap, hmap]
  exact h.perm.map _

omit h in
lemma entries_perm (h : (files'.map RecoveredFile.entries).Perm (files.map RecoveredFile.entries)) :
    (files'.flatMap RecoveredFile.entries).Perm (files.flatMap RecoveredFile.entries) := by
  rw [flatMap_def, flatMap_def]
  exact h.flatten

omit h in
lemma highest_perm (h : (files'.map RecoveredFile.entries).Perm (files.map RecoveredFile.entries)) :
    highest files' = highest files := by
  have : RightCommutative (fun (m : ℕ) (he : HintEntry) => max m he.sequence) :=
    ⟨fun a b c => max_right_comm a b.sequence c.sequence⟩
  exact (entries_perm h).foldl_eq 0

lemma Reordered.packed_iff : (∀ rf ∈ files', rf.Packed) ↔ ∀ rf ∈ files, rf.Packed :=
  h.forall_iff (fun c => ∀ he ∈ newestData c.2.1, Packs c.1 he)

lemma Reordered.recoverable (hf : Recoverable files) : Recoverable files' where
  readable := h.readable
  sorted := (h.forall_iff (fun c => SortedHint c.2.1)).2 hf.sorted
  ids := by
    have hids : ∀ fs : List RecoveredFile, fs.map RecoveredFile.fileId = (fs.map RecoveredFile.content).map Prod.fst := by
      intro fs
      rw [map_map]
      rfl
    have hn := hf.ids
    rw [hids] at hn ⊢
    exact (h.perm.map _).nodup_iff.2 hn
  distinct := ((entries_perm h.contents).map _).nodup_iff.2 hf.distinct

omit h in
lemma sortedMarkers_perm {ms' : List ChangeMarker} (h : ms'.Perm ms)
    (hn : (ms.map sinceSequence).Nodup) : sortedMarkers ms' = sortedMarkers ms := by
  let le : ChangeMarker → ChangeMarker → Prop := fun a b => a.sinceSequence ≤ b.sinceSequence
  have htotal : Std.Total le := ⟨fun a b => le_total a.sinceSequence b.sinceSequence⟩
  have htrans : IsTrans ChangeMarker le := ⟨fun _ _ _ => le_trans⟩
  have hperm : (ms'.insertionSort le).Perm (ms.insertionSort le) :=
    (perm_insertionSort le ms').trans (h.trans (perm_insertionSort le ms).symm)
  refine hperm.eq_of_pairwise ?_ (pairwise_insertionSort le ms') (pairwise_insertionSort le ms)
  intro a b ha hb hab hba
  exact inj_on_of_nodup_map hn (h.mem_iff.1 ((mem_insertionSort le).1 ha))
    ((mem_insertionSort le).1 hb) (le_antisymm hab hba)

omit h in
lemma sortedMarkers_ascending (hn : (ms.map sinceSequence).Nodup) :
    (sortedMarkers ms).Pairwise (fun a b => a.sinceSequence < b.sinceSequence) := by
  let le : ChangeMarker → ChangeMarker → Prop := fun a b => a.sinceSequence ≤ b.sinceSequence
  have htotal : Std.Total le := ⟨fun a b => le_total a.sinceSequence b.sinceSequence⟩
  have htrans : IsTrans ChangeMarker le := ⟨fun _ _ _ => le_trans⟩
  have hsorted : (ms.insertionSort le).Pairwise le := pairwise_insertionSort le ms
  have hnodup := ((perm_insertionSort le ms).map sinceSequence).nodup_iff.2 hn
  exact (hsorted.and (pairwise_map.1 hnodup)).imp fun h => lt_of_le_of_ne h.1 h.2

omit h in
lemma markers_sublist (files : List RecoveredFile) :
    ((files.flatMap (fun rf => markersOf rf.entries)).map sinceSequence).Sublist
      ((files.flatMap RecoveredFile.entries).map HintEntry.sequence) := by
  induction files with
  | nil => exact Sublist.refl _
  | cons rf files ih =>
    simp only [flatMap_cons, map_append]
    refine Sublist.append ?_ ih
    rw [markersOf, map_map]
    exact filter_sublist.map _

lemma Reordered.markers (hf : Recoverable files) :
    sortedMarkers (files'.flatMap (fun rf => markersOf rf.entries)) =
      sortedMarkers (files.flatMap (fun rf => markersOf rf.entries)) := by
  have hflat : ∀ fs : List RecoveredFile, fs.flatMap (fun rf => markersOf rf.entries) =
      (fs.map RecoveredFile.content).flatMap (fun c => markersOf c.2.1) := by
    intro fs
    rw [flatMap_map]
    rfl
  refine sortedMarkers_perm ?_ (hf.distinct.sublist (markers_sublist files))
  rw [hflat, hflat]
  exact h.perm.flatMap_right _

lemma Reordered.present (k : Bytes) (d : KeyDirEntry) : Present files' k d ↔ Present files k d := by
  have hdata (seq : ℕ) := h.forall_iff
    (fun c => ∀ e' ∈ c.2.1, e'.entryType.isData = true → e'.key = k → e'.sequence ≤ seq)
  have hrange (seq : ℕ) := h.forall_iff
    (fun c => ∀ t ∈ c.2.1, t.entryType = .rangeDel → t.key ≤ k → k < t.endKey → t.sequence ≤ seq)
  have hput := h.exists_iff (fun c => ∃ e ∈ c.2.1, e.entryType = .put ∧ e.key = k ∧
    (∀ rf' ∈ files, ∀ e' ∈ rf'.entries, e'.entryType.isData = true → e'.key = k → e'.sequence ≤ e.sequence) ∧
    (∀ rf' ∈ files, ∀ t ∈ rf'.entries, t.entryType = .rangeDel → t.key ≤ k → k < t.endKey →
      t.sequence ≤ e.sequence) ∧ d = ⟨e.sequence, e.fileOffset, c.1, e.valueSize⟩)
  simp only [RecoveredFile.content] at hdata hrange hput
  simp only [Present, hdata, hrange]
  exact hput

omit h in
lemma neededIn_perm {cs cs' : List (List HintEntry)} (h : cs'.Perm cs) (x : ℕ) : NeededIn cs' x ↔ NeededIn cs x := by
  simp only [NeededIn, h.mem_iff]

lemma RecoveredFrom.reorder (hf : Recoverable files)
    (hr : RecoveredFrom s files' r) : RecoveredFrom s files r where
  keys k d := by rw [hr.keys, h.present]
  stats id st := by
    rw [hr.stats]
    exact h.exists_iff (fun c => c.1 = id ∧ st =
      { c.2.1.foldl countHint { totalBytes := c.2.2 } with liveBytes := liveBytesIn r.state.keyDir c.1 })
  nextSeq := by rw [hr.nextSeq, highest_perm h.contents]
  markers := by rw [hr.markers, h.markers hf]
  others := hr.others
  horizon := by rw [hr.horizon, highest_perm h.contents]
  ascending := hr.ascending
  needed x := by rw [hr.needed, neededIn_perm h.contents]

end

lemma eq_of_ascending {l l' : List ℕ} (h : l.Pairwise (· < ·)) (h' : l'.Pairwise (· < ·)) (hm : ∀ x, x ∈ l ↔ x ∈ l') :
    l = l' := by
  have hperm : l.Perm l' := (perm_ext_iff_of_nodup (h.imp ne_of_lt) (h'.imp ne_of_lt)).2 hm
  exact hperm.eq_of_pairwise (fun a b _ _ hab hba => absurd hab (lt_asymm hba)) h h'

lemma RecoveredFrom.needed_eq (h : RecoveredFrom s files r) (h' : RecoveredFrom s files' r')
    (hc : (files'.map RecoveredFile.entries).Perm (files.map RecoveredFile.entries)) : r'.needed = r.needed := by
  have hhor : r'.needed.horizon = r.needed.horizon := by rw [h.horizon, h'.horizon, highest_perm hc]
  have hseq : r'.needed.sequences = r.needed.sequences :=
    eq_of_ascending h'.ascending h.ascending (fun x => by rw [h'.needed, h.needed, neededIn_perm hc])
  cases hr' : r'.needed
  simp_all

lemma RecoveredFrom.unique (h : RecoveredFrom s files r) (h' : RecoveredFrom s files r') : r' = r := by
  have hkeys : r'.state.keyDir = r.state.keyDir :=
    SortedMap.ext (fun k => Option.ext (fun d => by rw [h.keys, h'.keys]))
  have hstats : r'.state.fileStats = r.state.fileStats :=
    SortedMap.ext (fun id => Option.ext (fun st => by rw [h.stats, h'.stats, hkeys]))
  have hstate : r'.state = r.state := by
    rw [h.others, h'.others, hkeys, hstats, h.nextSeq, h'.nextSeq, h.markers, h'.markers]
  have hneeded := h.needed_eq h' (Perm.refl _)
  cases r'
  simp_all

def twoFiles : List RecoveredFile :=
  [⟨0, some ⟨[[⟨4, .rangeDel, 40, [2], 0, [3], 0⟩, ⟨1, .put, 0, [], 1, [], 0⟩], [⟨2, .put, 20, [2], 1, [], 0⟩]]⟩, 80⟩,
    ⟨1, some ⟨[[⟨3, .delete, 0, [], 0, [], 0⟩]]⟩, 20⟩]

lemma twoFiles_recoverable : Recoverable twoFiles where
  readable := by decide
  sorted := by
    refine forall_mem_cons.2 ⟨?_, forall_mem_singleton.2 ?_⟩
    · exact ⟨[⟨4, .rangeDel, 40, [2], 0, [3], 0⟩], [⟨1, .put, 0, [], 1, [], 0⟩, ⟨2, .put, 20, [2], 1, [], 0⟩], rfl,
        by decide, by decide, by decide⟩
    · exact ⟨[], [⟨3, .delete, 0, [], 0, [], 0⟩], rfl, by decide, by decide, by decide⟩
  ids := by decide
  distinct := by decide

def wideDelete : List RecoveredFile := [⟨0, some ⟨[[⟨1, .delete, 0, [1], 2 ^ 28, [], 0⟩]]⟩, 2 ^ 28 + 20⟩]

end Bytecask.Recovery
