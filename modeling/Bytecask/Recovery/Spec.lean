import Bytecask.Recovery.Range

/-! What recovery builds is a function of the entries: neither the order of the files nor the number
of threads nor the frames of the hints can be told from it. -/

namespace Bytecask.Recovery

open List RecoveredFile

def highest (files : List RecoveredFile) : ℕ := maxSeqOf (files.flatMap RecoveredFile.entries)

/-- The newest Put or Delete of `k` is a Put that no newer range tombstone covers, and `d` is where it sits. -/
def Present (files : List RecoveredFile) (k : Bytes) (d : KeyDirEntry) : Prop :=
  ∃ rf ∈ files, ∃ e ∈ rf.entries, e.entryType = .put ∧ e.key = k ∧
    (∀ rf' ∈ files, ∀ e' ∈ rf'.entries, e'.entryType.isData = true → e'.key = k → e'.sequence ≤ e.sequence) ∧
    (∀ rf' ∈ files, ∀ t ∈ rf'.entries, t.entryType = .rangeDel → t.key ≤ k → k < t.endKey →
      t.sequence ≤ e.sequence) ∧
    d = ⟨e.sequence, e.fileOffset, rf.fileId, e.valueSize⟩

def NeededIn (contents : List (List HintEntry)) (seq : ℕ) : Prop :=
  ∃ c ∈ contents, ∃ c' ∈ contents, c' ≠ c ∧ ∃ t ∈ c, t.sequence = seq ∧ ∃ k e, NewestAt (dataOf c') k e ∧
    e.entryType = .put ∧ e.sequence < seq ∧
    ((t.entryType = .delete ∧ NewestAt (dataOf c) k t) ∨ (t.entryType = .rangeDel ∧ t.key ≤ k ∧ k < t.endKey))

def statsOf (keyDir : KeyDir) (rf : RecoveredFile) : FileStats :=
  { rf.entries.foldl countHint { totalBytes := rf.totalBytes } with liveBytes := liveBytesIn keyDir rf.fileId }

structure RecoveredFrom (s : EngineState) (files : List RecoveredFile) (r : Recovered) : Prop where
  keys : ∀ k d, r.state.keyDir.get k = some d ↔ Present files k d
  stats : ∀ id st, r.state.fileStats.get id = some st ↔ ∃ rf ∈ files, rf.fileId = id ∧ st = statsOf r.state.keyDir rf
  nextSeq : r.state.nextSeq = highest files + 1
  markers : r.state.changeMarkers = sortedMarkers (files.flatMap (fun rf => markersOf rf.entries))
  others : r.state = { s with
    keyDir := r.state.keyDir, nextSeq := r.state.nextSeq, fileStats := r.state.fileStats
    changeMarkers := r.state.changeMarkers }
  horizon : r.needed.horizon = highest files
  ascending : r.needed.sequences.Pairwise (· < ·)
  needed : ∀ x, x ∈ r.needed.sequences ↔ NeededIn (files.map RecoveredFile.entries) x

structure Fresh (s : EngineState) : Prop where
  keyDir : s.keyDir = SortedMap.empty
  fileStats : s.fileStats = SortedMap.empty
  nextSeq : s.nextSeq = 1
  changeMarkers : s.changeMarkers = []

variable {files : List RecoveredFile}
variable {id : FileId} {rt : RangeTombstone} {t : HintEntry} {rf : RecoveredFile} {scanned : List FileRun} {run : FileRun}
variable {s : EngineState}

lemma wins_iff (k : Bytes) (id : FileId) (e : HintEntry) :
    (viewOf files).Wins k id e ↔ ∃ rf ∈ files, rf.fileId = id ∧ e ∈ dataOf rf.entries ∧ e.key = k ∧
      ∀ rf' ∈ files, ∀ e' ∈ dataOf rf'.entries, e'.key = k → e'.sequence ≤ e.sequence := by
  constructor
  · rintro ⟨⟨rf, hrf, hid, hn⟩, hmax⟩
    refine ⟨rf, hrf, hid, hn.1.1, hn.1.2, ?_⟩
    intro rf' hrf' e' he' hk
    obtain ⟨m, hm⟩ := IsNewest.exists_of_finite _ (entriesAt_finite _ k)
      ⟨e', he', hk⟩
    exact (hm.2 e' ⟨he', hk⟩).trans (hmax _ m ⟨rf', hrf', rfl, hm⟩)
  · rintro ⟨rf, hrf, hid, he, hk, hmax⟩
    refine ⟨⟨rf, hrf, hid, ⟨he, hk⟩, fun b hb => hmax rf hrf b hb.1 hb.2⟩, ?_⟩
    rintro _ e' ⟨rf', hrf', -, hn⟩
    exact hmax rf' hrf' e' hn.1.1 hn.1.2

lemma mem_tombstonesOf {es : List HintEntry} :
    rt ∈ tombstonesOf id es ↔ ∃ t ∈ es, t.entryType = .rangeDel ∧ rt = ⟨t.key, t.endKey, t.sequence, id, false⟩ := by
  simp only [tombstonesOf, mem_map, mem_filter, decide_eq_true_eq, and_assoc, @eq_comm _ rt]

def allTombstones (files : List RecoveredFile) : List RangeTombstone :=
  files.flatMap (fun rf => tombstonesOf rf.fileId rf.entries)

lemma mem_allTombstones : rt ∈ allTombstones files ↔ ∃ rf ∈ files, ∃ t ∈ rf.entries,
    t.entryType = .rangeDel ∧ rt = ⟨t.key, t.endKey, t.sequence, rf.fileId, false⟩ := by
  simp only [allTombstones, mem_flatMap, mem_tombstonesOf]

lemma covers_iff {k : Bytes} :
    RangeTombstone.covers ⟨t.key, t.endKey, t.sequence, id, false⟩ k = true ↔ t.key ≤ k ∧ k < t.endKey := by
  simp [RangeTombstone.covers]

lemma isData_put {e : HintEntry} (h : e.entryType = .put) : e.entryType.isData = true := by
  rw [h]
  rfl

lemma keeps_iff_present (k : Bytes) (d : KeyDirEntry) :
    (viewOf files).Keeps (allTombstones files) k d ↔ Present files k d := by
  constructor
  · rintro ⟨id, e, hw, hp, hr, rfl⟩
    obtain ⟨rf, hrf, rfl, he, hk, hmax⟩ := (wins_iff k id e).1 hw
    refine ⟨rf, hrf, e, (mem_filter.1 he).1, hp, hk, ?_, ?_, rfl⟩
    · exact fun rf' hrf' e' he' hd => hmax rf' hrf' e' (mem_filter.2 ⟨he', hd⟩)
    · intro rf' hrf' t ht hrange hlo hhi
      exact hr _ (mem_allTombstones.2 ⟨rf', hrf', t, ht, hrange, rfl⟩) (covers_iff.2 ⟨hlo, hhi⟩)
  · rintro ⟨rf, hrf, e, he, hp, hk, hmax, hr, rfl⟩
    refine ⟨rf.fileId, e, (wins_iff k _ e).2 ⟨rf, hrf, rfl, ?_, hk, ?_⟩, hp, ?_, rfl⟩
    · exact mem_filter.2 ⟨he, isData_put hp⟩
    · exact fun rf' hrf' e' he' => hmax rf' hrf' e' (mem_filter.1 he').1 (mem_filter.1 he').2
    · intro rt hrt hc
      obtain ⟨rf', hrf', t, ht, hrange, rfl⟩ := mem_allTombstones.1 hrt
      obtain ⟨hlo, hhi⟩ := covers_iff.1 hc
      exact hr rf' hrf' t ht hrange hlo hhi

lemma Recoverable.other_file (hf : Recoverable files) {rf' : RecoveredFile} (hrf : rf ∈ files) (hrf' : rf' ∈ files)
    (ht : t ∈ rf.entries) : rf'.fileId ≠ rf.fileId ↔ rf'.entries ≠ rf.entries := by
  constructor
  · intro hne heq
    exact hne (congrArg _ (hf.file_unique hrf hrf' ht (heq ▸ ht) rfl).symm)
  · intro hne heq
    exact hne (congrArg _ (inj_on_of_nodup_map hf.ids hrf' hrf heq))

lemma needs_iff (hf : Recoverable files) (x : ℕ) :
    (∃ k, InRange [] none k ∧ (viewOf files).Needs (allTombstones files) k x) ↔
      NeededIn (files.map RecoveredFile.entries) x := by
  have hall : ∀ k, InRange [] none k := fun k => ⟨nil_le_bytes k, rfl⟩
  constructor
  · rintro ⟨k, -, ⟨id, t, ⟨rf, hrf, rfl, hn⟩, hd, rfl, ho⟩ | ⟨rt, hrt, rfl, hc, ho⟩⟩
    · obtain ⟨id', e, ⟨rf', hrf', rfl, hn'⟩, hp, hlt, hne⟩ := ho
      have ht := (mem_filter.1 hn.1.1).1
      exact ⟨_, mem_map_of_mem hrf, _, mem_map_of_mem hrf', (hf.other_file hrf hrf' ht).1 hne, t, ht, rfl,
        k, e, hn', hp, hlt, .inl ⟨hd, hn⟩⟩
    · obtain ⟨rf, hrf, t, ht, hrange, rfl⟩ := mem_allTombstones.1 hrt
      obtain ⟨id', e, ⟨rf', hrf', rfl, hn'⟩, hp, hlt, hne⟩ := ho
      exact ⟨_, mem_map_of_mem hrf, _, mem_map_of_mem hrf', (hf.other_file hrf hrf' ht).1 hne, t, ht, rfl,
        k, e, hn', hp, hlt, .inr ⟨hrange, covers_iff.1 hc⟩⟩
  · rintro ⟨c, hc, c', hc', hne, t, ht, rfl, k, e, hn', hp, hlt, h⟩
    obtain ⟨rf, hrf, rfl⟩ := mem_map.1 hc
    obtain ⟨rf', hrf', rfl⟩ := mem_map.1 hc'
    have ho : (viewOf files).OlderPut k t.sequence rf.fileId :=
      ⟨rf'.fileId, e, ⟨rf', hrf', rfl, hn'⟩, hp, hlt, (hf.other_file hrf hrf' ht).2 hne⟩
    refine ⟨k, hall k, ?_⟩
    rcases h with ⟨hd, hn⟩ | ⟨hrange, hcov⟩
    · exact .inl ⟨rf.fileId, t, ⟨rf, hrf, rfl, hn⟩, hd, rfl, ho⟩
    · exact .inr ⟨_, mem_allTombstones.2 ⟨rf, hrf, t, ht, hrange, rfl⟩, rfl, covers_iff.2 hcov, ho⟩

section Highest

lemma foldl_max_sequence (es : List HintEntry) (m : ℕ) :
    es.foldl (fun m he => max m he.sequence) m = max m (maxSeqOf es) := by
  induction es generalizing m with
  | nil => simp [maxSeqOf]
  | cons he es ih => rw [maxSeqOf, foldl_cons, foldl_cons, ih, ih, Nat.zero_max, max_assoc]

lemma highest_cons (rf : RecoveredFile) (files : List RecoveredFile) :
    highest (rf :: files) = max (maxSeqOf rf.entries) (highest files) := by
  rw [highest, flatMap_cons, maxSeqOf, foldl_append, foldl_max_sequence]
  rfl

lemma scanned_maxSeq {scanned : List FileRun} (hs : List.Forall₂ ScannedRun files scanned) :
    scanned.foldl (fun m run => max m run.maxSeq) 0 = highest files := by
  have haux : ∀ m, scanned.foldl (fun m run => max m run.maxSeq) m = max m (highest files) := by
    induction hs with
    | nil => exact fun m => (Nat.max_zero m).symm
    | @cons rf run files scanned hr _ ih =>
      intro m
      obtain ⟨h, hh, hr⟩ := hr
      rw [foldl_cons, ih, highest_cons, hr.maxSeq, entries_of_hint hh, max_assoc]
  rw [haux, Nat.zero_max]

end Highest

lemma scanned_flatMap {β : Type*} {f : FileRun → List β} {g : RecoveredFile → List β}
    (hfg : ∀ rf run, ScannedRun rf run → f run = g rf)
    (hs : List.Forall₂ ScannedRun files scanned) : scanned.flatMap f = files.flatMap g := by
  induction hs with
  | nil => rfl
  | cons hr _ ih => rw [flatMap_cons, flatMap_cons, ih, hfg _ _ hr]

lemma ScannedRun.tombstones (h : ScannedRun rf run) : run.rangeTombstones = tombstonesOf rf.fileId rf.entries := by
  obtain ⟨h, hh, hr⟩ := h
  rw [hr.tombstones, entries_of_hint hh]

lemma ScannedRun.markers (h : ScannedRun rf run) : run.markers = markersOf rf.entries := by
  obtain ⟨h, hh, hr⟩ := h
  rw [hr.markers, entries_of_hint hh]

lemma ScannedRun.stats (h : ScannedRun rf run) : run.stats = rf.entries.foldl countHint { totalBytes := rf.totalBytes } := by
  obtain ⟨h, hh, hr⟩ := h
  rw [hr.stats, entries_of_hint hh]

lemma scanned_readable (hs : List.Forall₂ ScannedRun files scanned) : scanned.any (fun run => run.hint.isNone) = false := by
  induction hs with
  | nil => rfl
  | cons hr _ ih =>
    obtain ⟨h, hh, hr⟩ := hr
    rw [any_cons, ih, hr.hint]
    rfl

lemma scanAll (hf : Recoverable files) (strict : Bool) :
    ∃ scanned, files.mapM (scanFile strict) = .ok scanned ∧ List.Forall₂ ScannedRun files scanned := by
  refine mapM_ok_of_forall (fun rf hrf => ?_)
  obtain ⟨h, hh⟩ := Option.isSome_iff_exists.1 (hf.readable rf hrf)
  have hsorted := hf.sorted rf hrf
  rw [entries_of_hint hh] at hsorted
  obtain ⟨run, hrun, hr⟩ := scanFile_spec strict rf h hh hsorted
  exact ⟨run, hrun, h, hh, hr⟩

lemma neededTombstones_spec (point : List ℕ) (horizon : ℕ) :
    (neededTombstones point horizon false).horizon = horizon ∧
    (neededTombstones point horizon false).sequences.Pairwise (· < ·) ∧
    ∀ x, x ∈ (neededTombstones point horizon false).sequences ↔ x ∈ point := by
  have hsorted := (pairwise_insertionSort (· ≤ ·) point).sublist (dedup_sublist _)
  have hnodup : (point.insertionSort (· ≤ ·)).dedup.Nodup := nodup_dedup _
  refine ⟨rfl, (hsorted.and hnodup).imp (fun h => lt_of_le_of_ne h.1 h.2), fun x => ?_⟩
  rw [neededTombstones, if_neg (by simp), mem_dedup, mem_insertionSort]

lemma RecoveredFrom.of_nil (hs : Fresh s) : RecoveredFrom s [] ⟨s, {}⟩ where
  keys k d := by simp [hs.keyDir, Present]
  stats id st := by simp [hs.fileStats]
  nextSeq := hs.nextSeq
  markers := hs.changeMarkers
  others := rfl
  horizon := rfl
  ascending := List.Pairwise.nil
  needed x := by simp [NeededIn]

lemma recoveryLoadStreams_ok (s : EngineState) (hne : files ≠ []) (recoveryThreads : ℕ) {strict : Bool}
    (hscan : files.mapM (scanFile strict) = .ok scanned) (hruns : List.Forall₂ ScannedRun files scanned) (hf : Recoverable files) :
    ∃ (outs : List RangeOut) (hres : Resolved (viewOf files) (allTombstones files) [] none (outs.flatMap RangeOut.run)
        (fun id => (outs.map (fun o => o.liveOf id)).sum) (outs.flatMap RangeOut.neededSeqs)),
      recoveryLoadStreams s files recoveryThreads strict = .ok
        ⟨{ s with
            keyDir := ⟨outs.flatMap RangeOut.run, hres.sorted⟩
            nextSeq := highest files + 1
            fileStats := ((files.map fileId).zip scanned).foldl (fun m r => m.insert r.1
              { r.2.stats with liveBytes := (outs.map (fun o : RangeOut => o.liveOf r.1)).sum }) SortedMap.empty
            changeMarkers := sortedMarkers (files.flatMap (fun rf => markersOf rf.entries)) },
          neededTombstones (outs.flatMap RangeOut.neededSeqs) (highest files) false⟩ := by
  have htomb : scanned.flatMap FileRun.rangeTombstones = allTombstones files :=
    scanned_flatMap (fun _ _ h => h.tombstones) hruns
  have hmark : scanned.flatMap FileRun.markers = files.flatMap (fun rf => markersOf rf.entries) :=
    scanned_flatMap (fun _ _ h => h.markers) hruns
  have hnew : ∀ rt ∈ allTombstones files, rt.needed = false := by
    intro rt hrt
    obtain ⟨rf, -, t, -, -, rfl⟩ := mem_allTombstones.1 hrt
    rfl
  generalize hcuts : (if 1 < min files.length recoveryThreads then splitters (min files.length recoveryThreads)
    ((scanned.flatMap (fun run => run.fences.map Fence.key)).insertionSort (· ≤ ·)) else []) = cuts
  have hsorted : ([] :: cuts).Pairwise (· ≤ ·) := by
    refine pairwise_cons.2 ⟨fun k _ => nil_le_bytes k, ?_⟩
    rw [← hcuts]
    split_ifs
    · exact splitters_sorted _ _
    · exact List.Pairwise.nil
  obtain ⟨outs, houts, hres⟩ := mergeRanges_spec hf hruns hnew [] cuts hsorted
  refine ⟨outs, hres, ?_⟩
  rw [recoveryLoadStreams, if_neg hne, hscan]
  simp only [bind, Except.bind, htomb, hmark, scanned_maxSeq hruns, scanned_readable hruns, hcuts, houts,
    SortedMap.ofList?_eq_some hres.sorted]
  rfl

lemma foldl_stats (hs : List.Forall₂ ScannedRun files scanned) (keyDir : KeyDir)
    {live : FileId → ℕ} (hlive : ∀ id, live id = liveBytesIn keyDir id) (m : SortedMap FileId FileStats) :
    ((files.map fileId).zip scanned).foldl (fun m r => m.insert r.1 { r.2.stats with liveBytes := live r.1 }) m =
      files.foldl (fun m rf => m.insert rf.fileId (statsOf keyDir rf)) m := by
  induction hs generalizing m with
  | nil => rfl
  | cons hr _ ih =>
    rw [map_cons, zip_cons_cons, foldl_cons, foldl_cons, ih, hlive, hr.stats]
    rfl

lemma recoveryLoadStreams_from (hs : Fresh s) (hf : Recoverable files) (recoveryThreads : ℕ)
    (strict : Bool) : ∃ r, recoveryLoadStreams s files recoveryThreads strict = .ok r ∧ RecoveredFrom s files r := by
  by_cases hne : files = []
  · subst hne
    exact ⟨⟨s, {}⟩, rfl, RecoveredFrom.of_nil hs⟩
  obtain ⟨scanned, hscan, hruns⟩ := scanAll hf strict
  obtain ⟨outs, hres, hok⟩ := recoveryLoadStreams_ok s hne _ hscan hruns hf
  obtain ⟨hhor, hasc, hmem⟩ := neededTombstones_spec _ _
  refine ⟨_, hok, ?_, ?_, rfl, rfl, rfl, hhor, hasc, ?_⟩
  · intro k d
    rw [SortedMap.get_eq_some, hres.mem, ← keeps_iff_present]
    exact and_iff_right ⟨nil_le_bytes k, rfl⟩
  · intro id st
    rw [foldl_stats hruns ⟨outs.flatMap _, hres.sorted⟩ hres.live,
      SortedMap.get_foldl_insert _ _ _ _ hf.ids (fun _ _ => rfl)]
    simp
  · intro x
    rw [hmem, hres.needed, needs_iff hf]

end Bytecask.Recovery
