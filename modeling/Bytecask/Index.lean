import Bytecask.Contents
import Bytecask.EngineState

/-! One appended entry keeps the key directory and the byte counts those of the contents. -/

namespace Bytecask

open List SortedMap DataEntry

variable (d : KeyDir)

def FileStats.count (st : FileStats) (e : DataEntry) : FileStats :=
  { st with
    totalBytes := st.totalBytes + e.size
    tombstoneBytes := st.tombstoneBytes + tombstoneSize e.entryType e.key.length e.value.length
    markerBytes := st.markerBytes + markerSize e.entryType
    changeMarkerBytes := st.changeMarkerBytes + changeMarkerSize e.entryType }

def tombstoneBytesOf (es : List DataEntry) : ℕ :=
  (es.map (fun e => tombstoneSize e.entryType e.key.length e.value.length)).sum

def markerBytesOf (es : List DataEntry) : ℕ := (es.map (fun e => markerSize e.entryType)).sum

def changeMarkerBytesOf (es : List DataEntry) : ℕ := (es.map (fun e => changeMarkerSize e.entryType)).sum

def countsOf (es : List DataEntry) : FileStats := es.foldl FileStats.count {}

section Counts

variable (e : DataEntry) (es fs : List DataEntry)

@[simp] lemma tombstoneBytesOf_cons : tombstoneBytesOf (e :: es) =
    tombstoneSize e.entryType e.key.length e.value.length + tombstoneBytesOf es := by simp [tombstoneBytesOf]

@[simp] lemma tombstoneBytesOf_append : tombstoneBytesOf (es ++ fs) = tombstoneBytesOf es + tombstoneBytesOf fs := by
  simp [tombstoneBytesOf]

@[simp] lemma markerBytesOf_cons : markerBytesOf (e :: es) = markerSize e.entryType + markerBytesOf es := by
  simp [markerBytesOf]

@[simp] lemma markerBytesOf_append : markerBytesOf (es ++ fs) = markerBytesOf es + markerBytesOf fs := by
  simp [markerBytesOf]

@[simp] lemma changeMarkerBytesOf_cons :
    changeMarkerBytesOf (e :: es) = changeMarkerSize e.entryType + changeMarkerBytesOf es := by
  simp [changeMarkerBytesOf]

@[simp] lemma changeMarkerBytesOf_append :
    changeMarkerBytesOf (es ++ fs) = changeMarkerBytesOf es + changeMarkerBytesOf fs := by
  simp [changeMarkerBytesOf]

end Counts

lemma foldl_count (es : List DataEntry) (st : FileStats) : es.foldl FileStats.count st = { st with
    totalBytes := st.totalBytes + bytesOf es
    tombstoneBytes := st.tombstoneBytes + tombstoneBytesOf es
    markerBytes := st.markerBytes + markerBytesOf es
    changeMarkerBytes := st.changeMarkerBytes + changeMarkerBytesOf es } := by
  induction es generalizing st with
  | nil => simp [tombstoneBytesOf, markerBytesOf, changeMarkerBytesOf]
  | cons e es ih =>
    rw [foldl_cons, ih]
    simp [FileStats.count, Nat.add_assoc]

def fileStatsOf (d : KeyDir) (id : FileId) (es : List DataEntry) (b : ℕ × ℕ) : FileStats :=
  { countsOf es with liveBytes := liveBytesIn d id, minSequence := b.1, maxSequence := b.2 }

/-- The key directory is the one `C` stands for, and the counters are those of `C`, with bounds `B`. -/
structure Indexed (C : Contents) (B : FileId → ℕ × ℕ) (s : EngineState) : Prop where
  keys : ∀ k d, s.keyDir.get k = some d ↔ C.Winning k d
  stats : ∀ id st, s.fileStats.get id = some st → st = fileStatsOf s.keyDir id (C id) (B id)

lemma liveBytesIn_insert (k : Bytes) (e : KeyDirEntry) (id : FileId) :
    liveBytesIn (d.insert k e) id =
      liveBytesIn (d.erase k) id + if e.fileId = id then entrySize k.length e.valueSize else 0 :=
  sum_insert _ _ _ _

lemma liveBytesIn_erase (k : Bytes) (id : FileId) : liveBytesIn d id = liveBytesIn (d.erase k) id +
    ((d.get k).map (fun e => if e.fileId = id then entrySize k.length e.valueSize else 0)).getD 0 :=
  sum_eq_erase _ _ _

lemma FileStats.apply_bounds (st : FileStats) (d : FileStatsDelta) (h : d.minSequence = 0 ∧ d.maxSequence = 0) :
    (st.apply d).minSequence = st.minSequence ∧ (st.apply d).maxSequence = st.maxSequence := by
  simp only [FileStats.apply, h.1, h.2, Nat.max_zero, and_true]
  split_ifs with h0
  · exact h0.symm
  · rfl

lemma FileStats.apply_liveRemoved (st : FileStats) (r : ℕ) :
    st.apply { liveRemoved := r } = { st with liveBytes := st.liveBytes - r } := by
  obtain ⟨hmin, hmax⟩ := st.apply_bounds { liveRemoved := r } ⟨rfl, rfl⟩
  rw [FileStats.mk.injEq]
  exact ⟨rfl, rfl, hmin, hmax, rfl, rfl, rfl⟩

namespace EngineState

variable {s : EngineState} {d : KeyDir} (gone : List (Bytes × KeyDirEntry))

lemma get_patch (s : EngineState) (i id : FileId) (d : FileStatsDelta) :
    (s.patch i d).fileStats.get id = (s.fileStats.get id).map (fun st => if id = i then st.apply d else st) := by
  rw [patch_fileStats, get_adjust]
  split_ifs with h
  · rw [h]
  · simp

section Release

variable (s : EngineState) (k : Bytes) (existing : Option KeyDirEntry)

@[simp] lemma release_keyDir : (s.release k existing).keyDir = s.keyDir := by cases existing <;> rfl

@[simp] lemma release_changeMarkers : (s.release k existing).changeMarkers = s.changeMarkers := by cases existing <;> rfl

end Release

lemma release_spec (hlive : ∀ id st, s.fileStats.get id = some st → st.liveBytes = liveBytesIn d id) (k : Bytes) (id : FileId) :
    (s.release k (d.get k)).fileStats.get id =
      (s.fileStats.get id).map (fun st => { st with liveBytes := liveBytesIn (d.erase k) id }) := by
  have herase := liveBytesIn_erase d k id
  cases hk : d.get k with
  | none =>
    rw [hk] at herase
    cases hst : s.fileStats.get id with
    | none => simp [release, hst]
    | some st =>
      have hl := hlive id st hst
      simp only [Option.map_none, Option.getD_none, Nat.add_zero] at herase
      simp [release, hst, ← herase, ← hl]
  | some e =>
    rw [hk] at herase
    simp only [release, get_patch]
    cases hst : s.fileStats.get id with
    | none => rfl
    | some st =>
      have hl := hlive id st hst
      simp only [Option.map_some, Option.getD_some] at herase
      simp only [Option.map_some, FileStats.apply_liveRemoved]
      by_cases he : id = e.fileId
      · rw [if_pos he.symm] at herase
        rw [if_pos he, hl, herase, Nat.add_sub_cancel]
      · rw [if_neg (Ne.symm he)] at herase
        rw [if_neg he, ← Nat.add_zero (liveBytesIn _ id), ← herase, ← hl]

lemma eraseAll_stats (hlive : ∀ id st, s.fileStats.get id = some st → st.liveBytes = liveBytesIn d id)
    (hd : ∀ e ∈ gone, d.get e.1 = some e.2) (hn : (gone.map Prod.fst).Nodup) (id : FileId) :
    (gone.foldl (fun t e => t.release e.1 (some e.2)) s).fileStats.get id = (s.fileStats.get id).map (fun st =>
      { st with liveBytes := liveBytesIn (gone.foldl (fun d e => (kdErase d e.1).1) d) id }) := by
  induction gone generalizing s d with
  | nil =>
    cases hst : s.fileStats.get id with
    | none => simp [hst]
    | some st => simp [hst, ← hlive]
  | cons e gone ih =>
    obtain ⟨he, hn⟩ := nodup_cons.1 hn
    have hrel := release_spec hlive e.1
    rw [hd e mem_cons_self] at hrel
    have hne : ∀ x ∈ gone, x.1 ≠ e.1 := fun x hx h => he (h ▸ mem_map_of_mem hx)
    have hstep := @ih _ _
      (by
        intro id st hst
        rw [hrel, Option.map_eq_some_iff] at hst
        obtain ⟨st', -, rfl⟩ := hst
        rfl)
      (by
        intro x hx
        rw [get_erase, if_neg (hne x hx)]
        exact hd x (mem_cons_of_mem e hx))
      hn
    rw [foldl_cons, hstep, hrel, Option.map_map]
    rfl

lemma eraseAll_get (d : KeyDir) (k : Bytes) :
    (gone.foldl (fun d e => (kdErase d e.1).1) d).get k = if k ∈ gone.map Prod.fst then none else d.get k := by
  induction gone generalizing d with
  | nil => simp
  | cons e gone ih =>
    rw [foldl_cons, ih, kdErase, get_erase]
    by_cases h : k = e.1 <;> by_cases h' : k ∈ gone.map Prod.fst <;> simp [h, h']

def lostKeys (s : EngineState) (lo hi : Bytes) (lost : KeyDirEntry → Bool) : List (Bytes × KeyDirEntry) :=
  (kdRange s.keyDir lo hi).filter (fun e => lost e.2)

lemma mem_lostKeys {lo hi : Bytes} {lost : KeyDirEntry → Bool} {k : Bytes} :
    k ∈ (s.lostKeys lo hi lost).map Prod.fst ↔ lo ≤ k ∧ k < hi ∧ (s.keyDir.get k).any lost = true := by
  simp only [lostKeys, mem_map, mem_filter, mem_kdRange, Option.any_eq_true]
  constructor
  · rintro ⟨e, ⟨⟨hg, hlo, hhi⟩, hl⟩, rfl⟩
    exact ⟨hlo, hhi, e.2, hg, hl⟩
  · rintro ⟨hlo, hhi, e, hg, hl⟩
    exact ⟨(k, e), ⟨⟨hg, hlo, hhi⟩, hl⟩, rfl⟩

lemma release_fold_frame (s : EngineState) :
    gone.foldl (fun t e => t.release e.1 (some e.2)) s =
      { s with fileStats := (gone.foldl (fun t e => t.release e.1 (some e.2)) s).fileStats } := by
  induction gone generalizing s with
  | nil => rfl
  | cons e gone ih =>
    rw [foldl_cons, ih]
    rfl

lemma release_fold_isSome (s : EngineState) (id : FileId) :
    ((gone.foldl (fun t e => t.release e.1 (some e.2)) s).fileStats.get id).isSome = (s.fileStats.get id).isSome := by
  induction gone generalizing s with
  | nil => rfl
  | cons e gone ih =>
    rw [foldl_cons, ih]
    simp [release, get_patch]

lemma eraseRange_eq (s : EngineState) (lo hi : Bytes) (lost : KeyDirEntry → Bool) :
    s.eraseRange lo hi lost = { s with
      keyDir := (s.lostKeys lo hi lost).foldl (fun d e => (kdErase d e.1).1) s.keyDir
      fileStats := ((s.lostKeys lo hi lost).foldl (fun t e => t.release e.1 (some e.2)) s).fileStats } := by
  rw [eraseRange, ← lostKeys, release_fold_frame]

lemma eraseRange_get (s : EngineState) (lo hi : Bytes) (lost : KeyDirEntry → Bool) (k : Bytes) :
    (s.eraseRange lo hi lost).keyDir.get k =
      if lo ≤ k ∧ k < hi ∧ (s.keyDir.get k).any lost = true then none else s.keyDir.get k := by
  rw [eraseRange_eq, eraseAll_get]
  simp only [mem_lostKeys]

lemma eraseRange_stats (hlive : ∀ id st, s.fileStats.get id = some st → st.liveBytes = liveBytesIn s.keyDir id) (lo hi : Bytes)
    (lost : KeyDirEntry → Bool) (id : FileId) : (s.eraseRange lo hi lost).fileStats.get id =
      (s.fileStats.get id).map (fun st =>
        { st with liveBytes := liveBytesIn (s.eraseRange lo hi lost).keyDir id }) := by
  rw [eraseRange_eq]
  refine eraseAll_stats _ hlive ?_ ?_ id
  · intro e he
    exact (mem_kdRange.1 (mem_filter.1 he).1).1
  · have hsub : ((s.lostKeys lo hi lost).map Prod.fst).Sublist (s.keyDir.entries.map Prod.fst) := by
      rw [lostKeys, kdRange, range_eq_filter]
      exact (filter_sublist.trans filter_sublist).map _
    refine Nodup.sublist hsub (pairwise_map.2 ?_)
    exact s.keyDir.sorted.imp ne_of_lt

lemma applyIngestEntry_get (s : EngineState) (e : DataEntry) (offset : ℕ) (k : Bytes) :
    (s.applyIngestEntry e offset).keyDir.get k = if e.Touches k then
      (if e.entryType = .put then some ⟨e.sequence, offset, s.activeFileId, e.value.length⟩ else none)
      else s.keyDir.get k := by
  obtain ⟨seq, ty, key, value⟩ := e
  cases ty
  case put => simp [applyIngestEntry, kdPut, Touches, get_insert, eq_comm]
  case delete => simp [applyIngestEntry, kdErase, Touches, get_erase, eq_comm]
  case rangeDel =>
    simp only [applyIngestEntry, patch_keyDir, eraseRange_get, Touches]
    cases hk : s.keyDir.get k <;> simp
  case bulkBegin | bulkEnd | changeMarker => simp [applyIngestEntry, Touches, appendMarker]

end EngineState

lemma liveBytesIn_put (k : Bytes) (seq offset a n : ℕ) (id : FileId) :
    liveBytesIn (d.insert k ⟨seq, offset, a, n⟩) id =
      liveBytesIn (d.erase k) id + if id = a then entrySize k.length n else 0 := by
  rw [liveBytesIn_insert]
  simp only [eq_comm]

namespace EngineState

variable {d : FileStatsDelta} {e : DataEntry} {s : EngineState}

structure Counts (d : FileStatsDelta) (e : DataEntry) : Prop where
  removed : d.liveRemoved = 0
  total : d.totalAdded = e.size
  tombstone : d.tombstoneAdded = tombstoneSize e.entryType e.key.length e.value.length
  marker : d.markerAdded = markerSize e.entryType
  changeMarker : d.changeMarkerAdded = changeMarkerSize e.entryType
  bounds : d.minSequence = 0 ∧ d.maxSequence = 0

lemma Counts.apply (h : Counts d e) (st : FileStats) :
    st.apply d = { st.count e with liveBytes := st.liveBytes + d.liveAdded } := by
  obtain ⟨hmin, hmax⟩ := st.apply_bounds d h.bounds
  rw [FileStats.mk.injEq]
  refine ⟨?_, ?_, hmin, hmax, ?_, ?_, ?_⟩
  · simp [FileStats.apply, h.removed]
  · simp [FileStats.apply, FileStats.count, h.total]
  · simp [FileStats.apply, FileStats.count, h.tombstone]
  · simp [FileStats.apply, FileStats.count, h.marker]
  · simp [FileStats.apply, FileStats.count, h.changeMarker]

lemma Counts.patch (h : Counts d e) {t : EngineState} {live : FileId → ℕ}
    (ht : ∀ id, t.fileStats.get id = (s.fileStats.get id).map (fun st => { st with liveBytes := live id }))
    (a id : FileId) : (t.patch a d).fileStats.get id = (s.fileStats.get id).map (fun st =>
      { (if id = a then st.count e else st) with liveBytes := live id + if id = a then d.liveAdded else 0 }) := by
  rw [get_patch, ht, Option.map_map]
  refine congrArg (fun f => Option.map f _) (funext fun st => ?_)
  by_cases hid : id = a
  · simp only [Function.comp, hid, if_true, h.apply]
    rfl
  · simp [hid]

lemma applyIngestEntry_stats (hlive : ∀ id st, s.fileStats.get id = some st → st.liveBytes = liveBytesIn s.keyDir id)
    (he : e.Shaped) (offset : ℕ) (id : FileId) : (s.applyIngestEntry e offset).fileStats.get id =
      (s.fileStats.get id).map (fun st =>
        { (if id = s.activeFileId then st.count e else st) with
          liveBytes := liveBytesIn (s.applyIngestEntry e offset).keyDir id }) := by
  have hsame : ∀ id, s.fileStats.get id =
      (s.fileStats.get id).map (fun st => { st with liveBytes := liveBytesIn s.keyDir id }) := by
    intro id
    cases hst : s.fileStats.get id with
    | none => rfl
    | some st => simp [← hlive id st hst]
  obtain ⟨seq, ty, key, value⟩ := e
  cases ty
  case put =>
    simp only [applyIngestEntry, kdPut]
    rw [Counts.patch (e := ⟨seq, .put, key, value⟩) ⟨rfl, rfl, rfl, rfl, rfl, rfl, rfl⟩
      (fun id => release_spec (s := { s with keyDir := s.keyDir.insert key _ }) hlive key id)]
    simp only [patch_keyDir, release_keyDir, liveBytesIn_put]
  case delete =>
    have hv : value = [] := he
    subst hv
    simp only [applyIngestEntry, kdErase]
    rw [Counts.patch (e := ⟨seq, .delete, key, []⟩) ⟨rfl, rfl, rfl, rfl, rfl, rfl, rfl⟩
      (fun id => release_spec (s := { s with keyDir := s.keyDir.erase key }) hlive key id)]
    simp
  case rangeDel =>
    simp only [applyIngestEntry]
    rw [Counts.patch (e := ⟨seq, .rangeDel, key, value⟩) ⟨rfl, rfl, rfl, rfl, rfl, rfl, rfl⟩
      (eraseRange_stats hlive key value _)]
    simp
  case bulkBegin =>
    obtain ⟨rfl, rfl⟩ := he
    simp only [applyIngestEntry]
    rw [Counts.patch (e := ⟨seq, .bulkBegin, [], []⟩) ⟨rfl, rfl, rfl, rfl, rfl, rfl, rfl⟩ hsame]
    simp
  case bulkEnd =>
    obtain ⟨rfl, rfl⟩ := he
    simp only [applyIngestEntry]
    rw [Counts.patch (e := ⟨seq, .bulkEnd, [], []⟩) ⟨rfl, rfl, rfl, rfl, rfl, rfl, rfl⟩ hsame]
    simp
  case changeMarker =>
    obtain ⟨rfl, hv⟩ := he
    have hsize : (⟨seq, .changeMarker, [], value⟩ : DataEntry).size = changeMarkerSize .changeMarker := by
      simp only [DataEntry.size, changeMarkerSize]
      rw [hv]
      rfl
    simp only [applyIngestEntry, appendMarker]
    rw [Counts.patch (e := ⟨seq, .changeMarker, [], value⟩) ⟨rfl, hsize.symm, rfl, rfl, rfl, rfl, rfl⟩ hsame]
    simp

section Frame

variable (s : EngineState) (e : DataEntry) (offset : ℕ)

lemma applyIngestEntry_rest : (s.applyIngestEntry e offset).rest = s.rest := by
  obtain ⟨seq, ty, key, value⟩ := e
  cases ty
  case put => cases h : s.keyDir.get key <;> simp [applyIngestEntry, kdPut, release, h, patch, rest]
  case delete => cases h : s.keyDir.get key <;> simp [applyIngestEntry, kdErase, release, h, patch, rest]
  case rangeDel => simp [applyIngestEntry, eraseRange_eq, patch, rest]
  case bulkBegin | bulkEnd => simp [applyIngestEntry, patch, rest]
  case changeMarker => simp [applyIngestEntry, patch, appendMarker, rest]

lemma applyIngestEntry_activeFileId : (s.applyIngestEntry e offset).activeFileId = s.activeFileId := by
  have h := congrArg activeFileId (s.applyIngestEntry_rest e offset)
  exact h

lemma applyIngestEntry_changeMarkers : (s.applyIngestEntry e offset).changeMarkers = s.changeMarkers ++
    if e.entryType = .changeMarker then [⟨e.sequence, decodeMarkerId e.value⟩] else [] := by
  obtain ⟨seq, ty, key, value⟩ := e
  cases ty <;> simp [applyIngestEntry, appendMarker, eraseRange_eq]

lemma applyIngestEntry_isSome (id : FileId) :
    ((s.applyIngestEntry e offset).fileStats.get id).isSome = (s.fileStats.get id).isSome := by
  obtain ⟨seq, ty, key, value⟩ := e
  cases ty
  case put => cases h : s.keyDir.get key <;> simp [applyIngestEntry, kdPut, release, h, get_patch]
  case delete => cases h : s.keyDir.get key <;> simp [applyIngestEntry, kdErase, release, h, get_patch]
  case rangeDel => simp [applyIngestEntry, eraseRange_eq, get_patch, release_fold_isSome]
  case bulkBegin | bulkEnd => simp [applyIngestEntry, get_patch]
  case changeMarker => simp [applyIngestEntry, get_patch, appendMarker]

end Frame

end EngineState

section Step

variable {C : Contents} {B : FileId → ℕ × ℕ} {s : EngineState}

lemma Indexed.live (h : Indexed C B s) (id : FileId) (st : FileStats) (hst : s.fileStats.get id = some st) :
    st.liveBytes = liveBytesIn s.keyDir id := by
  rw [h.stats id st hst]
  rfl

lemma countsOf_append_singleton (es : List DataEntry) (e : DataEntry) : countsOf (es ++ [e]) = (countsOf es).count e := by
  simp [countsOf]

lemma Indexed.entry (h : Indexed C B s) {e : DataEntry} (he : e.Shaped)
    (hnew : ∀ id, ∀ x ∈ C id, x.sequence < e.sequence) :
    Indexed (C.extend s.activeFileId [e]) B (s.applyIngestEntry e (bytesOf (C s.activeFileId))) where
  keys k d := by
    rw [EngineState.applyIngestEntry_get, Contents.winning_extend hnew]
    split_ifs with ht hp
    · simp [hp, eq_comm]
    · simp [hp]
    · exact h.keys k d
  stats id st hst := by
    rw [EngineState.applyIngestEntry_stats h.live he, Option.map_eq_some_iff] at hst
    obtain ⟨st', hst', rfl⟩ := hst
    rw [h.stats id st' hst']
    by_cases hid : id = s.activeFileId
    · subst hid
      rw [if_pos rfl, Contents.extend_self, fileStatsOf, fileStatsOf, countsOf_append_singleton]
      rfl
    · rw [if_neg hid, Contents.extend_ne C hid]
      rfl

end Step

end Bytecask
