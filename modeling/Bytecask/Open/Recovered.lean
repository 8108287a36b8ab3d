import Bytecask.Open.Directory
import Bytecask.RecordFormat
import Bytecask.Vacuum.Covered

/-! What an open makes of a directory whose files keep their sequences apart. -/

namespace Bytecask

open EngineState HintEntry Recovery

open Recovery (Hinted RecoveredFrom Recovered reopenFiles)

def Contents.Apart (C : Contents) : Prop := ∀ id id', id ≠ id' →
  (∀ e ∈ C id, ∀ e' ∈ C id', e.sequence < e'.sequence) ∨ (∀ e ∈ C id, ∀ e' ∈ C id', e'.sequence < e.sequence)

section Overlap

variable {ranges : List SequenceRange}

lemma firstOverlap_eq_none (h : ranges.Pairwise (fun a b => a.max < b.min)) : firstOverlap ranges = none := by
  induction ranges with
  | nil => rfl
  | cons prev ranges ih =>
    obtain ⟨hlt, h⟩ := List.pairwise_cons.1 h
    cases ranges with
    | nil => rfl
    | cons r ranges =>
      rw [firstOverlap, if_neg (not_le.2 (hlt r List.mem_cons_self))]
      exact ih h

end Overlap

section Mirror

variable {C : Contents} {hint : FileId → HintFile} {ids : List FileId} {s₀ : EngineState} {r : Recovered}

lemma indexed_of_recovered (h : Hinted C (fun id => id) hint ids)
    (hr : RecoveredFrom s₀ (reopenFiles C (fun id => id) hint ids) r) : Indexed C (boundsOf C) r.state where
  keys k d := by
    rw [hr.keys, h.present_iff]
    exact exists_eq_right'
  stats id st hst := by
    obtain ⟨rf, hrf, rfl, rfl⟩ := (hr.stats id st).1 hst
    obtain ⟨id, hid, rfl⟩ := List.mem_map.1 hrf
    have hcount := countHint_eq (h.log.written id) (h.perm hid).1
    exact congrArg (fun fs : FileStats => { fs with liveBytes := liveBytesIn r.state.keyDir id }) hcount

lemma Indexed.openActive {s : EngineState} (h : Indexed C (boundsOf C) s) (hnew : C s.nextFileId = []) (path : Path)
    (mode : Mode) : Indexed C (boundsOf C) (s.openActive path mode) where
  keys := h.keys
  stats id st hst := by
    rw [EngineState.openActive, SortedMap.get_insert] at hst
    split_ifs at hst with hid
    · obtain rfl := Option.some.inj hst
      rw [hid, fileStatsOf, boundsOf, hnew]
      change ({} : FileStats) =
        { countsOf [] with liveBytes := liveBytesIn s.keyDir s.nextFileId, minSequence := 0, maxSequence := 0 }
      rw [h.liveBytesIn_eq_zero hnew]
      rfl
    · exact h.stats id st hst

lemma mirror_of_recovered (h : Hinted C (fun id => id) hint ids)
    (hr : RecoveredFrom s₀ (reopenFiles C (fun id => id) hint ids) r) (hnew : C r.state.nextFileId = []) (path : Path)
    (mode : Mode) : Mirror C (r.state.openActive path mode) where
  log := h.log
  indexed := (indexed_of_recovered h hr).openActive hnew path mode
  known id hne := by
    obtain ⟨e, he⟩ := List.exists_mem_of_ne_nil _ hne
    have hget := (hr.stats id _).2 ⟨_, List.mem_map_of_mem (h.known id e he), rfl, rfl⟩
    rw [openActive, SortedMap.get_insert, hget]
    split_ifs <;> rfl
  active := by
    rw [openActive, SortedMap.get_insert_self]
    rfl
  positive := by
    rw [openActive, hr.nextSeq]
    exact Nat.succ_pos _
  below id e he := by
    rw [openActive, hr.nextSeq]
    exact Nat.lt_succ_of_le ((h.highest_le_iff _).1 le_rfl id e he)
  ordered := by
    have hn := (markers_sublist _).nodup h.recoverable.distinct
    rw [openActive, hr.markers]
    exact sortedMarkers_ascending hn
  markers m := by
    rw [openActive, hr.markers, sortedMarkers, List.mem_insertionSort]
    exact h.marker_iff m

lemma exists_newestAt (h : Hinted C (fun id => id) hint ids) {id : FileId} {p : DataEntry} (hp : p ∈ C id)
    (hput : p.entryType = .put) : ∃ m ∈ C id, ∃ o, NewestAt (dataOf (hint id).entries) p.key
      (ofEntry m o) ∧ (m.entryType = .put ∨ m.entryType = .delete) ∧ m.key = p.key ∧ p.sequence ≤ m.sequence := by
  have hid := h.known id p hp
  obtain ⟨o, ho⟩ := located_of_mem hp 0
  have hmem := (h.mem_entries hid).2 ⟨p, o, ho, rfl⟩
  have hkey : (ofEntry p o).key = p.key := by
    obtain ⟨seq, ty, key, value⟩ := p
    cases hput
    rfl
  have hdata : ofEntry p o ∈ dataOf (hint id).entries :=
    List.mem_filter.2 ⟨hmem, by rw [ofEntry_entryType, hput]; rfl⟩
  obtain ⟨he, hn⟩ := IsNewest.exists_of_finite HintEntry.sequence
    (entriesAt_finite _ p.key) ⟨_, hdata, hkey⟩
  obtain ⟨hhe, htype⟩ := List.mem_filter.1 hn.1.1
  obtain ⟨m, o', hm, rfl⟩ := (h.mem_entries hid).1 hhe
  have hle := hn.2 _ ⟨hdata, hkey⟩
  have hmkey := hn.1.2
  rw [ofEntry_sequence, ofEntry_sequence] at hle
  refine ⟨m, mem_of_located hm, o', hn, ?_, ?_, hle⟩
  · rw [ofEntry_entryType] at htype
    cases hty : m.entryType <;> simp_all [EntryType.isData]
  · obtain ⟨seq, ty, key, value⟩ := m
    cases ty <;> simp_all [ofEntry, EntryType.isData]

lemma Written.eq_of_sequence {es : List DataEntry} (h : Written es) {a b : DataEntry} (ha : a ∈ es) (hb : b ∈ es)
    (hseq : a.sequence = b.sequence) : a = b := by
  have hn : (es.map DataEntry.sequence).Nodup := List.pairwise_map.2 (h.ascending.imp ne_of_lt)
  exact List.inj_on_of_nodup_map hn ha hb hseq

lemma needed_of_newest (h : Hinted C (fun id => id) hint ids)
    (hr : RecoveredFrom s₀ (reopenFiles C (fun id => id) hint ids) r) {id id' : FileId} (hne : id' ≠ id) {k : Bytes}
    {m e : DataEntry} {o : ℕ} (hm : m ∈ C id) (hmput : m.entryType = .put) (hmkey : m.key = k)
    (hmn : NewestAt (dataOf (hint id).entries) k (ofEntry m o)) (he : e ∈ C id')
    (hnot : e.entryType ≠ .put) (ht : e.Touches k) (hnew : C.Newest k e.sequence) : r.needed.droppable e.sequence = false := by
  have hid := h.known id m hm
  have hid' := h.known id' e he
  obtain ⟨o', ho'⟩ := located_of_mem he 0
  have hmem := (h.mem_entries hid').2 ⟨e, o', ho', rfl⟩
  have hother : (hint id).entries ≠ (hint id').entries := by
    intro heq
    rw [← heq] at hmem
    obtain ⟨x, ox, hx, hxe⟩ := (h.mem_entries hid).1 hmem
    have hseq := congrArg HintEntry.sequence hxe
    rw [ofEntry_sequence, ofEntry_sequence] at hseq
    exact hne (h.log.apart id' id e he x (mem_of_located hx) hseq)
  have hlt : m.sequence < e.sequence := by
    have hle := hnew id m hm (by simpa [DataEntry.Touches, hmput] using hmkey)
    exact lt_of_le_of_ne hle fun heq => hne (h.log.apart id' id e he m hm heq.symm)
  have hneeded : NeededIn ((reopenFiles C (fun id => id) hint ids).map Recovery.RecoveredFile.entries)
      e.sequence := by
    refine ⟨(hint id').entries, List.mem_map.2 ⟨_, List.mem_map_of_mem hid', rfl⟩, (hint id).entries,
      List.mem_map.2 ⟨_, List.mem_map_of_mem hid, rfl⟩, hother, _, hmem, ofEntry_sequence e o', k, _, hmn,
      by rw [ofEntry_entryType, hmput], by rw [ofEntry_sequence]; exact hlt, ?_⟩
    rcases touches_iff.1 ht with ⟨hdata, hkey⟩ | hrange
    · refine .inl ⟨?_, ⟨List.mem_filter.2 ⟨hmem, hdata⟩, hkey⟩, fun b hb => ?_⟩
      · rw [ofEntry_entryType] at hdata ⊢
        cases hty : e.entryType <;> simp_all [EntryType.isData]
      · obtain ⟨hbmem, hbkey⟩ := hb
        obtain ⟨hbmem, hbdata⟩ := List.mem_filter.1 hbmem
        obtain ⟨x, ox, hx, rfl⟩ := (h.mem_entries hid').1 hbmem
        rw [ofEntry_sequence, ofEntry_sequence]
        exact hnew id' x (mem_of_located hx) (touches_iff.2 (.inl ⟨hbdata, hbkey⟩))
    · exact .inr hrange
  have hin := (hr.needed _).2 hneeded
  simp [Recovery.NeededTombstones.droppable, hin]

lemma covered_of_recovered (h : Hinted C (fun id => id) hint ids)
    (hr : RecoveredFrom s₀ (reopenFiles C (fun id => id) hint ids) r) : Covered r.needed C := by
  intro id p hp hput hdead
  have hb : ∀ id, ∀ e ∈ C id, e.sequence < Recovery.highest (reopenFiles C (fun id => id) hint ids) + 1 :=
    fun id e he => Nat.lt_succ_of_le ((h.highest_le_iff _).1 le_rfl id e he)
  simp only [Contents.Newest, not_forall, not_le] at hdead
  obtain ⟨j, x, hx, htx, hltx⟩ := hdead
  obtain ⟨id', e, he, ht, hle, hnew⟩ := Contents.exists_newest hb hx htx
  by_cases heput : e.entryType = .put
  · exact ⟨id', e, he, ht, hltx.trans_le hle, .inl ⟨heput, hnew⟩⟩
  by_cases hid : id' = id
  · exact ⟨id', e, he, ht, hltx.trans_le hle, .inr (.inr hid)⟩
  obtain ⟨m, hm, o, hmn, hmput | hmdel, hmkey, hmle⟩ := exists_newestAt h hp hput
  · have hkept := needed_of_newest h hr hid hm hmput hmkey hmn he heput ht hnew
    exact ⟨id', e, he, ht, hltx.trans_le hle, .inr (.inl ⟨heput, hkept⟩)⟩
  · -- The file itself has a newer Delete of the key.
    have hlt : p.sequence < m.sequence := by
      refine lt_of_le_of_ne hmle fun heq => ?_
      rw [(h.log.written id).eq_of_sequence hp hm heq, hmdel] at hput
      cases hput
    exact ⟨id, m, hm, by simpa [DataEntry.Touches, hmdel] using hmkey, hlt, .inr (.inr rfl)⟩

end Mirror

namespace Directory

def contents (dir : Directory) : Contents := fun id => ((dir.names[id]?).map (fun p => (dir.file p).entries)).getD []

structure Prepared (dir : Directory) : Prop where
  nodup : dir.names.Nodup
  complete : ∀ p, p ∈ dir.names ↔ (dir.disk.files.get p).isSome
  named : ∀ p, (dir.disk.files.get p).isSome → p < dir.disk.nextPath
  clean : ∀ p ∈ dir.names, (dir.file p).beyond = [] ∧ (dir.file p).tail = .zeros
  written : ∀ p ∈ dir.names, Written (dir.file p).entries
  units : ∀ p ∈ dir.names, Units (dir.file p).entries
  fits : ∀ p ∈ dir.names, ∀ e ∈ (dir.file p).entries, e.RecordFits
  hints : ∀ p ∈ dir.names, flushHintsFor ⟨(dir.file p).entries, .zeros⟩ = some (dir.hint p).entries

variable {dir : Directory} {id : FileId}

lemma registered_get (dir : Directory) (id : FileId) : dir.registered.files.get id = dir.names[id]? := by
  refine Option.ext fun p => ?_
  have hn : (dir.names.zipIdx.map Prod.snd).Nodup := by
    rw [List.zipIdx_map_snd]
    exact List.nodup_range'
  rw [registered, SortedMap.get_foldl_insert _ _ _ _ hn (fun _ _ => rfl)]
  constructor
  · rintro (h | ⟨a, ha, rfl, rfl⟩)
    · cases h
    · exact List.mem_zipIdx_iff_getElem?.1 ha
  · exact fun h => .inr ⟨(p, id), List.mem_zipIdx_iff_getElem?.2 h, rfl, rfl⟩

lemma pathOf_eq {p : Path} (h : dir.names[id]? = some p) : dir.pathOf id = p := by
  rw [pathOf, registered_get, h]
  rfl

lemma contents_eq {p : Path} (h : dir.names[id]? = some p) : dir.contents id = (dir.file p).entries := by
  rw [contents, h]
  rfl

lemma contents_all {P : List DataEntry → Prop} (hnil : P []) (h : ∀ p ∈ dir.names, P (dir.file p).entries) (id : FileId) :
    P (dir.contents id) := by
  cases hp : dir.names[id]? with
  | none =>
    rw [contents, hp]
    exact hnil
  | some p =>
    rw [contents_eq hp]
    exact h p (List.mem_of_getElem? hp)

lemma size_eq (dir : Directory) (p : Path) : dir.disk.size p = bytesOf (dir.file p).entries := by
  rw [Disk.size, file]
  cases dir.disk.files.get p <;> rfl

lemma recoveredFiles_eq (dir : Directory) : dir.recoveredFiles =
    reopenFiles dir.contents (fun id => id) (fun id => dir.hint (dir.pathOf id)) (List.range dir.names.length) := by
  refine List.ext_getElem? fun i => ?_
  simp only [recoveredFiles, reopenFiles, List.getElem?_map, List.getElem?_zipIdx]
  cases hi : dir.names[i]? with
  | none =>
    rw [List.getElem?_eq_none_iff.2 (by simpa using hi)]
    rfl
  | some p =>
    have hlt : i < dir.names.length := (List.getElem?_eq_some_iff.1 hi).1
    rw [List.getElem?_range hlt]
    simp [contents_eq hi, pathOf_eq hi, size_eq]

lemma Prepared.log (h : dir.Prepared) (ha : dir.contents.Apart) : dir.contents.Log where
  written := contents_all ⟨by simp, .nil, by simp⟩ h.written
  units := contents_all .nil h.units
  apart id id' e he e' he' heq := by
    by_contra hne
    rcases ha id id' hne with hlt | hlt
    · exact (hlt e he e' he').ne heq
    · exact (hlt e he e' he').ne heq.symm

lemma Prepared.hinted (h : dir.Prepared) (ha : dir.contents.Apart) :
    Hinted dir.contents (fun id => id) (fun id => dir.hint (dir.pathOf id)) (List.range dir.names.length) where
  log := h.log ha
  nodup := List.nodup_range
  known id e he := by
    rw [List.mem_range]
    by_contra hlt
    rw [contents, List.getElem?_eq_none_iff.2 (not_lt.1 hlt)] at he
    cases he
  renumbered := Function.injective_id.injOn
  hints id hid := by
    obtain ⟨p, hp⟩ : ∃ p, dir.names[id]? = some p := ⟨_, List.getElem?_eq_getElem (List.mem_range.1 hid)⟩
    rw [contents_eq hp, pathOf_eq hp]
    exact h.hints p (List.mem_of_getElem? hp)

lemma fresh_registered (dir : Directory) : Fresh dir.registered := ⟨rfl, rfl, rfl, rfl⟩

lemma mem_sequenceRanges {C : Contents} {s : EngineState} (h : Indexed C (boundsOf C) s) {q : SequenceRange}
    (hq : q ∈ sequenceRanges s) : 0 < q.min ∧ q.min = (boundsOf C q.fileId).1 ∧ q.max = (boundsOf C q.fileId).2 := by
  obtain ⟨⟨id, st⟩, hst, rfl⟩ := List.mem_map.1 hq
  obtain ⟨hst, hpos⟩ := List.mem_filter.1 hst
  have heq := h.stats id st (SortedMap.get_eq_some.2 hst)
  exact ⟨by simpa using hpos, by rw [heq]; rfl, by rw [heq]; rfl⟩

lemma sequenceRanges_nodup (s : EngineState) : ((sequenceRanges s).map SequenceRange.fileId).Nodup := by
  rw [sequenceRanges, List.map_map]
  exact List.pairwise_map.2 ((s.fileStats.sorted.sublist List.filter_sublist).imp fun hlt => hlt.ne)

lemma bounds_mem {C : Contents} {id : FileId} (h : 0 < (boundsOf C id).1) :
    (∃ e ∈ C id, e.sequence = (boundsOf C id).1) ∧ ∃ e ∈ C id, e.sequence = (boundsOf C id).2 := by
  cases hC : C id with
  | nil => simp [boundsOf, hC] at h
  | cons e es =>
    refine ⟨⟨e, List.mem_cons_self, by simp [boundsOf, hC]⟩, (e :: es).getLast (by simp), List.getLast_mem _, ?_⟩
    rw [boundsOf, hC, List.getLast?_eq_some_getLast]
    rfl

lemma findSequenceOverlap_eq_none {C : Contents} {s : EngineState} (h : Indexed C (boundsOf C) s) (ha : C.Apart)
    (sort : RangeSort) : findSequenceOverlap sort s = none := by
  have hperm := sort.perm (sequenceRanges s)
  have hn : ((sort.sort (sequenceRanges s)).map SequenceRange.fileId).Nodup :=
    (hperm.map _).nodup_iff.2 (sequenceRanges_nodup s)
  refine firstOverlap_eq_none (((sort.sorted _).and (List.pairwise_map.1 hn)).imp_of_mem ?_)
  rintro a b hmem hmem' ⟨hle, hne⟩
  obtain ⟨hpos, hmin, hmax⟩ := mem_sequenceRanges h (hperm.mem_iff.1 hmem)
  obtain ⟨hpos', hmin', -⟩ := mem_sequenceRanges h (hperm.mem_iff.1 hmem')
  obtain ⟨⟨x, hx, hxmin⟩, y, hy, hymax⟩ := bounds_mem (hmin ▸ hpos)
  obtain ⟨⟨z, hz, hzmin⟩, -⟩ := bounds_mem (hmin' ▸ hpos')
  rcases ha _ _ hne with hlt | hlt
  · have := hlt y hy z hz
    omega
  · have := hlt x hx z hz
    omega

variable (sort : RangeSort) (recoveryThreads : ℕ) (strict : Bool)

lemma Prepared.recoveryOpen_apart (h : dir.Prepared) (ha : dir.contents.Apart) :
    ∃ r, recoveryOpen sort recoveryThreads strict dir = .ok r dir ∧
      RecoveredFrom dir.registered dir.recoveredFiles r := by
  have hh := h.hinted ha
  obtain ⟨r, hok, hr⟩ := Recovery.recoveryLoadStreams_from dir.fresh_registered hh.recoverable recoveryThreads strict
  rw [← recoveredFiles_eq] at hok hr
  have hnone := findSequenceOverlap_eq_none (indexed_of_recovered hh (recoveredFiles_eq dir ▸ hr)) ha sort
  have hpass : dir.pass sort recoveryThreads strict = .ok (.inl r) := by
    simp only [pass, hok, hnone]
  refine ⟨r, ?_, hr⟩
  simp only [recoveryOpen, recoveryLoop, bind, EStateM.bind, get, getThe, MonadStateOf.get, EStateM.get, hpass]
  rfl

end Directory

end Bytecask
