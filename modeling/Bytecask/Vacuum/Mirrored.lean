import Bytecask.Growth
import Bytecask.Vacuum.Covered

/-! The commit of a vacuum leaves a state that mirrors what is left of the files. -/

namespace Bytecask

open List Contents EngineState SortedMap

section Live

variable {C : Contents} {v : VacuumScan} {e : DataEntry} {o : ℕ}

lemma DataEntry.eq_of_put (h : e.entryType = .put) : e = ⟨e.sequence, .put, e.key, e.value⟩ := by
  cases e
  simp_all

lemma VacuumScan.isLive_iff (h : Mirror C v.snap) (he : (e, o) ∈ located 0 (C v.source)) (hput : e.entryType = .put) :
    v.isLive e o = true ↔ C.Newest e.key e.sequence := by
  rw [isLive, Option.any_eq_true]
  constructor
  · rintro ⟨d, hd, hloc⟩
    simp only [Bool.and_eq_true, decide_eq_true_eq] at hloc
    obtain ⟨⟨w, hw, -⟩, hnew⟩ := (h.indexed.keys e.key d).1 hd
    rw [hloc.1, hloc.2] at hw
    have heq := located_unique hw he
    rw [← heq] at hnew ⊢
    exact hnew
  · intro hn
    refine ⟨⟨e.sequence, o, v.source, e.value.length⟩, (h.indexed.keys e.key _).2 ⟨⟨e.value, ?_, rfl⟩, hn⟩, by simp⟩
    rw [← DataEntry.eq_of_put hput]
    exact he

lemma VacuumScan.copies_keeps (h : Mirror C v.snap) : Keeps v.needed C v.source (v.copies (located 0 (C v.source))) := by
  have hmem : ∀ x ∈ C v.source, (∀ o, (x, o) ∈ located 0 (C v.source) → v.keeps (x, o) = true) →
      x ∈ v.copies (located 0 (C v.source)) := by
    intro x hx hk
    obtain ⟨o, ho⟩ := located_of_mem hx 0
    exact mem_map.2 ⟨(x, o), mem_filter.2 ⟨ho, hk o ho⟩, rfl⟩
  refine ⟨copies_sublist v 0 _, copies_units v 0 (h.log.units _), ?_, ?_, ?_, ?_⟩
  · intro p hp hput hn
    refine hmem p hp fun o ho => ?_
    simp only [keeps, hput, Bool.or_eq_true]
    exact .inl ((isLive_iff h ho hput).2 hn)
  · intro t ht hput k htouch hdrop
    refine hmem t ht fun o _ => ?_
    cases htype : t.entryType with
    | put => exact absurd htype hput
    | delete | rangeDel => simp [keeps, htype, hdrop]
    | _ => simp [keeps, htype]
  · intro p hp hput hdead
    obtain ⟨⟨p', o⟩, hpo, rfl⟩ := mem_map.1 hp
    obtain ⟨hloc, hk⟩ := mem_filter.1 hpo
    have hnot : v.isLive p' o ≠ true := fun hl => hdead ((isLive_iff h hloc hput).1 hl)
    -- A dead Put is kept for its sequence alone, and what is over it has a higher one.
    have hretain : v.retainAfter < p'.sequence := by
      simp only at hput
      simpa [keeps, hput, hnot] using hk
    refine .inl fun e he hlt htouch => hmem e he fun o' _ => ?_
    have hlt' := hretain.trans hlt
    cases htype : e.entryType <;> simp [keeps, htype, hlt']
  · intro m hm htype
    exact hmem m hm fun o _ => by simp [keeps, htype]

end Live

section Remap

variable {dest : FileId} {ms : List VacuumMapping} {s : EngineState}

namespace EngineState

def remapEntry (dest : FileId) (ms : List VacuumMapping) (k : Bytes) (cur : KeyDirEntry) : KeyDirEntry :=
  match ms.find? (fun m => m.key = k ∧ m.sequence = cur.sequence) with
  | some m => ⟨m.sequence, m.newOffset, dest, m.valueSize⟩
  | none => cur

def isCurrent (s : EngineState) (m : VacuumMapping) : Bool :=
  (s.keyDir.get m.key).map KeyDirEntry.sequence = some m.sequence

lemma remap_eq (s : EngineState) (m : VacuumMapping) : remap dest s m = { s with
    keyDir := if s.isCurrent m then s.keyDir.insert m.key ⟨m.sequence, m.newOffset, dest, m.valueSize⟩ else s.keyDir } := by
  rw [remap, kdGet, isCurrent]
  cases hget : s.keyDir.get m.key with
  | none => simp
  | some cur =>
    by_cases hseq : cur.sequence = m.sequence <;> simp [hseq, kdPut]

lemma remap_get (s : EngineState) (m : VacuumMapping) (k : Bytes) :
    (remap dest s m).keyDir.get k = (s.keyDir.get k).map (remapEntry dest [m] k) := by
  rw [remap_eq]
  by_cases hk : k = m.key
  · subst hk
    by_cases hc : s.isCurrent m = true
    · have hc' := hc
      rw [isCurrent, decide_eq_true_eq, Option.map_eq_some_iff] at hc'
      obtain ⟨cur, hcur, hseq⟩ := hc'
      simp only [hc, if_true, SortedMap.get_insert_self, hcur, Option.map_some, remapEntry, hseq]
      simp
    · simp only [hc, Bool.false_eq_true, if_false]
      cases hget : s.keyDir.get m.key with
      | none => rfl
      | some cur =>
        have hne : m.sequence ≠ cur.sequence := fun he => hc (by simp [isCurrent, hget, he])
        simp [remapEntry, hne]
  · have hne : m.key ≠ k := fun he => hk he.symm
    have hsame : remapEntry dest [m] k = id := by
      funext cur
      simp [remapEntry, hne]
    rw [hsame, Option.map_id_fun, id_eq]
    split_ifs
    · exact SortedMap.get_insert_ne _ _ hk
    · rfl

lemma foldl_remap_get (hd : ms.Pairwise (fun a b => a.key ≠ b.key)) (s : EngineState) (k : Bytes) :
    (ms.foldl (remap dest) s).keyDir.get k = (s.keyDir.get k).map (remapEntry dest ms k) := by
  induction ms generalizing s with
  | nil =>
    have hsame : remapEntry dest [] k = id := rfl
    rw [hsame, Option.map_id_fun]
    rfl
  | cons m ms ih =>
    obtain ⟨hne, hd⟩ := pairwise_cons.1 hd
    rw [foldl_cons, ih hd, remap_get, Option.map_map]
    congr 1
    funext cur
    simp only [Function.comp_apply]
    by_cases hm : m.key = k ∧ m.sequence = cur.sequence
    · obtain ⟨rfl, hseq⟩ := hm
      have hnone : ∀ c : KeyDirEntry, remapEntry dest ms m.key c = c := by
        intro c
        have hfind : ms.find? (fun m' => decide (m'.key = m.key ∧ m'.sequence = c.sequence)) = none := by
          rw [List.find?_eq_none]
          intro m' hm' heq
          exact hne m' hm' (of_decide_eq_true heq).1.symm
        rw [remapEntry, hfind]
      rw [hnone]
      simp [remapEntry, hseq]
    · have hone : remapEntry dest [m] k cur = cur := by simp [remapEntry, hm]
      rw [hone, remapEntry, remapEntry, List.find?_cons_of_neg (by simpa using hm)]

lemma foldl_remap_rest (ms : List VacuumMapping) (s : EngineState) :
    ms.foldl (remap dest) s = { s with keyDir := (ms.foldl (remap dest) s).keyDir } := by
  induction ms generalizing s with
  | nil => rfl
  | cons m ms ih =>
    rw [foldl_cons, ih, remap_eq]

lemma foldl_remap_live {old : FileId} (dest : FileId) (hd : ms.Pairwise (fun a b => a.key ≠ b.key)) (s : EngineState)
    (hold : ∀ m ∈ ms, ∀ cur, s.keyDir.get m.key = some cur → cur.sequence = m.sequence → cur.fileId = old) (j : FileId)
    (hj : j ≠ old) : liveBytesIn (ms.foldl (remap dest) s).keyDir j = liveBytesIn s.keyDir j +
      if j = dest then ((ms.filter s.isCurrent).map (fun m => entrySize m.key.length m.valueSize)).sum else 0 := by
  induction ms generalizing s with
  | nil => simp
  | cons m ms ih =>
    obtain ⟨hkeys, hd⟩ := pairwise_cons.1 hd
    have hget : ∀ m' ∈ ms, (remap dest s m).keyDir.get m'.key = s.keyDir.get m'.key := by
      intro m' hm'
      rw [remap_eq]
      split_ifs
      · exact get_insert_ne _ _ (hkeys m' hm').symm
      · rfl
    have hcur : ms.filter (remap dest s m).isCurrent = ms.filter s.isCurrent :=
      filter_congr fun m' hm' => by rw [isCurrent, isCurrent, hget m' hm']
    have hstep : liveBytesIn (remap dest s m).keyDir j = liveBytesIn s.keyDir j +
        if j = dest ∧ s.isCurrent m = true then entrySize m.key.length m.valueSize else 0 := by
      rw [remap_eq]
      by_cases hc : s.isCurrent m = true
      · have hc' := hc
        rw [isCurrent, decide_eq_true_eq, Option.map_eq_some_iff] at hc'
        obtain ⟨cur, hcur, hseq⟩ := hc'
        have hfile := hold m mem_cons_self cur hcur hseq
        have herase := liveBytesIn_erase s.keyDir m.key j
        rw [hcur, Option.map_some, Option.getD_some, hfile, if_neg hj.symm] at herase
        simp only [hc, if_true, and_true]
        rw [liveBytesIn_insert, herase, Nat.add_zero]
        simp only [eq_comm]
      · simp [hc]
    rw [foldl_cons, ih hd _ (fun m' hm' cur hcur => hold m' (mem_cons_of_mem m hm') cur (hget m' hm' ▸ hcur)),
      hcur, hstep]
    by_cases hjd : j = dest <;> by_cases hc : s.isCurrent m = true <;> simp [hjd, hc, Nat.add_assoc]

lemma lostBytes_eq (s : EngineState) (ms : List VacuumMapping) : s.lostBytes ms =
    ((ms.filter (fun m => !s.isCurrent m)).map (fun m => entrySize m.key.length m.valueSize)).sum := by
  have hfilter : ms.filter (fun m => decide ((kdGet s.keyDir m.key).map KeyDirEntry.sequence ≠ some m.sequence)) =
      ms.filter (fun m => !s.isCurrent m) :=
    filter_congr fun m _ => by rw [isCurrent, kdGet, decide_not]
  rw [lostBytes, hfilter]

lemma liveBytes_sub_lostBytes (s : EngineState) (ms : List VacuumMapping) :
    (ms.map (fun m => entrySize m.key.length m.valueSize)).sum - s.lostBytes ms =
      ((ms.filter s.isCurrent).map (fun m => entrySize m.key.length m.valueSize)).sum := by
  have hsum : (ms.map (fun m => entrySize m.key.length m.valueSize)).sum =
      ((ms.filter s.isCurrent).map (fun m => entrySize m.key.length m.valueSize)).sum + s.lostBytes ms := by
    rw [lostBytes_eq]
    induction ms with
    | nil => rfl
    | cons m ms ih =>
      cases hc : s.isCurrent m <;> simp [hc, ih] <;> omega
  omega

end EngineState

end Remap

lemma located_of_sequence {es : List DataEntry} (h : es.Pairwise (fun a b => a.sequence < b.sequence)) {start o o' : ℕ}
    {e e' : DataEntry} (he : (e, o) ∈ located start es) (he' : (e', o') ∈ located start es)
    (hseq : e.sequence = e'.sequence) : e = e' ∧ o = o' := by
  induction es generalizing start with
  | nil => cases he
  | cons x es ih =>
    obtain ⟨hlt, hes⟩ := pairwise_cons.1 h
    rcases mem_cons.1 he with hx | hx <;> rcases mem_cons.1 he' with hx' | hx'
    · obtain ⟨rfl, rfl⟩ := Prod.mk.inj hx
      obtain ⟨rfl, rfl⟩ := Prod.mk.inj hx'
      exact ⟨rfl, rfl⟩
    · have := hlt e' (mem_of_located hx')
      rw [← hseq, (Prod.mk.inj hx).1] at this
      exact absurd this (lt_irrefl _)
    · have := hlt e (mem_of_located hx)
      rw [hseq, (Prod.mk.inj hx').1] at this
      exact absurd this (lt_irrefl _)
    · exact ih hes hx hx'

/-- A finished scan of a file that is to be committed at a state with contents `C`: what the state maps into the file
the scan found live. -/
structure Relocates (C : Contents) (v : VacuumScan) (scan : VacuumScanResult) : Prop where
  copied : v.Copied (located 0 (C v.source)) scan
  live : ∀ e o, (e, o) ∈ located 0 (C v.source) → e.entryType = .put → C.Newest e.key e.sequence → v.isLive e o = true

structure Scanned (C : Contents) (v : VacuumScan) (scan : VacuumScanResult) : Prop extends Relocates C v scan where
  keeps : Keeps v.needed C v.source scan.copied

section Commit

variable {C : Contents} {s : EngineState} {v : VacuumScan} {scan : VacuumScanResult} {dest : FileId}

lemma Relocates.remapEntry_source (h : Relocates C v scan) (hl : C.Log) (dest : FileId) {k : Bytes} {d : KeyDirEntry} (hw : C.Winning k d)
    (hsrc : d.fileId = v.source) : ∃ n, remapEntry dest scan.mappings k d = ⟨d.sequence, n, dest, d.valueSize⟩ ∧
      ∃ e, (e, n) ∈ located 0 scan.copied ∧ e.sequence = d.sequence ∧ e.entryType = .put ∧ e.key = k ∧
        e.value.length = d.valueSize := by
  obtain ⟨⟨w, hw, hlen⟩, hnew⟩ := hw
  rw [hsrc] at hw
  obtain ⟨n, hn⟩ := h.copied.complete _ _ hw rfl (h.live _ _ hw rfl hnew)
  have hfound : (scan.mappings.find? (fun m => decide (m.key = k ∧ m.sequence = d.sequence))).isSome :=
    List.find?_isSome.2 ⟨_, hn, by simp⟩
  obtain ⟨m, hm⟩ := Option.isSome_iff_exists.1 hfound
  have hmem := List.mem_of_find?_eq_some hm
  have hkey : m.key = k ∧ m.sequence = d.sequence := by
    have := List.find?_some hm
    exact of_decide_eq_true this
  obtain ⟨e, o, heo, hput, -, hloc, heq⟩ := h.copied.sound m hmem
  have hek : e.key = k := by rw [← hkey.1, heq]
  have hes : e.sequence = d.sequence := by rw [← hkey.2, heq]
  -- Two entries of the source with one sequence are the same.
  obtain ⟨hee, -⟩ := located_of_sequence (hl.written _).ascending heo hw hes
  refine ⟨m.newOffset, ?_, e, hloc, hes, hput, hek, by rw [hee]; exact hlen⟩
  rw [remapEntry, hm, heq]
  simp only [KeyDirEntry.mk.injEq, hes, true_and]
  rw [hee]
  exact hlen

lemma Relocates.remapEntry_other (h : Relocates C v scan) (hl : C.Log) {k : Bytes} {d : KeyDirEntry} (hw : C.Winning k d)
    (hsrc : d.fileId ≠ v.source) : remapEntry dest scan.mappings k d = d := by
  have hnone : scan.mappings.find? (fun m => decide (m.key = k ∧ m.sequence = d.sequence)) = none := by
    rw [List.find?_eq_none]
    intro m hm heq
    obtain ⟨-, hseq⟩ := of_decide_eq_true heq
    obtain ⟨e, o, heo, -, -, -, hme⟩ := h.copied.sound m hm
    obtain ⟨w, hw⟩ := hw.1.mem
    refine hsrc (hl.apart _ _ _ hw e (mem_of_located heo) ?_)
    rw [← hseq, hme]
  rw [remapEntry, hnone]

lemma applyVacuum_keyDir (s : EngineState) (old : FileId) (scan : VacuumScanResult) (path : Path) (dest : FileId) :
    (s.applyVacuum old scan path dest).keyDir =
      (scan.mappings.foldl (EngineState.remap dest) { s with files := s.files.insert dest path }).keyDir := rfl

lemma Scanned.keys (h : Scanned C v scan) (hm : Mirror C s) (hcov : Covered v.needed C) (hdest : C dest = [])
    (path : Path) (k : Bytes) (d : KeyDirEntry) : (s.applyVacuum v.source scan path dest).keyDir.get k = some d ↔
      (C.replace v.source dest scan.copied).Winning k d := by
  rw [applyVacuum_keyDir, foldl_remap_get h.copied.distinct, Option.map_eq_some_iff]
  constructor
  · rintro ⟨cur, hcur, rfl⟩
    have hw := (hm.indexed.keys k cur).1 hcur
    by_cases hsrc : cur.fileId = v.source
    · obtain ⟨n, heq, e, hloc, hseq, hput, rfl, hlen⟩ := h.remapEntry_source hm.log dest hw hsrc
      rw [heq]
      refine ⟨⟨e.value, ?_, hlen⟩, h.keeps.newest_replace hw.2⟩
      rw [replace_dest, ← hseq, ← DataEntry.eq_of_put hput]
      exact hloc
    · rw [h.remapEntry_other hm.log hw hsrc]
      refine ⟨?_, h.keeps.newest_replace hw.2⟩
      obtain ⟨w, hw', hlen⟩ := hw.1
      refine ⟨w, ?_, hlen⟩
      have hne : cur.fileId ≠ dest := by
        intro heq
        rw [heq, hdest] at hw'
        cases hw'
      rw [replace_of_ne C _ hne hsrc]
      exact hw'
  · rintro ⟨⟨w, hloc, hlen⟩, hnew⟩
    have hnewC : C.Newest k d.sequence :=
      (h.keeps.newest_iff hcov hm.below (.inr hdest) (mem_of_located hloc) rfl).1 hnew
    by_cases hd : d.fileId = dest
    · rw [hd, replace_dest] at hloc
      have hmem := h.keeps.sublist.subset (mem_of_located hloc)
      obtain ⟨o, ho⟩ := located_of_mem hmem 0
      have hw : C.Winning k ⟨d.sequence, o, v.source, d.valueSize⟩ := ⟨⟨w, ho, hlen⟩, hnewC⟩
      obtain ⟨n, heq, e, hloc', hseq, -⟩ := h.remapEntry_source hm.log dest hw rfl
      obtain ⟨-, rfl⟩ := located_of_sequence ((hm.log.written _).ascending.sublist h.keeps.sublist) hloc' hloc hseq
      refine ⟨_, (hm.indexed.keys k _).2 hw, ?_⟩
      cases d
      simp_all
    · have hsrc : d.fileId ≠ v.source := by
        intro heq
        have hnil : C.replace v.source dest scan.copied d.fileId = [] := by
          rw [Contents.replace, Function.update_of_ne hd, heq, Function.update_self]
        rw [hnil] at hloc
        cases hloc
      rw [replace_of_ne C _ hd hsrc] at hloc
      have hw : C.Winning k d := ⟨⟨w, hloc, hlen⟩, hnewC⟩
      exact ⟨d, (hm.indexed.keys k d).2 hw, h.remapEntry_other hm.log hw hsrc⟩

lemma Relocates.mapped_source (h : Relocates C v scan) (hm : Mirror C s) : ∀ m ∈ scan.mappings, ∀ cur,
    s.keyDir.get m.key = some cur → cur.sequence = m.sequence → cur.fileId = v.source := by
  intro m hmem cur hcur hseq
  obtain ⟨w, hw⟩ := ((hm.indexed.keys m.key cur).1 hcur).1.mem
  obtain ⟨e, o, heo, -, -, -, hme⟩ := h.copied.sound m hmem
  refine hm.log.apart _ _ _ hw e (mem_of_located heo) ?_
  rw [hseq, hme]

lemma applyVacuum_stats (s : EngineState) (old : FileId) (scan : VacuumScanResult) (path : Path) (dest j : FileId) :
    (s.applyVacuum old scan path dest).fileStats.get j = if j = dest then some
      { liveBytes := scan.liveBytes - s.lostBytes scan.mappings, totalBytes := scan.totalBytes
        minSequence := scan.minSequence, maxSequence := scan.maxSequence, tombstoneBytes := scan.tombstoneBytes
        markerBytes := scan.markerBytes, changeMarkerBytes := scan.changeMarkerBytes }
      else if j = old then none else s.fileStats.get j := by
  simp only [applyVacuum, dropFile]
  rw [get_insert, get_erase, foldl_remap_rest]

lemma Scanned.stats (h : Scanned C v scan) (hm : Mirror C s) (hdest : C dest = []) (hne : dest ≠ v.source) (path : Path)
    (j : FileId) (st : FileStats) (hst : (s.applyVacuum v.source scan path dest).fileStats.get j = some st) :
    st = fileStatsOf (s.applyVacuum v.source scan path dest).keyDir j (C.replace v.source dest scan.copied j)
      (boundsOf (C.replace v.source dest scan.copied) j) := by
  have hmapped := h.mapped_source hm
  have hlive := foldl_remap_live dest h.copied.distinct { s with files := s.files.insert dest path } hmapped j
  rw [applyVacuum_stats] at hst
  rw [applyVacuum_keyDir, fileStatsOf]
  split_ifs at hst with hd ho
  · subst hd
    obtain rfl := Option.some.inj hst
    rw [hlive hne, if_pos rfl, replace_dest, boundsOf, replace_dest, countsOf, foldl_count]
    have hzero : liveBytesIn s.keyDir j = 0 := hm.indexed.liveBytesIn_eq_zero hdest
    have hlast := ((hm.log.written _).of_sublist h.keeps.sublist).lastSeq_eq
    simp only [hzero, Nat.zero_add, h.copied.total, h.copied.tombstones, h.copied.markers, h.copied.changeMarkers,
      h.copied.first, h.copied.last, h.copied.live, liveBytes_sub_lostBytes, hlast]
    rfl
  · rw [hlive ho, if_neg hd, Nat.add_zero, replace_of_ne C _ hd ho, boundsOf, replace_of_ne C _ hd ho]
    exact hm.indexed.stats j st hst

lemma applyVacuum_rest (s : EngineState) (old : FileId) (scan : VacuumScanResult) (path : Path) (dest : FileId) :
    s.applyVacuum old scan path dest = { s with
      keyDir := (s.applyVacuum old scan path dest).keyDir
      files := (s.files.insert dest path).erase old
      fileStats := (s.applyVacuum old scan path dest).fileStats } := by
  simp only [applyVacuum, dropFile]
  rw [foldl_remap_rest]

end Commit

section Mirror

variable {needed : Recovery.NeededTombstones} {C : Contents} {s t : EngineState} {old dest : FileId} {kept : List DataEntry}

lemma Keeps.mem_markersIn (h : Keeps needed C old kept) (hd : dest = old ∨ C dest = []) (m : ChangeMarker) :
    (∃ j, m ∈ markersIn (C.replace old dest kept j)) ↔ ∃ id, m ∈ markersIn (C id) := by
  simp only [Bytecask.mem_markersIn]
  constructor
  · rintro ⟨j, e, he, ht, rfl⟩
    obtain ⟨id, heC, -⟩ := h.mem_of_replace he
    exact ⟨id, e, heC, ht, rfl⟩
  · rintro ⟨id, e, he, ht, rfl⟩
    refine ⟨_, e, mem_replace_of_mem hd he ?_, ht, rfl⟩
    rintro rfl
    exact h.markers e he ht

lemma Mirror.replace (hm : Mirror C s) (h : Keeps needed C old kept) (hd : dest = old ∨ C dest = [])
    (hi : Indexed (C.replace old dest kept) (boundsOf (C.replace old dest kept)) t)
    (hstats : ∀ j, (kept ≠ [] ∧ j = dest) ∨ (j ≠ old ∧ (s.fileStats.get j).isSome) → (t.fileStats.get j).isSome)
    (ha : t.activeFileId = s.activeFileId) (hactive : s.activeFileId ≠ old) (hn : t.nextSeq = s.nextSeq)
    (hc : t.changeMarkers = s.changeMarkers) : Mirror (C.replace old dest kept) t where
  log := hm.log.replace h
  indexed := hi
  known j hj := by
    refine hstats j ?_
    obtain ⟨e, he⟩ := exists_mem_of_ne_nil _ hj
    rcases mem_replace.1 he with ⟨rfl, hk⟩ | ⟨-, ho, hC⟩
    · exact .inl ⟨ne_nil_of_mem hk, rfl⟩
    · exact .inr ⟨ho, hm.known j (ne_nil_of_mem hC)⟩
  active := by
    rw [ha]
    exact hstats _ (.inr ⟨hactive, hm.active⟩)
  positive := hn ▸ hm.positive
  below j e he := by
    obtain ⟨id, heC, -⟩ := h.mem_of_replace he
    rw [hn]
    exact hm.below id e heC
  ordered := hc ▸ hm.ordered
  markers m := by rw [hc, hm.markers, h.mem_markersIn hd]

lemma Mirror.vacuum (hm : Mirror C s) {v : VacuumScan} {scan : VacuumScanResult} (h : Scanned C v scan)
    (hcov : Covered v.needed C) (hdest : C dest = []) (hne : dest ≠ v.source) (hactive : s.activeFileId ≠ v.source)
    (path : Path) : Mirror (C.replace v.source dest scan.copied) (s.applyVacuum v.source scan path dest) := by
  have hrest := applyVacuum_rest s v.source scan path dest
  refine hm.replace h.keeps (.inr hdest) ⟨h.keys hm hcov hdest path, h.stats hm hdest hne path⟩ (fun j hj => ?_) ?_
    hactive ?_ ?_
  · rw [applyVacuum_stats]
    split_ifs with hjd hjo
    · rfl
    · rcases hj with ⟨-, rfl⟩ | ⟨hjo', -⟩
      · exact absurd rfl hjd
      · exact absurd hjo hjo'
    · rcases hj with ⟨-, rfl⟩ | ⟨-, hj⟩
      · exact absurd rfl hjd
      · exact hj
  · rw [hrest]
  · rw [hrest]
  · rw [hrest]

lemma Mirror.dropFile (hm : Mirror C s) (h : Keeps needed C old []) (hcov : Covered needed C) (hactive : s.activeFileId ≠ old) :
    Mirror (C.replace old old []) (s.dropFile old) := by
  have hother : ∀ {j}, j ≠ old → C.replace old old [] j = C j := fun hj => replace_of_ne C [] hj hj
  have hstats : ∀ j, (s.dropFile old).fileStats.get j = if j = old then none else s.fileStats.get j :=
    fun j => get_erase _ old j
  refine hm.replace h (.inl rfl) ⟨fun k d => ?_, fun j st hst => ?_⟩ (fun j hj => ?_) rfl hactive rfl rfl
  · show s.keyDir.get k = some d ↔ _
    rw [hm.indexed.keys]
    constructor
    · rintro ⟨⟨w, hw, hlen⟩, hnew⟩
      have hd : d.fileId ≠ old := by
        intro heq
        have hmem := mem_of_located hw
        rw [heq] at hmem
        have hnil := h.live _ hmem rfl hnew
        cases hnil
      exact ⟨⟨w, by rw [hother hd]; exact hw, hlen⟩, h.newest_replace hnew⟩
    · rintro ⟨⟨w, hw, hlen⟩, hnew⟩
      have hd : d.fileId ≠ old := by
        intro heq
        rw [heq, replace_dest] at hw
        cases hw
      have hnewC := (h.newest_iff hcov hm.below (.inl rfl) (mem_of_located hw) rfl).1 hnew
      rw [hother hd] at hw
      exact ⟨⟨w, hw, hlen⟩, hnewC⟩
  · rw [hstats] at hst
    split_ifs at hst with hj
    rw [hother hj, boundsOf, hother hj]
    exact hm.indexed.stats j st hst
  · rw [hstats]
    rcases hj with ⟨hne, -⟩ | ⟨hj, hsome⟩
    · exact absurd rfl hne
    · rw [if_neg hj]
      exact hsome

end Mirror

end Bytecask
