import Bytecask.Vacuum.Followers

/-! The commit of a vacuum after other writes: records move, and nothing else changes. -/

namespace Bytecask

open Contents EngineState

def Contents.valueAt (C : Contents) (d : KeyDirEntry) : Option Bytes :=
  ((located 0 (C d.fileId)).find? (fun e => e.2 = d.fileOffset)).map (fun e => e.1.value)

lemma Contents.valueAt_eq {C : Contents} {d : KeyDirEntry} {e : DataEntry}
    (h : (e, d.fileOffset) ∈ located 0 (C d.fileId)) : C.valueAt d = some e.value := by
  rw [valueAt]
  cases hf : (located 0 (C d.fileId)).find? (fun e => e.2 = d.fileOffset) with
  | none =>
    have hno := List.find?_eq_none.1 hf _ h
    simp at hno
  | some x =>
    have hx : x.2 = d.fileOffset := by simpa using List.find?_some hf
    have hmem := List.mem_of_find?_eq_some hf
    obtain ⟨e', o⟩ := x
    subst hx
    rw [located_unique hmem h]
    rfl

section Grown

variable {a b : Disk × EngineState}

lemma GrowsTo.sealed (h : Stored a.1 a.2) (hg : GrowsTo a b) {id : FileId} (hid : a.2.Sealed id) : b.2.Sealed id := by
  induction hg with
  | refl => exact hid
  | tail hab hbc ih => exact (hbc.sealed (h.growsTo hab) ih).1

lemma Relocates.growsTo (h : Stored a.1 a.2) (hg : GrowsTo a b) {v : VacuumScan} {scan : VacuumScanResult}
    (hid : a.2.Sealed v.source) (hr : Relocates (a.1.contents a.2) v scan) : Relocates (b.1.contents b.2) v scan := by
  induction hg with
  | refl => exact hr
  | tail hab hbc ih => exact ih.grows (h.growsTo hab) hbc (GrowsTo.sealed h hab hid)

lemma Lone.growsTo (h : Stored a.1 a.2) (hg : GrowsTo a b) {path : Path} {es : List DataEntry} (hl : Lone a.1 a.2 path es) :
    Lone b.1 b.2 path es := by
  induction hg with
  | refl => exact hl
  | tail hab hbc ih => exact ih.grows (h.growsTo hab) hbc

end Grown

section Commit

variable {C : Contents} {s : EngineState} {v : VacuumScan} {scan : VacuumScanResult} {dest : FileId}

lemma Relocates.keyDir_get (h : Relocates C v scan) (hm : Mirror C s) (path : Path) {k : Bytes} {d : KeyDirEntry}
    (hd : s.keyDir.get k = some d) :
    (d.fileId ≠ v.source ∧ (s.applyVacuum v.source scan path dest).keyDir.get k = some d) ∨
      (d.fileId = v.source ∧ ∃ n e, (s.applyVacuum v.source scan path dest).keyDir.get k = some ⟨d.sequence, n, dest, d.valueSize⟩ ∧
        (e, n) ∈ located 0 scan.copied ∧ (e, d.fileOffset) ∈ located 0 (C v.source)) := by
  have hw := (hm.indexed.keys k d).1 hd
  have hget : (s.applyVacuum v.source scan path dest).keyDir.get k = some (remapEntry dest scan.mappings k d) := by
    rw [applyVacuum_keyDir, foldl_remap_get h.copied.distinct]
    exact congrArg _ hd
  by_cases hsrc : d.fileId = v.source
  · obtain ⟨n, heq, e, hloc, hseq, -⟩ := h.remapEntry_source hm.log dest hw hsrc
    refine .inr ⟨hsrc, n, e, by rw [hget, heq], hloc, ?_⟩
    -- The record of the copy and the record of the source have one sequence, so they are one entry.
    obtain ⟨w, hw', -⟩ := hw.1
    rw [hsrc] at hw'
    have hmem : e ∈ C _ := (h.copied.copied ▸ VacuumScan.copies_sublist v 0 _).subset (mem_of_located hloc)
    obtain ⟨o, ho⟩ := located_of_mem hmem 0
    obtain ⟨rfl, -⟩ := located_of_sequence (hm.log.written _).ascending ho hw' hseq
    exact hw'
  · exact .inl ⟨hsrc, by rw [hget, h.remapEntry_other hm.log hw hsrc]⟩

lemma Relocates.keyDir_none (h : Relocates C v scan) (path : Path) {k : Bytes} (hd : s.keyDir.get k = none) :
    (s.applyVacuum v.source scan path dest).keyDir.get k = none := by
  rw [applyVacuum_keyDir, foldl_remap_get h.copied.distinct]
  exact congrArg _ hd

lemma EngineState.lostBytes_le (s : EngineState) (ms : List VacuumMapping) :
    s.lostBytes ms ≤ (ms.map (fun m => entrySize m.key.length m.valueSize)).sum :=
  List.Sublist.sum_le_sum (List.filter_sublist.map _) (by simp)

lemma Relocates.liveBytesIn_dest (h : Relocates C v scan) (hm : Mirror C s) (hdest : C dest = []) (hne : dest ≠ v.source)
    (path : Path) : liveBytesIn (s.applyVacuum v.source scan path dest).keyDir dest = scan.liveBytes - s.lostBytes scan.mappings := by
  have hmapped := h.mapped_source hm
  have hlive := foldl_remap_live dest h.copied.distinct { s with files := s.files.insert dest path } hmapped dest hne
  rw [if_pos rfl, hm.indexed.liveBytesIn_eq_zero hdest, Nat.zero_add] at hlive
  rw [applyVacuum_keyDir, hlive, h.copied.live, liveBytes_sub_lostBytes]
  rfl

end Commit

structure Moved (d : Disk) (s t : EngineState) (id : FileId) : Prop where
  values : ∀ k, (t.keyDir.get k).map (fun e => (e.sequence, (d.contents t).valueAt e)) =
    (s.keyDir.get k).map (fun e => (e.sequence, (d.contents s).valueAt e))
  elsewhere : ∀ k e, t.keyDir.get k = some e → e.fileId ≠ id
  file : t.files.get id = none
  stats : t.fileStats.get id = none

section Moved

variable {d : Disk} {s : EngineState} {v : VacuumScan} {scan : VacuumScanResult}

lemma Stored.fileId_ne (h : Stored d s) {dest : FileId} (hdest : d.contents s dest = []) {k : Bytes} {e : KeyDirEntry}
    (he : s.keyDir.get k = some e) : e.fileId ≠ dest := by
  obtain ⟨w, hw, -⟩ := ((h.mirror.indexed.keys k e).1 he).1
  intro heq
  rw [heq, hdest] at hw
  cases hw

lemma Relocates.moved (hr : Relocates (d.contents s) v scan) (h : Stored d s) {path : Path} (hl : Lone d s path scan.copied)
    {dest : FileId} (hdest : d.contents s dest = []) (hne : dest ≠ v.source) :
    Moved d s (s.applyVacuum v.source scan path dest) v.source := by
  have hcontents := Disk.contents_applyVacuum hl hne
  refine ⟨fun k => ?_, fun k e he => ?_, ?_, ?_⟩
  · cases hk : s.keyDir.get k with
    | none =>
      rw [hr.keyDir_none path hk]
      rfl
    | some e =>
      rcases hr.keyDir_get h.mirror path hk with ⟨hsrc, hget⟩ | ⟨hsrc, n, x, hget, hloc, hx⟩
      · rw [hget, Option.map_some, Option.map_some, hcontents, valueAt, valueAt,
          replace_of_ne _ _ (h.fileId_ne hdest hk) hsrc]
      · have hnew : (d.contents (s.applyVacuum v.source scan path dest)).valueAt ⟨e.sequence, n, dest, e.valueSize⟩ = some x.value := by
          refine valueAt_eq ?_
          rw [hcontents, replace_dest]
          exact hloc
        have hold : (d.contents s).valueAt e = some x.value := by
          refine valueAt_eq ?_
          rw [hsrc]
          exact hx
        rw [hget, Option.map_some, Option.map_some, hnew, hold]
  · cases hk : s.keyDir.get k with
    | none =>
      rw [hr.keyDir_none path hk] at he
      cases he
    | some x =>
      rcases hr.keyDir_get h.mirror path hk with ⟨hsrc, hget⟩ | ⟨-, n, y, hget, -⟩
      · rw [hget] at he
        exact Option.some.inj he ▸ hsrc
      · rw [hget] at he
        exact Option.some.inj he ▸ hne
  · rw [applyVacuum_files, if_pos rfl]
  · rw [applyVacuum_stats, if_neg hne.symm, if_pos rfl]

lemma Relocates.moved_dropFile (hr : Relocates (d.contents s) v scan) (h : Stored d s) (hz : scan.totalBytes = 0) :
    Moved d s (s.dropFile v.source) v.source := by
  have hnone : ∀ k e, s.keyDir.get k = some e → e.fileId ≠ v.source := by
    intro k e he heq
    obtain ⟨n, -, x, hx, -⟩ := hr.remapEntry_source h.mirror.log 0 ((h.mirror.indexed.keys k e).1 he) heq
    have hnil : scan.copied = [] := eq_nil_of_bytesOf (hr.copied.total ▸ hz)
    rw [hnil] at hx
    cases hx
  refine ⟨fun k => ?_, hnone, SortedMap.get_erase_self _ _, SortedMap.get_erase_self _ _⟩
  show (s.keyDir.get k).map _ = _
  cases hk : s.keyDir.get k with
  | none => rfl
  | some e =>
    have hsrc := hnone k e hk
    rw [Option.map_some, Option.map_some, Disk.contents_dropFile, valueAt, valueAt,
      replace_of_ne _ _ hsrc hsrc]

end Moved

/-- A vacuum's commit after any writes, deletes, range deletes and rotations since its scan, some of them before the copy
has its name and some after: with the copy, or as a removal when the scan kept nothing. -/
theorem vacuum_moves_records {d₀ d₁ d : Disk} {snap s₁ s : EngineState} (h : Stored d₀ snap) {id : FileId} (hid : snap.Sealed id)
    {needed : Recovery.NeededTombstones} {retainAfter : ℕ} {scan : VacuumScanResult}
    (hscan : vacuumScanAndCopy ⟨snap, id, needed, retainAfter⟩ none ((d₀.files.get (snap.pathOf id)).getD {}).data = .ok scan)
    (hg₁ : GrowsTo (d₀, snap) (d₁, s₁)) (hg : GrowsTo (d₁.place scan.copied, s₁) (d, s)) :
    (∀ dest, s.files.get dest = none →
      let t := s.applyVacuum id scan d₁.nextPath dest
      Moved d s t id ∧ s.lostBytes scan.mappings ≤ scan.liveBytes ∧
        (∃ st, t.fileStats.get dest = some st ∧ st.liveBytes = liveBytesIn t.keyDir dest ∧
          st.totalBytes = d.size d₁.nextPath) ∧
        ∀ j, j ≠ id → j ≠ dest → t.fileStats.get j = s.fileStats.get j) ∧
    (scan.totalBytes = 0 →
      Moved d₁ s₁ (s₁.dropFile id) id ∧ ∀ j, j ≠ id → (s₁.dropFile id).fileStats.get j = s₁.fileStats.get j) := by
  obtain ⟨scan', hscan', hr₀⟩ := h.scan hid needed _
  obtain rfl : scan' = scan := Except.ok.inj (hscan'.symm.trans hscan)
  have hs₁ := h.growsTo hg₁
  have hr₁ := hr₀.growsTo h hg₁ hid
  have hid₁ := GrowsTo.sealed h hg₁ hid
  refine ⟨fun dest hdest => ?_, fun hz => ⟨hr₁.moved_dropFile hs₁ hz, fun j hj => ?_⟩⟩
  · have hplaced := hs₁.place scan'.copied
    have hs := hplaced.growsTo hg
    have hr : Relocates (d.contents s) ⟨snap, id, needed, retainAfter⟩ scan' := by
      refine Relocates.growsTo hplaced hg hid₁ ?_
      rw [Disk.contents_place hs₁]
      exact hr₁
    have hl : Lone d s d₁.nextPath scan'.copied := Lone.growsTo hplaced hg (lone_place hs₁ _)
    have hne : dest ≠ id := by
      rintro rfl
      have := (GrowsTo.sealed hplaced hg hid₁).1
      rw [hdest] at this
      cases this
    have hempty : d.contents s dest = [] := by
      rw [Disk.contents, hdest]
      rfl
    have hstats := applyVacuum_stats s id scan' d₁.nextPath dest
    refine ⟨hr.moved hs hl hempty hne, ?_, ⟨_, (hstats dest).trans (if_pos rfl), ?_, ?_⟩, fun j hj hjd => ?_⟩
    · rw [hr.copied.live]
      exact s.lostBytes_le _
    · exact (hr.liveBytesIn_dest hs.mirror hempty hne _).symm
    · obtain ⟨f, hf, hes, -⟩ := hl.file
      rw [Disk.size, hf, hr.copied.total, ← hes]
      rfl
    · rw [hstats, if_neg hjd, if_neg hj]
  · exact (SortedMap.get_erase _ _ _).trans (if_neg hj)

def overwrittenScan : VacuumScanResult :=
  { copied := [⟨2, .put, [2], [6]⟩], mappings := [⟨[2], 0, 2, 1⟩], liveBytes := 21, totalBytes := 21, minSequence := 2, maxSequence := 2 }

theorem lateDelete_moved :
    let d := (Process.overwritten.disk.place overwrittenScan.copied).append Process.overwritten.state.activePath [⟨4, .delete, [2], []⟩]
    let s := Process.overwritten.state.applyIngest [⟨4, .delete, [2], []⟩] [21]
    let t := s.applyVacuum 0 overwrittenScan 2 5
    s.lostBytes overwrittenScan.mappings = 21 ∧ Moved d s t 0 ∧
      ∃ st, t.fileStats.get 5 = some st ∧ st.liveBytes = 0 ∧ st.totalBytes = d.size 2 := by
  intro d s t
  have hreach := Process.overwriting_run.reachable Process.freshProcess_reachable
  have hstored := (Process.kept_of_reachable hreach).sound.stored
  have hsealed : Process.overwritten.state.Sealed 0 := ⟨by decide +kernel, by decide +kernel⟩
  have hes : Appendable Process.overwritten.state [⟨4, .delete, [2], []⟩] :=
    ⟨by simp, ⟨by simp [DataEntry.Shaped], List.pairwise_singleton _ _, by simp⟩, .cons (.single (by simp)) .nil,
      by simp; decide +kernel⟩
  have hg : GrowsTo (Process.overwritten.disk.place overwrittenScan.copied, Process.overwritten.state) (d, s) :=
    .single (.append hes)
  obtain ⟨hcopy, -⟩ := @vacuum_moves_records _ _ _ _ _ _ hstored 0 hsealed Process.overwritten.needed 2 _ rfl .refl hg
  obtain ⟨hmoved, -, ⟨st, hst, hlive, htotal⟩, -⟩ := hcopy 5 (by decide +kernel)
  refine ⟨by decide +kernel, hmoved, st, hst, hlive.trans ?_, htotal⟩
  decide +kernel

end Bytecask
