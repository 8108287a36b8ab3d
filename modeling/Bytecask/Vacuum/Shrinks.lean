import Bytecask.Vacuum.Steps

/-! A call of `vacuum` that nothing else writes beside: it makes the files smaller when it returns true, and when it
returns false no file that it may compact could be made smaller. -/

namespace Bytecask

open EStateM SortedMap Db EngineState Recovery

variable {quotient : ℕ → ℕ → ℚ} {s : EngineState} {retainAfter : ℕ} {id bound : FileId} {needed : NeededTombstones}
variable {stats : SortedMap FileId FileStats} {db : Db}

/-- What the looks at the cancel flag find where a candidate is tried: before it, in its scan and before its commit. -/
structure CancelLooks where
  before : Bool := false
  scan : Option ℕ := none
  late : Bool := false
deriving DecidableEq

structure VacuumRequest where
  threshold : ℚ
  retainAfter : ℕ
  looks : FileId → CancelLooks := fun _ => {}

variable {req : VacuumRequest}

def VacuumRequest.options (req : VacuumRequest) (id : FileId) : VacuumOptions :=
  ⟨req.retainAfter, (req.looks id).scan, (req.looks id).late⟩

section Model

variable (quotient : ℕ → ℕ → ℚ)

namespace Db

def vacuumEach (needed : NeededTombstones) (req : VacuumRequest) (stats : SortedMap FileId FileStats) :
    List FileId → Op Bool
  | [] => pure false
  | id :: ids => do
    if (req.looks id).before then return false
    if ((stats.get id).getD {}).removable req.retainAfter then
      vacuumRemoveFile id
      return true
    if ← vacuumCompactFile needed (req.options id) id then return true
    vacuumEach needed req stats ids

def vacuum (needed : NeededTombstones) (req : VacuumRequest) : Op Bool := do
  let db ← get
  if db.refused then throw .degraded
  vacuumEach needed req db.published.fileStats (db.published.candidatesBy quotient req.threshold req.retainAfter)

end Db

end Model

def totalBytesOf (stats : SortedMap FileId FileStats) : ℕ := stats.sum (fun _ fs => fs.totalBytes)

structure Shrunk (stats stats' : SortedMap FileId FileStats) : Prop where
  total : totalBytesOf stats' < totalBytesOf stats
  files : ∀ j fs', stats'.get j = some fs' → stats.get j = some fs' ∨
    (stats.get j = none ∧ ∃ i fs, stats.get i = some fs ∧ stats'.get i = none ∧ fs'.totalBytes < fs.totalBytes)

section Stats

variable {stats : SortedMap FileId FileStats} {id : FileId} {fs : FileStats}

lemma totalBytesOf_erase (h : stats.get id = some fs) : totalBytesOf stats = totalBytesOf (stats.erase id) + fs.totalBytes := by
  rw [totalBytesOf, sum_eq_erase, h]
  rfl

lemma shrunk_erase (h : stats.get id = some fs) (hpos : fs.totalBytes ≠ 0) : Shrunk stats (stats.erase id) where
  total := by
    rw [totalBytesOf_erase h]
    omega
  files j fs' hj := by
    rw [get_erase] at hj
    split_ifs at hj
    exact .inl hj

lemma shrunk_replace (h : stats.get id = some fs) {dest : FileId} (hdest : stats.get dest = none) {fs' : FileStats}
    (hlt : fs'.totalBytes < fs.totalBytes) : Shrunk stats ((stats.erase id).insert dest fs') := by
  have hne : id ≠ dest := by
    rintro rfl
    rw [hdest] at h
    cases h
  have hnone : (stats.erase id).get dest = none := by
    rw [get_erase, hdest, ite_self]
  refine ⟨?_, fun j gs hj => ?_⟩
  · rw [totalBytesOf_erase h, totalBytesOf, sum_insert, erase_of_get_none hnone]
    exact Nat.add_lt_add_left hlt _
  · rw [get_insert] at hj
    split_ifs at hj with hjd
    · obtain rfl := Option.some.inj hj
      refine .inr ⟨hjd ▸ hdest, id, fs, h, ?_, hlt⟩
      rw [get_insert_ne _ _ hne, get_erase_self]
    · rw [get_erase] at hj
      split_ifs at hj
      exact .inl hj

end Stats

namespace Db

/-- Nothing is ahead of the published state, so that a barrier publishes no write. The ids of files are below `bound`. -/
structure Quiet (stats : SortedMap FileId FileStats) (bound : FileId) (db : Db) : Prop where
  published : db.published.fileStats = stats
  head : db.head.fileStats = stats
  requested : db.published.syncRequestedSeq ≤ db.published.durableSeq
  ids : ∀ id, (stats.get id).isSome → id < bound
  next : bound ≤ db.published.nextFileId
  headNext : bound ≤ db.head.nextFileId

variable {stats : SortedMap FileId FileStats} {bound : FileId} {db : Db}
variable {α : Type} {Q : α → Db → Prop} {id : FileId} {scan : VacuumScanResult} (needed : NeededTombstones)

lemma Live.quiet {d : Disk} (h : Live d db) (hseq : db.head.nextSeq ≤ db.published.nextSeq) :
    Quiet db.published.fileStats db.published.nextFileId db := by
  obtain ⟨hh, heq, -⟩ := h.healthy hseq
  refine ⟨rfl, by rw [heq]; rfl, h.requested, fun id hid => hh.stored.ids id ((hh.stored.known id).trans hid), le_rfl, ?_⟩
  rw [heq]
  exact le_rfl

lemma Quiet.flushPending (h : Quiet stats bound db) : flushPending.wp (fun _ => Quiet stats bound) (fun _ _ => True) db := by
  by_cases hr : db.refused = true
  · simpa only [Db.flushPending, wp_bind, wp_get, hr, if_true, wp_pure] using h
  · refine Db.wp_flushPending (Bool.not_eq_true _ ▸ hr) (fun _ _ => h) (fun d' fs _ => ?_) (fun fs => { h with }) (fun _ => trivial)
    rw [wp_storeState]
    exact ⟨fun hf => ⟨h.head, h.head, hf.2.2.2.2, h.ids, h.headNext, h.headNext⟩, fun _ => { h with }⟩

lemma Quiet.barrier {m : Op α} (h : Quiet stats bound db)
    (hm : ∀ db', Quiet stats bound db' → m.wp (fun a db'' => Q a { db'' with head := db''.published }) (fun _ _ => True) db') :
    (barrier m).wp Q (fun _ _ => True) db := by
  simp only [Db.barrier, wp_bind]
  refine wp_mono h.flushPending (fun _ db' h' => ?_) (fun _ _ _ => trivial)
  rw [wp_onError]
  refine wp_mono (hm db' h') (fun a db'' hq => hq) (fun e db'' _ => ?_)
  split_ifs
  trivial

def Unchecked (apply : EngineState → EngineState) : Prop :=
  ∀ t, (apply t).nextSeq = t.nextSeq ∧ (apply t).activeFileId = t.activeFileId ∧ (apply t).nextFileId = t.nextFileId ∧
    (apply t).durableSeq = t.durableSeq ∧ (apply t).syncRequestedSeq = t.syncRequestedSeq

lemma Quiet.vacuumDurable (h : Quiet stats bound db) (ht : db.t = db.published) (decidedAt : ℕ) :
    (vacuumDurable db.published decidedAt).wp (fun _ db' => db'.t.fileStats = stats ∧
      db'.t.nextSeq = db.published.nextSeq ∧ db'.t.activeFileId = db.published.activeFileId ∧
      db'.t.nextFileId = db.published.nextFileId ∧ db.published.durableSeq ≤ db'.t.durableSeq ∧
      db'.t.syncRequestedSeq = db.published.syncRequestedSeq) (fun _ _ => True) db := by
  rw [Db.vacuumDurable]
  split_ifs
  · simp only [wp_bind, wp_get, wp_ite, wp_throw, syncActiveFile, wp_onError, wp_modifyT]
    refine ⟨fun _ => trivial, fun _ => wp_sync (fun fs => ?_) (fun f fs => ?_)⟩
    · simp only [ht, applySync, true_and, and_true]
      exact ⟨h.published, le_max_left _ _⟩
    · split_ifs
      · trivial
      · exact wp_degradeTransient fun _ _ => trivial
  · simp only [wp_pure, ht, true_and, and_true]
    exact ⟨h.published, le_rfl⟩

lemma Quiet.vacuumCommit (h : Quiet stats bound db) {apply : EngineState → EngineState} (ha : Unchecked apply) (decidedAt : ℕ)
    (hids : ∀ t : EngineState, t.fileStats = stats → ∀ id, ((apply t).fileStats.get id).isSome → id < bound) :
    (vacuumCommit apply decidedAt).wp (fun _ db' => ∃ t : EngineState, t.fileStats = stats ∧
      Quiet (apply t).fileStats bound { db' with head := db'.published }) (fun _ _ => True) db := by
  have ht : Quiet stats bound { db with t := db.published } := { h with }
  simp only [Db.vacuumCommit, wp_bind, wp_get, wp_modify, wp_modifyT]
  refine wp_mono (ht.vacuumDurable rfl decidedAt) (fun _ db' hdb => ?_) (fun _ _ _ => trivial)
  obtain ⟨hsame, hseq, hactive, hnext, hdur, hreq⟩ := hdb
  obtain ⟨h₁, h₂, h₃, h₄, h₅⟩ := ha db'.t
  have hrequested := h.requested
  have hbound := h.next
  simp only at hseq hactive hnext hdur hreq
  have hle : (apply db'.t).syncRequestedSeq ≤ (apply db'.t).durableSeq := by omega
  have hbelow : bound ≤ (apply db'.t).nextFileId := by
    rw [h₃, hnext]
    exact hbound
  rw [wp_storeState]
  refine ⟨fun _ => ?_, fun hf => absurd ⟨?_, ?_, ?_, ?_, hle⟩ hf⟩
  · exact ⟨db'.t, hsame, rfl, rfl, hle, hids db'.t hsame, hbelow, hbelow⟩
  · rw [h₁, hseq]
  · rw [h₂, hactive]
  · rw [h₃, hnext]
  · rw [h₄]
    exact hdur

lemma Quiet.vacuumRemoveFile (h : Quiet stats bound db) (id : FileId) :
    (vacuumRemoveFile id).wp (fun _ => Quiet (stats.erase id) bound) (fun _ _ => True) db := by
  simp only [Db.vacuumRemoveFile, wp_bind, wp_get]
  refine h.barrier fun db' h' => ?_
  have hu : Unchecked (fun t => t.dropFile id) := fun t => ⟨rfl, rfl, rfl, rfl, rfl⟩
  have hids : ∀ t : EngineState, t.fileStats = stats → ∀ j, ((t.dropFile id).fileStats.get j).isSome → j < bound := by
    intro t ht j hj
    rw [dropFile, get_erase, ht] at hj
    split_ifs at hj
    · cases hj
    · exact h'.ids j hj
  refine wp_mono (h'.vacuumCommit hu _ hids) (fun _ db'' hdb => ?_) (fun _ _ _ => trivial)
  obtain ⟨t, rfl, hquiet⟩ := hdb
  exact wp_ioWhole (fun fs => { hquiet with }) (fun _ _ _ _ => trivial)

lemma wp_stageCopy {needed : NeededTombstones} {opts : VacuumOptions} {snap : EngineState}
    {Q : VacuumScanResult → Db → Prop} (h : ∀ scan fs, vacuumScanAndCopy ⟨snap, id, needed, opts.retainAfter⟩ opts.cancelAfter
      ((db.disk.files.get (snap.pathOf id)).getD {}).data = .ok scan → Q scan { db with faults := fs }) :
    (stageCopy needed opts snap id).wp Q (fun _ _ => True) db := by
  simp only [stageCopy, wp_bind, wp_get]
  refine wp_ioWhole (fun fs => ?_) (fun _ _ _ _ => trivial)
  cases hscan : vacuumScanAndCopy ⟨snap, id, needed, opts.retainAfter⟩ opts.cancelAfter
      ((db.disk.files.get (snap.pathOf id)).getD {}).data with
  | error e => exact trivial
  | ok scan => exact wp_ioWhole (fun fs => h scan fs hscan) (fun _ _ _ _ => trivial)

lemma Quiet.reserveCopyId (h : Quiet stats bound db) : reserveCopyId.wp
    (fun dest db' => stats.get dest = none ∧ Quiet stats (dest + 1) db') (fun _ _ => True) db := by
  refine h.barrier fun db' h' => ?_
  have hrequested := h'.requested
  have hbound := h'.next
  simp only [wp_bind, wp_get, wp_modify, reserveFileId, wp_ite, wp_throw,
    wp_modifyT, wp_pure, wp_storeState]
  refine ⟨fun _ => trivial, fun _ => ⟨fun _ => ⟨?_, ?_⟩, fun hf => absurd ?_ hf⟩⟩
  · cases hget : stats.get db'.published.nextFileId with
    | none => rfl
    | some fs => exact absurd (h'.ids _ (by rw [hget]; rfl)) (not_lt.2 hbound)
  · exact ⟨h'.published, h'.published, hrequested, fun j hj => Nat.lt_succ_of_lt ((h'.ids j hj).trans_le hbound), le_rfl, le_rfl⟩
  · exact ⟨le_rfl, le_rfl, Nat.le_succ _, le_rfl, hrequested⟩

def Tried (stats : SortedMap FileId FileStats) (bound : FileId) (shrank : Bool) (db : Db) : Prop :=
  if shrank then ∃ stats' bound', Quiet stats' bound' db ∧ Shrunk stats stats' else Quiet stats bound db

lemma unchecked_applyVacuum (old : FileId) (scan : VacuumScanResult) (path : Path) (dest : FileId) :
    Unchecked (fun t => t.applyVacuum old scan path dest) := by
  intro t
  dsimp only
  rw [applyVacuum_rest]
  exact ⟨rfl, rfl, rfl, rfl, rfl⟩

def copyStats (t : EngineState) (scan : VacuumScanResult) : FileStats where
  liveBytes := scan.liveBytes - t.lostBytes scan.mappings
  totalBytes := scan.totalBytes
  minSequence := scan.minSequence
  maxSequence := scan.maxSequence
  tombstoneBytes := scan.tombstoneBytes
  markerBytes := scan.markerBytes
  changeMarkerBytes := scan.changeMarkerBytes

lemma applyVacuum_fileStats (t : EngineState) (old : FileId) (scan : VacuumScanResult) (path : Path) (dest : FileId) :
    (t.applyVacuum old scan path dest).fileStats = (t.fileStats.erase old).insert dest (copyStats t scan) := by
  simp only [applyVacuum, dropFile]
  rw [foldl_remap_rest]
  rfl

lemma applyVacuum_ids {t : EngineState} {old dest : FileId} (scan : VacuumScanResult) (path : Path)
    (h : ∀ id, (t.fileStats.get id).isSome → id < dest + 1) (id : FileId)
    (hid : ((t.applyVacuum old scan path dest).fileStats.get id).isSome) : id < dest + 1 := by
  rw [applyVacuum_fileStats, get_insert] at hid
  split_ifs at hid with hdest
  · exact hdest ▸ Nat.lt_succ_self _
  · rw [get_erase] at hid
    split_ifs at hid
    · cases hid
    · exact h id hid

lemma Quiet.replaceWithCopy (h : Quiet stats bound db) (opts : VacuumOptions) (snap : EngineState) {fs : FileStats}
    (hid : stats.get id = some fs) (hlt : scan.totalBytes < fs.totalBytes) :
    (replaceWithCopy opts snap id scan).wp (Tried stats bound) (fun _ _ => True) db := by
  have herror : ∀ (e : DbError) (db' : Db) (m : Op Unit),
      if e = .stopped then True else m.wp (fun _ _ => True) (fun _ _ => True) db' := by
    intro e db' m
    split_ifs
    exact wp_true m _
  simp only [Db.replaceWithCopy, wp_bind, wp_get]
  refine wp_ioWhole (fun fs₁ => ?_) (fun _ _ _ _ => trivial)
  simp only [wp_onError, wp_bind]
  refine wp_ioWhole (fun fs₂ => ?_) (fun e _ _ _ => herror _ _ _)
  simp only [wp_ite, wp_bind, wp_pure]
  refine ⟨fun _ => ?_, fun _ => ?_⟩
  · have hquiet : ∀ d fs, Tried stats bound false { db with disk := d, faults := fs } := fun _ _ => { h with }
    rw [attempt, wp_catching]
    refine wp_ioWhole (fun fs₃ => ?_) (fun e fs₃ d _ => ?_)
    · simpa using hquiet _ _
    · split_ifs
      simpa using hquiet _ _
  · have hcopied : Quiet stats bound { db with disk := db.disk.place scan.copied, faults := fs₂ } := { h with }
    refine wp_mono hcopied.reserveCopyId (fun dest db₁ hdb => ?_) (fun e _ _ => herror _ _ _)
    obtain ⟨hnone, h₁⟩ := hdb
    refine wp_ioWhole (fun fs₃ => ?_) (fun e _ _ _ => herror _ _ _)
    refine wp_ioWhole (fun fs₄ => ?_) (fun e _ _ _ => herror _ _ _)
    have h₂ : Quiet stats _ { db₁ with faults := fs₄ } := { h₁ with }
    have hbarrier : (Db.barrier (Db.vacuumCommit (fun t => t.applyVacuum id scan _ dest) (snap.nextSeq - 1))).wp
        (fun _ db' => ∃ t : EngineState, t.fileStats = stats ∧
          Quiet (t.applyVacuum id scan _ dest).fileStats _ db')
        (fun _ _ => True) { db₁ with faults := fs₄ } :=
      h₂.barrier fun db₂ h₃ => h₃.vacuumCommit (unchecked_applyVacuum id scan _ dest) _
        fun t ht => applyVacuum_ids scan db.disk.nextPath (ht.symm ▸ h₃.ids)
    refine wp_mono hbarrier (fun _ db₃ hdb => ?_) (fun e _ _ => herror _ _ _)
    obtain ⟨t, rfl, h₄⟩ := hdb
    refine ⟨fun _ => wp_ioWhole (fun fs₅ => ⟨_, _, { h₄ with }, ?_⟩) (fun _ _ _ _ => trivial), fun hf => absurd trivial hf⟩
    rw [applyVacuum_fileStats]
    exact shrunk_replace hid hnone hlt

lemma Quiet.vacuumCompactFile (h : Quiet stats bound db) (needed : NeededTombstones) (opts : VacuumOptions)
    (id : FileId) : (vacuumCompactFile needed opts id).wp (Tried stats bound) (fun _ _ => True) db := by
  simp only [Db.vacuumCompactFile, wp_bind, wp_get, wp_ite, wp_throw]
  refine ⟨fun _ => trivial, fun _ => wp_stageCopy fun scan fs _ => ?_⟩
  have hquiet : Quiet stats bound { db with faults := fs } := { h with }
  refine ⟨fun _ => hquiet, fun _ => ⟨fun _ => hquiet, fun hlt => ?_⟩⟩
  rw [h.published] at hlt
  cases hid : stats.get id with
  | none => simp [hid] at hlt
  | some st =>
    simp only [hid, Option.map_some, Option.getD_some, not_le] at hlt
    refine ⟨fun hz => ?_, fun _ => hquiet.replaceWithCopy opts _ hid hlt⟩
    refine wp_mono (hquiet.vacuumRemoveFile id) (fun _ db' h' => ?_) (fun _ _ _ => trivial)
    exact ⟨_, _, h', shrunk_erase hid (by omega)⟩

lemma wp_of_forall {E : DbError → Db → Prop} (m : Op α) (hQ : ∀ a db', Q a db') (hE : ∀ e db', E e db') :
    m.wp Q E db := wp_mono (wp_true m _) (fun a db' _ => hQ a db') (fun e db' _ => hE e db')

lemma wp_replaceWithCopy_true (retainAfter : ℕ) (cancelAfter : Option ℕ) (snap : EngineState) (id : FileId) (scan : VacuumScanResult) :
    (replaceWithCopy ⟨retainAfter, cancelAfter, false⟩ snap id scan).wp (fun r _ => r = true) (fun _ _ => True) db := by
  have herror : ∀ (e : DbError) (db' : Db) (m : Op Unit),
      if e = .stopped then True else m.wp (fun _ _ => True) (fun _ _ => True) db' := by
    intro e db' m
    split_ifs
    exact wp_true m _
  simp only [replaceWithCopy, wp_bind, wp_get, wp_onError, wp_ite, wp_pure, Bool.false_eq_true]
  refine wp_of_forall _ (fun _ _ => ?_) (fun _ _ => trivial)
  refine wp_of_forall _ (fun _ _ => ⟨fun hf => hf.elim, fun _ => ?_⟩) (fun _ _ => herror _ _ _)
  refine wp_of_forall _ (fun _ _ => ?_) (fun _ _ => herror _ _ _)
  refine wp_of_forall _ (fun _ _ => ?_) (fun _ _ => herror _ _ _)
  refine wp_of_forall _ (fun _ _ => ?_) (fun _ _ => herror _ _ _)
  refine wp_of_forall _ (fun _ _ => ?_) (fun _ _ => herror _ _ _)
  exact ⟨fun _ => wp_of_forall _ (fun _ _ => trivial) (fun _ _ => trivial), fun _ => trivial⟩

lemma emitEntry_cancelled (v : VacuumScan) (r : VacuumScanResult) (p : DataEntry × ℕ) :
    (v.emitEntry r p).cancelled = r.cancelled := by
  simp only [VacuumScan.emitEntry]
  split
  all_goals try split_ifs
  all_goals rfl

lemma vacuumScanAndCopy_cancelled {v : VacuumScan} {file : DataFile}
    (h : vacuumScanAndCopy v none file = .ok scan) : scan.cancelled = false := by
  have hall : ∀ (es : List (DataEntry × ℕ)) (r : VacuumScanResult), (es.foldl v.emitEntry r).cancelled = r.cancelled := by
    intro es
    induction es with
    | nil => exact fun _ => rfl
    | cons p es ih => exact fun r => (ih _).trans (emitEntry_cancelled v r p)
  simp only [vacuumScanAndCopy, Option.filter_none] at h
  split_ifs at h
  obtain rfl := Except.ok.inj h
  exact hall _ _

lemma wp_vacuumCompactFile_false (retainAfter : ℕ) (id : FileId) (db : Db) :
    (vacuumCompactFile needed ⟨retainAfter, none, false⟩ id).wp (fun r db' => r = true ∨ ((∃ fs, db' = { db with faults := fs }) ∧
        ∀ scan, vacuumScanAndCopy ⟨db.published, id, needed, retainAfter⟩ none
            ((db.disk.files.get (db.published.pathOf id)).getD {}).data = .ok scan →
          ((db.published.fileStats.get id).map FileStats.totalBytes).getD 0 ≤ scan.totalBytes))
      (fun _ _ => True) db := by
  simp only [vacuumCompactFile, wp_bind, wp_get, wp_ite, wp_throw, wp_pure]
  refine ⟨fun _ => trivial, fun _ => wp_stageCopy fun scan fs hscan => ?_⟩
  refine ⟨fun hc => ?_, fun _ => ⟨fun hle => ?_, fun _ => ⟨fun _ => ?_, fun _ => ?_⟩⟩⟩
  · rw [vacuumScanAndCopy_cancelled hscan] at hc
    cases hc
  · refine .inr ⟨⟨fs, rfl⟩, fun scan' hscan' => ?_⟩
    obtain rfl : scan = scan' := Except.ok.inj (hscan.symm.trans hscan')
    exact hle
  · exact wp_of_forall _ (fun _ _ => .inl trivial) (fun _ _ => trivial)
  · exact wp_mono (wp_replaceWithCopy_true _ _ _ _ _) (fun _ _ hr => .inl hr) (fun _ _ _ => trivial)

lemma Quiet.vacuumEach (h : Quiet stats bound db) (needed : NeededTombstones) (req : VacuumRequest) {ids : List FileId}
    (hids : ∀ id ∈ ids, ∃ fs, stats.get id = some fs ∧ fs.totalBytes ≠ 0) :
    (vacuumEach needed req stats ids).wp (Tried stats bound) (fun _ _ => True) db := by
  induction ids generalizing db with
  | nil => exact h
  | cons id ids ih =>
    obtain ⟨fs, hfs, hpos⟩ := hids id List.mem_cons_self
    simp only [vacuumEach, wp_ite, wp_bind, wp_pure]
    refine ⟨fun _ => h, fun _ => ⟨fun _ => ?_, fun _ => ?_⟩⟩
    · refine wp_mono (h.vacuumRemoveFile id) (fun _ db' h' => ?_) (fun _ _ _ => trivial)
      exact ⟨_, _, h', shrunk_erase hfs hpos⟩
    · refine wp_mono (h.vacuumCompactFile needed _ id) (fun r db' h' => ⟨fun hr => ?_, fun hr => ?_⟩)
        (fun _ _ _ => trivial)
      · rw [hr] at h'
        exact h'
      · rw [Bool.eq_false_iff.2 hr] at h'
        exact ih h' fun j hj => hids j (List.mem_cons_of_mem id hj)

lemma wp_vacuumEach_false {req : VacuumRequest} (hlooks : ∀ id, req.looks id = {})
    (stats : SortedMap FileId FileStats) (ids : List FileId) (db : Db) :
    (vacuumEach needed req stats ids).wp
      (fun r _ => r = true ∨ ∀ id ∈ ids, ∀ scan, vacuumScanAndCopy ⟨db.published, id, needed, req.retainAfter⟩ none
          ((db.disk.files.get (db.published.pathOf id)).getD {}).data = .ok scan →
        ((db.published.fileStats.get id).map FileStats.totalBytes).getD 0 ≤ scan.totalBytes)
      (fun _ _ => True) db := by
  induction ids generalizing db with
  | nil => exact .inr (by simp)
  | cons id ids ih =>
    have hopts : req.options id = ⟨req.retainAfter, none, false⟩ := by rw [VacuumRequest.options, hlooks]
    simp only [vacuumEach, wp_ite, wp_bind, wp_pure, hlooks, Bool.false_eq_true, hopts]
    refine ⟨fun hf => hf.elim, fun _ => ⟨fun _ => ?_, fun _ => ?_⟩⟩
    · exact wp_of_forall _ (fun _ _ => .inl trivial) (fun _ _ => trivial)
    · refine wp_mono (wp_vacuumCompactFile_false needed _ id db) (fun r db' h' => ⟨fun hr => .inl trivial, fun hr => ?_⟩)
        (fun _ _ _ => trivial)
      rcases h' with hr' | ⟨⟨fs, rfl⟩, hid⟩
      · exact absurd hr' hr
      · refine wp_mono (ih { db with faults := fs }) (fun r' _ h' => h'.imp_right fun hids => ?_) (fun _ _ _ => trivial)
        exact List.forall_mem_cons.2 ⟨hid, hids⟩

end Db

lemma Stored.scan_retained {d : Disk} (h : Stored d s) (hid : s.Sealed id) {fs : FileStats}
    (hfs : s.fileStats.get id = some fs) (hmin : retainAfter < fs.minSequence) {scan : VacuumScanResult}
    (hscan : vacuumScanAndCopy ⟨s, id, needed, retainAfter⟩ none ((d.files.get (s.pathOf id)).getD {}).data = .ok scan) :
    fs.totalBytes = scan.totalBytes := by
  obtain ⟨scan', hscan', hr⟩ := h.scan hid needed _
  obtain rfl : scan' = scan := Except.ok.inj (hscan'.symm.trans hscan)
  have heq := h.mirror.indexed.stats id fs hfs
  rw [fileStatsOf, countsOf, foldl_count] at heq
  have habove : ∀ e ∈ d.contents s id, retainAfter < e.sequence := by
    have hwritten := h.mirror.log.written id
    have hfirst : fs.minSequence = ((d.contents s id).head?.map DataEntry.sequence).getD 0 := by rw [heq]; rfl
    rw [hfirst] at hmin
    cases hc : d.contents s id with
    | nil => simp
    | cons x xs =>
      rw [hc] at hmin hwritten
      intro e he
      rcases List.mem_cons.1 he with rfl | he
      · exact hmin
      · exact lt_trans hmin ((List.pairwise_cons.1 hwritten.ascending).1 e he)
  have hkeeps : ∀ q ∈ located 0 (d.contents s id), VacuumScan.keeps ⟨s, id, needed, retainAfter⟩ q = true := by
    intro q hq
    have hlt := habove q.1 (mem_of_located (o := q.2) hq)
    cases htype : q.1.entryType <;> simp [VacuumScan.keeps, htype, hlt]
  have hcopied : scan'.copied = d.contents s id := by
    rw [hr.copied.copied, VacuumScan.copies, List.filter_eq_self.2 hkeeps, located_map_fst]
  rw [hr.copied.total, hcopied, heq]
  simp

lemma Db.Quiet.vacuum (h : Quiet stats bound db)
    (quotient : ℕ → ℕ → ℚ) (needed : NeededTombstones) (req : VacuumRequest) :
    (Db.vacuum quotient needed req).wp (Tried stats bound) (fun _ _ => True) db := by
  simp only [Db.vacuum, wp_bind, wp_get, wp_ite, wp_throw]
  refine ⟨fun _ => trivial, fun _ => ?_⟩
  rw [h.published]
  refine h.vacuumEach needed req fun id hid => ?_
  obtain ⟨fs, hfs, -, hpos, -⟩ := mem_candidatesBy.1 hid
  exact ⟨fs, h.published ▸ hfs, hpos⟩

lemma Db.Quiet.vacuum_true {db' : Db} (h : Quiet stats bound db) (hrun : Db.vacuum quotient needed req db = .ok true db') :
    ∃ stats' bound', Quiet stats' bound' db' ∧ Shrunk stats stats' := by
  have hwp := h.vacuum quotient needed req
  rw [EStateM.wp, hrun] at hwp
  exact hwp

lemma Db.wp_vacuum_false (quotient : ℕ → ℕ → ℚ) (needed : NeededTombstones)
    (hlooks : ∀ id, req.looks id = {}) (db : Db) : (Db.vacuum quotient needed req).wp
      (fun r _ => r = true ∨ ∀ id ∈ db.published.candidatesBy quotient req.threshold req.retainAfter, ∀ scan,
        vacuumScanAndCopy ⟨db.published, id, needed, req.retainAfter⟩ none
            ((db.disk.files.get (db.published.pathOf id)).getD {}).data = .ok scan →
          ((db.published.fileStats.get id).map FileStats.totalBytes).getD 0 ≤ scan.totalBytes)
      (fun _ _ => True) db := by
  simp only [Db.vacuum, wp_bind, wp_get, wp_ite, wp_throw]
  exact ⟨fun _ => trivial, fun _ => wp_vacuumEach_false needed hlooks _ _ db⟩

/-- Calls that nothing is written beside: one that returns true leaves fewer bytes, at most as many return true as there
are bytes, and one that returns false with the cancel flag clear leaves no file it could have made smaller. The share of
a file that is compared with the threshold is whatever the division gives. -/
theorem vacuum_shrinks (quotient : ℕ → ℕ → ℚ) (needed : NeededTombstones) {d : Disk} {db : Db} (h : Live d db)
    (hseq : db.head.nextSeq ≤ db.published.nextSeq) :
    (∀ req db', Db.vacuum quotient needed req db = .ok true db' →
      Shrunk db.published.fileStats db'.published.fileStats) ∧
    (∀ (req : ℕ → VacuumRequest) (dbs : ℕ → Db), dbs 0 = db → ∃ n ≤ totalBytesOf db.published.fileStats,
      Db.vacuum quotient needed (req n) (dbs n) ≠ .ok true (dbs (n + 1))) ∧
    (∀ (req : VacuumRequest) (db' : Db), (∀ id, req.looks id = {}) → Db.vacuum quotient needed req db = .ok false db' →
      ∀ id fs, db.published.fileStats.get id = some fs → id ≠ db.published.activeFileId →
        0 < quotient fs.reclaimableBytes fs.totalBytes → req.threshold < quotient fs.reclaimableBytes fs.totalBytes →
        ∀ scan, vacuumScanAndCopy ⟨db.published, id, needed, req.retainAfter⟩ none
            ((db.disk.files.get (db.published.pathOf id)).getD {}).data = .ok scan →
          fs.totalBytes ≤ scan.totalBytes) := by
  have hquiet := h.quiet hseq
  refine ⟨fun req db' hrun => ?_, fun req dbs hstart => ?_, fun req db' hlooks hrun id fs hfs hactive hpos hthr scan hscan => ?_⟩
  · obtain ⟨stats', bound', hq, hs⟩ := hquiet.vacuum_true hrun
    rw [hq.published]
    exact hs
  · by_contra hall
    simp only [not_exists, not_and, not_not] at hall
    have hrun : ∀ n ≤ totalBytesOf db.published.fileStats + 1, ∃ stats bound, Quiet stats bound (dbs n) ∧
        totalBytesOf stats + n ≤ totalBytesOf db.published.fileStats := by
      intro n
      induction n with
      | zero => exact fun _ => ⟨_, _, by rw [hstart]; exact hquiet, le_rfl⟩
      | succ n ih =>
        intro hn
        obtain ⟨stats, bound, hq, hle⟩ := ih (by omega)
        obtain ⟨stats', bound', hq', hs⟩ := hq.vacuum_true (hall n (by omega))
        have hlt := hs.total
        exact ⟨stats', bound', hq', by omega⟩
    obtain ⟨stats, bound, -, hle⟩ := hrun _ le_rfl
    omega
  · have hstored := (h.healthy hseq).1.stored
    by_cases hcand : id ∈ db.published.candidatesBy quotient req.threshold req.retainAfter
    · have hwp := wp_vacuum_false quotient needed hlooks db
      rw [EStateM.wp, hrun] at hwp
      rcases hwp with hf | hids
      · cases hf
      · have hle := hids id hcand scan hscan
        rw [hfs] at hle
        exact hle
    · rw [mem_candidatesBy] at hcand
      by_cases hzero : fs.totalBytes = 0
      · omega
      · have hmin : req.retainAfter < fs.minSequence := by
          by_contra hle
          exact hcand ⟨fs, hfs, hactive, hzero, not_lt.1 hle, hpos, hthr⟩
        have hsealed : db.published.Sealed id := ⟨by rw [hstored.known, hfs]; rfl, hactive⟩
        exact (hstored.scan_retained hsealed hfs hmin hscan).le

def sampleVacuum : EStateM.Result DbError Db Bool :=
  Db.vacuum (fun a b => a / b) {} { threshold := 0, retainAfter := 100 } (sampleRun 6)

theorem sampleVacuum_shrunk : ∃ db', sampleVacuum = .ok true db' ∧
    Shrunk (sampleRun 6).published.fileStats db'.published.fileStats := by
  obtain ⟨past, hrun⟩ := sampleRun_run
  obtain ⟨mode, d, hlive, -, -⟩ := hrun.live
  have hret : (match sampleVacuum with | .ok r _ => r | .error _ _ => false) = true := by decide +kernel
  obtain ⟨hshrunk, -, -⟩ := vacuum_shrinks (fun a b => a / b) {} hlive (by decide +kernel)
  cases hcall : sampleVacuum with
  | error e db' =>
    rw [hcall] at hret
    cases hret
  | ok r db' =>
    rw [hcall] at hret
    obtain rfl : r = true := hret
    exact ⟨db', rfl, hshrunk _ db' hcall⟩

end Bytecask
