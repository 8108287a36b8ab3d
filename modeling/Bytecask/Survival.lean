import Bytecask.HintFormat
import Bytecask.Reservation

/-! What a follower accepts of another node's changes is still there after a reopen, or a counter is short of its file. -/

namespace Bytecask

open EStateM List Db Disk EngineState FileStats Recovery SortedMap

structure Config.Admitted (cfg : Config) : Prop where
  key : cfg.maxKeyBytes ≤ 65535
  value : cfg.maxValueBytes ≤ 2 ^ 28 - 1

section Limits

variable {cfg : Config} {es : List DataEntry}

lemma checkEntry_limits {c c' : SliceCheck} {e : DataEntry} (h : checkEntry cfg c e = .ok c') :
    e.key.length ≤ cfg.maxKeyBytes ∧ (e.entryType = .put → e.value.length ≤ cfg.maxValueBytes) ∧
      e.sequence ≤ maxSequence ∧ (e.entryType = .changeMarker → e.Shaped) := by
  unfold checkEntry at h
  dsimp only at h
  split_ifs at h with _ hmarker hkey hvalue hseq
  refine ⟨not_lt.1 hkey, fun hp => not_lt.1 fun hlt => hvalue ⟨hp, hlt⟩, not_lt.1 hseq, fun hm => ?_⟩
  rw [DataEntry.Shaped, hm]
  exact ⟨not_not.1 fun hk => hmarker ⟨hm, .inr (.inl hk)⟩, not_not.1 fun hv => hmarker ⟨hm, .inr (.inr hv)⟩⟩

lemma checkSlice_limits {fromSequence : ℕ} (h : checkSlice cfg fromSequence es = .ok ()) :
    ∀ e ∈ es, e.key.length ≤ cfg.maxKeyBytes ∧ (e.entryType = .put → e.value.length ≤ cfg.maxValueBytes) ∧
      e.sequence ≤ maxSequence ∧ (e.entryType = .changeMarker → e.Shaped) := by
  obtain ⟨c, hc, -⟩ := Except.of_bind_ok h
  exact List.forall_of_foldlM_ok (fun _ _ _ he => checkEntry_limits he) hc

end Limits

structure DataEntry.Plain (e : DataEntry) : Prop where
  shaped : e.Shaped
  endKey : e.entryType = .rangeDel → e.value.length ≤ 65535

section Plain

variable {cfg : Config} {e : DataEntry}

lemma sequence_fits {n : ℕ} (h : n ≤ maxSequence) : n < 256 ^ 8 := h.trans_lt (by decide)

lemma DataEntry.Plain.hintFits (hcfg : cfg.Admitted) (h : e.Plain) (hk : e.key.length ≤ cfg.maxKeyBytes)
    (hv : e.entryType = .put → e.value.length ≤ cfg.maxValueBytes) (hs : e.sequence ≤ maxSequence) : e.HintFits := by
  have hkey : e.key.length < 256 ^ 2 := Nat.lt_succ_of_le (hk.trans hcfg.key)
  have hshape := h.shaped
  have hend := h.endKey
  obtain ⟨sequence, type, key, value⟩ := e
  have hvalue : value.length < 256 ^ 4 := by
    cases type with
    | put => exact (hv rfl).trans_lt (hcfg.value.trans_lt (by decide))
    | delete =>
      have hnil : value = [] := hshape
      simp [hnil]
    | bulkBegin | bulkEnd =>
      have hnil : value = [] := hshape.2
      simp [hnil]
    | rangeDel => exact (hend rfl).trans_lt (by decide)
    | changeMarker =>
      have hlen : value.length = changeMarkerIdBytes := hshape.2
      rw [hlen]
      decide
  exact ⟨sequence_fits hs, hkey, hvalue, fun ht => Nat.lt_succ_of_le (hend ht)⟩

end Plain

lemma Stored.totalBytes {d : Disk} {s : EngineState} (h : Stored d s) {id : FileId} {p : Path} (hp : s.files.get id = some p) :
    ∃ st, s.fileStats.get id = some st ∧ st.totalBytes = d.size p := by
  obtain ⟨f, hf, hc, -⟩ := h.contents_eq hp
  obtain ⟨st, hst⟩ := Option.isSome_iff_exists.1 ((h.known id).symm.trans (by rw [hp]; rfl))
  refine ⟨st, hst, ?_⟩
  rw [h.mirror.indexed.stats id st hst, Disk.size, hf, hc, fileStatsOf, countsOf, foldl_count]
  simp

/-- The bytes that `apply_ingest` counts for an entry. -/
def DataEntry.counted (e : DataEntry) : ℕ :=
  match e.entryType with
  | .put | .rangeDel => e.size
  | .delete => entrySize e.key.length 0
  | .bulkBegin | .bulkEnd => markerSize e.entryType
  | .changeMarker => changeMarkerSize e.entryType

def EngineState.totalOf (s : EngineState) (id : FileId) : ℕ := ((s.fileStats.get id).map totalBytes).getD 0

def strays (es : List DataEntry) : ℕ := es.countP fun e => ¬ e.Shaped

section Counted

variable {s : EngineState} {e : DataEntry} {id : FileId}

lemma DataEntry.counted_le (hm : e.entryType = .changeMarker → e.Shaped) :
    e.counted + (if e.Shaped then 0 else 1) ≤ e.size := by
  obtain ⟨sequence, type, key, value⟩ := e
  cases type with
  | put | rangeDel => simp [counted, Shaped]
  | delete =>
    cases value with
    | nil => simp [counted, Shaped, size]
    | cons b bs => simp [counted, Shaped, size, entrySize]
  | bulkBegin | bulkEnd =>
    cases key with
    | nil => cases value <;> simp [counted, Shaped, size, markerSize, entrySize]
    | cons b bs => simp [counted, Shaped, size, markerSize, entrySize]; omega
  | changeMarker =>
    have hs := hm rfl
    have hkey : key = [] := hs.1
    have hvalue : value.length = changeMarkerIdBytes := hs.2
    rw [if_pos hs, counted, size, changeMarkerSize, hkey, hvalue]
    rfl

lemma EngineState.totalOf_patch (s : EngineState) (a : FileId) (d : FileStatsDelta) :
    (s.patch a d).totalOf id ≤ s.totalOf id + if id = a then d.totalAdded else 0 := by
  rw [totalOf, totalOf, get_patch]
  cases s.fileStats.get id with
  | none => exact Nat.zero_le _
  | some st => split_ifs <;> simp [FileStats.apply, *]

lemma EngineState.totalOf_release (s : EngineState) (k : Bytes) (o : Option KeyDirEntry) : (s.release k o).totalOf id ≤ s.totalOf id := by
  cases o with
  | none => exact le_rfl
  | some d => exact (s.totalOf_patch _ _).trans_eq (by simp)

lemma EngineState.totalOf_eraseRange (s : EngineState) (lo hi : Bytes) (lost : KeyDirEntry → Bool) :
    (s.eraseRange lo hi lost).totalOf id ≤ s.totalOf id := by
  show (foldl (fun t e => t.release e.1 (some e.2)) s (s.lostKeys lo hi lost)).totalOf id ≤ _
  generalize s.lostKeys lo hi lost = gone
  induction gone generalizing s with
  | nil => exact le_rfl
  | cons g gone ih => exact (ih _).trans (s.totalOf_release _ _)

lemma EngineState.totalOf_applyIngestEntry (s : EngineState) (e : DataEntry) (offset : ℕ) (id : FileId) :
    (s.applyIngestEntry e offset).totalOf id ≤ s.totalOf id + if id = s.activeFileId then e.counted else 0 := by
  obtain ⟨sequence, type, key, value⟩ := e
  have hpatch : ∀ (t : EngineState) (d : FileStatsDelta), t.totalOf id ≤ s.totalOf id →
      (t.patch s.activeFileId d).totalOf id ≤ s.totalOf id + if id = s.activeFileId then d.totalAdded else 0 :=
    fun t d ht => (t.totalOf_patch _ _).trans (Nat.add_le_add_right ht _)
  cases type with
  | bulkBegin | bulkEnd | changeMarker => exact hpatch s _ le_rfl
  | put => exact hpatch _ _ ((totalOf_release _ _ _).trans_eq rfl)
  | delete => exact hpatch _ _ ((totalOf_release _ _ _).trans_eq rfl)
  | rangeDel => exact hpatch _ _ (s.totalOf_eraseRange _ _ _)

lemma EngineState.totalOf_applyEntries (id : FileId) (s : EngineState) (ps : List (DataEntry × ℕ))
    (hm : ∀ p ∈ ps, p.1.entryType = .changeMarker → p.1.Shaped) :
    (s.applyEntries ps).totalOf id + (if id = s.activeFileId then strays (ps.map Prod.fst) else 0) ≤
      s.totalOf id + if id = s.activeFileId then bytesOf (ps.map Prod.fst) else 0 := by
  induction ps generalizing s with
  | nil => simp [applyEntries, strays]
  | cons p ps ih =>
    have hrest := ih (s.applyIngestEntry p.1 p.2) fun q hq => hm q (mem_cons_of_mem p hq)
    have hone := s.totalOf_applyIngestEntry p.1 p.2 id
    have hsize := DataEntry.counted_le (hm p mem_cons_self)
    rw [applyIngestEntry_activeFileId] at hrest
    rw [applyEntries_cons, map_cons, bytesOf_cons, strays, countP_cons, ← strays]
    by_cases hid : id = s.activeFileId <;> by_cases hs : p.1.Shaped <;> simp [hid, hs] at hrest hone hsize ⊢ <;> omega

end Counted

namespace Db

section Lags

variable {current t : EngineState} {bad : Prop} {d : Disk} {db : Db} {es : List DataEntry} {Q : Unit → Db → Prop}

/-- Where an ingestion of `current` stands. No file's counter is ahead of its bytes, and one is behind if a `bad` entry went in. -/
structure Lags (current : EngineState) (bad : Prop) (d : Disk) (t : EngineState) : Prop where
  follows : Follows current t
  file : (d.files.get t.activePath).isSome
  active : t.files.get t.activeFileId = some t.activePath
  below : ∀ id p, t.files.get id = some p → id < t.nextFileId ∧ p < d.nextPath
  counted : t.totalOf t.activeFileId ≤ d.size t.activePath
  short : bad → ∃ id p, t.files.get id = some p ∧ t.totalOf id < d.size p

lemma Healthy.lags (h : Healthy db) : Lags db.published False db.disk db.published where
  follows := ⟨le_rfl, le_rfl, le_rfl, le_rfl, h.requested⟩
  file := h.stored.present _ _ h.stored.active
  active := h.stored.active
  below id p hp := ⟨h.stored.ids id (by rw [hp]; rfl), h.stored.named p (h.stored.present id p hp)⟩
  counted := by
    obtain ⟨st, hst, htotal⟩ := h.stored.totalBytes h.stored.active
    rw [totalOf, hst]
    exact htotal.le
  short := False.elim

lemma size_adjust {g : DiskFile → DiskFile} (hg : ∀ f, (g f).entries = f.entries) (p q : Path) : (d.adjust p g).size q = d.size q := by
  rw [Disk.size, get_adjust, Disk.size]
  split_ifs with hq
  · rw [hq, Option.map_map]
    exact congrArg (fun f => (Option.map f _).getD 0) (funext fun f => congrArg _ (hg f))
  · rfl

lemma Lags.adjust (h : Lags current bad d t) {g : DiskFile → DiskFile} (hg : ∀ f, (g f).entries = f.entries) (p : Path) :
    Lags current bad (d.adjust p g) t where
  follows := h.follows
  file := by
    rw [get_adjust]
    split_ifs with hq
    · rw [Option.isSome_map, ← hq]
      exact h.file
    · exact h.file
  active := h.active
  below := h.below
  counted := (size_adjust hg p _).symm ▸ h.counted
  short hb := by
    obtain ⟨id, q, hq, hlt⟩ := h.short hb
    exact ⟨id, q, hq, (size_adjust hg p q).symm ▸ hlt⟩

lemma Lags.rotate (h : Lags current bad d t) : Lags current bad d.create (rotated d t) := by
  have hfiles : (rotated d t).files = t.files.insert t.nextFileId d.nextPath := by
    rw [← insert_of_get h.active]
    rfl
  have hpath := rotated_activePath d t
  have hsize : ∀ {p}, p ≠ d.nextPath → d.create.size p = d.size p := fun hp => by
    rw [Disk.size, Disk.create, get_insert_ne _ _ hp, Disk.size]
  obtain ⟨hseq, hactive, hnext, hdur, hreq⟩ := h.follows
  refine ⟨⟨hseq, ?_, hnext.trans (Nat.le_succ _), hdur, hreq⟩, ?_, ?_, fun id p hp => ?_, ?_, fun hb => ?_⟩
  · exact hactive.trans (h.below _ _ h.active).1.le
  · rw [hpath, Disk.create, get_insert_self]
    rfl
  · rw [hpath, hfiles]
    exact get_insert_self _ _ _
  · rw [hfiles, get_insert] at hp
    split_ifs at hp with hid
    · cases hp
      exact ⟨hid ▸ Nat.lt_succ_self _, Nat.lt_succ_self _⟩
    · exact ⟨(h.below id p hp).1.trans (Nat.lt_succ_self _), (h.below id p hp).2.trans (Nat.lt_succ_self _)⟩
  · have hzero : (rotated d t).totalOf t.nextFileId = 0 := by
      have hget : (rotated d t).fileStats.get t.nextFileId = some {} := get_insert_self _ _ _
      rw [totalOf, hget]
      rfl
    exact hzero.trans_le (Nat.zero_le _)
  · obtain ⟨id, p, hp, hlt⟩ := h.short hb
    obtain ⟨hid, hname⟩ := h.below id p hp
    have htotal : (rotated d t).totalOf id = t.totalOf id := by
      have hget : (rotated d t).fileStats.get id = t.fileStats.get id := get_insert_ne _ _ hid.ne
      rw [totalOf, hget, totalOf]
    exact ⟨id, p, by rw [hfiles, get_insert_ne _ _ hid.ne, hp], by rwa [htotal, hsize hname.ne]⟩

lemma totalOf_applyIngest (size : ℕ) (hm : ∀ e ∈ es, e.entryType = .changeMarker → e.Shaped) (id : FileId) :
    (t.applyIngest es (offsetsFrom size es)).totalOf id + (if id = t.activeFileId then strays es else 0) ≤
      t.totalOf id + if id = t.activeFileId then bytesOf es else 0 := by
  cases es with
  | nil => simp [applyIngest, strays]
  | cons e es =>
    have hentries := t.totalOf_applyEntries id _ fun p hp =>
      hm p.1 (by rw [← located_map_fst size (e :: es)]; exact mem_map_of_mem hp)
    rw [located_map_fst] at hentries
    rw [applyIngest_eq]
    refine (Nat.add_le_add_right ((totalOf_patch _ _ _).trans_eq ?_) _).trans hentries
    rw [ite_self, Nat.add_zero]
    rfl

lemma applyIngest_follows (h : Follows current t) (size : ℕ) (es : List DataEntry) :
    Follows current (t.applyIngest es (offsetsFrom size es)) := by
  cases es with
  | nil => exact h
  | cons e es =>
    have hrest := t.applyEntries_rest (located size (e :: es))
    have hactive := congrArg activeFileId hrest
    have hnext := congrArg nextFileId hrest
    have hdur := congrArg durableSeq hrest
    have hreq := congrArg syncRequestedSeq hrest
    obtain ⟨h₁, h₂, h₃, h₄, h₅⟩ := h
    rw [applyIngest_eq]
    refine ⟨?_, h₂.trans_eq hactive.symm, h₃.trans_eq hnext.symm, h₄.trans_eq hdur.symm, ?_⟩
    · show current.nextSeq ≤ if t.nextSeq ≤ lastSeq (e :: es) then lastSeq (e :: es) + 1 else t.nextSeq
      split_ifs <;> omega
    · exact (hreq.trans_le h₅).trans_eq hdur.symm

lemma Lags.append (h : Lags current bad d t) (hm : ∀ e ∈ es, e.entryType = .changeMarker → e.Shaped) :
    Lags current (bad ∨ 0 < strays es) (d.append t.activePath es)
      (t.applyIngest es (offsetsFrom (d.size t.activePath) es)) := by
  have htotal := totalOf_applyIngest (t := t) (d.size t.activePath) hm
  obtain ⟨hfiles, hactive, hnext⟩ := applyIngest_place t _ es
  have hpath := applyIngest_activePath t (d.size t.activePath) es
  have hsize := size_append h.file es
  have hother : ∀ p, d.size p ≤ (d.append t.activePath es).size p := fun p => by
    by_cases hp : p = t.activePath
    · rw [hp, hsize]
      exact Nat.le_add_right _ _
    · rw [Disk.size, Disk.size, Disk.append, get_adjust, if_neg hp]
  have hmine := htotal t.activeFileId
  have hcounted := h.counted
  simp only [if_true] at hmine
  refine ⟨applyIngest_follows h.follows _ es, ?_, ?_, fun id p hp => ?_, ?_, ?_⟩
  · rw [hpath, Disk.append, get_adjust, if_pos rfl, Option.isSome_map]
    exact h.file
  · rw [hfiles, hactive, hpath]
    exact h.active
  · rw [hfiles] at hp
    rw [hnext]
    exact h.below id p hp
  · rw [hactive, hpath, hsize]
    omega
  · rw [hfiles]
    rintro (hb | hb)
    · obtain ⟨id, p, hp, hlt⟩ := h.short hb
      refine ⟨id, p, hp, ?_⟩
      have hone := htotal id
      by_cases hid : id = t.activeFileId
      · obtain rfl : p = t.activePath := Option.some.inj (hp.symm.trans (hid ▸ h.active))
        rw [hsize, hid]
        rw [hid] at hlt
        omega
      · simp only [hid, if_false, Nat.add_zero] at hone
        exact hone.trans_lt (hlt.trans_le (hother p))
    · refine ⟨t.activeFileId, t.activePath, h.active, ?_⟩
      omega

lemma wp_onError_returns {α : Type} {m : Op α} {handler : Op Unit} {Q : α → Db → Prop} (h : m.wp Q (fun _ _ => True) db) :
    (onError m handler).wp Q (fun _ _ => True) db := by
  rw [wp_onError]
  refine wp_mono h (fun _ _ hq => hq) fun e db' _ => ?_
  by_cases he : e = .stopped
  · rw [if_pos he]
    trivial
  · rw [if_neg he]
    exact wp_true _ db'

lemma Lags.wp_syncIngested (h : Lags current bad db.disk db.t)
    (hok : ∀ db', Lags current bad db'.disk db'.t → Q () db') : (syncIngested current).wp Q (fun _ _ => True) db := by
  refine wp_onError_returns ?_
  simp only [wp_bind, wp_get]
  refine wp_sync (fun fs => hok _ ?_) fun _ _ => trivial
  have hsynced := h.adjust (g := fun f => { f with durable := f.entries.length }) (fun _ => rfl) db.t.activePath
  obtain ⟨h₁, h₂, h₃, h₄, h₅⟩ := h.follows
  exact { hsynced with follows := ⟨h₁, h₂, h₃, h₄.trans (le_max_left _ _), h₅.trans (le_max_left _ _)⟩ }

lemma Lags.wp_ingestRotate (h : Lags current bad db.disk db.t)
    (hok : ∀ db', Lags current bad db'.disk db'.t → Q () db') : (ingestRotate current).wp Q (fun _ _ => True) db := by
  simp only [ingestRotate, wp_bind]
  refine h.wp_syncIngested fun db₁ h₁ => ?_
  simp only [rotation, wp_bind, finishRotation, wp_modifyT]
  refine wp_onError_returns ?_
  simp only [prepareRotation, shrinkToFit, openDataFileForRead, reserveFileId, createActiveFile, wp_bind, wp_get]
  refine wp_io (fun fs => wp_io (fun fs => ?_) fun _ _ => trivial) fun _ _ => trivial
  simp only [id_eq, wp_ite, wp_throw, wp_bind, wp_modifyT, wp_pure]
  refine ⟨fun _ => trivial, fun _ => wp_io (fun fs => hok _ ?_) fun _ _ => trivial⟩
  exact (h₁.adjust (g := fun f => { f with beyond := [], tail := .zeros, durable := f.entries.length }) (fun _ => rfl) _).rotate

lemma Lags.wp_ingestLoop (cfg : Config) (n : ℕ) (h : Lags current bad db.disk db.t) (hn : es.length ≤ n)
    (hm : ∀ e ∈ es, e.entryType = .changeMarker → e.Shaped) : (ingestLoop cfg current n es).wp
      (fun _ db' => Lags current (bad ∨ 0 < strays es) db'.disk db'.t) (fun _ _ => True) db := by
  induction n generalizing db es bad with
  | zero =>
    rw [length_eq_zero_iff.1 (Nat.le_zero.1 hn)]
    exact { h with short := fun hb => h.short (hb.resolve_right (lt_irrefl 0)) }
  | succ n ih =>
    by_cases hnil : es = []
    · rw [hnil, ingestLoop, if_pos rfl]
      exact { h with short := fun hb => h.short (hb.resolve_right (lt_irrefl 0)) }
    obtain ⟨hpos, -⟩ := ingestChunk_spec cfg hnil _
    generalize hstop : (ingestChunk cfg es (db.disk.size db.t.activePath)).stop = stop at hpos
    have htake : es.take stop ≠ [] := by
      rw [Ne, take_eq_nil_iff, not_or]
      exact ⟨hpos.ne', hnil⟩
    have hsplit : (bad ∨ 0 < strays es) ↔ (bad ∨ 0 < strays (es.take stop)) ∨ 0 < strays (es.drop stop) := by
      conv_lhs => rw [← take_append_drop stop es, strays, countP_append]
      rw [or_assoc, ← Nat.add_pos_iff_pos_or_pos]
      rfl
    have hnext : ∀ db', Lags current (bad ∨ 0 < strays (es.take stop)) db'.disk db'.t →
        (ingestLoop cfg current n (es.drop stop)).wp
          (fun _ db' => Lags current (bad ∨ 0 < strays es) db'.disk db'.t) (fun _ _ => True) db' := by
      intro db' h'
      rw [hsplit]
      refine ih h' ?_ fun e he => hm e (mem_of_mem_drop he)
      rw [length_drop]
      omega
    simp only [ingestLoop, if_neg hnil, wp_bind, wp_get, wp_modifyT, hstop]
    refine wp_onError_returns (wp_appendEntries htake (fun fs => ?_) fun _ _ => trivial)
    have hdone := h.append fun e he => hm e (mem_of_mem_take (i := stop) he)
    split_ifs
    · rw [wp_bind]
      exact Lags.wp_ingestRotate hdone hnext
    · exact hnext _ hdone

lemma Lags.wp_ingestEntries (cfg : Config) (h : Lags current False db.disk db.t)
    (hm : ∀ e ∈ es, e.entryType = .changeMarker → e.Shaped) : (ingestEntries cfg current es).wp
      (fun _ db' => 0 < strays es →
        ∃ id p, db'.published.files.get id = some p ∧ db'.published.totalOf id < db'.disk.size p) (fun _ _ => True) db := by
  have hend : ∀ db', Lags current (False ∨ 0 < strays es) db'.disk db'.t →
      (do syncIngested current; storeState current (← get).t : Op Unit).wp (fun _ db' => 0 < strays es →
        ∃ id p, db'.published.files.get id = some p ∧ db'.published.totalOf id < db'.disk.size p) (fun _ _ => True) db' := by
    intro db' h'
    simp only [wp_bind]
    refine h'.wp_syncIngested fun db'' h'' => ?_
    rw [wp_get, wp_storeState]
    exact ⟨fun _ hb => h''.short (.inr hb), fun hn => absurd h''.follows hn⟩
  simp only [ingestEntries, wp_bind]
  refine wp_mono (h.wp_ingestLoop cfg _ le_rfl hm) (fun _ db₁ h₁ => ?_) fun _ _ _ => trivial
  simp only [wp_get]
  split_ifs
  · rw [wp_bind]
    exact h₁.wp_ingestRotate hend
  · exact hend db₁ h₁

/-- Entries that are not shaped leave a counter of the published state short of its file. -/
lemma ingest_short (h : Live d db) (cfg : Config) (header : ChangeHeader) (es : List DataEntry) : (ingest cfg header es).wp
    (fun _ db' => (∃ e ∈ es, db.published.durableSeq < e.sequence ∧ ¬ e.Shaped) →
      ∃ id p, db'.published.files.get id = some p ∧ db'.published.totalOf id < db'.disk.size p) (fun _ _ => True) db := by
  simp only [ingest, wp_bind, wp_get]
  split
  · trivial
  · next hrefusal =>
    rw [wp_bind]
    refine wp_liftExcept (fun _ hslice => ?_) fun _ _ => trivial
    have hfollower := h.follower hrefusal
    obtain ⟨hh, -, -⟩ := h.healthy (by have := h.position hfollower; have := h.durable; omega)
    have hallowed : (!db.published.isIngestionAllowed) = false := by
      simp [isIngestionAllowed, hfollower, h.degraded]
    have hmem := fun e => mem_remaining (n := db.published.durableSeq) hslice (e := e)
    simp only [barrier, wp_bind]
    refine wp_mono (flushPending_skips h hfollower) (fun _ db' heq => ?_) (fun _ _ hf => hf.elim)
    subst heq
    refine wp_onError_returns ?_
    simp only [wp_bind, wp_get, hallowed, Bool.false_eq_true, if_false]
    refine wp_liftExcept (fun _ _ => ?_) fun _ _ => trivial
    split_ifs with hnil
    · rintro ⟨e, he, hlt, -⟩
      exact absurd ((hmem e).2 ⟨he, hlt⟩) (hnil ▸ not_mem_nil)
    · trivial
    · refine wp_onError_returns (wp_mono (Lags.wp_ingestEntries cfg hh.lags fun e he => ?_) (fun _ db' hs => ?_) fun _ _ _ => trivial)
      · exact (checkSlice_limits hslice e ((hmem e).1 he).1).2.2.2
      · rintro ⟨e, he, hlt, hbad⟩
        exact hs (countP_pos_iff.2 ⟨e, (hmem e).2 ⟨he, hlt⟩, decide_eq_true hbad⟩)

end Lags

end Db

namespace Db

section Clear

variable {db : Db} {Q : Unit → Db → Prop} {E : DbError → Db → Prop}

lemma wp_io_clear (hf : db.faults = []) {done : Disk → Disk} {failed : Fault → Disk → Disk} :
    (io done failed).wp Q E db ↔ Q () { db with disk := done db.disk } := by
  obtain ⟨disk, published, head, t, writeFault, flushError, faults⟩ := db
  cases hf
  rfl

lemma wp_ioWhole_clear (hf : db.faults = []) {effect : Disk → Disk} :
    (ioWhole effect).wp Q E db ↔ Q () { db with disk := effect db.disk } := wp_io_clear hf

lemma wp_rotation_clear (hf : db.faults = []) (hids : db.t.fileIdsLeft ≠ 0) (handler : Op Unit)
    (hq : Q () { db with disk := (db.disk.shrink db.t.activePath).create, t := rotated db.disk db.t }) :
    (rotation handler).wp Q E db := by
  simp only [rotation, prepareRotation, wp_onError, wp_bind, wp_get, shrinkToFit]
  rw [wp_ioWhole_clear (by exact hf), openDataFileForRead, wp_ioWhole_clear (by exact hf)]
  simp only [reserveFileId, wp_bind, wp_get, id, if_neg hids, wp_modifyT, wp_pure,
    createActiveFile]
  rw [wp_ioWhole_clear (by exact hf)]
  exact hq

lemma flushPending_clear (h : Healthy db) (hh : db.head = db.published) (hq : Q () db) : flushPending.wp Q E db := by
  have hr : db.refused = false := by simp [refused, h.degraded, h.writeFault]
  have hskip : db.head.nextSeq ≤ db.published.nextSeq ∧ ¬ db.published.durableSeq < db.head.syncRequestedSeq := by
    rw [hh]
    exact ⟨le_rfl, not_lt.2 h.requested⟩
  simp only [flushPending, wp_bind, wp_get, hr, Bool.false_eq_true, if_false, if_pos hskip]
  exact hq

def sealed (db : Db) : EngineState :=
  rotated (db.disk.sync db.published.activePath) (db.published.applySync (db.published.nextSeq - 1))

lemma createManifest_clear (h : Healthy db) (hh : db.head = db.published) (hf : db.faults = [])
    (hids : db.published.fileIdsLeft ≠ 0) :
    ∃ db', createManifest db = .ok () db' ∧ db'.refused = false ∧ db'.head = db'.published ∧ db'.published = sealed db ∧
      db'.disk.contents db'.published = db.disk.contents db.published := by
  have hr : db.refused = false := by simp [refused, h.degraded, h.writeFault]
  have hcontents : ((db.disk.sync db.published.activePath).shrink db.published.activePath).create.contents (sealed db) =
      db.disk.contents db.published := by
    have hsynced := (h.stored.grows (.sync db.published.activePath)).grows
      (.flag (max db.published.durableSeq (db.published.nextSeq - 1)) db.published.syncRequestedSeq db.published.mode db.published.degraded)
    exact hsynced.contents_rotation.trans (Disk.contents_adjust_entries _ _ _ fun _ => rfl)
  have hwp : createManifest.wp (fun _ db' => db'.refused = false ∧ db'.head = db'.published ∧ db'.published = sealed db ∧
      db'.disk.contents db'.published = db.disk.contents db.published) (fun _ _ => False) db := by
    simp only [createManifest, barrier, wp_bind]
    apply flushPending_clear h hh
    simp only [wp_onError, wp_bind, wp_get, hr, Bool.false_eq_true, if_false, wp_modify,
      syncActiveFile, sync]
    rw [wp_io_clear (by exact hf)]
    refine wp_rotation_clear (by exact hf) (by exact hids) _ ?_
    rw [wp_storeState]
    refine ⟨fun _ => ?_, fun hn => absurd ?_ hn⟩
    · refine ⟨?_, rfl, rfl, hcontents⟩
      simp [refused, h.writeFault, rotated, EngineState.applyRotateFile, EngineState.reserveFileId, EngineState.applySync, h.degraded]
    · have hactive := h.stored.ids _ (by rw [h.stored.active]; rfl)
      exact ⟨le_rfl, hactive.le, Nat.le_succ _, le_max_left _ _, h.requested.trans (le_max_left _ _)⟩
  obtain ⟨u, db', hok, hdone⟩ := ok_of_wp hwp
  exact ⟨db', hok, hdone⟩

end Clear

end Db

/-- Hints can be written for every file of the directory, and recovery builds `s` from such hints, in its own
numbering. -/
structure Reopens (d : Disk) (s : EngineState) : Prop where
  hints : ∀ p f, d.files.get p = some f → ∃ hs, flushHintsFor f.data = some hs ∧ ∀ he ∈ hs, he.Encodes
  recovers : ∀ (number : Path → FileId) (hint : Path → HintFile) (order : List Path), Listing d number hint order →
    ∀ s₀, Fresh s₀ → ∀ threads strict,
      ∃ r, recoveryLoadStreams s₀ (d.recoveredFiles number hint order) threads strict = .ok r ∧
        r.state.keyDir = s.keyDir.map (Recovery.renumber (number ∘ s.pathOf)) ∧
        r.state.changeMarkers = s.changeMarkers ∧ r.state.nextSeq = s.nextSeq ∧
        ∀ id p, s.files.get id = some p → r.state.fileStats.get (number p) = s.fileStats.get id

structure Carried (s t : EngineState) : Prop where
  keyDir : t.keyDir = s.keyDir
  changeMarkers : t.changeMarkers = s.changeMarkers
  nextSeq : t.nextSeq = s.nextSeq
  files : ∀ id p, s.files.get id = some p → t.files.get id = some p ∧ t.fileStats.get id = s.fileStats.get id

/-- A follower that a reopen would leave as it is: nothing is wrong with it, its directory has its files and no others, and
their records fit the hints. -/
structure Db.Standing (db : Db) : Prop where
  live : ∃ d, Live d db
  listed : db.disk.Listed db.published
  reached : Reached (db.disk.contents db.published) db.published
  fits : ∀ e, db.disk.Holds db.published e → e.HintFits

/-- The counters are the bytes of the files, and the state survives a reopen, at once and after a rotation. -/
structure Db.Survives (db : Db) : Prop where
  counters : ∀ id p, db.published.files.get id = some p →
    ∃ st, db.published.fileStats.get id = some st ∧ st.totalBytes = db.disk.size p
  reopens : Reopens db.disk db.published
  rotates : db.published.fileIdsLeft ≠ 0 → ∃ db', createManifest { db with faults := [] } = .ok () db' ∧
    Carried db.published db'.published ∧ Reopens db'.disk db'.published

section Reopens

variable {d : Disk} {s : EngineState}

lemma Stored.hints (h : Stored d s) {id : FileId} {p : Path} {f : DiskFile} (hid : s.files.get id = some p)
    (hp : d.files.get p = some f) : d.contents s id = f.entries ∧
      ∃ hs, flushHintsFor f.data = some hs ∧ ∀ he, he ∈ hs ↔ ∃ x ∈ located 0 f.entries, HintEntry.ofEntry x.1 x.2 = he := by
  obtain ⟨g, hget, hc, hdata⟩ := h.contents_eq hid
  obtain rfl : g = f := Option.some.inj (hget.symm.trans hp)
  obtain ⟨hs, hflush, hperm, -⟩ := flushHintsFor_spec (h.mirror.log.units id)
  rw [hc] at hflush hperm
  exact ⟨hc, hs, hdata ▸ hflush, fun he => hperm.mem_iff.trans mem_map⟩

lemma Stored.reopens (h : Stored d s) (hl : d.Listed s) (hr : Reached (d.contents s) s)
    (hf : ∀ e, d.Holds s e → e.HintFits) : Reopens d s where
  hints p f hp := by
    obtain ⟨id, hid⟩ := hl p (by rw [hp]; rfl)
    obtain ⟨hc, hs, hflush, hmem⟩ := h.hints hid hp
    refine ⟨hs, hflush, fun he hhe => ?_⟩
    obtain ⟨⟨e, o⟩, heo, rfl⟩ := (hmem he).1 hhe
    have hentry : e ∈ d.contents s id := by
      rw [hc, ← located_map_fst 0 f.entries]
      exact mem_map_of_mem heo
    exact HintEntry.ofEntry_encodes (hf e ⟨id, hentry⟩) o
  recovers number hint order hlist s₀ hs₀ threads strict := h.rebuilt hl hr hlist hs₀ threads strict

lemma Reopens.endKey (hr : Reopens d s) (h : Stored d s) {e : DataEntry} (he : d.Holds s e) (ht : e.entryType = .rangeDel) :
    e.value.length ≤ 65535 := by
  obtain ⟨id, hid⟩ := he
  cases hp : s.files.get id with
  | none =>
    rw [Disk.contents, hp] at hid
    cases hid
  | some p =>
    obtain ⟨f, hf, -, -⟩ := h.contents_eq hp
    obtain ⟨hc, hs, hflush, hmem⟩ := h.hints hp hf
    obtain ⟨hs', hflush', henc⟩ := hr.hints p f hf
    obtain rfl : hs = hs' := Option.some.inj (hflush.symm.trans hflush')
    rw [hc, ← located_map_fst 0 f.entries] at hid
    obtain ⟨⟨x, o⟩, hx, rfl⟩ := mem_map.1 hid
    obtain ⟨bytes, hb, -⟩ := henc _ ((hmem _).2 ⟨_, hx, rfl⟩)
    refine Nat.lt_succ_iff.1 (not_le.1 fun hlong => ?_)
    obtain ⟨sequence, type, key, value⟩ := x
    obtain rfl : type = .rangeDel := ht
    rw [HintEntry.serialize_rangeDel_throws hlong] at hb
    cases hb

end Reopens

section Ingested

variable {cfg : Config} {past : List EngineState} {db db₁ : Db} {header : ChangeHeader} {es : List DataEntry}

lemma Run.standing (h : Run cfg past db) (hf : db.published.mode = .follower)
    (hfits : ∀ e, db.disk.Holds db.published e → e.HintFits) : db.Standing := by
  obtain ⟨mode, d, hlive, hg, -⟩ := h.live
  obtain ⟨-, -, hpub⟩ := hlive.healthy (by have := hlive.position hf; have := hlive.durable; omega)
  have hgrown := hg.trans hpub
  exact ⟨⟨d, hlive⟩, GrowsTo.listed (opened_stored mode) hgrown (opened_listed mode),
    GrowsTo.reached (opened_stored mode) hgrown (.inl rfl), hfits⟩

lemma sealed_carried (h : Stored db.disk db.published) : Carried db.published (Db.sealed db) where
  keyDir := rfl
  changeMarkers := rfl
  nextSeq := rfl
  files id p hp := by
    have hne : id ≠ db.published.nextFileId := (h.ids id (by rw [hp]; rfl)).ne
    have hactive : db.published.files.insert db.published.activeFileId db.published.activePath = db.published.files :=
      insert_of_get h.active
    have hfiles : (Db.sealed db).files = db.published.files.insert db.published.nextFileId db.disk.nextPath := by
      rw [← hactive]
      rfl
    have hstats : (Db.sealed db).fileStats = db.published.fileStats.insert db.published.nextFileId {} := rfl
    rw [hfiles, hstats, get_insert_ne _ _ hne, get_insert_ne _ _ hne]
    exact ⟨hp, rfl⟩

lemma Db.Standing.ingested (h : db.Standing) (hes : ∀ e ∈ es, db.published.durableSeq < e.sequence → e.Shaped)
    (hok : Db.ingest cfg header es db = .ok () db₁) : Healthy db ∧ Ingested true cfg header es db db₁ := by
  obtain ⟨d, hlive⟩ := h.live
  have hwp := ingest_took hlive cfg header (fun hc hp => remaining_of_checkSlice hc hes hp)
  rw [EStateM.wp, hok] at hwp
  exact ⟨(hlive.healthy (by have := hlive.position hwp.follower; have := hlive.durable; omega)).1, hwp⟩

lemma Db.Standing.survives (hcfg : cfg.Admitted) (h : db.Standing)
    (hes : ∀ e ∈ es, db.published.durableSeq < e.sequence → e.Plain) (hok : Db.ingest cfg header es db = .ok () db₁) :
    db₁.Survives := by
  obtain ⟨hh, hing⟩ := h.ingested (fun e he hlt => (hes e he hlt).shaped) hok
  have hlisted := GrowsTo.listed hh.stored hing.grows h.listed
  have hreached := GrowsTo.reached hh.stored hing.grows h.reached
  have hfits : ∀ e, db₁.disk.Holds db₁.published e → e.HintFits := by
    intro e he
    rcases (hing.took.holds e).1 he with he | he
    · exact h.fits e he
    · obtain ⟨hmem, hlt⟩ := (mem_remaining hing.slice).1 he
      obtain ⟨hk, hv, hs, -⟩ := checkSlice_limits hing.slice e hmem
      exact (hes e hmem hlt).hintFits hcfg hk hv hs
  refine ⟨fun id p hp => hing.healthy.stored.totalBytes hp, hing.healthy.stored.reopens hlisted hreached hfits, fun hids => ?_⟩
  have hhealthy : Healthy { db₁ with faults := [] } :=
    ⟨hing.healthy.stored, hing.healthy.degraded, hing.healthy.writeFault, hing.healthy.flushError,
      hing.healthy.requested, hing.healthy.durable, hing.healthy.position⟩
  obtain ⟨db₂, hrot, hfine, hhead, hpub, hcontents⟩ := createManifest_clear hhealthy hing.head rfl hids
  have hgrown : GrowsTo db₁.start (db₂.disk, db₂.published) := by
    have hwp := createManifest_settled (hhealthy.live_of_head hing.head)
    rw [EStateM.wp, hrot] at hwp
    rcases hwp with ⟨d₂, hl₂, hg₂⟩ | hi
    · have hahead := hl₂.ahead.growsTo
      rw [hhead] at hahead
      exact hg₂.trans hahead
    · rw [hi.refused] at hfine
      cases hfine
  refine ⟨db₂, hrot, hpub ▸ sealed_carried hing.healthy.stored, (hing.healthy.stored.growsTo hgrown).reopens
    (GrowsTo.listed hing.healthy.stored hgrown hlisted) (GrowsTo.reached hing.healthy.stored hgrown hreached) fun e he => ?_⟩
  rw [Holds, hcontents] at he
  exact hfits e he

lemma Db.Standing.plain (h : db.Standing) (hok : Db.ingest cfg header es db = .ok () db₁) (hs : db₁.Survives) :
    ∀ e ∈ es, db.published.durableSeq < e.sequence → e.Plain := by
  have hshaped : ∀ e ∈ es, db.published.durableSeq < e.sequence → e.Shaped := by
    intro e he hlt
    obtain ⟨d, hlive⟩ := h.live
    have hwp := ingest_short hlive cfg header es
    rw [EStateM.wp, hok] at hwp
    by_contra hbad
    obtain ⟨id, p, hp, hshort⟩ := hwp ⟨e, he, hlt, hbad⟩
    obtain ⟨st, hst, htotal⟩ := hs.counters id p hp
    rw [totalOf, hst, ← htotal] at hshort
    exact lt_irrefl _ hshort
  obtain ⟨-, hing⟩ := h.ingested hshaped hok
  refine fun e he hlt => ⟨hshaped e he hlt, fun ht => hs.reopens.endKey hing.healthy.stored ?_ ht⟩
  exact (hing.took.holds e).2 (.inr ((mem_remaining hing.slice).2 ⟨he, hlt⟩))

/-- What a follower published of a slice survives exactly if the entries past its position are plain. -/
theorem ingested_reopens (hcfg : cfg.Admitted) (h : db.Standing) (hok : Db.ingest cfg header es db = .ok () db₁) :
    db₁.Survives ↔ ∀ e ∈ es, db.published.durableSeq < e.sequence → e.Plain :=
  ⟨h.plain hok, fun hes => h.survives hcfg hes hok⟩

end Ingested

def firstSlice : List DataEntry :=
  [⟨1, .bulkBegin, [], []⟩, ⟨2, .put, [1], [7]⟩, ⟨3, .rangeDel, [0], [1]⟩, ⟨4, .bulkEnd, [], []⟩, ⟨5, .delete, [2], []⟩]

lemma opened_standing : (Db.opened .follower).Standing := by
  refine (Run.opened .follower : Run sampleConfig _ _).standing rfl ?_
  rintro e ⟨id, he⟩
  rw [opened_contents] at he
  cases he

theorem firstSlice_reopens : ∃ db₁, Db.ingest sampleConfig {} firstSlice (Db.opened .follower) = .ok () db₁ ∧
    db₁.published.keyDir.entries.map Prod.fst = [[1]] ∧ db₁.Survives := by
  have hcfg : sampleConfig.Admitted := ⟨by decide, by decide⟩
  have hplain : ∀ e ∈ firstSlice, e.Plain := by
    simp only [firstSlice, forall_mem_cons, not_mem_nil, false_imp_iff, implies_true, and_true]
    refine ⟨⟨?_, ?_⟩, ⟨?_, ?_⟩, ⟨?_, ?_⟩, ⟨?_, ?_⟩, ⟨?_, ?_⟩⟩ <;> simp [DataEntry.Shaped]
  have hreturns : (Call.ingest {} firstSlice).returns sampleConfig (Db.opened .follower) = true := by decide +kernel
  have hok := Call.run_eq_ok hreturns
  exact ⟨_, hok, by decide +kernel, (ingested_reopens hcfg opened_standing hok).2 fun e he _ => hplain e he⟩

def strayDelete : List DataEntry := [⟨1, .delete, [1], [9]⟩]

def strayDb : Db := (Call.ingest {} strayDelete).next sampleConfig (Db.opened .follower)

/-- A slice that an empty follower accepts. The stray value is in the file and not in the counters, so a reopen gives
other counters. -/
theorem accepted_not_kept :
    Db.ingest sampleConfig {} strayDelete (Db.opened .follower) = .ok () strayDb ∧
      (strayDb.published.fileStats.get 0).map totalBytes = some 20 ∧ strayDb.disk.size 0 = 21 ∧
      ∃ r, recoveryLoadStreams {} (strayDb.disk.recoveredFiles id strayDb.disk.hintFor [0]) 1 true = .ok r ∧
        r.state.fileStats.get 0 ≠ strayDb.published.fileStats.get 0 := by
  have hs : (strayDb.published.fileStats.get 0).map totalBytes = some 20 := by decide +kernel
  refine ⟨Call.run_eq_ok (c := .ingest {} _) (by decide +kernel), hs, by decide +kernel, ?_⟩
  have hr : ((recoveryLoadStreams {} (strayDb.disk.recoveredFiles id strayDb.disk.hintFor [0]) 1
      true).toOption.map fun r => (r.state.fileStats.get 0).map totalBytes) = some (some 21) := by
    decide +kernel
  cases hrec : recoveryLoadStreams {} (strayDb.disk.recoveredFiles id strayDb.disk.hintFor [0]) 1 true with
  | error e =>
    rw [hrec] at hr
    cases hr
  | ok r =>
    refine ⟨r, rfl, fun heq => ?_⟩
    rw [hrec, Except.toOption, Option.map_some, heq, hs] at hr
    cases hr

end Bytecask
