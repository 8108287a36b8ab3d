import Bytecask.Mirror

/-! What a resume does to the published state: it replays every committed entry of the active file, those that were never
published with those that were. -/

namespace Bytecask

open List DataEntry EngineState Option

namespace EngineState

variable {s : EngineState} (fileId : FileId)

def applyResumeEntry (fileId : FileId) (s : EngineState) (e : DataEntry) (offset : ℕ) : EngineState :=
  match e.entryType with
  | .put =>
    let existing := kdGet s.keyDir e.key
    if existing.all (fun x => x.sequence < e.sequence) then
      let t := (s.release e.key existing).patch fileId { liveAdded := entrySize e.key.length e.value.length }
      { t with keyDir := (kdPut t.keyDir e.key ⟨e.sequence, offset, fileId, e.value.length⟩).1 }
    else s
  | .delete =>
    let existing := kdGet s.keyDir e.key
    if existing.any (fun x => x.sequence < e.sequence) then
      let t := s.release e.key existing
      { t with keyDir := (kdErase t.keyDir e.key).1 }
    else s
  | .rangeDel => s.eraseRange e.key e.value (fun x => x.sequence < e.sequence)
  | .changeMarker =>
    -- A published marker is in the list already, so only one above the last is added.
    if s.changeMarkers.getLast?.all (fun m => m.sinceSequence < e.sequence) then
      s.appendMarker ⟨e.sequence, decodeMarkerId e.value⟩
    else s
  | .bulkBegin | .bulkEnd => s

def resumeEntries (fileId : FileId) (s : EngineState) (entries : List (DataEntry × ℕ)) : EngineState :=
  entries.foldl (fun t p => t.applyResumeEntry fileId p.1 p.2) s

def rangeEnd (e : DataEntry) : Bytes := if e.entryType = .rangeDel then e.value else []

def resumedStats (entries : List DataEntry) (validOffset : ℕ) (fs : FileStats) : FileStats :=
  { fs with
    totalBytes := validOffset
    minSequence := entries.foldl (fun m e => if m = 0 then e.sequence else m) 0
    maxSequence := lastSeq entries
    tombstoneBytes := (entries.map (fun e => tombstoneSize e.entryType e.key.length (rangeEnd e).length)).sum
    markerBytes := markerBytesOf entries
    changeMarkerBytes := changeMarkerBytesOf entries }

def applyResume (s : EngineState) (fileId : FileId) (entries : List (DataEntry × ℕ)) (validOffset : ℕ) : EngineState :=
  let t := s.resumeEntries fileId entries
  let maxSeq := lastSeq (entries.map Prod.fst)
  { t with
    nextSeq := if t.nextSeq ≤ maxSeq then maxSeq + 1 else t.nextSeq
    fileStats := t.fileStats.adjust fileId (resumedStats (entries.map Prod.fst) validOffset) }

lemma resumeEntries_cons (s : EngineState) (p : DataEntry × ℕ) (entries : List (DataEntry × ℕ)) :
    s.resumeEntries fileId (p :: entries) = (s.applyResumeEntry fileId p.1 p.2).resumeEntries fileId entries := rfl

lemma resumeEntries_append (s : EngineState) (es fs : List (DataEntry × ℕ)) :
    s.resumeEntries fileId (es ++ fs) = (s.resumeEntries fileId es).resumeEntries fileId fs := foldl_append

section Entry

variable (fileId : FileId) (s : EngineState) (e : DataEntry) (offset : ℕ)

lemma applyResumeEntry_get (k : Bytes) : (s.applyResumeEntry fileId e offset).keyDir.get k =
    if e.Touches k ∧ (s.keyDir.get k).all (fun x => x.sequence < e.sequence) = true then
      (if e.entryType = .put then some ⟨e.sequence, offset, fileId, e.value.length⟩ else none)
    else s.keyDir.get k := by
  obtain ⟨seq, ty, key, value⟩ := e
  cases ty
  case put =>
    simp only [applyResumeEntry, kdGet, Touches, if_true]
    by_cases hk : key = k
    · subst hk
      split_ifs <;> simp_all [kdPut]
    · split_ifs <;> simp_all [kdPut, SortedMap.get_insert_ne, Ne.symm]
  case delete =>
    have hdef : s.applyResumeEntry fileId ⟨seq, .delete, key, value⟩ offset =
        if (s.keyDir.get key).any (fun x => x.sequence < seq) = true then
          { s.release key (s.keyDir.get key) with keyDir := (s.release key (s.keyDir.get key)).keyDir.erase key }
        else s := rfl
    rw [hdef, if_neg (show EntryType.delete ≠ .put by simp)]
    have htouches : (⟨seq, .delete, key, value⟩ : DataEntry).Touches k ↔ key = k := Iff.rfl
    split_ifs with hold htouched htouched
    · obtain rfl := htouches.1 htouched.1
      simp
    · have hk : k ≠ key := by
        rintro rfl
        cases hx : s.keyDir.get k <;> simp_all
      simp [SortedMap.get_erase, hk]
    · obtain rfl := htouches.1 htouched.1
      cases hx : s.keyDir.get key with
      | none => rfl
      | some x => simp [hx] at hold htouched; omega
    · rfl
  case rangeDel =>
    simp only [applyResumeEntry, eraseRange_get, Touches]
    cases hk : s.keyDir.get k <;> simp [and_assoc]
  case bulkBegin | bulkEnd => simp [applyResumeEntry, Touches]
  case changeMarker =>
    simp only [applyResumeEntry, Touches]
    split_ifs <;> simp_all [appendMarker]

lemma applyResumeEntry_rest : (s.applyResumeEntry fileId e offset).rest = s.rest := by
  obtain ⟨seq, ty, key, value⟩ := e
  cases ty
  case put =>
    simp only [applyResumeEntry]
    split_ifs
    · cases h : s.keyDir.get key <;> simp [kdGet, h, release, patch, rest]
    · rfl
  case delete =>
    simp only [applyResumeEntry]
    split_ifs
    · cases h : s.keyDir.get key <;> simp [kdGet, h, release, patch, rest]
    · rfl
  case rangeDel => simp [applyResumeEntry, eraseRange_eq, rest]
  case bulkBegin | bulkEnd => rfl
  case changeMarker =>
    simp only [applyResumeEntry]
    split_ifs <;> rfl

lemma applyResumeEntry_changeMarkers : (s.applyResumeEntry fileId e offset).changeMarkers =
    if e.entryType = .changeMarker ∧ s.changeMarkers.getLast?.all (fun m => m.sinceSequence < e.sequence) = true then
      s.changeMarkers ++ [⟨e.sequence, decodeMarkerId e.value⟩]
    else s.changeMarkers := by
  obtain ⟨seq, ty, key, value⟩ := e
  cases ty
  case put | delete =>
    simp only [applyResumeEntry]
    split_ifs <;> simp_all
  case rangeDel => simp [applyResumeEntry, eraseRange_eq]
  case bulkBegin | bulkEnd => simp [applyResumeEntry]
  case changeMarker =>
    simp only [applyResumeEntry]
    split_ifs <;> simp_all [appendMarker]

end Entry

lemma applyResumeEntry_stats
    (hlive : ∀ id st, s.fileStats.get id = some st → st.liveBytes = liveBytesIn s.keyDir id) (fileId : FileId) (e : DataEntry)
    (offset : ℕ) (id : FileId) : (s.applyResumeEntry fileId e offset).fileStats.get id =
      (s.fileStats.get id).map (fun st =>
        { st with liveBytes := liveBytesIn (s.applyResumeEntry fileId e offset).keyDir id }) := by
  have hsame : s.fileStats.get id =
      (s.fileStats.get id).map (fun st => { st with liveBytes := liveBytesIn s.keyDir id }) := by
    cases hst : s.fileStats.get id with
    | none => rfl
    | some st => simp [← hlive id st hst]
  obtain ⟨seq, ty, key, value⟩ := e
  cases ty
  case put =>
    simp only [applyResumeEntry]
    split_ifs
    · have hspec := release_spec hlive key id
      show ((s.release key (s.keyDir.get key)).patch fileId _).fileStats.get id = _
      rw [get_patch, hspec, Option.map_map]
      refine congrArg (fun f => Option.map f _) (funext fun st => ?_)
      simp only [Function.comp, patch_keyDir, release_keyDir, kdPut, liveBytesIn_put]
      split_ifs
      · rw [FileStats.mk.injEq]
        obtain ⟨hmin, hmax⟩ := FileStats.apply_bounds { st with liveBytes := liveBytesIn _ id }
          { liveAdded := entrySize _ _ } ⟨rfl, rfl⟩
        exact ⟨rfl, rfl, hmin, hmax, rfl, rfl, rfl⟩
      · rfl
    · exact hsame
  case delete =>
    simp only [applyResumeEntry]
    split_ifs
    · have hspec := release_spec hlive key id
      show (s.release key (s.keyDir.get key)).fileStats.get id = _
      rw [hspec]
      simp [kdErase]
    · exact hsame
  case rangeDel =>
    exact eraseRange_stats hlive key value _ id
  case bulkBegin | bulkEnd => exact hsame
  case changeMarker =>
    simp only [applyResumeEntry]
    split_ifs <;> exact hsame

lemma resumeEntries_rest (s : EngineState) (es : List (DataEntry × ℕ)) : (s.resumeEntries fileId es).rest = s.rest := by
  induction es generalizing s with
  | nil => rfl
  | cons p es ih => rw [resumeEntries_cons, ih, applyResumeEntry_rest]

lemma resumeEntries_stats (hlive : ∀ id st, s.fileStats.get id = some st → st.liveBytes = liveBytesIn s.keyDir id) (fileId : FileId)
    (es : List (DataEntry × ℕ)) (id : FileId) : (s.resumeEntries fileId es).fileStats.get id =
      (s.fileStats.get id).map (fun st => { st with liveBytes := liveBytesIn (s.resumeEntries fileId es).keyDir id }) := by
  induction es generalizing s with
  | nil =>
    cases hst : s.fileStats.get id with
    | none => simp [resumeEntries, hst]
    | some st => simp [resumeEntries, hst, ← hlive]
  | cons p es ih =>
    have hstep := applyResumeEntry_stats hlive fileId p.1 p.2
    have hlive' : ∀ id st, (s.applyResumeEntry fileId p.1 p.2).fileStats.get id = some st →
        st.liveBytes = liveBytesIn (s.applyResumeEntry fileId p.1 p.2).keyDir id := by
      intro id st hst
      rw [hstep, Option.map_eq_some_iff] at hst
      obtain ⟨st', -, rfl⟩ := hst
      rfl
    rw [resumeEntries_cons, ih hlive', hstep, Option.map_map]
    rfl

end EngineState

section Replay

variable {C : Contents} {s t : EngineState} {a : FileId}
variable {es : List DataEntry} {k : Bytes}

lemma EngineState.resumeEntries_absent (hasc : es.Pairwise (fun x y => x.sequence < y.sequence))
    (hk : s.keyDir.get k = none) (start : ℕ) {d : KeyDirEntry} (hd : (s.resumeEntries a (located start es)).keyDir.get k = some d) :
    d.fileId = a ∧ (∃ v, (⟨d.sequence, .put, k, v⟩, d.fileOffset) ∈ located start es ∧ v.length = d.valueSize) ∧
      ∀ e ∈ es, e.Touches k → e.sequence ≤ d.sequence := by
  -- From the back: the last entry that touches the key decides it.
  induction es using List.reverseRecOn with
  | nil =>
    rw [located, resumeEntries, foldl_nil, hk] at hd
    cases hd
  | append_singleton es e ih =>
    obtain ⟨hasc, -, hlast⟩ := pairwise_append.1 hasc
    have hlt : ∀ x ∈ es, x.sequence < e.sequence := fun x hx => hlast x hx e (mem_singleton.2 rfl)
    rw [located_append, resumeEntries_append] at hd
    change ((s.resumeEntries a (located start es)).applyResumeEntry a e (start + bytesOf es)).keyDir.get k = some d at hd
    rw [applyResumeEntry_get] at hd
    rw [located_append]
    have hkept : (s.resumeEntries a (located start es)).keyDir.get k = some d → (e.Touches k → e.sequence ≤ d.sequence) →
        d.fileId = a ∧ (∃ v, (⟨d.sequence, .put, k, v⟩, d.fileOffset) ∈ located start es ++ located (start + bytesOf es) [e] ∧
          v.length = d.valueSize) ∧ ∀ x ∈ es ++ [e], x.Touches k → x.sequence ≤ d.sequence := by
      intro hd he
      obtain ⟨hf, ⟨v, hv, hl⟩, hn⟩ := ih hasc hd
      refine ⟨hf, ⟨v, mem_append_left _ hv, hl⟩, fun x hx => ?_⟩
      rcases mem_append.1 hx with hx | hx
      · exact hn x hx
      · rw [mem_singleton.1 hx]
        exact he
    split_ifs at hd with hold hput
    · cases hd
      have hkey : e.key = k := by simpa [Touches, hput] using hold.1
      refine ⟨rfl, ⟨e.value, mem_append_right _ ?_, rfl⟩, fun x hx _ => ?_⟩
      · rw [← hput, ← hkey]
        exact mem_singleton.2 rfl
      · rcases mem_append.1 hx with hx | hx
        · exact (hlt x hx).le
        · rw [mem_singleton.1 hx]
    · refine hkept hd fun htouch => ?_
      -- Not older, so not in this file: it can only be met here as the newest already.
      obtain ⟨-, ⟨v, hv, -⟩, -⟩ := ih hasc hd
      have holder := hlt _ (mem_of_located hv)
      refine absurd ⟨htouch, ?_⟩ hold
      rw [hd]
      exact decide_eq_true holder

lemma Mirror.resume_published (h : Mirror C s)
    (hlatest : ∀ id, id ≠ s.activeFileId → ∀ e ∈ C id, ∀ e' ∈ C s.activeFileId, e.sequence < e'.sequence) (k : Bytes) :
    (s.resumeEntries s.activeFileId (located 0 (C s.activeFileId))).keyDir.get k = s.keyDir.get k := by
  cases hk : s.keyDir.get k with
  | none =>
    cases hd : (s.resumeEntries s.activeFileId (located 0 (C s.activeFileId))).keyDir.get k with
    | none => rfl
    | some d =>
      obtain ⟨hf, ⟨v, hv, hl⟩, hn⟩ := resumeEntries_absent (h.log.written _).ascending hk 0 hd
      have hwin : C.Winning k d := by
        refine ⟨⟨v, hf ▸ hv, hl⟩, fun id e he htouch => ?_⟩
        by_cases hid : id = s.activeFileId
        · exact hn e (hid ▸ he) htouch
        · exact (hlatest id hid e he _ (mem_of_located hv)).le
      rw [(h.indexed.keys k d).2 hwin] at hk
      cases hk
  | some d =>
    have hnewest := ((h.indexed.keys k d).1 hk).2 s.activeFileId
    have hstay : ∀ (es : List (DataEntry × ℕ)) (t : EngineState), t.keyDir.get k = some d →
        (∀ p ∈ es, p.1.Touches k → p.1.sequence ≤ d.sequence) →
        (t.resumeEntries s.activeFileId es).keyDir.get k = some d := by
      intro es
      induction es with
      | nil => exact fun t ht _ => ht
      | cons p es ih =>
        intro t ht hle
        refine ih _ ?_ (fun q hq => hle q (mem_cons_of_mem p hq))
        rw [applyResumeEntry_get, if_neg, ht]
        rintro ⟨htouch, hold⟩
        rw [ht] at hold
        exact absurd (of_decide_eq_true hold) (not_lt.2 (hle p mem_cons_self htouch))
    exact hstay _ s hk fun p hp => hnewest p.1 (mem_of_located hp)

lemma EngineState.resumeEntries_fresh (hasc : es.Pairwise (fun x y => x.sequence < y.sequence)) {u : EngineState}
    (hu : u.activeFileId = a) (hk : t.keyDir.get k = u.keyDir.get k)
    (hnew : ∀ d, t.keyDir.get k = some d → ∀ e ∈ es, d.sequence < e.sequence) (start : ℕ) :
    (t.resumeEntries a (located start es)).keyDir.get k = (u.applyEntries (located start es)).keyDir.get k := by
  induction es generalizing t u start with
  | nil => exact hk
  | cons e es ih =>
    obtain ⟨hlt, hasc⟩ := pairwise_cons.1 hasc
    have hall : (t.keyDir.get k).all (fun x => x.sequence < e.sequence) = true := by
      cases hd : t.keyDir.get k with
      | none => rfl
      | some d => exact decide_eq_true (hnew d hd e mem_cons_self)
    have hstep : (t.applyResumeEntry a e start).keyDir.get k = (u.applyIngestEntry e start).keyDir.get k := by
      rw [applyResumeEntry_get, applyIngestEntry_get, hall, hu, hk]
      simp only [and_true]
    refine ih hasc ((u.applyIngestEntry_activeFileId e start).trans hu) hstep (fun d hd x hx => ?_) _
    rw [applyResumeEntry_get] at hd
    split_ifs at hd with htouch hput
    · cases hd
      exact hlt x hx
    · exact hnew d hd x (mem_cons_of_mem e hx)

lemma EngineState.resumeEntries_known_markers (es : List (DataEntry × ℕ))
    (h : ∀ p ∈ es, p.1.entryType = .changeMarker → ∃ m ∈ s.changeMarkers.getLast?, p.1.sequence ≤ m.sinceSequence) :
    (s.resumeEntries a es).changeMarkers = s.changeMarkers := by
  induction es generalizing s with
  | nil => rfl
  | cons p es ih =>
    have hsame : (s.applyResumeEntry a p.1 p.2).changeMarkers = s.changeMarkers := by
      rw [applyResumeEntry_changeMarkers, if_neg]
      rintro ⟨ht, hlast⟩
      obtain ⟨m, hm, hle⟩ := h p mem_cons_self ht
      rw [hm] at hlast
      exact absurd (of_decide_eq_true hlast) (not_lt.2 hle)
    rw [resumeEntries_cons, ih, hsame]
    rw [hsame]
    exact fun q hq => h q (mem_cons_of_mem p hq)

lemma EngineState.resumeEntries_new_markers (es : List (DataEntry × ℕ))
    (hasc : es.Pairwise (fun x y => x.1.sequence < y.1.sequence))
    (h : ∀ m ∈ s.changeMarkers.getLast?, ∀ p ∈ es, m.sinceSequence < p.1.sequence) :
    (s.resumeEntries a es).changeMarkers = s.changeMarkers ++ markersIn (es.map Prod.fst) := by
  induction es generalizing s with
  | nil => simp [resumeEntries, markersIn]
  | cons p es ih =>
    obtain ⟨hlt, hasc⟩ := pairwise_cons.1 hasc
    have hall : s.changeMarkers.getLast?.all (fun m => m.sinceSequence < p.1.sequence) = true := by
      cases hm : s.changeMarkers.getLast? with
      | none => rfl
      | some m => exact decide_eq_true (h m hm p mem_cons_self)
    have hstep := s.applyResumeEntry_changeMarkers a p.1 p.2
    simp only [hall, and_true] at hstep
    rw [resumeEntries_cons, ih hasc ?_, hstep]
    · split_ifs with ht <;> simp [markersIn, ht]
    · rw [hstep]
      split_ifs
      · intro m hm q hq
        rw [List.getLast?_append, List.getLast?_singleton, some_or] at hm
        cases hm
        exact hlt q hq
      · exact fun m hm q hq => h m hm q (mem_cons_of_mem p hq)

lemma EngineState.resumedStats_eq (h : Written es) (d : KeyDir) (fs : FileStats)
    (hlive : fs.liveBytes = liveBytesIn d a) (hid : C a = es) :
    resumedStats es (bytesOf es) fs = fileStatsOf d a (C a) (boundsOf C a) := by
  have hmin : es.foldl (fun m e => if m = 0 then e.sequence else m) 0 = (es.head?.map DataEntry.sequence).getD 0 := by
    have hstay : ∀ (es : List DataEntry) (m : ℕ), m ≠ 0 → es.foldl (fun m e => if m = 0 then e.sequence else m) m = m := by
      intro es
      induction es with
      | nil => exact fun _ _ => rfl
      | cons e es ih =>
        intro m hm
        rw [foldl_cons, if_neg hm, ih m hm]
    cases es with
    | nil => rfl
    | cons e es => exact hstay es _ (h.positive e mem_cons_self).ne'
  have htomb : (es.map (fun e => tombstoneSize e.entryType e.key.length (rangeEnd e).length)).sum = tombstoneBytesOf es := by
    refine congrArg _ (map_congr_left fun e he => ?_)
    have hshape := h.shaped e he
    obtain ⟨seq, ty, key, value⟩ := e
    cases ty <;> simp_all [rangeEnd, tombstoneSize, Shaped]
  rw [fileStatsOf, boundsOf, hid, countsOf, foldl_count, resumedStats, hmin, htomb, h.lastSeq_eq, hlive]
  simp

lemma Mirror.resumed_keyDir (h : Mirror C s)
    (hlatest : ∀ id, id ≠ s.activeFileId → ∀ e ∈ C id, ∀ e' ∈ C s.activeFileId, e.sequence < e'.sequence)
    (hw : Written es) (hfresh : ∀ e ∈ es, s.nextSeq ≤ e.sequence) :
    (s.resumeEntries s.activeFileId (located 0 (C s.activeFileId ++ es))).keyDir =
      (s.applyIngest es (offsetsFrom (bytesOf (C s.activeFileId)) es)).keyDir := by
  refine SortedMap.ext fun k => ?_
  rw [located_append, resumeEntries_append, Nat.zero_add, applyIngest_keyDir]
  have hpub := h.resume_published hlatest k
  refine resumeEntries_fresh hw.ascending rfl hpub (fun d hd e he => ?_) _
  rw [hpub] at hd
  obtain ⟨v, hv⟩ := ((h.indexed.keys k d).1 hd).1.mem
  exact (h.below _ _ hv).trans_le (hfresh e he)

lemma Mirror.resumed_changeMarkers (h : Mirror C s) (hw : Written es) (hfresh : ∀ e ∈ es, s.nextSeq ≤ e.sequence) :
    (s.resumeEntries s.activeFileId (located 0 (C s.activeFileId ++ es))).changeMarkers = s.changeMarkers ++ markersIn es := by
  have hknown : (s.resumeEntries s.activeFileId (located 0 (C s.activeFileId))).changeMarkers = s.changeMarkers := by
    refine resumeEntries_known_markers _ fun p hp ht => ?_
    have hmem : (⟨p.1.sequence, decodeMarkerId p.1.value⟩ : ChangeMarker) ∈ s.changeMarkers :=
      (h.markers _).2 ⟨_, mem_markersIn.2 ⟨p.1, mem_of_located hp, ht, rfl⟩⟩
    have hordered := h.ordered
    obtain hnil | ⟨init, last, hlist⟩ := eq_nil_or_concat' s.changeMarkers
    · rw [hnil] at hmem
      cases hmem
    · rw [hlist] at hmem hordered ⊢
      refine ⟨last, by simp, ?_⟩
      rcases mem_append.1 hmem with hinit | hlast
      · exact ((pairwise_append.1 hordered).2.2 _ hinit last (mem_singleton.2 rfl)).le
      · rw [← mem_singleton.1 hlast]
  rw [located_append, resumeEntries_append, Nat.zero_add, resumeEntries_new_markers, hknown,
    located_map_fst]
  · have hasc : ((located (bytesOf (C s.activeFileId)) es).map Prod.fst).Pairwise (fun x y => x.sequence < y.sequence) := by
      rw [located_map_fst]
      exact hw.ascending
    exact (pairwise_map (f := Prod.fst) (R := fun x y : DataEntry => x.sequence < y.sequence)).1 hasc
  · rw [hknown]
    intro m hm p hp
    obtain ⟨id, hid⟩ := (h.markers m).1 (List.mem_of_mem_getLast? hm)
    obtain ⟨x, hx, -, rfl⟩ := mem_markersIn.1 hid
    exact (h.below id x hx).trans_le (hfresh p.1 (mem_of_located hp))

/-- A resume takes in what the active file holds past the published entries, as if it were ingested now. -/
theorem Mirror.applyResume_eq (h : Mirror C s)
    (hlatest : ∀ id, id ≠ s.activeFileId → ∀ e ∈ C id, ∀ e' ∈ C s.activeFileId, e.sequence < e'.sequence)
    (hw : Written es) (hu : Units es) (hfresh : ∀ e ∈ es, s.nextSeq ≤ e.sequence) :
    s.applyResume s.activeFileId (located 0 (C s.activeFileId ++ es)) (bytesOf (C s.activeFileId ++ es)) =
      s.applyIngest es (offsetsFrom (bytesOf (C s.activeFileId)) es) := by
  have hmirror : Mirror (C.extend s.activeFileId es) (s.applyIngest es (offsetsFrom (bytesOf (C s.activeFileId)) es)) := by
    by_cases hne : es = []
    · rw [hne, Contents.extend_nil]
      exact h
    · exact h.ingest hne hw hu hfresh
  have hkeys := h.resumed_keyDir hlatest hw hfresh
  have hmarkers := h.resumed_changeMarkers hw hfresh
  have hrest := s.resumeEntries_rest s.activeFileId (located 0 (C s.activeFileId ++ es))
  have hstats := resumeEntries_stats h.indexed.live s.activeFileId (located 0 (C s.activeFileId ++ es))
  have hall : Written (C s.activeFileId ++ es) := by
    have := hmirror.log.written s.activeFileId
    rwa [Contents.extend_self] at this
  rw [applyResume, located_map_fst]
  generalize s.resumeEntries s.activeFileId (located 0 (C s.activeFileId ++ es)) = t at hkeys hmarkers hrest hstats ⊢
  refine ext_rest hkeys ?_ ?_ ?_
  · refine SortedMap.ext fun id => ?_
    have hdom := s.applyIngest_isSome (bytesOf (C s.activeFileId)) es id
    rw [SortedMap.get_adjust]
    cases hst : s.fileStats.get id with
    | none =>
      rw [hst, isSome_none, isSome_eq_false_iff, isNone_iff_eq_none] at hdom
      have hnone : t.fileStats.get id = none := by rw [hstats, hst]; rfl
      rw [hdom, hnone]
      split_ifs with hid
      · rw [← hid, hnone]
        rfl
      · rfl
    | some st =>
      rw [hst, isSome_some] at hdom
      obtain ⟨st', hst'⟩ := isSome_iff_exists.1 hdom
      have hsome : t.fileStats.get id = some { st with liveBytes := liveBytesIn t.keyDir id } := by rw [hstats, hst]; rfl
      rw [hst', hmirror.indexed.stats id st' hst', ← hkeys]
      split_ifs with hid
      · have hactive := hsome
        rw [hid] at hactive ⊢
        rw [hactive, map_some]
        exact congrArg some (resumedStats_eq hall _ _ rfl (C.extend_self _ es))
      · rw [hsome, h.indexed.stats id st hst, boundsOf, boundsOf, C.extend_ne hid]
        rfl
  · show t.changeMarkers = _
    rw [hmarkers, applyIngest_changeMarkers]
  · have hnext := congrArg nextSeq hrest
    change t.nextSeq = s.nextSeq at hnext
    show ({ t.rest with nextSeq := if t.nextSeq ≤ lastSeq _ then lastSeq _ + 1
      else t.nextSeq } : EngineState) = _
    rw [hrest, hnext]
    by_cases hne : es = []
    · subst hne
      have hbelow : lastSeq (C s.activeFileId) < s.nextSeq := by
        by_cases hnil : C s.activeFileId = []
        · rw [hnil]
          exact h.positive
        · obtain ⟨e, he, hseq⟩ := (h.log.written _).lastSeq_mem hnil
          rw [← hseq]
          exact h.below _ e he
      rw [append_nil, if_neg (not_le.2 hbelow)]
      rfl
    · have hlast : lastSeq (C s.activeFileId ++ es) = lastSeq es := by
        obtain ⟨e, es, rfl⟩ := exists_cons_of_ne_nil hne
        rw [hall.lastSeq_eq, hw.lastSeq_eq, List.getLast?_append_cons]
      have hle : s.nextSeq ≤ lastSeq es := by
        obtain ⟨e, he, hseq⟩ := hw.lastSeq_mem hne
        rw [← hseq]
        exact hfresh e he
      rw [hlast, if_pos hle, s.applyIngest_rest _ es hne hfresh]

end Replay

end Bytecask
