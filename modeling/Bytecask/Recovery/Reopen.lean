import Bytecask.Mirror
import Bytecask.Recovery.Order

/-! Recovery from the hints of the files a state mirrors gives that state back, its files renumbered. -/

namespace Bytecask.Recovery

open List HintEntry

section Hints

variable {es : List DataEntry}

def hintsOf (es : List DataEntry) : List HintEntry := (located 0 es).map (fun e => ofEntry e.1 e.2)

instance : Std.Total Before where
  total a b := by
    rcases lt_trichotomy a.key b.key with h | h | h
    · exact .inl (.inl h)
    · rcases le_total b.sequence a.sequence with hs | hs
      · exact .inl (.inr ⟨h, hs⟩)
      · exact .inr (.inr ⟨h.symm, hs⟩)
    · exact .inr (.inl h)

instance : IsTrans HintEntry Before where
  trans a b c := by
    rintro (h | ⟨h, hs⟩) (h' | ⟨h', hs'⟩)
    · exact .inl (h.trans h')
    · exact .inl (h' ▸ h)
    · exact .inl (h ▸ h')
    · exact .inr ⟨h.trans h', hs'.trans hs⟩

lemma HintEntry.Before.key_le {a b : HintEntry} (h : a.Before b) : a.key ≤ b.key := by
  rcases h with h | ⟨h, -⟩
  · exact h.le
  · exact h.le

lemma flushHintsFor_spec (h : Units es) : ∃ hs, flushHintsFor ⟨es, .zeros⟩ = some hs ∧ hs.Perm (hintsOf es) ∧ SortedHint hs := by
  rw [flushHintsFor, scanCommitted_units h]
  refine ⟨_, rfl, ?_, ?_⟩
  · refine ((perm_insertionSort _ _).append_left _).trans ?_
    simpa [hintsOf] using filter_append_perm (fun he : HintEntry => !he.entryType.isData) _
  · refine ⟨_, _, rfl, ?_, ?_, ?_⟩
    · intro he hm
      simpa using (mem_filter.1 hm).2
    · intro he hm
      rw [mem_insertionSort] at hm
      exact (mem_filter.1 hm).2
    · exact (pairwise_insertionSort Before _).imp HintEntry.Before.key_le

lemma ofEntry_sequence (e : DataEntry) (o : ℕ) : (ofEntry e o).sequence = e.sequence := by
  obtain ⟨seq, ty, key, value⟩ := e
  cases ty <;> rfl

lemma ofEntry_entryType (e : DataEntry) (o : ℕ) : (ofEntry e o).entryType = e.entryType := by
  obtain ⟨seq, ty, key, value⟩ := e
  cases ty <;> rfl

lemma ofEntry_markerId {e : DataEntry} {o : ℕ} (h : e.entryType = .changeMarker) :
    (ofEntry e o).markerId = decodeMarkerId e.value := by
  obtain ⟨seq, ty, key, value⟩ := e
  cases h
  rfl

lemma hintsOf_map {β : Type*} (f : HintEntry → β) (g : DataEntry → β)
    (h : ∀ e ∈ es, ∀ o, f (ofEntry e o) = g e) : (hintsOf es).map f = es.map g := by
  have hfst : ((located 0 es).map Prod.fst).map g = (located 0 es).map (fun e => g e.1) := map_map
  rw [located_map_fst] at hfst
  rw [hfst, hintsOf, map_map]
  exact map_congr_left (fun e he => h e.1 (mem_of_located he) e.2)

lemma hintsOf_sequences (es : List DataEntry) : (hintsOf es).map HintEntry.sequence = es.map DataEntry.sequence :=
  hintsOf_map _ _ (fun e _ o => ofEntry_sequence e o)

end Hints

section Stats

variable {m : ℕ} {l : List ℕ} {es : List DataEntry}

def lowest (m seq : ℕ) : ℕ := if m = 0 ∨ seq < m then seq else m

lemma foldl_countHint (hs : List HintEntry) (st : FileStats) : hs.foldl countHint st = { st with
    minSequence := (hs.map HintEntry.sequence).foldl lowest st.minSequence
    maxSequence := (hs.map HintEntry.sequence).foldl max st.maxSequence
    tombstoneBytes := st.tombstoneBytes +
      (hs.map (fun he => tombstoneSize he.entryType he.key.length he.endKey.length)).sum
    markerBytes := st.markerBytes + (hs.map (fun he => markerSize he.entryType)).sum
    changeMarkerBytes := st.changeMarkerBytes + (hs.map (fun he => changeMarkerSize he.entryType)).sum } := by
  induction hs generalizing st with
  | nil => simp
  | cons he hs ih =>
    rw [foldl_cons, ih]
    simp [countHint, lowest, Nat.add_assoc]

lemma lowest_comm {a b : ℕ} (ha : 0 < a) (hb : 0 < b) : lowest (lowest m a) b = lowest (lowest m b) a := by
  simp only [lowest]
  split_ifs <;> omega

lemma foldl_lowest_perm {l' : List ℕ} (h : l.Perm l') (hpos : ∀ x ∈ l, 0 < x) (m : ℕ) : l.foldl lowest m = l'.foldl lowest m := by
  refine h.foldl_eq' (fun x hx y hy z => ?_) m
  exact lowest_comm (hpos x hx) (hpos y hy)

lemma foldl_lowest_ascending (h : l.Pairwise (· < ·)) (hm : 0 < m) (hlt : ∀ x ∈ l, m < x) : l.foldl lowest m = m := by
  induction l with
  | nil => rfl
  | cons x l ih =>
    have hx := hlt x mem_cons_self
    have hstep : lowest m x = m := by
      simp only [lowest]
      split_ifs <;> omega
    rw [foldl_cons, hstep]
    exact ih (pairwise_cons.1 h).2 (fun y hy => hlt y (mem_cons_of_mem x hy))

lemma foldl_lowest_written (h : Written es) :
    (es.map DataEntry.sequence).foldl lowest 0 = (es.head?.map DataEntry.sequence).getD 0 := by
  cases es with
  | nil => rfl
  | cons e es =>
    obtain ⟨hlt, hs⟩ := pairwise_cons.1 h.ascending
    have hfirst : lowest 0 e.sequence = e.sequence := by simp [lowest]
    rw [map_cons, foldl_cons, hfirst]
    exact foldl_lowest_ascending (pairwise_map.2 hs) (h.positive e mem_cons_self) (by simpa using hlt)

lemma ofEntry_tombstoneSize {e : DataEntry} (h : e.Shaped) (o : ℕ) :
    tombstoneSize (ofEntry e o).entryType (ofEntry e o).key.length
      (ofEntry e o).endKey.length = tombstoneSize e.entryType e.key.length e.value.length := by
  obtain ⟨seq, ty, key, value⟩ := e
  cases ty
  case delete =>
    have hv : value = [] := h
    subst hv
    rfl
  all_goals rfl

lemma countHint_eq (hw : Written es) {hs : List HintEntry} (hp : hs.Perm (hintsOf es)) :
    hs.foldl countHint { totalBytes := bytesOf es } =
      { countsOf es with
        minSequence := (es.head?.map DataEntry.sequence).getD 0
        maxSequence := (es.getLast?.map DataEntry.sequence).getD 0 } := by
  have hseq : (hs.map HintEntry.sequence).Perm (es.map DataEntry.sequence) :=
    hintsOf_sequences es ▸ hp.map _
  have hpos : ∀ x ∈ hs.map HintEntry.sequence, 0 < x := by
    intro x hx
    obtain ⟨e, he, rfl⟩ := mem_map.1 (hseq.mem_iff.1 hx)
    exact hw.positive e he
  have hmax : (hs.map HintEntry.sequence).foldl max 0 = (es.getLast?.map DataEntry.sequence).getD 0 := by
    rw [hseq.foldl_eq, ← hw.lastSeq_eq, lastSeq, foldl_map]
  have htomb : (hs.map (fun he => tombstoneSize he.entryType he.key.length he.endKey.length)).sum =
      tombstoneBytesOf es := by
    rw [(hp.map _).sum_eq, hintsOf_map _ _ (fun e he o => ofEntry_tombstoneSize (hw.shaped e he) o)]
    rfl
  have hmarker : (hs.map (fun he => markerSize he.entryType)).sum = markerBytesOf es := by
    rw [(hp.map _).sum_eq, hintsOf_map _ (fun e => markerSize _) (fun e _ o => by rw [ofEntry_entryType])]
    rfl
  have hchange : (hs.map (fun he => changeMarkerSize he.entryType)).sum = changeMarkerBytesOf es := by
    rw [(hp.map _).sum_eq,
      hintsOf_map _ (fun e => changeMarkerSize _) (fun e _ o => by rw [ofEntry_entryType])]
    rfl
  rw [foldl_countHint, foldl_lowest_perm hseq hpos, foldl_lowest_written hw, hmax, htomb, hmarker, hchange, countsOf,
    foldl_count]
  simp

end Stats

section Reopen

def reopenFiles (C : Contents) (ρ : FileId → FileId) (hint : FileId → HintFile) (ids : List FileId) :
    List RecoveredFile :=
  ids.map (fun id => ⟨ρ id, some (hint id), bytesOf (C id)⟩)

/-- A directory as a state leaves it: each of its files once, with the hint `flush_hints_for` writes for it. -/
structure Reopening (C : Contents) (s : EngineState) (ρ : FileId → FileId) (hint : FileId → HintFile)
    (ids : List FileId) : Prop where
  nodup : ids.Nodup
  complete : ∀ id, id ∈ ids ↔ (s.fileStats.get id).isSome
  renumbered : Set.InjOn ρ { id | id ∈ ids }
  hints : ∀ id ∈ ids, flushHintsFor ⟨C id, .zeros⟩ = some (hint id).entries

/-- Files with the hints `flush_hints_for` writes for them, whatever state they come from. -/
structure Hinted (C : Contents) (ρ : FileId → FileId) (hint : FileId → HintFile) (ids : List FileId) : Prop where
  log : C.Log
  nodup : ids.Nodup
  known : ∀ id, ∀ e ∈ C id, id ∈ ids
  renumbered : Set.InjOn ρ { id | id ∈ ids }
  hints : ∀ id ∈ ids, flushHintsFor ⟨C id, .zeros⟩ = some (hint id).entries

variable {C : Contents} {s : EngineState} {ρ : FileId → FileId} {hint : FileId → HintFile} {ids : List FileId}
variable {id : FileId} {s₀ : EngineState} {r : Recovered}

lemma Reopening.hinted (h : Reopening C s ρ hint ids) (hm : Mirror C s) : Hinted C ρ hint ids where
  log := hm.log
  nodup := h.nodup
  known id _ he := (h.complete id).2 (hm.known id (ne_nil_of_mem he))
  renumbered := h.renumbered
  hints := h.hints

lemma Hinted.perm (h : Hinted C ρ hint ids) (hid : id ∈ ids) :
    (hint id).entries.Perm (hintsOf (C id)) ∧ SortedHint (hint id).entries := by
  obtain ⟨hs, hflush, hp⟩ := flushHintsFor_spec (h.log.units id)
  rw [h.hints id hid, Option.some.injEq] at hflush
  rwa [hflush]

lemma Hinted.mem_entries (h : Hinted C ρ hint ids) (hid : id ∈ ids) {he : HintEntry} :
    he ∈ (hint id).entries ↔ ∃ e o, (e, o) ∈ located 0 (C id) ∧ he = ofEntry e o := by
  rw [(h.perm hid).1.mem_iff, hintsOf, mem_map]
  simp only [Prod.exists, @eq_comm _ he]

lemma Hinted.recoverable (h : Hinted C ρ hint ids) : Recoverable (reopenFiles C ρ hint ids) where
  readable := by simp [reopenFiles]
  sorted := by
    intro rf hrf
    obtain ⟨id, hid, rfl⟩ := mem_map.1 hrf
    exact (h.perm hid).2
  ids := by
    have hmap : (reopenFiles C ρ hint ids).map RecoveredFile.fileId = ids.map ρ := by
      rw [reopenFiles, map_map]
      rfl
    rw [hmap]
    exact h.nodup.map_on (fun x hx y hy hxy => h.renumbered hx hy hxy)
  distinct := by
    have hmap : (reopenFiles C ρ hint ids).flatMap RecoveredFile.entries = ids.flatMap (fun id => (hint id).entries) := by
      rw [reopenFiles, flatMap_map]
      rfl
    rw [hmap, map_flatMap, nodup_flatMap]
    have hseq : ∀ id ∈ ids, ((hint id).entries.map HintEntry.sequence).Perm ((C id).map DataEntry.sequence) :=
      fun id hid => hintsOf_sequences _ ▸ (h.perm hid).1.map _
    refine ⟨fun id hid => (hseq id hid).nodup_iff.2 ?_, ?_⟩
    · exact pairwise_map.2 ((h.log.written id).ascending.imp ne_of_lt)
    · refine h.nodup.imp_of_mem ?_
      intro id id' hid hid' hne x hx hx'
      obtain ⟨e, he, rfl⟩ := mem_map.1 ((hseq id hid).mem_iff.1 hx)
      obtain ⟨e', he', hs⟩ := mem_map.1 ((hseq id' hid').mem_iff.1 hx')
      exact hne (h.log.apart id id' e he e' he' hs.symm)

def renumber (ρ : FileId → FileId) (d : KeyDirEntry) : KeyDirEntry := { d with fileId := ρ d.fileId }

lemma touches_iff {e : DataEntry} {o : ℕ} {k : Bytes} : e.Touches k ↔
    ((ofEntry e o).entryType.isData = true ∧ (ofEntry e o).key = k) ∨
      ((ofEntry e o).entryType = .rangeDel ∧ (ofEntry e o).key ≤ k ∧
        k < (ofEntry e o).endKey) := by
  obtain ⟨seq, ty, key, value⟩ := e
  cases ty <;> simp [DataEntry.Touches, ofEntry, EntryType.isData]

lemma Hinted.newest_iff (h : Hinted C ρ hint ids) (k : Bytes) (seq : ℕ) : C.Newest k seq ↔
    (∀ rf ∈ reopenFiles C ρ hint ids, ∀ e ∈ rf.entries, e.entryType.isData = true → e.key = k → e.sequence ≤ seq) ∧
    (∀ rf ∈ reopenFiles C ρ hint ids, ∀ t ∈ rf.entries, t.entryType = .rangeDel → t.key ≤ k → k < t.endKey →
      t.sequence ≤ seq) := by
  constructor
  · intro hn
    constructor <;> intro rf hrf he hhe
    all_goals
      obtain ⟨id, hid, rfl⟩ := mem_map.1 hrf
      obtain ⟨e, o, hl, rfl⟩ := (h.mem_entries hid).1 hhe
      rw [ofEntry_sequence]
    · exact fun hd hk => hn id e (mem_of_located hl) (touches_iff.2 (.inl ⟨hd, hk⟩))
    · exact fun hr hlo hhi => hn id e (mem_of_located hl) (touches_iff.2 (.inr ⟨hr, hlo, hhi⟩))
  · rintro ⟨hd, hr⟩ id e he ht
    have hid := h.known id e he
    have hrf : (⟨ρ id, some (hint id), bytesOf (C id)⟩ : RecoveredFile) ∈ reopenFiles C ρ hint ids :=
      mem_map_of_mem hid
    obtain ⟨o, hl⟩ := located_of_mem he 0
    have hmem := (h.mem_entries hid).2 ⟨e, o, hl, rfl⟩
    rw [← ofEntry_sequence]
    rcases touches_iff.1 ht with ⟨hdata, hk⟩ | ⟨hrange, hlo, hhi⟩
    · exact hd _ hrf _ hmem hdata hk
    · exact hr _ hrf _ hmem hrange hlo hhi

lemma Hinted.present_iff (h : Hinted C ρ hint ids) (k : Bytes) (d : KeyDirEntry) :
    Present (reopenFiles C ρ hint ids) k d ↔ ∃ d', C.Winning k d' ∧ d = renumber ρ d' := by
  constructor
  · rintro ⟨rf, hrf, he, hhe, hput, hk, hd, hr, rfl⟩
    obtain ⟨id, hid, rfl⟩ := mem_map.1 hrf
    obtain ⟨e, o, hl, rfl⟩ := (h.mem_entries hid).1 hhe
    obtain ⟨seq, ty, key, value⟩ := e
    rw [ofEntry_entryType] at hput
    subst hput
    subst hk
    exact ⟨⟨seq, o, id, value.length⟩, ⟨⟨value, hl, rfl⟩, (h.newest_iff key seq).2 ⟨hd, hr⟩⟩, rfl⟩
  · rintro ⟨d', ⟨⟨v, hl, hv⟩, hn⟩, rfl⟩
    have hid := h.known _ _ (mem_of_located hl)
    obtain ⟨hd, hr⟩ := (h.newest_iff k _).1 hn
    refine ⟨_, mem_map_of_mem hid, _, (h.mem_entries hid).2 ⟨_, _, hl, rfl⟩, rfl, rfl, hd, hr, ?_⟩
    rw [renumber, ← hv]
    rfl

section

variable (h : Reopening C s ρ hint ids)

include h

lemma Reopening.keyDir_eq (hm : Mirror C s)
    (hr : RecoveredFrom s₀ (reopenFiles C ρ hint ids) r) : r.state.keyDir = s.keyDir.map (renumber ρ) := by
  refine SortedMap.ext fun k => Option.ext fun d => ?_
  rw [hr.keys, (h.hinted hm).present_iff, SortedMap.get_map, Option.map_eq_some_iff]
  refine exists_congr fun d' => ?_
  rw [hm.indexed.keys, @eq_comm _ d]

lemma Reopening.liveBytesIn_eq (hm : Mirror C s) (hid : id ∈ ids) :
    liveBytesIn (s.keyDir.map (renumber ρ)) (ρ id) = liveBytesIn s.keyDir id := by
  have hmap : liveBytesIn (s.keyDir.map (renumber ρ)) (ρ id) =
      s.keyDir.sum (fun k e => if ρ e.fileId = ρ id then entrySize k.length e.valueSize else 0) := by
    rw [liveBytesIn, SortedMap.sum_map]
    rfl
  rw [hmap, liveBytesIn]
  refine SortedMap.sum_congr fun k d hd => ?_
  have hin := (h.hinted hm).known _ _ ((hm.indexed.keys k d).1 hd).1.mem.choose_spec
  simp only [h.renumbered.eq_iff hin hid]

lemma Reopening.stats_eq (hm : Mirror C s)
    (hr : RecoveredFrom s₀ (reopenFiles C ρ hint ids) r) (hid : id ∈ ids) :
    r.state.fileStats.get (ρ id) = s.fileStats.get id := by
  obtain ⟨st, hst⟩ := Option.isSome_iff_exists.1 ((h.complete id).1 hid)
  rw [hst, hr.stats]
  refine ⟨_, mem_map_of_mem hid, rfl, ?_⟩
  rw [hm.indexed.stats id st hst, h.keyDir_eq hm hr, statsOf, fileStatsOf, h.liveBytesIn_eq hm hid]
  have hcount := countHint_eq (hm.log.written id) ((h.hinted hm).perm hid).1
  exact congrArg (fun fs : FileStats => { fs with liveBytes := liveBytesIn s.keyDir id }) hcount.symm

omit h in
lemma Hinted.marker_iff (h : Hinted C ρ hint ids) (m : ChangeMarker) :
    m ∈ (reopenFiles C ρ hint ids).flatMap (fun rf => markersOf rf.entries) ↔ ∃ id, m ∈ markersIn (C id) := by
  rw [mem_flatMap]
  constructor
  · rintro ⟨rf, hrf, hmem⟩
    obtain ⟨id, hid, rfl⟩ := mem_map.1 hrf
    obtain ⟨he, hhe, rfl⟩ := mem_map.1 hmem
    obtain ⟨hhe, ht⟩ := mem_filter.1 hhe
    obtain ⟨e, o, hl, rfl⟩ := (h.mem_entries hid).1 hhe
    rw [decide_eq_true_eq, ofEntry_entryType] at ht
    refine ⟨id, mem_markersIn.2 ⟨e, mem_of_located hl, ht, ?_⟩⟩
    rw [ofEntry_sequence, ofEntry_markerId ht]
  · rintro ⟨id, hmem⟩
    obtain ⟨e, he, ht, rfl⟩ := mem_markersIn.1 hmem
    have hid := h.known id e he
    obtain ⟨o, hl⟩ := located_of_mem he 0
    refine ⟨_, mem_map_of_mem hid, mem_map.2 ⟨ofEntry e o, mem_filter.2 ⟨?_, ?_⟩, ?_⟩⟩
    · exact (h.mem_entries hid).2 ⟨e, o, hl, rfl⟩
    · rw [decide_eq_true_eq, ofEntry_entryType, ht]
    · rw [ofEntry_sequence, ofEntry_markerId ht]

lemma Reopening.markers_eq (hm : Mirror C s)
    (hr : RecoveredFrom s₀ (reopenFiles C ρ hint ids) r) : r.state.changeMarkers = s.changeMarkers := by
  have hn : (s.changeMarkers.map ChangeMarker.sinceSequence).Nodup := pairwise_map.2 (hm.ordered.imp ne_of_lt)
  have hn' := (markers_sublist _).nodup (h.hinted hm).recoverable.distinct
  have hperm := (perm_ext_iff_of_nodup (Nodup.of_map _ hn') (Nodup.of_map _ hn)).2 fun m =>
    ((h.hinted hm).marker_iff m).trans (hm.markers m).symm
  rw [hr.markers, sortedMarkers_perm hperm hn]
  exact List.Pairwise.insertionSort_eq (hm.ordered.imp le_of_lt)

end

def Reached (C : Contents) (s : EngineState) : Prop := s.nextSeq = 1 ∨ ∃ id, ∃ e ∈ C id, e.sequence + 1 = s.nextSeq

lemma maxSeqOf_le {es : List HintEntry} {m : ℕ} : maxSeqOf es ≤ m ↔ ∀ e ∈ es, e.sequence ≤ m := by
  induction es with
  | nil => simp [maxSeqOf]
  | cons e es ih =>
    rw [maxSeqOf, foldl_cons, foldl_max_sequence, Nat.zero_max, max_le_iff, ih, forall_mem_cons]

lemma Hinted.highest_le_iff (h : Hinted C ρ hint ids) (m : ℕ) :
    highest (reopenFiles C ρ hint ids) ≤ m ↔ ∀ id, ∀ e ∈ C id, e.sequence ≤ m := by
  rw [highest, maxSeqOf_le]
  constructor
  · intro hle id e he
    have hid := h.known id e he
    obtain ⟨o, hl⟩ := located_of_mem he 0
    rw [← ofEntry_sequence]
    exact hle _ (mem_flatMap.2 ⟨_, mem_map_of_mem hid, (h.mem_entries hid).2 ⟨e, o, hl, rfl⟩⟩)
  · intro hle he hhe
    obtain ⟨rf, hrf, hhe⟩ := mem_flatMap.1 hhe
    obtain ⟨id, hid, rfl⟩ := mem_map.1 hrf
    obtain ⟨e, o, hl, rfl⟩ := (h.mem_entries hid).1 hhe
    rw [ofEntry_sequence]
    exact hle id e (mem_of_located hl)

lemma Reopening.nextSeq_eq (h : Reopening C s ρ hint ids) (hm : Mirror C s) (hn : Reached C s)
    (hr : RecoveredFrom s₀ (reopenFiles C ρ hint ids) r) : r.state.nextSeq = s.nextSeq := by
  have hle : highest (reopenFiles C ρ hint ids) ≤ s.nextSeq - 1 :=
    ((h.hinted hm).highest_le_iff _).2 (fun id e he => Nat.le_sub_one_of_lt (hm.below id e he))
  rw [hr.nextSeq]
  rcases hn with hn | ⟨id, e, he, hn⟩
  · omega
  · have hge := ((h.hinted hm).highest_le_iff _).1 le_rfl id e he
    omega

lemma Reopening.recovers (h : Reopening C s ρ hint ids) (hm : Mirror C s) (hn : Reached C s)
    (hs : Fresh s₀) (threads : ℕ) (strict : Bool) :
    ∃ r, recoveryLoadStreams s₀ (reopenFiles C ρ hint ids) threads strict = .ok r ∧
      r.state.keyDir = s.keyDir.map (renumber ρ) ∧ r.state.changeMarkers = s.changeMarkers ∧
      r.state.nextSeq = s.nextSeq ∧ ∀ id ∈ ids, r.state.fileStats.get (ρ id) = s.fileStats.get id := by
  obtain ⟨r, hok, hr⟩ := recoveryLoadStreams_from hs (h.hinted hm).recoverable _ strict
  exact ⟨r, hok, h.keyDir_eq hm hr, h.markers_eq hm hr, h.nextSeq_eq hm hn hr, fun id hid => h.stats_eq hm hr hid⟩

end Reopen

end Bytecask.Recovery
