import Bytecask.Index

/-! The state that mirrors the contents of the data files, and the appends that keep it so. -/

namespace Bytecask

open List Contents EngineState

variable {es fs : List DataEntry}

def boundsOf (C : Contents) (id : FileId) : ℕ × ℕ :=
  (((C id).head?.map DataEntry.sequence).getD 0, ((C id).getLast?.map DataEntry.sequence).getD 0)

def markersIn (es : List DataEntry) : List ChangeMarker :=
  (es.filter (fun e => e.entryType = .changeMarker)).map (fun e => ⟨e.sequence, decodeMarkerId e.value⟩)

structure Written (es : List DataEntry) : Prop where
  shaped : ∀ e ∈ es, e.Shaped
  ascending : es.Pairwise (fun a b => a.sequence < b.sequence)
  positive : ∀ e ∈ es, 0 < e.sequence

lemma Written.of_sublist (h : Written es) (hs : fs.Sublist es) : Written fs where
  shaped e he := h.shaped e (hs.subset he)
  ascending := h.ascending.sublist hs
  positive e he := h.positive e (hs.subset he)

structure Contents.Log (C : Contents) : Prop where
  written : ∀ id, Written (C id)
  units : ∀ id, Units (C id)
  apart : ∀ id id', ∀ e ∈ C id, ∀ e' ∈ C id', e.sequence = e'.sequence → id = id'

structure Mirror (C : Contents) (s : EngineState) : Prop where
  log : C.Log
  indexed : Indexed C (boundsOf C) s
  known : ∀ id, C id ≠ [] → (s.fileStats.get id).isSome
  active : (s.fileStats.get s.activeFileId).isSome
  positive : 0 < s.nextSeq
  below : ∀ id, ∀ e ∈ C id, e.sequence < s.nextSeq
  ordered : s.changeMarkers.Pairwise (fun a b => a.sinceSequence < b.sinceSequence)
  markers : ∀ m, m ∈ s.changeMarkers ↔ ∃ id, m ∈ markersIn (C id)

lemma mem_markersIn {m : ChangeMarker} : m ∈ markersIn es ↔
    ∃ e ∈ es, e.entryType = .changeMarker ∧ m = ⟨e.sequence, decodeMarkerId e.value⟩ := by
  simp only [markersIn, mem_map, mem_filter, decide_eq_true_eq, and_assoc, @eq_comm _ m]

lemma markersIn_append (es fs : List DataEntry) : markersIn (es ++ fs) = markersIn es ++ markersIn fs := by
  simp [markersIn]

lemma Written.append (he : Written es) (hf : Written fs)
    (hlt : ∀ e ∈ es, ∀ f ∈ fs, e.sequence < f.sequence) : Written (es ++ fs) where
  shaped e h := (mem_append.1 h).elim (he.shaped e) (hf.shaped e)
  ascending := pairwise_append.2 ⟨he.ascending, hf.ascending, hlt⟩
  positive e h := (mem_append.1 h).elim (he.positive e) (hf.positive e)

lemma Written.tail {e : DataEntry} (h : Written (e :: es)) : Written es where
  shaped x hx := h.shaped x (mem_cons_of_mem e hx)
  ascending := (pairwise_cons.1 h.ascending).2
  positive x hx := h.positive x (mem_cons_of_mem e hx)

namespace EngineState

variable (s : EngineState) (es : List (DataEntry × ℕ))

def applyEntries (s : EngineState) (es : List (DataEntry × ℕ)) : EngineState :=
  es.foldl (fun t p => t.applyIngestEntry p.1 p.2) s

lemma applyEntries_cons (p : DataEntry × ℕ) (es : List (DataEntry × ℕ)) :
    s.applyEntries (p :: es) = (s.applyIngestEntry p.1 p.2).applyEntries es := rfl

lemma applyEntries_rest : (s.applyEntries es).rest = s.rest := by
  induction es generalizing s with
  | nil => rfl
  | cons p es ih => rw [applyEntries_cons, ih, applyIngestEntry_rest]

lemma applyEntries_changeMarkers : (s.applyEntries es).changeMarkers = s.changeMarkers ++ markersIn (es.map Prod.fst) := by
  induction es generalizing s with
  | nil => simp [applyEntries, markersIn]
  | cons p es ih =>
    rw [applyEntries_cons, ih, applyIngestEntry_changeMarkers, append_assoc]
    cases ht : p.1.entryType <;> simp [markersIn, ht]

lemma applyEntries_isSome (id : FileId) : ((s.applyEntries es).fileStats.get id).isSome = (s.fileStats.get id).isSome := by
  induction es generalizing s with
  | nil => rfl
  | cons p es ih => rw [applyEntries_cons, ih, applyIngestEntry_isSome]

end EngineState

section Append

variable {C : Contents} {B : FileId → ℕ × ℕ} {s : EngineState}

lemma Indexed.entries (h : Indexed C B s) {es : List DataEntry} (hw : Written es)
    (hnew : ∀ id, ∀ x ∈ C id, ∀ e ∈ es, x.sequence < e.sequence) :
    Indexed (C.extend s.activeFileId es) B (s.applyEntries (located (bytesOf (C s.activeFileId)) es)) := by
  induction es generalizing C s with
  | nil => simpa [applyEntries, located] using h
  | cons e es ih =>
    obtain ⟨hlt, -⟩ := pairwise_cons.1 hw.ascending
    have hstep := h.entry (hw.shaped e mem_cons_self) (fun id x hx => hnew id x hx e mem_cons_self)
    have hact := s.applyIngestEntry_activeFileId e (bytesOf (C s.activeFileId))
    have hrest := ih hstep hw.tail (by
      intro id x hx y hy
      rcases mem_extend.1 hx with hx | ⟨-, hx⟩
      · exact hnew id x hx y (mem_cons_of_mem e hy)
      · rw [mem_singleton.1 hx]
        exact hlt y hy)
    rw [hact, extend_extend, extend_self] at hrest
    simpa [applyEntries, located] using hrest

lemma Indexed.patch_bounds (h : Indexed C B s) (a : FileId) (lo hi : ℕ) :
    Indexed C (Function.update B a (if (B a).1 = 0 then lo else (B a).1, max (B a).2 hi))
      (s.patch a { minSequence := lo, maxSequence := hi }) where
  keys := h.keys
  stats id st hst := by
    rw [get_patch, Option.map_eq_some_iff] at hst
    obtain ⟨st', hst', rfl⟩ := hst
    rw [h.stats id st' hst']
    by_cases hid : id = a
    · subst hid
      rw [if_pos rfl, Function.update_self]
      rfl
    · rw [if_neg hid, Function.update_of_ne hid]
      rfl

end Append

section Bounds

variable {es : List DataEntry} {e : DataEntry}

lemma foldl_max_ascending (h : es.Pairwise (fun a b => a.sequence < b.sequence)) {m : ℕ} (hm : ∀ e ∈ es, m ≤ e.sequence) :
    es.foldl (fun m e => max m e.sequence) m = (es.getLast?.map DataEntry.sequence).getD m := by
  induction es generalizing m with
  | nil => rfl
  | cons e es ih =>
    obtain ⟨hlt, h⟩ := pairwise_cons.1 h
    rw [foldl_cons, max_eq_right (hm e mem_cons_self), ih h (fun x hx => (hlt x hx).le), List.getLast?_cons]
    cases es.getLast? <;> rfl

def lastSeq (es : List DataEntry) : ℕ := es.foldl (fun m e => max m e.sequence) 0

lemma Written.lastSeq_eq (h : Written es) : lastSeq es = (es.getLast?.map DataEntry.sequence).getD 0 :=
  foldl_max_ascending h.ascending (fun _ _ => Nat.zero_le _)

lemma Written.lastSeq_mem (h : Written es) (hne : es ≠ []) : ∃ e ∈ es, e.sequence = lastSeq es := by
  rw [h.lastSeq_eq, List.getLast?_eq_some_getLast hne]
  exact ⟨es.getLast hne, getLast_mem hne, rfl⟩

lemma le_lastSeq (he : e ∈ es) : e.sequence ≤ lastSeq es := by
  have haux : ∀ (es : List DataEntry) (m : ℕ), m ≤ es.foldl (fun m e => max m e.sequence) m ∧
      ∀ e ∈ es, e.sequence ≤ es.foldl (fun m e => max m e.sequence) m := by
    intro es
    induction es with
    | nil => exact fun m => ⟨le_rfl, by simp⟩
    | cons x es ih =>
      intro m
      obtain ⟨h₁, h₂⟩ := ih _
      refine ⟨(le_max_left _ _).trans h₁, fun e he => ?_⟩
      rcases mem_cons.1 he with rfl | he
      · exact (le_max_right _ _).trans h₁
      · exact h₂ e he
  exact (haux es 0).2 e he

lemma boundsOf_extend {C : Contents} {a : FileId} (hC : Written (C a))
    (hw : Written (e :: es)) (hlt : ∀ x ∈ C a, x.sequence < e.sequence) :
    boundsOf (C.extend a (e :: es)) = Function.update (boundsOf C) a
      (if (boundsOf C a).1 = 0 then e.sequence else (boundsOf C a).1, max (boundsOf C a).2 (lastSeq (e :: es))) := by
  funext id
  by_cases hid : id = a
  · subst hid
    have hlast : ((C id ++ e :: es).getLast?.map DataEntry.sequence).getD 0 = lastSeq (e :: es) := by
      rw [List.getLast?_append_cons, hw.lastSeq_eq]
    rw [Function.update_self, boundsOf, extend_self, hlast]
    cases hl : C id with
    | nil => simp [boundsOf, hl]
    | cons x xs =>
      have hx : x ∈ C id := hl ▸ mem_cons_self
      have hpos := hC.positive x hx
      have hold : (boundsOf C id).2 ≤ lastSeq (e :: es) := by
        rw [boundsOf, ← hC.lastSeq_eq]
        obtain ⟨y, hy, hy'⟩ := hC.lastSeq_mem (ne_nil_of_mem hx)
        rw [← hy']
        exact (hlt y hy).le.trans (le_lastSeq mem_cons_self)
      rw [max_eq_right hold]
      simp [boundsOf, hl, Nat.ne_of_gt hpos]
  · rw [Function.update_of_ne hid, boundsOf, extend_ne C hid]
    rfl

end Bounds

section Ingest

variable {C : Contents} {s : EngineState}
variable {es : List DataEntry}

lemma zip_located (start : ℕ) (es : List DataEntry) :
    es.zip ((located start es).map Prod.snd) = located start es := by
  induction es generalizing start with
  | nil => rfl
  | cons e es ih => simp [located, ih]

def offsetsFrom (size : ℕ) (es : List DataEntry) : List ℕ := (located size es).map Prod.snd

lemma EngineState.applyIngest_eq (s : EngineState) (size : ℕ) (e : DataEntry) (es : List DataEntry) :
    s.applyIngest (e :: es) (offsetsFrom size (e :: es)) =
      ({ s.applyEntries (located size (e :: es)) with
        nextSeq := if s.nextSeq ≤ lastSeq (e :: es) then lastSeq (e :: es) + 1 else s.nextSeq } : EngineState).patch
        s.activeFileId { minSequence := e.sequence, maxSequence := lastSeq (e :: es) } := by
  have hnext : (s.applyEntries (located size (e :: es))).nextSeq = s.nextSeq := by
    have h := congrArg nextSeq (s.applyEntries_rest (located size (e :: es)))
    exact h
  rw [applyIngest, offsetsFrom, zip_located, ← applyEntries, hnext]
  rfl

section Fields

variable (s : EngineState) (size : ℕ) (es : List DataEntry)

lemma EngineState.applyIngest_keyDir : (s.applyIngest es (offsetsFrom size es)).keyDir =
    (s.applyEntries (located size es)).keyDir := by
  cases es with
  | nil => rfl
  | cons e es => rw [applyIngest_eq, patch_keyDir]

lemma EngineState.applyIngest_changeMarkers : (s.applyIngest es (offsetsFrom size es)).changeMarkers =
    s.changeMarkers ++ markersIn es := by
  have h := s.applyEntries_changeMarkers (located size es)
  rw [located_map_fst] at h
  cases es with
  | nil => exact h
  | cons e es =>
    rw [applyIngest_eq, patch_changeMarkers]
    exact h

lemma EngineState.applyIngest_isSome (id : FileId) :
    ((s.applyIngest es (offsetsFrom size es)).fileStats.get id).isSome = (s.fileStats.get id).isSome := by
  cases es with
  | nil => rfl
  | cons e es =>
    rw [applyIngest_eq, get_patch, Option.isSome_map]
    exact s.applyEntries_isSome _ id

lemma EngineState.applyIngest_rest (hne : es ≠ []) (hnew : ∀ e ∈ es, s.nextSeq ≤ e.sequence) :
    (s.applyIngest es (offsetsFrom size es)).rest = { s.rest with nextSeq := lastSeq es + 1 } := by
  obtain ⟨e, es, rfl⟩ := exists_cons_of_ne_nil hne
  have hle : s.nextSeq ≤ lastSeq (e :: es) := (hnew e mem_cons_self).trans (le_lastSeq mem_cons_self)
  have hrest := s.applyEntries_rest (located size (e :: es))
  rw [applyIngest_eq, if_pos hle, ← hrest]
  rfl

end Fields

lemma Contents.Log.extend (h : C.Log) {a : FileId} (hw : Written es) (hu : Units es)
    (hnew : ∀ id, ∀ x ∈ C id, ∀ e ∈ es, x.sequence < e.sequence) : (C.extend a es).Log where
  written id := by
    by_cases hid : id = a
    · subst hid
      rw [extend_self]
      exact (h.written id).append hw (hnew id)
    · rw [extend_ne C hid]
      exact h.written id
  units id := by
    by_cases hid : id = a
    · subst hid
      rw [extend_self]
      exact (h.units id).append hu
    · rw [extend_ne C hid]
      exact h.units id
  apart id id' e he e' he' hseq := by
    rcases mem_extend.1 he with h₁ | ⟨h₁, h₁'⟩ <;> rcases mem_extend.1 he' with h₂ | ⟨h₂, h₂'⟩
    · exact h.apart id id' e h₁ e' h₂ hseq
    · exact absurd hseq (hnew id e h₁ e' h₂').ne
    · exact absurd hseq.symm (hnew id' e' h₂ e h₁').ne
    · exact h₁.trans h₂.symm

lemma markersIn_ordered (h : es.Pairwise (fun a b => a.sequence < b.sequence)) :
    (markersIn es).Pairwise (fun a b => a.sinceSequence < b.sinceSequence) :=
  pairwise_map.2 (h.sublist filter_sublist)

lemma Mirror.ingest (h : Mirror C s) (hne : es ≠ []) (hw : Written es) (hu : Units es) (hnew : ∀ e ∈ es, s.nextSeq ≤ e.sequence) :
    Mirror (C.extend s.activeFileId es) (s.applyIngest es (offsetsFrom (bytesOf (C s.activeFileId)) es)) := by
  obtain ⟨e, es, rfl⟩ := exists_cons_of_ne_nil hne
  have hlt : ∀ id, ∀ x ∈ C id, ∀ y ∈ e :: es, x.sequence < y.sequence :=
    fun id x hx y hy => (h.below id x hx).trans_le (hnew y hy)
  have hle : s.nextSeq ≤ lastSeq (e :: es) := (hnew e mem_cons_self).trans (le_lastSeq mem_cons_self)
  have hi := h.indexed.entries hw hlt
  have hmarkers := s.applyEntries_changeMarkers (located (bytesOf (C s.activeFileId)) (e :: es))
  rw [located_map_fst] at hmarkers
  have hdom := s.applyEntries_isSome (located (bytesOf (C s.activeFileId)) (e :: es))
  have hact : (s.applyEntries (located (bytesOf (C s.activeFileId)) (e :: es))).activeFileId = s.activeFileId := by
    have hrest := congrArg activeFileId (s.applyEntries_rest (located (bytesOf (C s.activeFileId)) (e :: es)))
    exact hrest
  rw [applyIngest_eq, if_pos hle]
  generalize s.applyEntries (located (bytesOf (C s.activeFileId)) (e :: es)) = t at hi hmarkers hdom hact
  refine ⟨h.log.extend hw hu hlt, ?_, ?_, ?_, Nat.succ_pos _, ?_, ?_, ?_⟩
  · rw [boundsOf_extend (h.log.written _) hw (fun x hx => hlt _ x hx e mem_cons_self)]
    exact Indexed.patch_bounds (s := { t with nextSeq := lastSeq _ + 1 }) ⟨hi.keys, hi.stats⟩ _ _ _
  · intro id hid
    rw [get_patch, Option.isSome_map]
    refine (hdom id).trans ?_
    by_cases hid' : id = s.activeFileId
    · rw [hid']
      exact h.active
    · rw [extend_ne C hid'] at hid
      exact h.known id hid
  · rw [get_patch, Option.isSome_map]
    refine (hdom _).trans ?_
    exact hact ▸ h.active
  · intro id x hx
    show x.sequence < lastSeq (e :: es) + 1
    rcases mem_extend.1 hx with hx | ⟨-, hx⟩
    · have := h.below id x hx
      omega
    · exact Nat.lt_succ_of_le (le_lastSeq hx)
  · show t.changeMarkers.Pairwise _
    rw [hmarkers]
    refine pairwise_append.2 ⟨h.ordered, markersIn_ordered hw.ascending, ?_⟩
    intro m hm m' hm'
    obtain ⟨id, hm⟩ := (h.markers m).1 hm
    obtain ⟨x, hx, -, rfl⟩ := mem_markersIn.1 hm
    obtain ⟨y, hy, -, rfl⟩ := mem_markersIn.1 hm'
    exact hlt id x hx y hy
  · intro m
    show m ∈ t.changeMarkers ↔ _
    rw [hmarkers, mem_append, h.markers]
    simp only [mem_markersIn, mem_extend]
    constructor
    · rintro (⟨id, x, hx, hm⟩ | ⟨x, hx, hm⟩)
      · exact ⟨id, x, .inl hx, hm⟩
      · exact ⟨s.activeFileId, x, .inr ⟨rfl, hx⟩, hm⟩
    · rintro ⟨id, x, hx | ⟨-, hx⟩, hm⟩
      · exact .inl ⟨id, x, hx, hm⟩
      · exact .inr ⟨x, hx, hm⟩

end Ingest

end Bytecask
