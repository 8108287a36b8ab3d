import Bytecask.Vacuum

/-! What the scan of a vacuum copies, and what it says about the copy. -/

namespace Bytecask

open List VacuumScanResult

lemma located_pairwise (start : ℕ) (es : List DataEntry) : (located start es).Pairwise (fun a b => a.2 < b.2) := by
  induction es generalizing start with
  | nil => exact .nil
  | cons e es ih =>
    refine pairwise_cons.2 ⟨fun p hp => ?_, ih _⟩
    have hle := located_start_le (e := p.1) (o := p.2) hp
    have hpos := e.size_pos
    omega

lemma lastSeq_append_singleton (es : List DataEntry) (e : DataEntry) : lastSeq (es ++ [e]) = max (lastSeq es) e.sequence := by
  simp [lastSeq]

namespace VacuumScan

def keeps (v : VacuumScan) (p : DataEntry × ℕ) : Bool :=
  match p.1.entryType with
  | .put => v.isLive p.1 p.2 || v.retainAfter < p.1.sequence
  | .delete | .rangeDel => v.retainAfter < p.1.sequence || !v.needed.droppable p.1.sequence
  | .changeMarker | .bulkBegin | .bulkEnd => true

def copies (v : VacuumScan) (es : List (DataEntry × ℕ)) : List DataEntry := (es.filter v.keeps).map Prod.fst

structure Copied (v : VacuumScan) (es : List (DataEntry × ℕ)) (r : VacuumScanResult) : Prop where
  copied : r.copied = v.copies es
  total : r.totalBytes = bytesOf r.copied
  tombstones : r.tombstoneBytes = tombstoneBytesOf r.copied
  markers : r.markerBytes = markerBytesOf r.copied
  changeMarkers : r.changeMarkerBytes = changeMarkerBytesOf r.copied
  first : r.minSequence = (r.copied.head?.map DataEntry.sequence).getD 0
  last : r.maxSequence = lastSeq r.copied
  live : r.liveBytes = (r.mappings.map (fun m => entrySize m.key.length m.valueSize)).sum
  sound : ∀ m ∈ r.mappings, ∃ e o, (e, o) ∈ es ∧ e.entryType = .put ∧ v.isLive e o = true ∧
    (e, m.newOffset) ∈ located 0 r.copied ∧ m = ⟨e.key, m.newOffset, e.sequence, e.value.length⟩
  complete : ∀ e o, (e, o) ∈ es → e.entryType = .put → v.isLive e o = true →
    ∃ n, ⟨e.key, n, e.sequence, e.value.length⟩ ∈ r.mappings
  distinct : r.mappings.Pairwise (fun a b => a.key ≠ b.key)
  finished : r.cancelled = false

variable {v : VacuumScan} {es : List (DataEntry × ℕ)} {r : VacuumScanResult} {e : DataEntry} {o : ℕ}

lemma copied_nil (v : VacuumScan) : Copied v [] {} where
  copied := rfl
  total := rfl
  tombstones := rfl
  markers := rfl
  changeMarkers := rfl
  first := rfl
  last := rfl
  live := rfl
  sound := by simp
  complete := by simp
  distinct := .nil
  finished := rfl

lemma copies_append_singleton (es : List (DataEntry × ℕ)) (p : DataEntry × ℕ) :
    v.copies (es ++ [p]) = v.copies es ++ if v.keeps p then [p.1] else [] := by
  by_cases h : v.keeps p <;> simp [copies, h]

lemma Copied.first_copy (h : Copied v es r) (hpos : ∀ p ∈ es, 0 < p.1.sequence) (e : DataEntry) :
    (if r.minSequence = 0 then e.sequence else r.minSequence) = ((r.copied ++ [e]).head?.map DataEntry.sequence).getD 0 := by
  have hmem : ∀ x ∈ r.copied, 0 < x.sequence := by
    intro x hx
    rw [h.copied, copies] at hx
    obtain ⟨p, hp, rfl⟩ := mem_map.1 hx
    exact hpos p (mem_filter.1 hp).1
  rw [h.first]
  cases hc : r.copied with
  | nil => simp
  | cons x xs =>
    have hx := hmem x (hc ▸ mem_cons_self)
    simp [Nat.ne_of_gt hx]

lemma Copied.skip (h : Copied v es r) (hk : v.keeps (e, o) = false) : Copied v (es ++ [(e, o)]) r := by
  have hdead : e.entryType = .put → v.isLive e o ≠ true := by
    intro ht hl
    simp [keeps, ht, hl] at hk
  refine { h with copied := ?_, sound := ?_, complete := ?_ }
  · rw [copies_append_singleton, hk, h.copied]
    simp
  · intro m hm
    obtain ⟨x, n, hx, hrest⟩ := h.sound m hm
    exact ⟨x, n, mem_append_left _ hx, hrest⟩
  · intro x n hx ht hl
    rcases mem_append.1 hx with hx | hx
    · exact h.complete x n hx ht hl
    · obtain ⟨rfl, rfl⟩ := Prod.mk.inj (mem_singleton.1 hx)
      exact absurd hl (hdead ht)

def mappingsOf (v : VacuumScan) (e : DataEntry) (o offset : ℕ) : List VacuumMapping :=
  if e.entryType = .put ∧ v.isLive e o = true then [⟨e.key, offset, e.sequence, e.value.length⟩] else []

lemma isLive_unique {e' : DataEntry} {o' : ℕ} (h : v.isLive e o = true) (h' : v.isLive e' o' = true) (hkey : e.key = e'.key) :
    o = o' := by
  rw [isLive, Option.any_eq_true] at h h'
  obtain ⟨d, hd, ho⟩ := h
  obtain ⟨d', hd', ho'⟩ := h'
  rw [hkey, hd'] at hd
  obtain rfl := Option.some.inj hd
  simp only [Bool.and_eq_true, decide_eq_true_eq] at ho ho'
  exact ho.2.symm.trans ho'.2

lemma Copied.keep (h : Copied v es r) (hpos : ∀ p ∈ es, 0 < p.1.sequence) (hnew : ∀ p ∈ es, p.2 ≠ o)
    (hk : v.keeps (e, o) = true) : Copied v (es ++ [(e, o)]) { r.copy e with
      tombstoneBytes := r.tombstoneBytes + tombstoneSize e.entryType e.key.length e.value.length
      markerBytes := r.markerBytes + markerSize e.entryType
      changeMarkerBytes := r.changeMarkerBytes + changeMarkerSize e.entryType
      liveBytes := r.liveBytes + ((v.mappingsOf e o 0).map (fun m => entrySize m.key.length m.valueSize)).sum
      mappings := r.mappings ++ v.mappingsOf e o (bytesOf r.copied) } where
  copied := by
    rw [copies_append_singleton, hk, ← h.copied]
    rfl
  total := by
    show r.totalBytes + e.size = bytesOf (r.copied ++ [e])
    rw [h.total]
    simp
  tombstones := by
    show r.tombstoneBytes + _ = tombstoneBytesOf (r.copied ++ [e])
    rw [h.tombstones]
    simp [tombstoneBytesOf]
  markers := by
    show r.markerBytes + _ = markerBytesOf (r.copied ++ [e])
    rw [h.markers]
    simp [markerBytesOf]
  changeMarkers := by
    show r.changeMarkerBytes + _ = changeMarkerBytesOf (r.copied ++ [e])
    rw [h.changeMarkers]
    simp [changeMarkerBytesOf]
  first := h.first_copy hpos e
  last := by
    show max r.maxSequence e.sequence = lastSeq (r.copied ++ [e])
    rw [lastSeq_append_singleton, h.last]
  live := by
    simp only [map_append, sum_append, h.live, mappingsOf]
    split_ifs <;> rfl
  sound := by
    intro m hm
    show ∃ x n, (x, n) ∈ es ++ [(e, o)] ∧ x.entryType = .put ∧ v.isLive x n = true ∧
      (x, m.newOffset) ∈ located 0 (r.copied ++ [e]) ∧ m = ⟨x.key, m.newOffset, x.sequence, x.value.length⟩
    rw [located_append]
    rcases mem_append.1 hm with hm | hm
    · obtain ⟨x, n, hx, hput, hl, hloc, heq⟩ := h.sound m hm
      exact ⟨x, n, mem_append_left _ hx, hput, hl, mem_append_left _ hloc, heq⟩
    · rw [mappingsOf] at hm
      split_ifs at hm with hlive
      · obtain rfl := mem_singleton.1 hm
        exact ⟨e, o, by simp, hlive.1, hlive.2, by simp [located], rfl⟩
      · cases hm
  complete := by
    intro x n hx hput hl
    rcases mem_append.1 hx with hx | hx
    · obtain ⟨n', hn'⟩ := h.complete x n hx hput hl
      exact ⟨n', mem_append_left _ hn'⟩
    · obtain ⟨rfl, rfl⟩ := Prod.mk.inj (mem_singleton.1 hx)
      exact ⟨bytesOf r.copied, mem_append_right _ (by simp [mappingsOf, hput, hl])⟩
  distinct := by
    refine pairwise_append.2 ⟨h.distinct, ?_, fun m hm m' hm' hkey => ?_⟩
    · rw [mappingsOf]
      split_ifs <;> simp
    · rw [mappingsOf] at hm'
      split_ifs at hm' with hlive
      · obtain rfl := mem_singleton.1 hm'
        obtain ⟨x, n, hx, -, hl, -, heq⟩ := h.sound m hm
        rw [heq] at hkey
        exact hnew _ hx (isLive_unique hl hlive.2 hkey)
      · cases hm'
  finished := h.finished

lemma Copied.keepOther (h : Copied v es r) (hpos : ∀ p ∈ es, 0 < p.1.sequence) (hnew : ∀ p ∈ es, p.2 ≠ o)
    (hk : v.keeps (e, o) = true) (ht : e.entryType ≠ .put) : Copied v (es ++ [(e, o)]) { r.copy e with
      tombstoneBytes := r.tombstoneBytes + tombstoneSize e.entryType e.key.length e.value.length
      markerBytes := r.markerBytes + markerSize e.entryType
      changeMarkerBytes := r.changeMarkerBytes + changeMarkerSize e.entryType } := by
  simpa [mappingsOf, ht, VacuumScanResult.copy, trackSeq] using h.keep hpos hnew hk

lemma Copied.step (h : Copied v es r) (hpos : ∀ p ∈ es, 0 < p.1.sequence) (hnew : ∀ p ∈ es, p.2 ≠ o) (hs : e.Shaped) :
    Copied v (es ++ [(e, o)]) (v.emitEntry r (e, o)) := by
  have hkeep := h.keepOther (e := e) (o := o) hpos hnew
  have hskip := h.skip (e := e) (o := o)
  obtain ⟨seq, type, key, value⟩ := e
  have htomb (ht : type = .delete ∨ type = .rangeDel) : Copied v (es ++ [(⟨seq, type, key, value⟩, o)])
      (if seq ≤ v.retainAfter ∧ v.needed.droppable seq then r
        else { r.copy ⟨seq, type, key, value⟩ with
          tombstoneBytes := r.tombstoneBytes + DataEntry.size ⟨seq, type, key, value⟩ }) := by
    split_ifs with hd
    · refine hskip ?_
      rcases ht with rfl | rfl <;> simp [keeps, hd.1, hd.2]
    · have hk : v.keeps (⟨seq, type, key, value⟩, o) = true := by
        rcases ht with rfl | rfl <;> simp only [keeps, Bool.or_eq_true, decide_eq_true_eq, Bool.not_eq_true',
          ← Bool.not_eq_true, ← not_le, ← not_and_or] <;> exact hd
      rcases ht with rfl | rfl <;> exact hkeep hk (by simp)
  cases type with
  | put =>
    have hput := h.keep (e := ⟨seq, .put, key, value⟩) (o := o) hpos hnew
    simp only [emitEntry]
    split_ifs with hl hr
    · simpa [keeps, hl, mappingsOf, tombstoneSize, markerSize, changeMarkerSize, VacuumScanResult.copy,
        trackSeq, DataEntry.size] using hput
    · simpa [keeps, hl, hr, mappingsOf, tombstoneSize, markerSize, changeMarkerSize, VacuumScanResult.copy,
        trackSeq] using hput
    · exact hskip (by simpa [keeps, hl] using hr)
  | delete => exact htomb (.inl rfl)
  | rangeDel => exact htomb (.inr rfl)
  | changeMarker =>
    obtain ⟨rfl, hv⟩ := hs
    have hsize : DataEntry.size ⟨seq, .changeMarker, [], value⟩ = changeMarkerSize .changeMarker := by
      simp [DataEntry.size, changeMarkerSize, hv]
    simp only [emitEntry, hsize]
    exact hkeep rfl (by simp)
  | bulkBegin | bulkEnd =>
    obtain ⟨rfl, rfl⟩ := hs
    exact hkeep rfl (by simp)

lemma emitAll_copied (v : VacuumScan) (hs : ∀ p ∈ es, p.1.Shaped) (hpos : ∀ p ∈ es, 0 < p.1.sequence)
    (hoff : es.Pairwise (fun a b => a.2 ≠ b.2)) : Copied v es (v.emitAll es) := by
  induction es using List.reverseRecOn with
  | nil => exact copied_nil v
  | append_singleton es p ih =>
    obtain ⟨hes, -, hne⟩ := pairwise_append.1 hoff
    have hprev := ih (fun q hq => hs q (mem_append_left _ hq)) (fun q hq => hpos q (mem_append_left _ hq)) hes
    rw [emitAll, foldl_append]
    exact hprev.step (fun q hq => hpos q (mem_append_left _ hq)) (fun q hq => hne q hq p mem_cons_self)
      (hs p (by simp))

section Units

variable {u fs : List DataEntry} {start : ℕ}

lemma copies_append (ps qs : List (DataEntry × ℕ)) : v.copies (ps ++ qs) = v.copies ps ++ v.copies qs := by
  simp [copies]

lemma copies_sublist (v : VacuumScan) (start : ℕ) (fs : List DataEntry) : (v.copies (located start fs)).Sublist fs := by
  have h : ((located start fs).filter v.keeps).map Prod.fst |>.Sublist ((located start fs).map Prod.fst) :=
    filter_sublist.map _
  rwa [located_map_fst] at h

lemma copies_unit (v : VacuumScan) (start : ℕ) (hu : IsUnit u) : v.copies (located start u) = [] ∨
    (IsUnit (v.copies (located start u)) ∧ (v.copies (located start u)).head? = u.head?) := by
  cases hu with
  | @single e ht =>
    by_cases hk : v.keeps (e, start) = true
    · refine .inr ?_
      have heq : v.copies (located start [e]) = [e] := by simp [copies, located, hk]
      rw [heq]
      exact ⟨.single ht, rfl⟩
    · exact .inl (by simp [copies, located, hk])
  | @batch b e es hb he hes =>
    have heq : v.copies (located start (b :: es ++ [e])) = b :: v.copies (located (start + b.size) es) ++ [e] := by
      rw [cons_append, located, located_append, ← singleton_append, copies_append, copies_append]
      simp [copies, located, keeps, hb, he]
    refine .inr ?_
    rw [heq]
    exact ⟨.batch hb he fun x hx => hes x ((copies_sublist v _ es).subset hx), rfl⟩

lemma copies_units (v : VacuumScan) (start : ℕ) (hfs : Units fs) : Units (v.copies (located start fs)) := by
  induction hfs generalizing start with
  | nil => exact .nil
  | @cons u es hu _ ih =>
    rw [located_append, copies_append]
    rcases copies_unit v start hu with hnil | ⟨hunit, -⟩
    · rw [hnil]
      exact ih _
    · exact .cons hunit (ih _)

end Units

end VacuumScan

end Bytecask
