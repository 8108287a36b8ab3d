import Bytecask.Recovery.Streams

/-! What the first phase of recovery learns from one sorted hint: its bounds and counts, its range
tombstones and markers, and positions from which no key at or above a bound is missed. -/

namespace Bytecask.Recovery

open List Scanner

variable {es before : List HintEntry} {h : HintFile} {p : Position} (fileId : FileId) (l : List (Position × HintEntry))
variable (run : FileRun)

/-- A hint as `flush_hints_for` writes it: keyless entries and range tombstones ahead of one run of
Put and Delete entries in key order. -/
def SortedHint (es : List HintEntry) : Prop :=
  ∃ head data, es = head ++ data ∧ (∀ he ∈ head, he.entryType.isData = false) ∧
    (∀ he ∈ data, he.entryType.isData = true) ∧ data.Pairwise (fun a b => a.key ≤ b.key)

def dataOf (es : List HintEntry) : List HintEntry := es.filter (fun he => he.entryType.isData)

def tombstonesOf (fileId : FileId) (es : List HintEntry) : List RangeTombstone :=
  (es.filter (fun he => he.entryType = .rangeDel)).map (fun he => ⟨he.key, he.endKey, he.sequence, fileId, false⟩)

def markersOf (es : List HintEntry) : List ChangeMarker :=
  (es.filter (fun he => he.entryType = .changeMarker)).map (fun he => ⟨he.sequence, he.markerId⟩)

def maxSeqOf (es : List HintEntry) : ℕ := es.foldl (fun m he => max m he.sequence) 0

lemma markersOf_cons (he : HintEntry) (es : List HintEntry) : markersOf (he :: es) = markersOf [he] ++ markersOf es := by
  simp only [markersOf, ← map_append, ← filter_append, singleton_append]

lemma tombstonesOf_cons (he : HintEntry) (es : List HintEntry) :
    tombstonesOf fileId (he :: es) = tombstonesOf fileId [he] ++ tombstonesOf fileId es := by
  simp only [tombstonesOf, ← map_append, ← filter_append, singleton_append]

lemma SortedHint.data_sorted (h : SortedHint es) : (dataOf es).Pairwise (fun a b => a.key ≤ b.key) := by
  obtain ⟨head, data, rfl, hh, hd, hs⟩ := h
  have h₁ : dataOf head = [] := filter_eq_nil_iff.2 (fun he hm => by simp [hh he hm])
  have h₂ : dataOf data = data := filter_eq_self.2 hd
  rw [dataOf, filter_append]
  rw [dataOf] at h₁ h₂
  rwa [h₁, h₂]

section Fields

variable (fileId : FileId) (run : FileRun) (p : Position × HintEntry)
variable {f : Fence} (pos : Position)

lemma enter_frame : (run.enter pos).hint = run.hint ∧ (run.enter pos).stats = run.stats ∧
    (run.enter pos).maxSeq = run.maxSeq ∧ (run.enter pos).markers = run.markers ∧
    (run.enter pos).rangeTombstones = run.rangeTombstones ∧ (run.enter pos).fences = run.fences ∧
    (run.enter pos).inData = true ∧
    (run.enter pos).dataStart = if run.inData then run.dataStart else pos := by
  unfold FileRun.enter
  split_ifs with h
  · simp [h]
  · simp

lemma fence_frame (key : Bytes) : (run.fence pos key).hint = run.hint ∧
    (run.fence pos key).stats = run.stats ∧ (run.fence pos key).maxSeq = run.maxSeq ∧
    (run.fence pos key).markers = run.markers ∧ (run.fence pos key).rangeTombstones = run.rangeTombstones ∧
    (run.fence pos key).inData = run.inData ∧ (run.fence pos key).dataStart = run.dataStart := by
  unfold FileRun.fence
  split_ifs <;> simp

lemma data_frame (he : HintEntry) : (run.data pos he).hint = run.hint ∧
    (run.data pos he).stats = run.stats ∧ (run.data pos he).maxSeq = run.maxSeq ∧
    (run.data pos he).markers = run.markers ∧ (run.data pos he).rangeTombstones = run.rangeTombstones ∧
    (run.data pos he).inData = true ∧
    (run.data pos he).dataStart = if run.inData then run.dataStart else pos := by
  obtain ⟨h₁, h₂, h₃, h₄, h₅, -, h₆, h₇⟩ := enter_frame run pos
  by_cases hk : run.prevKey = some he.key
  · rw [FileRun.data, if_pos hk]
    exact ⟨h₁, h₂, h₃, h₄, h₅, h₆, h₇⟩
  · obtain ⟨f₁, f₂, f₃, f₄, f₅, f₆, f₇⟩ := fence_frame _ pos he.key
    rw [FileRun.data, if_neg hk]
    exact ⟨f₁.trans h₁, f₂.trans h₂, f₃.trans h₃, f₄.trans h₄, f₅.trans h₅, f₆.trans h₆, f₇.trans h₇⟩

lemma mem_data_fences (he : HintEntry) (h : f ∈ (run.data pos he).fences) : f ∈ run.fences ∨ f = ⟨he.key, pos⟩ := by
  obtain ⟨-, -, -, -, -, hf, -⟩ := enter_frame run pos
  unfold FileRun.data FileRun.fence at h
  rw [← hf]
  split_ifs at h
  · exact .inl h
  · simpa using h
  · exact .inl h

@[simp] lemma meet_hint : (run.meet fileId p).hint = run.hint := by
  unfold FileRun.meet
  split <;> simp [data_frame]

@[simp] lemma meet_stats : (run.meet fileId p).stats = countHint run.stats p.2 := by
  unfold FileRun.meet
  split <;> simp [data_frame]

@[simp] lemma meet_maxSeq : (run.meet fileId p).maxSeq = max run.maxSeq p.2.sequence := by
  unfold FileRun.meet
  split <;> simp [data_frame]

lemma meet_markers : (run.meet fileId p).markers = run.markers ++ markersOf [p.2] := by
  unfold FileRun.meet
  split <;> simp_all [markersOf, data_frame]

lemma meet_rangeTombstones :
    (run.meet fileId p).rangeTombstones = run.rangeTombstones ++ tombstonesOf fileId [p.2] := by
  unfold FileRun.meet
  split <;> simp_all [tombstonesOf, data_frame]

lemma meet_inData : (run.meet fileId p).inData = (run.inData || p.2.entryType.isData) := by
  unfold FileRun.meet
  split <;> simp_all [EntryType.isData, data_frame]

lemma meet_dataStart : (run.meet fileId p).dataStart =
    if run.inData = false ∧ p.2.entryType.isData then p.1 else run.dataStart := by
  unfold FileRun.meet
  cases hr : run.inData <;> split <;> simp_all [EntryType.isData, data_frame]

lemma mem_meet_fences (h : f ∈ (run.meet fileId p).fences) : f ∈ run.fences ∨ (f = ⟨p.2.key, p.1⟩ ∧ p.2.entryType.isData) := by
  cases hp : p.2.entryType
  case put | delete =>
    simp only [FileRun.meet, hp] at h
    rcases mem_data_fences _ _ _ h with hf | hf
    · exact .inl hf
    · exact .inr ⟨hf, rfl⟩
  all_goals
    simp only [FileRun.meet, hp] at h
    exact .inl h

end Fields

lemma foldlM_scanStep (h : ∀ before p after, l = before ++ p :: after → p.2.entryType = .rangeDel →
      run.inData = false ∧ ∀ q ∈ before, q.2.entryType.isData = false) :
    l.foldlM (scanStep fileId) run = .ok (l.foldl (FileRun.meet fileId) run) := by
  induction l generalizing run with
  | nil => rfl
  | cons p l ih =>
    have hstep : scanStep fileId run p = .ok (run.meet fileId p) := by
      refine if_neg (fun hp => ?_)
      obtain ⟨hr, hd⟩ := hp
      rw [(h [] p l rfl hr).1] at hd
      cases hd
    rw [foldlM_cons, hstep, foldl_cons]
    refine ih _ (fun before q after he hq => ?_)
    obtain ⟨hr, hb⟩ := h _ q after (by rw [he, cons_append]) hq
    refine ⟨?_, fun x hx => hb x (mem_cons_of_mem p hx)⟩
    rw [meet_inData, hr, hb p mem_cons_self]
    rfl

lemma foldl_meet_fields :
    (l.foldl (FileRun.meet fileId) run).hint = run.hint ∧
      (l.foldl (FileRun.meet fileId) run).stats = (l.map Prod.snd).foldl countHint run.stats ∧
      (l.foldl (FileRun.meet fileId) run).maxSeq =
        (l.map Prod.snd).foldl (fun m he => max m he.sequence) run.maxSeq ∧
      (l.foldl (FileRun.meet fileId) run).markers = run.markers ++ markersOf (l.map Prod.snd) ∧
      (l.foldl (FileRun.meet fileId) run).rangeTombstones =
        run.rangeTombstones ++ tombstonesOf fileId (l.map Prod.snd) := by
  induction l generalizing run with
  | nil => simp [markersOf, tombstonesOf]
  | cons p l ih =>
    obtain ⟨h₁, h₂, h₃, h₄, h₅⟩ := ih _
    refine ⟨?_, ?_, ?_, ?_, ?_⟩
    · rw [foldl_cons, h₁, meet_hint]
    · rw [foldl_cons, h₂, meet_stats, map_cons, foldl_cons]
    · rw [foldl_cons, h₃, meet_maxSeq, map_cons, foldl_cons]
    · rw [foldl_cons, h₄, meet_markers, append_assoc, map_cons]
      rw [markersOf_cons p.2 (l.map _)]
    · rw [foldl_cons, h₅, meet_rangeTombstones, append_assoc, map_cons]
      rw [tombstonesOf_cons fileId p.2 (l.map _)]

lemma foldl_meet_fences {f : Fence} (h : f ∈ (l.foldl (FileRun.meet fileId) run).fences) :
    f ∈ run.fences ∨ ∃ before he after, l = before ++ (f.at, he) :: after ∧ he.key = f.key ∧
      he.entryType.isData := by
  induction l generalizing run with
  | nil => exact .inl h
  | cons p l ih =>
    rcases ih (run.meet fileId p) h with hf | ⟨before, he, after, rfl, hk, hd⟩
    · rcases mem_meet_fences fileId run p hf with hf | ⟨rfl, hd⟩
      · exact .inl hf
      · exact .inr ⟨[], p.2, l, rfl, rfl, hd⟩
    · exact .inr ⟨p :: before, he, after, rfl, hk, hd⟩

lemma foldl_meet_dataStart (hr : run.inData = false) (hi : (l.foldl (FileRun.meet fileId) run).inData = true) :
    ∃ before he after, l = before ++ ((l.foldl (FileRun.meet fileId) run).dataStart, he) :: after ∧
      he.entryType.isData ∧ ∀ q ∈ before, q.2.entryType.isData = false := by
  induction l generalizing run with
  | nil =>
    rw [foldl_nil, hr] at hi
    cases hi
  | cons p l ih =>
    rw [foldl_cons] at hi ⊢
    cases hp : p.2.entryType.isData with
    | true =>
      have hin : (run.meet fileId p).inData = true := by rw [meet_inData, hp, Bool.or_true]
      have hkeep : ∀ (l : List (Position × HintEntry)) (run : FileRun), run.inData = true →
          (l.foldl (FileRun.meet fileId) run).dataStart = run.dataStart := by
        intro l
        induction l with
        | nil => intro run _; rfl
        | cons q l ih' =>
          intro run hrun
          rw [foldl_cons, ih' _ (by rw [meet_inData, hrun, Bool.true_or]), meet_dataStart]
          simp [hrun]
      refine ⟨[], p.2, l, ?_, hp, by simp⟩
      rw [hkeep l _ hin, meet_dataStart, if_pos ⟨hr, hp⟩, nil_append]
    | false =>
      obtain ⟨before, he, after, hl, hd, hb⟩ := ih _ (by rw [meet_inData, hr, hp]; rfl) hi
      refine ⟨p :: before, he, after, ?_, hd, ?_⟩
      · rw [cons_append]
        exact congrArg _ hl
      · intro q hq
        rcases mem_cons.1 hq with rfl | hq
        · exact hp
        · exact hb q hq

def Reaches (h : HintFile) (p : Position) (lo : Bytes) : Prop :=
  ∃ es, Marks h.frames p es ∧ (∀ he ∈ es, he.entryType ≠ .rangeDel) ∧
    (dataOf es).Pairwise (fun a b => a.key ≤ b.key) ∧
    (dataOf es).filter (fun he => lo ≤ he.key) = (dataOf h.entries).filter (fun he => lo ≤ he.key)

structure Scanned (rf : RecoveredFile) (h : HintFile) (run : FileRun) : Prop where
  hint : run.hint = some h
  stats : run.stats = h.entries.foldl countHint { totalBytes := rf.totalBytes }
  maxSeq : run.maxSeq = maxSeqOf h.entries
  markers : run.markers = markersOf h.entries
  tombstones : run.rangeTombstones = tombstonesOf rf.fileId h.entries
  start : ∀ lo, Reaches h run.dataStart lo
  fences : ∀ f ∈ run.fences, ∀ lo, f.key < lo → Reaches h f.at lo

lemma reaches_suffix (hs : SortedHint h.entries) (hm : Marks h.frames p es) (he : h.entries = before ++ es) {lo : Bytes}
    (hb : ∀ x ∈ dataOf before, x.key < lo) (hr : ∀ x ∈ es, x.entryType ≠ .rangeDel) : Reaches h p lo := by
  have hd : dataOf h.entries = dataOf before ++ dataOf es := by rw [he, dataOf, filter_append]; rfl
  have hsorted := hs.data_sorted
  rw [hd] at hsorted
  have hnil : (dataOf before).filter (fun he => lo ≤ he.key) = [] :=
    filter_eq_nil_iff.2 (fun x hx => by simpa using hb x hx)
  exact ⟨es, hm, hr, (pairwise_append.1 hsorted).2.1, by rw [hd, filter_append, hnil, nil_append]⟩

lemma SortedHint.data_after {after : List HintEntry} {x : HintEntry} (hs : SortedHint es)
    (he : es = before ++ x :: after) (hx : x.entryType.isData) :
    ∀ y ∈ x :: after, y.entryType.isData = true := by
  obtain ⟨head, data, rfl, hh, hd, -⟩ := hs
  rcases append_eq_append_iff.1 he with ⟨l, rfl, hl⟩ | ⟨l, rfl, hl⟩
  · intro y hy
    exact hd y (by rw [hl]; exact mem_append_right l hy)
  · cases l with
    | nil =>
      intro y hy
      exact hd y (by rw [← nil_append data, ← hl]; exact hy)
    | cons z l =>
      obtain ⟨rfl, -⟩ := List.cons.inj hl
      have hz := hh x (mem_append_right before mem_cons_self)
      rw [hz] at hx
      cases hx

lemma ne_rangeDel_of_isData {t : EntryType} (h : t.isData = true) : t ≠ .rangeDel := by
  rintro rfl
  cases h

section Drained

variable {h : HintFile} {l : List (Position × HintEntry)} (hs : SortedHint h.entries)
  (hmap : l.map Prod.snd = h.entries)

include hmap in
lemma split_entries {before after : List (Position × HintEntry)} {p : Position × HintEntry}
    (hl : l = before ++ p :: after) : h.entries = before.map Prod.snd ++ p.2 :: after.map Prod.snd := by
  rw [← hmap, hl, map_append, map_cons]

include hs hmap

lemma drained_foldlM (fileId : FileId) (run : FileRun) (hr : run.inData = false) :
    l.foldlM (scanStep fileId) run = .ok (l.foldl (FileRun.meet fileId) run) := by
  refine foldlM_scanStep fileId l run (fun before p after hl hp => ⟨hr, fun q hq => ?_⟩)
  cases hd : q.2.entryType.isData with
  | false => rfl
  | true =>
    obtain ⟨b₁, b₂, rfl⟩ := append_of_mem hq
    rw [append_assoc, cons_append] at hl
    have hall := hs.data_after (split_entries hmap hl) hd
    exact absurd hp (ne_rangeDel_of_isData (hall p.2 (by simp)))

variable (hmarks : ∀ before p he after, l = before ++ (p, he) :: after →
  Marks h.frames p (he :: after.map Prod.snd))
variable (fileId : FileId)

include hmarks

lemma fences_reach (run : FileRun) (hr : run.fences = []) {f : Fence}
    (hf : f ∈ (l.foldl (FileRun.meet fileId) run).fences) {lo : Bytes} (hlo : f.key < lo) :
    Reaches h f.at lo := by
  rcases foldl_meet_fences fileId l run hf with hf | ⟨before, he, after, hl, hk, hd⟩
  · rw [hr] at hf
    cases hf
  · have hes := split_entries hmap hl
    have hall := hs.data_after hes hd
    refine reaches_suffix hs (hmarks before f.at he after hl) hes ?_ ?_
    · intro x hx
      have hsorted := hs.data_sorted
      rw [hes, dataOf, filter_append] at hsorted
      have hle := (pairwise_append.1 hsorted).2.2 x hx he (by simp [hd])
      exact lt_of_le_of_lt (hk ▸ hle) hlo
    · exact fun x hx => ne_rangeDel_of_isData (hall x hx)

lemma dataStart_reaches (run : FileRun) (hr : run.inData = false)
    (hi : (l.foldl (FileRun.meet fileId) run).inData = true) (lo : Bytes) :
    Reaches h (l.foldl (FileRun.meet fileId) run).dataStart lo := by
  obtain ⟨before, he, after, hl, hd, hb⟩ := foldl_meet_dataStart fileId l run hr hi
  have hes := split_entries hmap hl
  have hall := hs.data_after hes hd
  refine reaches_suffix hs (hmarks before _ he after hl) hes ?_ (fun x hx => ne_rangeDel_of_isData (hall x hx))
  intro x hx
  obtain ⟨hx, hxd⟩ := mem_filter.1 hx
  obtain ⟨q, hq, rfl⟩ := mem_map.1 hx
  rw [hb q hq] at hxd
  cases hxd

end Drained

lemma foldl_meet_inData : (l.foldl (FileRun.meet fileId) run).inData = (run.inData || l.any (fun p => p.2.entryType.isData)) := by
  induction l generalizing run with
  | nil => simp
  | cons p l ih => rw [foldl_cons, ih, meet_inData, any_cons, Bool.or_assoc]

lemma end_reaches {l : List (Position × HintEntry)} (hmap : l.map Prod.snd = h.entries) (hm : Marks h.frames p [])
    (hl : l.any (fun p => p.2.entryType.isData) = false) (lo : Bytes) : Reaches h p lo := by
  have hd : dataOf h.entries = [] := by
    rw [← hmap, dataOf, filter_eq_nil_iff]
    intro he hm
    obtain ⟨q, hq, rfl⟩ := mem_map.1 hm
    have hall := any_eq_false.1 hl q hq
    simpa using hall
  exact ⟨[], hm, by simp, by simp [dataOf], by rw [hd]; rfl⟩

lemma scanFile_spec (strict : Bool) (rf : RecoveredFile) (h : HintFile) (hh : rf.hint = some h)
    (hs : SortedHint h.entries) : ∃ run, scanFile strict rf = .ok run ∧ Scanned rf h run := by
  obtain ⟨hmap, hend, hmarks⟩ := drain_spec _ (valid_makeScanner h)
    (h.entries.length + 1) (by rw [rest_makeScanner]; omega)
  generalize hscan : h.makeScanner.drain (h.entries.length + 1) = scan at hmap hend hmarks
  obtain ⟨l, sc⟩ := scan
  let init : FileRun := { hint := some h, stats := { totalBytes := rf.totalBytes } }
  have hfold := drained_foldlM hs hmap rf.fileId init rfl
  obtain ⟨f₁, f₂, f₃, f₄, f₅⟩ := foldl_meet_fields _ l init
  have hf : ∀ f ∈ (l.foldl (FileRun.meet rf.fileId) init).fences, ∀ lo, f.key < lo → Reaches h f.at lo :=
    fun f hf lo hlo => fences_reach hs hmap hmarks _ init rfl hf hlo
  have hd := dataStart_reaches hs hmap hmarks rf.fileId init rfl
  have hi := foldl_meet_inData rf.fileId l init
  generalize hrun : l.foldl (FileRun.meet rf.fileId) init = run at hfold f₁ f₂ f₃ f₄ f₅ hf hd hi
  rw [hmap] at f₂ f₃ f₄ f₅
  have hok : scanFile strict rf = .ok (if run.inData then run else { run with dataStart := sc.position }) := by
    simp only [scanFile, hh, hscan]
    rw [hfold]
    rfl
  refine ⟨_, hok, ?_⟩
  cases hin : run.inData with
  | true => exact ⟨f₁, f₂, f₃, f₄, f₅, hd hin, hf⟩
  | false =>
    rw [hin, Bool.false_or] at hi
    exact ⟨f₁, f₂, f₃, f₄, f₅, end_reaches hmap hend hi.symm, hf⟩

end Bytecask.Recovery
