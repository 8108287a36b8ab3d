import Bytecask.Changes.Scan

/-! What a slice of changes is, and that the loop's filter picks it out of the entries of the queued files. -/

namespace Bytecask.Changes

open List Scan SortedMap

structure ChangeLog where
  units : FileId → List (List DataEntry)
  isUnit : ∀ id, ∀ u ∈ units id, IsUnit u
  fits : ∀ id, ∀ u ∈ units id, ∀ e ∈ u, e.RecordFits
  ascending : ∀ id, (units id).flatten.Pairwise (fun a b => a.sequence < b.sequence)

def ChangeLog.entries (L : ChangeLog) (id : FileId) : List DataEntry := (L.units id).flatten

def ChangeLog.bytes (L : ChangeLog) (crc : Crc) (id : FileId) : Bytes := serializeAll crc (L.entries id)

structure Snapshot (L : ChangeLog) (s : EngineState) : Prop where
  known : ∀ id fs, s.fileStats.get id = some fs → (s.files.get id).isSome
  stats : ∀ id fs, s.fileStats.get id = some fs → ∃ before after, L.units id = before ++ after ∧
    fs.minSequence = (before.flatten.head?.map DataEntry.sequence).getD 0 ∧
    fs.maxSequence = (before.flatten.getLast?.map DataEntry.sequence).getD 0 ∧
    ∀ u ∈ after, ∀ e ∈ u, s.durableSeq < e.sequence
  boundary : ∀ id, ∀ u ∈ L.units id, (∀ e ∈ u, e.sequence ≤ s.durableSeq) ∨ (∀ e ∈ u, s.durableSeq < e.sequence)
  apart : ∀ id id' fs fs', s.fileStats.get id = some fs → s.fileStats.get id' = some fs' → id ≠ id' →
    (∀ e ∈ L.entries id, ∀ e' ∈ L.entries id', e.sequence < e'.sequence) ∨
      (∀ e ∈ L.entries id, ∀ e' ∈ L.entries id', e'.sequence < e.sequence)

def firstOf (u : List DataEntry) : ℕ := (u.head?.map DataEntry.sequence).getD 0

def due (fromSequence durableSequence : ℕ) (u : List DataEntry) : Bool :=
  fromSequence < firstOf u && u.all (fun e => e.sequence ≤ durableSequence)

def cutAfter : ℕ → List (List DataEntry) → List (List DataEntry)
  | _, [] => []
  | maxBytes, u :: us => u :: if maxBytes ≤ bytesOf u then [] else cutAfter (maxBytes - bytesOf u) us

def dueUnits (L : ChangeLog) (s : EngineState) (fromSequence : ℕ) : List (List DataEntry) :=
  ((s.fileStats.keys.flatMap L.units).filter (due fromSequence s.durableSeq)).insertionSort
    (fun u v => firstOf u ≤ firstOf v)

def slice (L : ChangeLog) (s : EngineState) (fromSequence maxBytes : ℕ) : List DataEntry :=
  (cutAfter maxBytes (dueUnits L s fromSequence)).flatten

def emit (fromSequence durableSequence maxBytes : ℕ) : Bool → Bool → ℕ → List DataEntry → List DataEntry
  | _, _, _, [] => []
  | inBatch, included, sent, e :: es =>
    let included := if inBatch then included else decide (fromSequence < e.sequence)
    let inBatch := batchAfter inBatch e.entryType
    if !included then emit fromSequence durableSequence maxBytes inBatch included sent es
    else if durableSequence < e.sequence then []
    else e :: if maxBytes ≤ sent + e.size ∧ !inBatch then []
      else emit fromSequence durableSequence maxBytes inBatch included (sent + e.size) es

section Emit

variable {f d m sent : ℕ} {inc : Bool} {u rest : List DataEntry}
variable {e : DataEntry} {es : List DataEntry} {us : List (List DataEntry)}

lemma batchAfter_of_ne (h : e.entryType ≠ .bulkEnd) : batchAfter true e.entryType = true := by
  cases ht : e.entryType <;> simp_all [batchAfter]

lemma emit_batch_skipped (he : e.entryType = .bulkEnd) (hes : ∀ x ∈ es, x.entryType ≠ .bulkEnd ∧ x.entryType ≠ .changeMarker) :
    emit f d m true false sent (es ++ e :: rest) = emit f d m false false sent rest := by
  induction es with
  | nil => simp [emit, he, batchAfter]
  | cons x es ih =>
    rw [cons_append, emit]
    simp only [if_true, Bool.not_false, batchAfter_of_ne (hes x mem_cons_self).1]
    exact ih fun y hy => hes y (mem_cons_of_mem x hy)

lemma emit_batch (he : e.entryType = .bulkEnd) (hed : e.sequence ≤ d)
    (hes : ∀ x ∈ es, x.entryType ≠ .bulkEnd ∧ x.entryType ≠ .changeMarker) (hd : ∀ x ∈ es, x.sequence ≤ d) :
    emit f d m true true sent (es ++ e :: rest) = es ++ e ::
      if m ≤ sent + bytesOf (es ++ [e]) then [] else emit f d m false true (sent + bytesOf (es ++ [e])) rest := by
  induction es generalizing sent with
  | nil => simp [emit, he, Scan.batchAfter, not_lt.2 hed]
  | cons x es ih =>
    rw [cons_append, emit]
    simp only [if_true, Bool.not_true, Bool.false_eq_true, if_false, and_false, not_lt.2 (hd x mem_cons_self),
      batchAfter_of_ne (hes x mem_cons_self).1]
    rw [ih (fun y hy => hes y (mem_cons_of_mem x hy)) fun y hy => hd y (mem_cons_of_mem x hy)]
    simp [Nat.add_assoc]

lemma emit_included (inc inc' : Bool) (es : List DataEntry) : emit f d m false inc sent es = emit f d m false inc' sent es := by
  cases es <;> simp [emit]

lemma emit_skip (hu : IsUnit u) (hf : firstOf u ≤ f) :
    emit f d m false inc sent (u ++ rest) = emit f d m false inc sent rest := by
  cases hu with
  | @single e ht =>
    have hb : batchAfter false e.entryType = false := by
      cases h : e.entryType <;> simp_all [batchAfter]
    have hle : ¬ f < e.sequence := not_lt.2 hf
    simp only [singleton_append, emit, hb, hle]
    simpa using emit_included _ _ _
  | @batch b e es hb he hes =>
    have hle : ¬ f < b.sequence := not_lt.2 hf
    simp only [cons_append, append_assoc, emit, hb, hle, batchAfter]
    simp only [Bool.false_eq_true, if_false, decide_false, Bool.not_false, if_true]
    rw [emit_batch_skipped he hes]
    exact emit_included _ _ _

lemma emit_due (hu : IsUnit u) (hf : f < firstOf u) (hd : ∀ e ∈ u, e.sequence ≤ d) :
    emit f d m false inc sent (u ++ rest) =
      u ++ if m ≤ sent + bytesOf u then [] else emit f d m false inc (sent + bytesOf u) rest := by
  cases hu with
  | @single e ht =>
    have hb : Scan.batchAfter false e.entryType = false := by
      cases h : e.entryType <;> simp_all [Scan.batchAfter]
    have hlt : f < e.sequence := hf
    have hle : ¬ d < e.sequence := not_lt.2 (hd e (mem_singleton_self e))
    simp only [singleton_append, emit, hb, hlt, hle]
    simp [emit_included inc true]
  | @batch b e es hb he hes =>
    have hlt : f < b.sequence := hf
    have hle : ¬ d < b.sequence := not_lt.2 (hd b (by simp))
    simp only [cons_append, append_assoc, emit, hb, hlt, hle, Scan.batchAfter]
    simp only [Bool.false_eq_true, if_false, decide_true, Bool.not_true, and_false]
    rw [emit_batch he (hd e (by simp)) hes fun x hx => hd x (by simp [hx])]
    simp [emit_included inc true, Nat.add_assoc]

lemma emit_stop (hne : u ≠ []) (hf : f < firstOf u) (hd : d < firstOf u) : emit f d m false inc sent (u ++ rest) = [] := by
  cases u with
  | nil => exact absurd rfl hne
  | cons e es =>
    have hlt : f < e.sequence := hf
    have hgt : d < e.sequence := hd
    simp [emit, hlt, hgt]

lemma firstOf_mem (hu : IsUnit u) : ∃ e ∈ u, firstOf u = e.sequence := by
  cases hu with
  | @single e _ => exact ⟨e, by simp, rfl⟩
  | @batch b e es _ _ _ => exact ⟨b, by simp, rfl⟩

structure Stream (d : ℕ) (us : List (List DataEntry)) : Prop where
  isUnit : ∀ u ∈ us, IsUnit u
  boundary : ∀ u ∈ us, (∀ e ∈ u, e.sequence ≤ d) ∨ (∀ e ∈ u, d < e.sequence)
  ascending : us.flatten.Pairwise (fun a b => a.sequence < b.sequence)

lemma Stream.tail (h : Stream d (u :: us)) : Stream d us where
  isUnit v hv := h.isUnit v (mem_cons_of_mem u hv)
  boundary v hv := h.boundary v (mem_cons_of_mem u hv)
  ascending := by
    have hasc := h.ascending
    exact (pairwise_append.1 hasc).2.1

lemma Stream.filter_due_nil (h : Stream d (u :: us)) (hd : d < firstOf u) : us.filter (due f d) = [] := by
  refine filter_eq_nil_iff.2 fun v hv hdue => ?_
  obtain ⟨e, he, hfirst⟩ := firstOf_mem (h.isUnit u mem_cons_self)
  obtain ⟨x, hx, -⟩ := firstOf_mem (h.isUnit v (mem_cons_of_mem u hv))
  have hasc := h.ascending
  have hlt := (pairwise_append.1 hasc).2.2 e he x (mem_flatten_of_mem hv hx)
  simp only [due, Bool.and_eq_true, all_eq_true, decide_eq_true_eq] at hdue
  have := hdue.2 x hx
  omega

lemma emit_stream (h : Stream d us) :
    emit f d m false inc sent us.flatten = (cutAfter (m - sent) (us.filter (due f d))).flatten := by
  induction us generalizing sent with
  | nil => rfl
  | cons u us ih =>
    have hu := h.isUnit u mem_cons_self
    obtain ⟨e, he, hfirst⟩ := firstOf_mem hu
    rw [flatten_cons]
    by_cases hf : f < firstOf u
    · rcases h.boundary u mem_cons_self with hd | hd
      · have hdue : due f d u = true := by simpa [due, hf] using hd
        rw [emit_due hu hf hd, ih h.tail, filter_cons_of_pos hdue, cutAfter, flatten_cons]
        have hiff : m - sent ≤ bytesOf u ↔ m ≤ sent + bytesOf u := by omega
        simp only [hiff, Nat.sub_add_eq]
        split_ifs <;> rfl
      · have hgt : d < firstOf u := hfirst ▸ hd e he
        have hdue : ¬ due f d u = true := by
          simp only [due, Bool.and_eq_true, all_eq_true, decide_eq_true_eq, not_and, not_forall]
          exact fun _ => ⟨e, he, not_le.2 (hd e he)⟩
        rw [emit_stop hu.ne_nil hf hgt, filter_cons_of_neg hdue, h.filter_due_nil hgt]
        rfl
    · have hdue : ¬ due f d u = true := by simp [due, hf]
      rw [emit_skip hu (not_lt.1 hf), ih h.tail, filter_cons_of_neg hdue]

end Emit

section Queue

variable {L : ChangeLog} {s : EngineState} {f : ℕ}
variable {q : ℕ × FileId}

lemma insertionSort_eq_of_perm {l l' : List (List DataEntry)} (hp : l'.Perm l)
    (hs : l'.Pairwise (fun u v => firstOf u < firstOf v)) : l.insertionSort (fun u v => firstOf u ≤ firstOf v) = l' := by
  have hsorted := pairwise_insertionSort (fun u v => firstOf u ≤ firstOf v) l
  have hperm := (perm_insertionSort (fun u v => firstOf u ≤ firstOf v) l).trans hp.symm
  refine hperm.eq_of_pairwise ?_ hsorted (hs.imp fun h => h.le)
  intro u v hu hv huv hvu
  have hsymm : Std.Symm (fun u v : List DataEntry => firstOf u ≠ firstOf v) := ⟨fun _ _ h => h.symm⟩
  by_contra hne
  exact (hs.imp fun h => h.ne).forall (hperm.subset hu) hv hne (le_antisymm huv hvu)

instance : Std.Total QueueLe where
  total a b := by
    rcases lt_trichotomy a.1 b.1 with hlt | heq | hgt
    · exact .inl (.inl hlt)
    · exact (le_total a.2 b.2).imp (fun h => .inr ⟨heq, h⟩) fun h => .inr ⟨heq.symm, h⟩
    · exact .inr (.inl hgt)

instance : IsTrans (ℕ × FileId) QueueLe where
  trans a b c hab hbc := by
    rw [QueueLe] at *
    rcases hab with hab | ⟨hab, hab'⟩ <;> rcases hbc with hbc | ⟨hbc, hbc'⟩
    · exact .inl (hab.trans hbc)
    · exact .inl (hbc ▸ hab)
    · exact .inl (hab ▸ hbc)
    · exact .inr ⟨hab.trans hbc, hab'.trans hbc'⟩

lemma mem_queueOf : q ∈ queueOf s f ↔ ∃ fs, s.fileStats.get q.2 = some fs ∧
    q.1 = fs.minSequence ∧ f < fs.maxSequence ∧ fs.minSequence ≤ s.durableSeq := by
  obtain ⟨n, id⟩ := q
  rw [queueOf, mem_insertionSort, mem_map]
  constructor
  · rintro ⟨⟨id', fs⟩, hmem, heq⟩
    cases heq
    simp only [mem_filter, Bool.and_eq_true, decide_eq_true_eq] at hmem
    exact ⟨fs, get_eq_some.2 hmem.1, rfl, hmem.2⟩
  · rintro ⟨fs, hget, rfl, hmax, hmin⟩
    refine ⟨(id, fs), ?_, rfl⟩
    simp [mem_filter, get_eq_some.1 hget, hmax, hmin]

lemma Snapshot.first_of_queued (h : Snapshot L s) (hq : q ∈ queueOf s f) :
    ∃ e es, L.entries q.2 = e :: es ∧ q.1 = e.sequence := by
  obtain ⟨fs, hget, hmin, hmax, -⟩ := mem_queueOf.1 hq
  obtain ⟨before, after, hunits, hfirst, hlast, -⟩ := h.stats q.2 fs hget
  rw [ChangeLog.entries, hunits, flatten_append]
  cases hb : before.flatten with
  | nil =>
    rw [hb] at hlast
    simp only [List.getLast?_nil, Option.map_none, Option.getD_none] at hlast
    omega
  | cons e es => exact ⟨e, es ++ after.flatten, rfl, by rw [hmin, hfirst, hb]; rfl⟩

lemma queue_nodup : (queueOf s f).Pairwise (fun q q' => q.2 ≠ q'.2) := by
  have hn : ((queueOf s f).map Prod.snd).Nodup := by
    rw [queueOf, ((perm_insertionSort _ _).map _).nodup_iff, map_map]
    exact pairwise_map.2 ((s.fileStats.sorted.sublist filter_sublist).imp fun h => h.ne)
  exact pairwise_map.1 hn

lemma Snapshot.queue_ordered (h : Snapshot L s) : (queueOf s f).Pairwise (fun q q' =>
    ∀ e ∈ L.entries q.2, ∀ e' ∈ L.entries q'.2, e.sequence < e'.sequence) := by
  have hsorted : (queueOf s f).Pairwise QueueLe := pairwise_insertionSort _ _
  refine (hsorted.and queue_nodup).imp_of_mem ?_
  rintro q q' hq hq' ⟨hle, hne⟩
  obtain ⟨fs, hget, -⟩ := mem_queueOf.1 hq
  obtain ⟨fs', hget', -⟩ := mem_queueOf.1 hq'
  rcases h.apart q.2 q'.2 fs fs' hget hget' hne with hlt | hgt
  · exact hlt
  · obtain ⟨e, es, hes, hfirst⟩ := h.first_of_queued hq
    obtain ⟨e', es', hes', hfirst'⟩ := h.first_of_queued hq'
    have hlt := hgt e (by rw [hes]; exact mem_cons_self) e' (by rw [hes']; exact mem_cons_self)
    have : q.1 ≤ q'.1 := hle.elim (fun h => h.le) fun h => h.1.le
    omega

lemma bounds_of_mem {es : List DataEntry} (h : es.Pairwise (fun a b => a.sequence < b.sequence)) {e : DataEntry}
    (he : e ∈ es) : (es.head?.map DataEntry.sequence).getD 0 ≤ e.sequence ∧
      e.sequence ≤ (es.getLast?.map DataEntry.sequence).getD 0 := by
  constructor
  · cases es with
    | nil => cases he
    | cons x es =>
      rcases mem_cons.1 he with rfl | he
      · exact le_rfl
      · exact ((pairwise_cons.1 h).1 e he).le
  · cases hl : es.getLast? with
    | none =>
      rw [List.getLast?_eq_none_iff.1 hl] at he
      cases he
    | some x =>
      obtain ⟨front, rfl⟩ := List.getLast?_eq_some_iff.1 hl
      rcases mem_append.1 he with he | he
      · exact ((pairwise_append.1 h).2.2 e he x (mem_singleton_self x)).le
      · rw [mem_singleton.1 he]
        exact le_rfl

lemma Snapshot.due_queued (h : Snapshot L s) {id : FileId} {fs : FileStats} (hget : s.fileStats.get id = some fs)
    {u : List DataEntry} (hu : u ∈ L.units id) (hdue : due f s.durableSeq u = true) :
    (fs.minSequence, id) ∈ queueOf s f := by
  obtain ⟨before, after, hunits, hmin, hmax, hafter⟩ := h.stats id fs hget
  obtain ⟨e, he, hfirst⟩ := firstOf_mem (L.isUnit id u hu)
  simp only [due, Bool.and_eq_true, all_eq_true, decide_eq_true_eq, hfirst] at hdue
  have hle := hdue.2 e he
  have hasc := L.ascending id
  rw [hunits] at hu hasc
  rcases mem_append.1 hu with hb | ha
  · rw [flatten_append] at hasc
    have hbounds := bounds_of_mem (pairwise_append.1 hasc).1 (mem_flatten_of_mem hb he)
    exact mem_queueOf.2 ⟨fs, hget, rfl, by omega, by omega⟩
  · have := hafter u ha e he
    omega

def queuedUnits (L : ChangeLog) (s : EngineState) (f : ℕ) : List (List DataEntry) :=
  (queueOf s f).flatMap (fun q => L.units q.2)

lemma flatten_pairwise {q : List (ℕ × FileId)} (h : q.Pairwise (fun q q' =>
    ∀ e ∈ L.entries q.2, ∀ e' ∈ L.entries q'.2, e.sequence < e'.sequence)) :
    (q.flatMap (fun q => L.units q.2)).flatten.Pairwise (fun a b => a.sequence < b.sequence) := by
  induction q with
  | nil => exact List.Pairwise.nil
  | cons x q ih =>
    obtain ⟨hx, hq⟩ := pairwise_cons.1 h
    rw [flatMap_cons, flatten_append]
    refine pairwise_append.2 ⟨L.ascending x.2, ih hq, fun e he e' he' => ?_⟩
    obtain ⟨u, hu, he'⟩ := mem_flatten.1 he'
    obtain ⟨y, hy, hu⟩ := mem_flatMap.1 hu
    exact hx y hy e he e' (mem_flatten_of_mem hu he')

lemma Snapshot.stream (h : Snapshot L s) : Stream s.durableSeq (queuedUnits L s f) where
  isUnit u hu := by
    obtain ⟨q, -, hu⟩ := mem_flatMap.1 hu
    exact L.isUnit q.2 u hu
  boundary u hu := by
    obtain ⟨q, -, hu⟩ := mem_flatMap.1 hu
    exact h.boundary q.2 u hu
  ascending := flatten_pairwise h.queue_ordered

lemma Stream.firstOf_pairwise {d : ℕ} {us : List (List DataEntry)} (h : Stream d us) :
    us.Pairwise (fun u v => firstOf u < firstOf v) := by
  refine (pairwise_flatten.1 h.ascending).2.imp_of_mem fun {u v} hu hv hlt => ?_
  obtain ⟨e, he, hfirst⟩ := firstOf_mem (h.isUnit u hu)
  obtain ⟨e', he', hfirst'⟩ := firstOf_mem (h.isUnit v hv)
  rw [hfirst, hfirst']
  exact hlt e he e' he'

lemma flatMap_filter_of_nil {α β : Type} {p : α → Bool} {g : α → List β} {l : List α}
    (h : ∀ x ∈ l, ¬ p x = true → g x = []) : (l.filter p).flatMap g = l.flatMap g := by
  induction l with
  | nil => rfl
  | cons x l ih =>
    have ih' := ih fun y hy => h y (mem_cons_of_mem x hy)
    by_cases hp : p x = true
    · rw [filter_cons_of_pos hp, flatMap_cons, flatMap_cons, ih']
    · rw [filter_cons_of_neg hp, flatMap_cons, h x mem_cons_self hp, nil_append, ih']

lemma Snapshot.dueUnits_eq (h : Snapshot L s) : dueUnits L s f = (queuedUnits L s f).filter (due f s.durableSeq) := by
  refine insertionSort_eq_of_perm ?_ (h.stream.firstOf_pairwise.sublist filter_sublist)
  have hperm := (perm_insertionSort QueueLe ((s.fileStats.entries.filter (fun e =>
    f < e.2.maxSequence && e.2.minSequence ≤ s.durableSeq)).map (fun e => (e.2.minSequence, e.1)))).flatMap_right
      (fun q => (L.units q.2).filter (due f s.durableSeq))
  rw [queuedUnits, filter_flatMap, filter_flatMap]
  refine hperm.trans ?_
  rw [flatMap_map, SortedMap.keys, flatMap_map, flatMap_filter_of_nil]
  rintro ⟨id, fs⟩ hmem hnot
  refine filter_eq_nil_iff.2 fun u hu hdue => hnot ?_
  obtain ⟨fs', hget, -, hmax, hmin⟩ := mem_queueOf.1 (h.due_queued (get_eq_some.2 hmem) hu hdue)
  obtain rfl : fs' = fs := eq_of_key_eq (get_eq_some.1 hget) hmem
  simp [hmax, hmin]

lemma Snapshot.emit_queued (h : Snapshot L s) (inc : Bool) (m : ℕ) :
    emit f s.durableSeq m false inc 0 (queuedUnits L s f).flatten = slice L s f m := by
  rw [emit_stream h.stream, slice, h.dueUnits_eq, Nat.sub_zero]

end Queue

end Bytecask.Changes
