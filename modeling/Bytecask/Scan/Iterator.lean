import Bytecask.RecordFormat

/-! The iterators of a scan as they run: one frames the records of a file, the other buffers a batch until its end is
seen, and steps past what it has yielded only when it is asked for more. -/

namespace Bytecask.Scan

open List

inductive OnDamage where
  | throws
  | stop
deriving DecidableEq, Repr

inductive ScanError where
  | damagedRecord
  | markerInBatch
deriving DecidableEq, Repr

/-- `current` is none once the sweep is done. -/
structure DataFileIterator where
  file : Bytes
  nextOffset : ℕ
  onDamage : OnDamage
  current : Option (DataEntry × ℕ) := none

structure CommittedEntryIterator where
  cur : DataFileIterator
  pending : List (DataEntry × ℕ) := []
  emitIdx : ℕ := 0
  committedOffset : ℕ := 0
  stopped : Bool := false
  stepPending : Bool := false

section Model

variable (crc : Crc)

def DataFileIterator.advance (it : DataFileIterator) : Except ScanError DataFileIterator :=
  match Bytecask.advance crc (it.file.drop it.nextOffset) with
  | .stop tail =>
    if tail = .damage ∧ it.onDamage = .throws then .error .damagedRecord else .ok { it with current := none }
  | .entry e _ => .ok { it with current := some (e, it.nextOffset), nextOffset := it.nextOffset + e.size }

namespace CommittedEntryIterator

def fillBatch : (fuel : ℕ) → CommittedEntryIterator → Except ScanError CommittedEntryIterator
  | 0, it => .ok it
  | n + 1, it =>
    match it.cur.current with
    | none => .ok { it with pending := [] }
    | some (e, offset) =>
      if e.entryType = .changeMarker then
        if it.cur.onDamage = .stop then .ok { it with pending := [], stopped := true } else .error .markerInBatch
      else
        let it := { it with pending := it.pending ++ [(e, offset)] }
        if e.entryType = .bulkEnd then .ok { it with committedOffset := it.cur.nextOffset, stepPending := true }
        else do
          let cur ← it.cur.advance crc
          fillBatch n { it with cur }

def fill (fuel : ℕ) (it : CommittedEntryIterator) : Except ScanError CommittedEntryIterator :=
  match it.cur.current with
  | none => .ok it
  | some (e, offset) =>
    if e.entryType = .bulkBegin then do
      let cur ← it.cur.advance crc
      fillBatch crc fuel { it with pending := [(e, offset)], cur }
    else .ok { it with committedOffset := it.cur.nextOffset, pending := [(e, offset)], stepPending := true }

def advance (fuel : ℕ) (it : CommittedEntryIterator) : Except ScanError CommittedEntryIterator :=
  let it := { it with pending := [], emitIdx := 0 }
  if it.stopped then .ok it
  else if it.stepPending then do
    let cur ← it.cur.advance crc
    fill crc fuel { it with stepPending := false, cur }
  else fill crc fuel it

def increment (fuel : ℕ) (it : CommittedEntryIterator) : Except ScanError CommittedEntryIterator :=
  let it := { it with emitIdx := it.emitIdx + 1 }
  if it.pending.length ≤ it.emitIdx then advance crc fuel it else .ok it

end CommittedEntryIterator

@[ext]
structure Scanned where
  yielded : List (DataEntry × ℕ)
  committedOffset : ℕ
  error : Option ScanError
deriving DecidableEq

def drain (bound : ℕ) : (fuel : ℕ) → CommittedEntryIterator → Scanned
  | 0, it => ⟨[], it.committedOffset, none⟩
  | n + 1, it =>
    match it.pending[it.emitIdx]? with
    | none => ⟨[], it.committedOffset, none⟩
    | some p =>
      match it.increment crc bound with
      | .error e => ⟨[p], it.committedOffset, some e⟩
      | .ok it =>
        let r := drain bound n it
        { r with yielded := p :: r.yielded }

def scanCommitted (file : Bytes) (start : ℕ) (onDamage : OnDamage) : Scanned :=
  let started := do
    let cur ← (⟨file, start, onDamage, none⟩ : DataFileIterator).advance crc
    CommittedEntryIterator.advance crc (file.length + 1) { cur }
  match started with
  | .error e => ⟨[], 0, some e⟩
  | .ok it => drain crc (file.length + 1) (file.length + 1) it

def resumed (bound fuel committed : ℕ) : Except ScanError CommittedEntryIterator → Scanned
  | .error e => ⟨[], committed, some e⟩
  | .ok it => drain crc bound fuel it

end Model

section Cursor

variable {crc : Crc} {file rest : Bytes} {tl : Tail} {onDamage : OnDamage} {o : ℕ} {es : List DataEntry}

structure Holds (crc : Crc) (file : Bytes) (o : ℕ) (es : List DataEntry) (rest : Bytes) (tl : Tail) : Prop where
  bytes : file.drop o = serializeAll crc es ++ rest
  fits : ∀ e ∈ es, e.RecordFits
  stop : Bytecask.advance crc rest = .stop tl

def cursorAt (file : Bytes) (onDamage : OnDamage) (o : ℕ) : List DataEntry → DataFileIterator
  | [] => ⟨file, o, onDamage, none⟩
  | e :: _ => ⟨file, o + e.size, onDamage, some (e, o)⟩

lemma Holds.next {e : DataEntry} (h : Holds crc file o (e :: es) rest tl) : Holds crc file (o + e.size) es rest tl := by
  refine ⟨?_, fun x hx => h.fits x (mem_cons_of_mem _ hx), h.stop⟩
  rw [← drop_drop, h.bytes, serializeAll, flatMap_cons, append_assoc, drop_left' e.serialize_length]
  rfl

lemma Holds.append {fs : List DataEntry} (h : Holds crc file o (es ++ fs) rest tl) : Holds crc file (o + bytesOf es) fs rest tl := by
  induction es generalizing o with
  | nil => exact h
  | cons e es ih =>
    rw [bytesOf_cons, ← Nat.add_assoc]
    exact ih h.next

lemma Holds.length_le (h : Holds crc file o es rest tl) : es.length ≤ file.length := by
  have hle := @length_le_serializeAll crc es
  have hlen := congrArg List.length h.bytes
  rw [length_drop, length_append] at hlen
  omega

lemma advance_cursor (h : Holds crc file o es rest tl) (current : Option (DataEntry × ℕ)) :
    (⟨file, o, onDamage, current⟩ : DataFileIterator).advance crc =
      if es = [] ∧ tl = .damage ∧ onDamage = .throws then .error .damagedRecord else .ok (cursorAt file onDamage o es) := by
  rw [DataFileIterator.advance, h.bytes]
  cases es with
  | nil =>
    rw [serializeAll, flatMap_nil, nil_append, h.stop]
    simp only [true_and, cursorAt]
  | cons e es =>
    rw [serializeAll, flatMap_cons, append_assoc, advance_serialize (h.fits e mem_cons_self)]
    rfl

end Cursor

section Runs

variable {crc : Crc} {file rest : Bytes} {tl : Tail} {onDamage : OnDamage} {o bound : ℕ} {es : List DataEntry}

abbrev before (file : Bytes) (onDamage : OnDamage) (o committed : ℕ) (es : List DataEntry) : CommittedEntryIterator :=
  { cur := cursorAt file onDamage o es, committedOffset := committed }

abbrev holding (file : Bytes) (onDamage : OnDamage) (o : ℕ) (u : List DataEntry) (current : Option (DataEntry × ℕ)) :
    CommittedEntryIterator where
  cur := ⟨file, o + bytesOf u, onDamage, current⟩
  pending := located o u
  committedOffset := o + bytesOf u
  stepPending := true

lemma fillBatch_batch {xs : List DataEntry} {e : DataEntry} (h : Holds crc file o (xs ++ e :: es) rest tl)
    (hxs : ∀ x ∈ xs, x.entryType ≠ .bulkEnd ∧ x.entryType ≠ .changeMarker) (he : e.entryType = .bulkEnd)
    (pending : List (DataEntry × ℕ)) (committed : ℕ) {n : ℕ} (hn : xs.length < n) :
    CommittedEntryIterator.fillBatch crc n { before file onDamage o committed (xs ++ e :: es) with pending } =
      .ok { holding file onDamage o (xs ++ [e]) (some (e, o + bytesOf xs)) with pending := pending ++ located o (xs ++ [e]) } := by
  induction xs generalizing o pending n with
  | nil =>
    obtain ⟨n, rfl⟩ : ∃ m, n = m + 1 := ⟨n - 1, by rw [length_nil] at hn; omega⟩
    simp [CommittedEntryIterator.fillBatch, cursorAt, located, he]
  | cons x xs ih =>
    obtain ⟨n, rfl⟩ : ∃ m, n = m + 1 := ⟨n - 1, by rw [length_cons] at hn; omega⟩
    obtain ⟨hend, hmark⟩ := hxs x mem_cons_self
    have hnext := h.next
    have hstep := @advance_cursor crc file rest tl onDamage _ _ hnext (some (x, o))
    rw [if_neg (by simp)] at hstep
    have hlen : xs.length < n := Nat.lt_of_succ_lt_succ hn
    have hrest := ih hnext (fun y hy => hxs y (mem_cons_of_mem x hy)) (pending ++ [(x, o)]) hlen
    simp only [CommittedEntryIterator.fillBatch, cons_append, cursorAt, if_neg hmark, if_neg hend, hstep]
    refine hrest.trans ?_
    simp [located, Nat.add_assoc]

lemma fillBatch_open (h : Holds crc file o es rest tl) (hes : ∀ x ∈ es, x.entryType ≠ .bulkEnd ∧ x.entryType ≠ .changeMarker)
    (pending : List (DataEntry × ℕ)) (committed : ℕ) {n : ℕ} (hn : es.length < n) :
    ∃ cur, CommittedEntryIterator.fillBatch crc n { before file onDamage o committed es with pending } =
      if es ≠ [] ∧ tl = .damage ∧ onDamage = .throws then .error .damagedRecord
      else .ok { cur, committedOffset := committed } := by
  induction es generalizing o pending n with
  | nil =>
    obtain ⟨n, rfl⟩ : ∃ m, n = m + 1 := ⟨n - 1, by rw [length_nil] at hn; omega⟩
    exact ⟨_, by simp [CommittedEntryIterator.fillBatch, cursorAt]; rfl⟩
  | cons x xs ih =>
    obtain ⟨n, rfl⟩ : ∃ m, n = m + 1 := ⟨n - 1, by rw [length_cons] at hn; omega⟩
    obtain ⟨hend, hmark⟩ := hes x mem_cons_self
    have hnext := h.next
    have hstep := @advance_cursor crc file rest tl onDamage _ xs hnext (some (x, o))
    have hlen : xs.length < n := Nat.lt_of_succ_lt_succ hn
    obtain ⟨cur, hrest⟩ := ih hnext (fun y hy => hes y (mem_cons_of_mem x hy)) _ hlen
    refine ⟨cur, ?_⟩
    simp only [CommittedEntryIterator.fillBatch, cursorAt, if_neg hmark, if_neg hend, hstep]
    by_cases ht : tl = .damage ∧ onDamage = .throws
    · have hthrown : x :: xs ≠ [] ∧ tl = .damage ∧ onDamage = .throws := ⟨cons_ne_nil x xs, ht⟩
      rw [if_pos hthrown]
      by_cases hxs : xs = []
      · rw [if_pos ⟨hxs, ht⟩]
        rfl
      · rw [if_neg fun hc => hxs hc.1]
        exact hrest.trans (if_pos ⟨hxs, ht⟩)
    · rw [if_neg fun hc => ht hc.2, if_neg fun hc => ht hc.2]
      exact hrest.trans (if_neg fun hc => ht hc.2)

lemma fill_unit {u : List DataEntry} (hu : IsUnit u) (h : Holds crc file o (u ++ es) rest tl) (committed : ℕ) (hn : u.length ≤ bound) :
    ∃ current, CommittedEntryIterator.fill crc bound (before file onDamage o committed (u ++ es)) =
      .ok (holding file onDamage o u current) := by
  cases hu with
  | @single e he =>
    simp [CommittedEntryIterator.fill, cursorAt, he, located]
  | @batch b e xs hb he hxs =>
    simp only [cons_append, append_assoc, nil_append] at h ⊢
    have hnext := h.next
    have hstep := @advance_cursor crc file rest tl onDamage _ _ hnext (some (b, o))
    rw [if_neg (by simp)] at hstep
    have hlen : xs.length < bound := by
      simp only [cons_append, length_cons, length_append] at hn
      omega
    refine ⟨some (e, o + b.size + bytesOf xs), ?_⟩
    simp only [CommittedEntryIterator.fill, cursorAt, hb, if_true, hstep]
    refine (fillBatch_batch hnext hxs he [(b, o)] _ hlen).trans ?_
    simp [located, Nat.add_assoc]

inductive Torn : List DataEntry → Prop
  | nil : Torn []
  | batch {b : DataEntry} {es : List DataEntry} : b.entryType = .bulkBegin →
      (∀ x ∈ es, x.entryType ≠ .bulkEnd ∧ x.entryType ≠ .changeMarker) → Torn (b :: es)

def stepped (crc : Crc) (file : Bytes) (tl : Tail) (onDamage : OnDamage) (bound o committed : ℕ)
    (es : List DataEntry) : Except ScanError CommittedEntryIterator :=
  if es = [] ∧ tl = .damage ∧ onDamage = .throws then .error .damagedRecord
  else CommittedEntryIterator.fill crc bound (before file onDamage o committed es)

lemma resumed_torn (hes : Torn es) (h : Holds crc file o es rest tl) (committed fuel : ℕ) (hn : es.length ≤ bound) :
    resumed crc bound fuel committed (stepped crc file tl onDamage bound o committed es) =
      ⟨[], committed, if tl = .damage ∧ onDamage = .throws then some .damagedRecord else none⟩ := by
  have hend : ∀ cur, drain crc bound fuel { cur, committedOffset := committed } = ⟨[], committed, none⟩ := by
    intro cur
    cases fuel <;> rfl
  rw [stepped]
  cases hes with
  | nil =>
    by_cases ht : tl = .damage ∧ onDamage = .throws
    · rw [if_pos ⟨rfl, ht⟩, if_pos ht, resumed]
    · rw [if_neg fun hc => ht hc.2, if_neg ht]
      exact hend _
  | @batch b xs hb hxs =>
    have hnext := h.next
    have hstep := @advance_cursor crc file rest tl onDamage _ xs hnext (some (b, o))
    obtain ⟨cur, hopen⟩ := @fillBatch_open crc file rest tl _ _ xs hnext hxs [(b, o)] _ bound hn
    rw [if_neg fun hc => cons_ne_nil b xs hc.1]
    simp only [CommittedEntryIterator.fill, cursorAt, hb, if_true, hstep]
    by_cases ht : tl = .damage ∧ onDamage = .throws
    · rw [if_pos ht]
      by_cases hnil : xs = []
      · rw [if_pos ⟨hnil, ht⟩]
        rfl
      · rw [if_neg fun hc => hnil hc.1]
        exact congrArg _ (hopen.trans (if_pos ⟨hnil, ht⟩))
    · rw [if_neg ht, if_neg fun hc => ht hc.2]
      refine (congrArg _ (hopen.trans (if_neg fun hc => ht hc.2))).trans ?_
      exact hend cur

lemma drain_pending (it : CommittedEntryIterator) {k : ℕ} (hk : it.pending.length = it.emitIdx + (k + 1)) (n : ℕ) :
    drain crc bound (k + 1 + n) it =
      let r := resumed crc bound n it.committedOffset (it.advance crc bound)
      { r with yielded := it.pending.drop it.emitIdx ++ r.yielded } := by
  have hlt : it.emitIdx < it.pending.length := by omega
  induction k generalizing it with
  | zero =>
    have hfuel : 0 + 1 + n = n + 1 := by omega
    have hdrop : it.pending.drop it.emitIdx = [it.pending.get ⟨it.emitIdx, hlt⟩] := by
      rw [drop_eq_getElem_cons, drop_of_length_le (by omega)]
      rfl
    rw [hfuel, drain, List.getElem?_eq_getElem, hdrop]
    simp only [CommittedEntryIterator.increment, if_pos (show it.pending.length ≤ it.emitIdx + 1 by omega)]
    have hsame : CommittedEntryIterator.advance crc bound { it with emitIdx := it.emitIdx + 1 } = it.advance crc bound := rfl
    rw [hsame]
    cases it.advance crc bound <;> rfl
  | succ k ih =>
    have hfuel : k + 1 + 1 + n = (k + 1 + n) + 1 := by omega
    rw [hfuel, drain, List.getElem?_eq_getElem, drop_eq_getElem_cons hlt]
    simp only [CommittedEntryIterator.increment, if_neg (show ¬ it.pending.length ≤ it.emitIdx + 1 by omega)]
    rw [ih { it with emitIdx := it.emitIdx + 1 } (by dsimp only; omega) (by dsimp only; omega)]
    rfl

lemma advance_holding (u : List DataEntry) (h : Holds crc file (o + bytesOf u) es rest tl) (current : Option (DataEntry × ℕ)) :
    (holding file onDamage o u current).advance crc bound =
      stepped crc file tl onDamage bound (o + bytesOf u) (o + bytesOf u) es := by
  have hstep := @advance_cursor crc file rest tl onDamage _ es h current
  simp only [CommittedEntryIterator.advance, if_true, hstep, stepped, Bool.false_eq_true, if_false]
  split_ifs <;> rfl

lemma resumed_units {us ts : List DataEntry} (hus : Units us) (hts : Torn ts) (h : Holds crc file o (us ++ ts) rest tl)
    (committed : ℕ) {fuel : ℕ} (hb : (us ++ ts).length ≤ bound) (hf : us.length ≤ fuel) :
    resumed crc bound fuel committed (stepped crc file tl onDamage bound o committed (us ++ ts)) =
      ⟨located o us, if us = [] then committed else o + bytesOf us,
        if tl = .damage ∧ onDamage = .throws then some .damagedRecord else none⟩ := by
  induction hus generalizing o committed fuel with
  | nil => exact resumed_torn hts h _ fuel hb
  | @cons u us hu _ ih =>
    rw [append_assoc] at h hb ⊢
    rw [length_append] at hb hf
    obtain ⟨current, hfill⟩ := @fill_unit crc file rest tl _ o bound _ u hu h _ (by omega)
    obtain ⟨k, hk⟩ : ∃ k, u.length = k + 1 := ⟨u.length - 1, by have := length_pos_iff.2 hu.ne_nil; omega⟩
    obtain ⟨n, rfl⟩ : ∃ n, fuel = k + 1 + n := ⟨fuel - (k + 1), by omega⟩
    have hne : u ++ (us ++ ts) ≠ [] := by simp [hu.ne_nil]
    rw [stepped, if_neg fun hc => hne hc.1, hfill, resumed, drain_pending _ (by simpa using hk), advance_holding u h.append]
    rw [ih h.append _ (by omega) (by omega), located_append]
    simp only [drop_zero, hu.ne_nil, append_eq_nil_iff, false_and, if_false, bytesOf_append]
    by_cases hnil : us = []
    · simp [hnil]
    · simp [hnil, Nat.add_assoc]

lemma scanCommitted_units {us ts : List DataEntry} (hus : Units us) (hts : Torn ts) (h : Holds crc file o (us ++ ts) rest tl) :
    scanCommitted crc file o onDamage =
      ⟨located o us, if us = [] then 0 else o + bytesOf us,
        if tl = .damage ∧ onDamage = .throws then some .damagedRecord else none⟩ := by
  have hlen := h.length_le
  have hstep := @advance_cursor crc file rest tl onDamage o _ h none
  have hrun := @resumed_units crc file rest tl onDamage o (file.length + 1) us ts hus hts h 0 (file.length + 1) (by omega)
    (by rw [length_append] at hlen; omega)
  rw [← hrun, scanCommitted, hstep, stepped]
  split_ifs <;> rfl

end Runs

end Bytecask.Scan
