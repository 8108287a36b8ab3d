import Bytecask.Entry

/-! Data files as the entries that parse front to back, and the committed scan over them. -/

namespace Bytecask

open List

variable {es fs u xs ys us rest : List DataEntry} {e : DataEntry}

inductive Tail where
  | zeros
  | torn
  | damage
deriving DecidableEq, Repr

variable (tail : Tail) (start committed : ℕ) (batch : List (DataEntry × ℕ))

structure DataFile where
  entries : List DataEntry := []
  tail : Tail := .zeros
deriving DecidableEq, Repr

def bytesOf (es : List DataEntry) : ℕ := (es.map DataEntry.size).sum

def located (start : ℕ) : List DataEntry → List (DataEntry × ℕ)
  | [] => []
  | e :: es => (e, start) :: located (start + e.size) es

structure CommittedScan where
  yielded : List (DataEntry × ℕ)
  committedOffset : ℕ
  damaged : Bool
deriving DecidableEq, Repr

/-- `CommittedEntryIterator` from a point where `batch` is buffered, if a batch is open, and
`committed` is the offset past the last unit yielded. -/
def scanUnits (tail : Tail) :
    List (DataEntry × ℕ) → Option (List (DataEntry × ℕ)) → ℕ → CommittedScan
  | [], _, committed => ⟨[], committed, tail = .damage⟩
  | (e, offset) :: rest, none, committed =>
    if e.entryType = .bulkBegin then scanUnits tail rest (some [(e, offset)]) committed
    else
      let r := scanUnits tail rest none (offset + e.size)
      { r with yielded := (e, offset) :: r.yielded }
  | (e, offset) :: rest, some batch, committed =>
    match e.entryType with
    -- A change marker is a unit of its own: inside a batch it is damage.
    | .changeMarker => ⟨[], committed, true⟩
    | .bulkEnd =>
      let r := scanUnits tail rest none (offset + e.size)
      { r with yielded := batch ++ (e, offset) :: r.yielded }
    | _ => scanUnits tail rest (some (batch ++ [(e, offset)])) committed

def scanCommitted (file : DataFile) : CommittedScan := scanUnits file.tail (located 0 file.entries) none 0

inductive IsUnit : List DataEntry → Prop
  | single {e : DataEntry} : e.entryType ≠ .bulkBegin → IsUnit [e]
  | batch {b e : DataEntry} {es : List DataEntry} : b.entryType = .bulkBegin → e.entryType = .bulkEnd →
      (∀ x ∈ es, x.entryType ≠ .bulkEnd ∧ x.entryType ≠ .changeMarker) → IsUnit (b :: es ++ [e])

inductive Units : List DataEntry → Prop
  | nil : Units []
  | cons {u es : List DataEntry} : IsUnit u → Units es → Units (u ++ es)

@[simp] lemma bytesOf_nil : bytesOf [] = 0 := rfl

@[simp] lemma bytesOf_cons (e : DataEntry) (es : List DataEntry) : bytesOf (e :: es) = e.size + bytesOf es := by
  simp [bytesOf]

@[simp] lemma bytesOf_append (es fs : List DataEntry) : bytesOf (es ++ fs) = bytesOf es + bytesOf fs := by
  simp [bytesOf]

@[simp] lemma located_map_fst (es : List DataEntry) : (located start es).map Prod.fst = es := by
  induction es generalizing start with
  | nil => rfl
  | cons e es ih => simp [located, ih]

@[simp] lemma located_length (es : List DataEntry) : (located start es).length = es.length := by
  induction es generalizing start with
  | nil => rfl
  | cons e es ih => simp [located, ih]

lemma located_append (es fs : List DataEntry) : located start (es ++ fs) = located start es ++ located (start + bytesOf es) fs := by
  induction es generalizing start with
  | nil => simp [located]
  | cons e es ih => simp [located, ih, Nat.add_assoc]

lemma Units.append (he : Units es) (hf : Units fs) : Units (es ++ fs) := by
  induction he with
  | nil => exact hf
  | cons hu _ ih =>
    rw [append_assoc]
    exact Units.cons hu ih

lemma IsUnit.units (h : IsUnit u) : Units u := by
  simpa using Units.cons h Units.nil

lemma scanUnits_batch (rest : List (DataEntry × ℕ)) (e : DataEntry) (es : List DataEntry) (he : e.entryType = .bulkEnd)
    (hes : ∀ x ∈ es, x.entryType ≠ .bulkEnd ∧ x.entryType ≠ .changeMarker) :
    scanUnits tail (located start (es ++ [e]) ++ rest) (some batch) committed =
      let r := scanUnits tail rest none (start + bytesOf (es ++ [e]))
      { r with yielded := batch ++ (located start (es ++ [e]) ++ r.yielded) } := by
  induction es generalizing start batch with
  | nil => simp [located, scanUnits, he]
  | cons x es ih =>
    obtain ⟨hx, hx'⟩ := hes x mem_cons_self
    have hes' : ∀ y ∈ es, y.entryType ≠ .bulkEnd ∧ y.entryType ≠ .changeMarker :=
      fun y hy => hes y (mem_cons_of_mem x hy)
    simp only [cons_append, located, scanUnits]
    rw [ih _ _ hes']
    simp [Nat.add_assoc]

lemma scanUnits_unit (u : List DataEntry) (rest : List (DataEntry × ℕ)) (hu : IsUnit u) :
    scanUnits tail (located start u ++ rest) none committed =
      let r := scanUnits tail rest none (start + bytesOf u)
      { r with yielded := located start u ++ r.yielded } := by
  cases hu with
  | single h => simp [located, scanUnits, h]
  | @batch b e es hb he hes =>
    simp only [cons_append, located, scanUnits, hb, if_true]
    rw [scanUnits_batch tail _ _ _ _ e es he hes]
    simp [Nat.add_assoc]

lemma scanUnits_units (es : List DataEntry) (rest : List (DataEntry × ℕ)) (hes : Units es) (hne : es ≠ [] ∨ committed = start) :
    scanUnits tail (located start es ++ rest) none committed =
      let r := scanUnits tail rest none (start + bytesOf es)
      { r with yielded := located start es ++ r.yielded } := by
  induction hes generalizing start committed with
  | nil =>
    have hc : committed = start := by simpa using hne
    simp [located, hc]
  | @cons u es hu hes ih =>
    rw [located_append, append_assoc, scanUnits_unit tail start _ u _ hu,
      ih _ _ (.inr rfl)]
    simp [Nat.add_assoc]

lemma scanCommitted_units (h : Units es) : scanCommitted ⟨es, .zeros⟩ = ⟨located 0 es, bytesOf es, false⟩ := by
  have hs := scanUnits_units .zeros 0 0 es [] h (.inr rfl)
  simpa [scanCommitted, scanUnits] using hs

def Unfinished (es : List DataEntry) : Prop := ∀ u, IsUnit u → ¬ u <+: es

lemma IsUnit.ne_nil (h : IsUnit u) : u ≠ [] := by
  cases h <;> simp

lemma exists_units_append (es : List DataEntry) : ∃ us rest, es = us ++ rest ∧ Units us ∧ Unfinished rest := by
  induction hn : es.length using Nat.strong_induction_on generalizing es with
  | _ n ih =>
    by_cases h : Unfinished es
    · exact ⟨[], es, rfl, .nil, h⟩
    · simp only [Unfinished, not_forall, not_not] at h
      obtain ⟨u, hu, rest, rfl⟩ := h
      have hlt : rest.length < n := by
        have := length_pos_iff.2 hu.ne_nil
        rw [← hn, length_append]
        omega
      obtain ⟨us, rest', rfl, hus, hrest⟩ := ih _ hlt rest rfl
      exact ⟨u ++ us, rest', (append_assoc ..).symm, .cons hu hus, hrest⟩

lemma batch_end_unique {f : DataEntry} (hes : ∀ x ∈ es, x.entryType ≠ .bulkEnd ∧ x.entryType ≠ .changeMarker)
    (hfs : ∀ x ∈ fs, x.entryType ≠ .bulkEnd ∧ x.entryType ≠ .changeMarker) (he : e.entryType = .bulkEnd)
    (hf : f.entryType = .bulkEnd) (h : es ++ e :: xs = fs ++ f :: ys) : es = fs ∧ e = f := by
  induction es generalizing fs with
  | nil =>
    cases fs with
    | nil => exact ⟨rfl, (List.cons.inj h).1⟩
    | cons y fs => exact absurd ((List.cons.inj h).1 ▸ he) (hfs y mem_cons_self).1
  | cons x es ih =>
    cases fs with
    | nil => exact absurd ((List.cons.inj h).1 ▸ hf) (hes x mem_cons_self).1
    | cons y fs =>
      obtain ⟨rfl, htail⟩ := List.cons.inj h
      obtain ⟨rfl, rfl⟩ := ih (fun z hz => hes z (mem_cons_of_mem x hz))
        (fun z hz => hfs z (mem_cons_of_mem x hz)) htail
      exact ⟨rfl, rfl⟩

lemma IsUnit.eq_of_append_eq {v : List DataEntry} (hu : IsUnit u) (hv : IsUnit v) (h : u ++ xs = v ++ ys) : u = v := by
  cases hu with
  | single hu =>
    cases hv with
    | single hv => rw [(List.cons.inj h).1]
    | batch hb => exact absurd ((List.cons.inj h).1 ▸ hb) hu
  | @batch b e es hb he hes =>
    cases hv with
    | single hv => exact absurd ((List.cons.inj h).1 ▸ hb) hv
    | @batch c f fs hc hf hfs =>
      obtain ⟨rfl, h⟩ := List.cons.inj h
      obtain ⟨rfl, rfl⟩ := batch_end_unique hes hfs he hf (by simpa using h)
      rfl

lemma Units.prefix_of_unfinished {vs : List DataEntry} (hvs : Units vs) (hus : Units us) (hrest : Unfinished rest)
    (h : vs <+: us ++ rest) : vs <+: us := by
  induction hvs generalizing us with
  | nil => exact nil_prefix
  | @cons v vs hv _ ih =>
    obtain ⟨ys, h⟩ := h
    cases hus with
    | nil => exact absurd ⟨vs ++ ys, by simpa using h⟩ (hrest v hv)
    | @cons u us hu hus =>
      rw [append_assoc, append_assoc] at h
      obtain rfl := hv.eq_of_append_eq hu h
      rw [prefix_append_right_inj]
      exact ih hus ⟨ys, append_cancel_left h⟩

lemma scanUnits_open (h : ∀ xs e ys, es = xs ++ e :: ys → e.entryType = .bulkEnd →
      ¬ ∀ x ∈ xs, x.entryType ≠ .bulkEnd ∧ x.entryType ≠ .changeMarker) :
    (scanUnits tail (located start es) (some batch) committed).yielded = [] ∧
      (scanUnits tail (located start es) (some batch) committed).committedOffset = committed := by
  induction es generalizing start batch with
  | nil => exact ⟨rfl, rfl⟩
  | cons e es ih =>
    have hne : e.entryType ≠ .bulkEnd := fun he => h [] e es rfl he (by simp)
    simp only [located, scanUnits]
    split
    · exact ⟨rfl, rfl⟩
    · exact absurd ‹_› hne
    · next hm _ =>
      refine ih _ _ fun xs f ys hes hf hxs => h (e :: xs) f ys (by rw [hes]; rfl) hf ?_
      intro x hx
      rcases mem_cons.1 hx with rfl | hx
      · exact ⟨hne, hm⟩
      · exact hxs x hx

lemma scanUnits_unfinished (h : Unfinished es) :
    (scanUnits tail (located start es) none committed).yielded = [] ∧
      (scanUnits tail (located start es) none committed).committedOffset = committed := by
  cases es with
  | nil => exact ⟨rfl, rfl⟩
  | cons e es =>
    have he : e.entryType = .bulkBegin := by
      by_contra hne
      exact h [e] (.single hne) (prefix_append [e] es)
    simp only [located, scanUnits, he, if_true]
    refine scanUnits_open tail _ _ _ fun xs f ys hes hf hxs => ?_
    exact h _ (.batch he hf hxs) ⟨ys, by simp [hes]⟩

lemma scanCommitted_spec (hus : Units us) (hrest : Unfinished rest) (tail : Tail) :
    (scanCommitted ⟨us ++ rest, tail⟩).yielded = located 0 us ∧
      (scanCommitted ⟨us ++ rest, tail⟩).committedOffset = bytesOf us := by
  have hs := scanUnits_units tail 0 0 us (located (bytesOf us) rest) hus (.inr rfl)
  obtain ⟨hy, hc⟩ := scanUnits_unfinished tail (bytesOf us) (0 + bytesOf us) hrest
  simp only [scanCommitted, located_append, Nat.zero_add] at hs hy hc ⊢
  rw [hs]
  simp [hy, hc]

def splitUnits : Option (List DataEntry) → List DataEntry → List (List DataEntry)
  | _, [] => []
  | none, e :: es => if e.entryType = .bulkBegin then splitUnits (some [e]) es else [e] :: splitUnits none es
  | some batch, e :: es =>
    if e.entryType = .bulkEnd then (batch ++ [e]) :: splitUnits none es else splitUnits (some (batch ++ [e])) es

def unitsOf (es : List DataEntry) : List (List DataEntry) := splitUnits none es

lemma splitUnits_batch (batch : List DataEntry) (he : e.entryType = .bulkEnd)
    (hes : ∀ x ∈ es, x.entryType ≠ .bulkEnd) (rest : List DataEntry) :
    splitUnits (some batch) (es ++ e :: rest) = (batch ++ es ++ [e]) :: splitUnits none rest := by
  induction es generalizing batch with
  | nil => simp [splitUnits, he]
  | cons x es ih =>
    rw [cons_append, splitUnits, if_neg (hes x mem_cons_self), ih _ fun y hy => hes y (mem_cons_of_mem x hy)]
    simp

lemma unitsOf_unit (hu : IsUnit u) (es : List DataEntry) : unitsOf (u ++ es) = u :: unitsOf es := by
  cases hu with
  | single h => simp [unitsOf, splitUnits, h]
  | @batch b e xs hb he hxs =>
    rw [append_assoc, cons_append, singleton_append, unitsOf, splitUnits, if_pos hb,
      splitUnits_batch _ he fun x hx => (hxs x hx).1]
    rfl

lemma unitsOf_append (hes : Units es) (fs : List DataEntry) : unitsOf (es ++ fs) = unitsOf es ++ unitsOf fs := by
  induction hes with
  | nil => rfl
  | cons hu _ ih => rw [append_assoc, unitsOf_unit hu, unitsOf_unit hu, ih, cons_append]

lemma flatten_unitsOf (hes : Units es) : (unitsOf es).flatten = es := by
  induction hes with
  | nil => rfl
  | cons hu _ ih => rw [unitsOf_unit hu, flatten_cons, ih]

lemma isUnit_of_mem_unitsOf (hes : Units es) : ∀ u ∈ unitsOf es, IsUnit u := by
  induction hes with
  | nil => simp [unitsOf, splitUnits]
  | cons hu _ ih =>
    rw [unitsOf_unit hu]
    intro v hv
    rcases mem_cons.1 hv with rfl | hv
    · exact hu
    · exact ih v hv

end Bytecask
