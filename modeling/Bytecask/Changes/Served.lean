import Bytecask.Changes.Slice

/-! Every scan gives its slice, whatever the other scans do to the index meanwhile. -/

namespace Bytecask.Changes

open List Scan

def Marks (L : ChangeLog) (id : FileId) (b : Bookmark) : Prop :=
  ∃ us u vs e, L.units id = us ++ u :: vs ∧ u.head? = some e ∧ b = ⟨e.sequence, bytesOf us.flatten⟩

inductive Position (L : ChangeLog) (id : FileId) : List (DataEntry × ℕ) → Bool → Prop
  | between {us vs : List (List DataEntry)} : L.units id = us ++ vs →
      Position L id (located (bytesOf us.flatten) vs.flatten) false
  | inside {us vs : List (List DataEntry)} {before after : List DataEntry} :
      L.units id = us ++ (before ++ after) :: vs → before ≠ [] → after ≠ [] →
      Position L id (located (bytesOf us.flatten + bytesOf before) (after ++ vs.flatten)) true

section Position

variable {crc : Crc} {L : ChangeLog} {id : FileId}
variable {us : List (List DataEntry)} {e : DataEntry}

lemma units_flatten (h : ∀ u ∈ us, IsUnit u) : Units us.flatten := by
  induction us with
  | nil => exact .nil
  | cons u us ih =>
    exact .cons (h u mem_cons_self) (ih fun v hv => h v (mem_cons_of_mem u hv))

lemma located_shift (start offset : ℕ) (es : List DataEntry) :
    (located offset es).map (fun p => (p.1, start + p.2)) = located (start + offset) es := by
  induction es generalizing offset with
  | nil => rfl
  | cons e es ih => simp [located, ih, Nat.add_assoc]

lemma scanFrom_between {vs : List (List DataEntry)} (h : L.units id = us ++ vs) :
    scanFrom crc (L.bytes crc id) (bytesOf us.flatten) = (located (bytesOf us.flatten) vs.flatten, false) := by
  have hfits : ∀ e ∈ vs.flatten, e.RecordFits := by
    intro e he
    obtain ⟨u, hu, he⟩ := mem_flatten.1 he
    exact L.fits id u (by rw [h]; exact mem_append_right us hu) e he
  have hunits : Units vs.flatten := units_flatten fun u hu => L.isUnit id u (by rw [h]; exact mem_append_right us hu)
  have hdrop : (L.bytes crc id).drop (bytesOf us.flatten) = serializeAll crc vs.flatten := by
    rw [ChangeLog.bytes, ChangeLog.entries, h, flatten_append, serializeAll_append]
    exact drop_left' (serializeAll_length _)
  have hsweep : sweep crc (serializeAll crc vs.flatten ++ []) = ⟨vs.flatten, .zeros⟩ := sweep_of_stop hfits rfl
  rw [append_nil] at hsweep
  rw [scanFrom, hdrop, hsweep, scanCommitted_units hunits]
  simp [located_shift]

lemma batchAfter_inside {before after : List DataEntry} (hu : IsUnit (before ++ e :: after))
    (hb : before ≠ []) : batchAfter true e.entryType = decide (after ≠ []) := by
  obtain ⟨b, before, rfl⟩ := exists_cons_of_ne_nil hb
  generalize hw : b :: before ++ e :: after = w at hu
  cases hu with
  | single _ => simp at hw
  | @batch b' x es hb' hx hes =>
    obtain ⟨rfl, htail⟩ := List.cons.inj hw
    rcases eq_nil_or_concat after with rfl | ⟨mid, y, rfl⟩
    · obtain ⟨-, hlast⟩ := append_inj' htail rfl
      rw [(List.cons.inj hlast).1, hx]
      rfl
    · have hmem : e ∈ es := by
        have hsplit : (before ++ e :: mid) ++ [y] = es ++ [x] := by simpa using htail
        rw [← (append_inj' hsplit rfl).1]
        simp
      rw [batchAfter_of_ne (hes e hmem).1]
      simp

lemma Position.read {offset : ℕ} {rest : List (DataEntry × ℕ)} {inBatch : Bool} (h : Position L id ((e, offset) :: rest) inBatch) :
    Position L id rest (batchAfter inBatch e.entryType) ∧ (inBatch = false → Marks L id ⟨e.sequence, offset⟩) := by
  generalize hes : (e, offset) :: rest = es at h
  cases h with
  | @between us vs hunits =>
    cases vs with
    | nil => simp [located] at hes
    | cons u vs =>
      have hu := L.isUnit id u (by rw [hunits]; simp)
      obtain ⟨x, after, rfl⟩ := exists_cons_of_ne_nil hu.ne_nil
      obtain ⟨hx, rfl⟩ := List.cons.inj hes
      obtain ⟨rfl, rfl⟩ := Prod.mk.inj hx
      refine ⟨?_, fun _ => ⟨us, _, vs, e, hunits, rfl, rfl⟩⟩
      cases after with
      | nil =>
        have hbetween : Position L id (located (bytesOf (us ++ [[e]]).flatten) vs.flatten) false :=
          .between (by simpa using hunits)
        have hout : batchAfter false e.entryType = false := by
          generalize hw : [e] = w at hu
          cases hu with
          | single ht =>
            cases h : e.entryType <;> simp_all [batchAfter]
          | batch _ _ _ => simp at hw
        rw [hout]
        simpa [bytesOf] using hbetween
      | cons y after =>
        have hinside : Position L id (located (bytesOf us.flatten + bytesOf [e]) (y :: after ++ vs.flatten)) true :=
          .inside hunits (by simp) (by simp)
        have hin : batchAfter false e.entryType = true := by
          generalize hw : e :: y :: after = w at hu
          cases hu with
          | single _ => simp at hw
          | batch hb _ _ =>
            rw [(List.cons.inj hw).1, hb]
            rfl
        rw [hin]
        simpa [bytesOf] using hinside
  | @inside us vs before after hunits hb ha =>
    obtain ⟨x, after, rfl⟩ := exists_cons_of_ne_nil ha
    obtain ⟨hx, rfl⟩ := List.cons.inj hes
    obtain ⟨rfl, rfl⟩ := Prod.mk.inj hx
    have hu := L.isUnit id _ (by rw [hunits]; exact mem_append_right us mem_cons_self)
    rw [batchAfter_inside hu hb]
    cases after with
    | nil =>
      have hbetween : Position L id (located (bytesOf (us ++ [before ++ [e]]).flatten) vs.flatten) false :=
        .between (by simpa using hunits)
      simpa [bytesOf, Nat.add_assoc] using hbetween
    | cons y after =>
      have hinside : Position L id
          (located (bytesOf us.flatten + bytesOf (before ++ [e])) (y :: after ++ vs.flatten)) true :=
        .inside (by simpa using hunits) (by simp) (by simp)
      simpa [bytesOf, Nat.add_assoc] using hinside

end Position

namespace Scan

def upcoming (L : ChangeLog) (sc : Scan) : List DataEntry :=
  (match sc.phase with
    | .opening _ id => L.entries id
    | .seeking | .forgetting | .replanning => L.entries sc.fileId
    | .paused => sc.entries.tail.map Prod.fst
    | .scanning | .ended | .failed => sc.entries.map Prod.fst) ++ sc.fileQueue.flatMap (fun q => L.entries q.2)

def rest (L : ChangeLog) (sc : Scan) : List DataEntry :=
  if sc.done ∨ sc.phase = .ended then []
  else emit sc.fromSequence sc.durableSequence sc.maxBytes sc.inBatch sc.included sc.sent (sc.upcoming L)

def work (L : ChangeLog) (sc : Scan) : ℕ :=
  (match sc.phase with
    | .opening _ id => 6 + (L.entries id).length
    | .seeking => 5 + (L.entries sc.fileId).length
    | .forgetting => 4 + (L.entries sc.fileId).length
    | .replanning => 3 + (L.entries sc.fileId).length
    | .paused => 1 + sc.entries.tail.length
    | .scanning => 1 + sc.entries.length
    | .ended | .failed => 0) + if sc.phase = .ended then 0 else (sc.fileQueue.map fun q => 7 + (L.entries q.2).length).sum

def allowance (L : ChangeLog) (s : EngineState) (fromSequence maxBytes : ℕ) : ℕ :=
  (start s fromSequence maxBytes).work L

def Placed (L : ChangeLog) (sc : Scan) : Prop :=
  match sc.phase with
  | .scanning => sc.done = false ∧ sc.needsAdvance = false ∧ Position L sc.fileId sc.entries sc.inBatch
  | .paused => sc.needsAdvance = true ∧ Position L sc.fileId sc.entries.tail sc.inBatch
  | .opening _ id => sc.done = false ∧ sc.needsAdvance = false ∧ sc.inBatch = false ∧ (sc.state.files.get id).isSome
  | .seeking | .forgetting | .replanning => sc.done = false ∧ sc.needsAdvance = false ∧ sc.inBatch = false
  | .ended => True
  | .failed => False

structure Walks (n : ℕ) (L : ChangeLog) (sc : Scan) : Prop where
  snapshot : Snapshot L sc.state
  durable : sc.durableSequence = sc.state.durableSeq
  known : ∀ q ∈ sc.fileQueue, (sc.state.files.get q.2).isSome
  intact : sc.damaged = false
  placed : sc.Placed L
  output : sc.given ++ sc.rest L = slice L sc.state sc.fromSequence sc.maxBytes
  budget : sc.steps + sc.work L ≤ allowance L sc.state sc.fromSequence sc.maxBytes + n

section Step

variable {crc : Crc} {L : ChangeLog} {ix : ChangeIndex}
variable {sc sc' : Scan} {offset n minSequence : ℕ} {e : DataEntry} {tail : List (DataEntry × ℕ)} {id : FileId}
variable {us : List (List DataEntry)}

lemma queuedUnits_flatten (s : EngineState) (f : ℕ) :
    (queuedUnits L s f).flatten = (queueOf s f).flatMap (fun q => L.entries q.2) := by
  rw [queuedUnits]
  induction queueOf s f with
  | nil => rfl
  | cons q queue ih => rw [flatMap_cons, flatten_append, ih, flatMap_cons, ChangeLog.entries]

lemma walks_start {s : EngineState} (h : Snapshot L s) (f m : ℕ) : (start s f m).Walks 0 L where
  snapshot := h
  durable := rfl
  known q hq := by
    obtain ⟨fs, hget, -⟩ := mem_queueOf.1 hq
    exact h.known q.2 fs hget
  intact := rfl
  placed := by
    refine ⟨rfl, rfl, ?_⟩
    have hbetween : Position L 0 (located (bytesOf (L.units 0).flatten) ([] : List (List DataEntry)).flatten) false :=
      .between (append_nil _).symm
    exact hbetween
  output := by
    have hemit := h.emit_queued (f := f) false m
    rw [queuedUnits_flatten] at hemit
    simpa [rest, start, upcoming] using hemit
  budget := by simp [start, allowance]

def SameWalk (sc sc' : Scan) : Prop := ∃ plan laying pending, sc' = { sc with plan, laying, pending }

def Marked (L : ChangeLog) (id : FileId) (p : Scan × ChangeIndex) : Prop :=
  (∀ b ∈ p.1.pending, Marks L id b) ∧ p.2.Sound (Marks L)

lemma SameWalk.refl (sc : Scan) : sc.SameWalk sc := ⟨_, _, _, rfl⟩

lemma SameWalk.trans {sc₁ sc₂ sc₃ : Scan} (h : sc₁.SameWalk sc₂) (h' : sc₂.SameWalk sc₃) : sc₁.SameWalk sc₃ := by
  obtain ⟨_, _, _, rfl⟩ := h
  obtain ⟨_, _, _, rfl⟩ := h'
  exact ⟨_, _, _, rfl⟩

lemma handOver_sameWalk (sc : Scan) : sc.SameWalk (sc.handOver ix).1 := by
  rw [handOver]
  split_ifs
  · exact .refl sc
  · split <;> exact ⟨_, _, _, rfl⟩

lemma handOver_pending (sc : Scan) : (sc.handOver ix).1.pending = [] := by
  rw [handOver]
  split_ifs with hnil
  · exact hnil
  · split <;> rfl

lemma handOver_sound (h : Marked L sc.fileId (sc, ix)) : (sc.handOver ix).2.Sound (Marks L) := by
  rw [handOver]
  split_ifs
  · exact h.2
  · have hsound := h.2.extend sc.plan.generation h.1
    split <;> next heq => rwa [heq] at hsound

lemma handOver_marked (h : Marked L sc.fileId (sc, ix)) : Marked L sc.fileId (sc.handOver ix) := by
  refine ⟨?_, handOver_sound h⟩
  rw [handOver_pending]
  simp

lemma layBookmark_spec (h : Marked L sc.fileId (sc, ix)) {sequence : ℕ} (hb : Marks L sc.fileId ⟨sequence, offset⟩) :
    sc.SameWalk (sc.layBookmark sequence offset ix).1 ∧ Marked L sc.fileId (sc.layBookmark sequence offset ix) := by
  have hp : ∀ b ∈ sc.pending ++ [⟨sequence, offset⟩], Marks L sc.fileId b := by
    intro b hmem
    rcases mem_append.1 hmem with hmem | hmem
    · exact h.1 b hmem
    · rwa [mem_singleton.1 hmem]
  rw [layBookmark]
  split_ifs
  · exact ⟨.refl sc, h⟩
  · exact ⟨.refl sc, h⟩
  · simp only
    split_ifs
    · exact ⟨SameWalk.trans ⟨_, _, _, rfl⟩ (handOver_sameWalk _), handOver_marked ⟨hp, h.2⟩⟩
    · exact ⟨⟨_, _, _, rfl⟩, hp, h.2⟩

def look (sc : Scan) (e : DataEntry) : Scan :=
  { sc with
    included := if sc.inBatch then sc.included else decide (sc.fromSequence < e.sequence)
    inBatch := batchAfter sc.inBatch e.entryType }

lemma startUnit_spec (h : Marked L sc.fileId (sc, ix)) (hb : sc.inBatch = false → Marks L sc.fileId ⟨e.sequence, offset⟩) :
    SameWalk { sc with included := if sc.inBatch then sc.included else decide (sc.fromSequence < e.sequence) }
        (sc.startUnit e offset ix).1 ∧
      Marked L sc.fileId (sc.startUnit e offset ix) := by
  rw [startUnit]
  split_ifs with hin
  · exact ⟨.refl sc, h⟩
  · simp only
    split_ifs
    · have hlook : Marked L _ ({ sc with included := decide (sc.fromSequence < e.sequence) }, ix) := h
      exact layBookmark_spec hlook (hb (by simpa using hin))
    · exact ⟨.refl _, h⟩

inductive Read (sc : Scan) (e : DataEntry) (tail : List (DataEntry × ℕ)) : Scan → Prop
  | skipped : (sc.look e).included = false → Read sc e tail { sc.look e with entries := tail }
  | stopped : (sc.look e).included = true → sc.durableSequence < e.sequence →
      Read sc e tail { sc.look e with phase := .ended, done := true }
  | gave : (sc.look e).included = true → e.sequence ≤ sc.durableSequence →
      Read sc e tail { sc.look e with
        phase := .paused
        given := sc.given ++ [e]
        needsAdvance := true
        sent := sc.sent + e.size
        done := sc.done || decide (sc.maxBytes ≤ sc.sent + e.size ∧ batchAfter sc.inBatch e.entryType = false) }

lemma readEntry_spec (h : Marked L sc.fileId (sc, ix))
    (tail : List (DataEntry × ℕ)) (hb : sc.inBatch = false → Marks L sc.fileId ⟨e.sequence, offset⟩) :
    (∃ sc', sc.Read e tail sc' ∧ sc'.SameWalk (sc.readEntry e offset tail ix).1) ∧
      Marked L sc.fileId (sc.readEntry e offset tail ix) := by
  obtain ⟨hwalk, hmarked⟩ := startUnit_spec h hb
  rw [readEntry]
  generalize sc.startUnit e offset ix = r at hwalk hmarked
  obtain ⟨sc₁, ix₁⟩ := r
  obtain ⟨plan, laying, pending, hsc⟩ := hwalk
  subst hsc
  by_cases hinc : (sc.look e).included = true
  · have hinc' : (if sc.inBatch then sc.included else decide (sc.fromSequence < e.sequence)) = true := hinc
    simp only [hinc', Bool.not_true, Bool.false_eq_true, if_false]
    by_cases hd : sc.durableSequence < e.sequence
    · rw [if_pos hd, finish]
      refine ⟨⟨_, .stopped hinc hd, SameWalk.trans ⟨plan, laying, pending, ?_⟩ (handOver_sameWalk _)⟩, handOver_marked hmarked⟩
      simp [look, hinc']
    · rw [if_neg hd, give]
      split_ifs with hcut
      · refine ⟨⟨_, .gave hinc (not_lt.1 hd), SameWalk.trans ⟨plan, laying, pending, ?_⟩ (handOver_sameWalk _)⟩,
          handOver_marked hmarked⟩
        simp only [Bool.not_eq_true', look] at hcut ⊢
        simp [hinc', hcut]
      · refine ⟨⟨_, .gave hinc (not_lt.1 hd), ⟨plan, laying, pending, ?_⟩⟩, hmarked⟩
        simp only [Bool.not_eq_true', look] at hcut ⊢
        simp [hinc', hcut]
  · have hinc' : (if sc.inBatch then sc.included else decide (sc.fromSequence < e.sequence)) = false :=
      Bool.eq_false_iff.2 hinc
    simp only [hinc', Bool.not_false, if_true]
    exact ⟨⟨_, .skipped (by simpa using hinc), ⟨plan, laying, pending, by simp [look, hinc']⟩⟩, hmarked⟩

lemma Walks.sameWalk (h : sc.Walks n L) (hw : sc.SameWalk sc') : sc'.Walks n L := by
  obtain ⟨_, _, _, rfl⟩ := hw
  exact ⟨h.snapshot, h.durable, h.known, h.intact, h.placed, h.output, h.budget⟩

lemma Walks.read (h : sc.Walks 1 L) (hphase : sc.phase = .scanning)
    (hes : sc.entries = (e, offset) :: tail) (hr : sc.Read e tail sc') :
    sc'.Walks 0 L := by
  have hplaced := h.placed
  have hout := h.output
  have hbudget := h.budget
  simp only [Placed, hphase, hes] at hplaced
  obtain ⟨hdone, hadv, hpos⟩ := hplaced
  have hpos' := hpos.read.1
  have hne : ¬ (sc.done = true ∨ sc.phase = .ended) := by simp [hdone, hphase]
  rw [rest, if_neg hne] at hout
  simp only [upcoming, hphase, hes, map_cons, cons_append, emit] at hout
  simp only [work, hphase, hes, length_cons, reduceCtorEq, if_false] at hbudget
  cases hr with
  | skipped hinc =>
    have hinc' : (if sc.inBatch then sc.included else decide (sc.fromSequence < e.sequence)) = false := hinc
    refine ⟨h.snapshot, h.durable, h.known, h.intact, ?_, ?_, ?_⟩
    · simp only [Placed, look, hphase]
      exact ⟨hdone, hadv, hpos'⟩
    · simp only [hinc', Bool.not_false, if_true] at hout
      simpa [rest, look, hdone, hphase, upcoming, hinc'] using hout
    · simp only [work, look, hphase, reduceCtorEq, if_false]
      omega
  | stopped hinc hd =>
    have hinc' : (if sc.inBatch then sc.included else decide (sc.fromSequence < e.sequence)) = true := hinc
    refine ⟨h.snapshot, h.durable, h.known, h.intact, trivial, ?_, ?_⟩
    · simpa [rest, look, hinc', hd] using hout
    · simp only [work, look, if_true]
      omega
  | gave hinc hd =>
    have hinc' : (if sc.inBatch then sc.included else decide (sc.fromSequence < e.sequence)) = true := hinc
    refine ⟨h.snapshot, h.durable, h.known, h.intact, ?_, ?_, ?_⟩
    · simp only [Placed, look, hes, tail_cons]
      exact ⟨trivial, hpos'⟩
    · simp only [hinc', Bool.not_true, Bool.false_eq_true, if_false, not_lt.2 hd] at hout
      simpa [rest, look, hdone, upcoming, hes, hinc'] using hout
    · simp only [work, look, hes, tail_cons, reduceCtorEq, if_false]
      omega

lemma Position.flag_of_nil {L : ChangeLog} {inBatch : Bool} (h : Position L id [] inBatch) : inBatch = false := by
  generalize hes : ([] : List (DataEntry × ℕ)) = es at h
  cases h with
  | between _ => rfl
  | @inside us vs before after _ _ ha =>
    obtain ⟨x, after, rfl⟩ := exists_cons_of_ne_nil ha
    cases hes

lemma Walks.exhausted (h : sc.Walks 1 L) (hphase : sc.phase = .scanning) (hes : sc.entries = [])
    (hq : sc.fileQueue = []) : Walks 0 L { sc with phase := .ended } := by
  have hplaced := h.placed
  have hout := h.output
  have hbudget := h.budget
  simp only [Placed, hphase, hes] at hplaced
  refine ⟨h.snapshot, h.durable, h.known, h.intact, trivial, ?_, ?_⟩
  · simpa [rest, hplaced.1, hphase, upcoming, hes, hq, emit] using hout
  · simp only [work, hphase, hes, hq] at hbudget ⊢
    simp at hbudget ⊢
    omega

lemma Walks.dequeue (h : sc.Walks 1 L) (hphase : sc.phase = .scanning) (hes : sc.entries = [])
    {queue : List (ℕ × FileId)} (hq : sc.fileQueue = (minSequence, id) :: queue) :
    Walks 0 L { sc with fileQueue := queue, inBatch := false, phase := .opening minSequence id } := by
  have hplaced := h.placed
  have hout := h.output
  have hbudget := h.budget
  simp only [Placed, hphase, hes] at hplaced
  obtain ⟨hdone, hadv, hpos⟩ := hplaced
  have hflag := Position.flag_of_nil hpos
  have hknown := h.known
  rw [hq] at hknown
  refine ⟨h.snapshot, h.durable, fun q hq => hknown q (mem_cons_of_mem _ hq), h.intact, ?_, ?_, ?_⟩
  · exact ⟨hdone, hadv, rfl, hknown _ mem_cons_self⟩
  · simpa [rest, hdone, hphase, upcoming, hes, hq, hflag] using hout
  · simp only [work, hphase, hes, hq, map_cons, sum_cons] at hbudget ⊢
    simp at hbudget ⊢
    omega

structure Entering (n : ℕ) (L : ChangeLog) (sc : Scan) : Prop where
  snapshot : Snapshot L sc.state
  durable : sc.durableSequence = sc.state.durableSeq
  known : ∀ q ∈ sc.fileQueue, (sc.state.files.get q.2).isSome
  fresh : sc.done = false ∧ sc.needsAdvance = false ∧ sc.inBatch = false
  output : sc.given ++ emit sc.fromSequence sc.durableSequence sc.maxBytes false sc.included sc.sent
    (L.entries sc.fileId ++ sc.fileQueue.flatMap (fun q => L.entries q.2)) =
      slice L sc.state sc.fromSequence sc.maxBytes
  budget : sc.steps + (1 + (L.entries sc.fileId).length + (sc.fileQueue.map fun q => 7 + (L.entries q.2).length).sum) ≤
    allowance L sc.state sc.fromSequence sc.maxBytes + n

lemma emit_skip_units {f d m sent : ℕ} {inc : Bool} (hus : ∀ u ∈ us, IsUnit u)
    (hf : ∀ u ∈ us, firstOf u ≤ f) (rest : List DataEntry) :
    emit f d m false inc sent (us.flatten ++ rest) = emit f d m false inc sent rest := by
  induction us with
  | nil => rfl
  | cons u us ih =>
    rw [flatten_cons, append_assoc, emit_skip (hus u mem_cons_self) (hf u mem_cons_self)]
    exact ih (fun v hv => hus v (mem_cons_of_mem u hv)) fun v hv => hf v (mem_cons_of_mem u hv)

lemma Entering.walks (h : sc.Entering n L) {vs : List (List DataEntry)}
    (hunits : L.units sc.fileId = us ++ vs) (hus : ∀ u ∈ us, firstOf u ≤ sc.fromSequence) :
    (sc.enter crc (L.bytes crc) (bytesOf us.flatten)).Walks n L := by
  have hscan : scanFrom crc (L.bytes crc sc.fileId) (bytesOf us.flatten) = _ := scanFrom_between hunits
  obtain ⟨hdone, hadv, hflag⟩ := h.fresh
  have hentries : L.entries sc.fileId = us.flatten ++ vs.flatten := by
    rw [ChangeLog.entries, hunits, flatten_append]
  have hout := h.output
  have hbudget := h.budget
  rw [hentries] at hout hbudget
  rw [append_assoc, emit_skip_units (fun u hu => L.isUnit sc.fileId u (by simp [hunits, hu])) hus] at hout
  refine ⟨h.snapshot, h.durable, h.known, ?_, ?_, ?_, ?_⟩
  · simp [enter, hscan]
  · simp only [Placed, enter, hscan, hflag]
    exact ⟨hdone, hadv, .between hunits⟩
  · simpa [rest, enter, hscan, hdone, hflag, upcoming] using hout
  · simp only [length_append] at hbudget
    simp only [work, enter, hscan, located_length, reduceCtorEq, if_false]
    omega

lemma Entering.walks_mark (h : sc.Entering n L) {b : Bookmark} (hb : Marks L sc.fileId b)
    (hle : b.sequence ≤ sc.fromSequence) : (sc.enter crc (L.bytes crc) b.offset).Walks n L := by
  obtain ⟨us, u, vs, e, hunits, hhead, rfl⟩ := hb
  refine h.walks hunits fun v hv => ?_
  obtain ⟨x, hx, hfirst⟩ := firstOf_mem (L.isUnit sc.fileId v (by simp [hunits, hv]))
  have hasc := L.ascending sc.fileId
  rw [hunits, flatten_append, flatten_cons] at hasc
  have hlt := (pairwise_append.1 hasc).2.2 x (mem_flatten_of_mem hv hx) e
    (mem_append_left _ (List.mem_of_head? hhead))
  have hle' : e.sequence ≤ sc.fromSequence := hle
  omega

lemma Entering.walks_front (h : sc.Entering n L) : (sc.enter crc (L.bytes crc) 0).Walks n L := by
  have hunits : L.units sc.fileId = [] ++ L.units sc.fileId := rfl
  exact h.walks hunits (by simp)

lemma Walks.entering (h : sc.Walks 1 L)
    (hphase : sc.phase = .seeking ∨ sc.phase = .forgetting ∨ sc.phase = .replanning) : sc.Entering 0 L := by
  have hplaced := h.placed
  have hout := h.output
  have hbudget := h.budget
  have hne : sc.phase ≠ .ended := by
    rintro heq
    rw [heq] at hphase
    simp at hphase
  have hfresh : sc.done = false ∧ sc.needsAdvance = false ∧ sc.inBatch = false := by
    rcases hphase with hphase | hphase | hphase <;> simpa [Placed, hphase] using hplaced
  have hup : sc.upcoming L = L.entries sc.fileId ++ sc.fileQueue.flatMap (fun q => L.entries q.2) := by
    rcases hphase with hphase | hphase | hphase <;> simp [upcoming, hphase]
  refine ⟨h.snapshot, h.durable, h.known, hfresh, ?_, ?_⟩
  · rw [rest, if_neg (by simp [hfresh.1, hne]), hup, hfresh.2.2] at hout
    exact hout
  · rw [work, if_neg hne] at hbudget
    rcases hphase with hphase | hphase | hphase <;>
    · simp only [hphase] at hbudget
      omega

lemma Entering.stay (h : sc.Walks 1 L) {phase : Phase}
    (hphase : (sc.phase = .seeking ∧ phase = .forgetting) ∨ (sc.phase = .forgetting ∧ phase = .replanning)) :
    Walks 0 L { sc with phase } := by
  have hplaced := h.placed
  have hout := h.output
  have hbudget := h.budget
  rcases hphase with ⟨hphase, rfl⟩ | ⟨hphase, rfl⟩
  all_goals
    refine ⟨h.snapshot, h.durable, h.known, h.intact, ?_, ?_, ?_⟩
    · simpa [Placed, hphase] using hplaced
    · simpa [rest, upcoming, hphase] using hout
    · simp only [work, hphase, reduceCtorEq, if_false] at hbudget ⊢
      omega

lemma Walks.opening (h : sc.Walks 1 L) (hphase : sc.phase = .opening minSequence id) (plan : BookmarkPlan) (laying : Bool) :
    Entering 0 L { sc with fileId := id, plan, laying } ∧
      Walks 0 L { sc with fileId := id, plan, laying, phase := .seeking } := by
  have hplaced := h.placed
  have hout := h.output
  have hbudget := h.budget
  simp only [Placed, hphase] at hplaced
  obtain ⟨hdone, hadv, hflag, -⟩ := hplaced
  simp only [rest, upcoming, work, hphase, hdone, hflag, reduceCtorEq, if_false, Bool.false_eq_true, or_self] at hout hbudget
  constructor
  · refine ⟨h.snapshot, h.durable, h.known, ⟨hdone, hadv, hflag⟩, hout, ?_⟩
    simp only
    omega
  · refine ⟨h.snapshot, h.durable, h.known, h.intact, ⟨hdone, hadv, hflag⟩, ?_, ?_⟩
    · simpa [rest, upcoming, hdone, hflag] using hout
    · simp only [work, reduceCtorEq, if_false]
      omega

structure Sound (L : ChangeLog) (sc : Scan) : Prop where
  walks : sc.Walks 0 L
  pending : ∀ b ∈ sc.pending, Marks L sc.fileId b
  settled : ∀ minSequence id, sc.phase = .opening minSequence id → sc.pending = []

lemma Sound.readEntry (hw : sc.Walks 1 L) (hm : Marked L sc.fileId (sc, ix)) (hphase : sc.phase = .scanning)
    (hes : sc.entries = (e, offset) :: tail) :
    (sc.readEntry e offset tail ix).1.Sound L ∧ (sc.readEntry e offset tail ix).2.Sound (Marks L) := by
  have hplaced := hw.placed
  simp only [Placed, hphase, hes] at hplaced
  obtain ⟨⟨sc', hread, hwalk⟩, hpending, hix⟩ := readEntry_spec hm tail hplaced.2.2.read.2
  have hw' := (hw.read hphase hes hread).sameWalk hwalk
  have hphase' : ∀ minSequence id, sc'.phase ≠ .opening minSequence id := by
    cases hread <;> simp [look, hphase]
  have hfile : sc'.fileId = sc.fileId := by cases hread <;> rfl
  obtain ⟨plan, laying, pending, hsc⟩ := hwalk
  rw [hsc] at hw' hpending ⊢
  refine ⟨⟨hw', fun b hb => ?_, fun m id h => absurd h (hphase' m id)⟩, hix⟩
  rw [← hfile] at hpending
  exact hpending b hb

lemma Sound.nextFile (hw : sc.Walks 1 L) (hm : Marked L sc.fileId (sc, ix)) (hphase : sc.phase = .scanning)
    (hes : sc.entries = []) : (sc.nextFile ix).1.Sound L ∧ (sc.nextFile ix).2.Sound (Marks L) := by
  rw [Scan.nextFile]
  split
  · next hq =>
    have hm' : Marked L sc.fileId ({ sc with phase := .ended }, ix) := hm
    refine ⟨⟨(hw.exhausted hphase hes hq).sameWalk (handOver_sameWalk _), ?_, fun _ _ _ => handOver_pending _⟩,
      handOver_sound hm'⟩
    rw [handOver_pending]
    simp
  · next minSequence id queue hq =>
    refine ⟨⟨?_, ?_, fun _ _ _ => handOver_pending _⟩, handOver_sound hm⟩
    · have hsame := @handOver_sameWalk ix sc
      obtain ⟨plan, laying, pending, hsc⟩ := hsame
      simp only [hsc]
      exact (hw.dequeue hphase hes hq).sameWalk ⟨_, _, _, rfl⟩
    · simp only [handOver_pending]
      simp

lemma Walks.count (h : sc.Walks 0 L) : Walks 1 L { sc with steps := sc.steps + 1 } := by
  refine ⟨h.snapshot, h.durable, h.known, h.intact, h.placed, h.output, ?_⟩
  have hbudget := h.budget
  have hwork : Scan.work L { sc with steps := sc.steps + 1 } = sc.work L := rfl
  simp only
  omega

lemma Sound.proceed (hw : sc.Walks 1 L) (hp : ∀ b ∈ sc.pending, Marks L sc.fileId b)
    (hset : ∀ minSequence id, sc.phase = .opening minSequence id → sc.pending = []) (hix : ix.Sound (Marks L))
    (hrun : sc.phase ≠ .paused ∧ sc.phase ≠ .ended) :
    (sc.proceed crc (L.bytes crc) ix).1.Sound L ∧ (sc.proceed crc (L.bytes crc) ix).2.Sound (Marks L) := by
  have hplaced := hw.placed
  rw [Scan.proceed]
  split
  · next hphase =>
    split
    · next e offset tail hes => exact Sound.readEntry hw ⟨hp, hix⟩ hphase hes
    · next hes =>
      rw [if_neg (by rw [hw.intact]; simp)]
      exact Sound.nextFile hw ⟨hp, hix⟩ hphase hes
  · next minSequence id hphase =>
    simp only [Placed, hphase] at hplaced
    have hnil := hset _ id hphase
    obtain ⟨henter, hseek⟩ := hw.opening hphase _ true
    refine ⟨?_, hix⟩
    rw [openFile, if_pos hplaced.2.2.2]
    simp only
    split_ifs
    · exact ⟨hseek, by simp [hnil], by simp⟩
    · exact ⟨henter.walks_front, by simp [enter, hnil], by simp [enter]⟩
  · next hphase =>
    have henter := hw.entering (.inl hphase)
    have hix' := hix.seek sc.fileId sc.fromSequence
    rw [Scan.seek]
    split
    · next ix' hseek =>
      rw [hseek] at hix'
      exact ⟨⟨henter.walks_front, hp, by simp [enter]⟩, hix'⟩
    · next b ix' hseek =>
      obtain ⟨hb, hle⟩ := ChangeIndex.seek_spec hix (congrArg _ hseek)
      rw [hseek] at hix'
      split_ifs
      · exact ⟨⟨henter.walks_mark hb hle, hp, by simp [enter]⟩, hix'⟩
      · exact ⟨⟨Entering.stay hw (.inl ⟨hphase, rfl⟩), hp, by simp⟩, hix'⟩
  · next hphase => exact ⟨⟨Entering.stay hw (.inr ⟨hphase, rfl⟩), hp, by simp⟩, hix.forget sc.fileId⟩
  · next hphase =>
    have henter := hw.entering (.inr (.inr hphase))
    have hplan : Entering 0 L { sc with plan := ix.plan sc.fileId } :=
      ⟨henter.snapshot, henter.durable, henter.known, henter.fresh, henter.output, henter.budget⟩
    exact ⟨⟨hplan.walks_front, hp, by simp [enter]⟩, hix⟩
  · next hphase => exact absurd hphase hrun.1
  · next hphase => exact absurd hphase hrun.2
  · next hphase => simp [Placed, hphase] at hplaced

lemma Sound.step (h : sc.Sound L) (hix : ix.Sound (Marks L)) (hrun : sc.phase ≠ .paused ∧ sc.phase ≠ .ended) :
    (sc.step crc (L.bytes crc) ix).1.Sound L ∧ (sc.step crc (L.bytes crc) ix).2.Sound (Marks L) :=
  Sound.proceed h.walks.count h.pending h.settled hix hrun

lemma Sound.advance (h : sc.Sound L) (hphase : sc.phase = .paused) : sc.advance.Sound L := by
  have hplaced := h.walks.placed
  have hout := h.walks.output
  have hbudget := h.walks.budget
  simp only [Placed, hphase] at hplaced
  obtain ⟨hadv, hpos⟩ := hplaced
  have hnew : sc.advance = { sc with
      entries := sc.entries.tail
      needsAdvance := false
      phase := if sc.done then .ended else .scanning } := by
    simp [Scan.advance, hadv]
  rw [hnew]
  cases hdone : sc.done with
  | true =>
    refine ⟨⟨h.walks.snapshot, h.walks.durable, h.walks.known, h.walks.intact, trivial, ?_, ?_⟩, h.pending, by simp⟩
    · simpa [rest, hdone] using hout
    · simp only [work, hphase] at hbudget
      simp [work]
      omega
  | false =>
    refine ⟨⟨h.walks.snapshot, h.walks.durable, h.walks.known, h.walks.intact, ⟨rfl, rfl, hpos⟩, ?_, ?_⟩,
      h.pending, by simp⟩
    · simpa [rest, hdone, hphase, upcoming] using hout
    · simpa [work, hphase] using hbudget

end Step

end Scan

section System

variable {crc : Crc} {L : ChangeLog} {κ : Type} [DecidableEq κ]
variable {sys : System κ} {id : FileId}

/-- A scan can take a step until it is with its caller or through; its caller moves it on, or drops it. -/
def Enabled (L : ChangeLog) (sys : System κ) : Action κ → Prop
  | .begin k s _ _ => sys.scans k = none ∧ Snapshot L s
  | .step k => ∃ sc, sys.scans k = some sc ∧ sc.phase ≠ .paused ∧ sc.phase ≠ .ended
  | .advance k => ∃ sc, sys.scans k = some sc ∧ sc.phase = .paused
  | .drop k => (sys.scans k).isSome
  | .forget _ => True
  | .clear => True

def machine (crc : Crc) (L : ChangeLog) (κ : Type) [DecidableEq κ] : Machine (System κ) (Action κ) where
  initial sys := sys.index.tables = SortedMap.empty ∧ ∀ k, sys.scans k = none
  Enabled := Enabled L
  next := System.next crc (L.bytes crc)

structure System.Sound (L : ChangeLog) (sys : System κ) : Prop where
  index : sys.index.Sound (Marks L)
  scans : ∀ k sc, sys.scans k = some sc → sc.Sound L

lemma System.Sound.setScan (h : sys.Sound L) (k : κ) {p : Scan × ChangeIndex} (hsc : p.1.Sound L)
    (hix : p.2.Sound (Marks L)) : (sys.setScan k p).Sound L := by
  refine ⟨hix, fun k' sc hk => ?_⟩
  simp only [System.setScan, Function.update_apply] at hk
  split_ifs at hk
  · rw [← Option.some.inj hk]
    exact hsc
  · exact h.scans k' sc hk

lemma System.Sound.next (h : sys.Sound L) (a : Action κ) (ha : Enabled L sys a) : (sys.next crc (L.bytes crc) a).Sound L := by
  cases a with
  | begin k s f m => exact h.setScan k ⟨walks_start ha.2 f m, by simp [Scan.start], by simp [Scan.start]⟩ h.index
  | step k =>
    obtain ⟨sc, hk, hrun⟩ := ha
    obtain ⟨hsc, hix⟩ := @Scan.Sound.step crc _ _ _ (h.scans k sc hk) h.index hrun
    simp only [System.next, hk]
    exact h.setScan k hsc hix
  | advance k =>
    obtain ⟨sc, hk, hphase⟩ := ha
    simp only [System.next, hk]
    exact h.setScan k ((h.scans k sc hk).advance hphase) h.index
  | drop k =>
    obtain ⟨sc, hk⟩ := Option.isSome_iff_exists.1 ha
    simp only [System.next, hk]
    refine ⟨handOver_sound ⟨(h.scans k sc hk).pending, h.index⟩, fun k' sc' hk' => ?_⟩
    simp only [Function.update_apply] at hk'
    split_ifs at hk'
    exact h.scans k' sc' hk'
  | forget id => exact ⟨h.index.forget id, h.scans⟩
  | clear => exact ⟨ChangeIndex.sound_clear _, h.scans⟩

lemma reachable_sound (h : (machine crc L κ).Reachable sys) : sys.Sound L := by
  refine h.invariant ?_ fun s a hs ha => hs.next a ha
  rintro s ⟨hempty, hnone⟩
  refine ⟨fun id t ht => ?_, fun k sc hk => ?_⟩
  · rw [hempty] at ht
    cases ht
  · rw [hnone] at hk
    cases hk

lemma bytesOf_le_of_prefix {us vs : List (List DataEntry)} (h : us <+: vs) : bytesOf us.flatten ≤ bytesOf vs.flatten := by
  obtain ⟨ws, rfl⟩ := h
  rw [flatten_append, bytesOf_append]
  omega

lemma marks_ascending {a b : Bookmark} (ha : Marks L id a) (hb : Marks L id b) (hlt : a.offset < b.offset) :
    a.sequence < b.sequence := by
  obtain ⟨us, u, vs, e, hunits, hhead, rfl⟩ := ha
  obtain ⟨us', u', vs', e', hunits', hhead', rfl⟩ := hb
  simp only at hlt
  have hpre : us <+: us' := by
    refine ( prefix_or_prefix_of_prefix ⟨u :: vs, hunits.symm⟩ ⟨u' :: vs', hunits'.symm⟩).resolve_right fun hle => ?_
    have := bytesOf_le_of_prefix hle
    omega
  obtain ⟨ws, rfl⟩ := hpre
  have hasc := L.ascending id
  cases ws with
  | nil => simp at hlt
  | cons w ws =>
    rw [hunits, append_assoc, append_cancel_left_eq, cons_append] at hunits'
    obtain ⟨rfl, rfl⟩ := List.cons.inj hunits'
    rw [hunits, flatten_append, flatten_cons, flatten_append, flatten_cons] at hasc
    have htail := (pairwise_append.1 (pairwise_append.1 hasc).2.1).2.2
    exact htail e (List.mem_of_head? hhead) e' (mem_append_right _ (mem_append_left _ (List.mem_of_head? hhead')))

lemma Table.Sound.sequences {t : Table} (h : t.Sound (Marks L id)) : t.bookmarks.Pairwise (fun a b => a.sequence < b.sequence) :=
  h.ascending.imp_of_mem fun ha hb => marks_ascending (h.holds _ ha) (h.holds _ hb)

lemma cutAfter_initial (m : ℕ) (us : List (List DataEntry)) : cutAfter m us <+: us := by
  induction us generalizing m with
  | nil => exact prefix_rfl
  | cons u us ih =>
    rw [cutAfter, prefix_cons_inj]
    split_ifs
    · exact nil_prefix
    · exact ih _

lemma slice_ascending {s : EngineState} (h : Snapshot L s) (f m : ℕ) :
    (slice L s f m).Pairwise (fun a b => a.sequence < b.sequence) := by
  rw [slice, h.dueUnits_eq]
  exact h.stream.ascending.sublist ((cutAfter_initial m _).sublist.trans filter_sublist).flatten

def System.readOn (crc : Crc) (read : FileId → Bytes) (k : κ) : ℕ → System κ → System κ
  | 0, sys => sys
  | n + 1, sys =>
    match sys.scans k with
    | none => sys
    | some sc =>
      if sc.phase = .ended then sys
      else if sc.phase = .paused then readOn crc read k n (sys.next crc read (.advance k))
      else readOn crc read k n (sys.next crc read (.step k))

lemma reachable_readOn (h : (machine crc L κ).Reachable sys) (k : κ) (n : ℕ) :
    (machine crc L κ).Reachable (sys.readOn crc (L.bytes crc) k n) := by
  induction n generalizing sys with
  | zero => exact h
  | succ n ih =>
    rw [System.readOn]
    cases hk : sys.scans k with
    | none => exact h
    | some sc =>
      have hstep (a : Action κ) (ha : Enabled L sys a) := ih (h.step a ha)
      simp only
      split_ifs with hend hpaused
      · exact h
      · exact hstep (.advance k) ⟨sc, hk, hpaused⟩
      · exact hstep (.step k) ⟨sc, hk, hpaused, hend⟩

/-- Whatever the scans before it and beside it left in the index, a scan gives its caller the entries of its
slice in order, and all of them by the time it ends, which it does within its allowance of steps. -/
theorem changes_served {sys : System κ} (h : (machine crc L κ).Reachable sys) {k : κ} {sc : Scan}
    (hk : sys.scans k = some sc) :
    sc.given <+: slice L sc.state sc.fromSequence sc.maxBytes ∧
      (slice L sc.state sc.fromSequence sc.maxBytes).Pairwise (fun a b => a.sequence < b.sequence) ∧
      (sc.phase = .ended → sc.given = slice L sc.state sc.fromSequence sc.maxBytes) ∧
      (sc.phase ≠ .ended → sc.phase ≠ .failed ∧ sc.steps < Scan.allowance L sc.state sc.fromSequence sc.maxBytes) := by
  have hwalks := ((reachable_sound h).scans k sc hk).walks
  refine ⟨⟨_, hwalks.output⟩, slice_ascending hwalks.snapshot _ _, fun hend => ?_, fun hne => ?_⟩
  · have hout := hwalks.output
    rwa [Scan.rest, if_pos (.inr hend), append_nil] at hout
  · have hplaced := hwalks.placed
    have hfailed : sc.phase ≠ .failed := by
      intro heq
      simp [Placed, heq] at hplaced
    have hwork : 0 < sc.work L := by
      cases hphase : sc.phase with
      | ended => exact absurd hphase hne
      | failed => exact absurd hphase hfailed
      | _ =>
        simp only [Scan.work, hphase]
        omega
    have hbudget := hwalks.budget
    exact ⟨hfailed, by omega⟩

def twoFilesUnits : FileId → List (List DataEntry)
  | 0 => [[⟨1, .put, [7], [1]⟩], [⟨2, .bulkBegin, [], []⟩, ⟨3, .delete, [7], []⟩, ⟨4, .bulkEnd, [], []⟩]]
  | 1 => [[⟨5, .put, [8], [1]⟩]]
  | _ => []

lemma twoFilesUnits_fits (id : FileId) : ∀ u ∈ twoFilesUnits id, ∀ e ∈ u, e.sequence ≠ 0 ∧ e.sequence < 256 ^ 8 ∧
    e.key.length < 256 ^ 2 ∧ e.value.length < 256 ^ 4 ∧ e.entryType ≠ .changeMarker := by
  match id with
  | 0 => decide +kernel
  | 1 => decide +kernel
  | _ + 2 => simp [twoFilesUnits]

def twoFilesLog : ChangeLog where
  units := twoFilesUnits
  isUnit id u hu := by
    match id with
    | 0 =>
      rcases mem_cons.1 hu with rfl | hu
      · exact .single (by decide)
      · rw [mem_singleton.1 hu]
        exact @IsUnit.batch _ _ [⟨3, .delete, [7], []⟩] rfl rfl (by decide)
    | 1 =>
      rw [mem_singleton.1 hu]
      exact .single (by decide)
    | _ + 2 => cases hu
  fits id u hu e he :=
    have h := twoFilesUnits_fits id u hu e he
    ⟨h.1, h.2.1, h.2.2.1, h.2.2.2.1, fun ht => absurd ht h.2.2.2.2⟩
  ascending id := by
    match id with
    | 0 => decide
    | 1 => decide
    | _ + 2 => exact .nil

def twoFilesState : EngineState where
  files := ⟨[(0, 0), (1, 1)], by decide⟩
  fileStats := ⟨[(0, { minSequence := 1, maxSequence := 4 }), (1, { minSequence := 5, maxSequence := 5 })], by decide⟩
  activeFileId := 1
  nextFileId := 2
  nextSeq := 6
  durableSeq := 4

lemma twoFilesState_stats {fs : FileStats} (h : twoFilesState.fileStats.get id = some fs) :
    (id = 0 ∧ fs = { minSequence := 1, maxSequence := 4 }) ∨ (id = 1 ∧ fs = { minSequence := 5, maxSequence := 5 }) := by
  have hmem := SortedMap.get_eq_some.1 h
  simpa [twoFilesState] using hmem

lemma twoFilesState_snapshot : Snapshot twoFilesLog twoFilesState where
  known id fs h := by
    rcases twoFilesState_stats h with ⟨rfl, -⟩ | ⟨rfl, -⟩ <;> rfl
  stats id fs h := by
    rcases twoFilesState_stats h with ⟨rfl, rfl⟩ | ⟨rfl, rfl⟩
    · exact ⟨twoFilesUnits 0, [], rfl, rfl, rfl, by simp⟩
    · exact ⟨twoFilesUnits 1, [], rfl, rfl, rfl, by simp⟩
  boundary id := by
    match id with
    | 0 => decide
    | 1 => decide
    | _ + 2 => intro u hu; cases hu
  apart id id' fs fs' h h' hne := by
    rcases twoFilesState_stats h with ⟨rfl, -⟩ | ⟨rfl, -⟩ <;> rcases twoFilesState_stats h' with ⟨rfl, -⟩ | ⟨rfl, -⟩
    · exact absurd rfl hne
    · exact .inl (by decide)
    · exact .inr (by decide)
    · exact absurd rfl hne

def twoFilesScan (n : ℕ) : System Unit :=
  (System.mk {} (fun _ => none)).next crc32c (twoFilesLog.bytes crc32c) (.begin () twoFilesState 1 100)
    |>.readOn crc32c (twoFilesLog.bytes crc32c) () n

lemma twoFilesScan_reachable (n : ℕ) : (machine crc32c twoFilesLog Unit).Reachable (twoFilesScan n) := by
  have hstart : (machine crc32c twoFilesLog Unit).Reachable (System.mk {} (fun _ => none)) := .start ⟨rfl, fun _ => rfl⟩
  have hbegun := hstart.step (.begin () _ 1 100 : Action Unit) ⟨rfl, twoFilesState_snapshot⟩
  exact reachable_readOn hbegun () n

theorem twoFilesScan_served : ∃ sc, (twoFilesScan 20).scans () = some sc ∧ sc.phase = .ended ∧
    sc.given.map DataEntry.sequence = [2, 3, 4] ∧ sc.given = slice twoFilesLog sc.state sc.fromSequence sc.maxBytes := by
  have hrun : ∃ sc ∈ (twoFilesScan 20).scans (), sc.phase = .ended ∧ sc.given.map DataEntry.sequence = [2, 3, 4] := by
    decide +kernel
  obtain ⟨sc, hsc, hend, hgiven⟩ := hrun
  exact ⟨sc, hsc, hend, hgiven, (changes_served (twoFilesScan_reachable 20) hsc).2.2.1 hend⟩

end System

end Bytecask.Changes
