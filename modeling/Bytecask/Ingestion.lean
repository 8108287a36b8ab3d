import Bytecask.Barriers
import Bytecask.Lib.Except

/-! Ingestion writes a slice in chunks that end outside every batch, a file for each. -/

namespace Bytecask

open List EStateM

def batchAfter (inBatch : Bool) (e : DataEntry) : Bool :=
  if e.entryType = .bulkBegin then true else if e.entryType = .bulkEnd then false else inBatch

/-- Entries that leave no batch open and hold no marker inside one. With `lone` a BulkEnd may come
alone: its batch may have begun before the entries. -/
def Whole (lone : Bool) : Bool → List DataEntry → Prop
  | inBatch, [] => inBatch = false
  | inBatch, e :: es =>
    (e.entryType = .bulkBegin ∨ e.entryType = .changeMarker → inBatch = false) ∧
      (e.entryType = .bulkEnd → inBatch = true ∨ lone = true) ∧ Whole lone (batchAfter inBatch e) es

section Whole

variable {lone inBatch : Bool} {es fs : List DataEntry}

lemma Whole.lax (h : Whole lone inBatch es) : Whole true inBatch es := by
  induction es generalizing inBatch with
  | nil => exact h
  | cons e es ih => exact ⟨h.1, fun _ => .inr rfl, ih h.2.2⟩

lemma Whole.close (h : Whole lone true es) : Whole true false es := by
  induction es with
  | nil => cases h
  | cons e es ih =>
    obtain ⟨hb, -, h⟩ := h
    have hbegin : e.entryType ≠ .bulkBegin := fun he => Bool.noConfusion (hb (.inl he))
    refine ⟨fun _ => rfl, fun _ => .inr rfl, ?_⟩
    rw [batchAfter, if_neg hbegin] at h ⊢
    split_ifs at h ⊢
    · exact h.lax
    · exact ih h

lemma Whole.of_append (h : Whole lone inBatch (es ++ fs)) : Whole true false fs := by
  induction es generalizing inBatch with
  | nil =>
    cases inBatch with
    | false => exact h.lax
    | true => exact h.close
  | cons e es ih => exact ih h.2.2

lemma Whole.append (h : Whole lone inBatch es) (h' : Whole lone false fs) : Whole lone inBatch (es ++ fs) := by
  induction es generalizing inBatch with
  | nil =>
    cases h
    exact h'
  | cons e es ih => exact ⟨h.1, h.2.1, ih h.2.2⟩

lemma Whole.units_aux : (Whole lone false es → Units es) ∧
    (Whole lone true es → ∀ b : DataEntry, ∀ pre : List DataEntry, b.entryType = .bulkBegin →
      (∀ x ∈ pre, x.entryType ≠ .bulkEnd ∧ x.entryType ≠ .changeMarker) → Units (b :: pre ++ es)) := by
  induction es with
  | nil => exact ⟨fun _ => .nil, fun h => nomatch h⟩
  | cons e es ih =>
    constructor
    · rintro ⟨-, -, h⟩
      by_cases hbegin : e.entryType = .bulkBegin
      · rw [batchAfter, if_pos hbegin] at h
        exact ih.2 h e [] hbegin (by simp)
      · have hflag : batchAfter false e = false := by simp [batchAfter, hbegin]
        exact Units.cons (IsUnit.single hbegin) (ih.1 (hflag ▸ h))
    · rintro ⟨hb, -, h⟩ b pre hbt hpre
      have hbegin : e.entryType ≠ .bulkBegin := fun he => Bool.noConfusion (hb (.inl he))
      have hmarker : e.entryType ≠ .changeMarker := fun he => Bool.noConfusion (hb (.inr he))
      have hsplit : b :: pre ++ e :: es = (b :: pre ++ [e]) ++ es := by simp
      rw [batchAfter, if_neg hbegin] at h
      rw [hsplit]
      split_ifs at h with hend
      · exact Units.cons (IsUnit.batch hbt hend hpre) (ih.1 h)
      · refine ih.2 h b _ hbt ?_
        intro x hx
        rcases mem_append.1 hx with hx | hx
        · exact hpre x hx
        · rw [mem_singleton.1 hx]
          exact ⟨hend, hmarker⟩

lemma Whole.units (h : Whole lone false es) : Units es := units_aux.1 h

lemma ingestChunkFrom_spec (threshold : ℕ) (es : List DataEntry) (inBatch : Bool) (i size : ℕ) :
    ∃ k, (ingestChunkFrom threshold es inBatch i size).stop = i + k ∧ k ≤ es.length ∧ (es ≠ [] → 0 < k) ∧
      (ingestChunkFrom threshold es inBatch i size).endSize = size + bytesOf (es.take k) ∧
      ∀ lone, Whole lone inBatch es → Whole lone inBatch (es.take k) ∧ Whole lone false (es.drop k) := by
  induction es generalizing inBatch i size with
  | nil => exact ⟨0, rfl, le_rfl, fun hne => absurd rfl hne, rfl, fun _ h => ⟨h, rfl⟩⟩
  | cons e es ih =>
    have hnext : ingestChunkFrom threshold (e :: es) inBatch i size =
        if !batchAfter inBatch e && threshold ≤ size + e.size && es ≠ [] then ⟨i + 1, true, size + e.size⟩
        else ingestChunkFrom threshold es (batchAfter inBatch e) (i + 1) (size + e.size) := rfl
    rw [hnext]
    split_ifs with hcut
    · have hclosed : batchAfter inBatch e = false := by
        simpa using (Bool.and_eq_true_iff.1 (Bool.and_eq_true_iff.1 hcut).1).1
      refine ⟨1, rfl, by simp, fun _ => Nat.one_pos, by simp, fun _ h => ⟨⟨h.1, h.2.1, hclosed⟩, ?_⟩⟩
      exact hclosed ▸ h.2.2
    · obtain ⟨k, hk, hlen, -, hsize, hwhole⟩ := ih _ _ _
      refine ⟨k + 1, hk.trans (by omega), by simpa using hlen, fun _ => Nat.succ_pos k, ?_, fun lone h => ?_⟩
      · rw [hsize, take_succ_cons, bytesOf_cons, Nat.add_assoc]
      · obtain ⟨ht, hd⟩ := hwhole lone h.2.2
        exact ⟨⟨h.1, h.2.1, ht⟩, hd⟩

lemma ingestChunk_spec (cfg : Config) (hne : es ≠ []) (size : ℕ) :
    0 < (ingestChunk cfg es size).stop ∧ (ingestChunk cfg es size).stop ≤ es.length ∧
      (ingestChunk cfg es size).endSize = size + bytesOf (es.take (ingestChunk cfg es size).stop) ∧
      ∀ lone, Whole lone false es → Whole lone false (es.take (ingestChunk cfg es size).stop) ∧
        Whole lone false (es.drop (ingestChunk cfg es size).stop) := by
  obtain ⟨k, hk, hlen, hpos, hrest⟩ := ingestChunkFrom_spec _ es false 0 size
  rw [Nat.zero_add] at hk
  rw [ingestChunk, hk]
  exact ⟨hpos hne, hlen, hrest⟩

end Whole

section Slice

variable {cfg : Config} {c c' : SliceCheck} {es : List DataEntry}

lemma checkEntry_ok {e : DataEntry} (h : checkEntry cfg c e = .ok c') :
    c.previous < e.sequence ∧ c'.previous = e.sequence ∧
      (e.entryType = .bulkBegin ∨ e.entryType = .changeMarker → c.inBatch = false) ∧
      (e.entryType = .bulkEnd → c.inBatch = true) ∧ c'.inBatch = batchAfter c.inBatch e := by
  unfold checkEntry at h
  dsimp only at h
  split_ifs at h with hseq hmarker _ _ _ hbegin hend
  cases h
  refine ⟨not_le.1 hseq, rfl, ?_, fun he => ?_, ?_⟩
  · rintro (he | he)
    · exact Bool.eq_false_iff.2 fun hb => hbegin ⟨he, hb⟩
    · exact Bool.eq_false_iff.2 fun hb => hmarker ⟨he, .inl hb⟩
  · by_contra hb
    exact hend ⟨he, by simp [hb, he]⟩
  · cases ht : e.entryType <;> simp [batchAfter, ht]

lemma foldlM_checkEntry_ok (h : es.foldlM (checkEntry cfg) c = .ok c') (hclosed : c'.inBatch = false) :
    es.Pairwise (fun a b => a.sequence < b.sequence) ∧ (∀ e ∈ es, c.previous < e.sequence) ∧
      Whole false c.inBatch es := by
  induction es generalizing c with
  | nil =>
    cases h
    exact ⟨.nil, by simp, hclosed⟩
  | cons e es ih =>
    obtain ⟨c₁, hc, h⟩ := Except.of_bind_ok h
    obtain ⟨hprev, hseq, hbatch, hend, hafter⟩ := checkEntry_ok hc
    obtain ⟨hasc, hgt, hwhole⟩ := ih h
    refine ⟨.cons (fun x hx => hseq ▸ hgt x hx) hasc, ?_, hbatch, fun he => .inl (hend he), hafter ▸ hwhole⟩
    intro x hx
    rcases mem_cons.1 hx with rfl | hx
    · exact hprev
    · exact hprev.trans (hseq ▸ hgt x hx)

lemma checkSlice_ok {fromSequence : ℕ} (h : checkSlice cfg fromSequence es = .ok ()) :
    es.Pairwise (fun a b => a.sequence < b.sequence) ∧ (∀ e ∈ es, fromSequence < e.sequence) ∧
      Whole false false es := by
  obtain ⟨c, hc, h⟩ := Except.of_bind_ok h
  refine foldlM_checkEntry_ok hc (Bool.eq_false_iff.2 fun hb => ?_)
  rw [if_pos hb] at h
  cases h

end Slice

structure Took (lone : Bool) (a : Disk × EngineState) (es : List DataEntry) (b : Disk × EngineState) : Prop where
  holds : ∀ e, b.1.Holds b.2 e ↔ a.1.Holds a.2 e ∨ e ∈ es
  whole : (∀ id, Whole lone false (a.1.contents a.2 id)) → ∀ id, Whole lone false (b.1.contents b.2 id)

section Took

variable {lone : Bool} {a b c : Disk × EngineState} {es fs : List DataEntry}
variable {d : Disk} {s : EngineState}

lemma Took.refl (a : Disk × EngineState) : Took lone a [] a := ⟨fun e => by simp, fun hw => hw⟩

lemma Took.keep {d' : Disk} {s' : EngineState} (h : Took lone a es (d, s)) (hc : d'.contents s' = d.contents s) :
    Took lone a es (d', s') where
  holds e := by
    simp only [Disk.Holds, hc]
    exact h.holds e
  whole hw := by
    simp only [hc]
    exact h.whole hw

lemma Took.trans (h : Took lone a es b) (h' : Took lone b fs c) : Took lone a (es ++ fs) c where
  holds e := by rw [h'.holds, h.holds, mem_append, or_assoc]
  whole hw := h'.whole (h.whole hw)

lemma Took.append (h : Stored d s) (hes : Appendable s es) (hw : Whole lone false es) :
    Took lone (d, s) es (d.append s.activePath es, s.applyIngest es (offsetsFrom (d.size s.activePath) es)) := by
  have hc : (d.append s.activePath es).contents (s.applyIngest es (offsetsFrom (d.size s.activePath) es)) =
      (d.contents s).extend s.activeFileId es := by
    rw [Disk.contents_congr (s.applyIngest_files _ hes), h.contents_append]
  constructor
  · intro e
    simp only [Disk.Holds, hc, Contents.mem_extend, exists_or]
    simp
  · intro hall id
    simp only [hc]
    by_cases hid : id = s.activeFileId
    · rw [hid, Contents.extend_self]
      exact (hall _).append hw
    · rw [Contents.extend_ne _ hid]
      exact hall id

end Took

namespace Db

structure Ingesting (db₀ db : Db) : Prop extends Mid db₀ db where
  degraded : db.t.degraded = false
  requested : db.t.syncRequestedSeq ≤ db.t.durableSeq
  durable : db.t.durableSeq < db.t.nextSeq

section Ingesting

variable {Q : Unit → Db → Prop} {E : DbError → Db → Prop} {db₀ db : Db}

lemma Ingesting.wp_syncIngested (hi : Ingesting db₀ db) (hE : Accepts db₀.start E)
    (hok : ∀ fs, Ingesting db₀ { db with
        disk := db.disk.sync db.t.activePath, t := db.t.applySync (db.t.nextSeq - 1), faults := fs } →
      Q () { db with disk := db.disk.sync db.t.activePath, t := db.t.applySync (db.t.nextSeq - 1), faults := fs }) :
    (syncIngested db₀.published).wp Q E db := by
  simp only [syncIngested, wp_bind, wp_get, wp_onError, wp_modifyT]
  refine wp_sync (fun fs => hok fs ?_) fun f fs => ?_
  · have hg : GrowsTo (db.disk, db.t) (db.disk.sync db.t.activePath, db.t.applySync (db.t.nextSeq - 1)) :=
      (Relation.ReflTransGen.single (.sync _)).tail (.flag _ _ _ _)
    refine ⟨hi.toMid.step hg rfl rfl rfl, hi.degraded, applySync_requested hi.requested _, ?_⟩
    exact Nat.lt_of_succ_le (applySync_durableSeq (Nat.zero_lt_of_lt hi.durable) hi.durable).le
  · cases f.stops
    · simp only [Bool.false_eq_true, if_false, reduceCtorEq, wp_degradeFrom]
      exact hE.interrupted _ _ (by simp) (hi.interrupted_current (.of_growsTo .refl) rfl rfl)
    · exact hE.halted _ (hi.halted (.of_growsTo .refl))

lemma Ingesting.wp_ingestRotate (hi : Ingesting db₀ db) (hE : Accepts db₀.start E) (h₀ : Stored db₀.disk db₀.published)
    (hok : ∀ db', Ingesting db₀ db' → db'.t.nextSeq = db.t.nextSeq →
      db'.disk.contents db'.t = db.disk.contents db.t → Q () db') :
    (ingestRotate db₀.published).wp Q E db := by
  simp only [ingestRotate, wp_bind]
  have hsync : (db.disk.sync db.t.activePath).contents db.t = db.disk.contents db.t :=
    Disk.contents_adjust_entries _ _ _ fun _ => rfl
  refine hi.wp_syncIngested hE (fun fs hi => ?_)
  have hstored := h₀.growsTo hi.grows
  refine hi.toMid.wp_rotation hE (.inl rfl) (fun fs hm => hok _ ⟨hm, ?_, ?_, ?_⟩ rfl ?_)
  · exact hi.degraded
  · exact hi.requested
  · exact hi.durable
  · exact hstored.contents_rotation.trans hsync

structure Remaining (lone : Bool) (t : EngineState) (es : List DataEntry) : Prop where
  written : Written es
  whole : Whole lone false es
  fresh : ∀ e ∈ es, t.nextSeq ≤ e.sequence

lemma Remaining.chunk {lone : Bool} {t : EngineState} {es : List DataEntry} (h : Remaining lone t es) (hne : es ≠ [])
    (cfg : Config) (size : ℕ) :
    let stop := (ingestChunk cfg es size).stop
    0 < stop ∧ Appendable t (es.take stop) ∧ Whole lone false (es.take stop) ∧
      Remaining lone (t.applyIngest (es.take stop) (offsetsFrom size (es.take stop))) (es.drop stop) := by
  intro stop
  obtain ⟨hpos, -, -, hwhole⟩ := ingestChunk_spec cfg hne size
  obtain ⟨htake, hdrop⟩ := hwhole _ h.whole
  have happ : Appendable t (es.take stop) := by
    refine ⟨?_, h.written.of_sublist (take_sublist _ _), htake.units,
      fun e he => h.fresh e (mem_of_mem_take he)⟩
    rw [Ne, take_eq_nil_iff, not_or]
    exact ⟨hpos.ne', hne⟩
  refine ⟨hpos, happ, htake, h.written.of_sublist (drop_sublist _ _), hdrop, fun e he => ?_⟩
  rw [t.applyIngest_nextSeq size happ]
  have hasc : (es.take stop ++ es.drop stop).Pairwise (fun a b => a.sequence < b.sequence) := by
    rw [take_append_drop]
    exact h.written.ascending
  obtain ⟨x, hx, hlast⟩ := happ.written.lastSeq_mem happ.nonempty
  rw [← hlast]
  exact (pairwise_append.1 hasc).2.2 x hx e he

end Ingesting

section Loop

variable {E : DbError → Db → Prop} {db₀ db : Db} {lone : Bool}
variable {es : List DataEntry} {d : Disk}

lemma Ingesting.wp_ingestLoop (cfg : Config) (h₀ : Stored db₀.disk db₀.published) (hE : Accepts db₀.start E) (n : ℕ)
    (hn : es.length ≤ n) (hi : Ingesting db₀ db) (hr : Remaining lone db.t es) :
    (ingestLoop cfg db₀.published n es).wp
      (fun _ db' => Ingesting db₀ db' ∧ Took lone (db.disk, db.t) es (db'.disk, db'.t)) E db := by
  induction n generalizing db es with
  | zero =>
    have hnil : es = [] := length_eq_zero_iff.1 (Nat.le_zero.1 hn)
    exact ⟨hi, hnil ▸ .refl _⟩
  | succ n ih =>
    by_cases hnil : es = []
    · simp only [ingestLoop, if_pos hnil]
      exact ⟨hi, hnil ▸ .refl _⟩
    let size := db.disk.size db.t.activePath
    let stop := (ingestChunk cfg es size).stop
    obtain ⟨hpos, happ, hwhole, hrest⟩ := hr.chunk hnil cfg size
    have hstored := h₀.growsTo hi.grows
    have hlen : (es.drop stop).length ≤ n := by
      rw [length_drop]
      omega
    have hdone : es.take stop ++ es.drop stop = es := take_append_drop _ _
    -- The state after the append, from which a rotation or the next chunk goes on.
    let t' := db.t.applyIngest (es.take stop) (offsetsFrom size (es.take stop))
    have hnext : ∀ fs, Ingesting db₀
        { db with disk := db.disk.append db.t.activePath (es.take stop), t := t', faults := fs } := by
      intro fs
      obtain ⟨hdur, hreq, -, hdeg, -⟩ := db.t.applyIngest_flags size happ
      refine ⟨hi.toMid.step (.single (.append happ)) rfl rfl rfl, hdeg.trans hi.degraded, ?_, ?_⟩
      · exact (hreq.trans_le hi.requested).trans hdur.ge
      · exact hdur.trans_lt (hi.durable.trans_le ((Grows.append happ).counters_le hstored).1)
    have htook := Took.append hstored happ hwhole
    simp only [ingestLoop, if_neg hnil, wp_bind, wp_get, wp_modifyT]
    refine hi.toMid.wp_append hE happ rfl (fun fs => ?_)
    split_ifs
    · rw [wp_bind]
      refine (hnext fs).wp_ingestRotate hE h₀ (fun db' hi' hseq hc => ?_)
      refine wp_mono (ih hlen hi' ⟨hrest.written, hrest.whole, ?_⟩) (fun _ db'' hq => ⟨hq.1, ?_⟩) (fun _ _ he => he)
      · rw [hseq]
        exact hrest.fresh
      · have h₁ := (htook.keep hc).trans hq.2
        rwa [hdone] at h₁
    · refine wp_mono (ih hlen (hnext fs) hrest) (fun _ db'' hq => ⟨hq.1, ?_⟩) (fun _ _ he => he)
      have h₁ := htook.trans hq.2
      rwa [hdone] at h₁

lemma ingestEntries_took (h : Healthy db) (cfg : Config) (hE : Accepts db.start E) (hr : Remaining lone db.published es) :
    (ingestEntries cfg db.published es).wp (fun _ db' => Healthy db' ∧
        GrowsTo (db.disk, db.published) (db'.disk, db'.published) ∧
        Took lone (db.disk, db.published) es (db'.disk, db'.published)) E { db with t := db.published } := by
  have hi : Ingesting db { db with t := db.published } :=
    ⟨Mid.start db _ rfl, h.degraded, h.requested, h.durable⟩
  have hend : ∀ db₁ : Db, Ingesting db db₁ → Took lone (db.disk, db.published) es (db₁.disk, db₁.t) →
      (do syncIngested db.published; storeState db.published (← get).t : Op Unit).wp
        (fun _ db' => Healthy db' ∧
          GrowsTo (db.disk, db.published) (db'.disk, db'.published) ∧
          Took lone (db.disk, db.published) es (db'.disk, db'.published)) E db₁ := by
    intro db₁ hi₁ htook
    simp only [wp_bind, wp_get]
    have hsync : (db₁.disk.sync db₁.t.activePath).contents db₁.t = db₁.disk.contents db₁.t :=
      Disk.contents_adjust_entries _ _ _ fun _ => rfl
    refine hi₁.wp_syncIngested hE (fun fs hi₂ => ?_)
    refine hi₂.toMid.wp_storeState h hi₂.degraded hi₂.requested ?_ (fun hh => ⟨hh, hi₂.grows, ?_⟩)
    · exact applySync_durableSeq (Nat.zero_lt_of_lt hi₁.durable) hi₁.durable
    · exact htook.keep hsync
  simp only [ingestEntries, wp_bind]
  refine wp_mono (hi.wp_ingestLoop cfg h.stored hE _ le_rfl hr) ?_ (fun _ _ he => he)
  rintro - db₁ ⟨hi₁, htook⟩
  simp only [wp_get]
  split_ifs
  · rw [wp_bind]
    refine hi₁.wp_ingestRotate hE h.stored (fun db₂ hi₂ _ hc => ?_)
    exact hend db₂ hi₂ (htook.keep hc)
  · exact hend db₁ hi₁ htook

lemma mem_remaining {cfg : Config} {fromSequence n : ℕ} (hc : checkSlice cfg fromSequence es = .ok ()) {e : DataEntry} :
    e ∈ es.dropWhile (fun e => e.sequence ≤ n) ↔ e ∈ es ∧ n < e.sequence := by
  have hfront : ∀ a b : DataEntry, a.sequence < b.sequence → decide (b.sequence ≤ n) = true →
      decide (a.sequence ≤ n) = true := fun a b hab hb => decide_eq_true (hab.le.trans (of_decide_eq_true hb))
  rw [dropWhile_eq_filter (checkSlice_ok hc).1 hfront, mem_filter]
  simp

lemma remaining_of_checkSlice {cfg : Config} {header : ChangeHeader} {s : EngineState}
    (hc : checkSlice cfg header.fromSequence es = .ok ()) (hs : ∀ e ∈ es, s.durableSeq < e.sequence → e.Shaped)
    (hp : s.durableSeq + 1 = s.nextSeq) :
    Remaining true s (es.dropWhile (fun e => e.sequence ≤ s.durableSeq)) := by
  obtain ⟨hasc, hgt, hwhole⟩ := checkSlice_ok hc
  have hmem := fun e he => (mem_remaining (n := s.durableSeq) hc (e := e)).1 he
  refine ⟨⟨fun e he => hs e (hmem e he).1 (hmem e he).2, hasc.sublist (dropWhile_sublist _),
    fun e he => Nat.zero_lt_of_lt (hgt e (hmem e he).1)⟩, ?_, fun e he => hp ▸ (hmem e he).2⟩
  rw [← takeWhile_append_dropWhile (p := fun e => decide (e.sequence ≤ s.durableSeq)) (l := es)] at hwhole
  exact hwhole.of_append

lemma wp_liftExcept {α : Type} {Q : α → Db → Prop} {r : Except DbError α} (hok : ∀ a, r = .ok a → Q a db)
    (herr : ∀ e, r = .error e → E e db) : (liftExcept r).wp Q E db := by
  cases r with
  | ok a => exact hok a rfl
  | error e => exact herr e rfl

structure Ingested (lone : Bool) (cfg : Config) (header : ChangeHeader) (es : List DataEntry) (db db' : Db) : Prop where
  follower : db.published.mode = .follower
  slice : checkSlice cfg header.fromSequence es = .ok ()
  history : checkHistory db.published header es = .ok ()
  healthy : Healthy db'
  head : db'.head = db'.published
  grows : GrowsTo db.start db'.start
  took : Took lone db.start (es.dropWhile (fun e => e.sequence ≤ db.published.durableSeq)) db'.start

lemma Live.follower (h : Live d db) (hn : ∀ e, db.ingestRefusal = some e → False) : db.published.mode = .follower := by
  by_contra hmode
  exact hn .notFollower (by simp [ingestRefusal, EngineState.isIngestionAllowed, hmode, h.degraded])

theorem ingest_took (h : Live d db) (cfg : Config) (header : ChangeHeader)
    (hr : checkSlice cfg header.fromSequence es = .ok () → db.published.durableSeq + 1 = db.published.nextSeq →
      Remaining lone db.published (es.dropWhile (fun e => e.sequence ≤ db.published.durableSeq))) :
    (ingest cfg header es).wp (fun _ => Ingested lone cfg header es db) (Thrown (d, db.published)) db := by
  simp only [ingest, wp_bind, wp_get]
  split
  · exact h.thrown
  · next hrefusal =>
    rw [wp_bind]
    refine wp_liftExcept (fun _ hslice => ?_) (fun e _ => h.thrown)
    have hfollower := h.follower hrefusal
    obtain ⟨hh, -, hg⟩ := h.healthy (by have := h.position hfollower; have := h.durable; omega)
    refine wp_mono (wp_barrier_follower (Q := fun _ => Ingested lone cfg header es db) h hfollower ?_)
      (fun _ _ hi => hi) (fun _ _ he => he.since hg)
    have hallowed : (!db.published.isIngestionAllowed) = false := by
      simp [EngineState.isIngestionAllowed, hfollower, h.degraded]
    simp only [wp_bind, wp_get, hallowed, Bool.false_eq_true, if_false]
    refine wp_liftExcept (fun _ hhistory => ?_) (fun e _ => hh.ended)
    simp only [wp_modify]
    have hrem := hr hslice (hh.position hfollower)
    split_ifs with hnil
    · refine ⟨hfollower, hslice, hhistory, ?_, rfl, .refl, ?_⟩
      · exact ⟨hh.stored, h.degraded, h.writeFault, h.flushError, h.requested, h.durable, hh.position⟩
      · rw [hnil]
        exact .refl _
    · simp only [wp_bind, wp_throw]
      exact hh.ended
    · rw [wp_onError]
      refine wp_mono (ingestEntries_took hh cfg (accepts_ended _).refuse hrem) ?_ (fun _ _ he => he)
      rintro - db' ⟨hh', hg', ht⟩
      refine ⟨hfollower, hslice, hhistory, ?_, rfl, hg', ht⟩
      exact ⟨hh'.stored, hh'.degraded, hh'.writeFault, hh'.flushError, hh'.requested, hh'.durable, hh'.position⟩

theorem ingest_settled (h : Live d db) (cfg : Config) (header : ChangeHeader) (hs : ∀ e ∈ es, e.Shaped) :
    (ingest cfg header es).wp (fun _ => Settled (d, db.published)) (Thrown (d, db.published)) db := by
  refine wp_mono (ingest_took h cfg header (fun hc hp => remaining_of_checkSlice hc (fun e he _ => hs e he) hp))
    (fun _ db' hi => .inl ⟨db'.disk, ?_, ?_⟩) (fun _ _ he => he)
  · exact hi.healthy.live_of_head hi.head
  · obtain ⟨-, -, hg⟩ := h.healthy (by have := h.position hi.follower; have := h.durable; omega)
    exact hg.trans hi.grows

end Loop

end Db

end Bytecask
