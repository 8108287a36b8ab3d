import Bytecask.Growth

/-! How a call leaves the engine: healthy and grown, or degraded somewhere on the way. -/

namespace Bytecask

open EStateM

inductive Torn (d : Disk) (t : EngineState) : Disk → Prop
  | whole : Torn d t d
  | append {es : List DataEntry} (fault : Fault) : Appendable t es → Torn d t (d.failAppend t.activePath es fault)
  | create : Torn d t d.create
  | sync {d' : Disk} (p : Path) : Torn d t d' → Torn d t (d'.sync p)

namespace Db

abbrev start (db : Db) : Disk × EngineState := (db.disk, db.published)

structure Healthy (db : Db) : Prop where
  stored : Stored db.disk db.published
  degraded : db.published.degraded = false
  writeFault : db.writeFault = false
  flushError : db.flushError = false
  requested : db.published.syncRequestedSeq ≤ db.published.durableSeq
  durable : db.published.durableSeq < db.published.nextSeq
  position : db.published.mode = .follower → db.published.durableSeq + 1 = db.published.nextSeq

/-- The engine between two steps with nothing wrong. The head may be ahead of the published state, by
entries of the active file that `d`, the directory as the published state knows it, lacks. -/
structure Live (d : Disk) (db : Db) : Prop where
  stored : Stored d db.published
  ahead : Extends (d, db.published) (db.disk, db.head)
  mode : db.head.mode = db.published.mode
  headDegraded : db.head.degraded = false
  headDurable : db.head.durableSeq ≤ db.published.durableSeq
  headRequested : db.head.syncRequestedSeq < db.head.nextSeq
  degraded : db.published.degraded = false
  writeFault : db.writeFault = false
  flushError : db.flushError = false
  requested : db.published.syncRequestedSeq ≤ db.published.durableSeq
  durable : db.published.durableSeq < db.published.nextSeq
  position : db.published.mode = .follower → db.published.durableSeq + 1 = db.head.nextSeq

/-- The engine degraded since `a`: the published state is one that was passed, and the directory is
at a later point, where an I/O call may have been cut short. -/
def Interrupted (a : Disk × EngineState) (db : Db) : Prop :=
  ∃ d₁ d t, GrowsTo a (d₁, db.published) ∧ GrowsTo (d₁, db.published) (d, t) ∧
    Torn d t db.disk ∧ db.published.degraded = true ∧ db.writeFault = true

def Halted (a : Disk × EngineState) (db : Db) : Prop := ∃ d t, GrowsTo a (d, t) ∧ Torn d t db.disk

def Settled (a : Disk × EngineState) (db : Db) : Prop :=
  (∃ d, Live d db ∧ GrowsTo a (d, db.published)) ∨ Interrupted a db

def Thrown (a : Disk × EngineState) (e : DbError) (db : Db) : Prop :=
  if e = .stopped then Halted a db else Settled a db

section Since

variable {a b : Disk × EngineState} {db : Db}
variable {d : Disk}

lemma Interrupted.since (h : Interrupted b db) (hab : GrowsTo a b) : Interrupted a db := by
  obtain ⟨d₁, d, t, hg, h⟩ := h
  exact ⟨d₁, d, t, hab.trans hg, h⟩

lemma Halted.since (h : Halted b db) (hab : GrowsTo a b) : Halted a db := by
  obtain ⟨d, t, hg, h⟩ := h
  exact ⟨d, t, hab.trans hg, h⟩

lemma Settled.since (h : Settled b db) (hab : GrowsTo a b) : Settled a db := by
  rcases h with ⟨d, hl, hg⟩ | h
  · exact .inl ⟨d, hl, hab.trans hg⟩
  · exact .inr (h.since hab)

lemma Thrown.since {e : DbError} (h : Thrown b e db) (hab : GrowsTo a b) : Thrown a e db := by
  rw [Thrown] at h ⊢
  split_ifs at h ⊢
  · exact h.since hab
  · exact h.since hab

lemma Interrupted.halted (h : Interrupted a db) : Halted a db := by
  obtain ⟨d₁, d, t, hg, hg', ht, -⟩ := h
  exact ⟨d, t, hg.trans hg', ht⟩

lemma Interrupted.refused (h : Interrupted a db) : db.refused = true := by
  obtain ⟨-, -, -, -, -, -, hd, -⟩ := h
  rw [Db.refused, hd]
  rfl

lemma Healthy.refused (h : Healthy db) : db.refused = false := by
  rw [Db.refused, h.degraded, h.writeFault]
  rfl

lemma Healthy.live (h : Healthy db) : Live db.disk { db with head := db.published } :=
  ⟨h.stored, .refl, rfl, h.degraded, le_rfl, h.requested.trans_lt h.durable, h.degraded, h.writeFault, h.flushError,
    h.requested, h.durable, h.position⟩

lemma Healthy.live_of_head (h : Healthy db) (hh : db.head = db.published) : Live db.disk db := by
  obtain ⟨disk, published, head, t, writeFault, flushError, faults⟩ := db
  obtain rfl : head = published := hh
  exact h.live

lemma Live.withT (h : Live d db) (t : EngineState) : Live d { db with t } :=
  ⟨h.stored, h.ahead, h.mode, h.headDegraded, h.headDurable, h.headRequested, h.degraded, h.writeFault, h.flushError,
    h.requested, h.durable, h.position⟩

lemma Live.refused (h : Live d db) : db.refused = false := by
  rw [Db.refused, h.degraded, h.writeFault]
  rfl

end Since

section Wp

variable {α : Type} {Q : α → Db → Prop} {E : DbError → Db → Prop} {db : Db}
variable {m : Op α} {p : Path} {current : EngineState}

lemma wp_catching {h : DbError → Op α} : (catching m h).wp Q E db ↔
    m.wp Q (fun e db' => if e = .stopped then E e db' else (h e).wp Q E db') db := by
  rw [catching, wp_tryCatch]
  constructor <;> refine fun hm => wp_mono hm (fun _ _ hq => hq) (fun e db' he => ?_)
  all_goals split_ifs at he ⊢ <;> exact he

lemma wp_onError {h : Op Unit} : (onError m h).wp Q E db ↔
    m.wp Q (fun e db' => if e = .stopped then E e db' else h.wp (fun _ db'' => E e db'') E db') db := by
  rw [onError, wp_catching]
  simp only [wp_bind, wp_throw]

lemma wp_io {Q : Unit → Db → Prop} {done : Disk → Disk} {failed : Fault → Disk → Disk}
    (hok : ∀ fs, Q () { db with disk := done db.disk, faults := fs })
    (herr : ∀ f fs, E (if f.stops then .stopped else .io) { db with disk := failed f db.disk, faults := fs }) :
    (io done failed).wp Q E db := by
  simp only [io, takeFault, wp_bind, wp_get]
  split
  · next hf =>
    simp only [wp_pure, wp_modify]
    exact hf ▸ hok []
  · next f fs hf =>
    simp only [wp_bind, wp_set, wp_pure]
    cases f with
    | none => simpa only [wp_modify] using hok fs
    | some f => simpa only [wp_bind, wp_modify, wp_throw] using herr f fs

lemma wp_appendEntries {Q : Unit → Db → Prop} {es : List DataEntry} (hes : es ≠ [])
    (hok : ∀ fs, Q () { db with disk := db.disk.append p es, faults := fs })
    (herr : ∀ f fs, E (if f.stops then .stopped else .io) { db with disk := db.disk.failAppend p es f, faults := fs }) :
    (appendEntries p es).wp Q E db := by
  simp only [appendEntries, if_neg hes]
  exact wp_io hok herr

lemma wp_sync {Q : Unit → Db → Prop} (hok : ∀ fs, Q () { db with disk := db.disk.sync p, faults := fs })
    (herr : ∀ (f : Fault) fs, E (if f.stops then .stopped else .io) { db with faults := fs }) :
    (sync p).wp Q E db := wp_io hok herr

lemma wp_attempt_sync {Q : Unit → Db → Prop} (hok : ∀ fs, Q () { db with disk := db.disk.sync p, faults := fs })
    (hfail : ∀ fs, Q () { db with faults := fs }) (hstop : ∀ fs, E .stopped { db with faults := fs }) :
    (attempt (sync p)).wp Q E db := by
  rw [attempt, wp_catching]
  refine wp_sync hok fun f fs => ?_
  cases f.stops
  · simpa using hfail fs
  · simpa using hstop fs

lemma wp_storeHead {Q : Unit → Db → Prop} {s : EngineState} : (storeHead s).wp Q E db ↔ Q () { db with head := s } := Iff.rfl

lemma wp_modifyT {Q : Unit → Db → Prop} {f : EngineState → EngineState} :
    (modifyT f).wp Q E db ↔ Q () { db with t := f db.t } := Iff.rfl

lemma wp_degradeFrom {Q : Unit → Db → Prop} : (degradeFrom current).wp Q E db ↔
    Q () { db with published := current.applyDegrade, writeFault := true } := Iff.rfl

lemma wp_refuseWrites {Q : Unit → Db → Prop} : refuseWrites.wp Q E db ↔
    Q () { db with published := db.published.applyDegrade, writeFault := true } := Iff.rfl

def Follows (old new : EngineState) : Prop :=
  old.nextSeq ≤ new.nextSeq ∧ old.activeFileId ≤ new.activeFileId ∧ old.nextFileId ≤ new.nextFileId ∧
    old.durableSeq ≤ new.durableSeq ∧ new.syncRequestedSeq ≤ new.durableSeq

lemma wp_storeState {Q : Unit → Db → Prop} {old new : EngineState} : (storeState old new).wp Q E db ↔
    (Follows old new → Q () { db with published := new }) ∧
      (¬ Follows old new → Q () { db with published := db.published.applyDegrade }) := by
  rw [storeState, wp_modify]
  have hiff : (new.nextSeq < old.nextSeq ∨ new.activeFileId < old.activeFileId ∨ new.nextFileId < old.nextFileId ∨
      new.durableSeq < old.durableSeq ∨ new.durableSeq < new.syncRequestedSeq) ↔ ¬ Follows old new := by
    simp only [Follows, not_and_or, not_le]
  by_cases h : Follows old new
  · rw [if_neg (not_not.2 h ∘ hiff.1)]
    simp [h]
  · rw [if_pos (hiff.2 h)]
    simp [h]

lemma wp_degradeTransient {Q : Unit → Db → Prop} (h : ∀ s, s = db.t ∨ s = db.published →
      Q () { db with t := db.t.applyDegrade, published := s.applyDegrade, writeFault := true }) :
    (degradeTransient current).wp Q E db := by
  simp only [degradeTransient, wp_bind, wp_modifyT, wp_get, wp_storeState, wp_refuseWrites]
  exact ⟨fun _ => h db.t (.inl rfl), fun _ => h db.published (.inr rfl)⟩

end Wp

def Broken (a : Disk × EngineState) (d : Disk) (t : EngineState) : Prop := ∃ d₁, GrowsTo a (d₁, t) ∧ Torn d₁ t d

section Ends

variable {db₀ db : Db} {t : EngineState}

lemma Broken.of_growsTo {a : Disk × EngineState} {d : Disk} (h : GrowsTo a (d, t)) : Broken a d t := ⟨d, h, .whole⟩

lemma growsTo_degrade (d : Disk) (s : EngineState) : GrowsTo (d, s) (d, s.applyDegrade) :=
  .single (.flag s.durableSeq s.syncRequestedSeq s.mode true)

lemma growsTo_undegrade (d : Disk) (s : EngineState) : GrowsTo (d, s.applyDegrade) (d, s) :=
  .single (.flag s.durableSeq s.syncRequestedSeq s.mode s.degraded)

section

variable (hb : Broken (db₀.disk, db₀.published) db.disk t)

include hb

lemma Interrupted.of_current
    (hp : db.published = db₀.published.applyDegrade) (hw : db.writeFault = true) : Interrupted db₀.start db := by
  obtain ⟨d, hg, ht⟩ := hb
  refine ⟨db₀.disk, d, t, ?_, ?_, ht, ?_, hw⟩
  · rw [hp]
    exact growsTo_degrade _ _
  · rw [hp]
    exact (growsTo_undegrade _ _).trans hg
  · rw [hp]
    rfl

lemma Interrupted.of_transient
    (hp : db.published = t.applyDegrade) (hw : db.writeFault = true) : Interrupted db₀.start db := by
  obtain ⟨d, hg, ht⟩ := hb
  refine ⟨d, d, t, ?_, ?_, ht, ?_, hw⟩
  · rw [hp]
    exact hg.trans (growsTo_degrade _ _)
  · rw [hp]
    exact growsTo_undegrade _ _
  · rw [hp]
    rfl

lemma Halted.of_broken : Halted db₀.start db := by
  obtain ⟨d, hg, ht⟩ := hb
  exact ⟨d, t, hg, ht⟩

end

end Ends

section Rotation

variable {Q : Path × Path × FileId → Db → Prop} {E : DbError → Db → Prop} {db : Db}

lemma wp_ioWhole {Q : Unit → Db → Prop} {effect : Disk → Disk}
    (hok : ∀ fs, Q () { db with disk := effect db.disk, faults := fs })
    (herr : ∀ (e : DbError) fs d, d = db.disk ∨ d = effect db.disk → E e { db with disk := d, faults := fs }) :
    (ioWhole effect).wp Q E db := by
  refine wp_io hok fun f fs => herr _ fs _ ?_
  split_ifs
  · exact .inr rfl
  · exact .inl rfl

lemma wp_prepareRotation
    (hok : ∀ fs, Q (db.t.activePath, db.disk.nextPath, db.t.nextFileId)
      { db with disk := (db.disk.shrink db.t.activePath).create, t := db.t.reserveFileId.1, faults := fs })
    (herr : ∀ e fs d t, Broken (db.disk, db.t) d t → E e { db with disk := d, t, faults := fs }) :
    prepareRotation.wp Q E db := by
  have hshrink : GrowsTo (db.disk, db.t) (db.disk.shrink db.t.activePath, db.t) := .single (.shrink _)
  simp only [prepareRotation, shrinkToFit, openDataFileForRead, reserveFileId, createActiveFile, wp_bind,
    wp_get]
  refine wp_ioWhole (fun fs => ?_) (fun e fs d hd => herr e fs d _ ?_)
  · refine wp_ioWhole (fun fs => ?_) (fun e fs d hd => herr e fs d _ ?_)
    · simp only [id_eq, wp_ite, wp_throw, wp_bind, wp_modifyT, wp_pure]
      refine ⟨fun _ => herr _ fs _ _ (.of_growsTo hshrink), fun _ => ?_⟩
      refine wp_ioWhole (fun fs => hok fs) (fun e fs d hd => herr e fs d _ ?_)
      refine ⟨_, hshrink.tail .reserve, ?_⟩
      rcases hd with rfl | rfl
      · exact .whole
      · exact .create
    · rcases hd with rfl | rfl
      · exact .of_growsTo hshrink
      · exact .of_growsTo hshrink
  · rcases hd with rfl | rfl
    · exact .of_growsTo .refl
    · exact .of_growsTo hshrink

lemma growsTo_rotated (d : Disk) (t : EngineState) :
    GrowsTo (d, t) ((d.shrink t.activePath).create, rotated d t) :=
  (Relation.ReflTransGen.single (.shrink _)).tail .rotate

end Rotation

section Flush

variable {Q : Unit → Db → Prop} {E : DbError → Db → Prop} {d : Disk} {db : Db}

lemma Live.follows (h : Live d db) : Follows db.published (flushed db.head db.published) := by
  obtain ⟨-, hactive, hnext⟩ := h.ahead.frame
  have hseq := h.ahead.nextSeq_le
  have hreq := h.headRequested
  refine ⟨hseq, hactive.ge, hnext.ge, ?_, ?_⟩
  all_goals
    simp only [flushed]
    split_ifs <;> omega

lemma wp_flushPending (hr : db.refused = false)
    (hskip : db.head.nextSeq ≤ db.published.nextSeq → db.head.syncRequestedSeq ≤ db.published.durableSeq → Q () db)
    (hpub : ∀ d' fs, d' = db.disk ∨ d' = db.disk.sync db.head.activePath →
      (storeState db.published (flushed db.head db.published)).wp Q E { db with disk := d', faults := fs })
    (hfail : ∀ fs, Q () { db with
      flushError := true, published := db.published.applyDegrade, writeFault := true, faults := fs })
    (hstop : ∀ fs, E .stopped { db with faults := fs }) : flushPending.wp Q E db := by
  simp only [flushPending, wp_bind, wp_get, hr, Bool.false_eq_true, if_false]
  split_ifs with hnone hneed
  · exact hskip hnone.1 (not_lt.1 hnone.2)
  · simp only [wp_bind, wp_catching, wp_pure]
    refine wp_sync (fun fs => ?_) (fun f fs => ?_)
    · simpa using hpub _ fs (.inr rfl)
    · cases f.stops
      · simpa [flushFailed, wp_degradeFrom] using hfail fs
      · simpa using hstop fs
  · exact hpub _ _ (.inl rfl)

lemma Live.healthy (h : Live d db) (hseq : db.head.nextSeq ≤ db.published.nextSeq) :
    Healthy db ∧ db.head = db.published.withFlags db.head ∧ GrowsTo (d, db.published) db.start := by
  rcases h.ahead.nextSeq_lt with hlt | ⟨heq, hs⟩
  · exact absurd hlt (not_lt.2 hseq)
  · have heq : db.head = db.published.withFlags db.head := heq
    have hnext := EngineState.nextSeq_eq_of_withFlags heq
    have hback : db.head.withFlags db.published = db.published := by
      rw [heq]
      rfl
    have hg := h.ahead.growsTo.trans (growsTo_withFlags _ _ db.published)
    rw [hback] at hg
    exact ⟨⟨hs _ h.stored, h.degraded, h.writeFault, h.flushError, h.requested, h.durable,
      fun hf => (h.position hf).trans hnext⟩, heq, hg⟩

lemma Live.flushed_healthy (h : Live d db) : Healthy { db with published := flushed db.head db.published } := by
  have hstored := h.stored.growsTo h.ahead.growsTo
  have hseq : db.published.nextSeq ≤ db.head.nextSeq := h.ahead.nextSeq_le
  have hdur := h.durable
  refine ⟨hstored.grows (.flag _ _ _ _), h.headDegraded, h.writeFault, h.flushError, h.follows.2.2.2.2, ?_, fun hf => ?_⟩
  · simp only [flushed]
    split_ifs <;> omega
  · have hpos := h.position (h.mode.symm.trans hf)
    simp only [flushed]
    split_ifs <;> omega

structure Flushes (d : Disk) (db : Db) (s : EngineState) : Prop where
  healthy : Healthy { db with published := s }
  since : GrowsTo (d, db.published) (db.disk, s)
  head : db.head = s.withFlags db.head
  durable : db.published.durableSeq ≤ s.durableSeq
  mode : s.mode = db.published.mode

lemma Flushes.growsTo {s : EngineState} (h : Flushes d db s) : GrowsTo (db.disk, s) (db.disk, db.head) := by
  rw [h.head]
  exact growsTo_withFlags _ _ _

lemma Live.wp_flushPending (h : Live d db) {disk : Disk} {t : EngineState} {fs : List (Option Fault)}
    (hok : ∀ d' fs s, d' = disk ∨ d' = disk.sync db.head.activePath → Flushes d db s →
      Q () { db with disk := d', published := s, t, faults := fs })
    (hfail : ∀ fs, Q () { db with
      disk, t, flushError := true, published := db.published.applyDegrade, writeFault := true, faults := fs })
    (hstop : ∀ fs, E .stopped { db with disk, t, faults := fs }) :
    flushPending.wp Q E { db with disk, t, faults := fs } := by
  refine Db.wp_flushPending (show Db.refused { db with disk, t, faults := fs } = false from h.refused)
    (fun hseq hreq => ?_) (fun d' fs hd' => ?_) hfail hstop
  · obtain ⟨hh, heq, hg⟩ := h.healthy hseq
    exact hok disk fs _ (.inl rfl) ⟨hh, hg, heq, le_rfl, rfl⟩
  · rw [wp_storeState]
    refine ⟨fun _ => hok d' fs _ hd' ?_, fun hf => absurd h.follows hf⟩
    exact ⟨h.flushed_healthy, h.ahead.growsTo.tail (.flag _ _ _ _), rfl, h.follows.2.2.2.1, h.mode⟩

lemma Flushes.reached {d' : Disk} {s : EngineState} {p : Path} (hf : Flushes d db s) (hd' : d' = db.disk ∨ d' = db.disk.sync p) :
    Stored d' s ∧ GrowsTo (d, db.published) (d', s) := by
  rcases hd' with rfl | rfl
  · exact ⟨hf.healthy.stored, hf.since⟩
  · exact ⟨hf.healthy.stored.grows (.sync _), hf.since.tail (.sync _)⟩

lemma Live.flushFailed (h : Live d db) (fs : List (Option Fault)) : Interrupted (d, db.published) { db with
    flushError := true, published := db.published.applyDegrade, writeFault := true, faults := fs } :=
  ⟨d, db.disk, db.head, growsTo_degrade _ _, (growsTo_undegrade _ _).trans h.ahead.growsTo, .whole, rfl, rfl⟩

theorem flushPending_settled (h : Live d db) :
    flushPending.wp (fun _ => Settled (d, db.published)) (Thrown (d, db.published)) db := by
  refine h.wp_flushPending (fun d' fs s hd' hf => .inl ⟨d', ?_, (hf.reached hd').2⟩) (fun fs => .inr (h.flushFailed fs)) (fun fs => ?_)
  · have hnext := EngineState.nextSeq_eq_of_withFlags hf.head
    have hh := hf.healthy
    refine ⟨(hf.reached hd').1, .single ?_, h.mode.trans hf.mode.symm, h.headDegraded, h.headDurable.trans hf.durable, h.headRequested,
      hh.degraded, hh.writeFault, hh.flushError, hh.requested, hh.durable, fun hp => (hh.position hp).trans hnext.symm⟩
    rw [hf.head]
    exact .flag _ _ _ _
  · exact ⟨db.disk, db.head, h.ahead.growsTo, .whole⟩

end Flush

section Barrier

variable {α : Type} {Q : α → Db → Prop} {d : Disk} {db : Db} {a b : Disk × EngineState}
variable {e : DbError} {m : Op α} {t : EngineState}

def Ended (a : Disk × EngineState) (e : DbError) (db : Db) : Prop :=
  if e = .stopped then Halted a db else Settled a { db with head := db.published }

lemma ended_iff : Ended a e db ↔
    if e = .stopped then Thrown a e db else Thrown a e { db with head := db.published } := by
  rw [Ended]
  by_cases he : e = .stopped
  · rw [if_pos he, if_pos he, Thrown, if_pos he]
  · rw [if_neg he, if_neg he, Thrown, if_neg he]

lemma Ended.since (h : Ended b e db) (hab : GrowsTo a b) : Ended a e db := by
  rw [Ended] at h ⊢
  split_ifs at h ⊢
  · exact h.since hab
  · exact h.since hab

lemma wp_barrier (h : Live d db) (hm : ∀ db₁, Healthy db₁ →
      m.wp (fun _ db' => Settled db₁.start { db' with head := db'.published }) (Ended db₁.start) db₁)
    (hd : ∀ a db₁, Interrupted a db₁ →
      m.wp (fun _ db' => Settled a { db' with head := db'.published }) (Ended a) db₁) :
    (barrier m).wp (fun _ => Settled (d, db.published)) (Thrown (d, db.published)) db := by
  simp only [barrier, wp_bind, wp_onError, wp_get, wp_storeHead, wp_pure]
  refine h.wp_flushPending (fun d' fs s hd' hf => ?_) (fun fs => ?_) (fun fs => ?_)
  · have hh := hf.healthy
    obtain ⟨hs', hg⟩ := hf.reached hd'
    have hh' : Healthy { db with disk := d', published := s, faults := fs } :=
      ⟨hs', hh.degraded, hh.writeFault, hh.flushError, hh.requested, hh.durable, hh.position⟩
    exact wp_mono (hm _ hh') (fun x db' hs => hs.since hg) (fun e db' he => ended_iff.1 (he.since hg))
  · exact wp_mono (hd _ _ (h.flushFailed fs)) (fun x db' hs => hs) (fun e db' he => ended_iff.1 he)
  · exact ⟨db.disk, db.head, h.ahead.growsTo, .whole⟩

lemma flushPending_skips (h : Live d db) (hf : db.published.mode = .follower) :
    flushPending.wp (fun _ db' => db' = db) (fun _ _ => False) db := by
  have hpos := h.position hf
  have hdur := h.durable
  have hreq := h.headRequested
  simp only [flushPending, wp_bind, wp_get, h.refused, Bool.false_eq_true, if_false]
  rw [if_pos ⟨by omega, by omega⟩]
  rfl

lemma wp_barrier_follower (h : Live d db) (hf : db.published.mode = .follower)
    (hm : m.wp (fun x db' => Q x { db' with head := db'.published }) (Ended db.start) db) :
    (barrier m).wp Q (Thrown db.start) db := by
  simp only [barrier, wp_bind, wp_onError, wp_get, wp_storeHead, wp_pure]
  refine wp_mono (flushPending_skips h hf) (fun _ db' heq => ?_) (fun _ _ hf => hf.elim)
  subst heq
  exact wp_mono hm (fun x db' hs => hs) (fun e db' he => ended_iff.1 he)

lemma Live.thrown (h : Live d db) : Thrown (d, db.published) e db := by
  rw [Thrown]
  split_ifs
  · exact ⟨db.disk, db.head, h.ahead.growsTo, .whole⟩
  · exact .inl ⟨d, h, .refl⟩

lemma Healthy.settled (h : Healthy db) : Settled db.start { db with t, head := db.published } :=
  .inl ⟨db.disk, ⟨h.stored, .refl, rfl, h.degraded, le_rfl, h.requested.trans_lt h.durable, h.degraded, h.writeFault,
    h.flushError, h.requested, h.durable, h.position⟩, .refl⟩

lemma Healthy.ended (h : Healthy db) : Ended db.start e { db with t } := by
  rw [Ended]
  split_ifs
  · exact ⟨db.disk, db.published, .refl, .whole⟩
  · exact h.settled

lemma Interrupted.ended (h : Interrupted a db) : Ended a e { db with t } := by
  rw [Ended]
  split_ifs
  · exact h.halted
  · exact .inr h

end Barrier

structure Mid (db₀ db : Db) : Prop where
  published : db.published = db₀.published
  writeFault : db.writeFault = db₀.writeFault
  flushError : db.flushError = db₀.flushError
  grows : GrowsTo (db₀.disk, db₀.published) (db.disk, db.t)

structure Accepts (a : Disk × EngineState) (E : DbError → Db → Prop) : Prop where
  interrupted : ∀ e db, e ≠ .stopped → Interrupted a db → E e db
  halted : ∀ db, Halted a db → E .stopped db

section Mid

variable {Q : Unit → Db → Prop} {E : DbError → Db → Prop} {db₀ db : Db}

lemma accepts_ended (a : Disk × EngineState) : Accepts a (Ended a) where
  interrupted _ _ _ h := h.ended
  halted _ h := h

lemma Accepts.refuse {a : Disk × EngineState} (hE : Accepts a E) :
    Accepts a (fun e db => if e = .stopped then E e db else refuseWrites.wp (fun _ db' => E e db') E db) where
  interrupted e db he h := by
    rw [if_neg he, wp_refuseWrites]
    refine hE.interrupted e _ he ?_
    obtain ⟨d₁, d, t, hg, hg', ht, hd, -⟩ := h
    have hp : db.published.applyDegrade = db.published := by rw [EngineState.applyDegrade, ← hd]
    exact ⟨d₁, d, t, hp.symm ▸ hg, hp.symm ▸ hg', ht, rfl, rfl⟩
  halted db h := by simpa using hE.halted db h

namespace Mid

variable {db' : Db} {t : EngineState} {p : Path}

lemma start (db : Db) (t : EngineState) (h : t = db.published) : Mid db { db with t } :=
  ⟨rfl, rfl, rfl, h ▸ .refl⟩

section

variable (hm : Mid db₀ db)

include hm

lemma step (hg : GrowsTo (db.disk, db.t) (db'.disk, db'.t))
    (hp : db'.published = db.published) (hw : db'.writeFault = db.writeFault) (hf : db'.flushError = db.flushError) :
    Mid db₀ db' :=
  ⟨hp.trans hm.published, hw.trans hm.writeFault, hf.trans hm.flushError, hm.grows.trans hg⟩

lemma withT (hg : GrowsTo (db.disk, db.t) (db.disk, t)) : Mid db₀ { db with t } :=
  ⟨hm.published, hm.writeFault, hm.flushError, hm.grows.trans hg⟩

lemma setMode (mode : Mode) : Mid db₀ { db with t := db.t.applySetMode mode } :=
  hm.withT (.single (.flag db.t.durableSeq db.t.syncRequestedSeq mode db.t.degraded))

lemma broken {d : Disk} (hb : Broken (db.disk, db.t) d t) : Broken (db₀.disk, db₀.published) d t := by
  obtain ⟨d₁, hg, ht⟩ := hb
  exact ⟨d₁, hm.grows.trans hg, ht⟩

lemma interrupted_current (hb : Broken (db.disk, db.t) db'.disk t)
    (hp : db'.published = db₀.published.applyDegrade) (hw : db'.writeFault = true) : Interrupted db₀.start db' :=
  .of_current (hm.broken hb) hp hw

lemma interrupted_transient {s : EngineState} (hb : Broken (db.disk, db.t) db'.disk t)
    (hs : s = t ∨ s = db.published) (hp : db'.published = s.applyDegrade) (hw : db'.writeFault = true) :
    Interrupted db₀.start db' := by
  rcases hs with rfl | rfl
  · exact .of_transient (hm.broken hb) hp hw
  · exact .of_current (hm.broken hb) (hm.published ▸ hp) hw

lemma halted (hb : Broken (db.disk, db.t) db'.disk t) : Halted db₀.start db' :=
  .of_broken (hm.broken hb)

lemma wp_syncActiveFile (hE : Accepts db₀.start E) {current : EngineState}
    (hok : ∀ fs, Mid db₀ { db with
        disk := db.disk.sync db.t.activePath, t := db.t.applySync (db.t.nextSeq - 1), faults := fs } →
      Q () { db with disk := db.disk.sync db.t.activePath, t := db.t.applySync (db.t.nextSeq - 1), faults := fs }) :
    (syncActiveFile current).wp Q E db := by
  simp only [syncActiveFile, wp_bind, wp_get, wp_onError, wp_modifyT]
  refine wp_sync (fun fs => hok fs (hm.step ?_ rfl rfl rfl)) fun f fs => ?_
  · exact (Relation.ReflTransGen.single (.sync _)).tail (.flag _ _ _ _)
  · cases f.stops
    · simp only [Bool.false_eq_true, if_false, reduceCtorEq]
      refine wp_degradeTransient (fun s hs => hE.interrupted _ _ (by simp) ?_)
      exact hm.interrupted_transient (.of_growsTo .refl) hs rfl rfl
    · exact hE.halted _ (hm.halted (.of_growsTo .refl))

lemma wp_syncOrDegrade (hE : Accepts db₀.start E) {seq : ℕ}
    (hok : ∀ fs, Mid db₀ { db with disk := db.disk.sync p, t := db.t.applySync seq, faults := fs } →
      Q () { db with disk := db.disk.sync p, t := db.t.applySync seq, faults := fs }) :
    (onError (do sync p; modifyT (fun t => t.applySync seq)) (degradeFrom db₀.published)).wp Q E db := by
  simp only [wp_bind, wp_onError, wp_modifyT]
  refine wp_sync (fun fs => hok fs (hm.step ?_ rfl rfl rfl)) fun f fs => ?_
  · exact (Relation.ReflTransGen.single (.sync _)).tail (.flag _ _ _ _)
  · cases f.stops
    · simp only [Bool.false_eq_true, if_false, reduceCtorEq, wp_degradeFrom]
      exact hE.interrupted _ _ (by simp) (hm.interrupted_current (.of_growsTo .refl) rfl rfl)
    · exact hE.halted _ (hm.halted (.of_growsTo .refl))

lemma wp_rotation (hE : Accepts db₀.start E) {handler : Op Unit}
    (hh : handler = degradeFrom db₀.published ∨ ∃ current, handler = degradeTransient current)
    (hok : ∀ fs, Mid db₀ { db with
        disk := (db.disk.shrink db.t.activePath).create, t := rotated db.disk db.t, faults := fs } →
      Q () { db with disk := (db.disk.shrink db.t.activePath).create, t := rotated db.disk db.t, faults := fs }) :
    (rotation handler).wp Q E db := by
  simp only [rotation, wp_bind, wp_onError, finishRotation, wp_modifyT]
  refine wp_prepareRotation (fun fs => hok fs (hm.step (growsTo_rotated _ _) rfl rfl rfl)) (fun e fs d t hb => ?_)
  split_ifs with he
  · exact he ▸ hE.halted _ (hm.halted hb)
  · rcases hh with rfl | ⟨current, rfl⟩
    · rw [wp_degradeFrom]
      exact hE.interrupted _ _ he (hm.interrupted_current hb rfl rfl)
    · refine wp_degradeTransient (fun s hs => hE.interrupted _ _ he ?_)
      exact hm.interrupted_transient hb hs rfl rfl

lemma wp_append (hE : Accepts db₀.start E) {es : List DataEntry}
    (hes : Appendable db.t es) (hp : db.t.activePath = p)
    (hok : ∀ fs, Q () { db with disk := db.disk.append p es, t, faults := fs }) :
    (onError (appendEntries p es) (do attempt (sync p); degradeFrom db₀.published)).wp Q E { db with t } := by
  subst hp
  rw [wp_onError]
  refine wp_appendEntries hes.nonempty hok fun f fs => ?_
  have hbroken : Broken (db.disk, db.t) (db.disk.failAppend db.t.activePath es f) db.t := ⟨_, .refl, .append f hes⟩
  have hsynced : Broken (db.disk, db.t) ((db.disk.failAppend db.t.activePath es f).sync db.t.activePath) db.t :=
    ⟨_, .refl, .sync _ (.append f hes)⟩
  cases f.stops
  · simp only [Bool.false_eq_true, if_false, reduceCtorEq, wp_bind, wp_degradeFrom]
    refine wp_attempt_sync (fun fs => ?_) (fun fs => ?_) (fun fs => ?_)
    · exact hE.interrupted _ _ (by simp) (hm.interrupted_current hsynced rfl rfl)
    · exact hE.interrupted _ _ (by simp) (hm.interrupted_current hbroken rfl rfl)
    · exact hE.halted _ (hm.halted hbroken)
  · exact hE.halted _ (hm.halted hbroken)

lemma wp_storeState (h₀ : Healthy db₀) (hd : db.t.degraded = false)
    (hr : db.t.syncRequestedSeq ≤ db.t.durableSeq) (hs : db.t.durableSeq + 1 = db.t.nextSeq)
    (hok : Healthy { db with published := db.t } → Q () { db with published := db.t }) :
    (storeState db₀.published db.t).wp Q E db := by
  obtain ⟨hseq, hactive, hnext⟩ := hm.grows.counters_le h₀.stored
  have hdur : db₀.published.durableSeq ≤ db.t.durableSeq := by
    refine Nat.lt_succ_iff.1 (h₀.durable.trans_le ?_)
    rw [Nat.succ_eq_add_one, hs]
    exact hseq
  rw [Db.wp_storeState]
  refine ⟨fun _ => hok ?_, fun hf => absurd ⟨hseq, hactive, hnext, hdur, hr⟩ hf⟩
  exact ⟨h₀.stored.growsTo hm.grows, hd, hm.writeFault.trans h₀.writeFault, hm.flushError.trans h₀.flushError,
    hr, hs ▸ Nat.lt_succ_self _, fun _ => hs⟩

lemma wp_storeState_settled (h₀ : Healthy db₀) (hd : db.t.degraded = false)
    (hr : db.t.syncRequestedSeq ≤ db.t.durableSeq) (hs : db.t.durableSeq + 1 = db.t.nextSeq) :
    (storeState db₀.published db.t).wp (fun _ db' => Settled db₀.start { db' with head := db'.published }) E db :=
  hm.wp_storeState h₀ hd hr hs (fun hh => .inl ⟨db.disk, hh.live, hm.grows⟩)

end

end Mid

end Mid

end Db

end Bytecask
