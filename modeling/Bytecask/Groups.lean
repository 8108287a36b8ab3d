import Bytecask.Calls
import Bytecask.Checked
import Bytecask.Commit

/-! A group of plans takes the head to the state that ingesting their entries gives. -/

namespace Bytecask

open EStateM EngineState

section Disk

lemma Disk.append_nil (d : Disk) (p : Path) : d.append p [] = d := by
  have hfiles : d.files.adjust p (fun f => { f with entries := f.entries ++ [] }) = d.files := by
    refine SortedMap.ext fun q => ?_
    rw [SortedMap.get_adjust]
    split_ifs with hq
    · rw [hq]
      simp
    · rfl
  rw [append, adjust, hfiles]

lemma Disk.append_append (d : Disk) (p : Path) (es fs : List DataEntry) :
    d.append p (es ++ fs) = (d.append p es).append p fs := by
  have hfiles : d.files.adjust p (fun f => { f with entries := f.entries ++ (es ++ fs) }) =
      (d.files.adjust p (fun f => { f with entries := f.entries ++ es })).adjust p
        (fun f => { f with entries := f.entries ++ fs }) := by
    refine SortedMap.ext fun q => ?_
    simp only [SortedMap.get_adjust, if_true]
    split_ifs
    · rw [Option.map_map]
      refine congrArg (fun g => Option.map g _) (funext fun f => ?_)
      simp
    · rfl
  simp only [append, adjust, hfiles]

lemma Disk.size_append {d : Disk} {p : Path} (h : (d.files.get p).isSome) (es : List DataEntry) :
    (d.append p es).size p = d.size p + bytesOf es := by
  obtain ⟨f, hf⟩ := Option.isSome_iff_exists.1 h
  simp [size, append, get_adjust, hf]

end Disk

section Slot

variable {d : Disk} {t : EngineState} {plan : WritePlan}
variable {t' : EngineState} {es : List DataEntry}

lemma prepareWrite_appendable (h : Stored d t) (hne : plan.writes ≠ []) : Appendable t (t.prepareWrite plan) where
  nonempty := t.prepareWrite_ne_nil hne
  written := (t.prepareWrite_written plan h.mirror.positive).1
  units := (t.prepareWrite_isUnit hne).units
  fresh := (t.prepareWrite_written plan h.mirror.positive).2

lemma applySlot_eq (h : Stored d t) (hp : plan.Honest (d.contents t) t.activeFileId) (hne : plan.writes ≠ [])
    (hx : applySlot t plan (offsetsFrom (d.size t.activePath) (t.prepareWrite plan)) = .applied t' es) :
    es = t.prepareWrite plan ∧ t' = t.applyIngest es (offsetsFrom (d.size t.activePath) es) := by
  have hwrites := applyWrites_eq h.mirror hp hne
  rw [h.size_eq] at hx ⊢
  simp only [applySlot] at hx
  split_ifs at hx with hc
  · have hspec := applyPutsChecked_spec h.mirror hp hc
    revert hx hspec
    cases t.applyPutsChecked plan _ with
    | applied t₁ =>
      rintro ⟨⟩ hspec
      exact ⟨rfl, hspec⟩
    | abandoned t₁ =>
      intro hx hspec
      obtain rfl : t₁ = t := hspec
      dsimp only at hx
      split at hx
      · cases hx
      · cases hx
        exact ⟨rfl, hwrites⟩
    | undoFault => exact fun _ hspec => hspec.elim
  · cases hx
    exact ⟨rfl, hwrites⟩

lemma executeSlot_applied {cfg : Config} {canRotate : Bool} (h : Stored d t) (hp : plan.Honest (d.contents t) t.activeFileId)
    (hx : executeSlot cfg canRotate t (d.size t.activePath) plan = .applied t' es) :
    Appendable t es ∧ t' = t.applyIngest es (offsetsFrom (d.size t.activePath) es) := by
  have hsome : ∀ last, (t.prepareWrite plan).getLast? = some last → plan.writes ≠ [] := by
    intro last hlast hnil
    simp [prepareWrite, WritePlan.multi, hnil, opEntries] at hlast
  simp only [executeSlot] at hx
  repeat' split at hx
  all_goals try cases hx
  obtain ⟨rfl, ht⟩ := applySlot_eq h hp (hsome _ ‹_›) hx
  exact ⟨prepareWrite_appendable h (hsome _ ‹_›), ht⟩

end Slot

structure Staging (d : Disk) (s : EngineState) (g : Staged) : Prop where
  grown : Extends (d, s) (d.append s.activePath g.entries, g.t)
  offset : g.offset = (d.append s.activePath g.entries).size s.activePath
  flags : g.t.durableSeq = s.durableSeq ∧ g.t.syncRequestedSeq = s.syncRequestedSeq ∧ g.t.mode = s.mode ∧
    g.t.degraded = s.degraded
  same : g.entries = [] → g.t = s
  written : Written g.entries
  units : Units g.entries
  fresh : ∀ e ∈ g.entries, s.nextSeq ≤ e.sequence
  below : ∀ e ∈ g.entries, e.sequence < g.t.nextSeq

section Staging

variable {d : Disk} {s : EngineState} {g : Staged}
variable {plan : WritePlan}

lemma Staging.start (d : Disk) (s : EngineState) : Staging d s { t := s, offset := d.size s.activePath } where
  grown := by
    rw [Disk.append_nil]
  offset := by rw [Disk.append_nil]
  flags := ⟨rfl, rfl, rfl, rfl⟩
  same _ := rfl
  written := ⟨by simp, .nil, by simp⟩
  units := .nil
  fresh := by simp
  below := by simp

lemma Staging.appendable (h : Staging d s g) (hne : g.entries ≠ []) : Appendable s g.entries :=
  ⟨hne, h.written, h.units, h.fresh⟩

lemma Staging.honest (h : Staging d s g) (hs : Stored d s) (hp : plan.Honest (d.contents s) s.activeFileId) :
    plan.Honest ((d.append s.activePath g.entries).contents g.t) g.t.activeFileId := by
  obtain ⟨hfiles, hactive, -⟩ := h.grown.frame
  rw [Disk.contents_congr hfiles, hs.contents_append, hactive]
  exact hp.extend _

lemma Staging.applied (h : Staging d s g) (hs : Stored d s) {es : List DataEntry} {t : EngineState} (hes : Appendable g.t es)
    (ht : t = g.t.applyIngest es (offsetsFrom g.offset es)) : Staging d s (g.add (.applied t es)) := by
  have hpath := h.grown.activePath
  have hactive := hs.present _ _ hs.active
  have hsome : ((d.append s.activePath g.entries).files.get s.activePath).isSome := by
    rw [Disk.append, Disk.get_adjust, if_pos rfl, Option.isSome_map]
    exact hactive
  have hnext := g.t.applyIngest_nextSeq g.offset hes
  obtain ⟨hdur, hreq, hmode, hdeg, -⟩ := g.t.applyIngest_flags _ hes
  have hlt : ∀ e ∈ es, e.sequence < t.nextSeq := fun e he => by
    rw [ht, hnext]
    exact Nat.lt_succ_of_le (le_lastSeq he)
  have hgrown := h.grown.tail (.append hes)
  rw [hpath, ← Disk.append_append, ← h.offset, ← ht] at hgrown
  refine ⟨hgrown, ?_, ?_, ?_, ?_, h.units.append hes.units, ?_, ?_⟩
  · show g.offset + bytesOf es = (d.append s.activePath (g.entries ++ es)).size s.activePath
    rw [Disk.append_append, Disk.size_append hsome, h.offset]
  · obtain ⟨h₁, h₂, h₃, h₄⟩ := h.flags
    subst ht
    exact ⟨hdur.trans h₁, hreq.trans h₂, hmode.trans h₃, hdeg.trans h₄⟩
  · intro hnil
    exact absurd (List.append_eq_nil_iff.1 hnil).2 hes.nonempty
  · refine ⟨?_, ?_, ?_⟩
    · exact fun e he => (List.mem_append.1 he).elim (h.written.shaped e) (hes.written.shaped e)
    · refine List.pairwise_append.2 ⟨h.written.ascending, hes.written.ascending, fun x hx y hy => ?_⟩
      exact (h.below x hx).trans_le (hes.fresh y hy)
    · exact fun e he => (List.mem_append.1 he).elim (h.written.positive e) (hes.written.positive e)
  · intro e he
    rcases List.mem_append.1 he with he | he
    · exact h.fresh e he
    · exact h.grown.nextSeq_le.trans (hes.fresh e he)
  · intro e he
    rcases List.mem_append.1 he with he | he
    · obtain ⟨x, hx⟩ := List.exists_mem_of_ne_nil es hes.nonempty
      exact (h.below e he).trans_le ((hes.fresh x hx).trans (hlt x hx).le)
    · exact hlt e he

lemma Staging.add (h : Staging d s g) (hs : Stored d s) (cfg : Config) (canRotate : Bool)
    (hp : plan.Honest (d.contents s) s.activeFileId) :
    Staging d s (g.add (executeSlot cfg canRotate g.t g.offset plan)) := by
  have hoffset : g.offset = (d.append s.activePath g.entries).size g.t.activePath :=
    h.offset.trans (congrArg _ h.grown.activePath.symm)
  cases hx : executeSlot cfg canRotate g.t g.offset plan with
  | applied t es =>
    rw [hoffset] at hx
    obtain ⟨hes, ht⟩ := executeSlot_applied (hs.growsTo h.grown.growsTo) (h.honest hs hp) hx
    exact h.applied hs hes (hoffset ▸ ht)
  | empty | conflict | nothing | refused => exact ⟨h.grown, h.offset, h.flags, h.same, h.written, h.units, h.fresh, h.below⟩

lemma Staging.stageSlots (h : Staging d s g) (hs : Stored d s) (cfg : Config) (canRotate : Bool) {slots : List Slot}
    (hp : ∀ slot ∈ slots, slot.plan.Honest (d.contents s) s.activeFileId) :
    Staging d s (stageSlots cfg canRotate slots g) := by
  induction slots generalizing g with
  | nil => exact h
  | cons slot slots ih =>
    rw [Bytecask.stageSlots]
    split_ifs
    · exact h
    · exact ih (h.add hs cfg _ (hp slot List.mem_cons_self)) (fun x hx => hp x (List.mem_cons_of_mem _ hx))

end Staging

namespace Db

section Group

variable {d : Disk} {db : Db} {cfg : Config}
variable {Q : Option DbError → Db → Prop} {E : DbError → Db → Prop} {t : EngineState} {fs : List (Option Fault)}

lemma Live.wp_rotateAppended (h : Live d db) {es : List DataEntry}
    (anySync : Bool) (ht : Extends (db.disk, db.head) (db.disk.append db.head.activePath es, t))
    (hflags : t.durableSeq = db.head.durableSeq ∧ t.syncRequestedSeq < t.nextSeq ∧ t.mode = db.head.mode ∧ t.degraded = false)
    (hlive : ∀ db', Healthy db' → GrowsTo (d, db.published) db'.start → Q none db')
    (hinterrupted : ∀ e db', Interrupted (d, db.published) db' → Q (some e) db')
    (hstop : ∀ db', Halted (d, db.published) db' → E .stopped db') :
    (rotateAppended anySync (t.nextSeq - 1)).wp Q E { db with disk := db.disk.append db.head.activePath es, t, faults := fs } := by
  simp only [rotateAppended, wp_bind, wp_get]
  obtain ⟨htdur, htreq, -, htdeg⟩ := hflags
  have hdurable : t.durableSeq < t.nextSeq := by
    have h₁ : db.published.nextSeq ≤ db.head.nextSeq := h.ahead.nextSeq_le
    have h₂ : db.head.nextSeq ≤ t.nextSeq := ht.nextSeq_le
    have h₃ := h.headDurable
    have h₄ := h.durable
    omega
  refine h.wp_flushPending (fun d' fs s hd' hf => ?_) (fun fs => ?_) (fun fs => ?_)
  · have hh := hf.healthy
    have hg := hf.since
    have hs := hf.growsTo
    -- The barrier runs as an operation that began when everything before the group was published.
    have hm : Mid { db with published := s } { db with disk := d', published := s, t, faults := fs } := by
      refine ⟨rfl, rfl, rfl, ?_⟩
      rcases hd' with rfl | rfl
      · exact hs.trans ht.growsTo
      · exact (hs.trans ht.growsTo).tail (.sync _)
    have hE : Accepts (Db.start { db with published := s })
        (fun e db' => if e = .stopped then E e db' else (pure (some e) : Op (Option DbError)).wp Q E db') :=
      ⟨fun e db' he hi => by
        rw [if_neg he]
        exact hinterrupted e db' (hi.since hg), fun db' hi => hstop db' (hi.since hg)⟩
    have hfine : Db.refused { db with disk := d', published := s, t, faults := fs } = false := hh.refused
    simp only [hfine, Bool.false_eq_true, if_false, wp_catching, wp_bind]
    refine hm.wp_syncOrDegrade hE (fun fs hm => ?_)
    refine hm.wp_rotation hE (.inr ⟨_, rfl⟩) (fun fs hm => ?_)
    have hend : ∀ db' : Db, Mid { db with published := s } db' → db'.t.degraded = false →
        db'.t.syncRequestedSeq ≤ db'.t.durableSeq → db'.t.durableSeq + 1 = db'.t.nextSeq →
        (do storeState s (← get).t; return none : Op (Option DbError)).wp Q
          (fun e db' => if e = .stopped then E e db' else (pure (some e) : Op (Option DbError)).wp Q E db') db' := by
      intro db' hm hdeg hreq hdur
      simp only [wp_bind, wp_get, wp_pure]
      exact hm.wp_storeState hh hdeg hreq hdur (fun hh' => hlive _ hh' (hg.trans hm.grows))
    cases anySync with
    | false =>
      refine hend _ hm htdeg ?_ ?_
      · show t.syncRequestedSeq ≤ max t.durableSeq (t.nextSeq - 1)
        omega
      · show max t.durableSeq (t.nextSeq - 1) + 1 = t.nextSeq
        omega
    | true =>
      simp only [if_true, wp_bind]
      refine hm.wp_syncOrDegrade hE (fun fs hm => hend _ hm htdeg ?_ ?_)
      · show t.syncRequestedSeq ≤ max (max t.durableSeq (t.nextSeq - 1)) (t.nextSeq - 1)
        omega
      · show max (max t.durableSeq (t.nextSeq - 1)) (t.nextSeq - 1) + 1 = t.nextSeq
        omega
  · simp only [Db.refused, Bool.or_true, if_true, wp_pure]
    refine hinterrupted _ _ ⟨d, _, t, growsTo_degrade _ _, ?_, .whole, rfl, rfl⟩
    exact (growsTo_undegrade _ _).trans (h.ahead.growsTo.trans ht.growsTo)
  · exact hstop _ ⟨_, t, h.ahead.growsTo.trans ht.growsTo, .whole⟩

lemma Live.wp_commitAppended (h : Live d db) (hleader : db.published.mode = .leader) {g : Staged} (hg : Staging db.disk db.head g)
    (anySync : Bool) (hsettled : ∀ e db', Settled (d, db.published) db' → Q e db')
    (hstop : ∀ db', Halted (d, db.published) db' → E .stopped db') :
    (commitAppended cfg anySync (g.t.nextSeq - 1)).wp Q E
      { db with disk := db.disk.append db.head.activePath g.entries, t := g.t, faults := fs } := by
  obtain ⟨hdur, hreq, hmode, hdeg⟩ := hg.flags
  have hle : db.head.nextSeq ≤ g.t.nextSeq := hg.grown.nextSeq_le
  have hheadReq := h.headRequested
  -- What the group asks to be synced lies in it.
  have hnoted : ∀ t : EngineState, t = g.t ∨ t = g.t.noteSyncRequested (g.t.nextSeq - 1) →
      (do
        let db ← get
        if db.disk.size db.t.activePath < cfg.rotationThreshold then
          storeHead db.t
          return none
        let e ← rotateAppended anySync (g.t.nextSeq - 1)
        storeHead (← get).published
        return e : Op (Option DbError)).wp Q E
        { db with disk := db.disk.append db.head.activePath g.entries, t, faults := fs } := by
    intro t ht
    have hext : Extends (db.disk, db.head) (db.disk.append db.head.activePath g.entries, t) := by
      rcases ht with rfl | rfl
      · exact hg.grown
      · exact hg.grown.tail (.flag _ _ _ _)
    have hflags : t.durableSeq = db.head.durableSeq ∧ t.syncRequestedSeq < t.nextSeq ∧ t.mode = db.head.mode ∧
        t.degraded = false := by
      rcases ht with rfl | rfl
      · exact ⟨hdur, by omega, hmode, hdeg.trans h.headDegraded⟩
      · refine ⟨hdur, ?_, hmode, hdeg.trans h.headDegraded⟩
        show max _ _ < g.t.nextSeq
        omega
    have hnext : t.nextSeq = g.t.nextSeq := by rcases ht with rfl | rfl <;> rfl
    simp only [wp_bind, wp_get]
    split_ifs
    · simp only [wp_bind, wp_storeHead, wp_pure]
      refine hsettled _ _ (.inl ⟨d, ?_, .refl⟩)
      exact ⟨h.stored, h.ahead.trans hext, hflags.2.2.1.trans h.mode, hflags.2.2.2, hflags.1.trans_le h.headDurable,
        hflags.2.1, h.degraded, h.writeFault, h.flushError, h.requested, h.durable,
        fun hf => absurd (hleader.symm.trans hf) (by simp)⟩
    · simp only [wp_bind, wp_get, wp_storeHead, wp_pure]
      rw [← hnext]
      refine h.wp_rotateAppended _ hext hflags (fun db' hh hg => ?_) (fun e db' hi => ?_) hstop
      · exact hsettled _ _ (.inl ⟨db'.disk, hh.live, hg⟩)
      · exact hsettled _ _ (.inr hi)
  simp only [commitAppended]
  cases anySync with
  | false =>
    exact hnoted g.t (.inl rfl)
  | true =>
    exact hnoted _ (.inr rfl)

lemma Live.wp_degradeAppend {Q : Unit → Db → Prop} (h : Live d db) {disk : Disk}
    (htorn : ∀ p, Torn db.disk db.head disk ∧ Torn db.disk db.head (disk.sync p))
    (hok : ∀ db', Interrupted (d, db.published) db' → Q () db') (hstop : ∀ db', Halted (d, db.published) db' → E .stopped db') :
    degradeAppend.wp Q E { db with disk, t, faults := fs } := by
  simp only [degradeAppend, wp_bind, wp_get, wp_degradeFrom, wp_storeHead]
  refine h.wp_flushPending (fun d' fs s hd' hf => ?_) (fun fs => ?_) (fun fs => ?_)
  · refine hok _ ⟨db.disk, db.disk, db.head, hf.since.trans (growsTo_degrade _ _),
      (growsTo_undegrade _ _).trans hf.growsTo, ?_, rfl, rfl⟩
    rcases hd' with rfl | rfl
    · exact (htorn 0).1
    · exact (htorn _).2
  · refine hok _ ⟨d, db.disk, db.head, ?_, ?_, (htorn 0).1, rfl, rfl⟩
    · exact growsTo_degrade _ _
    · exact (growsTo_undegrade _ db.published).trans h.ahead.growsTo
  · exact hstop _ ⟨db.disk, db.head, h.ahead.growsTo, (htorn 0).1⟩

theorem executeGroup_settled (h : Live d db) {batch : List Slot}
    (hp : ∀ slot ∈ batch, slot.plan.Honest (db.disk.contents db.head) db.head.activeFileId) :
    (executeGroup cfg batch).wp (fun _ => Settled (d, db.published)) (Thrown (d, db.published)) db := by
  have hstored := h.stored.growsTo h.ahead.growsTo
  simp only [executeGroup, wp_bind, wp_get]
  split
  · exact .inl ⟨d, h, .refl⟩
  · next hnone =>
    have hleader : db.published.mode = .leader := by
      by_contra hmode
      simp [writeRefusal, isWriteAllowed, hmode] at hnone
    have hg := (Staging.start _ _).stageSlots hstored cfg (db.head.fileIdsLeft ≠ 0) hp
    generalize stageSlots cfg (db.head.fileIdsLeft ≠ 0) batch
      { t := db.head, offset := db.disk.size db.head.activePath } = g at hg ⊢
    have hpos : 0 < g.t.nextSeq := (hstored.growsTo hg.grown.growsTo).mirror.positive
    split_ifs with hnil hany
    · -- A sync slot with nothing to append only asks for the sync.
      have hsame := hg.same hnil
      have hreq := h.headRequested
      simp only [wp_bind, wp_modifyT, wp_get, wp_storeHead, wp_pure, hsame]
      refine .inl ⟨d, ⟨h.stored, h.ahead.tail ?_, h.mode, h.headDegraded, h.headDurable, ?_, h.degraded, h.writeFault,
        h.flushError, h.requested, h.durable, h.position⟩, .refl⟩
      · exact .flag _ _ _ _
      · show max db.head.syncRequestedSeq (db.head.nextSeq - 1) < db.head.nextSeq
        omega
    · exact .inl ⟨d, h.withT _, .refl⟩
    · have hes := hg.appendable hnil
      simp only [wp_catching, wp_bind, wp_onError, wp_pure]
      have hthrown : ∀ db', Halted _ db' → Thrown (d, db.published) .stopped db' := fun _ hh => hh
      refine wp_appendEntries hes.nonempty (fun fs => ?_) (fun f fs => ?_)
      · refine h.wp_commitAppended hleader hg _ (fun e db' hs => ?_) (fun db' hh => ?_)
        · cases e with
          | none | some => exact hs
        · simpa using hthrown db' hh
      · have htorn : Torn _ _ (db.disk.failAppend _ _ f) := .append f hes
        have hhalted : ∀ fs, Thrown _ .stopped
            { db with disk := db.disk.failAppend _ _ f, t := g.t, faults := fs } :=
          fun fs => ⟨db.disk, db.head, h.ahead.growsTo, htorn⟩
        cases f.stops
        · simp only [Bool.false_eq_true, if_false, reduceCtorEq]
          have hstop : ∀ db', Halted _ db' → (if DbError.stopped = .stopped then
              Thrown _ .stopped db' else Settled (d, db.published) db') := fun db' hh => by simpa using hthrown db' hh
          refine wp_attempt_sync (fun fs => ?_) (fun fs => ?_) (fun fs => by simpa using hhalted fs)
          · exact h.wp_degradeAppend (fun p => ⟨.sync _ htorn, .sync _ (.sync _ htorn)⟩) (fun db' hi => .inr hi) hstop
          · exact h.wp_degradeAppend (fun p => ⟨htorn, .sync _ htorn⟩) (fun db' hi => .inr hi) hstop
        · simpa using hhalted fs

end Group

end Db

end Bytecask
