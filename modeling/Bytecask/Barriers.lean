import Bytecask.Calls
import Bytecask.Replication

/-! Mode changes, manifests and ingestion leave the engine healthy and grown, or degraded on the way. -/

namespace Bytecask.Db

open EStateM

section Manifest

variable {db : Db}

lemma applySync_durableSeq {s : EngineState} (hpos : 0 < s.nextSeq) (hd : s.durableSeq < s.nextSeq) :
    (s.applySync (s.nextSeq - 1)).durableSeq + 1 = s.nextSeq := by
  show max s.durableSeq (s.nextSeq - 1) + 1 = s.nextSeq
  omega

lemma applySync_requested {s : EngineState} (h : s.syncRequestedSeq ≤ s.durableSeq) (seq : ℕ) :
    (s.applySync seq).syncRequestedSeq ≤ (s.applySync seq).durableSeq :=
  h.trans (le_max_left _ _)

theorem createManifest_settled {d : Disk} (h : Live d db) :
    createManifest.wp (fun _ => Settled (d, db.published)) (Thrown (d, db.published)) db := by
  refine wp_barrier h (fun db h => ?_) (fun a db h => ?_)
  · simp only [wp_bind, wp_get, h.refused, Bool.false_eq_true, if_false, wp_modify]
    refine (Mid.start db _ rfl).wp_syncActiveFile (accepts_ended _) (fun fs hm => ?_)
    refine hm.wp_rotation (accepts_ended _) (.inr ⟨db.published, rfl⟩) (fun fs hm => ?_)
    exact hm.wp_storeState_settled h h.degraded (applySync_requested h.requested _)
      (applySync_durableSeq h.stored.mirror.positive h.durable)
  · simp only [wp_bind, wp_get, h.refused, if_true, wp_throw]
    exact h.ended

end Manifest

section Mode

variable {db : Db}

lemma stepDown_settled (h : Healthy db) : (stepDown db.published).wp
    (fun _ db' => Settled db.start { db' with head := db'.published }) (Ended db.start) { db with t := db.published } := by
  have hpos := h.stored.mirror.positive
  have hdur := h.durable
  have hm := Mid.start db _ rfl
  have hfine : Db.refused { db with t := db.published } = false := h.refused
  simp only [stepDown, wp_bind, wp_get, hfine, Bool.not_false, Bool.true_and, decide_eq_true_eq]
  split_ifs with hsync <;> simp only [wp_bind, wp_modifyT, wp_get]
  · refine hm.wp_syncActiveFile (accepts_ended _) (fun fs hm => ?_)
    refine (hm.setMode .follower).wp_storeState_settled h h.degraded (applySync_requested h.requested _) ?_
    exact applySync_durableSeq hpos hdur
  · refine (hm.setMode .follower).wp_storeState_settled h h.degraded h.requested ?_
    show db.published.durableSeq + 1 = db.published.nextSeq
    omega

lemma promoted_settled (h : Healthy db) (cfg : Config) (id : MarkerId) {E : DbError → Db → Prop} (hE : Accepts db.start E)
    (fs : List (Option Fault)) :
    (promoted cfg db.published id).wp (fun _ db' => Settled db.start { db' with head := db'.published }) E { db with
      disk := db.disk.append db.published.activePath [⟨db.published.nextSeq, .changeMarker, [], encodeMarkerId id⟩]
      t := db.published, faults := fs } := by
  have hpos := h.stored.mirror.positive
  have hes := marker_appendable hpos id
  have heq := db.published.applyChangeMarker_eq id (db.disk.size db.published.activePath)
  have hm : Mid db { db with
      disk := db.disk.append db.published.activePath [⟨db.published.nextSeq, .changeMarker, [], encodeMarkerId id⟩]
      t := db.published.applyChangeMarker db.published.nextSeq id, faults := fs } :=
    ⟨rfl, rfl, rfl, heq ▸ .single (.append hes)⟩
  -- The marker is the last entry of the state, so a sync leaves the state owing nothing.
  have hnext : (db.published.applyChangeMarker db.published.nextSeq id).nextSeq = db.published.nextSeq + 1 := by
    simp [EngineState.applyChangeMarker, EngineState.appendMarker]
  have hdur : (db.published.applyChangeMarker db.published.nextSeq id).durableSeq <
      (db.published.applyChangeMarker db.published.nextSeq id).nextSeq :=
    hnext ▸ Nat.lt_succ_of_lt h.durable
  have hreq : (db.published.applyChangeMarker db.published.nextSeq id).syncRequestedSeq ≤
      (db.published.applyChangeMarker db.published.nextSeq id).durableSeq := h.requested
  simp only [promoted, wp_bind, wp_modifyT]
  refine hm.wp_syncActiveFile hE (fun fs hm => ?_)
  simp only [wp_get]
  split_ifs <;> simp only [wp_bind, wp_modifyT, wp_get]
  · refine hm.wp_rotation hE (.inr ⟨_, rfl⟩) (fun fs hm => ?_)
    exact (hm.setMode .leader).wp_storeState_settled h h.degraded (applySync_requested hreq _) (applySync_durableSeq (Nat.zero_lt_of_lt hdur) hdur)
  · exact (hm.setMode .leader).wp_storeState_settled h h.degraded (applySync_requested hreq _) (applySync_durableSeq (Nat.zero_lt_of_lt hdur) hdur)

lemma promote_settled (h : Healthy db) (cfg : Config) (id : MarkerId) : (promote cfg db.published id).wp
    (fun _ db' => Settled db.start { db' with head := db'.published }) (Ended db.start) { db with t := db.published } := by
  have hfine : Db.refused { db with t := db.published } = false := h.refused
  simp only [promote, wp_bind, wp_get, hfine, Bool.false_eq_true, if_false]
  split_ifs <;> simp only [wp_bind, wp_throw]
  · exact h.ended
  · refine (Mid.start db _ rfl).wp_append (accepts_ended _)
      (marker_appendable h.stored.mirror.positive id) rfl (fun fs => ?_)
    rw [wp_onError]
    exact promoted_settled h cfg id (accepts_ended _).refuse fs

lemma stepDown_degraded {a : Disk × EngineState} (h : Interrupted a db) : (stepDown db.published).wp
    (fun _ db' => Settled a { db' with head := db'.published }) (Ended a) { db with t := db.published } := by
  have hrefused : Db.refused { db with t := db.published } = true := h.refused
  obtain ⟨d₁, d, t, hg, hg', ht, hd, hw⟩ := h
  simp only [stepDown, wp_bind, wp_get, hrefused, Bool.not_true, Bool.false_and, Bool.false_eq_true,
    if_false, wp_modifyT, wp_storeState]
  have hsame : db.published.applyDegrade = db.published := by rw [EngineState.applyDegrade, ← hd]
  refine ⟨fun _ => .inr ⟨d₁, d, t, ?_, ?_, ht, hd, hw⟩, fun _ => .inr ⟨d₁, d, t, ?_, ?_, ht, rfl, hw⟩⟩
  · exact hg.tail (.flag _ _ .follower _)
  · exact (growsTo_withFlags d₁ _ _).trans hg'
  · exact hsame.symm ▸ hg
  · exact hsame.symm ▸ hg'

theorem setMode_settled {d : Disk} (h : Live d db) (cfg : Config) (mode : Mode) (id : MarkerId) :
    (setMode cfg mode id).wp (fun _ => Settled (d, db.published)) (Thrown (d, db.published)) db := by
  refine wp_barrier h (fun db h => ?_) (fun a db h => ?_)
  · simp only [wp_bind, wp_get]
    split_ifs
    · exact h.settled
    · simp only [wp_bind, wp_modify]
      cases mode with
      | follower => exact stepDown_settled h
      | leader => exact promote_settled h cfg id
  · simp only [wp_bind, wp_get]
    split_ifs
    · exact .inr h
    · simp only [wp_bind, wp_modify]
      cases mode with
      | follower => exact stepDown_degraded h
      | leader =>
        have hrefused : Db.refused { db with t := db.published } = true := h.refused
        simp only [promote, wp_bind, wp_get, hrefused, if_true, wp_throw]
        exact h.ended

end Mode

end Bytecask.Db
