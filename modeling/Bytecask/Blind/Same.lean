import Bytecask.Blind.Checked

/-! Transients that differ only in where records are read from, each of theirs readable: a plan runs to its end and does
the same to both. -/

namespace Bytecask.Blind

open Option SortedMap

open PatchMap (FileStatsDeltaWords)

variable {ε : Type}

namespace Transient

structure Same (t u : Transient ε) : Prop where
  keyDir : u.keyDir = t.keyDir
  fileStats : u.fileStats = t.fileStats
  activeFileId : u.activeFileId = t.activeFileId
  nextSeq : u.nextSeq = t.nextSeq
  readable : t.Readable
  reads : ∀ key r, t.keyDir.get key = some r → u.kdCtx.keyAt r = t.kdCtx.keyAt r

section Reads

variable {t u : Transient ε} {key : Bytes}

lemma Same.refl (ht : t.Readable) : Same t t := ⟨rfl, rfl, rfl, rfl, ht, fun _ _ _ => rfl⟩

section

variable (h : Same t u)

include h

lemma Same.trans {v : Transient ε} (h' : Same u v) : Same t v where
  keyDir := h'.keyDir.trans h.keyDir
  fileStats := h'.fileStats.trans h.fileStats
  activeFileId := h'.activeFileId.trans h.activeFileId
  nextSeq := h'.nextSeq.trans h.nextSeq
  readable := h.readable
  reads key r hr := (h'.reads key r (h.keyDir ▸ hr)).trans (h.reads key r hr)

lemma Same.readable_right : u.Readable := by
  intro key r hr
  rw [h.keyDir] at hr
  rw [h.reads key r hr]
  exact h.readable key r hr

lemma Same.displaced (key : Bytes) : displaced u.kdCtx (t.keyDir.get key) = displaced t.kdCtx (t.keyDir.get key) := by
  cases hr : t.keyDir.get key with
  | none => rfl
  | some r => rw [Blind.displaced, Blind.displaced, h.reads key r hr]

lemma Same.kdGet (key : Bytes) : kdGet t.keyDir key u.kdCtx = kdGet t.keyDir key t.kdCtx := by
  rw [Blind.kdGet, Blind.kdGet]
  cases hr : t.keyDir.get key with
  | none => rfl
  | some r =>
    dsimp only
    rw [KeyDirCtx.entryAt, KeyDirCtx.entryAt, h.reads key r hr]

lemma Same.headLatest : u.headLatest = t.headLatest := by rw [Transient.headLatest, h.nextSeq]; rfl

lemma Same.readSeq (cur : Option KeyDirEntry) : u.readSeq cur = t.readSeq cur := by
  rw [Transient.readSeq, h.headLatest]
  rfl

lemma Same.checkGuard (p : WritePlan ε) (key : Bytes) (pre : Precondition) : u.checkGuard p key pre = t.checkGuard p key pre := by
  simp only [Transient.checkGuard, h.keyDir, h.kdGet, h.readSeq, h.headLatest]

lemma Same.rangeChanged (s : Snapshot ε) (lo hi : Bytes) : u.rangeChanged s lo hi = t.rangeChanged s lo hi := by
  have hhead : ∀ e ∈ t.keyDir.range lo hi, u.kdCtx.entryAt e.2 = t.kdCtx.entryAt e.2 := by
    intro e he
    have hget : t.keyDir.get e.1 = some e.2 := SortedMap.get_eq_some.2 (SortedMap.mem_range.1 he).1
    rw [KeyDirCtx.entryAt, KeyDirCtx.entryAt, h.reads e.1 e.2 hget]
  simp only [Transient.rangeChanged, h.keyDir, h.kdGet, h.headLatest]
  congr 1
  exact List.forM_congr fun e he => by rw [hhead e he]

lemma Same.pointConflict (p : WritePlan ε) (s : Snapshot ε) (i : ℕ) (key : Bytes) :
    u.pointConflict p s i key = t.pointConflict p s i key := by
  simp only [Transient.pointConflict, h.keyDir, h.kdGet, h.readSeq]

lemma Same.writeConflict (p : WritePlan ε) (s : Snapshot ε) : u.writeConflict p s = t.writeConflict p s := by
  funext w
  simp only [Transient.writeConflict, h.pointConflict, h.rangeChanged]

lemma Same.validatePreconditions (p : WritePlan ε) (deferPuts : Bool) :
    u.validatePreconditions p deferPuts = t.validatePreconditions p deferPuts := by
  simp only [Transient.validatePreconditions, Transient.checkRangeGuard, h.checkGuard, h.rangeChanged, h.headLatest, h.writeConflict]

lemma Same.prepareWrite (p : WritePlan ε) : u.prepareWrite p = t.prepareWrite p := by
  simp only [Transient.prepareWrite, h.nextSeq]

end

end Reads

section Steps

variable {t u : Transient ε} {p : WritePlan ε} {i offset : ℕ} {key value : Bytes}

lemma Same.withDir (h : Same t u) {d : KeyDirTree} (hd : ∀ key r, d.get key = some r → t.keyDir.get key = some r) :
    Same { t with keyDir := d } { u with keyDir := d } :=
  ⟨rfl, h.fileStats, h.activeFileId, h.nextSeq, fun k r hr => h.readable k r (hd k r hr), fun k r hr => h.reads k r (hd k r hr)⟩

lemma Same.patch (h : Same t u) {id id' : FileId} (hid : id' = id) (d : FileStatsDeltaWords) :
    Same (t.patch id d) (u.patch id' d) where
  keyDir := h.keyDir
  fileStats := by
    simp only [Transient.patch, h.fileStats, hid]
  activeFileId := h.activeFileId
  nextSeq := h.nextSeq
  readable := h.readable
  reads := h.reads

lemma Same.release (h : Same t u) (key : Bytes) (hit : Option KeyDirHit) : Same (t.release key hit) (u.release key hit) := by
  cases hit with
  | none => exact h
  | some hit => exact h.patch rfl _

lemma Same.advance (h : Same t u) : Same t.advance u.advance where
  keyDir := h.keyDir
  fileStats := h.fileStats
  activeFileId := h.activeFileId
  nextSeq := congrArg (· + 1) h.nextSeq
  readable := h.readable
  reads := h.reads

lemma Same.withPut (h : Same t u) (key value : Bytes) (offset : ℕ) :
    Same (t.withPut key value offset) (u.withPut key value offset) where
  keyDir := by
    simp only [Transient.withPut, h.keyDir, h.activeFileId]
  fileStats := h.fileStats
  activeFileId := h.activeFileId
  nextSeq := h.nextSeq
  readable := h.readable.withPut key value offset
  reads k r hr := by
    refine (keyAt_notePending u offset key _ r).trans ((keyAt_notePending t offset key _ r).trans ?_).symm
    rw [h.activeFileId, h.nextSeq]
    by_cases hr' : r = ⟨t.activeFileId, offset⟩
    · rw [if_pos hr', if_pos hr']
    · rw [if_neg hr', if_neg hr']
      have hget : (t.keyDir.insert key ⟨t.activeFileId, offset⟩).get k = some r := hr
      by_cases hk : k = key
      · rw [hk, SortedMap.get_insert_self] at hget
        cases hget
        exact absurd rfl hr'
      · rw [SortedMap.get_insert_ne _ _ hk] at hget
        exact (h.reads k r hget).symm

def putDisplaced (p : WritePlan ε) (t : Transient ε) (i : ℕ) (key value : Bytes) (offset : ℕ) : Except ε (Option KeyDirHit) :=
  if (p.resolvedEntry i).any (fun at' => kdHolds t.keyDir key at') then .ok ((p.resolvedEntry i).map kdHit)
  else displaced (t.notePending offset key value.length).kdCtx (t.keyDir.get key)

def putDelta (key value : Bytes) : FileStatsDeltaWords :=
  { liveAdded := .ofNat (entrySize key.length value.length), totalAdded := .ofNat (entrySize key.length value.length) }

lemma applyPut_eq : applyPut p t i key value offset = (putDisplaced p t i key value offset).map (fun existing =>
    (((t.withPut key value offset).release key existing).patch t.activeFileId (putDelta key value)).advance) := by
  cases hat : p.resolvedEntry i with
  | none =>
    have hdir : (t.notePending offset key value.length).keyDir = t.keyDir := rfl
    simp only [applyPut, putDisplaced, hat, bind_none, any_none, Bool.false_eq_true, if_false, kdPut, hdir]
    cases displaced (t.notePending offset key value.length).kdCtx (t.keyDir.get key) <;> rfl
  | some at' =>
    have hdir : (t.notePending offset key value.length).keyDir = t.keyDir := rfl
    by_cases hk : t.keyDir.get key = some (toBlindRef at')
    · have hholds : kdHolds t.keyDir key at' = true := decide_eq_true hk
      simp only [applyPut, putDisplaced, hat, bind_some, any_some, hholds, if_true, kdPutAt, replaceAt, hdir, hk]
      rfl
    · have hholds : kdHolds t.keyDir key at' = false := decide_eq_false hk
      simp only [applyPut, putDisplaced, hat, bind_some, any_some, hholds, Bool.false_eq_true, if_false, kdPutAt,
        replaceAt, hdir, if_neg hk, kdPut, map_none]
      cases displaced (t.notePending offset key _).kdCtx _ <;> rfl

lemma Readable.displaced (h : t.Readable) (key : Bytes) : ∃ was, displaced t.kdCtx (t.keyDir.get key) = .ok was := by
  cases hr : t.keyDir.get key with
  | none => exact ⟨none, rfl⟩
  | some r =>
    obtain ⟨record, hread⟩ := h key r hr
    rw [Blind.displaced, hread]
    exact ⟨_, rfl⟩

lemma Readable.putDisplaced (h : t.Readable) (p : WritePlan ε) (i : ℕ) (key value : Bytes) (offset : ℕ) :
    ∃ was, putDisplaced p t i key value offset = .ok was := by
  rw [Transient.putDisplaced]
  split_ifs
  · exact ⟨_, rfl⟩
  · cases hr : t.keyDir.get key with
    | none => exact ⟨none, rfl⟩
    | some r =>
      obtain ⟨record, hread⟩ := h.noted hr offset _
      rw [Blind.displaced, hread]
      exact ⟨_, rfl⟩

lemma Same.putDisplaced (h : Same t u) (p : WritePlan ε) (i : ℕ) (key value : Bytes) (offset : ℕ) :
    putDisplaced p u i key value offset = putDisplaced p t i key value offset := by
  rw [Transient.putDisplaced, Transient.putDisplaced, h.keyDir]
  cases hr : t.keyDir.get key with
  | none => rfl
  | some r => rw [Blind.displaced, Blind.displaced, keyAt_notePending, keyAt_notePending, h.activeFileId, h.nextSeq, h.reads key r hr]

lemma Same.applyPut (h : Same t u) (p : WritePlan ε) (i : ℕ) (key value : Bytes) (offset : ℕ) :
    Except.Agree Same (applyPut p t i key value offset) (applyPut p u i key value offset) := by
  obtain ⟨existing, hdisplaced⟩ := h.readable.putDisplaced p i key value offset
  rw [applyPut_eq, applyPut_eq, h.putDisplaced, hdisplaced]
  exact ⟨_, _, rfl, rfl, (((h.withPut key value offset).release key _).patch h.activeFileId _).advance⟩

def delDisplaced (p : WritePlan ε) (t : Transient ε) (i : ℕ) (key : Bytes) : Except ε (Option KeyDirHit) :=
  if (p.resolvedEntry i).any (fun at' => kdHolds t.keyDir key at') then .ok ((p.resolvedEntry i).map kdHit)
  else displaced t.kdCtx (t.keyDir.get key)

def delDelta (key : Bytes) : FileStatsDeltaWords :=
  { totalAdded := .ofNat (entrySize key.length 0), tombstoneAdded := .ofNat (entrySize key.length 0) }

lemma applyDel_eq : applyDel p t i key = (delDisplaced p t i key).map (fun existing =>
    (({ t with keyDir := t.keyDir.erase key }.release key existing).patch t.activeFileId (delDelta key)).advance) := by
  cases hat : p.resolvedEntry i with
  | none =>
    simp only [applyDel, delDisplaced, hat, bind_none, any_none, Bool.false_eq_true, if_false, kdErase]
    cases displaced t.kdCtx (t.keyDir.get key) <;> rfl
  | some at' =>
    by_cases hk : t.keyDir.get key = some (toBlindRef at')
    · have hholds : kdHolds t.keyDir key at' = true := decide_eq_true hk
      simp only [applyDel, delDisplaced, hat, bind_some, any_some, hholds, if_true, kdEraseAt, eraseAt, hk]
      rfl
    · have hholds : kdHolds t.keyDir key at' = false := decide_eq_false hk
      simp only [applyDel, delDisplaced, hat, bind_some, any_some, hholds, Bool.false_eq_true, if_false, kdEraseAt,
        eraseAt, if_neg hk, kdErase, map_none]
      cases displaced _ _ <;> rfl

lemma get_of_get_erase {d : KeyDirTree} {k : Bytes} {r : BlindRef} (h : (d.erase key).get k = some r) : d.get k = some r := by
  rw [get_erase] at h
  split_ifs at h
  exact h

lemma Same.applyDel (h : Same t u) (p : WritePlan ε) (i : ℕ) (key : Bytes) :
    Except.Agree Same (applyDel p t i key) (applyDel p u i key) := by
  have hdisplaced : delDisplaced p u i key = delDisplaced p t i key := by
    rw [delDisplaced, delDisplaced, h.keyDir, h.displaced]
  obtain ⟨existing, hexisting⟩ : ∃ was, delDisplaced p t i key = .ok was := by
    rw [delDisplaced]
    split_ifs
    · exact ⟨_, rfl⟩
    · exact h.readable.displaced key
  rw [applyDel_eq, applyDel_eq, hdisplaced, h.keyDir, hexisting]
  have hdir : Same { t with keyDir := t.keyDir.erase key } { u with keyDir := t.keyDir.erase key } :=
    h.withDir fun k r hr => get_of_get_erase hr
  exact ⟨_, _, rfl, rfl, ((hdir.release key _).patch h.activeFileId _).advance⟩

lemma Same.applyRangeDel (h : Same t u) (lo hi : Bytes) : Except.Agree Same (t.applyRangeDel lo hi) (u.applyRangeDel lo hi) := by
  rw [Transient.applyRangeDel, Transient.applyRangeDel, h.keyDir]
  have hgone : ∀ e ∈ t.keyDir.range lo hi, t.keyDir.get e.1 = some e.2 :=
    fun e he => SortedMap.get_eq_some.2 (SortedMap.mem_range.1 he).1
  let Released : Transient ε → Transient ε → Prop := fun a b => Same a b ∧ a.keyDir = t.keyDir
  refine Except.Agree.bind (R := Released) (Except.Agree.foldlM (fun a b e he hab => ?_) ⟨h, rfl⟩) fun a b hab => ?_
  · obtain ⟨record, hread⟩ := h.readable e.1 e.2 (hgone e he)
    rw [releaseKey, releaseKey, h.reads e.1 e.2 (hgone e he), hread]
    exact ⟨_, _, rfl, rfl, hab.1.release e.1 _, hab.2⟩
  · let Sub : KeyDirTree → KeyDirTree → Prop := fun d d' => d' = d ∧ ∀ k r, d.get k = some r → t.keyDir.get k = some r
    refine Except.Agree.bind (R := Sub) (Except.Agree.foldlM ?_ ⟨rfl, fun k r hr => hr⟩) fun d d' hd => ?_
    · rintro d d' e he ⟨rfl, hsub⟩
      have hdir := h.withDir hsub
      obtain ⟨was, hwas⟩ := hdir.readable.displaced e.1
      refine ⟨d'.erase e.1, d'.erase e.1, ?_, ?_, rfl, fun k r hr => hsub k r (get_of_get_erase hr)⟩
      · exact congrArg (fun x => (Except.map _ x).map _) hwas
      · exact congrArg (fun x => (Except.map _ x).map _) ((hdir.displaced e.1).trans hwas)
    · obtain ⟨rfl, hsub⟩ := hd
      have hdir : Same { a with keyDir := d' } { b with keyDir := d' } :=
        hab.1.withDir fun k r hr => hab.2 ▸ hsub k r hr
      exact ⟨_, _, rfl, rfl, (hdir.patch h.activeFileId _).advance⟩

lemma Same.applyWrites (h : Same t u) (p : WritePlan ε) (offsets : List ℕ) :
    Except.Agree Same (t.applyWrites p offsets) (u.applyWrites p offsets) := by
  have hmarker : ∀ {t u : Transient ε}, Same t u → Same (if p.multi then t.applyMarker else t) (if p.multi then u.applyMarker else u) := by
    intro t u h
    split_ifs
    · exact (h.patch h.activeFileId _).advance
    · exact h
  refine Except.Agree.bind (R := Same) (Except.Agree.foldlM (fun a b w _ hab => ?_) (hmarker h)) fun a b hab => ?_
  · rw [applyWrite, applyWrite]
    cases w.1.1 with
    | pointPut key value => exact hab.applyPut p _ key value _
    | pointDel key => exact hab.applyDel p _ key
    | rangeDel lo hi => exact hab.applyRangeDel lo hi
  · have hend := hmarker hab
    dsimp only
    rw [h.nextSeq, hend.nextSeq]
    exact ⟨_, _, rfl, rfl, hend.patch h.activeFileId _⟩

end Steps

end Transient

section Quiet

variable {α β : Type} {x : Except (Stop ε) α} {f : α → Except (Stop ε) β} {l : List α} {ctx : KeyDirCtx ε} {d : KeyDirTree}

/-- No read throws. -/
def Quiet (x : Except (Stop ε) α) : Prop := ∀ e, x ≠ .error (.thrown e)

lemma quiet_ok (a : α) : Quiet (.ok a : Except (Stop ε) α) := by
  intro e he
  cases he

lemma quiet_lost (restsOn : ℕ) : Quiet (.error (.lost restsOn) : Except (Stop ε) α) := by
  intro e he
  cases he

lemma Quiet.ite {c : Prop} [Decidable c] {y : Except (Stop ε) α} (hx : Quiet x) (hy : Quiet y) : Quiet (if c then x else y) := by
  split_ifs
  · exact hx
  · exact hy

lemma Quiet.bind (h : Quiet x) (hf : ∀ a, Quiet (f a)) : Quiet (x >>= f) := by
  cases x with
  | ok a => exact hf a
  | error e =>
    intro e' he
    cases he
    exact h e' rfl

lemma Quiet.map (h : Quiet x) (f : α → β) : Quiet (x.map f) := by
  cases x with
  | ok a => exact quiet_ok _
  | error e =>
    intro e' he
    cases he
    exact h e' rfl

lemma Quiet.foldlM {f : β → α → Except (Stop ε) β} (h : ∀ b a, Quiet (f b a)) (b : β) : Quiet (l.foldlM f b) := by
  induction l generalizing b with
  | nil => exact quiet_ok _
  | cons a l ih =>
    exact (h b a).bind ih

lemma Quiet.forM {f : α → Except (Stop ε) Unit} (h : ∀ a ∈ l, Quiet (f a)) : Quiet (l.forM f) := by
  induction l with
  | nil => exact quiet_ok _
  | cons a l ih => exact (h a List.mem_cons_self).bind fun _ => ih fun b hb => h b (List.mem_cons_of_mem a hb)

lemma quiet_reading {y : Except ε α} (h : ∃ a, y = .ok a) : Quiet (reading y) := by
  obtain ⟨a, rfl⟩ := h
  exact quiet_ok _

lemma KeyDirCtx.Covers.entryAt (h : ctx.Covers d) {key : Bytes} {r : BlindRef} (hr : d.get key = some r) :
    ∃ e, ctx.entryAt r = .ok e := by
  obtain ⟨record, hread⟩ := h key r hr
  rw [KeyDirCtx.entryAt, hread]
  exact ⟨_, rfl⟩

lemma KeyDirCtx.Covers.kdGet (h : ctx.Covers d) (key : Bytes) : ∃ e, kdGet d key ctx = .ok e := by
  rw [Blind.kdGet]
  cases hr : d.get key with
  | none => exact ⟨none, rfl⟩
  | some r =>
    obtain ⟨e, he⟩ := h.entryAt hr
    dsimp only
    rw [he]
    exact ⟨_, rfl⟩

end Quiet

def WritePlan.Readable (p : WritePlan ε) : Prop := ∀ s, p.snap = some s → s.kdCtx.Covers s.keyDir

namespace Transient

variable {t : Transient ε} {p : WritePlan ε} {s : Snapshot ε}

lemma Readable.checkGuard (ht : t.Readable) (hp : p.Readable) (key : Bytes) (pre : Precondition) :
    Quiet (t.checkGuard p key pre) := by
  refine (quiet_reading (ht.kdGet key)).bind fun cur => ?_
  cases pre with
  | mustExist => exact (quiet_ok _).ite (quiet_lost _)
  | mustBeAbsent => exact (quiet_lost _).ite (quiet_ok _)
  | none => exact quiet_ok _
  | mustBeUnchanged =>
    cases hs : p.snap with
    | none => exact quiet_ok _
    | some s => exact (quiet_reading ((hp s hs).kdGet key)).bind fun snapEntry => (quiet_ok _).ite (quiet_lost _)

lemma Readable.rangeChanged (ht : t.Readable) (hs : s.kdCtx.Covers s.keyDir) (lo hi : Bytes) : Quiet (t.rangeChanged s lo hi) := by
  refine (Quiet.forM fun e he => ?_).bind fun _ => Quiet.forM fun e _ => ?_
  · refine (quiet_reading (ht.entryAt (get_eq_some.2 (mem_range.1 he).1))).bind fun entry => ?_
    exact (quiet_reading (hs.kdGet e.1)).bind fun snapEntry => (quiet_lost _).ite (quiet_ok _)
  · exact (quiet_reading (ht.kdGet e.1)).bind fun cur => (quiet_lost _).ite (quiet_ok _)

lemma Readable.pointConflict (ht : t.Readable) (hs : s.kdCtx.Covers s.keyDir) (i : ℕ) (key : Bytes) :
    Quiet (t.pointConflict p s i key) := by
  have hentry : ∃ e, p.snapshotEntry s i key = .ok e := by
    rw [WritePlan.snapshotEntry]
    split
    · exact ⟨_, rfl⟩
    · exact hs.kdGet key
  refine (quiet_reading hentry).bind fun snapEntry => (quiet_ok _).ite ((quiet_reading (ht.kdGet key)).bind fun cur => ?_)
  cases snapEntry <;> cases cur
  exacts [quiet_ok _, quiet_lost _, quiet_lost _, (quiet_lost _).ite (quiet_ok _)]

lemma Readable.validatePreconditions (ht : t.Readable) (hp : p.Readable) (deferPuts : Bool) :
    Quiet (t.validatePreconditions p deferPuts) := by
  refine (Quiet.foldlM (fun r (g : Bytes × _) => (ht.checkGuard hp g.1 g.2).map _) 0).bind fun heldOn => ?_
  cases hs : p.snap with
  | none => exact quiet_ok _
  | some s =>
    have hguards : ∀ (r : ℕ) (g : RangeGuard), Quiet (t.checkRangeGuard s g) :=
      fun _ g => (ht.rangeChanged (hp s hs) g.lo g.hi).bind fun _ => quiet_ok _
    refine (Quiet.foldlM hguards heldOn).bind fun heldOn => ?_
    have hwrites : Quiet (p.writes.zipIdx.forM (t.writeConflict p s)) := by
      refine Quiet.forM fun w _ => ?_
      rw [writeConflict]
      split
      · exact ht.pointConflict (hp s hs) _ _
      · exact ht.pointConflict (hp s hs) _ _
      · exact ht.rangeChanged (hp s hs) _ _
    cases deferPuts
    · exact hwrites.bind fun _ => quiet_ok _
    · exact quiet_ok _

end Transient

section Slots

open Transient

variable {t u : Transient ε} {p : WritePlan ε} {runningOffset : ℕ}

inductive SlotOutcome.Same : SlotOutcome ε → SlotOutcome ε → Prop
  | refl (o : SlotOutcome ε) : SlotOutcome.Same o o
  | applied {t u : Transient ε} (h : t.Same u) (entries : List DataEntry) : SlotOutcome.Same (.applied t entries) (.applied u entries)

lemma agree_ok (o : SlotOutcome ε) : Except.Agree (ε := ε) SlotOutcome.Same (.ok o) (.ok o) := ⟨o, o, rfl, rfl, .refl o⟩

lemma twoPasses_same (h : t.Same u) (hp : p.Readable) (offsets : List ℕ) (entries : List DataEntry) :
    Except.Agree SlotOutcome.Same ((twoPasses t p offsets).map (Verdict.outcome entries))
      ((twoPasses u p offsets).map (Verdict.outcome entries)) := by
  rw [twoPasses, twoPasses, h.validatePreconditions]
  cases hv : t.validatePreconditions p false with
  | error e =>
    cases e with
    | thrown e => exact absurd hv (h.readable.validatePreconditions hp _ e)
    | lost restsOn => exact agree_ok _
  | ok restsOn =>
    refine Except.Agree.map (R := fun v w => ∃ a b : Transient ε, a.Same b ∧ v = .applied restsOn a ∧ w = .applied restsOn b)
      ((h.applyWrites p _).map fun a b hab => ⟨a, b, hab, rfl, rfl⟩) ?_
    rintro v w ⟨a, b, hab, rfl, rfl⟩
    exact .applied hab _

lemma executeSlot_same (cfg : Config) (canRotate : Bool) (h : t.Same u) (ht : Building t runningOffset)
    (hu : Building u runningOffset) (hp : p.Readable) :
    Except.Agree SlotOutcome.Same (executeSlot cfg false canRotate t runningOffset p)
      (executeSlot cfg false canRotate u runningOffset p) := by
  by_cases he : p.isEmpty = true
  · rw [executeSlot, executeSlot, if_pos he, if_pos he]
    exact agree_ok _
  rw [executeSlot, executeSlot, if_neg he, if_neg he]
  dsimp only
  rw [h.validatePreconditions, h.prepareWrite]
  cases hv : t.validatePreconditions p (canApplyPutsChecked p && !false) with
  | error e =>
    cases e with
    | thrown e => exact absurd hv (h.readable.validatePreconditions hp _ e)
    | lost restsOn => exact agree_ok _
  | ok restsOn =>
    cases (t.prepareWrite p).getLast? with
    | none => exact agree_ok _
    | some last =>
      dsimp only
      by_cases hseq : maxSequence < last.sequence
      · rw [if_pos hseq, if_pos hseq]
        exact agree_ok _
      by_cases hrot : (!canRotate && decide (cfg.rotationThreshold ≤ runningOffset + p.writeBytes)) = true
      · rw [if_neg hseq, if_neg hseq, if_pos hrot, if_pos hrot]
        exact agree_ok _
      have hright := writes_eq false hu ((h.validatePreconditions p _).trans hv)
        (fun hc => applyPutsChecked_returns hc h.readable_right _) (t.prepareWrite p)
      rw [h.prepareWrite] at hright
      rw [if_neg hseq, if_neg hseq, if_neg hrot, if_neg hrot,
        writes_eq false ht hv (fun hc => applyPutsChecked_returns hc h.readable _), hright]
      exact twoPasses_same h hp _ _

lemma executeSlot_returns (cfg : Config) (canRotate : Bool) (h : Building t runningOffset) (ht : t.Readable) (hp : p.Readable) :
    ∃ o, executeSlot cfg false canRotate t runningOffset p = .ok o := by
  obtain ⟨o, -, ho, -, -⟩ := executeSlot_same cfg _ (Same.refl ht) h h hp
  exact ⟨o, ho⟩

lemma twoPasses_returns (ht : t.Readable) (hp : p.Readable) (offsets : List ℕ) : ∃ v, twoPasses t p offsets = .ok v := by
  obtain ⟨o, -, ho, -, -⟩ := twoPasses_same (Same.refl ht) hp _ []
  obtain ⟨v, hv, -⟩ := Except.of_map_ok ho
  exact ⟨v, hv⟩

/-- Where the records can be read, checking puts during the descents equals checking them first: both end, with the same
verdict on the same ground and the same transient; a slot that neither path refuses ends the same; and a plan given up
leaves the transient as it was, the undo finding every key where the plan put it. -/
theorem checked_puts_as_two_passes (cfg : Config) (canRotate : Bool) (h : Building t runningOffset) (ht : t.Readable)
    (hread : p.Readable) (hp : canApplyPutsChecked p = true) :
    (∃ v, checkedPass t p (offsetsFrom runningOffset (t.prepareWrite p)) = .ok v ∧
      twoPasses t p (offsetsFrom runningOffset (t.prepareWrite p)) = .ok v) ∧
    (∃ o, executeSlot cfg false canRotate t runningOffset p = .ok o ∧
      ((∀ e, o ≠ .refused e) → executeSlot cfg true canRotate t runningOffset p = .ok o)) ∧
    ∃ r, t.applyPutsChecked p (offsetsFrom runningOffset (t.prepareWrite p)) = .ok r ∧
      r ≠ .undoFault ∧ ∀ u, r = .abandoned u → u = t := by
  obtain ⟨v, hv⟩ := twoPasses_returns ht hread _
  obtain ⟨r, hr⟩ := applyPutsChecked_returns hp ht _
  obtain ⟨o, ho⟩ := executeSlot_returns cfg _ h ht hread
  refine ⟨⟨v, (checkedPass_eq h hp ⟨r, hr⟩).trans hv, hv⟩, ⟨o, ho, fun hne => ?_⟩, r, hr, applyPutsChecked_undo hp h hr⟩
  obtain ⟨s, hs, -⟩ := canApplyPutsChecked_spec hp
  obtain ⟨last, hlast⟩ := canApplyPutsChecked_last hp t
  by_cases he : p.isEmpty = true
  · rw [executeSlot, if_pos he] at ho ⊢
    exact ho
  simp only [executeSlot, if_neg he, hlast] at ho ⊢
  have hfull := validatePreconditions_false (t := t) hs
  cases hv : t.validatePreconditions p (canApplyPutsChecked p && !false) with
  | error e =>
    rw [hv] at ho
    rw [hp] at hv ⊢
    have hv : t.validatePreconditions p true = .error e := hv
    rw [hv] at hfull
    simp only [Bool.not_true, Bool.and_false, hfull]
    cases e <;> exact ho
  | ok restsOn =>
    rw [hv] at ho
    -- The checks the descents do not make passed, so only the refusals stand before them.
    by_cases hseq : maxSequence < last.sequence
    · simp only [if_pos hseq] at ho
      cases ho
      exact absurd rfl (hne _)
    by_cases hrot : (!canRotate && decide (cfg.rotationThreshold ≤ runningOffset + p.writeBytes)) = true
    · simp only [if_neg hseq, if_pos hrot] at ho
      cases ho
      exact absurd rfl (hne _)
    simp only [if_neg hseq, if_neg hrot] at ho ⊢
    rw [writes_eq false h hv fun _ => ⟨r, hr⟩] at ho
    rw [← ho]
    cases hv' : t.validatePreconditions p (canApplyPutsChecked p && !true) with
    | error e =>
      rw [Bool.not_true, Bool.and_false] at hv'
      rw [twoPasses, hv']
      cases e <;> rfl
    | ok restsOn => exact writes_eq true h hv' (fun _ => ⟨r, hr⟩) _

def oneRecord : Transient Unit :=
  { keyDir := SortedMap.empty.insert [1] ⟨0, 0⟩
    files := fun _ => .ok ⟨1, 1, [1]⟩
    fileStats := SortedMap.empty.insert 0 { liveBytes := 21, totalBytes := 21, minSequence := 1, maxSequence := 1 }
    nextSeq := 2 }

def putTwice : WritePlan Unit where
  snap := some ⟨oneRecord.keyDir, oneRecord.files⟩
  writes := [.pointPut [1] [7], .pointPut [1] [8]]
  snapEntries := [some ⟨1, 0, 0, 1⟩, some ⟨1, 0, 0, 1⟩]
  guards_snap := nofun
  resolved := .inr ⟨_, rfl, rfl⟩

lemma oneRecord_building : Building oneRecord 21 := ⟨fun _ h => absurd h Bool.false_ne_true⟩

lemma oneRecord_readable : oneRecord.Readable := fun _ _ _ => ⟨_, rfl⟩

theorem putTwice_as_two_passes : canApplyPutsChecked putTwice = true ∧
    ∃ v, checkedPass oneRecord putTwice (offsetsFrom 21 (oneRecord.prepareWrite putTwice)) = .ok v ∧
      twoPasses oneRecord putTwice (offsetsFrom 21 (oneRecord.prepareWrite putTwice)) = .ok v := by
  have hread : putTwice.Readable := by
    rintro s hs
    cases hs
    exact oneRecord_readable
  exact ⟨rfl, (checked_puts_as_two_passes { rotationThreshold := 100 } true oneRecord_building oneRecord_readable hread rfl).1⟩

end Slots

end Bytecask.Blind
