import Bytecask.Blind.Append
import Bytecask.Blind.Exact
import Bytecask.Resume
import Bytecask.Vacuum.Pinned

/-! The states one process publishes and the heads its writers build on them. A head that fails to be published is dropped; what
it appended stays in the active file until `resume` takes it in or cuts it off. -/

namespace Bytecask

open List Blind Contents Option

namespace Disk

def truncate (d : Disk) (p : Path) (entries : List DataEntry) : Disk := d.adjust p (fun _ => { entries, durable := entries.length })

lemma sync_create (d : Disk) : d.create.sync d.nextPath = d.create := by
  rw [Disk.mk.injEq]
  refine ⟨SortedMap.ext fun q => ?_, rfl⟩
  simp only [sync, adjust, create, SortedMap.get_adjust, SortedMap.get_insert, if_true]
  split_ifs <;> rfl

end Disk

def EngineState.flagged (s t : EngineState) : EngineState :=
  { s with durableSeq := t.durableSeq, syncRequestedSeq := t.syncRequestedSeq, degraded := t.degraded }

lemma Mirror.ext {C : Contents} {s t : EngineState} (hs : Mirror C s) (ht : Mirror C t) (hrest : s.rest = t.rest)
    (hknown : ∀ id, (s.fileStats.get id).isSome = (t.fileStats.get id).isSome) : s = t := by
  have hkeys : s.keyDir = t.keyDir := by
    refine SortedMap.ext fun k => Option.ext fun d => ?_
    rw [hs.indexed.keys, ht.indexed.keys]
  refine EngineState.ext_rest hkeys ?_ ?_ hrest
  · refine SortedMap.ext fun id => Option.ext fun st => ?_
    have hdom := hknown id
    constructor
    · intro hst
      rw [hst, isSome_some] at hdom
      obtain ⟨st', hst'⟩ := isSome_iff_exists.1 hdom.symm
      rw [hst', hs.indexed.stats id st hst, ht.indexed.stats id st' hst', hkeys]
    · intro hst
      rw [hst, isSome_some] at hdom
      obtain ⟨st', hst'⟩ := isSome_iff_exists.1 hdom
      rw [hst', ht.indexed.stats id st hst, hs.indexed.stats id st' hst', hkeys]
  · have hnodup : ∀ {ms : List ChangeMarker}, ms.Pairwise (fun a b => a.sinceSequence < b.sinceSequence) → ms.Nodup := by
      intro ms hms
      refine hms.imp ?_
      rintro a b hlt rfl
      exact lt_irrefl _ hlt
    have hperm : s.changeMarkers.Perm t.changeMarkers :=
      (perm_ext_iff_of_nodup (hnodup hs.ordered) (hnodup ht.ordered)).2 fun m => by rw [hs.markers, ht.markers]
    exact hperm.eq_of_pairwise (fun a b _ _ hab hba => absurd hab hba.asymm) hs.ordered ht.ordered

namespace Process

variable {p q : Process}

def resume (p : Process) (appended : List DataEntry) : Except DbError Process :=
  if p.state.fileIdsLeft = 0 then .error .fileIdsExhausted
  else
    let old := p.state.activePath
    let scan := scanCommitted ⟨((p.disk.files.get old).getD {}).entries ++ appended, .zeros⟩
    -- Short of what readers were served there is no state to resume into.
    if scan.committedOffset < ((p.state.fileStats.get p.state.activeFileId).map FileStats.totalBytes).getD 0 then .error .damage
    else
      let cut := p.disk.truncate old (scan.yielded.map Prod.fst)
      let t := rotated cut (p.state.applyResume p.state.activeFileId scan.yielded scan.committedOffset)
      .ok { p with disk := cut.create, state := (t.applySync (t.nextSeq - 1)).applyClearDegraded }

lemma Kept.setFlags (h : p.Kept) (syncRequestedSeq : ℕ) (degraded : Bool) :
    Kept { p with state := { p.state with syncRequestedSeq, degraded } } where
  sound := h.sound.grows (.single (.flag p.state.durableSeq syncRequestedSeq p.state.mode degraded))
  ordered := ⟨h.ordered.apart, h.ordered.latest, h.ordered.boundary, h.ordered.durable, h.ordered.fits⟩
  listed := h.listed

lemma follows_setFlags (p : Process) (durableSeq syncRequestedSeq : ℕ) (degraded : Bool) :
    p.Follows { p with state := { p.state with durableSeq, syncRequestedSeq, degraded } } :=
  ⟨le_rfl, le_rfl, fun _ _ h => .inl h, fun _ f hf => .inl ⟨f, hf, prefix_rfl⟩, fun _ _ _ _ h => .inl h⟩

lemma Kept.write (h : p.Kept) {es : List DataEntry} (hw : Written es) (hu : Units es) (hfresh : ∀ e ∈ es, p.state.nextSeq ≤ e.sequence)
    (hfits : ∀ e ∈ es, e.RecordFits) : (p.next (.write es)).Kept ∧ p.Follows (p.next (.write es)) := by
  by_cases hne : es = []
  · have hsame : p.next (.write es) = p := by
      rw [hne, Process.next, Disk.append_nil]
      rfl
    rw [hsame]
    exact ⟨h, Follows.refl p⟩
  · have hen : p.Enabled (.write es) := ⟨⟨hne, hw, hu, hfresh⟩, hfits⟩
    exact ⟨h.next _ hen, follows_next h.sound _ hen⟩

lemma Kept.resume_eq (h : p.Kept) {us rest : List DataEntry} (hw : Written us) (hu : Units us) (hrest : Unfinished rest)
    (hfresh : ∀ e ∈ us, p.state.nextSeq ≤ e.sequence) (hq : p.resume (us ++ rest) = .ok q) :
    q = { ((p.next (.write us)).next .rotate).next .sync with
      state := (((p.next (.write us)).next .rotate).next .sync).state.applyClearDegraded } := by
  have hst := h.sound.stored
  obtain ⟨f, hf⟩ := hst.activeFile
  have hactive : f.entries = p.disk.contents p.state p.state.activeFileId := by
    rw [Disk.contents, hst.active, bind_some, hf]
    rfl
  have hunits : Units (f.entries ++ us) := by
    rw [hactive]
    exact (hst.mirror.log.units _).append hu
  obtain ⟨hyield, hcommitted⟩ := scanCommitted_spec hunits hrest .zeros
  have hresume := hst.mirror.applyResume_eq h.ordered.latest hw hu hfresh
  rw [← hactive] at hresume
  rw [resume] at hq
  dsimp only at hq
  rw [hf, getD_some, ← append_assoc, hyield, hcommitted, hresume, located_map_fst] at hq
  split_ifs at hq with hids hshort
  cases hq
  have hfields : (p.next (.write us)).state.files = p.state.files ∧ (p.next (.write us)).state.activeFileId = p.state.activeFileId := by
    by_cases hne : us = []
    · rw [hne]
      exact ⟨rfl, rfl⟩
    · have happ : Appendable p.state us := ⟨hne, hw, hu, hfresh⟩
      exact ⟨p.state.applyIngest_files _ happ, (p.state.applyIngest_flags _ happ).2.2.2.2⟩
  have hpath : (p.next (.write us)).state.activePath = p.state.activePath := by
    rw [EngineState.activePath, hfields.1, hfields.2]
    rfl
  have hstate : (p.next (.write us)).state = p.state.applyIngest us (offsetsFrom (bytesOf f.entries) us) := by
    rw [hactive, ← hst.size_eq]
    rfl
  have hcut : p.disk.truncate p.state.activePath (f.entries ++ us) = (p.next (.write us)).disk.shrink p.state.activePath := by
    rw [Disk.mk.injEq]
    refine ⟨SortedMap.ext fun q => ?_, rfl⟩
    show (p.disk.truncate _ _).files.get q = ((p.disk.append _ us).shrink _).files.get q
    simp only [Disk.truncate, Disk.append, Disk.shrink, Disk.get_adjust, if_true, hf]
    split_ifs <;> rfl
  have hrotated : rotated (p.disk.truncate p.state.activePath (f.entries ++ us))
      (p.state.applyIngest us (offsetsFrom (bytesOf f.entries) us)) = ((p.next (.write us)).next .rotate).state := by
    rw [← hstate]
    rfl
  have hdisk : (((p.next (.write us)).next .rotate).next .sync).disk =
      ((p.next (.write us)).disk.shrink p.state.activePath).create := by
    show (((p.next (.write us)).disk.shrink (p.next (.write us)).state.activePath).create).sync
      (rotated (p.next (.write us)).disk (p.next (.write us)).state).activePath = _
    rw [rotated_activePath, hpath]
    exact Disk.sync_create _
  rw [Process.mk.injEq]
  refine ⟨?_, ?_, rfl, rfl⟩
  · rw [hcut, hdisk]
  · rw [hrotated]
    rfl

lemma Kept.resume (h : p.Kept) {appended : List DataEntry} (hw : Written appended) (hfresh : ∀ e ∈ appended, p.state.nextSeq ≤ e.sequence)
    (hfits : ∀ e ∈ appended, e.RecordFits) (hq : p.resume appended = .ok q) : q.Kept ∧ p.Follows q := by
  obtain ⟨us, rest, rfl, hu, hrest⟩ := exists_units_append appended
  have hmem : ∀ e ∈ us, e ∈ us ++ rest := fun e he => mem_append_left rest he
  have hwus : Written us := hw.of_sublist (sublist_append_left us rest)
  obtain ⟨hkept, hfollows⟩ := h.write hwus hu (fun e he => hfresh e (hmem e he)) (fun e he => hfits e (hmem e he))
  have hsynced := (hkept.next .rotate trivial).next .sync trivial
  rw [h.resume_eq hwus hu hrest (fun e he => hfresh e (hmem e he)) hq]
  refine ⟨hsynced.setFlags _ false, hfollows.trans ?_⟩
  exact ((follows_next hkept.sound .rotate trivial).trans (follows_next (hkept.next .rotate trivial).sound .sync trivial)).trans
    (follows_setFlags _ _ _ false)

def Action.atBarrier : Action → Bool
  | .rotate | .sync | .setMode _ | .reserve | .commit => true
  | .write _ | .begin _ _ | .choose | .place | .unlink | .cancel => false

def VacuumDurable (p : Process) : Prop :=
  match p.vacuum with
  | .removing _ _ decidedAt => decidedAt ≤ p.state.durableSeq
  | .reserved v _ _ _ => v.snap.nextSeq - 1 ≤ p.state.durableSeq
  | _ => True

lemma Sound.contents_beside (h : p.Sound) (hb : p.Beside q) : q.disk.contents p.state = p.disk.contents p.state := by
  cases hb with
  | same => rfl
  | phase ph he hr => rfl
  | place v scan he => exact Disk.contents_place h.stored _
  | remove path he => exact p.disk.contents_remove (h.extra_unused he)

lemma next_nextSeq (p : Process) {a : Action} (ha : ∀ es, a ≠ .write es) : (p.next a).state.nextSeq = p.state.nextSeq := by
  have hsettle : ∀ decidedAt, (p.settle decidedAt).state.nextSeq = p.state.nextSeq := by
    intro decidedAt
    rw [settle]
    split_ifs <;> rfl
  cases a with
  | write es => exact absurd rfl (ha es)
  | rotate | sync | setMode => rfl
  | begin | choose | place | unlink | cancel => rw [(p.next_beside rfl).state_eq]
  | reserve =>
    simp only [Process.next]
    split <;> rfl
  | commit =>
    simp only [Process.next]
    split
    · exact hsettle _
    · rw [applyVacuum_rest]
      exact hsettle _
    · rfl

end Process

structure World where
  /-- The published state, and the directory with the published entries in its files. -/
  process : Process
  inodes : Path → List DataEntry
  appended : List DataEntry := []
  head : EngineState
  refused : Bool := false
  torn : Bool := false
  past : List EngineState

namespace World

inductive Action where
  | commit (es : List DataEntry)
  | flush (synced : Bool)
  | flushFails
  | appendFails (es : List DataEntry) (kept : ℕ)
  | act (a : Process.Action)
  | resume

def publish (w : World) (p : Process) : World :=
  { w with process := p, inodes := Process.handles w.inodes p.disk, past := w.past ++ [p.state] }

def degrade (w : World) : World :=
  { w.publish { w.process with state := w.process.state.applyDegrade } with refused := true }

def next (w : World) : Action → World
  | .commit es =>
    { w with
      appended := w.appended ++ es
      head := w.head.applyIngest es (offsetsFrom (w.process.disk.size w.head.activePath + bytesOf w.appended) es) }
  | .flush synced =>
    let disk := w.process.disk.append w.process.state.activePath w.appended
    let durableSeq := if synced then w.head.nextSeq - 1 else w.process.state.durableSeq
    { w.publish { w.process with
        disk := if synced then disk.sync w.process.state.activePath else disk
        state := { w.head with durableSeq } } with
      appended := [] }
  -- The head stays until the next barrier: a batch that holds it may still append.
  | .flushFails => w.degrade
  | .appendFails es kept => { w.degrade with appended := w.appended ++ es.take kept, torn := true }
  | .act a =>
    let v := w.publish (w.process.next a)
    if a.atBarrier then { v with head := v.process.state, torn := w.refused } else v
  | .resume =>
    match w.process.resume w.appended with
    | .ok p => { w.publish p with appended := [], head := p.state, refused := false, torn := false }
    | .error _ => w

def Enabled (w : World) : Action → Prop
  | .commit es => w.torn = false ∧ Appendable w.head es ∧ ∀ e ∈ es, e.RecordFits
  | .flush _ => w.refused = false
  | .flushFails => True
  | .appendFails es _ => w.torn = false ∧ Appendable w.head es ∧ ∀ e ∈ es, e.RecordFits
  | .act a => (∀ es, a ≠ .write es) ∧ (a.atBarrier = true → w.refused = false → w.appended = []) ∧
      (w.refused = true → a ≠ .rotate ∧ a ≠ .sync ∧ (a = .commit → w.process.VacuumDurable))
  | .resume => w.refused = true

def machine : Machine World Action where
  initial w := Process.machine.initial w.process ∧
    w = { process := w.process, inodes := Process.handles (fun _ => []) w.process.disk
          head := w.process.state, past := [w.process.state] }
  Enabled := Enabled
  next := next

def files (w : World) (path : Path) : List DataEntry :=
  w.inodes path ++ if path = w.process.state.activePath then w.appended else []

structure Built (w : World) : Prop where
  units : Units w.appended
  mirror : Mirror ((w.process.disk.contents w.process.state).extend w.process.state.activeFileId w.appended) w.head
  rest : w.head.rest = { w.process.state.rest.flagged w.head with nextSeq := w.head.nextSeq }
  known : ∀ id, (w.head.fileStats.get id).isSome = (w.process.state.fileStats.get id).isSome
  nextSeq : w.head.nextSeq = if w.appended = [] then w.process.state.nextSeq else lastSeq w.appended + 1

structure Sound (w : World) : Prop where
  kept : w.process.Kept
  pinned : Process.Pinned w.past w.inodes w.process
  written : Written w.appended
  fresh : ∀ e ∈ w.appended, w.process.state.nextSeq ≤ e.sequence
  fits : ∀ e ∈ w.appended, e.RecordFits
  torn : w.torn = true → w.refused = true
  files : w.head.files = w.process.state.files
  recorded : ∀ k e, w.head.keyDir.get k = some e → Process.RecordIn w.files w.head k e
  built : w.torn = false → w.Built

section Built

variable {w : World}

lemma Built.activeFileId (h : w.Built) : w.head.activeFileId = w.process.state.activeFileId := by
  have hrest := congrArg EngineState.activeFileId h.rest
  exact hrest

lemma Built.files (h : w.Built) : w.head.files = w.process.state.files := by
  have hrest := congrArg EngineState.files h.rest
  exact hrest

lemma Built.activePath (h : w.Built) : w.head.activePath = w.process.state.activePath := by
  rw [EngineState.activePath, EngineState.activePath, h.activeFileId, h.files]

lemma files_active (hk : w.process.Kept) (hp : Process.Pinned w.past w.inodes w.process) {id : FileId} {path : Path}
    (hpath : w.process.state.files.get id = some path) : w.files path =
      (w.process.disk.contents w.process.state).extend w.process.state.activeFileId w.appended id := by
  obtain ⟨f, hf⟩ := isSome_iff_exists.1 (hk.sound.stored.present id path hpath)
  have hcontents : w.process.disk.contents w.process.state id = w.inodes path := by
    rw [Disk.contents, hpath, bind_some, hf, hp.read path f hf]
    rfl
  have hactive := hk.sound.stored.active
  by_cases hid : id = w.process.state.activeFileId
  · have hsame : path = w.process.state.activePath := Option.some.inj (hpath.symm.trans (hid ▸ hactive))
    rw [World.files, if_pos hsame, ← hid, extend_self, hcontents]
  · have hne : path ≠ w.process.state.activePath := by
      rintro rfl
      exact hid (hk.sound.stored.apart _ _ _ hpath hactive)
    rw [World.files, if_neg hne, List.append_nil, extend_ne _ hid, hcontents]

lemma Built.recorded (h : w.Built) (hk : w.process.Kept) (hp : Process.Pinned w.past w.inodes w.process)
    (hfits : ∀ e ∈ w.appended, e.RecordFits) {k : Bytes} {e : KeyDirEntry} (he : w.head.keyDir.get k = some e) :
    Process.RecordIn w.files w.head k e := by
  obtain ⟨v, hv, hl⟩ := ((h.mirror.indexed.keys k e).1 he).1
  have hmem := mem_of_located hv
  have hfit : (⟨e.sequence, .put, k, v⟩ : DataEntry).RecordFits := by
    rcases mem_extend.1 hmem with hold | ⟨-, hnew⟩
    · exact hk.ordered.fits _ _ hold
    · exact hfits _ hnew
  have hsome : (w.process.state.files.get e.fileId).isSome := by
    rw [hk.sound.stored.known]
    rcases mem_extend.1 hmem with hold | ⟨hactive, -⟩
    · exact hk.sound.stored.mirror.known _ (ne_nil_of_mem hold)
    · rw [hactive]
      exact hk.sound.stored.mirror.active
  obtain ⟨path, hpath⟩ := isSome_iff_exists.1 hsome
  refine ⟨path, v, h.files ▸ hpath, ?_, hl, hfit⟩
  rw [files_active hk hp hpath]
  exact hv

lemma built_published (hk : w.process.Kept) (ha : w.appended = []) (hh : w.head = w.process.state.flagged w.head) : w.Built where
  units := ha ▸ .nil
  mirror := by
    rw [ha, extend_nil, hh]
    exact hk.sound.stored.mirror.congr rfl rfl rfl rfl rfl
  rest := by
    rw [hh]
    rfl
  known id := by
    rw [hh]
    rfl
  nextSeq := by
    rw [if_pos ha, hh]
    rfl

lemma sound_published (hk : w.process.Kept) (hp : Process.Pinned w.past w.inodes w.process) (ha : w.appended = [])
    (hh : w.head = w.process.state.flagged w.head) (ht : w.torn = true → w.refused = true) : w.Sound where
  kept := hk
  pinned := hp
  written := ha ▸ ⟨fun _ h => absurd h not_mem_nil, .nil, fun _ h => absurd h not_mem_nil⟩
  fresh := ha ▸ fun _ h => absurd h not_mem_nil
  fits := ha ▸ fun _ h => absurd h not_mem_nil
  torn := ht
  files := by
    rw [hh]
    rfl
  recorded _ _ he := (built_published hk ha hh).recorded hk hp (ha ▸ fun _ h => absurd h not_mem_nil) he
  built _ := built_published hk ha hh

lemma Built.nextSeq_le (h : w.Built) (hw : Written w.appended) (hfresh : ∀ e ∈ w.appended, w.process.state.nextSeq ≤ e.sequence) :
    w.process.state.nextSeq ≤ w.head.nextSeq := by
  rw [h.nextSeq]
  split_ifs with hnil
  · exact le_rfl
  · obtain ⟨e, he, hseq⟩ := hw.lastSeq_mem hnil
    have := hfresh e he
    omega

end Built

section Steps

variable {w : World}
variable {es : List DataEntry}

section

variable (h : w.Sound)

include h

lemma Sound.commit (ha : w.Enabled (.commit es)) : (w.next (.commit es)).Sound := by
  obtain ⟨htorn, hes, hfits⟩ := ha
  have hb := h.built htorn
  have hactive := hb.activeFileId
  have hsize : w.process.disk.size w.head.activePath + bytesOf w.appended =
      bytesOf ((w.process.disk.contents w.process.state).extend w.process.state.activeFileId w.appended w.head.activeFileId) := by
    rw [hb.activePath, hactive, extend_self, bytesOf_append, h.kept.sound.stored.size_eq]
  have hfits' : ∀ e ∈ w.appended ++ es, e.RecordFits := fun e he => (mem_append.1 he).elim (h.fits e) (hfits e)
  have hlt : ∀ e ∈ w.appended, ∀ f ∈ es, e.sequence < f.sequence := by
    intro e he f hf
    refine (hb.mirror.below w.process.state.activeFileId e ?_).trans_le (hes.fresh f hf)
    rw [extend_self]
    exact mem_append_right _ he
  have hwritten : Written (w.appended ++ es) := h.written.append hes.written hlt
  have hbuilt : (w.next (.commit es)).Built := by
    have hflags := w.head.applyIngest_flags (w.process.disk.size w.head.activePath + bytesOf w.appended) hes
    have hseq := w.head.applyIngest_nextSeq (w.process.disk.size w.head.activePath + bytesOf w.appended) hes
    refine ⟨hb.units.append hes.units, ?_, ?_, fun id => ?_, ?_⟩
    · have hm := hb.mirror.ingest hes.nonempty hes.written hes.units hes.fresh
      rw [← hsize, hactive, extend_extend] at hm
      exact hm
    · have hhead : (w.next (.commit es)).head =
          w.head.applyIngest es (offsetsFrom (w.process.disk.size w.head.activePath + bytesOf w.appended) es) := rfl
      rw [hhead, w.head.applyIngest_rest _ es hes.nonempty hes.fresh, hb.rest, hseq, EngineState.flagged, EngineState.flagged,
        hflags.1, hflags.2.1, hflags.2.2.2.1]
      rfl
    · exact (w.head.applyIngest_isSome _ es id).trans (hb.known id)
    · have hne : w.appended ++ es ≠ [] := append_ne_nil_of_right_ne_nil _ hes.nonempty
      show (w.head.applyIngest es _).nextSeq = if w.appended ++ es = [] then _ else lastSeq (w.appended ++ es) + 1
      obtain ⟨x, xs, hx⟩ := exists_cons_of_ne_nil hes.nonempty
      rw [if_neg hne, hseq, hwritten.lastSeq_eq, hes.written.lastSeq_eq, hx, List.getLast?_append_cons]
  refine ⟨h.kept, h.pinned, hwritten, ?_, hfits', h.torn, hbuilt.files, fun k e he => ?_, fun _ => hbuilt⟩
  · intro e he
    rcases mem_append.1 he with he | he
    · exact h.fresh e he
    · exact (hb.nextSeq_le h.written h.fresh).trans (hes.fresh e he)
  · exact hbuilt.recorded h.kept h.pinned hfits' he

omit h in
lemma Built.head_eq (h : w.Built) (hs : w.Sound) : w.head = (w.process.next (.write w.appended)).state.flagged w.head := by
  have hm : Mirror ((w.process.disk.contents w.process.state).extend w.process.state.activeFileId w.appended)
      (w.process.next (.write w.appended)).state := by
    show Mirror _ (w.process.state.applyIngest w.appended (offsetsFrom (w.process.disk.size w.process.state.activePath) w.appended))
    by_cases hnil : w.appended = []
    · rw [hnil, extend_nil]
      exact hs.kept.sound.stored.mirror
    · rw [hs.kept.sound.stored.size_eq]
      exact hs.kept.sound.stored.mirror.ingest hnil hs.written h.units hs.fresh
  have hrest : (w.process.next (.write w.appended)).state.rest = { w.process.state.rest with nextSeq := w.head.nextSeq } := by
    show (w.process.state.applyIngest w.appended _).rest = _
    rw [h.nextSeq]
    by_cases hnil : w.appended = []
    · rw [if_pos hnil, hnil]
      rfl
    · rw [if_neg hnil]
      exact w.process.state.applyIngest_rest _ w.appended hnil hs.fresh
  have hflagged : ((w.process.next (.write w.appended)).state.flagged w.head).rest =
      (w.process.next (.write w.appended)).state.rest.flagged w.head := rfl
  refine h.mirror.ext (hm.congr rfl rfl rfl rfl rfl) ?_ fun id => ?_
  · rw [h.rest, hflagged, hrest]
    rfl
  · exact (h.known id).trans (w.process.state.applyIngest_isSome _ w.appended id).symm

lemma Sound.flush {synced : Bool} (ha : w.Enabled (.flush synced)) : (w.next (.flush synced)).Sound := by
  have htorn : w.torn = false := by
    cases ht : w.torn with
    | false => rfl
    | true => exact absurd (h.torn ht) (by rw [ha]; exact Bool.false_ne_true)
  have hb := h.built htorn
  have hhead := hb.head_eq h
  obtain ⟨hkept, hfollows⟩ := h.kept.write h.written hb.units h.fresh h.fits
  have hpath : (w.process.next (.write w.appended)).state.activePath = w.process.state.activePath := by
    refine Eq.trans ?_ hb.activePath
    rw [hhead]
    rfl
  have hdurable : (w.process.next (.write w.appended)).state.durableSeq = w.process.state.durableSeq := by
    by_cases hnil : w.appended = []
    · rw [hnil]
      rfl
    · exact (w.process.state.applyIngest_flags _ ⟨hnil, h.written, hb.units, h.fresh⟩).1
  have hnextSeq : (w.process.next (.write w.appended)).state.nextSeq = w.head.nextSeq := by
    rw [hhead]
    rfl
  -- What a flush publishes is the process that wrote what was appended, and synced if the flush did.
  have hprocess : (w.next (.flush synced)).process.Kept ∧ w.process.Follows (w.next (.flush synced)).process := by
    cases synced with
    | false =>
      have hq : (w.next (.flush false)).process = { w.process.next (.write w.appended) with
          state := { (w.process.next (.write w.appended)).state with
            syncRequestedSeq := w.head.syncRequestedSeq, degraded := w.head.degraded } } := by
        rw [Process.mk.injEq]
        refine ⟨rfl, ?_, rfl, rfl⟩
        show ({ w.head with durableSeq := w.process.state.durableSeq } : EngineState) = _
        rw [← hdurable, hhead]
        rfl
      rw [hq]
      exact ⟨hkept.setFlags _ _, hfollows.trans (Process.follows_setFlags _ _ _ _)⟩
    | true =>
      have hq : (w.next (.flush true)).process = { (w.process.next (.write w.appended)).next .sync with
          state := { ((w.process.next (.write w.appended)).next .sync).state with
            syncRequestedSeq := w.head.syncRequestedSeq, degraded := w.head.degraded } } := by
        rw [Process.mk.injEq]
        refine ⟨?_, ?_, rfl, rfl⟩
        · show (w.process.disk.append _ w.appended).sync w.process.state.activePath =
            (w.process.disk.append _ w.appended).sync (w.process.next (.write w.appended)).state.activePath
          rw [hpath]
        · have hlt : w.process.state.durableSeq < w.process.state.nextSeq := h.kept.ordered.durable
          have hle := hb.nextSeq_le h.written h.fresh
          have hmax : max (w.process.next (.write w.appended)).state.durableSeq
              ((w.process.next (.write w.appended)).state.nextSeq - 1) = w.head.nextSeq - 1 := by
            omega
          have hsynced : ((w.process.next (.write w.appended)).next .sync).state =
              { (w.process.next (.write w.appended)).state with durableSeq := w.head.nextSeq - 1 } := by
            rw [← hmax]
            rfl
          show ({ w.head with durableSeq := w.head.nextSeq - 1 } : EngineState) = _
          rw [hsynced, hhead]
          rfl
      have hsync := hkept.next .sync trivial
      rw [hq]
      refine ⟨hsync.setFlags _ _, (hfollows.trans ?_).trans (Process.follows_setFlags _ _ _ _)⟩
      exact Process.follows_next hkept.sound .sync trivial
  refine sound_published hprocess.1 (h.pinned.step hprocess.1 hprocess.2) rfl ?_ h.torn
  rfl

lemma Sound.republish {q : Process} (hq : q.Kept) (hf : w.process.Follows q)
    (hs : q.state = { w.process.state with degraded := q.state.degraded })
    (hc : q.disk.contents w.process.state = w.process.disk.contents w.process.state) {refused : Bool}
    (hr : w.refused = true → refused = true) : Sound { w.publish q with refused } := by
  have hpinned := h.pinned.step hq hf
  have hcontents : q.disk.contents q.state = w.process.disk.contents w.process.state := by
    rw [← hc]
    exact Disk.contents_congr (by rw [hs])
  have hfiles : ∀ id path, w.process.state.files.get id = some path →
      World.files { w.publish q with refused } path = w.files path := by
    intro id path hid
    have hid' : q.state.files.get id = some path := by rw [hs]; exact hid
    rw [files_active h.kept h.pinned hid, files_active (w := { w.publish q with refused }) hq hpinned hid']
    show (q.disk.contents q.state).extend q.state.activeFileId w.appended id = _
    rw [hcontents, hs]
  refine ⟨hq, hpinned, h.written, ?_, h.fits, fun ht => hr (h.torn ht), ?_, ?_, fun ht => ?_⟩
  · show ∀ e ∈ w.appended, q.state.nextSeq ≤ e.sequence
    rw [hs]
    exact h.fresh
  · show w.head.files = q.state.files
    rw [hs]
    exact h.files
  · intro k e he
    refine (h.recorded k e he).mono fun path hpath => ⟨hpath, ?_⟩
    rw [hfiles _ path (h.files ▸ hpath)]
  · have hb := h.built ht
    refine ⟨hb.units, ?_, ?_, ?_, ?_⟩
    · show Mirror ((q.disk.contents q.state).extend q.state.activeFileId _) w.head
      rw [hcontents, hs]
      exact hb.mirror
    · show w.head.rest = { q.state.rest.flagged w.head with nextSeq := w.head.nextSeq }
      rw [hs]
      exact hb.rest
    · show ∀ id, _ = (q.state.fileStats.get id).isSome
      rw [hs]
      exact hb.known
    · show _ = if w.appended = [] then q.state.nextSeq else _
      rw [hs]
      exact hb.nextSeq

lemma Sound.degrade : w.degrade.Sound :=
  h.republish (h.kept.setFlags _ true) (Process.follows_setFlags _ _ _ _) rfl rfl fun _ => rfl

lemma Sound.appendFails {kept : ℕ} (ha : w.Enabled (.appendFails es kept)) : (w.next (.appendFails es kept)).Sound := by
  obtain ⟨htorn, hes, hfits⟩ := ha
  have hd := h.degrade
  have hb := h.built htorn
  have hsub : (es.take kept).Sublist es := take_sublist kept es
  have hlt : ∀ e ∈ w.appended, ∀ f ∈ es.take kept, e.sequence < f.sequence := by
    intro e he f hf
    refine (hb.mirror.below w.process.state.activeFileId e ?_).trans_le (hes.fresh f (hsub.subset hf))
    rw [extend_self]
    exact mem_append_right _ he
  refine ⟨hd.kept, hd.pinned, h.written.append (hes.written.of_sublist hsub) hlt, ?_, ?_, fun _ => rfl, hd.files, ?_, nofun⟩
  · intro e he
    rcases mem_append.1 he with he | he
    · exact h.fresh e he
    · exact (hb.nextSeq_le h.written h.fresh).trans (hes.fresh e (hsub.subset he))
  · intro e he
    exact (mem_append.1 he).elim (h.fits e) (fun he => hfits e (hsub.subset he))
  · intro k e he
    refine (hd.recorded k e he).mono fun path hpath => ⟨hpath, ?_⟩
    refine (prefix_append_right_inj _).2 ?_
    rw [show (w.next _).process = w.degrade.process from rfl]
    by_cases hactive : path = w.degrade.process.state.activePath
    · rw [if_pos hactive, if_pos hactive]
      exact prefix_append _ _
    · rw [if_neg hactive]
      exact nil_prefix

lemma Sound.act {a : Process.Action} (ha : w.Enabled (.act a)) : (w.next (.act a)).Sound := by
  obtain ⟨hwrite, hflushed, hrefused⟩ := ha
  have hen : w.process.Enabled a := by
    cases a with
    | write es => exact absurd rfl (hwrite es)
    | _ => trivial
  have hq := h.kept.next a hen
  have hf := Process.follows_next h.kept.sound a hen
  have hpinned := h.pinned.step hq hf
  have hdef : w.next (.act a) = if a.atBarrier then
      { w.publish (w.process.next a) with head := (w.process.next a).state, torn := w.refused }
    else w.publish (w.process.next a) := rfl
  cases hbar : a.atBarrier with
  | false =>
    have hb : w.process.Beside (w.process.next a) := by
      cases a with
      | write es => exact absurd rfl (hwrite es)
      | rotate | sync | setMode | reserve | commit => cases hbar
      | begin | choose | place | unlink | cancel => exact w.process.next_beside rfl
    rw [hdef, if_neg (by rw [hbar]; exact Bool.false_ne_true)]
    exact h.republish hq hf (by rw [hb.state_eq]) (h.kept.sound.contents_beside hb) id
  | true =>
    rw [hdef, if_pos hbar]
    cases hr : w.refused with
    | false => exact sound_published hq hpinned (hflushed hbar hr) rfl fun ht => nomatch ht
    | true =>
      refine ⟨hq, hpinned, h.written, ?_, h.fits, fun _ => hr, rfl, fun k e he => ?_, nofun⟩
      · show ∀ e ∈ w.appended, (w.process.next a).state.nextSeq ≤ e.sequence
        rw [w.process.next_nextSeq hwrite]
        exact h.fresh
      · exact (hq.recordIn hpinned.read he).mono fun path hpath => ⟨hpath, prefix_append _ _⟩

lemma Sound.resume : (w.next .resume).Sound := by
  rw [next]
  cases hr : w.process.resume w.appended with
  | error e => exact h
  | ok q =>
    obtain ⟨hq, hf⟩ := h.kept.resume h.written h.fresh h.fits hr
    exact sound_published hq (h.pinned.step hq hf) rfl rfl nofun

lemma Sound.next (a : Action) (ha : w.Enabled a) : (w.next a).Sound := by
  cases a with
  | commit es => exact h.commit ha
  | flush synced => exact h.flush ha
  | flushFails => exact h.degrade
  | appendFails es kept => exact h.appendFails ha
  | act a => exact h.act ha
  | resume => exact h.resume

end

lemma sound_of_reachable (h : machine.Reachable w) : w.Sound := by
  refine h.invariant ?_ fun w a hw ha => hw.next a ha
  rintro w ⟨hopened, hw⟩
  have hkept := Process.kept_of_reachable (.start hopened)
  have hidle : w.process.vacuum = .idle := by
    obtain ⟨dir, _, _, _, mode, r, -, -, -, hp⟩ := hopened
    rw [hp]
    rfl
  rw [hw]
  exact sound_published hkept (Process.pinned_initial hkept hidle) rfl rfl nofun

end Steps

section Check

variable {w : World} {S : EngineState} (crc : Crc)
variable {k : Bytes} {e : KeyDirEntry}

def statsWords (fs : FileStats) : PatchMap.FileStatsWords where
  liveBytes := .ofNat fs.liveBytes
  totalBytes := .ofNat fs.totalBytes
  minSequence := .ofNat fs.minSequence
  maxSequence := .ofNat fs.maxSequence
  tombstoneBytes := .ofNat fs.tombstoneBytes
  markerBytes := .ofNat fs.markerBytes
  changeMarkerBytes := .ofNat fs.changeMarkerBytes

def bytes (w : World) (s : EngineState) (id : FileId) : Option Bytes :=
  (s.files.get id).map (fun path => serializeAll crc (w.files path))

def snapshot (w : World) (s : EngineState) : Snapshot ReadError where
  keyDir := Blind.refs s.keyDir
  files := readFiles crc (w.bytes crc s)

def transient (w : World) : Transient ReadError where
  keyDir := Blind.refs w.head.keyDir
  files := readFiles crc (w.bytes crc w.head)
  fileStats := w.head.fileStats.map statsWords
  activeFileId := w.head.activeFileId
  nextSeq := w.head.nextSeq

lemma readFiles_of_recordIn {s : EngineState} (h : Process.RecordIn w.files s k e) :
    readFiles crc (w.bytes crc s) (toBlindRef e) = .ok ⟨e.sequence, e.valueSize, k⟩ := by
  obtain ⟨path, v, hpath, hv, hl, hfit⟩ := h
  obtain ⟨before, after, hsplit, hoffset⟩ := located_split hv
  have hfile : w.bytes crc s e.fileId =
      some (serializeAll crc before ++ ((⟨e.sequence, .put, k, v⟩ : DataEntry).serialize crc ++ serializeAll crc after)) := by
    rw [bytes, hpath, map_some, hsplit, serializeAll_append]
    rfl
  have hoffset' : e.fileOffset = (serializeAll crc before).length := by
    rw [hoffset, serializeAll_length, Nat.zero_add]
  rw [readFiles, toBlindRef]
  simp only [hfile, hoffset']
  rw [lendRecord_serialize hfit rfl, hl]

lemma Sound.recorded_past (h : w.Sound) (hS : S ∈ w.past) (he : S.keyDir.get k = some e) : Process.RecordIn w.files S k e :=
  (h.pinned.recorded S hS k e he).mono fun _ hpath => ⟨hpath, prefix_append _ _⟩

lemma Sound.one_record (h : w.Sound) (hS : S ∈ w.past) {k' : Bytes} {e' : KeyDirEntry} (he : S.keyDir.get k = some e)
    (he' : w.head.keyDir.get k' = some e') (hat : toBlindRef e = toBlindRef e') : k = k' ∧ e = e' := by
  obtain ⟨path, v, hpath, hv, hl, -⟩ := h.recorded_past hS he
  obtain ⟨path', v', hpath', hv', hl', -⟩ := h.recorded k' e' he'
  obtain ⟨hid, hoffset⟩ := Blind.BlindRef.mk.inj hat
  rw [h.files, ← hid] at hpath'
  have hsame := h.pinned.same S hS _ path path' hpath hpath'
  rw [← hsame, ← hoffset] at hv'
  have hentry := located_unique hv hv'
  rw [DataEntry.mk.injEq] at hentry
  obtain ⟨hseq, -, hkey, hvalue⟩ := hentry
  refine ⟨hkey, ?_⟩
  rw [KeyDirEntry.mk.injEq]
  exact ⟨hseq, hoffset, hid, by rw [← hl, ← hl', hvalue]⟩

lemma Sound.between (h : w.Sound) (hS : S ∈ w.past) :
    Between (w.snapshot crc S) (w.transient crc) S.keyDir w.head.keyDir where
  snapshot := rfl
  head := rfl
  reads_snapshot _ _ he := readFiles_of_recordIn crc (h.recorded_past hS he)
  reads_head k e he := readFiles_of_recordIn crc (h.recorded k e he)
  positive_snapshot k e he := by
    obtain ⟨_, _, -, -, -, hfit⟩ := h.recorded_past hS he
    exact hfit.positive
  positive_head k e he := by
    obtain ⟨_, _, -, -, -, hfit⟩ := h.recorded k e he
    exact hfit.positive
  one_record _ _ _ _ he he' hat := h.one_record hS he he' hat

end Check

/-- A plan on a state that was published passes against the head if and only if what it names is as it asks. -/
theorem conflict_check_exact (crc : Crc) {w : World} (hw : machine.Reachable w) {S : EngineState} (hS : S ∈ w.past)
    (p : Blind.WritePlan Blind.ReadError) (hp : p.snap = some (w.snapshot crc S)) :
    Blind.Decides ((w.transient crc).validatePreconditions p false) (p.Unchanged S.keyDir w.head.keyDir) ∧
      ∀ deferPuts, (w.transient crc).validatePreconditions p.unresolved deferPuts = (w.transient crc).validatePreconditions p deferPuts :=
  have hbetween := (sound_of_reachable hw).between crc hS
  ⟨hbetween.validatePreconditions hp, hbetween.validatePreconditions_unresolved hp⟩

section Moved

variable {w : World}

/-- Two keys in a file that is sealed; the first written once more, the second moved by a vacuum; then a write whose flush
fails, and which `resume` takes in. -/
def beforeMove : List Action := [.commit [⟨1, .put, [1], [5]⟩], .commit [⟨2, .put, [2], [6]⟩], .flush true]

def moving : List Action :=
  [.act .rotate, .commit [⟨3, .put, [1], [7]⟩], .flush true, .act (.begin 0 2), .act .choose, .act .place, .act .reserve, .act .commit,
    .act .unlink, .commit [⟨4, .put, [3], [8]⟩], .flushFails, .resume]

def freshWorld : World where
  process := Process.freshProcess
  inodes := Process.handles (fun _ => []) Process.freshProcess.disk
  head := Process.freshProcess.state
  past := [Process.freshProcess.state]

def unmoved : World := beforeMove.foldl World.next freshWorld

def moved : World := moving.foldl World.next unmoved

lemma enabled_put {n : ℕ} {k v : Bytes} (ht : w.torn = false) (hn : w.head.nextSeq ≤ n) (hpos : n ≠ 0) (hlt : n < 256 ^ 8)
    (hk : k.length < 256 ^ 2) (hv : v.length < 256 ^ 4) : w.Enabled (.commit [⟨n, .put, k, v⟩]) :=
  ⟨ht, @Process.enabled_put ⟨{}, w.head, {}, .idle⟩ n k v hn hpos hlt hk hv⟩

lemma enabled_act {a : Process.Action} (hw : ∀ es, a ≠ .write es) (hr : w.refused = false) (ha : w.appended = []) :
    w.Enabled (.act a) :=
  ⟨hw, fun _ _ => ha, fun h => absurd (hr.symm.trans h) Bool.false_ne_true⟩

lemma beforeMove_run : machine.Path freshWorld beforeMove unmoved := by
  refine .cons _ (enabled_put ?_ ?_ ?_ ?_ ?_ ?_) (.cons _ (enabled_put ?_ ?_ ?_ ?_ ?_ ?_) (.cons _ rfl (.nil _)))
  all_goals decide +kernel

lemma moving_run : machine.Path unmoved moving moved := by
  refine .cons _ (enabled_act nofun ?_ ?_) (.cons _ (enabled_put ?_ ?_ ?_ ?_ ?_ ?_) (.cons _ rfl ?_))
  rotate_left 8
  · refine .cons _ (enabled_act nofun ?_ ?_) (.cons _ (enabled_act nofun ?_ ?_) (.cons _ (enabled_act nofun ?_ ?_)
      (.cons _ (enabled_act nofun ?_ ?_) (.cons _ (enabled_act nofun ?_ ?_) (.cons _ (enabled_act nofun ?_ ?_)
      (.cons _ (enabled_put ?_ ?_ ?_ ?_ ?_ ?_) (.cons _ trivial (.cons _ rfl (.nil _)))))))))
    all_goals decide +kernel
  all_goals decide +kernel

def latePut : Blind.WritePlan Blind.ReadError where
  snap := some (moved.snapshot (fun _ => 0) unmoved.process.state)
  writes := [.pointPut [2] [9]]
  guards_snap := nofun
  resolved := .inl rfl

theorem latePut_exact : unmoved.process.state.keyDir.get [2] = some ⟨2, 21, 0, 1⟩ ∧ moved.head.keyDir.get [2] = some ⟨2, 0, 2, 1⟩ ∧
    latePut.Unchanged unmoved.process.state.keyDir moved.head.keyDir := by
  refine ⟨by decide +kernel, by decide +kernel, ?_⟩
  have hreachable := moving_run.reachable (beforeMove_run.reachable (.start ⟨Process.freshProcess_initial, rfl⟩))
  have hS : unmoved.process.state ∈ moved.past := by decide +kernel
  have hexact := (conflict_check_exact (fun _ => 0) hreachable hS latePut rfl).1
  have hok : ((moved.transient (fun _ => 0)).validatePreconditions latePut false).toOption = some 0 := by decide +kernel
  cases hv : (moved.transient (fun _ => 0)).validatePreconditions latePut false with
  | ok n =>
    rw [hv] at hexact
    exact hexact
  | error e =>
    rw [hv] at hok
    cases hok

end Moved

end World

end Bytecask
