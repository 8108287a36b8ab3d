import Bytecask.Heads
import Bytecask.Vacuum.Moves

/-! What a process reads, with a vacuum beside its writes. -/

namespace Bytecask

open List Option

def DataEntry.acts (k : Bytes) (was : Option Bytes) (e : DataEntry) : Option Bytes :=
  if e.Touches k then if e.entryType = .put then some e.value else none else was

/-- The newest entry over `k` is a Put of `v`. -/
def Contents.Shows (C : Contents) (k v : Bytes) : Prop := ∃ id seq, ⟨seq, .put, k, v⟩ ∈ C id ∧ C.Newest k seq

section Shows

variable {C : Contents} {k v : Bytes} {was : Option Bytes} {a : FileId} {e : DataEntry} {es : List DataEntry}

lemma Mirror.shows_iff {s : EngineState} (h : Mirror C s) : (s.keyDir.get k).bind C.valueAt = some v ↔ C.Shows k v := by
  constructor
  · intro hv
    obtain ⟨d, hd, hv⟩ := bind_eq_some_iff.1 hv
    obtain ⟨⟨w, hw, -⟩, hnew⟩ := (h.indexed.keys k d).1 hd
    cases (Contents.valueAt_eq hw).symm.trans hv
    exact ⟨d.fileId, d.sequence, mem_of_located hw, hnew⟩
  · rintro ⟨id, seq, hmem, hnew⟩
    obtain ⟨o, ho⟩ := located_of_mem hmem 0
    rw [(h.indexed.keys k ⟨seq, o, id, v.length⟩).2 ⟨⟨v, ho, rfl⟩, hnew⟩, bind_some, Contents.valueAt_eq ho]

lemma Contents.shows_entry (hnew : ∀ id, ∀ x ∈ C id, x.sequence < e.sequence)
    (h : ∀ v, C.Shows k v ↔ was = some v) (v : Bytes) : (C.extend a [e]).Shows k v ↔ e.acts k was = some v := by
  rw [DataEntry.acts]
  constructor
  · rintro ⟨id, seq, hmem, hn⟩
    rw [newest_extend] at hn
    rcases mem_extend.1 hmem with hold | ⟨-, he⟩
    · rw [if_neg fun ht => absurd (hnew id _ hold) (not_lt.2 (hn.2 ht))]
      exact (h v).1 ⟨id, seq, hold, hn.1⟩
    · cases mem_singleton.1 he
      simp [DataEntry.Touches]
  · split_ifs with ht hput
    · intro hv
      have hk : e.key = k := by simpa [DataEntry.Touches, hput] using ht
      have he : e = ⟨e.sequence, .put, k, v⟩ := by rw [← hk, ← Option.some.inj hv, ← DataEntry.eq_of_put hput]
      exact ⟨a, e.sequence, mem_extend.2 (.inr ⟨rfl, mem_singleton.2 he.symm⟩),
        newest_extend.2 ⟨fun id x hx _ => (hnew id x hx).le, fun _ => le_rfl⟩⟩
    · simp
    · intro hv
      obtain ⟨id, seq, hmem, hn⟩ := (h v).2 hv
      exact ⟨id, seq, mem_extend.2 (.inl hmem), newest_extend.2 ⟨hn, fun h => absurd h ht⟩⟩

lemma Contents.shows_extend (hw : Written es) (hnew : ∀ id, ∀ x ∈ C id, ∀ e ∈ es, x.sequence < e.sequence)
    (h : ∀ v, C.Shows k v ↔ was = some v) (v : Bytes) :
    (C.extend a es).Shows k v ↔ es.foldl (DataEntry.acts k) was = some v := by
  induction es generalizing C was with
  | nil => rw [extend_nil, h, foldl_nil]
  | cons e es ih =>
    obtain ⟨hlt, -⟩ := pairwise_cons.1 hw.ascending
    rw [← singleton_append, ← extend_extend, singleton_append, foldl_cons]
    refine ih hw.tail (fun id x hx y hy => ?_) (shows_entry (fun id x hx => hnew id x hx e mem_cons_self) h)
    rcases mem_extend.1 hx with hx | ⟨-, hx⟩
    · exact hnew id x hx y (mem_cons_of_mem e hy)
    · exact mem_singleton.1 hx ▸ hlt y hy

lemma Keeps.shows_iff {needed : Recovery.NeededTombstones} {old dest : FileId} (h : Keeps needed C old es) (hcov : Covered needed C)
    {n : ℕ} (hb : ∀ id, ∀ e ∈ C id, e.sequence < n) (hd : dest = old ∨ C dest = []) :
    (C.replace old dest es).Shows k v ↔ C.Shows k v := by
  constructor
  · rintro ⟨j, seq, hmem, hn⟩
    obtain ⟨id, hid, -⟩ := h.mem_of_replace hmem
    exact ⟨id, seq, hid, (h.newest_iff hcov hb hd hmem rfl).1 hn⟩
  · rintro ⟨id, seq, hmem, hn⟩
    exact ⟨_, seq, Contents.mem_replace_of_mem hd hmem fun ho => h.live _ (ho ▸ hmem) rfl hn, h.newest_replace hn⟩

end Shows

namespace Process

def read (p : Process) (k : Bytes) : Option Bytes := (p.state.keyDir.get k).bind (p.disk.contents p.state).valueAt

variable {p q : Process} {k : Bytes}

lemma read_of_eq (hk : q.state.keyDir = p.state.keyDir) (hc : q.disk.contents q.state = p.disk.contents p.state) :
    q.read k = p.read k := by
  rw [read, read, hk, hc]

lemma Sound.read_beside (h : p.Sound) (hb : p.Beside q) : q.read k = p.read k :=
  read_of_eq (by rw [hb.state_eq]) (by rw [hb.state_eq, h.contents_beside hb])

lemma Sound.settled (h : p.Sound) (decidedAt : ℕ) : ∃ q, p.settle decidedAt = q ∧ q.Sound ∧ q.vacuum = p.vacuum ∧
    q.disk.contents q.state = p.disk.contents p.state := by
  refine ⟨_, rfl, h.settle _, (p.settle_spec _).1, ?_⟩
  rw [Process.settle]
  split_ifs
  · exact Disk.contents_adjust_entries _ _ _ fun _ => rfl
  · rfl

lemma Sound.shows_commit (h : p.Sound) (v : Bytes) :
    ((p.next .commit).disk.contents (p.next .commit).state).Shows k v ↔ (p.disk.contents p.state).Shows k v := by
  simp only [Process.next]
  split
  · next id retainAfter decidedAt hv =>
    obtain ⟨q, hs, hq, hvq, hc⟩ := h.settled _
    have hphase := hq.phase
    rw [hvq, hv] at hphase
    rw [hs, ← hc, Disk.contents_dropFile]
    exact hphase.2.1.shows_iff hq.covered hq.stored.mirror.below (.inl rfl)
  · next w scan path dest hv =>
    obtain ⟨q, hs, hq, hvq, hc⟩ := h.settled _
    have hphase := hq.phase
    rw [hvq, hv] at hphase
    obtain ⟨hscan, hl, -, hnone⟩ := hphase
    have hne : dest ≠ w.source := by
      rintro rfl
      simpa [hnone] using hscan.source.1
    have hempty : q.disk.contents q.state dest = [] := by simp [Disk.contents, hnone]
    rw [hs, ← hc, Disk.contents_applyVacuum hl hne]
    exact (hscan.needed ▸ hscan.scanned.keeps).shows_iff hq.covered hq.stored.mirror.below (.inr hempty)
  · rfl

lemma Sound.read_next (h : p.Sound) (a : Action) (ha : p.Enabled a) :
    (p.next a).read k = a.written.foldl (DataEntry.acts k) (p.read k) := by
  have hm := (h.next a ha).stored.mirror
  cases a with
  | write es =>
    obtain ⟨hes, -⟩ := ha
    have hc : (p.next (.write es)).disk.contents (p.next (.write es)).state =
        (p.disk.contents p.state).extend p.state.activeFileId es :=
      (Disk.contents_congr (p.state.applyIngest_files _ hes)).trans (h.stored.contents_append es)
    refine Option.ext fun v => hm.shows_iff.trans (hc ▸ Contents.shows_extend hes.written (fun id x hx e he => ?_)
      (fun v => h.stored.mirror.shows_iff.symm) v)
    exact (h.stored.mirror.below id x hx).trans_le (hes.fresh e he)
  | commit => exact Option.ext fun v => (hm.shows_iff.trans (h.shows_commit v)).trans h.stored.mirror.shows_iff.symm
  | rotate => exact read_of_eq rfl h.stored.contents_rotation
  | sync => exact read_of_eq rfl (Disk.contents_adjust_entries _ _ _ fun _ => rfl)
  | setMode mode => rfl
  | reserve =>
    simp only [Process.next]
    split <;> rfl
  | begin | choose | place | unlink | cancel => exact h.read_beside (p.next_beside rfl)

/-- Whatever steps of a vacuum come between the writes, a key reads as the last write over it left it. -/
theorem reads_last_write {actions : List Action} (hp : machine.Reachable p) (hrun : machine.Path p actions q) (k : Bytes) :
    q.read k = (actions.flatMap Action.written).foldl (DataEntry.acts k) (p.read k) := by
  induction hrun with
  | nil => rfl
  | cons a ha _ ih =>
    rw [flatMap_cons, foldl_append, ← (kept_of_reachable hp).sound.read_next a ha]
    exact ih (hp.step a ha)

theorem vacuumed_reads : vacuumed.disk.files.entries.map Prod.fst = [1, 2] ∧ vacuumed.read [2] = some [6] := by
  have h := reads_last_write freshProcess_reachable overwriting_run
  have h' := reads_last_write (overwriting_run.reachable freshProcess_reachable) vacuuming_run [2]
  exact ⟨by decide +kernel, h'.trans (by rw [h]; decide +kernel)⟩

/-- A process some steps later: a file id is known from before, was handed out since or had been reserved, and under one
that both know the earlier records are the first of the later ones. -/
structure Grows (p q : Process) : Prop where
  nextFileId : p.state.nextFileId ≤ q.state.nextFileId
  ids : ∀ id, (q.state.files.get id).isSome →
    (p.state.files.get id).isSome ∨ p.state.nextFileId ≤ id ∨ ∃ v scan path, p.vacuum = .reserved v scan path id
  records : ∀ id, (p.state.files.get id).isSome → (q.state.files.get id).isSome →
    p.disk.contents p.state id <+: q.disk.contents q.state id

lemma Follows.grows (h : p.Follows q) (hp : p.Sound) (hq : q.Sound) : p.Grows q where
  nextFileId := h.nextFileId
  ids id hid := by
    obtain ⟨path, hpath⟩ := isSome_iff_exists.1 hid
    exact (h.files id path hpath).imp_left fun hold => by rw [hold]; rfl
  records id hid hid' := by
    obtain ⟨path, hpath⟩ := isSome_iff_exists.1 hid
    obtain ⟨path', hpath'⟩ := isSome_iff_exists.1 hid'
    obtain rfl : path' = path := by
      rcases h.files id path' hpath' with hold | hnew | ⟨v, scan, path₀, hres⟩
      · exact Option.some.inj (hold.symm.trans hpath)
      · exact absurd (hp.stored.ids id hid) (not_lt.2 hnew)
      · have hphase := hp.phase
        rw [hres] at hphase
        cases hphase.2.2.2.symm.trans hpath
    obtain ⟨f', hf'⟩ := isSome_iff_exists.1 (hq.stored.present id path' hpath')
    rcases h.entries path' f' hf' with ⟨f, hf, hpre⟩ | hnew
    · rw [Disk.contents, Disk.contents, hpath, hpath', bind_some, bind_some, hf, hf']
      exact hpre
    · exact absurd (hp.stored.named path' (hp.stored.present id path' hpath)) (not_lt.2 hnew)

lemma follows_path {actions : List Action} (hp : machine.Reachable p) (hrun : machine.Path p actions q) : p.Follows q := by
  induction hrun with
  | nil => exact .refl _
  | cons a ha _ ih => exact (follows_next (kept_of_reachable hp).sound a ha).trans (ih (hp.step a ha))

/-- No step rewrites a record, and no file id goes to a second file. -/
theorem files_only_grow {actions : List Action} (hp : machine.Reachable p) (hrun : machine.Path p actions q) : p.Grows q :=
  (follows_path hp hrun).grows (kept_of_reachable hp).sound (kept_of_reachable (hrun.reachable hp)).sound

theorem vacuumed_only_grown : overwritten.state.files.entries.map Prod.fst = [0, 1] ∧ overwritten.Grows vacuumed :=
  ⟨by decide +kernel, files_only_grow (overwriting_run.reachable freshProcess_reachable) vacuuming_run⟩

end Process

end Bytecask
