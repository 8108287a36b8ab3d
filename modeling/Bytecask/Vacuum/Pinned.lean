import Bytecask.Vacuum.Followers

/-! What a reader that holds on to a published state can still read. Files are renamed, added and unlinked under it, but a file
id goes to one file only, and what a file held it holds. -/

namespace Bytecask.Process

open List SortedMap

structure Follows (p p' : Process) : Prop where
  nextFileId : p.state.nextFileId ≤ p'.state.nextFileId
  nextPath : p.disk.nextPath ≤ p'.disk.nextPath
  files : ∀ id path, p'.state.files.get id = some path →
    p.state.files.get id = some path ∨ p.state.nextFileId ≤ id ∨ ∃ v scan path', p.vacuum = .reserved v scan path' id
  entries : ∀ path f', p'.disk.files.get path = some f' →
    (∃ f, p.disk.files.get path = some f ∧ f.entries <+: f'.entries) ∨ p.disk.nextPath ≤ path
  reserved : ∀ v scan path dest, p'.vacuum = .reserved v scan path dest →
    p.vacuum = .reserved v scan path dest ∨ p.state.nextFileId ≤ dest

section Follows

variable {p q r : Process}

lemma Follows.refl (p : Process) : p.Follows p where
  nextFileId := le_rfl
  nextPath := le_rfl
  files _ _ h := .inl h
  entries _ f h := .inl ⟨f, h, prefix_rfl⟩
  reserved _ _ _ _ h := .inl h

lemma Follows.trans (h : p.Follows q) (h' : q.Follows r) : p.Follows r where
  nextFileId := h.nextFileId.trans h'.nextFileId
  nextPath := h.nextPath.trans h'.nextPath
  files id path hr := by
    rcases h'.files id path hr with hq | hq | ⟨v, scan, path', hq⟩
    · exact h.files id path hq
    · exact .inr (.inl (h.nextFileId.trans hq))
    · rcases h.reserved v scan path' id hq with hp | hp
      · exact .inr (.inr ⟨v, scan, path', hp⟩)
      · exact .inr (.inl hp)
  entries path f'' hr := by
    rcases h'.entries path f'' hr with ⟨f', hq, hpre⟩ | hq
    · exact (h.entries path f' hq).imp_left fun ⟨f, hp, hpre'⟩ => ⟨f, hp, hpre'.trans hpre⟩
    · exact .inr (h.nextPath.trans hq)
  reserved v scan path dest hr := by
    rcases h'.reserved v scan path dest hr with hq | hq
    · exact h.reserved v scan path dest hq
    · exact .inr (h.nextFileId.trans hq)

lemma Follows.setPhase (h : p.Follows q) {phase : VacuumPhase} (hphase : ∀ v scan path dest, phase ≠ .reserved v scan path dest) :
    p.Follows { q with vacuum := phase } where
  nextFileId := h.nextFileId
  nextPath := h.nextPath
  files := h.files
  entries := h.entries
  reserved v scan path dest hd := absurd hd (hphase v scan path dest)

lemma entries_adjust {d : Disk} {path q : Path} {g : DiskFile → DiskFile} (hg : ∀ f, f.entries <+: (g f).entries) {f' : DiskFile}
    (h : (d.adjust q g).files.get path = some f') : ∃ f, d.files.get path = some f ∧ f.entries <+: f'.entries := by
  rw [Disk.get_adjust] at h
  split_ifs at h with hq
  · obtain ⟨f, hf, rfl⟩ := Option.map_eq_some_iff.1 h
    exact ⟨f, hq ▸ hf, hg f⟩
  · exact ⟨f', h, prefix_rfl⟩

lemma entries_insert {m : SortedMap Path DiskFile} {path q : Path} {g f' : DiskFile} (h : (m.insert q g).get path = some f') :
    (∃ f, m.get path = some f ∧ f.entries <+: f'.entries) ∨ q ≤ path := by
  rw [get_insert] at h
  split_ifs at h with hq
  · exact .inr hq.ge
  · exact .inl ⟨f', h, prefix_rfl⟩

lemma follows_of_grows (h : Stored p.disk p.state) {b : Disk × EngineState} (hg : Grows (p.disk, p.state) b) :
    p.Follows { p with disk := b.1, state := b.2 } := by
  have hfiles := hg.files h
  have hcounters := hg.counters_le h
  refine ⟨hcounters.2.2, ?_, fun id path hid => ?_, fun path f' hf' => ?_, fun _ _ _ _ hd => .inl hd⟩
  · cases hg with
    | rotate => exact Nat.le_succ _
    | append | reserve | sync | shrink | flag => exact le_rfl
  · rcases hfiles with ⟨hsame, -⟩ | ⟨hins, -⟩
    · exact .inl (hsame ▸ hid)
    · change b.2.files.get id = some path at hid
      rw [hins, get_insert] at hid
      split_ifs at hid with hnew
      · exact .inr (.inl hnew.ge)
      · exact .inl hid
  · cases hg with
    | append => exact .inl (entries_adjust (fun _ => prefix_append _ _) hf')
    | rotate => exact entries_insert hf'
    | sync q => exact .inl (entries_adjust (g := fun f => { f with durable := f.entries.length }) (fun _ => prefix_rfl) hf')
    | shrink q =>
      refine .inl (entries_adjust (g := fun f => { f with beyond := [], tail := .zeros, durable := f.entries.length }) ?_ hf')
      exact fun _ => prefix_rfl
    | reserve | flag => exact .inl ⟨f', hf', prefix_rfl⟩

lemma follows_of_growsTo (h : Stored p.disk p.state) {b : Disk × EngineState} (hg : GrowsTo (p.disk, p.state) b) :
    p.Follows { p with disk := b.1, state := b.2 } := by
  induction hg with
  | refl => exact Follows.refl p
  | @tail b c hb hc ih => exact ih.trans (@follows_of_grows { p with disk := b.1, state := b.2 } (h.growsTo hb) _ hc)

lemma follows_settle (h : p.Sound) (decidedAt : ℕ) : p.Follows (p.settle decidedAt) := by
  obtain ⟨hv, hn, hg⟩ := p.settle_spec _
  have hs := follows_of_growsTo h.stored hg
  generalize p.settle decidedAt = q at hv hn hs ⊢
  cases q
  subst hv hn
  exact hs

lemma follows_files {s : EngineState} (hn : s.nextFileId = p.state.nextFileId) (hfiles : ∀ id path, s.files.get id = some path →
      p.state.files.get id = some path ∨ ∃ v scan path', p.vacuum = .reserved v scan path' id) : p.Follows { p with state := s } where
  nextFileId := hn.ge
  nextPath := le_rfl
  files id path hid := (hfiles id path hid).imp_right .inr
  entries _ f hf := .inl ⟨f, hf, prefix_rfl⟩
  reserved _ _ _ _ hd := .inl hd

lemma follows_remove (p : Process) (q : Path) : p.Follows { p with disk := p.disk.remove q } where
  nextFileId := le_rfl
  nextPath := le_rfl
  files _ _ h := .inl h
  entries path f hf := by
    change (p.disk.files.erase q).get path = some f at hf
    rw [get_erase] at hf
    split_ifs at hf
    exact .inl ⟨f, hf, prefix_rfl⟩
  reserved _ _ _ _ h := .inl h

lemma follows_beside {q : Process} (hb : p.Beside q) : p.Follows q := by
  cases hb with
  | same => exact Follows.refl p
  | phase ph he hr => exact (Follows.refl p).setPhase hr
  | place v scan he =>
    refine Follows.setPhase (q := { p with disk := p.disk.place _ }) ?_ nofun
    exact ⟨le_rfl, Nat.le_succ _, fun _ _ h => .inl h, fun _ _ hf => entries_insert hf, fun _ _ _ _ h => .inl h⟩
  | remove path he => exact (follows_remove p path).setPhase nofun

lemma follows_next (h : p.Sound) (a : Action) (ha : p.Enabled a) : p.Follows (p.next a) := by
  cases a with
  | write es => exact follows_of_growsTo h.stored (.single (.append ha.1))
  | rotate => exact follows_of_growsTo h.stored (Db.growsTo_rotated _ _)
  | sync => exact follows_of_growsTo h.stored (growsTo_sync _ _)
  | setMode mode =>
    exact follows_of_grows h.stored (.flag _ _ mode _)
  | reserve =>
    simp only [Process.next]
    split
    · refine ⟨Nat.le_succ _, le_rfl, fun _ _ h => .inl h, fun _ f hf => .inl ⟨f, hf, prefix_rfl⟩, ?_⟩
      intro v scan path dest hd
      cases hd
      exact .inr le_rfl
    · exact Follows.refl p
  | commit =>
    simp only [Process.next]
    split
    · next id retainAfter decidedAt hv =>
      have hdrop : (p.settle decidedAt).Follows { p.settle decidedAt with state := (p.settle decidedAt).state.dropFile id } := by
        refine follows_files rfl fun j path hj => ?_
        change ((p.settle decidedAt).state.files.erase id).get j = some path at hj
        rw [get_erase] at hj
        split_ifs at hj
        exact .inl hj
      exact (follows_settle h _).trans (hdrop.setPhase (by simp))
    · next v scan path dest hv =>
      have hphase : (p.settle (v.snap.nextSeq - 1)).vacuum = p.vacuum := (p.settle_spec _).1
      have hmoved : (p.settle (v.snap.nextSeq - 1)).Follows { p.settle (v.snap.nextSeq - 1) with
          state := (p.settle (v.snap.nextSeq - 1)).state.applyVacuum v.source scan path dest } := by
        refine follows_files ?_ fun j path' hj => ?_
        · rw [applyVacuum_rest]
        · rw [applyVacuum_files] at hj
          split_ifs at hj with hold hdest
          · exact .inr ⟨v, scan, path, by rw [hphase, hv, hdest]⟩
          · exact .inl hj
      exact (follows_settle h _).trans (hmoved.setPhase (by simp))
    · exact Follows.refl p
  | begin | choose | place | unlink | cancel => exact follows_beside (p.next_beside rfl)

end Follows

def handles (before : Path → List DataEntry) (d : Disk) : Path → List DataEntry :=
  fun path => ((d.files.get path).map DiskFile.entries).getD (before path)

def RecordIn (files : Path → List DataEntry) (s : EngineState) (k : Bytes) (e : KeyDirEntry) : Prop :=
  ∃ path v, s.files.get e.fileId = some path ∧ (⟨e.sequence, .put, k, v⟩, e.fileOffset) ∈ located 0 (files path) ∧
    v.length = e.valueSize ∧ (⟨e.sequence, .put, k, v⟩ : DataEntry).RecordFits

structure Pinned (past : List EngineState) (inodes : Path → List DataEntry) (p : Process) : Prop where
  read : ∀ path f, p.disk.files.get path = some f → inodes path = f.entries
  ids : ∀ s ∈ past, ∀ id, (s.files.get id).isSome → id < p.state.nextFileId
  paths : ∀ s ∈ past, ∀ id path, s.files.get id = some path → path < p.disk.nextPath
  same : ∀ s ∈ past, ∀ id path path', s.files.get id = some path → p.state.files.get id = some path' → path = path'
  unreserved : ∀ s ∈ past, ∀ v scan path dest, p.vacuum = .reserved v scan path dest → s.files.get dest = none
  recorded : ∀ s ∈ past, ∀ k e, s.keyDir.get k = some e → RecordIn inodes s k e

section Pinned

variable {past : List EngineState} {inodes : Path → List DataEntry} {p q : Process}

lemma handles_of_get {d : Disk} {path : Path} {f : DiskFile} (h : d.files.get path = some f) : handles inodes d path = f.entries := by
  rw [handles, h]
  rfl

lemma RecordIn.mono {files files' : Path → List DataEntry} {s t : EngineState} {k : Bytes} {e : KeyDirEntry} (h : RecordIn files s k e)
    (hs : ∀ path, s.files.get e.fileId = some path → t.files.get e.fileId = some path ∧ files path <+: files' path) :
    RecordIn files' t k e := by
  obtain ⟨path, v, hpath, hv, hl, hfit⟩ := h
  obtain ⟨ht, rest, hpre⟩ := hs path hpath
  refine ⟨path, v, ht, ?_, hl, hfit⟩
  rw [← hpre, located_append]
  exact mem_append_left _ hv

lemma Kept.recordIn (h : p.Kept) (hread : ∀ path f, p.disk.files.get path = some f → inodes path = f.entries) {k : Bytes}
    {e : KeyDirEntry} (he : p.state.keyDir.get k = some e) : RecordIn inodes p.state k e := by
  obtain ⟨v, hv, hl⟩ := ((h.sound.stored.mirror.indexed.keys k e).1 he).1
  have hmem := mem_of_located hv
  have hfits := h.ordered.fits _ _ hmem
  cases hpath : p.state.files.get e.fileId with
  | none =>
    rw [Disk.contents, hpath] at hmem
    cases hmem
  | some path =>
    obtain ⟨f, hf⟩ := Option.isSome_iff_exists.1 (h.sound.stored.present _ _ hpath)
    have hcontents : p.disk.contents p.state e.fileId = inodes path := by
      rw [Disk.contents, hpath, Option.bind_some, hf, hread path f hf]
      rfl
    exact ⟨path, v, hpath, hcontents ▸ hv, hl, hfits⟩

lemma pinned_initial (h : p.Kept) (hv : p.vacuum = .idle) : Pinned [p.state] (handles (fun _ => []) p.disk) p where
  read path f hf := handles_of_get hf
  ids s hs id hid := by
    rw [mem_singleton.1 hs] at hid
    exact h.sound.stored.ids id hid
  paths s hs id path hpath := by
    rw [mem_singleton.1 hs] at hpath
    exact h.sound.stored.named path (h.sound.stored.present id path hpath)
  same s hs id path path' hpath hpath' := by
    rw [mem_singleton.1 hs] at hpath
    exact Option.some.inj (hpath.symm.trans hpath')
  unreserved s hs v scan path dest hd := by
    rw [hv] at hd
    cases hd
  recorded s hs k e he := by
    rw [mem_singleton.1 hs] at he ⊢
    exact h.recordIn (fun path f hf => handles_of_get hf) he

lemma Pinned.step (h : Pinned past inodes p) (hq : q.Kept) (hf : p.Follows q) :
    Pinned (past ++ [q.state]) (handles inodes q.disk) q := by
  have hread : ∀ path f, q.disk.files.get path = some f → handles inodes q.disk path = f.entries :=
    fun path f hf => handles_of_get hf
  have hgrown : ∀ path, path < p.disk.nextPath → inodes path <+: handles inodes q.disk path := by
    intro path hlt
    cases hfile : q.disk.files.get path with
    | none =>
      rw [handles, hfile]
      exact prefix_rfl
    | some f' =>
      rw [hread path f' hfile]
      rcases hf.entries path f' hfile with ⟨f, hold, hpre⟩ | hnew
      · rw [h.read path f hold]
        exact hpre
      · exact absurd hlt (not_lt.2 hnew)
  refine ⟨hread, ?_, ?_, ?_, ?_, ?_⟩
  · intro s hs id hid
    rcases mem_append.1 hs with hs | hs
    · exact (h.ids s hs id hid).trans_le hf.nextFileId
    · rw [mem_singleton.1 hs] at hid
      exact hq.sound.stored.ids id hid
  · intro s hs id path hpath
    rcases mem_append.1 hs with hs | hs
    · exact (h.paths s hs id path hpath).trans_le hf.nextPath
    · rw [mem_singleton.1 hs] at hpath
      exact hq.sound.stored.named path (hq.sound.stored.present id path hpath)
  · intro s hs id path path' hpath hpath'
    rcases mem_append.1 hs with hs | hs
    · rcases hf.files id path' hpath' with hold | hnew | ⟨v, scan, path₀, hres⟩
      · exact h.same s hs id path path' hpath hold
      · have hlt := h.ids s hs id (by rw [hpath]; rfl)
        exact absurd hlt (not_lt.2 hnew)
      · rw [h.unreserved s hs v scan path₀ id hres] at hpath
        cases hpath
    · rw [mem_singleton.1 hs] at hpath
      exact Option.some.inj (hpath.symm.trans hpath')
  · intro s hs v scan path dest hd
    rcases mem_append.1 hs with hs | hs
    · rcases hf.reserved v scan path dest hd with hold | hnew
      · exact h.unreserved s hs v scan path dest hold
      · cases hnone : s.files.get dest with
        | none => rfl
        | some path' => exact absurd (h.ids s hs dest (by rw [hnone]; rfl)) (not_lt.2 hnew)
    · have hphase := hq.sound.phase
      rw [hd] at hphase
      rw [mem_singleton.1 hs]
      exact hphase.2.2.2
  · intro s hs k e he
    rcases mem_append.1 hs with hs | hs
    · exact (h.recorded s hs k e he).mono fun path hpath => ⟨hpath, hgrown path (h.paths s hs _ path hpath)⟩
    · rw [mem_singleton.1 hs] at he ⊢
      exact hq.recordIn hread he

end Pinned

end Bytecask.Process
