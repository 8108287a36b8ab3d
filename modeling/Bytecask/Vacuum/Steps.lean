import Bytecask.RecordFormat
import Bytecask.Runs
import Bytecask.Vacuum.Mirrored
import Bytecask.Vacuum.Process

/-! Every step of a process with a vacuum keeps the directory, the state and the vacuum in agreement. -/

namespace Bytecask

open SortedMap Contents Disk EngineState Option Recovery VacuumScan

variable {s : EngineState} {id : FileId}

def EngineState.Sealed (s : EngineState) (id : FileId) : Prop := (s.files.get id).isSome ∧ id ≠ s.activeFileId

structure Lone (d : Disk) (s : EngineState) (path : Path) (es : List DataEntry) : Prop where
  file : ∃ f, d.files.get path = some f ∧ f.entries = es ∧ f.beyond = [] ∧ f.tail = .zeros
  unused : ∀ id, s.files.get id ≠ some path

structure Counted (C : Contents) (id : FileId) (st : FileStats) : Prop where
  dead : st.liveBytes = 0 → ∀ p ∈ C id, p.entryType = .put → ¬ C.Newest p.key p.sequence
  tombstones : st.tombstoneBytes = tombstoneBytesOf (C id)
  changeMarkers : st.changeMarkerBytes = changeMarkerBytesOf (C id)
  last : st.maxSequence = lastSeq (C id)

def Candidates.Sound (left : Candidates) (d : Disk) (s : EngineState) : Prop :=
  ∀ id ∈ left.ids, s.Sealed id ∧ Counted (d.contents s) id ((left.stats.get id).getD {})

structure Scanning (needed : NeededTombstones) (d : Disk) (s : EngineState) (v : VacuumScan)
    (scan : VacuumScanResult) : Prop where
  needed : v.needed = needed
  source : s.Sealed v.source
  path : v.snap.files.get v.source = s.files.get v.source
  scanned : Scanned (d.contents s) v scan

def VacuumPhase.Sound (needed : NeededTombstones) (d : Disk) (s : EngineState) : VacuumPhase → Prop
  | .idle => True
  | .choosing left => left.Sound d s
  | .removing id retainAfter _ =>
    s.Sealed id ∧ Keeps needed (d.contents s) id [] ∧ ∀ e ∈ d.contents s id, e.sequence ≤ retainAfter
  | .staged v scan left => Scanning needed d s v scan ∧ left.Sound d s
  | .placed v scan path => Scanning needed d s v scan ∧ Lone d s path scan.copied
  | .reserved v scan path dest => Scanning needed d s v scan ∧ Lone d s path scan.copied ∧ dest < s.nextFileId ∧
      s.files.get dest = none
  | .unlinking path => path < d.nextPath ∧ ∀ id, s.files.get id ≠ some path

section Grows

variable {a b : Disk × EngineState} {needed : NeededTombstones}
variable {id : FileId} {path : Path} {es : List DataEntry} {v : VacuumScan}

section

variable (h : Stored a.1 a.2)

include h

lemma Grows.files (hg : Grows a b) : (b.2.files = a.2.files ∧ b.2.activeFileId = a.2.activeFileId) ∨
    (b.2.files = a.2.files.insert a.2.nextFileId a.1.nextPath ∧ b.2.activeFileId = a.2.nextFileId) := by
  cases hg with
  | @append d s es hes => exact .inl ⟨s.applyIngest_files _ hes, (s.applyIngest_flags _ hes).2.2.2.2⟩
  | rotate => exact .inr ⟨h.files_rotated, rfl⟩
  | reserve | sync | shrink | flag => exact .inl ⟨rfl, rfl⟩

lemma Grows.sealed (hg : Grows a b) (hid : a.2.Sealed id) : b.2.Sealed id ∧ b.2.files.get id = a.2.files.get id := by
  rcases hg.files h with ⟨hf, ha⟩ | ⟨hf, ha⟩
  · exact ⟨⟨hf ▸ hid.1, ha ▸ hid.2⟩, by rw [hf]⟩
  · have hne : id ≠ a.2.nextFileId := (h.ids id hid.1).ne
    have hget := get_insert_ne a.2.files a.1.nextPath hne
    exact ⟨⟨by rw [hf, hget]; exact hid.1, ha ▸ hne⟩, by rw [hf, hget]⟩

lemma Grows.unused (hg : Grows a b) (hp : path < a.1.nextPath)
    (hu : ∀ id, a.2.files.get id ≠ some path) (id : FileId) : b.2.files.get id ≠ some path := by
  rcases hg.files h with ⟨hf, -⟩ | ⟨hf, -⟩
  · rw [hf]
    exact hu id
  · rw [hf, get_insert]
    split_ifs
    · intro heq
      exact hp.ne (Option.some.inj heq).symm
    · exact hu id

omit h in
lemma Grows.nextPath_le (hg : Grows a b) : a.1.nextPath ≤ b.1.nextPath := by
  cases hg with
  | rotate => exact Nat.le_succ _
  | _ => exact le_rfl

lemma Grows.contents_sealed (hg : Grows a b) (hid : a.2.Sealed id) : b.1.contents b.2 id = a.1.contents a.2 id := by
  rcases hg.contents_eq h with ⟨heq, -⟩ | ⟨es, -, heq, -⟩
  · rw [heq]
  · rw [heq, extend_ne _ hid.2]

lemma Grows.newest (hg : Grows a b) {k : Bytes} {seq : ℕ} (hn : (b.1.contents b.2).Newest k seq) :
    (a.1.contents a.2).Newest k seq := by
  rcases hg.contents_eq h with ⟨heq, -⟩ | ⟨es, -, heq, -⟩
  · rwa [heq] at hn
  · rw [heq] at hn
    exact fun id e he => hn id e (mem_extend.2 (.inl he))

omit h in
lemma Disk.file_adjust {d : Disk} {p q : Path} {f : DiskFile → DiskFile}
    (hf : ∀ x, x.entries = es ∧ x.beyond = [] ∧ x.tail = .zeros →
      (f x).entries = es ∧ (f x).beyond = [] ∧ (f x).tail = .zeros)
    (h : ∃ x, d.files.get p = some x ∧ x.entries = es ∧ x.beyond = [] ∧ x.tail = .zeros) :
    ∃ x, (d.adjust q f).files.get p = some x ∧ x.entries = es ∧ x.beyond = [] ∧ x.tail = .zeros := by
  obtain ⟨x, hx, hes⟩ := h
  rw [get_adjust]
  split_ifs with hp
  · exact ⟨f x, by rw [← hp, hx]; rfl, hf x hes⟩
  · exact ⟨x, hx, hes⟩

lemma Lone.grows (hg : Grows a b) (hl : Lone a.1 a.2 path es) : Lone b.1 b.2 path es := by
  obtain ⟨f, hf, hes⟩ := hl.file
  have hnamed := h.named path (by rw [hf]; rfl)
  refine ⟨?_, hg.unused h hnamed hl.unused⟩
  cases hg with
  | @append d s xs hxs =>
    have hne : path ≠ s.activePath := fun heq => hl.unused _ (heq ▸ h.active)
    refine ⟨f, ?_, hes⟩
    simp only [Disk.append, get_adjust, if_neg hne]
    exact hf
  | rotate =>
    refine ⟨f, ?_, hes⟩
    rw [Disk.create, get_insert_ne _ _ hnamed.ne]
    exact hf
  | reserve | flag => exact hl.file
  | sync p => exact file_adjust (fun x hx => hx) hl.file
  | shrink p => exact file_adjust (fun x hx => ⟨hx.1, rfl, rfl⟩) hl.file

lemma Candidates.Sound.grows (hg : Grows a b) {left : Candidates} (hl : left.Sound a.1 a.2) : left.Sound b.1 b.2 := by
  intro id hid
  obtain ⟨hs, hc⟩ := hl id hid
  have hcontents := hg.contents_sealed h hs
  refine ⟨(hg.sealed h hs).1, fun hzero => ?_, ?_, ?_, ?_⟩
  · rw [hcontents]
    exact fun p hp hput hn => hc.dead hzero p hp hput (hg.newest h hn)
  · rw [hcontents]
    exact hc.tombstones
  · rw [hcontents]
    exact hc.changeMarkers
  · rw [hcontents]
    exact hc.last

lemma Keeps.grows (hg : Grows a b) (hn : needed.horizon < a.2.nextSeq)
    (hid : a.2.Sealed id) {kept : List DataEntry} (hk : Keeps needed (a.1.contents a.2) id kept) :
    Keeps needed (b.1.contents b.2) id kept := by
  rcases hg.contents_eq h with ⟨heq, -⟩ | ⟨es, hes, heq, -⟩
  · rw [heq]
    exact hk
  · rw [heq]
    exact hk.extend hid.2 fun e he => hn.trans_le (hes.fresh e he)

lemma Covered.grows (hg : Grows a b) (hn : needed.horizon < a.2.nextSeq)
    (hc : Covered needed (a.1.contents a.2)) : Covered needed (b.1.contents b.2) := by
  have hbelow := (h.grows hg).mirror.below
  rcases hg.contents_eq h with ⟨heq, -⟩ | ⟨es, hes, heq, -⟩
  · rw [heq]
    exact hc
  · rw [heq] at hbelow ⊢
    exact hc.extend hbelow fun e he => hn.trans_le (hes.fresh e he)

lemma Relocates.grows (hg : Grows a b) {scan : VacuumScanResult}
    (hid : a.2.Sealed v.source) (hr : Relocates (a.1.contents a.2) v scan) : Relocates (b.1.contents b.2) v scan := by
  have hcontents := hg.contents_sealed h hid
  refine ⟨?_, ?_⟩
  · rw [hcontents]
    exact hr.copied
  · rw [hcontents]
    exact fun e o he hput hnew => hr.live e o he hput (hg.newest h hnew)

lemma Scanning.grows (hg : Grows a b) (hn : needed.horizon < a.2.nextSeq)
    {scan : VacuumScanResult} (hs : Scanning needed a.1 a.2 v scan) : Scanning needed b.1 b.2 v scan := by
  obtain ⟨hsealed, hfile⟩ := hg.sealed h hs.source
  exact ⟨hs.needed, hsealed, hs.path.trans hfile.symm, hs.scanned.toRelocates.grows h hg hs.source,
    Keeps.grows h hg (hs.needed ▸ hn) hs.source hs.scanned.keeps⟩

lemma VacuumPhase.Sound.grows (hg : Grows a b) (hn : needed.horizon < a.2.nextSeq)
    {phase : VacuumPhase} (hp : phase.Sound needed a.1 a.2) : phase.Sound needed b.1 b.2 := by
  cases phase with
  | idle => trivial
  | choosing left => exact Candidates.Sound.grows h hg hp
  | removing id retainAfter decidedAt =>
    obtain ⟨hs, hk, hle⟩ := hp
    exact ⟨(hg.sealed h hs).1, Keeps.grows h hg hn hs hk, by rw [hg.contents_sealed h hs]; exact hle⟩
  | staged v scan left => exact ⟨Scanning.grows h hg hn hp.1, Candidates.Sound.grows h hg hp.2⟩
  | placed v scan path => exact ⟨Scanning.grows h hg hn hp.1, Lone.grows h hg hp.2⟩
  | reserved v scan path dest =>
    obtain ⟨hs, hl, hlt, hnone⟩ := hp
    refine ⟨Scanning.grows h hg hn hs, Lone.grows h hg hl, hlt.trans_le (hg.counters_le h).2.2, ?_⟩
    rcases hg.files h with ⟨hf, -⟩ | ⟨hf, -⟩
    · rw [hf, hnone]
    · rw [hf, get_insert_ne _ _ hlt.ne, hnone]
  | unlinking path => exact ⟨hp.1.trans_le (hg.nextPath_le), hg.unused h hp.1 hp.2⟩

end

end Grows

section Other

variable {d : Disk} {s : EngineState} {path : Path}

lemma Disk.contents_place (h : Stored d s) (es : List DataEntry) : (d.place es).contents s = d.contents s := by
  funext id
  rw [contents, contents]
  cases hid : s.files.get id with
  | none => rfl
  | some q =>
    have hne : q ≠ d.nextPath := (h.named q (h.present id q hid)).ne
    simp only [bind_some, place, get_insert_ne _ _ hne]

lemma Disk.contents_remove (d : Disk) (hu : ∀ id, s.files.get id ≠ some path) :
    (d.remove path).contents s = d.contents s := by
  funext id
  rw [contents, contents]
  cases hid : s.files.get id with
  | none => rfl
  | some q =>
    have hne : q ≠ path := fun heq => hu id (heq ▸ hid)
    simp only [bind_some, remove, get_erase, if_neg hne]

lemma Stored.place (h : Stored d s) (es : List DataEntry) : Stored (d.place es) s where
  mirror := (contents_place h es).symm ▸ h.mirror
  apart := h.apart
  present id p hp := by
    have hsome := h.present id p hp
    rw [Disk.place, get_insert_ne _ _ (h.named p hsome).ne]
    exact hsome
  known := h.known
  ids := h.ids
  named p hp := by
    rw [Disk.place, get_insert] at hp
    split_ifs at hp with hq
    · exact hq ▸ Nat.lt_succ_self _
    · exact Nat.lt_succ_of_lt (h.named p hp)
  clean id p f hp hf := by
    rw [Disk.place, get_insert_ne _ _ (h.named p (h.present id p hp)).ne] at hf
    exact h.clean id p f hp hf

lemma Stored.remove (h : Stored d s) (hu : ∀ id, s.files.get id ≠ some path) : Stored (d.remove path) s := by
  have hget : ∀ {id p}, s.files.get id = some p → (d.remove path).files.get p = d.files.get p := by
    intro id p hp
    have hne : p ≠ path := fun heq => hu id (heq ▸ hp)
    rw [Disk.remove, get_erase, if_neg hne]
  refine ⟨(d.contents_remove hu).symm ▸ h.mirror, h.apart, ?_, h.known, h.ids, ?_, ?_⟩
  · intro id p hp
    rw [hget hp]
    exact h.present id p hp
  · intro p hp
    rw [Disk.remove, get_erase] at hp
    split_ifs at hp
    · cases hp
    · exact h.named p hp
  · intro id p f hp hf
    rw [hget hp] at hf
    exact h.clean id p f hp hf

lemma lone_place (h : Stored d s) (es : List DataEntry) : Lone (d.place es) s d.nextPath es where
  file := ⟨{ entries := es, durable := es.length }, by rw [Disk.place, get_insert_self], rfl, rfl, rfl⟩
  unused id hid := (h.named d.nextPath (h.present id _ hid)).ne rfl

end Other

section Commit

variable {d : Disk} {s : EngineState} {needed : NeededTombstones}
variable {old dest : FileId} {path : Path}

lemma Disk.contents_dropFile (d : Disk) (s : EngineState) (old : FileId) :
    d.contents (s.dropFile old) = (d.contents s).replace old old [] := by
  funext id
  rw [contents, dropFile]
  by_cases hid : id = old
  · rw [hid, replace_dest, get_erase_self]
    rfl
  · rw [replace_of_ne _ _ hid hid, get_erase, if_neg hid]
    rfl

lemma Stored.dropFile (h : Stored d s) (hc : Covered needed (d.contents s)) (hs : s.Sealed old)
    (hk : Keeps needed (d.contents s) old []) : Stored d (s.dropFile old) := by
  have hget : ∀ {id p}, (s.dropFile old).files.get id = some p → s.files.get id = some p := by
    intro id p hp
    rw [EngineState.dropFile, get_erase] at hp
    split_ifs at hp
    exact hp
  refine ⟨?_, ?_, ?_, ?_, ?_, h.named, ?_⟩
  · rw [Disk.contents_dropFile]
    exact h.mirror.dropFile hk hc hs.2.symm
  · exact fun id id' p hp hp' => h.apart id id' p (hget hp) (hget hp')
  · exact fun id p hp => h.present id p (hget hp)
  · intro id
    simp only [EngineState.dropFile, get_erase]
    split_ifs
    · rfl
    · exact h.known id
  · intro id hid
    obtain ⟨p, hp⟩ := Option.isSome_iff_exists.1 hid
    exact h.ids id (by rw [hget hp]; rfl)
  · exact fun id p f hp hf => h.clean id p f (hget hp) hf

lemma applyVacuum_files (s : EngineState) (old : FileId) (scan : VacuumScanResult) (path : Path) (dest j : FileId) :
    (s.applyVacuum old scan path dest).files.get j =
      if j = old then none else if j = dest then some path else s.files.get j := by
  rw [applyVacuum_rest]
  simp only [get_erase, get_insert]

lemma Disk.contents_applyVacuum {scan : VacuumScanResult} (hl : Lone d s path scan.copied)
    (hne : dest ≠ old) : d.contents (s.applyVacuum old scan path dest) = (d.contents s).replace old dest scan.copied := by
  funext id
  rw [contents, applyVacuum_files]
  by_cases ho : id = old
  · rw [if_pos ho, Contents.replace, ho, Function.update_of_ne hne.symm, Function.update_self]
    rfl
  · rw [if_neg ho]
    by_cases hd : id = dest
    · obtain ⟨f, hf, hes, -⟩ := hl.file
      rw [if_pos hd, hd, replace_dest, bind_some, hf, ← hes]
      rfl
    · rw [if_neg hd, replace_of_ne _ _ hd ho]
      rfl

lemma Stored.vacuum (h : Stored d s) {v : VacuumScan} {scan : VacuumScanResult} (hs : Scanning needed d s v scan)
    (hc : Covered needed (d.contents s)) (hl : Lone d s path scan.copied)
    (hlt : dest < s.nextFileId) (hnone : s.files.get dest = none) : Stored d (s.applyVacuum v.source scan path dest) := by
  have hne : dest ≠ v.source := by
    rintro rfl
    have := hs.source.1
    rw [hnone] at this
    cases this
  have hempty : d.contents s dest = [] := by
    rw [Disk.contents, hnone]
    rfl
  have hget : ∀ {id p}, (s.applyVacuum v.source scan path dest).files.get id = some p →
      (id = dest ∧ p = path) ∨ (id ≠ dest ∧ s.files.get id = some p) := by
    intro id p hp
    rw [applyVacuum_files] at hp
    split_ifs at hp with ho hd
    · exact .inl ⟨hd, (Option.some.inj hp).symm⟩
    · exact .inr ⟨hd, hp⟩
  have hrest := applyVacuum_rest s v.source scan path dest
  refine ⟨?_, ?_, ?_, ?_, ?_, h.named, ?_⟩
  · rw [contents_applyVacuum hl hne]
    exact h.mirror.vacuum hs.scanned (hs.needed ▸ hc) hempty hne hs.source.2.symm path
  · intro id id' p hp hp'
    rcases hget hp with ⟨hid, hp₁⟩ | ⟨-, hp₁⟩ <;> rcases hget hp' with ⟨hid', hp₂⟩ | ⟨-, hp₂⟩
    · exact hid.trans hid'.symm
    · exact absurd (hp₁ ▸ hp₂) (hl.unused id')
    · exact absurd (hp₂ ▸ hp₁) (hl.unused id)
    · exact h.apart id id' p hp₁ hp₂
  · intro id p hp
    rcases hget hp with ⟨-, rfl⟩ | ⟨-, hp⟩
    · obtain ⟨f, hf, -⟩ := hl.file
      rw [hf]
      rfl
    · exact h.present id p hp
  · intro id
    rw [applyVacuum_files, applyVacuum_stats]
    by_cases hd : id = dest
    · rw [if_neg (hd ▸ hne), if_pos hd, if_pos hd]
      rfl
    · rw [if_neg hd, if_neg hd]
      split_ifs
      · rfl
      · exact h.known id
  · intro id hid
    obtain ⟨p, hp⟩ := isSome_iff_exists.1 hid
    have hnext : (s.applyVacuum v.source scan path dest).nextFileId = s.nextFileId := by rw [hrest]
    rw [hnext]
    rcases hget hp with ⟨rfl, -⟩ | ⟨-, hp⟩
    · exact hlt
    · exact h.ids id (by rw [hp]; rfl)
  · intro id p f hp hf
    rcases hget hp with ⟨-, rfl⟩ | ⟨-, hp⟩
    · obtain ⟨g, hg, -, hclean⟩ := hl.file
      rw [hg] at hf
      obtain rfl := Option.some.inj hf
      exact hclean
    · exact h.clean id p f hp hf

end Commit

section Counters

variable {C : Contents} {s : EngineState}
variable {id : FileId} {st : FileStats} {es : List DataEntry} {e : DataEntry}

lemma Mirror.liveBytesIn_pos (h : Mirror C s) {p : DataEntry} (hp : p ∈ C id) (hput : p.entryType = .put)
    (hn : C.Newest p.key p.sequence) : 0 < liveBytesIn s.keyDir id := by
  obtain ⟨o, ho⟩ := located_of_mem hp 0
  have hw : C.Winning p.key ⟨p.sequence, o, id, p.value.length⟩ :=
    ⟨⟨p.value, by rw [← DataEntry.eq_of_put hput]; exact ho, rfl⟩, hn⟩
  have hget := (h.indexed.keys p.key _).2 hw
  rw [liveBytesIn_erase, hget]
  have := entrySize_pos p.key.length p.value.length
  simp only [map_some, if_true, getD_some]
  omega

lemma Mirror.counted (h : Mirror C s) (hst : s.fileStats.get id = some st) : Counted C id st := by
  have heq := h.indexed.stats id st hst
  rw [fileStatsOf, countsOf, foldl_count] at heq
  subst heq
  refine ⟨fun hzero p hp hput hn => ?_, by simp, by simp, ?_⟩
  · have := h.liveBytesIn_pos hp hput hn
    simp only at hzero
    omega
  · exact (h.log.written id).lastSeq_eq.symm

lemma ne_of_tombstoneBytesOf (h : tombstoneBytesOf es = 0) (he : e ∈ es) : e.entryType ≠ .delete ∧ e.entryType ≠ .rangeDel := by
  have hzero : tombstoneSize e.entryType e.key.length e.value.length = 0 :=
    Nat.le_zero.1 (h ▸ List.le_sum_of_mem (List.mem_map_of_mem he))
  have hpos := entrySize_pos e.key.length e.value.length
  constructor <;> intro ht <;> simp [ht, tombstoneSize] at hzero <;> omega

lemma ne_of_changeMarkerBytesOf (h : changeMarkerBytesOf es = 0) (he : e ∈ es) : e.entryType ≠ .changeMarker := by
  have hzero : changeMarkerSize e.entryType = 0 := Nat.le_zero.1 (h ▸ List.le_sum_of_mem (List.mem_map_of_mem he))
  intro ht
  simp [ht, changeMarkerSize, entrySize, headerSize] at hzero

lemma Counted.keeps_nil (h : Counted C id st) {retainAfter : ℕ}
    (hr : st.removable retainAfter = true) (needed : NeededTombstones) :
    Keeps needed C id [] ∧ ∀ e ∈ C id, e.sequence ≤ retainAfter := by
  simp only [FileStats.removable, Bool.and_eq_true, decide_eq_true_eq] at hr
  obtain ⟨⟨⟨hlive, htomb⟩, hmarker⟩, hmax⟩ := hr
  refine ⟨⟨List.nil_sublist _, .nil, ?_, ?_, by simp, ?_⟩, ?_⟩
  · exact fun p hp hput hn => absurd hn (h.dead hlive p hp hput)
  · intro t ht hput k htouch
    obtain ⟨hd, hr⟩ := ne_of_tombstoneBytesOf (h.tombstones ▸ htomb) ht
    cases htype : t.entryType <;> simp_all [DataEntry.Touches]
  · exact fun m hm ht => absurd ht (ne_of_changeMarkerBytesOf (h.changeMarkers ▸ hmarker) hm)
  · exact fun e he => (le_lastSeq he).trans (h.last ▸ hmax)

end Counters

lemma eq_nil_of_bytesOf {es : List DataEntry} (h : bytesOf es = 0) : es = [] := by
  cases es with
  | nil => rfl
  | cons e es =>
    have := e.size_pos
    rw [bytesOf_cons] at h
    omega

lemma Stored.scan {d : Disk} (h : Stored d s) (hid : s.Sealed id) (needed : NeededTombstones) (retainAfter : ℕ) :
    ∃ scan, vacuumScanAndCopy ⟨s, id, needed, retainAfter⟩ none ((d.files.get (s.pathOf id)).getD {}).data = .ok scan ∧
      Relocates (d.contents s) ⟨s, id, needed, retainAfter⟩ scan := by
  obtain ⟨path, hpath⟩ := isSome_iff_exists.1 hid.1
  obtain ⟨f, hf, hc, hdata⟩ := h.contents_eq hpath
  have hlog := h.mirror.log
  refine ⟨emitAll ⟨s, id, needed, retainAfter⟩ (located 0 (d.contents s id)), ?_, ?_, fun e o he hput hn => ?_⟩
  · have hscan := scanCommitted_units (hlog.units id)
    rw [hc, ← hdata] at hscan
    rw [pathOf_eq hpath, hf, getD_some, vacuumScanAndCopy, hscan, hc]
    rfl
  · have hmem : ∀ q ∈ located 0 (d.contents s id), q.1 ∈ d.contents s id := fun q hq => mem_of_located (o := q.2) hq
    exact emitAll_copied ⟨s, id, needed, retainAfter⟩
      (fun q hq => (hlog.written id).shaped _ (hmem q hq)) (fun q hq => (hlog.written id).positive _ (hmem q hq))
      ((located_pairwise 0 _).imp fun hlt => hlt.ne)
  · exact (isLive_iff (v := ⟨s, id, needed, retainAfter⟩) h.mirror he hput).2 hn

lemma EngineState.mem_candidatesBy {quotient : ℕ → ℕ → ℚ} {threshold : ℚ} {retainAfter : ℕ} :
    id ∈ s.candidatesBy quotient threshold retainAfter ↔ ∃ fs, s.fileStats.get id = some fs ∧ id ≠ s.activeFileId ∧
      fs.totalBytes ≠ 0 ∧ fs.minSequence ≤ retainAfter ∧ 0 < quotient fs.reclaimableBytes fs.totalBytes ∧
      threshold < quotient fs.reclaimableBytes fs.totalBytes := by
  simp only [candidatesBy, List.mem_map, List.mem_insertionSort, List.mem_filter, Bool.and_eq_true, decide_eq_true_eq,
    Prod.exists, get_eq_some]
  constructor
  · rintro ⟨_, _, ⟨_, fs, ⟨hmem, ⟨⟨⟨⟨ha, ht⟩, hm⟩, h0⟩, hth⟩⟩, heq⟩, rfl⟩
    obtain ⟨-, rfl⟩ := Prod.mk.inj heq
    exact ⟨fs, hmem, ha, ht, hm, h0, hth⟩
  · rintro ⟨fs, hmem, ha, ht, hm, h0, hth⟩
    exact ⟨_, _, ⟨id, fs, ⟨hmem, ⟨⟨⟨⟨ha, ht⟩, hm⟩, h0⟩, hth⟩⟩, rfl⟩, rfl⟩

namespace Process

structure Sound (p : Process) : Prop where
  stored : Stored p.disk p.state
  covered : Covered p.needed (p.disk.contents p.state)
  horizon : p.needed.horizon < p.state.nextSeq
  phase : p.vacuum.Sound p.needed p.disk p.state

variable {p : Process}
variable {id : FileId} {d : Disk} {s : EngineState} {needed : NeededTombstones} {v : VacuumScan} {path : Path}

lemma Sound.grows (h : p.Sound) {b : Disk × EngineState} (hg : GrowsTo (p.disk, p.state) b) :
    Sound { p with disk := b.1, state := b.2 } := by
  induction hg with
  | refl => exact h
  | tail hab hbc ih =>
    exact ⟨ih.stored.grows hbc, Covered.grows ih.stored hbc ih.horizon ih.covered,
      ih.horizon.trans_le (hbc.counters_le ih.stored).1, ih.phase.grows ih.stored hbc ih.horizon⟩

lemma growsTo_sync (d : Disk) (s : EngineState) : GrowsTo (d, s) (d.sync s.activePath, s.applySync (s.nextSeq - 1)) :=
  (Relation.ReflTransGen.single (.sync _)).tail (.flag _ s.syncRequestedSeq s.mode s.degraded)

lemma settle_spec (p : Process) (decidedAt : ℕ) : (p.settle decidedAt).vacuum = p.vacuum ∧
    (p.settle decidedAt).needed = p.needed ∧
    GrowsTo (p.disk, p.state) ((p.settle decidedAt).disk, (p.settle decidedAt).state) := by
  rw [settle]
  split_ifs
  · exact ⟨rfl, rfl, growsTo_sync _ _⟩
  · exact ⟨rfl, rfl, .refl⟩

section

variable (h : p.Sound)

include h

lemma Sound.settle (decidedAt : ℕ) : (p.settle decidedAt).Sound := by
  obtain ⟨hv, hn, hg⟩ := p.settle_spec _
  have hs := h.grows hg
  generalize p.settle decidedAt = q at hv hn hs ⊢
  cases q
  subst hv hn
  exact hs

lemma Sound.begin (threshold : ℚ) (retainAfter : ℕ) :
    Candidates.Sound ⟨retainAfter, p.state.fileStats, p.state.vacuumCandidates threshold retainAfter⟩ p.disk p.state := by
  intro id hid
  rw [vacuumCandidates, mem_candidatesBy] at hid
  obtain ⟨st, hst, hne, -⟩ := hid
  refine ⟨⟨?_, hne⟩, ?_⟩
  · rw [h.stored.known, hst]
    rfl
  · have hget : (p.state.fileStats.get id).getD {} = st := by
      rw [hst]
      rfl
    simp only [hget]
    exact h.stored.mirror.counted hst

lemma Sound.scan (hid : p.state.Sealed id) (retainAfter : ℕ) :
    ∃ scan, vacuumScanAndCopy ⟨p.state, id, p.needed, retainAfter⟩ none
        ((p.disk.files.get (p.state.pathOf id)).getD {}).data = .ok scan ∧
      Scanning p.needed p.disk p.state ⟨p.state, id, p.needed, retainAfter⟩ scan := by
  obtain ⟨scan, hscan, hr⟩ := h.stored.scan hid _ _
  refine ⟨scan, hscan, rfl, hid, rfl, hr, ?_⟩
  rw [hr.copied.copied]
  exact copies_keeps (v := ⟨p.state, id, p.needed, retainAfter⟩) h.stored.mirror

omit h in
lemma Candidates.Sound.tail {retainAfter : ℕ} {stats : SortedMap FileId FileStats} {ids : List FileId}
    (h : Candidates.Sound ⟨retainAfter, stats, id :: ids⟩ d s) :
    Candidates.Sound ⟨retainAfter, stats, ids⟩ d s := fun j hj => h j (List.mem_cons_of_mem id hj)

lemma Sound.choose : (p.next .choose).Sound := by
  have hphase := h.phase
  simp only [next]
  split
  · exact { h with phase := trivial }
  · next retainAfter stats id ids hv =>
    rw [hv] at hphase
    obtain ⟨hs, hc⟩ := hphase id List.mem_cons_self
    split_ifs with hr
    · obtain ⟨hk, hle⟩ := hc.keeps_nil hr _
      exact { h with phase := ⟨hs, hk, hle⟩ }
    · obtain ⟨scan, hscan, hok⟩ := h.scan hs _
      rw [hscan]
      exact { h with phase := ⟨hok, Candidates.Sound.tail hphase⟩ }
  · exact h

omit h in
lemma Scanning.congr {d' : Disk} {scan : VacuumScanResult} (hs : Scanning needed d s v scan) (hc : d'.contents s = d.contents s) :
    Scanning needed d' s v scan := ⟨hs.needed, hs.source, hs.path, hc ▸ hs.scanned⟩

omit h in
lemma Scanning.keeps_nil {scan : VacuumScanResult} (hs : Scanning needed d s v scan) (hz : scan.totalBytes = 0) :
    Keeps needed (d.contents s) v.source [] ∧ ∀ e ∈ d.contents s v.source, e.sequence ≤ v.retainAfter := by
  have hnil : scan.copied = [] := eq_nil_of_bytesOf (hs.scanned.copied.total ▸ hz)
  have hk := hs.scanned.keeps
  rw [hnil, hs.needed] at hk
  refine ⟨hk, fun e he => ?_⟩
  by_contra hlt
  obtain ⟨o, ho⟩ := located_of_mem he 0
  have hmem : e ∈ v.copies (located 0 (d.contents s v.source)) := by
    refine List.mem_map.2 ⟨(e, o), List.mem_filter.2 ⟨ho, ?_⟩, rfl⟩
    cases htype : e.entryType <;> simp [VacuumScan.keeps, htype, not_le.1 hlt]
  rw [← hs.scanned.copied.copied, hnil] at hmem
  cases hmem

lemma Sound.place : (p.next .place).Sound := by
  have hphase := h.phase
  simp only [next]
  split
  · next v scan left hv =>
    rw [hv] at hphase
    obtain ⟨hs, hl⟩ := hphase
    split_ifs with hchurn hzero
    · exact { h with phase := hl }
    · obtain ⟨hk, hle⟩ := Scanning.keeps_nil hs hzero
      exact { h with phase := ⟨hs.source, hk, hle⟩ }
    · have hcontents := contents_place h.stored scan.copied
      exact ⟨h.stored.place _, hcontents.symm ▸ h.covered, h.horizon,
        Scanning.congr hs hcontents, lone_place h.stored _⟩
  · exact h

lemma Sound.reserve : (p.next .reserve).Sound := by
  have hphase := h.phase
  simp only [next]
  split
  · next v scan path hv =>
    rw [hv] at hphase
    have hg : Grows (p.disk, p.state) (p.disk, p.state.reserveFileId.1) := .reserve
    refine ⟨h.stored.grows hg, h.covered, h.horizon, hphase.1.grows h.stored hg h.horizon,
      hphase.2.grows h.stored hg, Nat.lt_succ_self _, h.stored.next_unused⟩
  · exact h

lemma Sound.remove (hu : ∀ id, p.state.files.get id ≠ some path) : Sound { p with disk := p.disk.remove path, vacuum := .idle } :=
  ⟨h.stored.remove hu, (p.disk.contents_remove hu).symm ▸ h.covered, h.horizon, trivial⟩

lemma Sound.commit : (p.next .commit).Sound := by
  simp only [next]
  split
  · next id retainAfter decidedAt hv =>
    have hq := h.settle decidedAt
    obtain ⟨hvq, hnq, -⟩ := p.settle_spec _
    generalize p.settle decidedAt = q at hq hvq hnq
    obtain ⟨hs, hk, -⟩ : VacuumPhase.Sound q.needed q.disk q.state (.removing id retainAfter decidedAt) := hv ▸ hvq ▸ hq.phase
    obtain ⟨path, hpath⟩ := isSome_iff_exists.1 hs.1
    refine ⟨hq.stored.dropFile hq.covered hs hk, ?_, hq.horizon, ?_, ?_⟩
    · rw [contents_dropFile]
      exact hq.covered.replace hk hq.stored.mirror.below (.inl rfl)
    · rw [pathOf_eq hpath]
      exact hq.stored.named path (hq.stored.present id path hpath)
    · intro id' hid'
      rw [pathOf_eq hpath, dropFile, get_erase] at hid'
      split_ifs at hid' with hne
      exact hne (hq.stored.apart id' id path hid' hpath)
  · next v scan path dest hv =>
    have hq := h.settle (v.snap.nextSeq - 1)
    obtain ⟨hvq, hnq, -⟩ := p.settle_spec _
    generalize p.settle (v.snap.nextSeq - 1) = q at hq hvq hnq
    obtain ⟨hs, hl, hlt, hnone⟩ : VacuumPhase.Sound q.needed q.disk q.state (.reserved v scan path dest) := hv ▸ hvq ▸ hq.phase
    obtain ⟨old, hold⟩ := isSome_iff_exists.1 hs.source.1
    have hpath : v.snap.pathOf v.source = old := pathOf_eq (hs.path.trans hold)
    have hne : dest ≠ v.source := by
      rintro rfl
      rw [hnone] at hold
      cases hold
    have hempty : q.disk.contents q.state dest = [] := by
      rw [Disk.contents, hnone]
      rfl
    refine ⟨hq.stored.vacuum hs hq.covered hl hlt hnone, ?_, ?_, ?_, ?_⟩
    · rw [contents_applyVacuum hl hne]
      exact hq.covered.replace (hs.needed ▸ hs.scanned.keeps) hq.stored.mirror.below (.inr hempty)
    · rw [applyVacuum_rest]
      exact hq.horizon
    · rw [hpath]
      exact hq.stored.named old (hq.stored.present _ old hold)
    · intro id hid
      rw [hpath, applyVacuum_files] at hid
      split_ifs at hid with ho hd
      · exact hl.unused _ (Option.some.inj hid ▸ hold)
      · exact ho (hq.stored.apart id _ old hid hold)
  · exact h

lemma Sound.extra_unused (he : p.vacuum.extra = some path) (id : FileId) : p.state.files.get id ≠ some path := by
  have hphase := h.phase
  cases hv : p.vacuum with
  | idle | choosing | removing | staged =>
    rw [hv] at he
    cases he
  | placed v scan q =>
    rw [hv] at he hphase
    exact Option.some.inj he ▸ hphase.2.unused id
  | reserved v scan q dest =>
    rw [hv] at he hphase
    exact Option.some.inj he ▸ hphase.2.1.unused id
  | unlinking q =>
    rw [hv] at he hphase
    exact Option.some.inj he ▸ hphase.2 id

end

def Enabled (p : Process) : Action → Prop
  | .write es => Appendable p.state es ∧ ∀ e ∈ es, e.RecordFits
  | _ => True

theorem Sound.next (h : p.Sound) (a : Action) (ha : p.Enabled a) : (p.next a).Sound := by
  cases a with
  | write es => exact h.grows (.single (.append ha.1))
  | rotate => exact h.grows (Db.growsTo_rotated _ _)
  | sync => exact h.grows (growsTo_sync _ _)
  | setMode mode => exact h.grows (.single (.flag _ _ mode _))
  | begin threshold retainAfter =>
    simp only [Process.next]
    split
    · exact { h with phase := h.begin _ _ }
    · exact h
  | choose => exact h.choose
  | place => exact h.place
  | reserve => exact h.reserve
  | commit => exact h.commit
  | unlink =>
    simp only [Process.next]
    split
    · next hv => exact h.remove (h.extra_unused (by rw [hv]; rfl))
    · exact h
  | cancel =>
    simp only [Process.next]
    split
    · exact { h with phase := trivial }
    · exact { h with phase := trivial }
    · exact { h with phase := trivial }
    · next hv => exact h.remove (h.extra_unused (by rw [hv]; rfl))
    · next hv => exact h.remove (h.extra_unused (by rw [hv]; rfl))
    · exact h
    · exact h

end Process

end Bytecask
