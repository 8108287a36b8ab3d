import Bytecask.Db
import Bytecask.Mirror

/-! How the directory and a state that mirrors it grow together. Each operation is a run of these
steps, so what they keep every operation keeps. -/

namespace Bytecask

open SortedMap Disk EngineState Option

variable {C : Contents} {s : EngineState} {id : FileId}

def Disk.contents (d : Disk) (s : EngineState) : Contents :=
  fun id => (((s.files.get id).bind d.files.get).map DiskFile.entries).getD []

def Disk.Holds (d : Disk) (s : EngineState) (e : DataEntry) : Prop := ∃ id, e ∈ d.contents s id

structure Stored (d : Disk) (s : EngineState) : Prop where
  mirror : Mirror (d.contents s) s
  apart : ∀ id id' p, s.files.get id = some p → s.files.get id' = some p → id = id'
  present : ∀ id p, s.files.get id = some p → (d.files.get p).isSome
  known : ∀ id, (s.files.get id).isSome = (s.fileStats.get id).isSome
  ids : ∀ id, (s.files.get id).isSome → id < s.nextFileId
  named : ∀ p, (d.files.get p).isSome → p < d.nextPath
  clean : ∀ id p f, s.files.get id = some p → d.files.get p = some f → f.beyond = [] ∧ f.tail = .zeros

structure Appendable (s : EngineState) (es : List DataEntry) : Prop where
  nonempty : es ≠ []
  written : Written es
  units : Units es
  fresh : ∀ e ∈ es, s.nextSeq ≤ e.sequence

def rotated (d : Disk) (t : EngineState) : EngineState :=
  t.reserveFileId.1.applyRotateFile t.activePath d.nextPath t.nextFileId

lemma rotated_activePath (d : Disk) (t : EngineState) : (rotated d t).activePath = d.nextPath := by
  simp [rotated, activePath, applyRotateFile, get_insert_self]

inductive Grows : Disk × EngineState → Disk × EngineState → Prop
  | append {d s es} : Appendable s es →
      Grows (d, s) (d.append s.activePath es, s.applyIngest es (offsetsFrom (d.size s.activePath) es))
  | rotate {d s} : Grows (d, s) (d.create, rotated d s)
  | reserve {d s} : Grows (d, s) (d, s.reserveFileId.1)
  | sync {d s} (p : Path) : Grows (d, s) (d.sync p, s)
  | shrink {d s} (p : Path) : Grows (d, s) (d.shrink p, s)
  | flag {d s} (durableSeq syncRequestedSeq : ℕ) (mode : Mode) (degraded : Bool) :
      Grows (d, s) (d, { s with durableSeq, syncRequestedSeq, mode, degraded })

abbrev GrowsTo : Disk × EngineState → Disk × EngineState → Prop := Relation.ReflTransGen Grows

inductive Adds : Disk × EngineState → Disk × EngineState → Prop
  | append {d s es} : Appendable s es →
      Adds (d, s) (d.append s.activePath es, s.applyIngest es (offsetsFrom (d.size s.activePath) es))
  | sync {d s} (p : Path) : Adds (d, s) (d.sync p, s)
  | flag {d s} (durableSeq syncRequestedSeq : ℕ) (mode : Mode) (degraded : Bool) :
      Adds (d, s) (d, { s with durableSeq, syncRequestedSeq, mode, degraded })

abbrev Extends : Disk × EngineState → Disk × EngineState → Prop := Relation.ReflTransGen Adds

section Contents

variable {d : Disk} {s : EngineState}

lemma Disk.contents_congr {t : EngineState} (h : t.files = s.files) : d.contents t = d.contents s := by
  unfold contents
  rw [h]

lemma Disk.get_adjust (d : Disk) (p q : Path) (f : DiskFile → DiskFile) :
    (d.adjust p f).files.get q = if q = p then (d.files.get p).map f else d.files.get q :=
  SortedMap.get_adjust d.files p q f

lemma Disk.contents_adjust_entries (d : Disk) (s : EngineState) (p : Path) {f : DiskFile → DiskFile}
    (hf : ∀ x, (f x).entries = x.entries) : (d.adjust p f).contents s = d.contents s := by
  funext id
  rw [contents, contents]
  cases h : s.files.get id with
  | none => rfl
  | some q =>
    simp only [bind_some, get_adjust]
    split_ifs with hq
    · rw [map_map, hq]
      exact congrArg (fun g => (Option.map g _).getD []) (funext hf)
    · rfl

lemma Disk.contents_create (h : ∀ p, (d.files.get p).isSome → p < d.nextPath)
    (hp : ∀ id p, s.files.get id = some p → (d.files.get p).isSome) : d.create.contents s = d.contents s := by
  funext id
  rw [contents, contents]
  cases hid : s.files.get id with
  | none => rfl
  | some q =>
    have hne : q ≠ d.nextPath := (h q (hp id q hid)).ne
    simp only [bind_some, create, get_insert_ne _ _ hne]

namespace Stored

lemma active (h : Stored d s) : s.files.get s.activeFileId = some s.activePath := by
  have hsome := (h.known _).trans h.mirror.active
  obtain ⟨p, hp⟩ := isSome_iff_exists.1 hsome
  rw [activePath, hp]
  rfl

lemma activeFile (h : Stored d s) : ∃ f, d.files.get s.activePath = some f :=
  isSome_iff_exists.1 (h.present _ _ h.active)

lemma size_eq (h : Stored d s) : d.size s.activePath = bytesOf (d.contents s s.activeFileId) := by
  obtain ⟨f, hf⟩ := h.activeFile
  rw [Disk.size, Disk.contents, h.active, bind_some, hf]
  rfl

lemma contents_append (h : Stored d s) (es : List DataEntry) :
    (d.append s.activePath es).contents s = (d.contents s).extend s.activeFileId es := by
  funext id
  by_cases hid : id = s.activeFileId
  · subst hid
    obtain ⟨f, hf⟩ := h.activeFile
    rw [Contents.extend_self, Disk.contents, Disk.contents, h.active, bind_some, bind_some, Disk.append,
      get_adjust, if_pos rfl, hf]
    rfl
  · rw [Contents.extend_ne _ hid, Disk.contents, Disk.contents]
    cases hp : s.files.get id with
    | none => rfl
    | some p =>
      have hne : p ≠ s.activePath := fun hp' => hid (h.apart _ _ _ (hp'.symm ▸ hp) h.active)
      simp only [bind_some, Disk.append, get_adjust, if_neg hne]

lemma activeFileId_lt (h : Stored d s) : s.activeFileId < s.nextFileId :=
  h.ids _ (by rw [h.active]; rfl)

end Stored

end Contents

lemma Mirror.congr {t : EngineState} (h : Mirror C s) (hk : t.keyDir = s.keyDir)
    (hf : t.fileStats = s.fileStats) (ha : t.activeFileId = s.activeFileId) (hn : t.nextSeq = s.nextSeq)
    (hc : t.changeMarkers = s.changeMarkers) : Mirror C t where
  log := h.log
  indexed := ⟨fun k d => hk ▸ h.indexed.keys k d, fun id st hst => by rw [hk]; exact h.indexed.stats id st (hf ▸ hst)⟩
  known id hid := hf ▸ h.known id hid
  active := by rw [hf, ha]; exact h.active
  positive := hn ▸ h.positive
  below id e he := hn ▸ h.below id e he
  ordered := hc ▸ h.ordered
  markers m := hc ▸ h.markers m

lemma Indexed.liveBytesIn_eq_zero {B : FileId → ℕ × ℕ} (h : Indexed C B s) (hid : C id = []) : liveBytesIn s.keyDir id = 0 := by
  have hzero : liveBytesIn s.keyDir id = s.keyDir.sum (fun _ _ => 0) := by
    refine sum_congr fun k d hd => if_neg ?_
    rintro rfl
    obtain ⟨v, hv⟩ := ((h.keys k d).1 hd).1.mem
    rw [hid] at hv
    cases hv
  rw [hzero, SortedMap.sum]
  simp

lemma Mirror.rotate (h : Mirror C s) (hid : C id = [])
    (hnew : s.fileStats.get id = none) (old new : Path) : Mirror C (s.applyRotateFile old new id) where
  log := h.log
  indexed := by
    refine ⟨h.indexed.keys, fun j st hst => ?_⟩
    change (s.fileStats.insert id {}).get j = some st at hst
    rw [get_insert] at hst
    split_ifs at hst with hj
    · subst hj
      cases hst
      rw [fileStatsOf, boundsOf, hid]
      change ({} : FileStats) = { countsOf [] with liveBytes := liveBytesIn s.keyDir j, minSequence := 0, maxSequence := 0 }
      rw [h.indexed.liveBytesIn_eq_zero hid]
      rfl
    · exact h.indexed.stats j st hst
  known j hj := by
    have hne : j ≠ id := fun he => hj (he ▸ hid)
    change ((s.fileStats.insert id {}).get j).isSome
    rw [get_insert_ne _ _ hne]
    exact h.known j hj
  active := by
    change ((s.fileStats.insert id {}).get id).isSome
    rw [get_insert_self]
    rfl
  positive := h.positive
  below := h.below
  ordered := h.ordered
  markers := h.markers

section Steps

variable {d : Disk} {s : EngineState}
variable {es : List DataEntry} {a b : Disk × EngineState}

lemma EngineState.applyIngest_files (s : EngineState) (size : ℕ) (h : Appendable s es) :
    (s.applyIngest es (offsetsFrom size es)).files = s.files := by
  have hrest := congrArg EngineState.files (s.applyIngest_rest size es h.nonempty h.fresh)
  exact hrest

lemma EngineState.applyIngest_nextSeq (s : EngineState) (size : ℕ) (h : Appendable s es) :
    (s.applyIngest es (offsetsFrom size es)).nextSeq = lastSeq es + 1 := by
  have hrest := congrArg nextSeq (s.applyIngest_rest size es h.nonempty h.fresh)
  exact hrest

lemma EngineState.applyIngest_nextFileId (s : EngineState) (size : ℕ) (h : Appendable s es) :
    (s.applyIngest es (offsetsFrom size es)).nextFileId = s.nextFileId := by
  have hrest := congrArg nextFileId (s.applyIngest_rest size es h.nonempty h.fresh)
  exact hrest

lemma EngineState.applyIngest_flags (s : EngineState) (size : ℕ) (h : Appendable s es) :
    let t := s.applyIngest es (offsetsFrom size es)
    t.durableSeq = s.durableSeq ∧ t.syncRequestedSeq = s.syncRequestedSeq ∧ t.mode = s.mode ∧
      t.degraded = s.degraded ∧ t.activeFileId = s.activeFileId := by
  have hrest := s.applyIngest_rest size es h.nonempty h.fresh
  have h₁ := congrArg durableSeq hrest
  have h₂ := congrArg syncRequestedSeq hrest
  have h₃ := congrArg EngineState.mode hrest
  have h₄ := congrArg EngineState.degraded hrest
  have h₅ := congrArg activeFileId hrest
  exact ⟨h₁, h₂, h₃, h₄, h₅⟩

section

variable (h : Stored d s)

include h

lemma Stored.append (hes : Appendable s es) :
    Stored (d.append s.activePath es) (s.applyIngest es (offsetsFrom (d.size s.activePath) es)) := by
  have hfiles := s.applyIngest_files (d.size s.activePath) hes
  refine ⟨?_, ?_, ?_, ?_, ?_, ?_, ?_⟩
  · rw [contents_congr hfiles, h.contents_append, h.size_eq]
    exact h.mirror.ingest hes.nonempty hes.written hes.units hes.fresh
  · rw [hfiles]
    exact h.apart
  · intro id p hp
    rw [hfiles] at hp
    rw [Disk.append, get_adjust]
    split_ifs with hq
    · rw [isSome_map]
      exact h.present id _ (hq ▸ hp)
    · exact h.present id p hp
  · intro id
    rw [hfiles, s.applyIngest_isSome]
    exact h.known id
  · rw [hfiles, s.applyIngest_nextFileId _ hes]
    exact h.ids
  · intro p hp
    refine h.named p ?_
    rw [Disk.append, get_adjust] at hp
    split_ifs at hp with hq
    · rwa [isSome_map, ← hq] at hp
    · exact hp
  · intro id p f hp hf
    rw [hfiles] at hp
    rw [Disk.append, get_adjust] at hf
    split_ifs at hf with hq
    · obtain ⟨g, hg, rfl⟩ := map_eq_some_iff.1 hf
      exact h.clean id _ g (hq ▸ hp) hg
    · exact h.clean id p f hp hf

lemma Stored.adjust (p : Path) {f : DiskFile → DiskFile} (hf : ∀ x, (f x).entries = x.entries)
    (hc : ∀ x, x.beyond = [] ∧ x.tail = .zeros → (f x).beyond = [] ∧ (f x).tail = .zeros) : Stored (d.adjust p f) s where
  mirror := by
    rw [d.contents_adjust_entries s p hf]
    exact h.mirror
  apart := h.apart
  present id q hq := by
    rw [get_adjust]
    split_ifs with hp
    · rw [isSome_map]
      exact h.present id _ (hp ▸ hq)
    · exact h.present id q hq
  known := h.known
  ids := h.ids
  named q hq := by
    refine h.named q ?_
    rw [get_adjust] at hq
    split_ifs at hq with hp
    · rwa [isSome_map, ← hp] at hq
    · exact hq
  clean id q g hq hg := by
    rw [get_adjust] at hg
    split_ifs at hg with hp
    · obtain ⟨x, hx, rfl⟩ := map_eq_some_iff.1 hg
      exact hc x (h.clean id _ x (hp ▸ hq) hx)
    · exact h.clean id q g hq hg

lemma Stored.next_unused : s.files.get s.nextFileId = none := by
  by_contra hne
  exact lt_irrefl _ (h.ids _ (isSome_iff_ne_none.2 hne))

lemma Stored.files_rotated : (rotated d s).files = s.files.insert s.nextFileId d.nextPath := by
  have hactive : s.files.insert s.activeFileId s.activePath = s.files := insert_of_get h.active
  rw [← hactive]
  rfl

lemma Stored.contents_rotated : d.create.contents (rotated d s) = d.contents s := by
  rw [← d.contents_create h.named h.present]
  funext id
  rw [Disk.contents, Disk.contents, h.files_rotated, get_insert]
  split_ifs with hid
  · rw [hid, h.next_unused, bind_some, Disk.create, get_insert_self]
    rfl
  · rfl

lemma Stored.rotate : Stored d.create (rotated d s) := by
  have hnone := h.next_unused
  have hfiles := h.files_rotated
  have hcontents := h.contents_rotated
  have hstats : (rotated d s).fileStats = s.fileStats.insert s.nextFileId {} := rfl
  have hnext : (rotated d s).nextFileId = s.nextFileId + 1 := rfl
  generalize ht : rotated d s = t at *
  have hget : ∀ id p, t.files.get id = some p → (id = s.nextFileId ∧ p = d.nextPath) ∨
      (s.files.get id = some p ∧ p ≠ d.nextPath) := by
    intro id p hp
    rw [hfiles, get_insert] at hp
    split_ifs at hp with hid
    · exact .inl ⟨hid, (Option.some.inj hp).symm⟩
    · exact .inr ⟨hp, (h.named p (h.present id p hp)).ne⟩
  refine ⟨?_, ?_, ?_, ?_, ?_, ?_, ?_⟩
  · rw [hcontents, ← ht]
    refine (h.mirror.congr rfl rfl rfl rfl rfl : Mirror _ s.reserveFileId.1).rotate ?_ ?_ _ _
    · rw [Disk.contents, hnone]
      rfl
    · have := h.known s.nextFileId
      rw [hnone] at this
      exact isSome_eq_false_iff.1 this.symm |> isNone_iff_eq_none.1
  · intro id id' p hp hp'
    rcases hget id p hp with ⟨hid, hp₁⟩ | ⟨hid, hp₁⟩ <;> rcases hget id' p hp' with ⟨hid', hp₂⟩ | ⟨hid', hp₂⟩
    · exact hid.trans hid'.symm
    · exact absurd hp₁ hp₂
    · exact absurd hp₂ hp₁
    · exact h.apart id id' p hid hid'
  · intro id p hp
    rcases hget id p hp with ⟨-, rfl⟩ | ⟨hid, hne⟩
    · rw [Disk.create, get_insert_self]
      rfl
    · rw [Disk.create, get_insert_ne _ _ hne]
      exact h.present id p hid
  · intro id
    rw [hfiles, hstats, get_insert, get_insert]
    split_ifs
    · rfl
    · exact h.known id
  · intro id hid
    obtain ⟨p, hp⟩ := isSome_iff_exists.1 hid
    rw [hnext]
    rcases hget id p hp with ⟨rfl, -⟩ | ⟨hp, -⟩
    · exact Nat.lt_succ_self _
    · exact Nat.lt_succ_of_lt (h.ids id (by rw [hp]; rfl))
  · intro p hp
    rw [Disk.create, get_insert] at hp
    split_ifs at hp with hq
    · exact hq ▸ Nat.lt_succ_self _
    · exact Nat.lt_succ_of_lt (h.named p hp)
  · intro id p f hp hf
    rcases hget id p hp with ⟨-, rfl⟩ | ⟨hid, hne⟩
    · rw [Disk.create, get_insert_self] at hf
      cases hf
      exact ⟨rfl, rfl⟩
    · rw [Disk.create, get_insert_ne _ _ hne] at hf
      exact h.clean id p f hid hf

lemma Stored.congr {t : EngineState} (hm : Mirror (d.contents s) t) (hf : t.files = s.files)
    (hs : t.fileStats = s.fileStats) (hn : s.nextFileId ≤ t.nextFileId) : Stored d t where
  mirror := (contents_congr hf).symm ▸ hm
  apart := hf ▸ h.apart
  present := hf ▸ h.present
  known := by
    rw [hf, hs]
    exact h.known
  ids id hid := (h.ids id (hf ▸ hid)).trans_le hn
  named := h.named
  clean := hf ▸ h.clean

omit h in
lemma Stored.grows (h : Stored a.1 a.2) (hg : Grows a b) : Stored b.1 b.2 := by
  cases hg with
  | append hes => exact h.append hes
  | rotate => exact h.rotate
  | reserve => exact h.congr (h.mirror.congr rfl rfl rfl rfl rfl) rfl rfl (Nat.le_succ _)
  | sync p => exact h.adjust p (fun _ => rfl) (fun _ hx => hx)
  | shrink p => exact h.adjust p (fun _ => rfl) (fun _ _ => ⟨rfl, rfl⟩)
  | flag => exact h.congr (h.mirror.congr rfl rfl rfl rfl rfl) rfl rfl le_rfl

lemma Stored.contents_rotation : (d.shrink s.activePath).create.contents (rotated d s) = d.contents s :=
  (h.grows (.shrink s.activePath)).contents_rotated.trans (d.contents_adjust_entries s _ fun _ => rfl)

end

lemma Stored.growsTo (h : Stored a.1 a.2) (hg : GrowsTo a b) : Stored b.1 b.2 := by
  induction hg with
  | refl => exact h
  | tail _ hstep ih => exact ih.grows hstep

lemma Grows.counters_le (h : Stored a.1 a.2) (hg : Grows a b) :
    a.2.nextSeq ≤ b.2.nextSeq ∧ a.2.activeFileId ≤ b.2.activeFileId ∧ a.2.nextFileId ≤ b.2.nextFileId := by
  cases hg with
  | @append d s es hes =>
    obtain ⟨e, he⟩ := List.exists_mem_of_ne_nil es hes.nonempty
    have hseq : s.nextSeq ≤ lastSeq es + 1 := (hes.fresh e he).trans ((le_lastSeq he).trans (Nat.le_succ _))
    have hact := (s.applyIngest_flags (d.size s.activePath) hes).2.2.2.2
    exact ⟨(s.applyIngest_nextSeq _ hes).symm ▸ hseq, hact.ge, (s.applyIngest_nextFileId _ hes).ge⟩
  | rotate => exact ⟨le_rfl, h.activeFileId_lt.le, Nat.le_succ _⟩
  | reserve => exact ⟨le_rfl, le_rfl, Nat.le_succ _⟩
  | sync | shrink | flag => exact ⟨le_rfl, le_rfl, le_rfl⟩

lemma GrowsTo.counters_le (h : Stored a.1 a.2) (hg : GrowsTo a b) :
    a.2.nextSeq ≤ b.2.nextSeq ∧ a.2.activeFileId ≤ b.2.activeFileId ∧ a.2.nextFileId ≤ b.2.nextFileId := by
  induction hg with
  | refl => exact ⟨le_rfl, le_rfl, le_rfl⟩
  | tail hab hbc ih =>
    obtain ⟨h₁, h₂, h₃⟩ := hbc.counters_le (h.growsTo hab)
    exact ⟨ih.1.trans h₁, ih.2.1.trans h₂, ih.2.2.trans h₃⟩

end Steps

section Extends

variable {a b : Disk × EngineState}

lemma Adds.grows (h : Adds a b) : Grows a b := by
  cases h with
  | append hes => exact .append hes
  | sync p => exact .sync p
  | flag => exact .flag _ _ _ _

lemma Extends.growsTo (h : Extends a b) : GrowsTo a b := Relation.ReflTransGen.mono (fun _ _ hs => hs.grows) _ _ h

lemma Adds.frame (h : Adds a b) : b.2.files = a.2.files ∧ b.2.activeFileId = a.2.activeFileId ∧
    b.2.nextFileId = a.2.nextFileId := by
  cases h with
  | @append d s es hes =>
    exact ⟨s.applyIngest_files _ hes, (s.applyIngest_flags _ hes).2.2.2.2, s.applyIngest_nextFileId _ hes⟩
  | sync | flag => exact ⟨rfl, rfl, rfl⟩

lemma Extends.frame (h : Extends a b) : b.2.files = a.2.files ∧ b.2.activeFileId = a.2.activeFileId ∧
    b.2.nextFileId = a.2.nextFileId := by
  induction h with
  | refl => exact ⟨rfl, rfl, rfl⟩
  | tail _ hs ih =>
    obtain ⟨h₁, h₂, h₃⟩ := hs.frame
    exact ⟨h₁.trans ih.1, h₂.trans ih.2.1, h₃.trans ih.2.2⟩

lemma Extends.activePath (h : Extends a b) : b.2.activePath = a.2.activePath := by
  rw [EngineState.activePath, EngineState.activePath, h.frame.1, h.frame.2.1]

def EngineState.withFlags (s t : EngineState) : EngineState :=
  { s with durableSeq := t.durableSeq, syncRequestedSeq := t.syncRequestedSeq, mode := t.mode, degraded := t.degraded }

lemma EngineState.nextSeq_eq_of_withFlags {s t u : EngineState} (h : t = s.withFlags u) : t.nextSeq = s.nextSeq := by
  rw [h]
  rfl

lemma growsTo_withFlags (d : Disk) (s t : EngineState) : GrowsTo (d, s) (d, s.withFlags t) :=
  .single (.flag t.durableSeq t.syncRequestedSeq t.mode t.degraded)

lemma Adds.nextSeq_lt (h : Adds a b) : a.2.nextSeq < b.2.nextSeq ∨
    (b.2 = a.2.withFlags b.2 ∧ ∀ s, Stored a.1 s → Stored b.1 s) := by
  cases h with
  | @append d s es hes =>
    obtain ⟨e, he⟩ := List.exists_mem_of_ne_nil es hes.nonempty
    have hnext := s.applyIngest_nextSeq (d.size s.activePath) hes
    exact .inl (hnext ▸ Nat.lt_succ_of_le ((hes.fresh e he).trans (le_lastSeq he)))
  | sync p => exact .inr ⟨rfl, fun s hs => hs.adjust p (fun _ => rfl) (fun _ hx => hx)⟩
  | flag => exact .inr ⟨rfl, fun s hs => hs⟩

lemma Extends.nextSeq_lt (h : Extends a b) : a.2.nextSeq < b.2.nextSeq ∨
    (b.2 = a.2.withFlags b.2 ∧ ∀ s, Stored a.1 s → Stored b.1 s) := by
  induction h with
  | refl => exact .inr ⟨rfl, fun _ hs => hs⟩
  | @tail b c _ hs ih =>
    rcases ih with ih | ⟨ih, ihs⟩ <;> rcases hs.nextSeq_lt with hs | ⟨hs, hss⟩
    · exact .inl (ih.trans hs)
    · exact .inl (ih.trans_eq (nextSeq_eq_of_withFlags hs).symm)
    · exact .inl ((nextSeq_eq_of_withFlags ih).symm.trans_lt hs)
    · refine .inr ⟨?_, fun s h => hss s (ihs s h)⟩
      rw [ih] at hs
      exact hs

lemma Extends.nextSeq_le (h : Extends a b) : a.2.nextSeq ≤ b.2.nextSeq := by
  rcases h.nextSeq_lt with h | h
  · exact h.le
  · exact (nextSeq_eq_of_withFlags h.1).ge

end Extends

section Promotion

lemma marker_appendable {s : EngineState} (hpos : 0 < s.nextSeq) (id : MarkerId) :
    Appendable s [⟨s.nextSeq, .changeMarker, [], encodeMarkerId id⟩] where
  nonempty := List.cons_ne_nil _ _
  written := ⟨by simp [DataEntry.Shaped, encodeMarkerId], by simp, by simpa using hpos⟩
  units := (IsUnit.single (by simp)).units
  fresh := by simp

lemma EngineState.applyChangeMarker_eq (s : EngineState) (id : MarkerId) (size : ℕ) :
    s.applyChangeMarker s.nextSeq id = s.applyIngest [⟨s.nextSeq, .changeMarker, [], encodeMarkerId id⟩]
      (offsetsFrom size [⟨s.nextSeq, .changeMarker, [], encodeMarkerId id⟩]) := by
  let e : DataEntry := ⟨s.nextSeq, .changeMarker, [], encodeMarkerId id⟩
  let sz := changeMarkerSize .changeMarker
  have hlast : lastSeq [e] = s.nextSeq := by simp [lastSeq, e]
  have hleft : s.applyChangeMarker s.nextSeq id = ({ s with nextSeq := s.nextSeq + 1 }.patch s.activeFileId
      { totalAdded := sz, changeMarkerAdded := sz, minSequence := s.nextSeq, maxSequence := s.nextSeq }).appendMarker
      ⟨s.nextSeq, id⟩ := by
    simp only [applyChangeMarker, patch_nextSeq, le_refl, if_true]
    rfl
  have hright : s.applyIngest [e] (offsetsFrom size [e]) =
      (({ s with nextSeq := s.nextSeq + 1 }.patch s.activeFileId
        { totalAdded := sz, changeMarkerAdded := sz }).appendMarker ⟨s.nextSeq, id⟩).patch s.activeFileId
        { minSequence := s.nextSeq, maxSequence := s.nextSeq } := by
    rw [applyIngest_eq, hlast, if_pos le_rfl]
    have hentry : s.applyEntries (located size [e]) =
        (s.patch s.activeFileId { totalAdded := sz, changeMarkerAdded := sz }).appendMarker ⟨s.nextSeq, id⟩ := by
      simp only [applyEntries, located, List.foldl_cons, List.foldl_nil, applyIngestEntry, e,
        decodeMarkerId_encodeMarkerId]
      rfl
    rw [hentry]
    rfl
  rw [hleft, hright]
  refine ext_rest rfl (SortedMap.ext fun j => ?_) rfl rfl
  rw [get_patch]
  refine (get_patch { s with nextSeq := s.nextSeq + 1 } _ j _).trans ?_
  have hget := get_patch { s with nextSeq := s.nextSeq + 1 } s.activeFileId j
    { totalAdded := sz, changeMarkerAdded := sz }
  refine Eq.trans ?_ (congrArg _ hget).symm
  rw [map_map]
  refine congrArg (fun f => Option.map f _) (funext fun st => ?_)
  by_cases hj : j = s.activeFileId
  · by_cases hmin : st.minSequence = 0 <;> simp [hj, FileStats.apply, hmin]
  · simp [hj]

end Promotion

end Bytecask
