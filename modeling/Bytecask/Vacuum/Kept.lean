import Bytecask.Vacuum.Ordered

/-! A process from its open on: the directory, the state, the order of the files and the vacuum stay in agreement. -/

namespace Bytecask

open SortedMap Directory EngineState List Option

open Recovery (Recovered RecoveredFrom)

namespace Process

def Listed (p : Process) : Prop :=
  ∀ path, (p.disk.files.get path).isSome → (∃ id, p.state.files.get id = some path) ∨ p.vacuum.extra = some path

def Action.written : Action → List DataEntry
  | .write es => es
  | _ => []

variable {p : Process}

section Markers

lemma settle_changeMarkers (p : Process) (decidedAt : ℕ) :
    (p.settle decidedAt).state.changeMarkers = p.state.changeMarkers := by
  rw [settle]
  split_ifs <;> rfl

lemma next_changeMarkers (p : Process) (a : Action) :
    (p.next a).state.changeMarkers = p.state.changeMarkers ++ markersIn a.written := by
  have hnil : p.state.changeMarkers ++ markersIn [] = p.state.changeMarkers := append_nil _
  cases a with
  | write es => exact p.state.applyIngest_changeMarkers _ es
  | rotate | sync | setMode => exact hnil.symm
  | reserve =>
    simp only [next]
    split <;> exact hnil.symm
  | commit =>
    simp only [next]
    split
    · exact (p.settle_changeMarkers _).trans hnil.symm
    · rw [applyVacuum_rest]
      exact (p.settle_changeMarkers _).trans hnil.symm
    · exact hnil.symm
  | begin | choose | place | unlink | cancel =>
    rw [(p.next_beside rfl).state_eq]
    exact hnil.symm

end Markers

section Listed

variable {path : Path}
variable {d : Disk} {q : Path}

lemma isSome_adjust {f : DiskFile → DiskFile} (h : ((d.adjust q f).files.get path).isSome) : (d.files.get path).isSome := by
  rw [Disk.get_adjust] at h
  split_ifs at h with hq
  · rwa [isSome_map, ← hq] at h
  · exact h

lemma isSome_remove (h : ((d.remove q).files.get path).isSome) : path ≠ q ∧ (d.files.get path).isSome := by
  rw [Disk.remove, get_erase] at h
  split_ifs at h with hq
  · cases h
  · exact ⟨hq, h⟩

lemma Listed.settle (h : p.Listed) (decidedAt : ℕ) : (p.settle decidedAt).Listed := by
  rw [Process.settle]
  split_ifs
  · exact fun path hpath => h path (isSome_adjust hpath)
  · exact h

lemma Listed.remove (h : p.Listed) (hq : p.vacuum.extra = some q) : Listed { p with disk := p.disk.remove q, vacuum := .idle } := by
  intro path hpath
  obtain ⟨hne, hsome⟩ := isSome_remove hpath
  refine (h path hsome).imp_right fun hextra => absurd ?_ hne
  exact Option.some.inj (hextra.symm.trans hq)

lemma Listed.setPhase (h : p.Listed) (hp : p.vacuum.extra = none) (phase : VacuumPhase) : Listed { p with vacuum := phase } := by
  intro path hpath
  refine (h path hpath).imp_right fun hextra => ?_
  rw [hp] at hextra
  cases hextra

lemma Listed.commit (h : p.Listed) (hs : p.Sound) : (p.next .commit).Listed := by
  simp only [next]
  split
  · next id retainAfter decidedAt hv =>
    have hq := h.settle decidedAt
    obtain ⟨hvq, -, -⟩ := p.settle_spec _
    intro path hpath
    rcases hq path hpath with ⟨j, hj⟩ | hextra
    · by_cases hid : j = id
      · exact .inr (by rw [VacuumPhase.extra, ← hid, pathOf_eq hj])
      · exact .inl ⟨j, by rw [dropFile, get_erase, if_neg hid, hj]⟩
    · rw [hvq, hv] at hextra
      cases hextra
  · next v scan path dest hv =>
    have hq := h.settle (v.snap.nextSeq - 1)
    have hsq := hs.settle (v.snap.nextSeq - 1)
    obtain ⟨hvq, -, -⟩ := p.settle_spec _
    generalize p.settle (v.snap.nextSeq - 1) = q at hq hvq hsq
    obtain ⟨hscan, -, -, hnone⟩ : VacuumPhase.Sound q.needed q.disk q.state (.reserved v scan path dest) :=
      hv ▸ hvq ▸ hsq.phase
    intro path' hpath
    rcases hq path' hpath with ⟨j, hj⟩ | hextra
    · by_cases hid : j = v.source
      · refine .inr ?_
        rw [VacuumPhase.extra, pathOf_eq (hscan.path.trans (hid ▸ hj))]
      · refine .inl ⟨j, ?_⟩
        have hjd : j ≠ dest := by
          rintro rfl
          rw [hnone] at hj
          cases hj
        rw [applyVacuum_files, if_neg hid, if_neg hjd, hj]
    · rw [hvq, hv] at hextra
      have hds : dest ≠ v.source := by
        rintro rfl
        have hsome := hscan.source.1
        rw [hnone] at hsome
        cases hsome
      exact .inl ⟨dest, by rw [applyVacuum_files, if_neg hds, if_pos rfl]; exact hextra⟩
  · exact h

lemma Listed.beside (h : p.Listed) {q : Process} (hb : p.Beside q) : q.Listed := by
  cases hb with
  | same => exact h
  | phase ph he hr => exact h.setPhase he ph
  | place v scan he =>
    intro path hpath
    by_cases hnew : path = p.disk.nextPath
    · exact .inr (by rw [VacuumPhase.extra, hnew])
    · have hold : (p.disk.files.get path).isSome := by
        rwa [Disk.place, get_insert_ne _ _ hnew] at hpath
      refine (h path hold).imp_right fun hextra => ?_
      rw [he] at hextra
      cases hextra
  | remove path he => exact h.remove he

lemma Listed.next (h : p.Listed) (hs : p.Sound) (a : Action) (ha : p.Enabled a) : (p.next a).Listed := by
  cases a with
  | write es =>
    intro path hpath
    refine (h path (isSome_adjust hpath)).imp_left ?_
    rintro ⟨id, hid⟩
    exact ⟨id, (congrArg (SortedMap.get · id) (p.state.applyIngest_files _ ha.1)).trans hid⟩
  | rotate =>
    intro path hpath
    have hfiles : (p.next .rotate).state.files = p.state.files.insert p.state.nextFileId p.disk.nextPath :=
      hs.stored.files_rotated
    simp only [hfiles]
    by_cases hnew : path = p.disk.nextPath
    · exact .inl ⟨p.state.nextFileId, by rw [hnew, get_insert_self]⟩
    · have hold : ((p.disk.shrink p.state.activePath).files.get path).isSome := by
        change (((p.disk.shrink p.state.activePath).files.insert p.disk.nextPath {}).get path).isSome at hpath
        rwa [get_insert_ne _ _ hnew] at hpath
      refine (h path (isSome_adjust hold)).imp_left ?_
      rintro ⟨id, hid⟩
      have hne : id ≠ p.state.nextFileId := by
        rintro rfl
        rw [hs.stored.next_unused] at hid
        cases hid
      exact ⟨id, by rw [get_insert_ne _ _ hne, hid]⟩
  | sync => exact fun path hpath => h path (isSome_adjust hpath)
  | setMode mode => exact h
  | reserve =>
    simp only [Process.next]
    split
    · next v scan q hv =>
      intro path hpath
      refine (h path hpath).imp_right fun hextra => ?_
      rw [hv] at hextra
      exact hextra
    · exact h
  | commit => exact h.commit hs
  | begin | choose | place | unlink | cancel => exact h.beside (p.next_beside rfl)

end Listed

structure Kept (p : Process) : Prop where
  sound : p.Sound
  ordered : Ordered p.held.1 p.held.2
  listed : p.Listed

lemma exists_within (phase : VacuumPhase) : ∃ f, phase.Within f := by
  cases phase with
  | idle | unlinking => exact ⟨0, trivial⟩
  | choosing left => exact ⟨_, le_rfl⟩
  | removing id retainAfter decidedAt => exact ⟨retainAfter, le_rfl⟩
  | staged v scan left => exact ⟨max _ _, le_max_left _ _, le_max_right _ _⟩
  | placed v | reserved v => exact ⟨v.retainAfter, le_rfl⟩

lemma Kept.next (h : p.Kept) (a : Action) (ha : p.Enabled a) : (p.next a).Kept := by
  obtain ⟨f, hf⟩ := exists_within _
  exact ⟨h.sound.next a ha, (h.sound.moves h.ordered hf a ha).ordered h.ordered, h.listed.next h.sound a ha⟩

/-- The process that `DB::open` starts, once recovery is through. -/
def opened (dir : Directory) (r : Recovered) (mode : Mode) : Process where
  disk := dir.disk.create
  state := r.state.openActive dir.disk.nextPath mode
  needed := r.needed

section Opened

variable {dir : Directory} {r : Recovered} (mode : Mode)

lemma opened_files (hr : RecoveredFrom dir.registered dir.recoveredFiles r) (id : FileId) :
    (opened dir r mode).state.files.get id = if id = dir.names.length then some dir.disk.nextPath else dir.names[id]? := by
  have hfiles : r.state.files = dir.registered.files := by rw [hr.others]
  have hnext : r.state.nextFileId = dir.names.length := by rw [hr.others]; rfl
  rw [opened, openActive, get_insert, hfiles, hnext, registered_get]

lemma opened_contents (h : dir.Prepared) (hr : RecoveredFrom dir.registered dir.recoveredFiles r) :
    (opened dir r mode).disk.contents (opened dir r mode).state = dir.contents := by
  funext id
  rw [Disk.contents, opened_files mode hr]
  split_ifs with hid
  · rw [Directory.contents, hid, List.getElem?_eq_none_iff.2 le_rfl]
    simp [opened, Disk.create]
  · cases hp : dir.names[id]? with
    | none => rw [Directory.contents, hp]; rfl
    | some path =>
      obtain ⟨f, hf⟩ := isSome_iff_exists.1 ((h.complete path).1 (mem_of_getElem? hp))
      have hne : path ≠ dir.disk.nextPath := (h.named path (by rw [hf]; rfl)).ne
      rw [contents_eq hp, Directory.file, hf, bind_some, opened, Disk.create,
        get_insert_ne _ _ hne, hf]
      rfl

lemma opened_stored (h : dir.Prepared) (ha : dir.contents.Apart) (hr : RecoveredFrom dir.registered dir.recoveredFiles r) :
    Stored (opened dir r mode).disk (opened dir r mode).state := by
  have hh := h.hinted ha
  have hr' := hr
  rw [recoveredFiles_eq] at hr'
  have hnext : r.state.nextFileId = dir.names.length := by rw [hr.others]; rfl
  have hempty : dir.contents r.state.nextFileId = [] := by
    rw [Directory.contents, hnext, List.getElem?_eq_none_iff.2 le_rfl]
    rfl
  have hget : ∀ {id path}, (opened dir r mode).state.files.get id = some path →
      (id = dir.names.length ∧ path = dir.disk.nextPath) ∨ dir.names[id]? = some path := by
    intro id path hp
    rw [opened_files mode hr] at hp
    split_ifs at hp with hid
    · exact .inl ⟨hid, (Option.some.inj hp).symm⟩
    · exact .inr hp
  have hnamed : ∀ {id path}, dir.names[id]? = some path → path < dir.disk.nextPath :=
    fun hp => h.named _ ((h.complete _).1 (mem_of_getElem? hp))
  refine ⟨?_, ?_, ?_, ?_, ?_, ?_, ?_⟩
  · rw [opened_contents mode h hr]
    exact mirror_of_recovered hh hr' hempty _ mode
  · intro id id' path hp hp'
    rcases hget hp with ⟨hid, rfl⟩ | hp <;> rcases hget hp' with ⟨hid', hpath⟩ | hp'
    · exact hid.trans hid'.symm
    · exact absurd (hnamed hp') (lt_irrefl _)
    · exact absurd (hpath ▸ hnamed hp) (lt_irrefl _)
    · obtain ⟨hlt, rfl⟩ := List.getElem?_eq_some_iff.1 hp
      obtain ⟨hlt', heq⟩ := List.getElem?_eq_some_iff.1 hp'
      exact ((h.nodup.getElem_inj_iff).1 heq).symm
  · intro id path hp
    change ((dir.disk.files.insert dir.disk.nextPath {}).get path).isSome
    rcases hget hp with ⟨-, rfl⟩ | hp
    · rw [get_insert_self]
      rfl
    · rw [get_insert_ne _ _ (hnamed hp).ne]
      exact (h.complete path).1 (mem_of_getElem? hp)
  · intro id
    rw [opened_files mode hr, opened, openActive, get_insert, hnext]
    split_ifs
    · rfl
    · refine Bool.eq_iff_iff.2 ?_
      rw [isSome_iff_exists, isSome_iff_exists]
      constructor
      · rintro ⟨path, hp⟩
        have hlt := mem_range.2 (List.getElem?_eq_some_iff.1 hp).1
        exact ⟨_, (hr'.stats id _).2 ⟨_, mem_map_of_mem hlt, rfl, rfl⟩⟩
      · rintro ⟨st, hst⟩
        obtain ⟨rf, hrf, rfl, -⟩ := (hr'.stats id st).1 hst
        obtain ⟨id, hmem, rfl⟩ := mem_map.1 hrf
        exact ⟨_, List.getElem?_eq_getElem (mem_range.1 hmem)⟩
  · intro id hid
    obtain ⟨path, hp⟩ := isSome_iff_exists.1 hid
    change id < r.state.nextFileId + 1
    rw [hnext]
    rcases hget hp with ⟨rfl, -⟩ | hp
    · exact Nat.lt_succ_self _
    · exact Nat.lt_succ_of_lt (List.getElem?_eq_some_iff.1 hp).1
  · intro path hp
    change ((dir.disk.files.insert dir.disk.nextPath {}).get path).isSome at hp
    rw [get_insert] at hp
    split_ifs at hp with hpath
    · exact hpath ▸ Nat.lt_succ_self _
    · exact Nat.lt_succ_of_lt (h.named path hp)
  · intro id path f hp hf
    change (dir.disk.files.insert dir.disk.nextPath {}).get path = some f at hf
    rcases hget hp with ⟨-, rfl⟩ | hp
    · rw [get_insert_self] at hf
      obtain rfl := Option.some.inj hf
      exact ⟨rfl, rfl⟩
    · rw [get_insert_ne _ _ (hnamed hp).ne] at hf
      have hclean := h.clean path (mem_of_getElem? hp)
      rwa [Directory.file, hf] at hclean

lemma opened_ordered (h : dir.Prepared) (ha : dir.contents.Apart) (hr : RecoveredFrom dir.registered dir.recoveredFiles r) :
    Ordered (opened dir r mode).held.1 (opened dir r mode).held.2 := by
  have hstored := opened_stored mode h ha hr
  have hm := hstored.mirror
  have hnext : r.state.nextFileId = dir.names.length := by rw [hr.others]; rfl
  rw [held, opened_contents mode h hr] at *
  have hdurable : (opened dir r mode).state.durableSeq = (opened dir r mode).state.nextSeq - 1 := rfl
  refine ⟨ha, fun id _ e _ e' he' => ?_, fun id u hu => .inl fun e he => ?_, ?_, ?_⟩
  · have hempty : dir.contents r.state.nextFileId = [] := by
      rw [Directory.contents, hnext, List.getElem?_eq_none_iff.2 le_rfl]
      rfl
    have hnone : e' ∈ dir.contents r.state.nextFileId := he'
    rw [hempty] at hnone
    cases hnone
  · have := hm.below id e (mem_of_mem_unitsOf (hm.log.units id) hu he)
    simp only [hdurable]
    omega
  · have := hm.positive
    simp only [hdurable]
    omega
  · exact contents_all (P := fun es => ∀ e ∈ es, e.RecordFits) (by simp) h.fits

lemma opened_kept (h : dir.Prepared) (ha : dir.contents.Apart) (hr : RecoveredFrom dir.registered dir.recoveredFiles r) :
    (opened dir r mode).Kept := by
  have hh := h.hinted ha
  have hr' := hr
  rw [recoveredFiles_eq] at hr'
  refine ⟨⟨opened_stored mode h ha hr, ?_, ?_, trivial⟩, opened_ordered mode h ha hr, fun path hpath => .inl ?_⟩
  · rw [opened_contents mode h hr]
    exact covered_of_recovered hh hr'
  · change r.needed.horizon < r.state.nextSeq
    rw [hr.horizon, hr.nextSeq]
    exact Nat.lt_succ_self _
  · change ((dir.disk.files.insert dir.disk.nextPath {}).get path).isSome at hpath
    simp only [opened_files mode hr]
    by_cases hnew : path = dir.disk.nextPath
    · exact ⟨dir.names.length, by rw [if_pos rfl, hnew]⟩
    · rw [get_insert_ne _ _ hnew] at hpath
      obtain ⟨id, hlt, hid⟩ := mem_iff_getElem.1 ((h.complete path).2 hpath)
      exact ⟨id, by rw [if_neg hlt.ne, List.getElem?_eq_getElem hlt, hid]⟩

end Opened

end Process

end Bytecask
