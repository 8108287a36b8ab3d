import Bytecask.Changes.Ended
import Bytecask.Vacuum.Kept

/-! A vacuum is invisible to a reader of the changes at or above its `retain_after`, and to every reader of the
change markers. -/

namespace Bytecask

open List

open Changes (ChangeLog Snapshot System dueUnits due slice cutAfter firstOf firstOf_mem)
open Recovery (Recovered)

section Slice

variable {L : ChangeLog} {s : EngineState} {f m D : ℕ}

lemma dueUnits_ascending (h : Snapshot L s) (f : ℕ) :
    (dueUnits L s f).Pairwise (fun u v => firstOf u < firstOf v) := by
  rw [h.dueUnits_eq]
  exact h.stream.firstOf_pairwise.sublist filter_sublist

lemma mem_dueUnits {u : List DataEntry} : u ∈ dueUnits L s f ↔
    (∃ id, (s.fileStats.get id).isSome ∧ u ∈ L.units id) ∧ due f s.durableSeq u = true := by
  rw [dueUnits, mem_insertionSort, mem_filter, mem_flatMap]
  simp only [SortedMap.mem_keys, Option.isSome_iff_exists]

lemma filter_cutAfter_append {us vs : List (List DataEntry)} (hvs : ∀ u ∈ vs, ∀ e ∈ u, D < e.sequence) (m : ℕ) :
    (cutAfter m (us ++ vs)).flatten.filter (fun e => e.sequence ≤ D) =
      (cutAfter m us).flatten.filter (fun e => e.sequence ≤ D) := by
  induction us generalizing m with
  | nil =>
    rw [nil_append, cutAfter, flatten_nil, filter_nil, filter_eq_nil_iff]
    intro e he
    obtain ⟨u, hu, he⟩ := mem_flatten.1 he
    have := hvs u ((Changes.cutAfter_initial m vs).subset hu) e he
    simpa using this
  | cons u us ih =>
    rw [cons_append, cutAfter, cutAfter, flatten_cons, flatten_cons, filter_append, filter_append]
    split_ifs
    · rfl
    · rw [ih]

end Slice

namespace Process

def Logged (p : Process) (L : ChangeLog) : Prop :=
  ∀ id, ∃ after, L.units id = unitsOf (p.disk.contents p.state id) ++ after ∧
    ∀ u ∈ after, ∀ e ∈ u, p.state.nextSeq ≤ e.sequence

/-- `es` is what the iterator of a call of `changes_since(f)` with a limit of `m` bytes gives its caller, from the
first entry to the last, whatever scans use the change index before it and beside it. -/
def ChangesSince (p : Process) (f m : ℕ) (es : List DataEntry) : Prop :=
  ∃ (crc : Crc) (L : ChangeLog) (sys : System ℕ) (k : ℕ) (sc : Changes.Scan), p.Logged L ∧
    (Changes.machine crc L ℕ).Reachable sys ∧ sys.scans k = some sc ∧ sc.state = p.state ∧ sc.fromSequence = f ∧
    sc.maxBytes = m ∧ sc.phase = .ended ∧ sc.given = es

variable {p q : Process} {f m : ℕ} {es : List DataEntry}

lemma ChangesSince.eq_slice (h : p.ChangesSince f m es) :
    ∃ L, p.Logged L ∧ Snapshot L p.state ∧ es = slice L p.state f m := by
  obtain ⟨crc, L, sys, k, sc, hL, hreach, hk, hs, rfl, rfl, hend, rfl⟩ := h
  have hwalks := ((Changes.reachable_sound hreach).scans k sc hk).walks
  have hout := hwalks.output
  rw [Changes.Scan.rest, if_pos (.inr hend), append_nil, hs] at hout
  exact ⟨L, hL, hs ▸ hwalks.snapshot, hout⟩

lemma Kept.mem_dueUnits (h : p.Kept) {L : ChangeLog} (hL : p.Logged L) {u : List DataEntry} :
    u ∈ dueUnits L p.state f ↔ (p.disk.contents p.state).Later f u ∧ ∀ e ∈ u, e.sequence ≤ p.state.durableSeq := by
  have hdurable : p.state.durableSeq < p.state.nextSeq := h.ordered.durable
  simp only [Bytecask.mem_dueUnits, due, Bool.and_eq_true, all_eq_true, decide_eq_true_eq]
  constructor
  · rintro ⟨⟨id, -, hu⟩, hlt, hle⟩
    obtain ⟨after, hunits, hafter⟩ := hL id
    have hin : u ∈ unitsOf (p.disk.contents p.state id) := by
      refine (mem_append.1 (hunits ▸ hu)).resolve_right fun hmem => ?_
      obtain ⟨e, he, -⟩ := firstOf_mem (L.isUnit id u hu)
      have := hafter u hmem e he
      have := hle e he
      omega
    exact ⟨⟨id, hin, hlt⟩, hle⟩
  · rintro ⟨⟨id, hu, hlt⟩, hle⟩
    obtain ⟨after, hunits, -⟩ := hL id
    have hne : p.disk.contents p.state id ≠ [] := by
      intro hnil
      rw [hnil] at hu
      cases hu
    exact ⟨⟨id, h.sound.stored.mirror.known id hne, hunits ▸ mem_append_left _ hu⟩, hlt, hle⟩

def Kept.changeLog (h : p.Kept) : ChangeLog where
  units id := unitsOf (p.disk.contents p.state id)
  isUnit id := isUnit_of_mem_unitsOf (h.sound.stored.mirror.log.units id)
  fits id u hu e he := h.ordered.fits id e (mem_of_mem_unitsOf (h.sound.stored.mirror.log.units id) hu he)
  ascending id := by
    rw [flatten_unitsOf (h.sound.stored.mirror.log.units id)]
    exact (h.sound.stored.mirror.log.written id).ascending

lemma Kept.snapshot (h : p.Kept) : Snapshot h.changeLog p.state := by
  have hm := h.sound.stored.mirror
  have hflat : ∀ id, (unitsOf (p.disk.contents p.state id)).flatten = p.disk.contents p.state id :=
    fun id => flatten_unitsOf (hm.log.units id)
  refine ⟨fun id fs hfs => ?_, fun id fs hfs => ⟨unitsOf (p.disk.contents p.state id), [], ?_, ?_, ?_, by simp⟩,
    h.ordered.boundary, fun id id' _ _ _ _ hne => ?_⟩
  · rw [h.sound.stored.known, hfs]
    rfl
  · exact (append_nil _).symm
  · rw [hm.indexed.stats id fs hfs, hflat]
    rfl
  · rw [hm.indexed.stats id fs hfs, hflat]
    rfl
  · simp only [ChangeLog.entries, changeLog, hflat]
    exact h.ordered.apart id id' hne

lemma Kept.exists_changesSince (h : p.Kept) (f m : ℕ) : ∃ es, p.ChangesSince f m es := by
  have hstart : (Changes.machine crc32c h.changeLog ℕ).Reachable (System.mk {} (fun _ => none)) := .start ⟨rfl, fun _ => rfl⟩
  have hbegun := hstart.step (.begin 0 _ f m : Changes.Action ℕ) ⟨rfl, h.snapshot⟩
  have hk : ((Changes.machine crc32c h.changeLog ℕ).next (System.mk {} (fun _ => none)) (.begin 0 p.state f m)).scans 0 =
      some (Changes.Scan.start p.state f m) := by
    simp [Changes.machine, System.next, System.setScan]
  obtain ⟨n, sc, hsc, hend, hs, hf, hm⟩ := Changes.readOn_ends hbegun hk
  exact ⟨sc.given, crc32c, h.changeLog, _, 0, sc, fun id => ⟨[], (append_nil _).symm, by simp⟩,
    Changes.reachable_readOn hbegun 0 n, hsc, hs, hf, hm, hend, rfl⟩

lemma Kept.filter_changesSince (hp : p.Kept) (hq : q.Kept) (hc : Continues f p.held q.held) {es' : List DataEntry}
    (h : p.ChangesSince f m es) (h' : q.ChangesSince f m es') {D : ℕ} (hD : D ≤ p.state.durableSeq) :
    es'.filter (fun e => e.sequence ≤ D) = es.filter (fun e => e.sequence ≤ D) := by
  obtain ⟨L, hL, hs, rfl⟩ := h.eq_slice
  obtain ⟨L', hL', hs', rfl⟩ := h'.eq_slice
  have hdurable : p.state.durableSeq < p.state.nextSeq := hp.ordered.durable
  let beyond := (dueUnits L' q.state f).filter (fun u => p.state.durableSeq < firstOf u)
  have hbeyond : ∀ u ∈ beyond, u ∈ dueUnits L' q.state f ∧ p.state.durableSeq < firstOf u := by
    simpa [beyond] using hu
  have hle : ∀ u ∈ dueUnits L p.state f, firstOf u ≤ p.state.durableSeq := by
    intro u hu
    obtain ⟨⟨id, hunit, -⟩, hall⟩ := (hp.mem_dueUnits hL).1 hu
    obtain ⟨e, he, hfirst⟩ := firstOf_mem (isUnit_of_mem_unitsOf (hp.sound.stored.mirror.log.units id) u hunit)
    exact hfirst ▸ hall e he
  have heq : dueUnits L' q.state f = dueUnits L p.state f ++ beyond := by
    refine (dueUnits_ascending hs' f).eq_of_mem_iff (pairwise_append.2 ⟨dueUnits_ascending hs f,
      (dueUnits_ascending hs' f).sublist filter_sublist, fun u hu v hv => ?_⟩) fun u => ?_
    · exact (hle u hu).trans_lt (hbeyond v hv).2
    · rw [mem_append]
      constructor
      · intro hu
        by_cases hlt : p.state.durableSeq < firstOf u
        · exact .inr (mem_filter.2 ⟨hu, by simpa using hlt⟩)
        · left
          obtain ⟨hlater, hall⟩ := (hq.mem_dueUnits hL').1 hu
          -- A unit that is not past what was durable was there before.
          have hold : (p.disk.contents p.state).Later f u := by
            have ⟨id, hunit, _⟩ := hlater
            obtain ⟨e, he, hfirst⟩ := firstOf_mem (isUnit_of_mem_unitsOf (hq.sound.stored.mirror.log.units id) u hunit)
            refine (hc.comes u hlater).resolve_right fun hnew => ?_
            have : p.state.nextSeq ≤ e.sequence := hnew e he
            omega
          refine (hp.mem_dueUnits hL).2 ⟨hold, ?_⟩
          obtain ⟨id, hunit, -⟩ := hold
          obtain ⟨e, he, hfirst⟩ := firstOf_mem (isUnit_of_mem_unitsOf (hp.sound.stored.mirror.log.units id) u hunit)
          refine (hp.ordered.boundary id u hunit).resolve_right fun hgt => ?_
          have : p.state.durableSeq < e.sequence := hgt e he
          omega
      · rintro (hu | hu)
        · obtain ⟨hlater, hall⟩ := (hp.mem_dueUnits hL).1 hu
          exact (hq.mem_dueUnits hL').2 ⟨hc.stays u hlater, fun e he => (hall e he).trans hc.durable⟩
        · exact (hbeyond u hu).1
  rw [slice, slice, heq]
  refine filter_cutAfter_append (fun u hu e he => ?_) m
  obtain ⟨hdue, hlt⟩ := hbeyond u hu
  obtain ⟨⟨id, hunit, -⟩, -⟩ := (hq.mem_dueUnits hL').1 hdue
  have hlog := hq.sound.stored.mirror.log
  exact (hD.trans_lt hlt).trans_le (firstOf_le (hlog.written id) (hlog.units id) hunit he)

def machine : Machine Process Action where
  initial p := ∃ (dir : Directory) (sort : RangeSort) (recoveryThreads : ℕ) (strict : Bool) (mode : Mode) (r : Recovered),
    dir.Prepared ∧ dir.contents.Apart ∧ dir.recoveryOpen sort recoveryThreads strict = .ok r dir ∧ p = opened dir r mode
  Enabled := Enabled
  next := Process.next

section Run

variable {actions : List Action}

lemma kept_of_reachable (h : machine.Reachable p) : p.Kept := by
  refine h.invariant ?_ fun p a hp ha => hp.next a ha
  rintro p ⟨dir, sort, threads, strict, mode, r, hprep, hapart, hopen, rfl⟩
  obtain ⟨r', hopen', hr⟩ := hprep.recoveryOpen_apart sort _ strict hapart
  rw [hopen] at hopen'
  cases hopen'
  exact opened_kept mode hprep hapart hr

lemma Kept.run (h : p.Kept) (hrun : machine.Path p actions q) : q.Kept := by
  induction hrun with
  | nil => exact h
  | cons a ha _ ih => exact ih (h.next a ha)

lemma run_changeMarkers (hrun : machine.Path p actions q) :
    q.state.changeMarkers = p.state.changeMarkers ++ markersIn (actions.flatMap Action.written) := by
  induction hrun with
  | nil => exact (append_nil _).symm
  | @cons p q a actions _ _ ih =>
    have hnext := p.next_changeMarkers a
    rw [ih, flatMap_cons, markersIn_append, ← append_assoc, ← hnext]
    rfl

lemma Kept.run_continues (h : p.Kept) (hw : p.vacuum.Within f) (hrun : machine.Path p actions q)
    (ha : ∀ a ∈ actions, a.Within f) : Continues f p.held q.held := by
  induction hrun with
  | nil => exact .refl f _
  | cons a henabled _ ih =>
    have hstep := (h.sound.moves h.ordered hw a henabled).continues h.ordered
    exact hstep.trans (ih (h.next a henabled) (within_next hw (ha a mem_cons_self))
      fun b hb => ha b (mem_cons_of_mem a hb))

end Run

structure Leaves (p : Process) (dir : Directory) : Prop where
  disk : dir.disk = p.disk
  nodup : dir.names.Nodup
  complete : ∀ path, path ∈ dir.names ↔ (dir.disk.files.get path).isSome
  hints : ∀ path ∈ dir.names, flushHintsFor ⟨(dir.file path).entries, .zeros⟩ = some (dir.hint path).entries

section Reopen

variable {dir : Directory}

lemma Kept.exists_id (h : p.Kept) (hv : p.vacuum.extra = none) (hl : p.Leaves dir) {path : Path} (hpath : path ∈ dir.names) :
    ∃ id, p.state.files.get id = some path ∧ p.disk.contents p.state id = (dir.file path).entries := by
  have hsome := (hl.complete path).1 hpath
  rw [hl.disk] at hsome
  obtain ⟨id, hid⟩ := (h.listed path hsome).resolve_right fun hextra => by rw [hv] at hextra; cases hextra
  obtain ⟨file, hfile⟩ := Option.isSome_iff_exists.1 hsome
  refine ⟨id, hid, ?_⟩
  rw [Disk.contents, hid, Option.bind_some, hfile, Directory.file, hl.disk, hfile]
  rfl

lemma Kept.prepared (h : p.Kept) (hv : p.vacuum.extra = none) (hl : p.Leaves dir) : dir.Prepared := by
  have hm := h.sound.stored.mirror
  refine ⟨hl.nodup, hl.complete, ?_, fun path hpath => ?_, fun path hpath => ?_, fun path hpath => ?_,
    fun path hpath => ?_, hl.hints⟩
  · rw [hl.disk]
    exact h.sound.stored.named
  · obtain ⟨id, hid, -⟩ := h.exists_id hv hl hpath
    obtain ⟨file, hfile⟩ := Option.isSome_iff_exists.1 ((hl.complete path).1 hpath)
    rw [Directory.file, hfile]
    exact h.sound.stored.clean id path file hid (hl.disk ▸ hfile)
  all_goals obtain ⟨id, -, hid⟩ := h.exists_id hv hl hpath
  · exact hid ▸ hm.log.written id
  · exact hid ▸ hm.log.units id
  · exact hid ▸ h.ordered.fits id

lemma Kept.apart (h : p.Kept) (hv : p.vacuum.extra = none) (hl : p.Leaves dir) : dir.contents.Apart := by
  intro i j hij
  rw [Directory.contents, Directory.contents]
  cases hi : dir.names[i]? with
  | none => simp
  | some path =>
    cases hj : dir.names[j]? with
    | none => simp
    | some path' =>
      obtain ⟨id, hid, hc⟩ := h.exists_id hv hl (mem_of_getElem? hi)
      obtain ⟨id', hid', hc'⟩ := h.exists_id hv hl (mem_of_getElem? hj)
      have hne : id ≠ id' := by
        rintro rfl
        obtain rfl := Option.some.inj (hid.symm.trans hid')
        obtain ⟨hlt, hget⟩ := List.getElem?_eq_some_iff.1 hi
        obtain ⟨hlt', hget'⟩ := List.getElem?_eq_some_iff.1 hj
        exact hij ((hl.nodup.getElem_inj_iff).1 (hget.trans hget'.symm))
      have hap := h.ordered.apart id id' hne
      simp only [held, hc, hc'] at hap
      exact hap

lemma Kept.mem_contents (h : p.Kept) (hv : p.vacuum.extra = none) (hl : p.Leaves dir) {es : List DataEntry}
    (hne : es ≠ []) : (∃ i, dir.contents i = es) ↔ ∃ id, p.disk.contents p.state id = es := by
  constructor
  · rintro ⟨i, rfl⟩
    cases hi : dir.names[i]? with
    | none =>
      rw [Directory.contents, hi] at hne
      exact absurd rfl hne
    | some path =>
      obtain ⟨id, -, hc⟩ := h.exists_id hv hl (mem_of_getElem? hi)
      exact ⟨id, by rw [hc, Directory.contents_eq hi]⟩
  · rintro ⟨id, rfl⟩
    cases hid : p.state.files.get id with
    | none =>
      rw [Disk.contents, hid] at hne
      exact absurd rfl hne
    | some path =>
      have hsome := h.sound.stored.present id path hid
      rw [← hl.disk] at hsome
      obtain ⟨i, hlt, hi⟩ := mem_iff_getElem.1 ((hl.complete path).2 hsome)
      obtain ⟨id', hid', hc⟩ := h.exists_id hv hl (hi ▸ getElem_mem hlt)
      obtain rfl := h.sound.stored.apart id id' path hid hid'
      exact ⟨i, by rw [hc, Directory.contents_eq (List.getElem?_eq_some_iff.2 ⟨hlt, hi⟩)]⟩

lemma Kept.reopen_changeMarkers (h : p.Kept) (hv : p.vacuum.extra = none) (hl : p.Leaves dir) (sort : RangeSort)
    (recoveryThreads : ℕ) (strict : Bool) : ∃ r, dir.recoveryOpen sort recoveryThreads strict = .ok r dir ∧
      r.state.changeMarkers = p.state.changeMarkers := by
  have hprep := h.prepared hv hl
  have hapart := h.apart hv hl
  obtain ⟨r, hopen, hr⟩ := hprep.recoveryOpen_apart sort _ strict hapart
  have hk := (opened_stored .leader hprep hapart hr).mirror
  rw [opened_contents .leader hprep hr] at hk
  have hm := h.sound.stored.mirror
  refine ⟨r, hopen, hk.ordered.eq_of_mem_iff hm.ordered fun m => (hk.markers m).trans ?_ |>.trans (hm.markers m).symm⟩
  have hne : ∀ {es : List DataEntry}, m ∈ markersIn es → es ≠ [] := by
    rintro _ hmem rfl
    cases hmem
  constructor
  · rintro ⟨i, hmem⟩
    obtain ⟨id, hid⟩ := (h.mem_contents hv hl (hne hmem)).1 ⟨i, rfl⟩
    exact ⟨id, hid ▸ hmem⟩
  · rintro ⟨id, hmem⟩
    obtain ⟨i, hi⟩ := (h.mem_contents hv hl (hne hmem)).2 ⟨id, rfl⟩
    exact ⟨i, hi ▸ hmem⟩

end Reopen

/-- From before a call of `vacuum` to any point after it, with writes, rotations, syncs and changes of mode at any
point between its steps. -/
theorem vacuum_unseen {actions : List Action} (hp : machine.Reachable p) (hidle : p.vacuum = .idle)
    (hrun : machine.Path p actions q) :
    (∀ f, (∀ a ∈ actions, a.Within f) → ∀ m, (∃ es, p.ChangesSince f m es) ∧ (∃ es', q.ChangesSince f m es') ∧
      ∀ D ≤ p.state.durableSeq, ∀ es es', p.ChangesSince f m es → q.ChangesSince f m es' →
        es'.filter (fun e => e.sequence ≤ D) = es.filter (fun e => e.sequence ≤ D)) ∧
    (∀ X, markerAt q.state.changeMarkers X =
      markerAt (p.state.changeMarkers ++ markersIn (actions.flatMap Action.written)) X) ∧
    (q.vacuum = .idle → ∀ dir, q.Leaves dir → ∀ sort recoveryThreads strict, ∃ r,
      dir.recoveryOpen sort recoveryThreads strict = .ok r dir ∧
        ∀ X, markerAt r.state.changeMarkers X = markerAt q.state.changeMarkers X) := by
  have hkp := kept_of_reachable hp
  have hkq := hkp.run hrun
  refine ⟨fun f ha m => ⟨hkp.exists_changesSince f m, hkq.exists_changesSince f m, fun D hD es es' h h' => ?_⟩,
    fun X => ?_, fun hq dir hl sort threads strict => ?_⟩
  · have hw : p.vacuum.Within f := by rw [hidle]; trivial
    exact hkp.filter_changesSince hkq (hkp.run_continues hw hrun ha) h h' hD
  · rw [run_changeMarkers hrun]
  · obtain ⟨r, hopen, hmarkers⟩ := hkq.reopen_changeMarkers (by rw [hq]; rfl) hl sort _ strict
    exact ⟨r, hopen, fun X => by rw [hmarkers]⟩

section Overwritten

def freshDirectory : Directory := ⟨{}, [], fun _ => ⟨[]⟩⟩

def sortByMin : RangeSort where
  sort ranges := ranges.insertionSort (fun a b => a.min ≤ b.min)
  perm ranges := perm_insertionSort _ ranges
  sorted ranges := by
    have htotal : Std.Total (fun a b : SequenceRange => a.min ≤ b.min) := ⟨fun a b => le_total a.min b.min⟩
    have htrans : IsTrans SequenceRange (fun a b => a.min ≤ b.min) := ⟨fun _ _ _ => le_trans⟩
    exact pairwise_insertionSort _ ranges

def freshProcess : Process := opened freshDirectory ⟨{}, {}⟩ .leader

lemma freshProcess_initial : machine.initial freshProcess := by
  have hnone : ∀ path, ¬ (freshDirectory.disk.files.get path).isSome := fun path h => by cases h
  refine ⟨freshDirectory, sortByMin, 1, false, .leader, ⟨{}, {}⟩, ⟨nodup_nil, fun path => ?_, fun path h => ?_,
    nofun, nofun, nofun, nofun, nofun⟩, fun i j _ => .inl ?_, rfl, rfl⟩
  · exact ⟨nofun, fun h => absurd h (hnone path)⟩
  · exact absurd h (hnone path)
  · simp [freshDirectory, Directory.contents]

lemma freshProcess_reachable : machine.Reachable freshProcess := .start freshProcess_initial

lemma enabled_put {n : ℕ} {k v : Bytes} (hn : p.state.nextSeq ≤ n) (hpos : n ≠ 0) (hlt : n < 256 ^ 8)
    (hk : k.length < 256 ^ 2) (hv : v.length < 256 ^ 4) : p.Enabled (.write [⟨n, .put, k, v⟩]) := by
  refine ⟨⟨by simp, ⟨by simp [DataEntry.Shaped], pairwise_singleton _ _, by simpa using Nat.pos_of_ne_zero hpos⟩,
    .cons (.single (by simp)) .nil, by simpa using hn⟩, ?_⟩
  rintro e he
  obtain rfl := mem_singleton.1 he
  exact ⟨hpos, hlt, hk, hv, (by simp)⟩

def overwriting : List Action :=
  [.write [⟨1, .put, [1], [5]⟩], .write [⟨2, .put, [2], [6]⟩], .rotate, .write [⟨3, .put, [1], [7]⟩], .sync]

def overwritten : Process := overwriting.foldl Process.next freshProcess

def vacuuming : List Action :=
  [.begin 0 2, .choose, .place, .write [⟨4, .put, [3], [8]⟩], .reserve, .commit, .unlink, .begin 0 2, .choose]

def vacuumed : Process := vacuuming.foldl Process.next overwritten

lemma overwriting_run : machine.Path freshProcess overwriting overwritten := by
  refine .cons _ ?_ (.cons _ ?_ (.cons _ trivial (.cons _ ?_ (.cons _ trivial (.nil _)))))
  all_goals exact enabled_put (by decide +kernel) (by decide) (by decide) (by decide) (by decide)

lemma vacuuming_run : machine.Path overwritten vacuuming vacuumed := by
  refine .cons _ trivial (.cons _ trivial (.cons _ trivial (.cons _ ?_ (.cons _ trivial (.cons _ trivial
    (.cons _ trivial (.cons _ trivial (.cons _ trivial (.nil _)))))))))
  exact enabled_put (by decide +kernel) (by decide) (by decide) (by decide) (by decide)

theorem vacuumed_unseen : vacuumed.disk.files.entries.map Prod.fst = [1, 2] ∧
    (∀ es es', overwritten.ChangesSince 2 100 es → vacuumed.ChangesSince 2 100 es' →
      es'.filter (fun e => e.sequence ≤ 3) = es.filter (fun e => e.sequence ≤ 3)) := by
  have h := vacuum_unseen (overwriting_run.reachable freshProcess_reachable) (by rfl) vacuuming_run
  refine ⟨by decide +kernel, fun es es' hes hes' => ?_⟩
  exact (h.1 2 (by simp [vacuuming, Action.Within]) 100).2.2 3 (by decide +kernel) es es' hes hes'

end Overwritten

end Process

end Bytecask
