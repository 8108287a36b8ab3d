import Bytecask.Groups
import Bytecask.Ingestion
import Bytecask.Recovery.Reopen

/-! Runs of one process, from the directory it created, and the recovery of what they leave. -/

namespace Bytecask

open SortedMap

def Db.opened (mode : Mode) : Db :=
  let s : EngineState :=
    { files := SortedMap.empty.insert 0 0, fileStats := SortedMap.empty.insert 0 {}, nextFileId := 1, mode }
  { disk := ({} : Disk).create, published := s, head := s }

/-- A step of the engine that other threads see as one. A write is a group step, and the flush that covers it. -/
inductive Call where
  | group (batch : List Slot)
  | flush
  | setMode (mode : Mode) (id : MarkerId)
  | createManifest
  | ingest (header : ChangeHeader) (entries : List DataEntry)

namespace Call

def run (cfg : Config) : Call → Op Unit
  | group batch => do let _ ← Db.executeGroup cfg batch
  | flush => Db.flushPending
  | setMode mode id => Db.setMode cfg mode id
  | createManifest => Db.createManifest
  | ingest header entries => Db.ingest cfg header entries

/-- Plans read snapshots of states that were published, and a slice is as `changes_since` makes it. -/
def Allowed (past : List EngineState) : Call → Prop
  | group batch => ∀ slot ∈ batch, ∀ s, slot.plan.snap = some s → s ∈ past
  | ingest _ entries => ∀ e ∈ entries, e.Shaped
  | _ => True

def Completes (cfg : Config) (c : Call) (db db' : Db) : Prop :=
  c.run cfg db = .ok () db' ∨ ∃ e, e ≠ .stopped ∧ c.run cfg db = .error e db'

end Call

def Call.next (cfg : Config) (c : Call) (db : Db) : Db :=
  match c.run cfg db with
  | .ok _ db' => db'
  | .error _ db' => db'

def Call.returns (cfg : Config) (c : Call) (db : Db) : Bool :=
  match c.run cfg db with
  | .ok _ _ => true
  | .error _ _ => false

lemma Call.run_eq_ok {cfg : Config} {c : Call} {db : Db} (h : c.returns cfg db = true) :
    c.run cfg db = .ok () (c.next cfg db) := by
  rw [next]
  rw [returns] at h
  cases hrun : c.run cfg db with
  | ok a db' => rfl
  | error e db' =>
    rw [hrun] at h
    cases h

/-- Runs in which nothing fails: no call leaves the engine degraded. `past` has the state published at the end of each call. -/
inductive Run (cfg : Config) : List EngineState → Db → Prop
  | opened (mode : Mode) : Run cfg [(Db.opened mode).published] (Db.opened mode)
  | step {past : List EngineState} {db db' : Db} (c : Call) : Run cfg past db → c.Allowed past →
      c.Completes cfg db db' → db'.refused = false → Run cfg (db'.published :: past) db'

section Growth

variable {a b : Disk × EngineState}

lemma Grows.contents_eq (h : Stored a.1 a.2) (hg : Grows a b) :
    (b.1.contents b.2 = a.1.contents a.2 ∧ b.2.nextSeq = a.2.nextSeq) ∨ ∃ es, Appendable a.2 es ∧
      b.1.contents b.2 = (a.1.contents a.2).extend a.2.activeFileId es ∧ b.2.nextSeq = lastSeq es + 1 := by
  cases hg with
  | @append d s es hes =>
    refine .inr ⟨es, hes, ?_, s.applyIngest_nextSeq _ hes⟩
    exact (Disk.contents_congr (s.applyIngest_files _ hes)).trans (h.contents_append es)
  | rotate => exact .inl ⟨h.contents_rotated, rfl⟩
  | reserve | flag => exact .inl ⟨rfl, rfl⟩
  | sync | shrink => exact .inl ⟨Disk.contents_adjust_entries _ _ _ fun _ => rfl, rfl⟩

lemma GrowsTo.recordAt (h : Stored a.1 a.2) (hg : GrowsTo a b) {k : Bytes} {e : KeyDirEntry}
    (hr : (a.1.contents a.2).RecordAt k e) : (b.1.contents b.2).RecordAt k e := by
  induction hg with
  | refl => exact hr
  | tail hab hbc ih =>
    rcases hbc.contents_eq (h.growsTo hab) with ⟨heq, -⟩ | ⟨es, -, heq, -⟩
    · rw [heq]
      exact ih
    · rw [heq]
      exact ih.extend _ _

lemma GrowsTo.reached (h : Stored a.1 a.2) (hg : GrowsTo a b) (hr : Recovery.Reached (a.1.contents a.2) a.2) :
    Recovery.Reached (b.1.contents b.2) b.2 := by
  induction hg with
  | refl => exact hr
  | @tail b c hab hbc ih =>
    rcases hbc.contents_eq (h.growsTo hab) with ⟨heq, hseq⟩ | ⟨es, hes, heq, hseq⟩
    · rw [Recovery.Reached, heq, hseq]
      exact ih
    · obtain ⟨e, he, hlast⟩ := hes.written.lastSeq_mem hes.nonempty
      refine .inr ⟨b.2.activeFileId, e, ?_, ?_⟩
      · rw [heq, Contents.extend_self]
        exact List.mem_append_right _ he
      · rw [hseq, hlast]

def Disk.Listed (d : Disk) (s : EngineState) : Prop := ∀ p, (d.files.get p).isSome → ∃ id, s.files.get id = some p

lemma Disk.Listed.adjust {d : Disk} {s : EngineState} (h : d.Listed s) (p : Path) (f : DiskFile → DiskFile) :
    (d.adjust p f).Listed s := by
  intro q hq
  rw [get_adjust] at hq
  refine h q ?_
  split_ifs at hq with hp
  · rwa [Option.isSome_map, ← hp] at hq
  · exact hq

lemma Grows.listed (h : Stored a.1 a.2) (hg : Grows a b) (hl : a.1.Listed a.2) : b.1.Listed b.2 := by
  cases hg with
  | @append d s es hes =>
    intro p hp
    simp only [s.applyIngest_files _ hes]
    exact hl.adjust _ _ p hp
  | @rotate d s =>
    intro p hp
    simp only [h.files_rotated]
    by_cases hnew : p = d.nextPath
    · exact ⟨s.nextFileId, by rw [hnew, get_insert_self]⟩
    · simp only [Disk.create, get_insert_ne _ _ hnew] at hp
      obtain ⟨id, hid⟩ := hl p hp
      have hne : id ≠ s.nextFileId := fun he => by
        rw [he, h.next_unused] at hid
        cases hid
      exact ⟨id, by rw [get_insert_ne _ _ hne, hid]⟩
  | reserve | flag => exact hl
  | sync | shrink => exact hl.adjust _ _

lemma GrowsTo.listed (h : Stored a.1 a.2) (hg : GrowsTo a b) (hl : a.1.Listed a.2) : b.1.Listed b.2 := by
  induction hg with
  | refl => exact hl
  | tail hab hbc ih => exact hbc.listed (h.growsTo hab) ih

end Growth

section Opened

variable (mode : Mode)

lemma Db.opened_contents : (opened mode).disk.contents (opened mode).published = fun _ => [] := by
  funext id
  by_cases hid : id = 0
  · subst hid
    rfl
  · have hnone : (opened mode).published.files.get id = none := get_insert_ne _ _ hid
    rw [Disk.contents, hnone]
    rfl

lemma Db.opened_mirror : Mirror (fun _ => []) (opened mode).published where
  log := ⟨fun _ => ⟨by simp, .nil, by simp⟩, fun _ => .nil, by simp⟩
  indexed := by
    constructor
    · intro k d
      constructor
      · intro hd
        cases hd
      · rintro ⟨⟨v, hv, -⟩, -⟩
        cases hv
    · intro id st hst
      change (SortedMap.empty.insert 0 {}).get id = some st at hst
      rw [get_insert, get_empty] at hst
      split_ifs at hst
      cases hst
      rfl
  known _ hne := absurd rfl hne
  active := rfl
  positive := Nat.one_pos
  below := by simp
  ordered := .nil
  markers m := by
    constructor
    · intro hm
      cases hm
    · rintro ⟨id, hm⟩
      cases hm

lemma Db.opened_files {id : FileId} {p : Path} : (opened mode).published.files.get id = some p ↔ id = 0 ∧ p = 0 := by
  change (SortedMap.empty.insert 0 0).get id = some p ↔ _
  rw [get_insert, get_empty]
  split_ifs with hid <;> simp [hid, eq_comm]

lemma Db.opened_disk {p : Path} {f : DiskFile} : (opened mode).disk.files.get p = some f ↔ p = 0 ∧ f = {} := by
  change (SortedMap.empty.insert 0 {}).get p = some f ↔ _
  rw [get_insert, get_empty]
  split_ifs with hp <;> simp [hp, eq_comm]

lemma Db.opened_stored : Stored (opened mode).disk (opened mode).published where
  mirror := opened_contents mode ▸ opened_mirror mode
  apart id id' p hid hid' := ((opened_files mode).1 hid).1.trans ((opened_files mode).1 hid').1.symm
  present id p hp := by
    rw [((opened_files mode).1 hp).2]
    rfl
  known id := by
    change ((SortedMap.empty.insert 0 0).get id).isSome = ((SortedMap.empty.insert 0 ({} : FileStats)).get id).isSome
    rw [get_insert, get_insert]
    split_ifs <;> rfl
  ids id hid := by
    obtain ⟨p, hp⟩ := Option.isSome_iff_exists.1 hid
    rw [((opened_files mode).1 hp).1]
    exact Nat.one_pos
  named p hp := by
    obtain ⟨f, hf⟩ := Option.isSome_iff_exists.1 hp
    rw [((opened_disk mode).1 hf).1]
    exact Nat.one_pos
  clean id p f _ hf := by
    rw [((opened_disk mode).1 hf).2]
    exact ⟨rfl, rfl⟩

lemma Db.opened_healthy : Healthy (opened mode) :=
  ⟨opened_stored mode, rfl, rfl, rfl, le_rfl, Nat.one_pos, fun _ => rfl⟩

lemma Db.opened_live : Live (opened mode).disk (opened mode) := (opened_healthy mode).live_of_head rfl

lemma Db.opened_listed : (opened mode).disk.Listed (opened mode).published := by
  intro p hp
  obtain ⟨f, hf⟩ := Option.isSome_iff_exists.1 hp
  exact ⟨0, (opened_files mode).2 ⟨rfl, ((opened_disk mode).1 hf).1⟩⟩

end Opened

section Run

variable {past : List EngineState} {db : Db}

lemma Call.settled (cfg : Config) {d : Disk} (h : Db.Live d db) (c : Call) (hc : c.Allowed past)
    (hpast : ∀ s ∈ past, ∃ d₁, Stored d₁ s ∧ GrowsTo (d₁, s) (d, db.published)) :
    (c.run cfg).wp (fun _ => Db.Settled (d, db.published)) (Db.Thrown (d, db.published)) db := by
  cases c with
  | group batch =>
    simp only [Call.run, EStateM.wp_bind, EStateM.wp_pure]
    refine Db.executeGroup_settled h (fun slot hslot k e he => .inl ?_)
    -- The snapshot's records were in the files when its state was published.
    obtain ⟨s, hs, hget⟩ := Option.bind_eq_some_iff.1 he
    obtain ⟨d₁, hstored, hg⟩ := hpast s (hc slot hslot s hs)
    exact GrowsTo.recordAt hstored (hg.trans h.ahead.growsTo) ((hstored.mirror.indexed.keys k e).1 hget).1
  | flush => exact Db.flushPending_settled h
  | setMode mode id => exact Db.setMode_settled h cfg mode id
  | createManifest => exact Db.createManifest_settled h
  | ingest header entries => exact Db.ingest_settled h cfg header hc

lemma Run.live {cfg : Config} (h : Run cfg past db) : ∃ mode d, Db.Live d db ∧
    GrowsTo (Db.opened mode).start (d, db.published) ∧
      ∀ s ∈ past, ∃ d₁, Stored d₁ s ∧ GrowsTo (d₁, s) (d, db.published) := by
  induction h with
  | opened mode =>
    refine ⟨mode, _, Db.opened_live mode, .refl, fun s hs => ?_⟩
    rw [List.mem_singleton.1 hs]
    exact ⟨_, Db.opened_stored mode, .refl⟩
  | @step past db db' c hrun hc hdone hfine ih =>
    obtain ⟨mode, d, hl, hg, hpast⟩ := ih
    have hset : Db.Settled (d, db.published) db' := by
      have hwp := Call.settled cfg hl c hc hpast
      rcases hdone with hok | ⟨e, he, herr⟩
      · rw [EStateM.wp, hok] at hwp
        exact hwp
      · rw [EStateM.wp, herr] at hwp
        exact (if_neg he).mp hwp
    rcases hset with ⟨d', hl', hg'⟩ | hi
    · refine ⟨mode, d', hl', hg.trans hg', fun s hs => ?_⟩
      rcases List.mem_cons.1 hs with rfl | hs
      · exact ⟨d', hl'.stored, .refl⟩
      · obtain ⟨d₁, hs₁, hg₁⟩ := hpast s hs
        exact ⟨d₁, hs₁, hg₁.trans hg'⟩
    · rw [hi.refused] at hfine
      cases hfine

end Run

structure Listing (d : Disk) (number : Path → FileId) (hint : Path → HintFile) (order : List Path) : Prop where
  nodup : order.Nodup
  complete : ∀ p, p ∈ order ↔ (d.files.get p).isSome
  numbered : Set.InjOn number { p | p ∈ order }
  hints : ∀ p f, d.files.get p = some f → flushHintsFor f.data = some (hint p).entries

def Disk.recoveredFiles (d : Disk) (number : Path → FileId) (hint : Path → HintFile) (order : List Path) :
    List Recovery.RecoveredFile :=
  order.map (fun p => ⟨number p, some (hint p), d.size p⟩)

section Listing

variable {d : Disk} {s : EngineState} {number : Path → FileId} {hint : Path → HintFile} {order : List Path}

lemma EngineState.pathOf_eq {id : FileId} {p : Path} (h : s.files.get id = some p) : s.pathOf id = p := by
  rw [pathOf, h]
  rfl

lemma Stored.contents_eq (h : Stored d s) {id : FileId} {p : Path} (hp : s.files.get id = some p) :
    ∃ f, d.files.get p = some f ∧ d.contents s id = f.entries ∧ f.data = ⟨f.entries, .zeros⟩ := by
  obtain ⟨f, hf⟩ := Option.isSome_iff_exists.1 (h.present id p hp)
  obtain ⟨hb, ht⟩ := h.clean id p f hp hf
  refine ⟨f, hf, ?_, ?_⟩
  · rw [Disk.contents, hp, Option.bind_some, hf]
    rfl
  · rw [DiskFile.data, hb, ht, List.append_nil]

lemma Listing.ids (hl : Listing d number hint order) (hd : d.Listed s) :
    ∃ ids : List FileId, ids.map s.pathOf = order ∧ ∀ id ∈ ids, s.files.get id = some (s.pathOf id) := by
  have hall : ∀ p ∈ order, ∃ id, s.files.get id = some p := fun p hp => hd p ((hl.complete p).1 hp)
  clear hl
  induction order with
  | nil => exact ⟨[], rfl, by simp⟩
  | cons p order ih =>
    obtain ⟨id, hid⟩ := hall p List.mem_cons_self
    obtain ⟨ids, hids, hfiles⟩ := ih (fun q hq => hall q (List.mem_cons_of_mem p hq))
    have hp := EngineState.pathOf_eq hid
    refine ⟨id :: ids, by rw [List.map_cons, hp, hids], fun j hj => ?_⟩
    rcases List.mem_cons.1 hj with rfl | hj
    · rw [hp, hid]
    · exact hfiles j hj

lemma Listing.reopening (hl : Listing d number hint order) (h : Stored d s) (hd : d.Listed s) :
    ∃ ids, Recovery.Reopening (d.contents s) s (number ∘ s.pathOf) (hint ∘ s.pathOf) ids ∧
      Recovery.reopenFiles (d.contents s) (number ∘ s.pathOf) (hint ∘ s.pathOf) ids =
        d.recoveredFiles number hint order := by
  obtain ⟨ids, rfl, hfiles⟩ := hl.ids hd
  have hmem : ∀ id, id ∈ ids ↔ (s.files.get id).isSome := by
    intro id
    constructor
    · exact fun hid => by rw [hfiles id hid]; rfl
    · intro hid
      obtain ⟨p, hp⟩ := Option.isSome_iff_exists.1 hid
      obtain ⟨j, hj, hpj⟩ := List.mem_map.1 ((hl.complete p).2 (h.present id p hp))
      have heq : j = id := h.apart j id p (hpj ▸ hfiles j hj) hp
      exact heq ▸ hj
  refine ⟨ids, ⟨hl.nodup.of_map _, ?_, ?_, ?_⟩, ?_⟩
  · intro id
    rw [hmem, h.known]
  · intro id hid id' hid' heq
    have hpath : s.pathOf id = s.pathOf id' :=
      hl.numbered (List.mem_map_of_mem hid) (List.mem_map_of_mem hid') heq
    exact h.apart id id' _ (hfiles id hid) (hpath ▸ hfiles id' hid')
  · intro id hid
    obtain ⟨f, hf, hc, hdata⟩ := h.contents_eq (hfiles id hid)
    rw [hc, ← hdata]
    exact hl.hints _ f hf
  · rw [Recovery.reopenFiles, Disk.recoveredFiles, List.map_map]
    refine List.map_congr_left fun id hid => ?_
    obtain ⟨f, hf, hc, -⟩ := h.contents_eq (hfiles id hid)
    have hsize : d.size (s.pathOf id) = bytesOf f.entries := by
      rw [Disk.size, hf]
      rfl
    simp only [Function.comp_apply, hc, hsize]

def Disk.hintFor (d : Disk) (p : Path) : HintFile :=
  ⟨[((d.files.get p).bind (fun f => flushHintsFor f.data)).getD []]⟩

lemma Stored.listing (h : Stored d s) (hd : d.Listed s) : Listing d id d.hintFor d.files.keys where
  nodup := d.files.sorted.imp (fun hlt => hlt.ne) |>.map _ (fun _ _ hne => hne)
  complete p := by rw [mem_keys, Option.isSome_iff_exists]
  numbered := Set.injOn_id _
  hints p f hf := by
    obtain ⟨id, hid⟩ := hd p (by rw [hf]; rfl)
    obtain ⟨g, hg, hc, hdata⟩ := h.contents_eq hid
    obtain rfl : g = f := Option.some.inj (hg.symm.trans hf)
    obtain ⟨hs, hflush, -⟩ := Recovery.flushHintsFor_spec (h.mirror.log.units id)
    rw [hc, ← hdata] at hflush
    have hentries : (d.hintFor p).entries = ((flushHintsFor g.data).getD []) := by
      simp [Disk.hintFor, hf, HintFile.entries]
    rw [hentries, hflush]
    rfl

end Listing

/-- What recovery builds from the files of a directory is the state that mirrors it, in recovery's numbering. -/
lemma Stored.rebuilt {d : Disk} {s : EngineState} (h : Stored d s) (hd : d.Listed s)
    (hn : Recovery.Reached (d.contents s) s) {number : Path → FileId} {hint : Path → HintFile} {order : List Path}
    (hl : Listing d number hint order) {s₀ : EngineState} (hs₀ : Recovery.Fresh s₀) (threads : ℕ) (strict : Bool) :
    ∃ r, Recovery.recoveryLoadStreams s₀ (d.recoveredFiles number hint order) threads strict = .ok r ∧
      r.state.keyDir = s.keyDir.map (Recovery.renumber (number ∘ s.pathOf)) ∧
      r.state.changeMarkers = s.changeMarkers ∧ r.state.nextSeq = s.nextSeq ∧
      ∀ id p, s.files.get id = some p → r.state.fileStats.get (number p) = s.fileStats.get id := by
  obtain ⟨ids, hr, hfiles⟩ := hl.reopening h hd
  obtain ⟨r, hok, hkeys, hmarkers, hseq, hstats⟩ := hr.recovers h.mirror hn hs₀ _ strict
  refine ⟨r, hfiles ▸ hok, hkeys, hmarkers, hseq, fun id p hp => ?_⟩
  have hid : id ∈ ids := (hr.complete id).2 (by rw [← h.known, hp]; rfl)
  have hstat := hstats id hid
  rwa [Function.comp_apply, EngineState.pathOf_eq hp] at hstat

/-- What recovery builds from the files of a run is the state of the run, in recovery's numbering. -/
theorem Run.recovered {cfg : Config} {past : List EngineState} {db : Db} (h : Run cfg past db)
    {number : Path → FileId} {hint : Path → HintFile} {order : List Path} (hl : Listing db.disk number hint order)
    {s₀ : EngineState} (hs₀ : Recovery.Fresh s₀) (threads : ℕ) (strict : Bool) :
    ∃ r, Recovery.recoveryLoadStreams s₀ (db.disk.recoveredFiles number hint order) threads strict = .ok r ∧
      r.state.keyDir = db.head.keyDir.map (Recovery.renumber (number ∘ db.head.pathOf)) ∧
      r.state.changeMarkers = db.head.changeMarkers ∧ r.state.nextSeq = db.head.nextSeq ∧
      ∀ id p, db.head.files.get id = some p → r.state.fileStats.get (number p) = db.head.fileStats.get id := by
  obtain ⟨mode, d, hlive, hg, -⟩ := h.live
  have hgrown := hg.trans hlive.ahead.growsTo
  have hlisted := GrowsTo.listed (Db.opened_stored mode) hgrown (Db.opened_listed mode)
  have hreached := GrowsTo.reached (Db.opened_stored mode) hgrown (.inl rfl)
  exact ((Db.opened_stored mode).growsTo hgrown).rebuilt hlisted hreached hl hs₀ _ strict

def sampleConfig : Config := { rotationThreshold := 1000 }

def sampleCalls : List Call :=
  [.group [{ plan := { writes := [.pointPut [1] [7, 7], .pointPut [2] [8], .rangeDel [1] [2]], guards_snap := WritePlan.unguarded } }],
    .flush, .setMode .follower 0, .ingest { fromSequence := 5 } [⟨6, .put, [], [9]⟩, ⟨7, .delete, [2], []⟩],
    .createManifest, .setMode .leader 3]

def sampleRun (n : ℕ) : Db := (sampleCalls.take n).foldl (fun db c => c.next sampleConfig db) (Db.opened .leader)

lemma sampleRun_succ {n : ℕ} {c : Call} (hc : sampleCalls[n]? = some c) (past : List EngineState)
    (h : Run sampleConfig past (sampleRun n)) (ha : c.Allowed past) (hr : c.returns sampleConfig (sampleRun n) = true)
    (hf : (sampleRun (n + 1)).refused = false) :
    Run sampleConfig ((sampleRun (n + 1)).published :: past) (sampleRun (n + 1)) := by
  have hnext : sampleRun (n + 1) = c.next sampleConfig (sampleRun n) := by
    rw [sampleRun, List.take_add_one, hc, List.foldl_append]
    rfl
  rw [hnext] at hf ⊢
  exact .step c h ha (.inl (Call.run_eq_ok hr)) hf

lemma sampleRun_run : ∃ past, Run sampleConfig past (sampleRun 6) := by
  have h₀ : Run sampleConfig _ (sampleRun 0) := .opened .leader
  have h₁ := sampleRun_succ rfl _ h₀ (by simp [Call.Allowed]) (by decide +kernel) (by decide +kernel)
  have h₂ := sampleRun_succ rfl _ h₁ (by simp [Call.Allowed]) (by decide +kernel) (by decide +kernel)
  have h₃ := sampleRun_succ rfl _ h₂ (by simp [Call.Allowed]) (by decide +kernel) (by decide +kernel)
  have h₄ := sampleRun_succ rfl _ h₃ (by simp [Call.Allowed, DataEntry.Shaped]) (by decide +kernel) (by decide +kernel)
  have h₅ := sampleRun_succ rfl _ h₄ (by simp [Call.Allowed]) (by decide +kernel) (by decide +kernel)
  exact ⟨_, sampleRun_succ rfl _ h₅ (by simp [Call.Allowed]) (by decide +kernel) (by decide +kernel)⟩

theorem sampleRun_recovered :
    (sampleRun 6).head.keyDir.entries.map Prod.fst = [[]] ∧ (sampleRun 6).disk.files.keys = [0, 1] ∧
      ∃ r, Recovery.recoveryLoadStreams {} ((sampleRun 6).disk.recoveredFiles id (sampleRun 6).disk.hintFor
          (sampleRun 6).disk.files.keys) 2 true = .ok r ∧
        r.state.keyDir = (sampleRun 6).head.keyDir.map (Recovery.renumber (id ∘ (sampleRun 6).head.pathOf)) ∧
        r.state.changeMarkers = (sampleRun 6).head.changeMarkers ∧ r.state.nextSeq = (sampleRun 6).head.nextSeq ∧
        ∀ i p, (sampleRun 6).head.files.get i = some p →
          r.state.fileStats.get (id p) = (sampleRun 6).head.fileStats.get i := by
  obtain ⟨past, hrun⟩ := sampleRun_run
  obtain ⟨mode, d, hlive, hg, -⟩ := hrun.live
  have hgrown := hg.trans hlive.ahead.growsTo
  have hlisted := GrowsTo.listed (Db.opened_stored mode) hgrown (Db.opened_listed mode)
  have hlisting := ((Db.opened_stored mode).growsTo hgrown).listing hlisted
  exact ⟨by decide +kernel, by decide +kernel, hrun.recovered hlisting ⟨rfl, rfl, rfl, rfl⟩ 2 true⟩

/-- Every sync asked for is done, and what a follower has is durable. -/
def EngineState.Synced (s : EngineState) : Prop :=
  s.degraded = false ∧ s.syncRequestedSeq ≤ s.durableSeq ∧ s.durableSeq < s.nextSeq ∧
    (s.mode = .follower → s.durableSeq + 1 = s.nextSeq)

lemma Db.Live.synced {d : Disk} {db : Db} (h : Live d db) : db.published.Synced := by
  refine ⟨h.degraded, h.requested, h.durable, fun hf => le_antisymm h.durable ?_⟩
  exact h.ahead.nextSeq_le.trans_eq (h.position hf).symm

theorem Run.published_synced {cfg : Config} {past : List EngineState} {db : Db} (h : Run cfg past db) : ∀ s ∈ past, s.Synced := by
  induction h with
  | opened mode => exact List.forall_mem_singleton.2 (Db.opened_live mode).synced
  | step c hrun hc hdone hfine ih =>
    obtain ⟨_, _, hl, -⟩ := (Run.step c hrun hc hdone hfine).live
    exact List.forall_mem_cons.2 ⟨hl.synced, ih⟩

theorem sampleRun_synced : ∃ past, Run sampleConfig past (sampleRun 6) ∧ ∀ s ∈ past, s.Synced := by
  obtain ⟨past, h⟩ := sampleRun_run
  exact ⟨past, h, h.published_synced⟩

end Bytecask
