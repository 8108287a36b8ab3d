import Bytecask.Apply
import Bytecask.Blind.Append
import Bytecask.Blind.Same

/-! A commit group: the slots are applied to one transient, and their entries appended in one call. -/

namespace Bytecask

def WriteOp.Fits : WriteOp → Prop
  | .pointPut key value => key.length ≤ 65535 ∧ value.length < 256 ^ 4
  | .pointDel key => key.length ≤ 65535
  | .rangeDel lo hi => lo.length ≤ 65535 ∧ hi.length ≤ 65535

instance : DecidablePred WriteOp.Fits
  | .pointPut _ _ => inferInstanceAs (Decidable (_ ∧ _))
  | .pointDel _ => inferInstanceAs (Decidable (_ ≤ _))
  | .rangeDel _ _ => inferInstanceAs (Decidable (_ ∧ _))

end Bytecask

namespace Bytecask.Blind

open List

open PatchMap (FileStatsWords)

structure Head where
  keyDir : KeyDirTree := SortedMap.empty
  files : FileId → Option Bytes
  fileStats : SortedMap FileId FileStatsWords := SortedMap.empty
  activeFileId : FileId := 0
  nextFileId : FileId := 1
  nextSeq : ℕ := 1

inductive SlotResult where
  | committed (sequence : ℕ)
  | nothing (restsOn : ℕ)
  | conflict (restsOn : ℕ)
  | refused (e : DbError)
  | threw (e : ReadError)
deriving DecidableEq

def SlotOutcome.result {ε : Type} : SlotOutcome ε → SlotResult
  | .empty => .nothing 0
  | .conflict restsOn => .conflict restsOn
  | .nothing restsOn => .nothing restsOn
  | .refused e => .refused e
  | .applied _ entries => .committed ((entries.getLast?.map DataEntry.sequence).getD 0)

structure Staged where
  t : Transient ReadError
  entries : List DataEntry := []
  offset : ℕ
  offsets : List ℕ := []
  results : List SlotResult := []

def Staged.add (g : Staged) (o : SlotOutcome ReadError) : Staged :=
  match o with
  | .applied t entries =>
    { t
      entries := g.entries ++ entries
      offset := g.offset + bytesOf entries
      offsets := g.offsets ++ offsetsFrom g.offset entries
      results := g.results ++ [o.result] }
  | _ => { g with results := g.results ++ [o.result] }

lemma Staged.add_results (g : Staged) (o : SlotOutcome ReadError) : (g.add o).results = g.results ++ [o.result] := by
  cases o <;> rfl

/-- The slots of a group up to the cut. A read that throws leaves with what the slots before it were told. -/
def stageSlots (cfg : Config) (canRotate : Bool) :
    List (WritePlan ReadError) → Staged → Except (List SlotResult × ReadError) Staged
  | [], g => .ok g
  | p :: ps, g =>
    if g.results ≠ [] ∧ cfg.maxGroupFileBytes < g.offset + p.writeBytes then .ok g
    else do
      let o ← (executeSlot cfg false canRotate g.t g.offset p).mapError (Prod.mk g.results)
      stageSlots cfg canRotate ps (g.add o)

def SlotResult.failed (e : ReadError) : SlotResult → SlotResult
  | .refused e' => .refused e'
  | _ => .threw e

structure GroupRun where
  results : List SlotResult := []
  entries : List DataEntry := []
  offsets : List ℕ := []
  ioOffsets : List ℕ := []
  head : Head

def GroupRun.join (first rest : GroupRun) : GroupRun where
  results := first.results ++ rest.results
  entries := first.entries ++ rest.entries
  offsets := first.offsets ++ rest.offsets
  ioOffsets := first.ioOffsets ++ rest.ioOffsets
  head := rest.head

namespace Head

variable (crc : Crc)

def transient (h : Head) : Transient ReadError :=
  { keyDir := h.keyDir
    files := readFiles crc h.files
    fileStats := h.fileStats
    activeFileId := h.activeFileId
    nextSeq := h.nextSeq }

def active (h : Head) : Bytes := (h.files h.activeFileId).getD []

def canRotate (h : Head) : Bool := h.nextFileId ≤ maxFileId

def commit (h : Head) (t : Transient ReadError) (file : Bytes) : Head :=
  { h with
    keyDir := t.keyDir
    files := Function.update h.files h.activeFileId (some file)
    fileStats := t.fileStats
    nextSeq := t.nextSeq }

def append (lim : WritevLimits) (h : Head) (g : Staged) : GroupRun :=
  if g.entries = [] then { results := g.results, head := h }
  else
    let (file, ioOffsets) := appendEntries crc lim g.entries h.active
    { results := g.results, entries := g.entries, offsets := g.offsets, ioOffsets, head := h.commit g.t file }

def executeGroup (cfg : Config) (lim : WritevLimits) (h : Head) (batch : List (WritePlan ReadError)) :
    Except (List SlotResult × ReadError) GroupRun :=
  (stageSlots cfg h.canRotate batch { t := h.transient crc, offset := h.active.length }).map (h.append crc lim)

/-- A throw is the error of every slot of the batch that has none yet, and nothing of the batch is kept. -/
def runBatch (cfg : Config) (lim : WritevLimits) (h : Head) (batch : List (WritePlan ReadError)) : GroupRun :=
  match h.executeGroup crc cfg lim batch with
  | .ok run => run
  | .error (told, e) =>
    { results := told.map (SlotResult.failed e) ++ replicate (batch.length - told.length) (.threw e), head := h }

def executeEach (cfg : Config) (lim : WritevLimits) : Head → List (WritePlan ReadError) → GroupRun
  | h, [] => { head := h }
  | h, p :: ps =>
    let first := h.runBatch crc cfg lim [p]
    first.join (executeEach cfg lim first.head ps)

structure Sound (h : Head) : Prop where
  readable : ∀ key r, h.keyDir.get key = some r → ∃ record, readFiles crc h.files r = .ok record
  active : (h.files h.activeFileId).isSome
  positive : 0 < h.nextSeq

end Head

namespace Transient

section Grown

variable {ε : Type} {t u v : Transient ε} {p : WritePlan ε} {E : List (DataEntry × ℕ)}
variable {i : ℕ} {key : Bytes}

structure Grown (E : List (DataEntry × ℕ)) (t u : Transient ε) : Prop where
  nextSeq : t.nextSeq ≤ u.nextSeq
  files : u.files = t.files
  activeFileId : u.activeFileId = t.activeFileId
  pending : ∀ r, u.pending r = t.pending r ∨ ∃ e, (e, r.offset) ∈ E ∧ e.entryType = .put ∧ r.fileId = t.activeFileId ∧
    u.pending r = some ⟨e.sequence, e.value.length, e.key⟩
  keys : ∀ key r, u.keyDir.get key = some r → (∃ key', t.keyDir.get key' = some r) ∨ (u.pending r).isSome

lemma Grown.of_keys (hseq : t.nextSeq ≤ u.nextSeq) (hfiles : u.files = t.files) (hactive : u.activeFileId = t.activeFileId)
    (hpending : u.pending = t.pending) (hkeys : ∀ key r, u.keyDir.get key = some r → t.keyDir.get key = some r) : Grown E t u :=
  ⟨hseq, hfiles, hactive, fun r => .inl (congrFun hpending r), fun key r hr => .inl ⟨key, hkeys key r hr⟩⟩

lemma Grown.trans (h : Grown E t u) (h' : Grown E u v) : Grown E t v where
  nextSeq := h.nextSeq.trans h'.nextSeq
  files := h'.files.trans h.files
  activeFileId := h'.activeFileId.trans h.activeFileId
  pending r := by
    rcases h'.pending r with hsame | ⟨e, he, hput, hf, hr⟩
    · rcases h.pending r with hsame' | ⟨e, he, hput, hf, hr⟩
      · exact .inl (hsame.trans hsame')
      · exact .inr ⟨e, he, hput, hf, hsame.trans hr⟩
    · exact .inr ⟨e, he, hput, hf.trans h.activeFileId, hr⟩
  keys key r hr := by
    have hkept : (u.pending r).isSome → (v.pending r).isSome := by
      intro hs
      rcases h'.pending r with hsame | ⟨e, -, -, -, hr⟩
      · rw [hsame]
        exact hs
      · rw [hr]
        rfl
    rcases h'.keys key r hr with ⟨key', hr'⟩ | hs
    · exact (h.keys key' r hr').imp_right hkept
    · exact .inr hs

lemma grown_put {offset : ℕ} {value : Bytes} (he : ((WriteOp.pointPut key value).entry t.nextSeq, offset) ∈ E)
    (hu : applyPut p t i key value offset = .ok u) : Grown E t u ∧ u.nextSeq = t.nextSeq + 1 := by
  rw [applyPut_eq] at hu
  obtain ⟨existing, -, rfl⟩ := Except.of_map_ok hu
  rw [release_eq]
  refine ⟨⟨Nat.le_succ _, rfl, rfl, fun r => ?_, fun k r hr => ?_⟩, rfl⟩
  · by_cases hr : r = ⟨t.activeFileId, offset⟩
    · refine .inr ⟨(WriteOp.pointPut key value).entry t.nextSeq, ?_, rfl, ?_, ?_⟩
      · rw [hr]
        exact he
      · rw [hr]
      · rw [hr]
        exact Function.update_self _ _ _
    · exact .inl (Function.update_of_ne hr _ _)
  · have hget : (t.keyDir.insert key ⟨t.activeFileId, offset⟩).get k = some r := hr
    by_cases hkk : k = key
    · rw [hkk, SortedMap.get_insert_self] at hget
      cases hget
      refine .inr ?_
      have hnoted : (t.withPut key value offset).pending ⟨t.activeFileId, offset⟩ = some ⟨t.nextSeq, value.length, key⟩ :=
        Function.update_self _ _ _
      exact Option.isSome_iff_exists.2 ⟨_, hnoted⟩
    · rw [SortedMap.get_insert_ne _ _ hkk] at hget
      exact .inl ⟨k, hget⟩

lemma grown_del (hu : applyDel p t i key = .ok u) : Grown E t u ∧ u.nextSeq = t.nextSeq + 1 := by
  rw [applyDel_eq] at hu
  obtain ⟨existing, -, rfl⟩ := Except.of_map_ok hu
  rw [release_eq]
  exact ⟨Grown.of_keys (Nat.le_succ _) rfl rfl rfl fun k r hr => get_of_get_erase hr, rfl⟩

lemma grown_rangeDel {lo hi : Bytes} (hu : t.applyRangeDel lo hi = .ok u) : Grown E t u ∧ u.nextSeq = t.nextSeq + 1 := by
  obtain ⟨w, hrel, hu⟩ := Except.of_bind_ok hu
  obtain ⟨d, hdir, hu⟩ := Except.of_bind_ok hu
  have hw : w = { t with fileStats := w.fileStats } := by
    refine foldlM_invariant (P := fun w => w = { t with fileStats := w.fileStats }) (fun a e b ha hb => ?_) rfl hrel
    obtain ⟨record, -, rfl⟩ := Except.of_map_ok hb
    rw [ha]
    rfl
  have hd : ∀ k r, d.get k = some r → t.keyDir.get k = some r := by
    refine foldlM_invariant (P := fun d => ∀ k r, d.get k = some r → t.keyDir.get k = some r) (fun a e b ha hb => ?_)
      (fun k r hr => hr) hdir
    obtain ⟨erased, herased, rfl⟩ := Except.of_map_ok hb
    obtain ⟨was, -, rfl⟩ := Except.of_map_ok herased
    exact fun k r hr => ha k r (get_of_get_erase hr)
  rw [hw] at hu
  cases hu
  exact ⟨Grown.of_keys (Nat.le_succ _) rfl rfl rfl hd, rfl⟩

def Aligned (E : List (DataEntry × ℕ)) : ℕ → List ((WriteOp × ℕ) × ℕ) → Prop
  | _, [] => True
  | seq, w :: ws => (w.1.1.entry seq, w.2) ∈ E ∧ Aligned E (seq + 1) ws

lemma aligned_zip (ws : List WriteOp) (k seq start : ℕ) (more : List DataEntry)
    (hE : ∀ x ∈ located start (EngineState.opEntries seq ws ++ more), x ∈ E) :
    Aligned E seq ((ws.zipIdx k).zip (offsetsFrom start (EngineState.opEntries seq ws ++ more))) := by
  induction ws generalizing k seq start with
  | nil => trivial
  | cons op ws ih =>
    refine ⟨hE _ mem_cons_self, ?_⟩
    apply ih
    intro x hx
    exact hE x (mem_cons_of_mem _ hx)

lemma grown_fold {ops : List ((WriteOp × ℕ) × ℕ)} (ha : Aligned E t.nextSeq ops) (hu : ops.foldlM (applyWrite p) t = .ok u) :
    Grown E t u := by
  induction ops generalizing t with
  | nil =>
    cases hu
    exact Grown.of_keys le_rfl rfl rfl rfl fun _ _ hr => hr
  | cons w ops ih =>
    obtain ⟨⟨op, i⟩, offset⟩ := w
    obtain ⟨v, hw, hu⟩ := Except.of_bind_ok hu
    have hstep : Grown E t v ∧ v.nextSeq = t.nextSeq + 1 := by
      cases op with
      | pointPut key value => exact grown_put ha.1 hw
      | pointDel key => exact grown_del hw
      | rangeDel lo hi => exact grown_rangeDel hw
    apply hstep.1.trans
    apply ih _ hu
    rw [hstep.2]
    exact ha.2

lemma grown_marker (multi : Bool) (t : Transient ε) : Grown E t (if multi then t.applyMarker else t) := by
  cases multi
  · exact Grown.of_keys le_rfl rfl rfl rfl fun _ _ hr => hr
  · exact Grown.of_keys (Nat.le_succ _) rfl rfl rfl fun _ _ hr => hr

lemma aligned_placed (t : Transient ε) (p : WritePlan ε) (start : ℕ) : Aligned (located start (t.prepareWrite p))
    (if p.multi then t.applyMarker else t).nextSeq (p.placed (offsetsFrom start (t.prepareWrite p))) := by
  rw [WritePlan.placed, prepareWrite]
  split_ifs
  · rw [cons_append]
    exact aligned_zip _ _ _ _ _ fun x hx => mem_cons_of_mem _ hx
  · rw [← append_nil (EngineState.opEntries _ _)]
    exact aligned_zip _ _ _ _ _ fun x hx => hx

lemma grown_applyWrites {start : ℕ} (hu : t.applyWrites p (offsetsFrom start (t.prepareWrite p)) = .ok u) :
    Grown (located start (t.prepareWrite p)) t u := by
  obtain ⟨v, hw, hu⟩ := Except.of_bind_ok hu
  have hv := ((grown_marker _ t).trans (grown_fold (aligned_placed t p start) hw)).trans (grown_marker p.multi v)
  cases hu
  exact ⟨hv.nextSeq, hv.files, hv.activeFileId, hv.pending, hv.keys⟩

end Grown

end Transient

section Slot

open Transient

variable {ε : Type} {cfg : Config} {canRotate : Bool} {t u : Transient ε} {p : WritePlan ε} {start : ℕ} {es : List DataEntry}

lemma offsetsFrom_append (start : ℕ) (es es' : List DataEntry) :
    offsetsFrom start (es ++ es') = offsetsFrom start es ++ offsetsFrom (start + bytesOf es) es' := by
  rw [offsetsFrom, offsetsFrom, offsetsFrom, located_append, map_append]

lemma executeSlot_applied (ht : Building t start) (h : executeSlot cfg false canRotate t start p = .ok (.applied u es)) :
    es = t.prepareWrite p ∧ t.applyWrites p (offsetsFrom start es) = .ok u ∧
      ∃ last, es.getLast? = some last ∧ last.sequence ≤ maxSequence := by
  by_cases he : p.isEmpty = true
  · rw [executeSlot, if_pos he] at h
    cases h
  rw [executeSlot, if_neg he] at h
  dsimp only at h
  split at h
  · cases h
  · cases h
  · next restsOn hv =>
    split at h
    · cases h
    · next last hlast =>
      by_cases hseq : maxSequence < last.sequence
      · rw [if_pos hseq] at h
        cases h
      by_cases hrot : (!canRotate && decide (cfg.rotationThreshold ≤ start + p.writeBytes)) = true
      · rw [if_neg hseq, if_pos hrot] at h
        cases h
      rw [if_neg hseq, if_neg hrot] at h
      have hret : canApplyPutsChecked p = true → ∃ r, t.applyPutsChecked p (offsetsFrom start (t.prepareWrite p)) = .ok r := by
        intro hc
        rw [hc, Bool.not_false, Bool.and_true, if_pos rfl] at h
        obtain ⟨v, hchecked, -⟩ := Except.of_map_ok h
        obtain ⟨r, hr, -⟩ := Except.of_bind_ok hchecked
        exact ⟨r, hr⟩
      rw [writes_eq false ht hv hret] at h
      obtain ⟨verdict, hverdict, ho⟩ := Except.of_map_ok h
      rw [twoPasses] at hverdict
      split at hverdict
      · cases hverdict
      · cases hverdict
        cases ho
      · obtain ⟨v, hw, rfl⟩ := Except.of_map_ok hverdict
        cases ho
        exact ⟨rfl, hw, last, hlast, not_lt.1 hseq⟩

lemma Transient.Building.applied (ht : Building t start) (h : executeSlot cfg false canRotate t start p = .ok (.applied u es)) :
    Building u (start + bytesOf es) := by
  obtain ⟨rfl, hw, -⟩ := executeSlot_applied ht h
  have hg := grown_applyWrites hw
  refine ⟨fun r hr => ?_⟩
  rw [hg.activeFileId]
  rcases hg.pending r with hsame | ⟨e, he, -, hf, -⟩
  · rw [hsame] at hr
    have := ht.pending r hr
    exact ⟨this.1, by omega⟩
  · obtain ⟨l, l', hes, ho⟩ := located_split he
    refine ⟨hf, ?_⟩
    have hpos := e.size_pos
    rw [hes, bytesOf_append, bytesOf_cons, ho]
    omega

lemma prepareWrite_eq (t : Transient ε) (p : WritePlan ε) : t.prepareWrite p =
    ({ nextSeq := t.nextSeq } : EngineState).prepareWrite { writes := p.writes, guards_snap := fun _ => ⟨rfl, fun _ he => absurd he not_mem_nil⟩ } := rfl

lemma bytesOf_prepareWrite (t : Transient ε) (p : WritePlan ε) : bytesOf (t.prepareWrite p) = p.writeBytes := by
  have hops : ∀ seq, bytesOf (EngineState.opEntries seq p.writes) = (p.writes.map WriteOp.bytes).sum := by
    induction p.writes with
    | nil => exact fun _ => rfl
    | cons op ops ih =>
      intro seq
      rw [EngineState.opEntries, bytesOf_cons, ih, map_cons, sum_cons]
      cases op <;> rfl
  rw [Transient.prepareWrite, WritePlan.writeBytes]
  split_ifs
  · rw [bytesOf_append, bytesOf_cons, hops]
    simp only [bytesOf_cons, bytesOf_nil, DataEntry.size, entrySize, length_nil]
    omega
  · rw [hops, Nat.add_zero]

lemma prepareWrite_le_last {s : EngineState} {p : Bytecask.WritePlan} {last : DataEntry}
    (h : (s.prepareWrite p).getLast? = some last) : ∀ e ∈ s.prepareWrite p, e.sequence ≤ last.sequence := by
  intro e he
  have hseq := s.prepareWrite_sequences p
  have hm : e.sequence ∈ (s.prepareWrite p).map DataEntry.sequence := mem_map_of_mem he
  have hlast : (s.prepareWrite p).getLast?.map DataEntry.sequence = some last.sequence := by rw [h]; rfl
  have hpos := length_pos_of_mem he
  rw [← getLast?_map, hseq, getLast?_range', if_neg (Nat.ne_of_gt hpos), Option.some.injEq] at hlast
  rw [hseq, mem_range'_1] at hm
  omega

lemma put_fits (hs : 0 < t.nextSeq) (hp : ∀ op ∈ p.writes, op.Fits) {last e : DataEntry}
    (hlast : (t.prepareWrite p).getLast? = some last) (hle : last.sequence ≤ maxSequence) (he : e ∈ t.prepareWrite p)
    (hput : e.entryType = .put) : e.RecordFits := by
  rw [prepareWrite_eq] at hlast he
  have hseq : e.sequence ≤ maxSequence := (prepareWrite_le_last hlast e he).trans hle
  have hpos : 0 < e.sequence := ((EngineState.prepareWrite_written _ _ hs).1).positive e he
  obtain ⟨op, hop, n, rfl⟩ : ∃ op ∈ p.writes, ∃ n, e = op.entry n := by
    rw [EngineState.prepareWrite] at he
    split_ifs at he
    · rcases mem_append.1 he with he | he
      · rcases mem_cons.1 he with rfl | he
        · cases hput
        · exact EngineState.mem_opEntries he
      · rw [mem_singleton.1 he] at hput
        cases hput
    · exact EngineState.mem_opEntries he
  cases op with
  | pointPut key value =>
    obtain ⟨hkey, hvalue⟩ := hp _ hop
    exact ⟨hpos.ne', hseq.trans_lt (by decide), Nat.lt_succ_of_le hkey, hvalue, fun hmark => by cases hmark⟩
  | pointDel | rangeDel => cases hput

end Slot

section Commit

open Transient

variable {crc : Crc} {cfg : Config} {h : Head} {u : Transient ReadError} {p : WritePlan ReadError} {es : List DataEntry}

lemma readFiles_update_ne {files : FileId → Option Bytes} {a : FileId} {file : Bytes} {r : BlindRef} (hr : r.fileId ≠ a) :
    readFiles crc (Function.update files a (some file)) r = readFiles crc files r := by
  rw [readFiles, readFiles, Function.update_of_ne hr]

lemma Head.Sound.applied (hh : h.Sound crc) (hp : ∀ op ∈ p.writes, op.Fits)
    (hx : executeSlot cfg false h.canRotate (h.transient crc) h.active.length p = .ok (.applied u es)) :
    (h.commit u (h.active ++ serializeAll crc es)).Sound crc ∧
      Same u ((h.commit u (h.active ++ serializeAll crc es)).transient crc) := by
  have hbuild : Building (h.transient crc) h.active.length := ⟨fun _ hr => absurd hr Bool.false_ne_true⟩
  obtain ⟨rfl, hw, last, hlast, hle⟩ := executeSlot_applied hbuild hx
  have hg := grown_applyWrites hw
  have hactive : u.activeFileId = h.activeFileId := hg.activeFileId
  have hreads : ∀ key r, u.keyDir.get key = some r → ∃ record, u.kdCtx.keyAt r = .ok record ∧
      readFiles crc (h.commit u (h.active ++ serializeAll crc ((h.transient crc).prepareWrite p))).files r = .ok record := by
    intro key r hr
    cases hpend : u.pending r with
    | some record =>
      have hread : u.kdCtx.keyAt r = .ok record := by simp only [KeyDirCtx.keyAt, kdCtx, hpend]
      refine ⟨record, hread, ?_⟩
      rcases hg.pending r with hsame | ⟨e, he, hput, hf, hnoted⟩
      · cases hpend.symm.trans hsame
      · cases hpend.symm.trans hnoted
        obtain ⟨l, l', hes, ho⟩ := located_split he
        have hfits : e.RecordFits := put_fits hh.positive hp hlast hle (hes ▸ mem_append_right _ mem_cons_self) hput
        have hf : r.fileId = h.activeFileId := hf
        have hbytes : h.active ++ serializeAll crc ((h.transient crc).prepareWrite p) =
            (h.active ++ serializeAll crc l) ++ (e.serialize crc ++ serializeAll crc l') := by
          rw [hes, serializeAll_append]
          simp [serializeAll]
        have hlen : (h.active ++ serializeAll crc l).length = r.offset := by
          rw [length_append, serializeAll_length, ho]
        simp only [Head.commit, readFiles, hf, Function.update_self, hbytes]
        rw [← hlen]
        exact lendRecord_serialize hfits hput _ _
    | none =>
      obtain ⟨key', hr'⟩ := (hg.keys key r hr).resolve_right (by rw [hpend]; exact Bool.false_ne_true)
      obtain ⟨record, hrec⟩ := hh.readable key' r hr'
      have hread : u.kdCtx.keyAt r = .ok record := by
        simp only [KeyDirCtx.keyAt, kdCtx, hpend]
        rw [hg.files]
        exact hrec
      refine ⟨record, hread, ?_⟩
      by_cases hf : r.fileId = h.activeFileId
      · obtain ⟨file, hfile⟩ := Option.isSome_iff_exists.1 hh.active
        have hact : h.active = file := by rw [Head.active, hfile]; rfl
        simp only [readFiles, hf, hfile] at hrec
        simp only [Head.commit, readFiles, hf, Function.update_self, hact]
        exact lendRecord_append hrec _
      · rw [Head.commit, readFiles_update_ne hf]
        exact hrec
  refine ⟨⟨fun key r hr => ?_, ?_, ?_⟩, ⟨rfl, rfl, hactive.symm, rfl, fun key r hr => ?_, fun key r hr => ?_⟩⟩
  · obtain ⟨record, -, hrec⟩ := hreads key r hr
    exact ⟨record, hrec⟩
  · simp only [Head.commit, Function.update_self, Option.isSome_some]
  · exact Nat.lt_of_lt_of_le hh.positive hg.nextSeq
  · obtain ⟨record, hread, -⟩ := hreads key r hr
    exact ⟨record, hread⟩
  · obtain ⟨record, hread, hrec⟩ := hreads key r hr
    rw [hread]
    exact hrec

structure Ahead (crc : Crc) (h₀ : Head) (g : Staged) (h : Head) : Prop where
  same : Same g.t (h.transient crc)
  building : Building g.t g.offset
  sound : h.Sound crc
  offset : g.offset = h₀.active.length + bytesOf g.entries
  offsets : g.offsets = offsetsFrom h₀.active.length g.entries
  head : h = if g.entries = [] then h₀ else h₀.commit g.t (h₀.active ++ serializeAll crc g.entries)

/-- What a group of one slot appends. -/
def Head.alone (crc : Crc) (lim : WritevLimits) (h : Head) (o : SlotOutcome ReadError) : GroupRun :=
  h.append crc lim (({ t := h.transient crc, offset := h.active.length } : Staged).add o)

lemma runBatch_one {crc : Crc} {cfg : Config} {h : Head} {p : WritePlan ReadError} (lim : WritevLimits)
    {o : SlotOutcome ReadError} (ho : executeSlot cfg false h.canRotate (h.transient crc) h.active.length p = .ok o) :
    h.runBatch crc cfg lim [p] = h.alone crc lim o := by
  rw [Head.runBatch, Head.executeGroup, stageSlots, if_neg (fun hcut => hcut.1 rfl), ho]
  rfl

variable {h₀ : Head} {g : Staged} {lim : WritevLimits}
variable {ps batch : List (WritePlan ReadError)} {run : GroupRun}

section

variable (ha : Ahead crc h₀ g h)

include ha

lemma Ahead.active : h.active = h₀.active ++ serializeAll crc g.entries := by
  rw [ha.head]
  by_cases hnil : g.entries = []
  · rw [if_pos hnil, hnil]
    simp [serializeAll]
  · rw [if_neg hnil]
    simp [Head.active, Head.commit]

lemma Ahead.length : h.active.length = g.offset := by
  rw [ha.active, length_append, serializeAll_length, ha.offset]

lemma Ahead.canRotate : h.canRotate = h₀.canRotate := by
  rw [ha.head]
  split_ifs <;> rfl

lemma Ahead.append : h₀.append crc lim g =
    { results := g.results, entries := g.entries, offsets := g.offsets
      ioOffsets := offsetsFrom h₀.active.length g.entries, head := h } := by
  rw [Head.append, appendEntries_eq]
  by_cases hnil : g.entries = []
  · have hhead := ha.head
    have hoffsets := ha.offsets
    rw [if_pos hnil, hhead, hoffsets, hnil]
    rfl
  · have hhead := ha.head
    rw [if_neg hnil] at hhead
    rw [if_neg hnil, hhead]

lemma Ahead.applied (hp : ∀ op ∈ p.writes, op.Fits) {v : Transient ReadError}
    (hx : executeSlot cfg false h₀.canRotate g.t g.offset p = .ok (.applied v es))
    (hy : executeSlot cfg false h.canRotate (h.transient crc) h.active.length p = .ok (.applied u es)) (hvu : Same v u) :
    es ≠ [] ∧ Ahead crc h₀ (g.add (.applied v es)) (h.commit u (h.active ++ serializeAll crc es)) := by
  have hbuild : Building (h.transient crc) h.active.length := ⟨fun _ hr => absurd hr Bool.false_ne_true⟩
  obtain ⟨-, -, last, hlast, -⟩ := executeSlot_applied hbuild hy
  have hne : es ≠ [] := by
    rintro rfl
    cases hlast
  obtain ⟨hsound, hsame⟩ := ha.sound.applied hp hy
  refine ⟨hne, ⟨hvu.trans hsame, ha.building.applied hx, hsound, ?_, ?_, ?_⟩⟩
  · show g.offset + bytesOf es = h₀.active.length + bytesOf (g.entries ++ es)
    rw [ha.offset, bytesOf_append, Nat.add_assoc]
  · show g.offsets ++ offsetsFrom g.offset es = offsetsFrom h₀.active.length (g.entries ++ es)
    rw [ha.offsets, ha.offset, offsetsFrom_append]
  · have hentries : (g.add (.applied v es)).entries ≠ [] := append_ne_nil_of_right_ne_nil _ hne
    rw [if_neg hentries, ha.active, append_assoc, ← serializeAll_append]
    have hfiles : (h.commit u (h₀.active ++ serializeAll crc (g.entries ++ es))) =
        h₀.commit u (h₀.active ++ serializeAll crc (g.entries ++ es)) := by
      rw [ha.head]
      by_cases hnil : g.entries = []
      · rw [if_pos hnil]
      · rw [if_neg hnil]
        simp only [Head.commit, Function.update_idem]
    rw [hfiles]
    simp only [Head.commit, hvu.keyDir, hvu.fileStats, hvu.nextSeq]
    rfl

lemma Ahead.step (lim : WritevLimits) (hp : ∀ op ∈ p.writes, op.Fits) {o o' : SlotOutcome ReadError}
    (hx : executeSlot cfg false h₀.canRotate g.t g.offset p = .ok o)
    (hy : executeSlot cfg false h.canRotate (h.transient crc) h.active.length p = .ok o') (hsame : SlotOutcome.Same o o') :
    Ahead crc h₀ (g.add o) (h.alone crc lim o').head ∧
      h₀.append crc lim (g.add o) = (h₀.append crc lim g).join (h.alone crc lim o') := by
  have happlied : ∀ v u es, o = .applied v es → o' = .applied u es → Same v u → Ahead crc h₀ (g.add o) (h.alone crc lim o').head ∧
      h₀.append crc lim (g.add o) = (h₀.append crc lim g).join (h.alone crc lim o') := by
    rintro v u es rfl rfl hvu
    obtain ⟨hne, hnext⟩ := ha.applied hp hx hy hvu
    have hone : h.alone crc lim (.applied u es) =
        { results := [(SlotOutcome.applied u es).result], entries := es, offsets := offsetsFrom h.active.length es
          ioOffsets := offsetsFrom h.active.length es, head := h.commit u (h.active ++ serializeAll crc es) } := by
      simp only [Head.alone, Head.append, Staged.add, nil_append, appendEntries_eq, if_neg hne]
    rw [hone]
    refine ⟨hnext, ?_⟩
    have hoffsets : offsetsFrom h₀.active.length (g.entries ++ es) =
        offsetsFrom h₀.active.length g.entries ++ offsetsFrom g.offset es := by
      rw [ha.offset, offsetsFrom_append]
    rw [hnext.append, ha.append, ha.length]
    simp only [GroupRun.join, Staged.add, hoffsets]
    rfl
  have htold : ∀ results, Ahead crc h₀ { g with results } h := fun _ => { ha with }
  cases hsame with
  | applied hvu entries => exact happlied _ _ _ rfl rfl hvu
  | refl =>
    cases o with
    | applied v es =>
      have hread : v.Readable := by
        obtain ⟨v', u', hv', -, hvu⟩ := (executeSlot_applied ha.building hx).2.1 ▸ ha.same.applyWrites p _
        cases hv'
        exact hvu.readable
      exact happlied v v es rfl rfl (Same.refl hread)
    | empty | conflict | nothing | refused =>
      refine ⟨htold _, ?_⟩
      rw [ha.append]
      refine (htold _).append.trans ?_
      simp [Head.alone, Head.append, Staged.add, GroupRun.join]

end

def StaysBelow (cfg : Config) (canRotate : Bool) (ps : List (WritePlan ReadError)) (g : Staged) : Prop :=
  ∀ n g', stageSlots cfg canRotate (ps.take n) g = .ok g' → g'.offset < cfg.rotationThreshold

lemma stageSlots_each (lim : WritevLimits) (hcfg : cfg.rotationThreshold + cfg.maxBatchBytes ≤ cfg.maxGroupFileBytes)
    (hfits : ∀ p ∈ ps, p.writeBytes ≤ cfg.maxBatchBytes ∧ ∀ op ∈ p.writes, op.Fits) (hread : ∀ p ∈ ps, p.Readable)
    (ha : Ahead crc h₀ g h) (hroom : StaysBelow cfg h₀.canRotate ps g) :
    ∃ g' h', stageSlots cfg h₀.canRotate ps g = .ok g' ∧ Ahead crc h₀ g' h' ∧ g'.results.length = g.results.length + ps.length ∧
      h₀.append crc lim g' = (h₀.append crc lim g).join (h.executeEach crc cfg lim ps) := by
  induction ps generalizing g h with
  | nil =>
    refine ⟨g, h, rfl, ha, rfl, ?_⟩
    rw [Head.executeEach, ha.append]
    simp [GroupRun.join]
  | cons p ps ih =>
    have hcut : ¬ (g.results ≠ [] ∧ cfg.maxGroupFileBytes < g.offset + p.writeBytes) := by
      have hbelow : g.offset < cfg.rotationThreshold := hroom 0 g rfl
      have hsize := (hfits p mem_cons_self).1
      omega
    have hbuild : Building (h.transient crc) g.offset := ⟨fun _ hr => absurd hr Bool.false_ne_true⟩
    obtain ⟨o, o', hx, hy, hsame⟩ := executeSlot_same cfg h₀.canRotate ha.same ha.building hbuild (hread p mem_cons_self)
    rw [← ha.length, ← ha.canRotate] at hy
    obtain ⟨hnext, hrun⟩ := ha.step lim (hfits p mem_cons_self).2 hx hy hsame
    have hstage : ∀ qs, stageSlots cfg h₀.canRotate (p :: qs) g = stageSlots cfg h₀.canRotate qs (g.add o) := by
      intro qs
      rw [stageSlots, if_neg hcut, hx]
      rfl
    have hrest : StaysBelow cfg h₀.canRotate ps (g.add o) := fun n g' hg' => hroom (n + 1) g' ((hstage _).trans hg')
    obtain ⟨g', h', hg', hahead, hlen, hlast⟩ := ih (fun q hq => hfits q (mem_cons_of_mem p hq)) (fun q hq => hread q (mem_cons_of_mem p hq)) hnext hrest
    refine ⟨g', h', (hstage ps).trans hg', hahead, ?_, hlast.trans ?_⟩
    · rw [hlen, g.add_results, length_append, length_cons, length_cons, length_nil]
      omega
    · rw [hrun, Head.executeEach, runBatch_one lim hy]
      simp [GroupRun.join]

lemma staysBelow_of_bytes {canRotate : Bool} (hbuild : Building g.t g.offset)
    (hroom : g.offset + (ps.map WritePlan.writeBytes).sum < cfg.rotationThreshold) : StaysBelow cfg canRotate ps g := by
  induction ps generalizing g with
  | nil =>
    intro n g' hg'
    rw [take_nil, stageSlots] at hg'
    cases hg'
    exact hroom
  | cons p ps ih =>
    rw [map_cons, sum_cons] at hroom
    intro n g' hg'
    have hstay : g.offset < cfg.rotationThreshold := by omega
    cases n with
    | zero =>
      cases hg'
      exact hstay
    | succ n =>
      rw [take_succ_cons, stageSlots] at hg'
      by_cases hcut : g.results ≠ [] ∧ cfg.maxGroupFileBytes < g.offset + p.writeBytes
      · rw [if_pos hcut] at hg'
        cases hg'
        exact hstay
      · rw [if_neg hcut] at hg'
        obtain ⟨o, hx, hg'⟩ := Except.of_bind_ok hg'
        have hx := Except.of_mapError_ok hx
        have htold : ∀ results, StaysBelow cfg canRotate ps { g with results } := by
          intro results
          refine ih ?_ ?_
          · exact hbuild
          · show g.offset + _ < _
            omega
        cases o with
        | empty | conflict | nothing | refused => exact htold _ n g' hg'
        | applied v es =>
          obtain ⟨hes, -⟩ := executeSlot_applied hbuild hx
          have hbytes : bytesOf es = p.writeBytes := by rw [hes, bytesOf_prepareWrite]
          refine ih (hbuild.applied hx) ?_ n g' hg'
          show g.offset + bytesOf es + _ < _
          omega

/-- One group or its slots one by one, where their snapshots can be read: no slot throws, and the results are the same, the
entries, their offsets and the head. Each slot gets a result, and the append puts the entries where the slots were told. -/
theorem group_commit_transparent (lim : WritevLimits) (hh : h.Sound crc) (hcfg : cfg.rotationThreshold + cfg.maxBatchBytes ≤ cfg.maxGroupFileBytes)
    {batch : List (WritePlan ReadError)} (hfits : ∀ p ∈ batch, p.writeBytes ≤ cfg.maxBatchBytes ∧ ∀ op ∈ p.writes, op.Fits)
    (hread : ∀ p ∈ batch, p.Readable)
    (hroom : StaysBelow cfg h.canRotate batch { t := h.transient crc, offset := h.active.length }) :
    ∃ run, h.executeGroup crc cfg lim batch = .ok run ∧ h.executeEach crc cfg lim batch = run ∧
      run.results.length = batch.length ∧ run.ioOffsets = run.offsets := by
  have hstart : Ahead crc h { t := h.transient crc, offset := h.active.length } h :=
    ⟨Same.refl hh.readable, ⟨fun _ hr => absurd hr Bool.false_ne_true⟩, hh, rfl, rfl, rfl⟩
  obtain ⟨g, h', hg, ha, hlen, hrun⟩ := stageSlots_each lim hcfg hfits hread hstart hroom
  have heach : h.append crc lim g = h.executeEach crc cfg lim batch := by
    rw [hrun]
    simp [Head.append, GroupRun.join]
  have hgroup : h.executeGroup crc cfg lim batch = .ok (h.append crc lim g) := by
    rw [Head.executeGroup, hg]
    rfl
  rw [ha.append] at hgroup heach
  exact ⟨_, hgroup, heach.symm, hlen.trans (Nat.zero_add _), ha.offsets.symm⟩

def threeSlots : List (WritePlan ReadError) :=
  [{ writes := [.pointPut [1] [7]], guards_snap := fun _ => ⟨rfl, by decide⟩, resolved := .inl rfl },
   { writes := [.pointPut [1] [8]], guards := SortedMap.empty.insert [1] .mustBeAbsent
     guards_snap := fun _ => ⟨rfl, by decide⟩, resolved := .inl rfl },
   { writes := [.pointDel [1]], guards_snap := fun _ => ⟨rfl, by decide⟩, resolved := .inl rfl }]

def emptyHead : Head := { files := Function.update (fun _ => none) 0 (some []) }

lemma emptyHead_sound (crc : Crc) : emptyHead.Sound crc := ⟨nofun, rfl, by decide⟩

lemma threeSlots_readable : ∀ p ∈ threeSlots, p.Readable := by
  have hnone : ∀ p ∈ threeSlots, p.snap.isNone := by decide
  intro p hp s hs
  have hsnap := hnone p hp
  rw [hs] at hsnap
  cases hsnap

theorem threeSlots_transparent :
    ∃ run, emptyHead.executeGroup (fun _ => 0) { rotationThreshold := 100 } ⟨2, 64, 64, by decide⟩ threeSlots = .ok run ∧
      emptyHead.executeEach (fun _ => 0) { rotationThreshold := 100 } ⟨2, 64, 64, by decide⟩ threeSlots = run ∧
      run.results = [.committed 1, .conflict 1, .committed 2] := by
  obtain ⟨run, hgroup, heach, -⟩ := @group_commit_transparent (fun _ => 0) { rotationThreshold := 100 } _
    ⟨2, 64, 64, by decide⟩ (emptyHead_sound _) (by decide) _ (by decide) threeSlots_readable
    (staysBelow_of_bytes ⟨fun _ hr => absurd hr Bool.false_ne_true⟩ (by decide))
  refine ⟨run, hgroup, heach, ?_⟩
  rw [← heach]
  decide +kernel

/-- A put, and a plan over a snapshot whose record can no longer be read. -/
def lostSnapshot : List (WritePlan ReadError) :=
  [{ writes := [.pointPut [1] [7]], guards_snap := fun _ => ⟨rfl, by decide⟩, resolved := .inl rfl },
   { snap := some ⟨SortedMap.empty.insert [2] ⟨0, 0⟩, fun _ => .error .crcMismatch⟩, writes := [.pointPut [2] [8]]
     guards_snap := nofun, resolved := .inl rfl }]

/-- Alone the put commits and the other fails. In one group both fail. -/
theorem lostSnapshot_fails_both :
    emptyHead.active.length + (lostSnapshot.map WritePlan.writeBytes).sum < 100 ∧
    (emptyHead.runBatch (fun _ => 0) { rotationThreshold := 100 } ⟨2, 64, 64, by decide⟩ lostSnapshot).results =
      [.threw .crcMismatch, .threw .crcMismatch] ∧
    (emptyHead.executeEach (fun _ => 0) { rotationThreshold := 100 } ⟨2, 64, 64, by decide⟩ lostSnapshot).results =
      [.committed 1, .threw .crcMismatch] := by decide +kernel

end Commit

end Bytecask.Blind
