import Bytecask.Growth
import Bytecask.Lib.Machine
import Bytecask.Vacuum

/-! A process in which a vacuum runs beside the writes. Writes and vacuum meet only where the vacuum reads the
published state and where it holds the write barrier, so each of these points is a step. -/

namespace Bytecask

def CandidateLe (a b : ℚ × FileId) : Prop := b.1 < a.1 ∨ (b.1 = a.1 ∧ b.2 ≤ a.2)

instance : DecidableRel CandidateLe := fun _ _ => inferInstanceAs (Decidable (_ ∨ _))

def EngineState.candidatesBy (quotient : ℕ → ℕ → ℚ) (s : EngineState) (threshold : ℚ) (retainAfter : ℕ) : List FileId :=
  let share (fs : FileStats) : ℚ := quotient fs.reclaimableBytes fs.totalBytes
  let eligible (e : FileId × FileStats) : Bool :=
    e.1 ≠ s.activeFileId && e.2.totalBytes ≠ 0 && e.2.minSequence ≤ retainAfter && 0 < share e.2 && threshold < share e.2
  (((s.fileStats.entries.filter eligible).map (fun e => (share e.2, e.1))).insertionSort CandidateLe).map Prod.snd

def EngineState.vacuumCandidates (s : EngineState) (threshold : ℚ) (retainAfter : ℕ) : List FileId :=
  s.candidatesBy (fun n d => (n : ℚ) / d) threshold retainAfter

def FileStats.removable (fs : FileStats) (retainAfter : ℕ) : Bool :=
  fs.liveBytes = 0 && fs.tombstoneBytes = 0 && fs.changeMarkerBytes = 0 && fs.maxSequence ≤ retainAfter

structure Candidates where
  retainAfter : ℕ
  stats : SortedMap FileId FileStats
  ids : List FileId

/-- Where a vacuum is: between two candidates, about to remove a file, with the copy of a file staged, placed in
the directory or under an id of its own, and with the source to unlink. -/
inductive VacuumPhase where
  | idle
  | choosing (left : Candidates)
  | removing (id : FileId) (retainAfter decidedAt : ℕ)
  | staged (v : VacuumScan) (scan : VacuumScanResult) (left : Candidates)
  | placed (v : VacuumScan) (scan : VacuumScanResult) (path : Path)
  | reserved (v : VacuumScan) (scan : VacuumScanResult) (path : Path) (dest : FileId)
  | unlinking (path : Path)

def VacuumPhase.extra : VacuumPhase → Option Path
  | .placed _ _ path | .reserved _ _ path _ | .unlinking path => some path
  | _ => none

structure Process where
  disk : Disk
  state : EngineState
  needed : Recovery.NeededTombstones
  vacuum : VacuumPhase := .idle

namespace Process

inductive Action where
  | write (es : List DataEntry)
  | rotate
  | sync
  | setMode (mode : Mode)
  | begin (threshold : ℚ) (retainAfter : ℕ)
  | choose
  | place
  | reserve
  | commit
  | unlink
  | cancel

def settle (p : Process) (decidedAt : ℕ) : Process :=
  if p.state.durableSeq < decidedAt then
    { p with disk := p.disk.sync p.state.activePath, state := p.state.applySync (p.state.nextSeq - 1) }
  else p

def next (p : Process) : Action → Process
  | .write es =>
    { p with
      disk := p.disk.append p.state.activePath es
      state := p.state.applyIngest es (offsetsFrom (p.disk.size p.state.activePath) es) }
  | .rotate => { p with disk := (p.disk.shrink p.state.activePath).create, state := rotated p.disk p.state }
  | .sync => { p with disk := p.disk.sync p.state.activePath, state := p.state.applySync (p.state.nextSeq - 1) }
  | .setMode mode => { p with state := p.state.applySetMode mode }
  | .begin threshold retainAfter =>
    match p.vacuum with
    | .idle =>
      let ids := p.state.vacuumCandidates threshold retainAfter
      { p with vacuum := .choosing ⟨retainAfter, p.state.fileStats, ids⟩ }
    | _ => p
  | .choose =>
    match p.vacuum with
    | .choosing ⟨_, _, []⟩ => { p with vacuum := .idle }
    | .choosing ⟨retainAfter, stats, id :: ids⟩ =>
      if ((stats.get id).getD {}).removable retainAfter then
        { p with vacuum := .removing id retainAfter (p.state.nextSeq - 1) }
      else
        let v : VacuumScan := ⟨p.state, id, p.needed, retainAfter⟩
        match vacuumScanAndCopy v none ((p.disk.files.get (p.state.pathOf id)).getD {}).data with
        | .ok scan => { p with vacuum := .staged v scan ⟨retainAfter, stats, ids⟩ }
        | .error _ => { p with vacuum := .idle }
    | _ => p
  | .place =>
    match p.vacuum with
    | .staged v scan left =>
      -- Nothing to reclaim: an identical file would be churn.
      if ((v.snap.fileStats.get v.source).map FileStats.totalBytes).getD 0 ≤ scan.totalBytes then
        { p with vacuum := .choosing left }
      else if scan.totalBytes = 0 then { p with vacuum := .removing v.source v.retainAfter (p.state.nextSeq - 1) }
      else { p with disk := p.disk.place scan.copied, vacuum := .placed v scan p.disk.nextPath }
    | _ => p
  | .reserve =>
    match p.vacuum with
    | .placed v scan path =>
      { p with state := p.state.reserveFileId.1, vacuum := .reserved v scan path p.state.reserveFileId.2 }
    | _ => p
  | .commit =>
    match p.vacuum with
    | .removing id _ decidedAt =>
      let p := p.settle decidedAt
      { p with state := p.state.dropFile id, vacuum := .unlinking (p.state.pathOf id) }
    | .reserved v scan path dest =>
      let p := p.settle (v.snap.nextSeq - 1)
      { p with state := p.state.applyVacuum v.source scan path dest, vacuum := .unlinking (v.snap.pathOf v.source) }
    | _ => p
  | .unlink =>
    match p.vacuum with
    | .unlinking path => { p with disk := p.disk.remove path, vacuum := .idle }
    | _ => p
  | .cancel =>
    match p.vacuum with
    | .choosing _ | .removing _ _ _ | .staged _ _ _ => { p with vacuum := .idle }
    | .placed _ _ path | .reserved _ _ path _ => { p with disk := p.disk.remove path, vacuum := .idle }
    | .idle | .unlinking _ => p

def Action.outside : Action → Bool
  | .begin _ _ | .choose | .place | .unlink | .cancel => true
  | _ => false

/-- What a vacuum can do outside the write barrier. -/
inductive Beside (p : Process) : Process → Prop
  | same : p.Beside p
  | phase (ph : VacuumPhase) (he : p.vacuum.extra = none) (hr : ∀ v scan path dest, ph ≠ .reserved v scan path dest) :
    p.Beside { p with vacuum := ph }
  | place (v : VacuumScan) (scan : VacuumScanResult) (he : p.vacuum.extra = none) :
    p.Beside { p with disk := p.disk.place scan.copied, vacuum := .placed v scan p.disk.nextPath }
  | remove (path : Path) (he : p.vacuum.extra = some path) :
    p.Beside { p with disk := p.disk.remove path, vacuum := .idle }

lemma next_beside (p : Process) {a : Action} (ha : a.outside) : p.Beside (p.next a) := by
  cases a with
  | write | rotate | sync | setMode | reserve | commit => cases ha
  | begin threshold retainAfter =>
    simp only [next]
    split
    · next hv => exact .phase _ (by rw [hv]; rfl) nofun
    · exact .same
  | choose =>
    simp only [next]
    split
    · next hv => exact .phase _ (by rw [hv]; rfl) nofun
    · next hv =>
      have hnone : p.vacuum.extra = none := by rw [hv]; rfl
      split_ifs
      · exact .phase _ hnone nofun
      · split <;> exact .phase _ hnone nofun
    · exact .same
  | place =>
    simp only [next]
    split
    · next hv =>
      have hnone : p.vacuum.extra = none := by rw [hv]; rfl
      split_ifs
      · exact .phase _ hnone nofun
      · exact .phase _ hnone nofun
      · exact .place _ _ hnone
    · exact .same
  | unlink =>
    simp only [next]
    split
    · next hv => exact .remove _ (by rw [hv]; rfl)
    · exact .same
  | cancel =>
    simp only [next]
    split
    · next hv => exact .phase _ (by rw [hv]; rfl) nofun
    · next hv => exact .phase _ (by rw [hv]; rfl) nofun
    · next hv => exact .phase _ (by rw [hv]; rfl) nofun
    · next hv => exact .remove _ (by rw [hv]; rfl)
    · next hv => exact .remove _ (by rw [hv]; rfl)
    · exact .same
    · exact .same

lemma Beside.state_eq {p q : Process} (h : p.Beside q) : q.state = p.state := by
  cases h <;> rfl

end Process

end Bytecask
