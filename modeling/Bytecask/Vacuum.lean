import Bytecask.Recovery.Streams
import Bytecask.Replication

/-! Vacuum: the scan that copies what a sealed file must keep, and the steps that put the copy in its place. -/

namespace Bytecask

def Recovery.NeededTombstones.droppable (needed : Recovery.NeededTombstones) (seq : ℕ) : Bool :=
  seq ≤ needed.horizon && !needed.sequences.contains seq

/-- What the looks at the cancel flag find: the scan's first `cancelAfter` find it clear, and `cancelLate` is
the one before the commit. -/
structure VacuumOptions where
  retainAfter : ℕ
  cancelAfter : Option ℕ := none
  cancelLate : Bool := false

structure VacuumMapping where
  key : Bytes
  newOffset : ℕ
  sequence : ℕ
  valueSize : ℕ
deriving DecidableEq, Repr

structure VacuumScanResult where
  copied : List DataEntry := []
  mappings : List VacuumMapping := []
  liveBytes : ℕ := 0
  totalBytes : ℕ := 0
  tombstoneBytes : ℕ := 0
  markerBytes : ℕ := 0
  changeMarkerBytes : ℕ := 0
  minSequence : ℕ := 0
  maxSequence : ℕ := 0
  cancelled : Bool := false
deriving DecidableEq, Repr

namespace VacuumScanResult

def trackSeq (r : VacuumScanResult) (seq : ℕ) : VacuumScanResult :=
  { r with
    minSequence := if r.minSequence = 0 then seq else r.minSequence
    maxSequence := max r.maxSequence seq }

def copy (r : VacuumScanResult) (e : DataEntry) : VacuumScanResult :=
  { r with copied := r.copied ++ [e], totalBytes := r.totalBytes + e.size }.trackSeq e.sequence

end VacuumScanResult

structure VacuumScan where
  snap : EngineState
  source : FileId
  needed : Recovery.NeededTombstones
  retainAfter : ℕ

namespace VacuumScan

def isLive (v : VacuumScan) (e : DataEntry) (offset : ℕ) : Bool :=
  (kdGet v.snap.keyDir e.key).any (fun d => d.fileId = v.source && d.fileOffset = offset)

def emitEntry (v : VacuumScan) (r : VacuumScanResult) (p : DataEntry × ℕ) : VacuumScanResult :=
  let (e, offset) := p
  match e.entryType with
  | .put =>
    if v.isLive e offset then
      { r.copy e with
        liveBytes := r.liveBytes + e.size
        mappings := r.mappings ++ [⟨e.key, bytesOf r.copied, e.sequence, e.value.length⟩] }
    else if v.retainAfter < e.sequence then r.copy e
    else r
  | .delete | .rangeDel =>
    if e.sequence ≤ v.retainAfter ∧ v.needed.droppable e.sequence then r
    else { r.copy e with tombstoneBytes := r.tombstoneBytes + e.size }
  | .changeMarker =>
    let e := { e with key := [] }
    { r.copy e with changeMarkerBytes := r.changeMarkerBytes + e.size }
  | .bulkBegin | .bulkEnd =>
    let e := { e with key := [], value := [] }
    { r.copy e with markerBytes := r.markerBytes + e.size }

def emitAll (v : VacuumScan) (es : List (DataEntry × ℕ)) : VacuumScanResult := es.foldl v.emitEntry {}

end VacuumScan

def vacuumScanAndCopy (v : VacuumScan) (cancelAfter : Option ℕ) (file : DataFile) : Except DbError VacuumScanResult :=
  let scan := scanCommitted file
  match cancelAfter.filter (· < scan.yielded.length) with
  | some k => .ok { v.emitAll (scan.yielded.take k) with cancelled := true }
  | none => if scan.damaged then .error .damage else .ok (v.emitAll scan.yielded)

namespace EngineState

def remap (dest : FileId) (s : EngineState) (m : VacuumMapping) : EngineState :=
  match kdGet s.keyDir m.key with
  | some cur =>
    if cur.sequence = m.sequence then
      { s with keyDir := (kdPut s.keyDir m.key ⟨m.sequence, m.newOffset, dest, m.valueSize⟩).1 }
    else s
  | none => s

def lostBytes (s : EngineState) (ms : List VacuumMapping) : ℕ :=
  ((ms.filter (fun m => ((kdGet s.keyDir m.key).map KeyDirEntry.sequence) ≠ some m.sequence)).map
    (fun m => entrySize m.key.length m.valueSize)).sum

def dropFile (s : EngineState) (id : FileId) : EngineState :=
  { s with files := s.files.erase id, fileStats := s.fileStats.erase id }

def applyVacuum (s : EngineState) (old : FileId) (scan : VacuumScanResult) (path : Path) (dest : FileId) : EngineState :=
  let t := scan.mappings.foldl (remap dest) { s with files := s.files.insert dest path }
  let stats : FileStats :=
    { liveBytes := scan.liveBytes - s.lostBytes scan.mappings
      totalBytes := scan.totalBytes
      minSequence := scan.minSequence
      maxSequence := scan.maxSequence
      tombstoneBytes := scan.tombstoneBytes
      markerBytes := scan.markerBytes
      changeMarkerBytes := scan.changeMarkerBytes }
  { t.dropFile old with fileStats := (t.dropFile old).fileStats.insert dest stats }

end EngineState

namespace Disk

def place (d : Disk) (es : List DataEntry) : Disk where
  files := d.files.insert d.nextPath { entries := es, durable := es.length }
  nextPath := d.nextPath + 1

end Disk

namespace Db

def vacuumDurable (current : EngineState) (decidedAt : ℕ) : Op Unit := do
  if current.durableSeq < decidedAt then
    if (← get).refused then throw .degraded
    syncActiveFile current

def vacuumCommit (apply : EngineState → EngineState) (decidedAt : ℕ) : Op Unit := do
  let current := (← get).published
  modify (fun db => { db with t := current })
  vacuumDurable current decidedAt
  modifyT apply
  storeState current (← get).t

def unlinkFile (path : Path) : Op Unit := ioWhole (fun d => d.remove path)

def vacuumRemoveFile (id : FileId) : Op Unit := do
  let snap := (← get).published
  barrier (vacuumCommit (fun t => t.dropFile id) (snap.nextSeq - 1))
  unlinkFile (snap.pathOf id)

def stageCopy (needed : Recovery.NeededTombstones) (opts : VacuumOptions) (snap : EngineState) (id : FileId) :
    Op VacuumScanResult := do
  ioWhole (fun d => d)
  let file := ((← get).disk.files.get (snap.pathOf id)).getD {}
  let scan ← liftExcept (vacuumScanAndCopy ⟨snap, id, needed, opts.retainAfter⟩ opts.cancelAfter file.data)
  ioWhole (fun d => d)
  return scan

def reserveCopyId : Op FileId := barrier do
  let current := (← get).published
  modify (fun db => { db with t := current })
  let dest ← reserveFileId
  storeState current (← get).t
  return dest

def replaceWithCopy (opts : VacuumOptions) (snap : EngineState) (id : FileId) (scan : VacuumScanResult) : Op Bool := do
  let path := (← get).disk.nextPath
  ioWhole (fun d => d.place scan.copied)
  let published ← onError (do
      ioWhole (fun d => d)
      if opts.cancelLate then
        attempt (unlinkFile path)
        return false
      let dest ← reserveCopyId
      openDataFileForRead
      ioWhole (fun d => d)
      barrier (vacuumCommit (fun t => t.applyVacuum id scan path dest) (snap.nextSeq - 1))
      return true)
    (attempt (unlinkFile path))
  if published then unlinkFile (snap.pathOf id)
  return published

def vacuumCompactFile (needed : Recovery.NeededTombstones) (opts : VacuumOptions) (id : FileId) : Op Bool := do
  let snap := (← get).published
  if maxFileId < snap.nextFileId then throw .fileIdsExhausted
  let scan ← stageCopy needed opts snap id
  if scan.cancelled then return false
  -- Nothing to reclaim: an identical file would be churn.
  if ((snap.fileStats.get id).map FileStats.totalBytes).getD 0 ≤ scan.totalBytes then return false
  if scan.totalBytes = 0 then
    vacuumRemoveFile id
    return true
  replaceWithCopy opts snap id scan

end Db

end Bytecask
