import Bytecask.DataFile
import Bytecask.EngineState
import Bytecask.Lib.Fallible

/-! The database of one process: the directory, the published state, the prepared head and the
transient an operation works on. Every I/O call may fail, or be where the process stops. -/

namespace Bytecask

def maxSequence : ℕ := 2 ^ 48 - 1

def maxFileId : FileId := 2 ^ 20 - 1

structure Config where
  rotationThreshold : ℕ
  maxKeyBytes : ℕ := 4096
  maxValueBytes : ℕ := 4 * 2 ^ 20
  maxBatchBytes : ℕ := 2 ^ 30
  maxGroupFileBytes : ℕ := 2 ^ 32

structure Fault where
  stops : Bool := false
  done : Bool := false
  kept : ℕ := 0
  beyond : ℕ := 0
  tail : Tail := .zeros
deriving DecidableEq, Repr

/-- A data file. `entries` lie below the writer's logical end; past it are whole records of an append
that failed, and then `tail`. The first `durable` entries survive a power cut. -/
structure DiskFile where
  entries : List DataEntry := []
  beyond : List DataEntry := []
  tail : Tail := .zeros
  durable : ℕ := 0
deriving DecidableEq, Repr

def DiskFile.data (f : DiskFile) : DataFile := ⟨f.entries ++ f.beyond, f.tail⟩

structure Disk where
  files : SortedMap Path DiskFile := SortedMap.empty
  nextPath : Path := 0
deriving DecidableEq

namespace Disk

def adjust (d : Disk) (p : Path) (f : DiskFile → DiskFile) : Disk := { d with files := d.files.adjust p f }

def append (d : Disk) (p : Path) (es : List DataEntry) : Disk :=
  d.adjust p (fun f => { f with entries := f.entries ++ es })

def failAppend (d : Disk) (p : Path) (es : List DataEntry) (fault : Fault) : Disk :=
  d.adjust p (fun f => { f with
    entries := f.entries ++ es.take fault.kept
    beyond := (es.drop fault.kept).take fault.beyond
    tail := fault.tail })

def sync (d : Disk) (p : Path) : Disk := d.adjust p (fun f => { f with durable := f.entries.length })

def shrink (d : Disk) (p : Path) : Disk :=
  d.adjust p (fun f => { f with beyond := [], tail := .zeros, durable := f.entries.length })

/-- Names are numbers in the order of creation, for the names no file has that the source mints from the time and a salt. -/
def create (d : Disk) : Disk where
  files := d.files.insert d.nextPath {}
  nextPath := d.nextPath + 1

def remove (d : Disk) (p : Path) : Disk := { d with files := d.files.erase p }

def size (d : Disk) (p : Path) : ℕ := ((d.files.get p).map (fun f => bytesOf f.entries)).getD 0

end Disk

namespace EngineState

def pathOf (s : EngineState) (id : FileId) : Path := (s.files.get id).getD 0

def activePath (s : EngineState) : Path := (s.files.get s.activeFileId).getD 0

def fileIdsLeft (s : EngineState) : ℕ := if maxFileId < s.nextFileId then 0 else maxFileId - s.nextFileId + 1

def isWriteAllowed (s : EngineState) : Bool := s.mode = .leader && !s.degraded

def isIngestionAllowed (s : EngineState) : Bool := s.mode = .follower && !s.degraded

end EngineState

inductive DbError where
  | stopped
  | io
  | damage
  | degraded
  | followerMode
  | notFollower
  | sequenceSpaceExhausted (needed : ℕ)
  | fileIdsExhausted
  | undoFault
  | planTooLarge (bytes : ℕ)
  | notIncreasing (sequence previous : ℕ)
  | markerMalformed
  | keyTooLarge (size : ℕ)
  | valueTooLarge (size : ℕ)
  | sequenceTooLarge (sequence : ℕ)
  | beginInBatch
  | endWithoutBatch
  | batchTooLarge
  | endsInsideBatch
  | gap (fromSequence position : ℕ)
  | markerMismatch (at' : ℕ) (source mine : ChangeMarker)
deriving DecidableEq, Repr

structure Db where
  disk : Disk := {}
  published : EngineState := {}
  head : EngineState := {}
  /-- The transient of the operation that runs; it keeps its changes when the operation throws. -/
  t : EngineState := {}
  writeFault : Bool := false
  flushError : Bool := false
  /-- What becomes of the next I/O calls; those past the end of the list succeed. -/
  faults : List (Option Fault) := []
deriving DecidableEq

abbrev Op := EStateM DbError Db

namespace Db

def refused (db : Db) : Bool := db.published.degraded || db.writeFault

def takeFault : Op (Option Fault) := do
  let db ← get
  match db.faults with
  | [] => pure none
  | f :: fs => set { db with faults := fs }; pure f

def io (done : Disk → Disk) (failed : Fault → Disk → Disk) : Op Unit := do
  match ← takeFault with
  | none => modify (fun db => { db with disk := done db.disk })
  | some f =>
    modify (fun db => { db with disk := failed f db.disk })
    throw (if f.stops then .stopped else .io)

def ioWhole (effect : Disk → Disk) : Op Unit := io effect (fun f d => if f.done then effect d else d)

def appendEntries (p : Path) (es : List DataEntry) : Op Unit := do
  if es = [] then return
  io (fun d => d.append p es) (fun f d => d.failAppend p es f)

def sync (p : Path) : Op Unit := io (fun d => d.sync p) (fun _ d => d)

def shrinkToFit (p : Path) : Op Unit := ioWhole (fun d => d.shrink p)

def openDataFileForRead : Op Unit := ioWhole id

def createActiveFile : Op Path := do
  let p := (← get).disk.nextPath
  ioWhole Disk.create
  return p

def catching {α : Type} (m : Op α) (handler : DbError → Op α) : Op α :=
  tryCatch m (fun e => if e = .stopped then throw e else handler e)

def onError {α : Type} (m : Op α) (handler : Op Unit) : Op α := catching m (fun e => do handler; throw e)

def attempt (m : Op Unit) : Op Unit := catching m (fun _ => pure ())

/-- `store_state` with its checks: a state that would go back on the one before degrades the engine. -/
def storeState (old new : EngineState) : Op Unit := modify (fun db =>
  if new.nextSeq < old.nextSeq ∨ new.activeFileId < old.activeFileId ∨ new.nextFileId < old.nextFileId ∨
      new.durableSeq < old.durableSeq ∨ new.durableSeq < new.syncRequestedSeq then
    { db with published := db.published.applyDegrade }
  else { db with published := new })

def storeHead (s : EngineState) : Op Unit := modify (fun db => { db with head := s })

def modifyT (f : EngineState → EngineState) : Op Unit := modify (fun db => { db with t := f db.t })

def refuseWrites : Op Unit := modify (fun db =>
  { db with writeFault := true, published := db.published.applyDegrade })

def degradeFrom (current : EngineState) : Op Unit := do
  modify (fun db => { db with published := current.applyDegrade })
  refuseWrites

def degradeTransient (current : EngineState) : Op Unit := do
  modifyT EngineState.applyDegrade
  storeState current (← get).t
  refuseWrites

def reserveFileId : Op FileId := do
  let t := (← get).t
  if t.fileIdsLeft = 0 then throw .fileIdsExhausted
  modifyT (fun t => t.reserveFileId.1)
  return t.nextFileId

def prepareRotation : Op (Path × Path × FileId) := do
  let old := (← get).t.activePath
  shrinkToFit old
  openDataFileForRead
  let id ← reserveFileId
  let new ← createActiveFile
  return (old, new, id)

def finishRotation (r : Path × Path × FileId) : Op Unit := modifyT (fun t => t.applyRotateFile r.1 r.2.1 r.2.2)

/-- Seals the active file and opens the next one; `handler` is for a next file that cannot be had. -/
def rotation (handler : Op Unit) : Op Unit := do
  let r ← onError prepareRotation handler
  finishRotation r

def flushFailed (published : EngineState) : Op Unit := do
  modify (fun db => { db with flushError := true })
  degradeFrom published

def flushed (head published : EngineState) : EngineState :=
  { head with durableSeq :=
      if published.durableSeq < head.syncRequestedSeq then head.nextSeq - 1 else published.durableSeq }

def flushPending : Op Unit := do
  let db ← get
  if db.refused then return
  let needSync := db.published.durableSeq < db.head.syncRequestedSeq
  if db.head.nextSeq ≤ db.published.nextSeq ∧ ¬ needSync then return
  if needSync then
    if ! (← catching (do sync db.head.activePath; pure true) (fun _ => do flushFailed db.published; pure false)) then
      return
  storeState db.published (flushed db.head db.published)

/-- A barrier operation: it runs with everything flushed, and the head is the published state after it. -/
def barrier {α : Type} (m : Op α) : Op α := do
  flushPending
  let r ← onError m (do storeHead (← get).published)
  storeHead (← get).published
  return r

def syncActiveFile (current : EngineState) : Op Unit := do
  onError (sync (← get).t.activePath) (degradeTransient current)
  modifyT (fun t => t.applySync (t.nextSeq - 1))

end Db

end Bytecask
