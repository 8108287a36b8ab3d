import Bytecask.Commit

/-! Mode changes, manifests and the ingestion of a leader's changes. -/

namespace Bytecask

structure ChangeHeader where
  marker : ChangeMarker := originMarker
  fromSequence : ℕ := 0
deriving DecidableEq, Repr

structure SliceCheck where
  previous : ℕ
  inBatch : Bool := false
  batchBytes : ℕ := 0

def SliceCheck.batchBytesAfter (c : SliceCheck) (e : DataEntry) (inBatch : Bool) : ℕ :=
  (if e.entryType = .bulkBegin then 0 else c.batchBytes) + if inBatch then e.size else 0

def checkEntry (cfg : Config) (c : SliceCheck) (e : DataEntry) : Except DbError SliceCheck :=
  let inBatch := c.inBatch || e.entryType = .bulkBegin
  let batchBytes := c.batchBytesAfter e inBatch
  if e.sequence ≤ c.previous then .error (.notIncreasing e.sequence c.previous)
  else if e.entryType = .changeMarker ∧ (c.inBatch ∨ e.key ≠ [] ∨ e.value.length ≠ changeMarkerIdBytes) then
    .error .markerMalformed
  else if cfg.maxKeyBytes < e.key.length then .error (.keyTooLarge e.key.length)
  else if e.entryType = .put ∧ cfg.maxValueBytes < e.value.length then .error (.valueTooLarge e.value.length)
  else if maxSequence < e.sequence then .error (.sequenceTooLarge e.sequence)
  else if e.entryType = .bulkBegin ∧ c.inBatch then .error .beginInBatch
  else if e.entryType = .bulkEnd ∧ ¬ inBatch then .error .endWithoutBatch
  else if inBatch ∧ cfg.maxBatchBytes < batchBytes then .error .batchTooLarge
  else .ok ⟨e.sequence, inBatch && e.entryType ≠ .bulkEnd, batchBytes⟩

def checkSlice (cfg : Config) (fromSequence : ℕ) (entries : List DataEntry) : Except DbError Unit := do
  let c ← entries.foldlM (checkEntry cfg) { previous := fromSequence }
  if c.inBatch then throw .endsInsideBatch

structure IngestChunk where
  stop : ℕ
  needsRotation : Bool
  endSize : ℕ

def ingestChunkFrom (threshold : ℕ) : List DataEntry → (inBatch : Bool) → (i fileSize : ℕ) → IngestChunk
  | [], _, i, fileSize => ⟨i, false, fileSize⟩
  | e :: es, inBatch, i, fileSize =>
    let fileSize := fileSize + e.size
    let inBatch := if e.entryType = .bulkBegin then true else if e.entryType = .bulkEnd then false else inBatch
    if !inBatch && threshold ≤ fileSize && es ≠ [] then ⟨i + 1, true, fileSize⟩
    else ingestChunkFrom threshold es inBatch (i + 1) fileSize

def ingestChunk (cfg : Config) (entries : List DataEntry) (fileSize : ℕ) : IngestChunk :=
  ingestChunkFrom cfg.rotationThreshold entries false 0 fileSize

/-- In the source the count is a `uint32_t`. -/
def countRotations (cfg : Config) : (fuel : ℕ) → List DataEntry → (size : ℕ) → ℕ
  | 0, _, _ => 0
  | n + 1, rest, size =>
    if rest = [] then if cfg.rotationThreshold ≤ size then 1 else 0
    else
      let chunk := ingestChunk cfg rest size
      let rest := rest.drop chunk.stop
      if chunk.needsRotation then 1 + countRotations cfg n rest 0 else countRotations cfg n rest chunk.endSize

def sourceMarker (header : ChangeHeader) (entries : List DataEntry) (at' : ℕ) : ChangeMarker :=
  (entries.takeWhile (fun e => e.sequence ≤ at')).foldl
    (fun m e => if e.entryType = .changeMarker then ⟨e.sequence, decodeMarkerId e.value⟩ else m) header.marker

namespace Db

def stepDown (current : EngineState) : Op Unit := do
  if !(← get).refused && current.durableSeq < current.nextSeq - 1 then syncActiveFile current
  modifyT (fun t => t.applySetMode .follower)
  storeState current (← get).t

def promoted (cfg : Config) (current : EngineState) (id : MarkerId) : Op Unit := do
  modifyT (fun t => t.applyChangeMarker current.nextSeq id)
  syncActiveFile current
  let db ← get
  if cfg.rotationThreshold ≤ db.disk.size db.t.activePath ∧ db.t.fileIdsLeft ≠ 0 then
    rotation (degradeTransient current)
  modifyT (fun t => t.applySetMode .leader)
  storeState current (← get).t

def promote (cfg : Config) (current : EngineState) (id : MarkerId) : Op Unit := do
  if (← get).refused then throw .degraded
  let seq := current.nextSeq
  if maxSequence < seq then throw (.sequenceSpaceExhausted seq)
  let file := current.activePath
  onError (appendEntries file [⟨seq, .changeMarker, [], encodeMarkerId id⟩]) (do
    attempt (sync file)
    degradeFrom current)
  onError (promoted cfg current id) refuseWrites

def setMode (cfg : Config) (mode : Mode) (id : MarkerId) : Op Unit := barrier do
  let current := (← get).published
  if mode = current.mode then return
  modify (fun db => { db with t := current })
  match mode with
  | .follower => stepDown current
  | .leader => promote cfg current id

/-- `create_manifest` as far as it changes the engine: everything synced, and the active file sealed. -/
def createManifest : Op Unit := barrier do
  let db ← get
  let current := db.published
  if db.refused then throw .degraded
  modify (fun db => { db with t := current })
  syncActiveFile current
  rotation (degradeTransient current)
  storeState current (← get).t

def syncIngested (current : EngineState) : Op Unit :=
  onError (do
      sync (← get).t.activePath
      modifyT (fun t => t.applySync (t.nextSeq - 1)))
    (degradeFrom current)

def ingestRotate (current : EngineState) : Op Unit := do
  syncIngested current
  rotation (degradeFrom current)

def ingestLoop (cfg : Config) (current : EngineState) : (fuel : ℕ) → List DataEntry → Op Unit
  | 0, _ => pure ()
  | n + 1, remaining => do
    if remaining = [] then return
    let db ← get
    let file := db.t.activePath
    let size := db.disk.size file
    let next := ingestChunk cfg remaining size
    let chunk := remaining.take next.stop
    modifyT (fun t => t.applyIngest chunk (offsetsFrom size chunk))
    onError (appendEntries file chunk) (do
      attempt (sync file)
      degradeFrom current)
    if next.needsRotation then ingestRotate current
    ingestLoop cfg current n (remaining.drop next.stop)

def ingestEntries (cfg : Config) (current : EngineState) (remaining : List DataEntry) : Op Unit := do
  ingestLoop cfg current remaining.length remaining
  let db ← get
  if cfg.rotationThreshold ≤ db.disk.size db.t.activePath then ingestRotate current
  syncIngested current
  storeState current (← get).t

def checkHistory (s : EngineState) (header : ChangeHeader) (entries : List DataEntry) : Except DbError Unit := do
  let position := s.durableSeq
  if position < header.fromSequence then throw (.gap header.fromSequence position)
  let last := (entries.getLast?.map DataEntry.sequence).getD header.fromSequence
  let at' := min position last
  let source := sourceMarker header entries at'
  let mine := markerAt s.changeMarkers at'
  if source ≠ mine then throw (.markerMismatch at' source mine)

def ingestRefusal (db : Db) : Option DbError :=
  if !db.published.isIngestionAllowed then some (if db.published.degraded then .degraded else .notFollower)
  else if db.writeFault then some .degraded else none

def liftExcept {α : Type} : Except DbError α → Op α
  | .ok a => pure a
  | .error e => throw e

def ingest (cfg : Config) (header : ChangeHeader) (entries : List DataEntry) : Op Unit := do
  if let some e := (← get).ingestRefusal then throw e
  liftExcept (checkSlice cfg header.fromSequence entries)
  barrier do
    let db ← get
    let current := db.published
    if !current.isIngestionAllowed then throw (if db.refused then .degraded else .notFollower)
    liftExcept (checkHistory current header entries)
    modify (fun db => { db with t := current })
    let remaining := entries.dropWhile (fun e => e.sequence ≤ current.durableSeq)
    if remaining = [] then return
    if current.fileIdsLeft <
        countRotations cfg (remaining.length + 1) remaining (db.disk.size current.activePath) then
      throw .fileIdsExhausted
    onError (ingestEntries cfg current remaining) refuseWrites

end Db

end Bytecask
