import Bytecask.KeyDir

/-! The engine state and the transitions that do not depend on a write plan. -/

namespace Bytecask

abbrev Path := ℕ

inductive Mode where
  | leader
  | follower
deriving DecidableEq, Repr

structure EngineState where
  keyDir : KeyDir := SortedMap.empty
  files : SortedMap FileId Path := SortedMap.empty
  fileStats : SortedMap FileId FileStats := SortedMap.empty
  activeFileId : FileId := 0
  nextFileId : FileId := 0
  nextSeq : ℕ := 1
  durableSeq : ℕ := 0
  syncRequestedSeq : ℕ := 0
  mode : Mode := .leader
  degraded : Bool := false
  changeMarkers : List ChangeMarker := []
deriving DecidableEq

namespace EngineState

variable (s : EngineState) (id : FileId) (d : FileStatsDelta)

def patch (s : EngineState) (id : FileId) (d : FileStatsDelta) : EngineState :=
  { s with fileStats := s.fileStats.adjust id (fun fs => fs.apply d) }

def release (s : EngineState) (key : Bytes) (existing : Option KeyDirEntry) : EngineState :=
  match existing with
  | some e => s.patch e.fileId { liveRemoved := entrySize key.length e.valueSize }
  | none => s

def appendMarker (s : EngineState) (m : ChangeMarker) : EngineState :=
  { s with changeMarkers := s.changeMarkers ++ [m] }

def applyChangeMarker (s : EngineState) (sequence : ℕ) (id : MarkerId) : EngineState :=
  let sz := changeMarkerSize .changeMarker
  let t := s.patch s.activeFileId
    { totalAdded := sz, changeMarkerAdded := sz, minSequence := sequence, maxSequence := sequence }
  { t with nextSeq := if t.nextSeq ≤ sequence then sequence + 1 else t.nextSeq }.appendMarker ⟨sequence, id⟩

def eraseRange (s : EngineState) (lo hi : Bytes) (lost : KeyDirEntry → Bool) : EngineState :=
  let gone := (kdRange s.keyDir lo hi).filter (fun e => lost e.2)
  let t := gone.foldl (fun t e => t.release e.1 (some e.2)) s
  { t with keyDir := gone.foldl (fun d e => (kdErase d e.1).1) t.keyDir }

def applyIngestEntry (s : EngineState) (e : DataEntry) (offset : ℕ) : EngineState :=
  match e.entryType with
  | .bulkBegin | .bulkEnd =>
    let m := markerSize e.entryType
    s.patch s.activeFileId { totalAdded := m, markerAdded := m }
  | .changeMarker =>
    let m := changeMarkerSize e.entryType
    (s.patch s.activeFileId { totalAdded := m, changeMarkerAdded := m }).appendMarker
      ⟨e.sequence, decodeMarkerId e.value⟩
  | .put =>
    let (keyDir, existing) := kdPut s.keyDir e.key ⟨e.sequence, offset, s.activeFileId, e.value.length⟩
    let sz := entrySize e.key.length e.value.length
    ({ s with keyDir }.release e.key existing).patch s.activeFileId { liveAdded := sz, totalAdded := sz }
  | .delete =>
    let (keyDir, existing) := kdErase s.keyDir e.key
    let sz := entrySize e.key.length 0
    ({ s with keyDir }.release e.key existing).patch s.activeFileId { totalAdded := sz, tombstoneAdded := sz }
  | .rangeDel =>
    let sz := entrySize e.key.length e.value.length
    (s.eraseRange e.key e.value (fun _ => true)).patch s.activeFileId
      { totalAdded := sz, tombstoneAdded := sz }

def applyIngest (s : EngineState) (entries : List DataEntry) (offsets : List ℕ) : EngineState :=
  match entries with
  | [] => s
  | first :: _ =>
    let maxSeq := entries.foldl (fun m e => max m e.sequence) 0
    let t := (entries.zip offsets).foldl (fun t p => t.applyIngestEntry p.1 p.2) s
    { t with nextSeq := if t.nextSeq ≤ maxSeq then maxSeq + 1 else t.nextSeq }.patch s.activeFileId
      { minSequence := first.sequence, maxSequence := maxSeq }

def applyRotateFile (s : EngineState) (sealedOld newFile : Path) (newFileId : FileId) : EngineState :=
  { s with
    files := (s.files.insert s.activeFileId sealedOld).insert newFileId newFile
    activeFileId := newFileId
    fileStats := s.fileStats.insert newFileId {} }

def reserveFileId (s : EngineState) : EngineState × FileId :=
  ({ s with nextFileId := s.nextFileId + 1 }, s.nextFileId)

def applySync (s : EngineState) (batchMaxSeq : ℕ) : EngineState :=
  { s with durableSeq := max s.durableSeq batchMaxSeq }

def noteSyncRequested (s : EngineState) (seq : ℕ) : EngineState :=
  { s with syncRequestedSeq := max s.syncRequestedSeq seq }

def applySetMode (s : EngineState) (mode : Mode) : EngineState := { s with mode }

def applyDegrade (s : EngineState) : EngineState := { s with degraded := true }

def applyClearDegraded (s : EngineState) : EngineState := { s with degraded := false }

@[simp] lemma patch_keyDir :
    (s.patch id d).keyDir = s.keyDir := rfl

@[simp] lemma patch_activeFileId :
    (s.patch id d).activeFileId = s.activeFileId := rfl

@[simp] lemma patch_nextSeq :
    (s.patch id d).nextSeq = s.nextSeq := rfl

@[simp] lemma patch_changeMarkers :
    (s.patch id d).changeMarkers = s.changeMarkers := rfl

lemma patch_fileStats : (s.patch id d).fileStats = s.fileStats.adjust id (fun fs => fs.apply d) := rfl

def rest (s : EngineState) : EngineState :=
  { s with keyDir := SortedMap.empty, fileStats := SortedMap.empty, changeMarkers := [] }

lemma ext_rest {s t : EngineState} (hk : s.keyDir = t.keyDir) (hf : s.fileStats = t.fileStats)
    (hc : s.changeMarkers = t.changeMarkers) (hr : s.rest = t.rest) : s = t := by
  cases s
  simp_all [rest]

end EngineState

end Bytecask
