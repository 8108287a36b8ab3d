import Bytecask.Growth
import Bytecask.Recovery.Reopen

/-! `DB::open` of a directory: recovery, the repair of what an interrupted vacuum left, and the new active file. -/

namespace Bytecask

open Recovery (RecoveryError RecoveredFile Recovered recoveryLoadStreams)

/-- The data files of a directory in name order, each with its hint. The files have been prepared: nothing
follows their last committed record. -/
structure Directory where
  disk : Disk
  names : List Path
  hint : Path → HintFile

inductive OpenError where
  | load (e : RecoveryError)
  | corrupt (a b : Path)
  | unfinished
deriving DecidableEq, Repr

structure SequenceRange where
  min : ℕ
  max : ℕ
  fileId : FileId
deriving DecidableEq, Repr

structure RangeSort where
  sort : List SequenceRange → List SequenceRange
  perm : ∀ ranges, (sort ranges).Perm ranges
  sorted : ∀ ranges, (sort ranges).Pairwise (fun a b => a.min ≤ b.min)

def sequenceRanges (s : EngineState) : List SequenceRange :=
  (s.fileStats.entries.filter (fun e => 0 < e.2.minSequence)).map (fun e => ⟨e.2.minSequence, e.2.maxSequence, e.1⟩)

def firstOverlap : List SequenceRange → Option (FileId × FileId)
  | prev :: r :: ranges => if r.min ≤ prev.max then some (prev.fileId, r.fileId) else firstOverlap (r :: ranges)
  | _ => none

def findSequenceOverlap (sort : RangeSort) (s : EngineState) : Option (FileId × FileId) :=
  firstOverlap (sort.sort (sequenceRanges s))

def isCompactionOf : List DataEntry → List DataEntry → Bool
  | [], _ => true
  | _ :: _, [] => false
  | e :: copy, cand :: source =>
    if e.sequence < cand.sequence then false
    else if cand = e then isCompactionOf copy source
    else isCompactionOf (e :: copy) source

namespace Directory

def file (dir : Directory) (p : Path) : DiskFile := (dir.disk.files.get p).getD {}

def committed (dir : Directory) (p : Path) : List DataEntry := (scanCommitted (dir.file p).data).yielded.map Prod.fst

def remove (dir : Directory) (p : Path) : Directory :=
  { dir with disk := dir.disk.remove p, names := dir.names.erase p }

def registered (dir : Directory) : EngineState where
  files := dir.names.zipIdx.foldl (fun m p => m.insert p.2 p.1) SortedMap.empty
  nextFileId := dir.names.length

def recoveredFiles (dir : Directory) : List RecoveredFile :=
  dir.names.zipIdx.map (fun p => ⟨p.2, some (dir.hint p.1), dir.disk.size p.1⟩)

def pathOf (dir : Directory) (id : FileId) : Path := (dir.registered.files.get id).getD 0

variable (sort : RangeSort) (recoveryThreads : ℕ) (strict : Bool)

def pass (dir : Directory) : Except RecoveryError (Recovered ⊕ FileId × FileId) :=
  match recoveryLoadStreams dir.registered dir.recoveredFiles recoveryThreads strict with
  | .ok r =>
    match findSequenceOverlap sort r.state with
    | none => .ok (.inl r)
    | some overlap => .ok (.inr overlap)
  | .error (.sequenceOverlap a b) => .ok (.inr (a, b))
  | .error e => .error e

def recoveryUndoInterruptedVacuum (a b : Path) : EStateM OpenError Directory Unit := do
  let dir ← get
  let aSmaller := dir.disk.size a ≤ dir.disk.size b
  let copy := if aSmaller then a else b
  let source := if aSmaller then b else a
  if isCompactionOf (dir.committed copy) (dir.committed source) then set (dir.remove copy)
  else throw (.corrupt a b)

def recoveryLoop : ℕ → EStateM OpenError Directory Recovered
  | 0 => throw .unfinished
  | n + 1 => do
    let dir ← get
    match dir.pass sort recoveryThreads strict with
    | .error e => throw (.load e)
    | .ok (.inl r) => return r
    | .ok (.inr overlap) =>
      recoveryUndoInterruptedVacuum (dir.pathOf overlap.1) (dir.pathOf overlap.2)
      recoveryLoop n

def recoveryOpen : EStateM OpenError Directory Recovered := do
  let dir ← get
  recoveryLoop sort recoveryThreads strict (dir.names.length + 1)

end Directory

def EngineState.openActive (s : EngineState) (path : Path) (mode : Mode) : EngineState :=
  { s with
    files := s.files.insert s.nextFileId path
    fileStats := s.fileStats.insert s.nextFileId {}
    activeFileId := s.nextFileId
    nextFileId := s.nextFileId + 1
    durableSeq := s.nextSeq - 1
    mode }

end Bytecask
