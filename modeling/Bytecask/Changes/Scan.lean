import Bytecask.Changes.Index
import Bytecask.EngineState
import Bytecask.Lib.Machine
import Bytecask.RecordFormat

/-! `ChangeIterator`, as steps that hold the index's mutex at most once each, and any number of scans over one
index. -/

namespace Bytecask.Changes

inductive Phase where
  | scanning
  | opening (minSequence : ℕ) (id : FileId)
  | seeking
  | forgetting
  | replanning
  | paused
  | ended
  | failed
deriving DecidableEq, Repr

/-- `entries` and `damaged` are the committed scan of the current file. The last two fields record what the
caller was given and how many steps it took. -/
structure Scan where
  state : EngineState
  fromSequence : ℕ
  durableSequence : ℕ
  maxBytes : ℕ
  fileQueue : List (ℕ × FileId)
  phase : Phase := .scanning
  sent : ℕ := 0
  inBatch : Bool := false
  included : Bool := false
  done : Bool := false
  entries : List (DataEntry × ℕ) := []
  damaged : Bool := false
  needsAdvance : Bool := false
  fileId : FileId := 0
  plan : BookmarkPlan := {}
  laying : Bool := false
  pending : List Bookmark := []
  given : List DataEntry := []
  steps : ℕ := 0

def handOverBookmarks : ℕ := 256

def scanFrom (crc : Crc) (bytes : Bytes) (start : ℕ) : List (DataEntry × ℕ) × Bool :=
  let scan := scanCommitted (sweep crc (bytes.drop start))
  (scan.yielded.map (fun p => (p.1, start + p.2)), scan.damaged)

def bookmarkHolds (bytes : Bytes) (b : Bookmark) : Bool :=
  match readHeader (bytes.drop b.offset) with
  | none => false
  | some (h, _) => h.sequence = b.sequence

def QueueLe (a b : ℕ × FileId) : Prop := a.1 < b.1 ∨ (a.1 = b.1 ∧ a.2 ≤ b.2)

instance : DecidableRel QueueLe := fun _ _ => inferInstanceAs (Decidable (_ ∨ _))

namespace Scan

def queueOf (s : EngineState) (fromSequence : ℕ) : List (ℕ × FileId) :=
  ((s.fileStats.entries.filter (fun e => fromSequence < e.2.maxSequence && e.2.minSequence ≤ s.durableSeq)).map
    (fun e => (e.2.minSequence, e.1))).insertionSort QueueLe

/-- `changes_since`. -/
def start (s : EngineState) (fromSequence maxBytes : ℕ) : Scan where
  state := s
  fromSequence
  durableSequence := s.durableSeq
  maxBytes
  fileQueue := queueOf s fromSequence

def handOver (sc : Scan) (ix : ChangeIndex) : Scan × ChangeIndex :=
  if sc.pending = [] then (sc, ix)
  else
    match ix.extend sc.fileId sc.plan.generation sc.pending with
    | (some next, ix) => ({ sc with plan := next, pending := [] }, ix)
    | (none, ix) => ({ sc with laying := false, pending := [] }, ix)

def layBookmark (sc : Scan) (sequence offset : ℕ) (ix : ChangeIndex) : Scan × ChangeIndex :=
  if !sc.laying then (sc, ix)
  else if offset < sc.plan.nextOffset then (sc, ix)
  else
    let sc := { sc with
      pending := sc.pending ++ [⟨sequence, offset⟩]
      plan := { sc.plan with nextOffset := offset + sc.plan.spacing } }
    if handOverBookmarks ≤ sc.pending.length then sc.handOver ix else (sc, ix)

def finish (sc : Scan) (ix : ChangeIndex) : Scan × ChangeIndex := { sc with done := true }.handOver ix

def startUnit (sc : Scan) (e : DataEntry) (offset : ℕ) (ix : ChangeIndex) : Scan × ChangeIndex :=
  if sc.inBatch then (sc, ix)
  else
    let sc := { sc with included := sc.fromSequence < e.sequence }
    if e.sequence ≤ sc.durableSequence then sc.layBookmark e.sequence offset ix else (sc, ix)

def batchAfter (inBatch : Bool) : EntryType → Bool
  | .bulkBegin => true
  | .bulkEnd => false
  | _ => inBatch

def give (sc : Scan) (e : DataEntry) (ix : ChangeIndex) : Scan × ChangeIndex :=
  let sc := { sc with
    phase := .paused
    given := sc.given ++ [e]
    needsAdvance := true
    sent := sc.sent + e.size }
  if sc.maxBytes ≤ sc.sent ∧ !sc.inBatch then sc.finish ix else (sc, ix)

def readEntry (sc : Scan) (e : DataEntry) (offset : ℕ) (rest : List (DataEntry × ℕ)) (ix : ChangeIndex) :
    Scan × ChangeIndex :=
  let (sc, ix) := sc.startUnit e offset ix
  let sc := { sc with inBatch := batchAfter sc.inBatch e.entryType }
  if !sc.included then ({ sc with entries := rest }, ix)
  else if sc.durableSequence < e.sequence then { sc with phase := .ended }.finish ix
  else sc.give e ix

def nextFile (sc : Scan) (ix : ChangeIndex) : Scan × ChangeIndex :=
  match sc.fileQueue with
  | [] => { sc with phase := .ended }.handOver ix
  | (minSequence, id) :: queue =>
    let (sc, ix) := sc.handOver ix
    ({ sc with fileQueue := queue, inBatch := false, phase := .opening minSequence id }, ix)

section Read

variable (crc : Crc) (read : FileId → Bytes)

def enter (sc : Scan) (offset : ℕ) : Scan :=
  { sc with
    phase := .scanning
    entries := (scanFrom crc (read sc.fileId) offset).1
    damaged := (scanFrom crc (read sc.fileId) offset).2 }

def openFile (sc : Scan) (minSequence : ℕ) (id : FileId) (ix : ChangeIndex) : Scan :=
  if (sc.state.files.get id).isSome then
    let sc := { sc with fileId := id, plan := ix.plan id, laying := true }
    if minSequence ≤ sc.fromSequence then { sc with phase := .seeking } else sc.enter crc read 0
  else { sc with phase := .scanning }

def seek (sc : Scan) (ix : ChangeIndex) : Scan × ChangeIndex :=
  match ix.seek sc.fileId sc.fromSequence with
  | (none, ix) => (sc.enter crc read 0, ix)
  | (some b, ix) =>
    if bookmarkHolds (read sc.fileId) b then (sc.enter crc read b.offset, ix)
    else ({ sc with phase := .forgetting }, ix)

def proceed (sc : Scan) (ix : ChangeIndex) : Scan × ChangeIndex :=
  match sc.phase with
  | .scanning =>
    match sc.entries with
    | (e, offset) :: rest => sc.readEntry e offset rest ix
    | [] => if sc.damaged then ({ sc with phase := .failed }, ix) else sc.nextFile ix
  | .opening minSequence id => (sc.openFile crc read minSequence id ix, ix)
  | .seeking => sc.seek crc read ix
  | .forgetting => ({ sc with phase := .replanning }, ix.forget sc.fileId)
  | .replanning => ({ sc with plan := ix.plan sc.fileId }.enter crc read 0, ix)
  | .paused | .ended | .failed => (sc, ix)

def step (sc : Scan) (ix : ChangeIndex) : Scan × ChangeIndex := { sc with steps := sc.steps + 1 }.proceed crc read ix

end Read

def advance (sc : Scan) : Scan :=
  let sc := if sc.needsAdvance then { sc with entries := sc.entries.tail, needsAdvance := false } else sc
  { sc with phase := if sc.done then .ended else .scanning }

end Scan

structure System (κ : Type) where
  index : ChangeIndex
  scans : κ → Option Scan

inductive Action (κ : Type) where
  | begin (k : κ) (s : EngineState) (fromSequence maxBytes : ℕ)
  | step (k : κ)
  | advance (k : κ)
  | drop (k : κ)
  | forget (id : FileId)
  | clear

namespace System

variable {κ : Type} [DecidableEq κ]

def setScan (sys : System κ) (k : κ) (p : Scan × ChangeIndex) : System κ where
  index := p.2
  scans := Function.update sys.scans k (some p.1)

def next (crc : Crc) (read : FileId → Bytes) (sys : System κ) : Action κ → System κ
  | .begin k s fromSequence maxBytes => sys.setScan k (.start s fromSequence maxBytes, sys.index)
  | .step k =>
    match sys.scans k with
    | some sc => sys.setScan k (sc.step crc read sys.index)
    | none => sys
  | .advance k =>
    match sys.scans k with
    | some sc => sys.setScan k (sc.advance, sys.index)
    | none => sys
  | .drop k =>
    match sys.scans k with
    | some sc => { index := (sc.handOver sys.index).2, scans := Function.update sys.scans k none }
    | none => sys
  | .forget id => { sys with index := sys.index.forget id }
  | .clear => { sys with index := sys.index.clear }

end System

end Bytecask.Changes
