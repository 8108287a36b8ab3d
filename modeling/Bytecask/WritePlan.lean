import Bytecask.EngineState

/-! Write plans: the checks a plan makes against the head, the entries it appends and the two ways
it is applied. -/

namespace Bytecask

inductive Precondition where
  | none
  | mustExist
  | mustBeAbsent
  | mustBeUnchanged
deriving DecidableEq, Repr

inductive WriteOp where
  | pointPut (key value : Bytes)
  | pointDel (key : Bytes)
  | rangeDel (lo hi : Bytes)
deriving DecidableEq, Repr

structure RangeGuard where
  lo : Bytes
  hi : Bytes
deriving DecidableEq, Repr

structure WritePlan where
  snap : Option EngineState := none
  writes : List WriteOp := []
  guards : SortedMap Bytes Precondition := SortedMap.empty
  rangeGuards : List RangeGuard := []
  guards_snap : snap = none → rangeGuards = [] ∧ ∀ e ∈ guards.entries, e.2 ≠ .mustBeUnchanged

lemma WritePlan.unguarded : (none : Option EngineState) = none →
    ([] : List RangeGuard) = [] ∧ ∀ e ∈ (SortedMap.empty : SortedMap Bytes Precondition).entries, e.2 ≠ .mustBeUnchanged := by
  simp

namespace WriteOp

def bytes : WriteOp → ℕ
  | pointPut key value => entrySize key.length value.length
  | pointDel key => entrySize key.length 0
  | rangeDel lo hi => entrySize lo.length hi.length

def isPointPut : WriteOp → Bool
  | pointPut _ _ => true
  | pointDel _ => false
  | rangeDel _ _ => false

def entry (seq : ℕ) : WriteOp → DataEntry
  | pointPut key value => ⟨seq, .put, key, value⟩
  | pointDel key => ⟨seq, .delete, key, []⟩
  | rangeDel lo hi => ⟨seq, .rangeDel, lo, hi⟩

end WriteOp

namespace WritePlan

def isEmpty (p : WritePlan) : Bool := p.writes.isEmpty && p.guards.entries.isEmpty && p.rangeGuards.isEmpty

def multi (p : WritePlan) : Bool := 1 < p.writes.length

def writeBytes (p : WritePlan) : ℕ :=
  (p.writes.map WriteOp.bytes).sum + if p.multi then 2 * (headerSize + crcSize) else 0

def snapGet (p : WritePlan) (key : Bytes) : Option KeyDirEntry := p.snap.bind (fun s => kdGet s.keyDir key)

def resolvedEntry (p : WritePlan) : WriteOp → Option KeyDirEntry
  | .pointPut key _ => p.snapGet key
  | .pointDel key => p.snapGet key
  | .rangeDel _ _ => none

end WritePlan

namespace EngineState

def sequenceOr0 (e : Option KeyDirEntry) : ℕ := (e.map KeyDirEntry.sequence).getD 0

def headLatest (s : EngineState) : ℕ := s.nextSeq - 1

def readSeq (s : EngineState) (cur : Option KeyDirEntry) : ℕ :=
  (cur.map KeyDirEntry.sequence).getD s.headLatest

def rangeChanged (s snap : EngineState) (lo hi : Bytes) : Option ℕ :=
  match (kdRange s.keyDir lo hi).find? (fun e => e.2.sequence ≠ sequenceOr0 (kdGet snap.keyDir e.1)) with
  | some e => some e.2.sequence
  | none =>
    if (kdRange snap.keyDir lo hi).any (fun e => (kdGet s.keyDir e.1).isNone) then some s.headLatest else none

def checkGuard (s : EngineState) (p : WritePlan) (key : Bytes) : Precondition → Except ℕ ℕ
  | .mustExist =>
    match kdGet s.keyDir key with
    | some e => .ok e.sequence
    | none => .error s.headLatest
  | .mustBeAbsent =>
    match kdGet s.keyDir key with
    | some e => .error e.sequence
    | none => .ok s.headLatest
  | .mustBeUnchanged =>
    let cur := kdGet s.keyDir key
    if sequenceOr0 cur = sequenceOr0 (p.snapGet key) then .ok (s.readSeq cur) else .error (s.readSeq cur)
  | .none => .ok 0

def pointConflict (s : EngineState) (p : WritePlan) (op : WriteOp) (key : Bytes) : Option ℕ :=
  let snapEntry := p.resolvedEntry op
  if snapEntry.any (fun at' => kdHolds s.keyDir key at') then none
  else
    match snapEntry, kdGet s.keyDir key with
    | none, none => none
    | none, some cur => some cur.sequence
    | some _, none => some s.headLatest
    | some e, some cur => if cur.sequence = e.sequence then none else some cur.sequence

def writeConflict (s snap : EngineState) (p : WritePlan) (op : WriteOp) : Option ℕ :=
  match op with
  | .pointPut key _ => s.pointConflict p op key
  | .pointDel key => s.pointConflict p op key
  | .rangeDel lo hi => s.rangeChanged snap lo hi

/-- `.ok r` when every check passes and `.error r` when one fails; `r` is the sequence the answer rests on. -/
def validatePreconditions (s : EngineState) (p : WritePlan) (deferPuts : Bool) : Except ℕ ℕ := do
  let heldOn ← p.guards.entries.foldlM (fun r g => (s.checkGuard p g.1 g.2).map (max r)) 0
  match p.snap with
  | none => return heldOn
  | some snap =>
    let heldOn ← p.rangeGuards.foldlM (fun _ g =>
      match s.rangeChanged snap g.lo g.hi with
      | some r => .error r
      | none => .ok s.headLatest) heldOn
    if deferPuts then return heldOn
    match p.writes.findSome? (s.writeConflict snap p) with
    | some r => .error r
    | none => return heldOn

def opEntries (seq : ℕ) : List WriteOp → List DataEntry
  | [] => []
  | op :: ops => op.entry seq :: opEntries (seq + 1) ops

@[simp] lemma opEntries_length (seq : ℕ) (ops : List WriteOp) : (opEntries seq ops).length = ops.length := by
  induction ops generalizing seq with
  | nil => rfl
  | cons op ops ih => simp [opEntries, ih]

def prepareWrite (s : EngineState) (p : WritePlan) : List DataEntry :=
  if p.multi then
    ⟨s.nextSeq, .bulkBegin, [], []⟩ :: opEntries (s.nextSeq + 1) p.writes ++
      [⟨s.nextSeq + 1 + p.writes.length, .bulkEnd, [], []⟩]
  else opEntries s.nextSeq p.writes

def applyMarker (s : EngineState) : EngineState :=
  let m := markerSize .bulkBegin
  { s.patch s.activeFileId { totalAdded := m, markerAdded := m } with nextSeq := s.nextSeq + 1 }

def applyWrite (p : WritePlan) (s : EngineState) (op : WriteOp) (offset : ℕ) : EngineState :=
  match op with
  | .pointPut key value =>
    let entry := ⟨s.nextSeq, offset, s.activeFileId, value.length⟩
    let byLocation := (p.resolvedEntry op).bind (fun at' =>
      (kdPutAt s.keyDir key at' entry).map (fun d => (d, some (kdHit at'))))
    let (keyDir, existing) := byLocation.getD (kdPut s.keyDir key entry)
    let sz := entrySize key.length value.length
    let t := ({ s with keyDir }.release key existing).patch s.activeFileId { liveAdded := sz, totalAdded := sz }
    { t with nextSeq := s.nextSeq + 1 }
  | .pointDel key =>
    let byLocation := (p.resolvedEntry op).bind (fun at' =>
      (kdEraseAt s.keyDir key at').map (fun d => (d, some (kdHit at'))))
    let (keyDir, existing) := byLocation.getD (kdErase s.keyDir key)
    let sz := entrySize key.length 0
    let t := ({ s with keyDir }.release key existing).patch s.activeFileId
      { totalAdded := sz, tombstoneAdded := sz }
    { t with nextSeq := s.nextSeq + 1 }
  | .rangeDel lo hi =>
    let sz := entrySize lo.length hi.length
    let t := (s.eraseRange lo hi (fun _ => true)).patch s.activeFileId { totalAdded := sz, tombstoneAdded := sz }
    { t with nextSeq := s.nextSeq + 1 }

def applyWrites (s : EngineState) (p : WritePlan) (offsets : List ℕ) : EngineState :=
  let began := if p.multi then s.applyMarker else s
  let ops := p.writes.zip (if p.multi then offsets.tail else offsets)
  let written := ops.foldl (fun t op => t.applyWrite p op.1 op.2) began
  let ended := if p.multi then written.applyMarker else written
  ended.patch s.activeFileId { minSequence := s.nextSeq, maxSequence := ended.nextSeq - 1 }

def canApplyPutsChecked (p : WritePlan) : Bool :=
  p.snap.isSome && !p.writes.isEmpty && p.writes.all WriteOp.isPointPut

structure Undo where
  key : Bytes
  now : KeyDirEntry
  was : Option KeyDirEntry

/-- The puts of a plan, each placed by the descent that checks it. `.error` holds the directory as
the put that could not be confirmed leaves it; the undo log is newest first either way. -/
def checkedPuts (p : WritePlan) (fileId : FileId) :
    List (WriteOp × ℕ) → KeyDir → ℕ → List Undo → Except (KeyDir × List Undo) (KeyDir × List Undo)
  | [], d, _, undo => .ok (d, undo)
  | (.pointPut key value, offset) :: rest, d, seq, undo =>
    let entry := ⟨seq, offset, fileId, value.length⟩
    match p.snapGet key with
    | some at' =>
      match kdPutAt d key at' entry with
      | some d' => checkedPuts p fileId rest d' (seq + 1) (⟨key, entry, some (kdHit at')⟩ :: undo)
      | none => .error (d, undo)
    | none =>
      let (d', was) := kdPut d key entry
      match was with
      | some _ => .error (d', ⟨key, entry, was⟩ :: undo)
      | none => checkedPuts p fileId rest d' (seq + 1) (⟨key, entry, none⟩ :: undo)
  | (_, _) :: _, d, _, undo => .error (d, undo)

def takeBack (d : KeyDir) (u : Undo) : Option KeyDir :=
  match u.was with
  | some was => kdRestore d u.key u.now was
  | none => kdRemove d u.key u.now

def abandon (d : KeyDir) (undo : List Undo) : Option KeyDir := undo.foldlM takeBack d

inductive CheckedResult where
  | applied (s : EngineState)
  | abandoned (s : EngineState)
  | undoFault

def applyPutsChecked (s : EngineState) (p : WritePlan) (offsets : List ℕ) : CheckedResult :=
  let ops := p.writes.zip (if p.multi then offsets.tail else offsets)
  let firstPut := if p.multi then s.nextSeq + 1 else s.nextSeq
  match checkedPuts p s.activeFileId ops s.keyDir firstPut [] with
  | .error (d, undo) =>
    match abandon d undo with
    | some keyDir => .abandoned { s with keyDir }
    | none => .undoFault
  | .ok (keyDir, undo) =>
    let nextSeq := firstPut + p.writes.length + if p.multi then 1 else 0
    let putBytes := (p.writes.map WriteOp.bytes).sum
    let markers := if p.multi then 2 * markerSize .bulkBegin else 0
    let t := { s with keyDir, nextSeq }.patch s.activeFileId
      { liveAdded := putBytes, totalAdded := putBytes + markers, markerAdded := markers,
        minSequence := s.nextSeq, maxSequence := nextSeq - 1 }
    .applied (undo.reverse.foldl (fun t u => t.release u.key u.was) t)

end EngineState

end Bytecask
