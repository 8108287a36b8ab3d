import Bytecask.Db
import Bytecask.Mirror
import Bytecask.PatchMap.Versions
import Bytecask.WritePlan

/-! The transient state with the key directory as it is held: locations without keys, sequences or sizes, which are
read from the records, those not yet written from the batch being built. -/

namespace Bytecask.Blind

open EngineState

open PatchMap (FileStatsWords FileStatsDeltaWords fileStatsPolicy)

structure BlindRef where
  fileId : FileId
  offset : ℕ
deriving DecidableEq, Repr

structure PendingRecord where
  sequence : ℕ
  valueSize : ℕ
  key : Bytes
deriving DecidableEq, Repr

abbrev PendingRecords := BlindRef → Option PendingRecord

abbrev FileReader (ε : Type) := BlindRef → Except ε PendingRecord

abbrev KeyDirTree := SortedMap Bytes BlindRef

structure KeyDirHit where
  ref : BlindRef
  size : ℕ

def toBlindRef (e : KeyDirEntry) : BlindRef := ⟨e.fileId, e.fileOffset⟩

def kdHit (record : KeyDirEntry) : KeyDirHit := ⟨toBlindRef record, record.valueSize⟩

variable {ε : Type}

structure KeyDirCtx (ε : Type) where
  files : FileReader ε
  pending : PendingRecords := fun _ => none

def KeyDirCtx.keyAt (ctx : KeyDirCtx ε) (r : BlindRef) : Except ε PendingRecord :=
  match ctx.pending r with
  | some record => .ok record
  | none => ctx.files r

def KeyDirCtx.entryAt (ctx : KeyDirCtx ε) (r : BlindRef) : Except ε KeyDirEntry :=
  (ctx.keyAt r).map (fun record => ⟨record.sequence, r.offset, r.fileId, record.valueSize⟩)

def kdGet (d : KeyDirTree) (key : Bytes) (ctx : KeyDirCtx ε) : Except ε (Option KeyDirEntry) :=
  match d.get key with
  | none => .ok none
  | some r => (ctx.entryAt r).map some

def displaced (ctx : KeyDirCtx ε) : Option BlindRef → Except ε (Option KeyDirHit)
  | none => .ok none
  | some r => (ctx.keyAt r).map (fun record => some ⟨r, record.valueSize⟩)

/-- A key that is not held is placed by comparing it with records beside it. Those reads are left out, so what is said of a
put stands where the records of the directory can be read. -/
def kdPut (d : KeyDirTree) (key : Bytes) (e : KeyDirEntry) (ctx : KeyDirCtx ε) :
    Except ε (KeyDirTree × Option KeyDirHit) :=
  (displaced ctx (d.get key)).map (fun was => (d.insert key (toBlindRef e), was))

def kdErase (d : KeyDirTree) (key : Bytes) (ctx : KeyDirCtx ε) : Except ε (KeyDirTree × Option KeyDirHit) :=
  (displaced ctx (d.get key)).map (fun was => (d.erase key, was))

def kdHolds (d : KeyDirTree) (key : Bytes) (record : KeyDirEntry) : Bool := d.get key = some (toBlindRef record)

def replaceAt (d : KeyDirTree) (key : Bytes) (old new : BlindRef) : Option KeyDirTree :=
  if d.get key = some old then some (d.insert key new) else none

def eraseAt (d : KeyDirTree) (key : Bytes) (old : BlindRef) : Option KeyDirTree :=
  if d.get key = some old then some (d.erase key) else none

def kdPutAt (d : KeyDirTree) (key : Bytes) (record e : KeyDirEntry) : Option KeyDirTree :=
  replaceAt d key (toBlindRef record) (toBlindRef e)

def kdEraseAt (d : KeyDirTree) (key : Bytes) (record : KeyDirEntry) : Option KeyDirTree :=
  eraseAt d key (toBlindRef record)

def kdRestore (d : KeyDirTree) (key : Bytes) (now : KeyDirEntry) (was : KeyDirHit) : Option KeyDirTree :=
  replaceAt d key (toBlindRef now) was.ref

def kdRemove (d : KeyDirTree) (key : Bytes) (now : KeyDirEntry) : Option KeyDirTree := eraseAt d key (toBlindRef now)

structure Snapshot (ε : Type) where
  keyDir : KeyDirTree
  files : FileReader ε

namespace Snapshot

def kdCtx (s : Snapshot ε) : KeyDirCtx ε := { files := s.files }

def resolveEntry (s : Snapshot ε) : WriteOp → Except ε (Option KeyDirEntry)
  | .pointPut key _ => kdGet s.keyDir key s.kdCtx
  | .pointDel key => kdGet s.keyDir key s.kdCtx
  | .rangeDel _ _ => .ok none

def resolveSnapshotEntries (s : Snapshot ε) (writes : List WriteOp) : Except ε (List (Option KeyDirEntry)) :=
  writes.mapM s.resolveEntry

end Snapshot

structure WritePlan (ε : Type) where
  snap : Option (Snapshot ε) := none
  writes : List WriteOp := []
  guards : SortedMap Bytes Precondition := SortedMap.empty
  rangeGuards : List RangeGuard := []
  snapEntries : List (Option KeyDirEntry) := []
  guards_snap : snap = none → rangeGuards = [] ∧ ∀ e ∈ guards.entries, e.2 ≠ .mustBeUnchanged
  resolved : snapEntries = [] ∨ ∃ s, snap = some s ∧ s.resolveSnapshotEntries writes = .ok snapEntries

namespace WritePlan

def isEmpty (p : WritePlan ε) : Bool := p.writes.isEmpty && p.guards.entries.isEmpty && p.rangeGuards.isEmpty

def multi (p : WritePlan ε) : Bool := 1 < p.writes.length

def writeBytes (p : WritePlan ε) : ℕ :=
  (p.writes.map WriteOp.bytes).sum + if p.multi then 2 * (headerSize + crcSize) else 0

def resolvedEntry (p : WritePlan ε) (i : ℕ) : Option KeyDirEntry := p.snapEntries[i]?.join

def snapshotEntry (p : WritePlan ε) (s : Snapshot ε) (i : ℕ) (key : Bytes) : Except ε (Option KeyDirEntry) :=
  match p.snapEntries[i]? with
  | some e => .ok e
  | none => kdGet s.keyDir key s.kdCtx

def placed (p : WritePlan ε) (offsets : List ℕ) : List ((WriteOp × ℕ) × ℕ) :=
  p.writes.zipIdx.zip (if p.multi then offsets.tail else offsets)

end WritePlan

inductive Stop (ε : Type) where
  | thrown (e : ε)
  | lost (restsOn : ℕ)

def reading {α : Type} (x : Except ε α) : Except (Stop ε) α := x.mapError .thrown

structure Transient (ε : Type) where
  keyDir : KeyDirTree := SortedMap.empty
  files : FileReader ε
  pending : PendingRecords := fun _ => none
  fileStats : SortedMap FileId FileStatsWords := SortedMap.empty
  activeFileId : FileId := 0
  nextSeq : ℕ := 1

namespace Transient

def kdCtx (t : Transient ε) : KeyDirCtx ε := { files := t.files, pending := t.pending }

def headLatest (t : Transient ε) : ℕ := t.nextSeq - 1

def readSeq (t : Transient ε) (cur : Option KeyDirEntry) : ℕ := (cur.map KeyDirEntry.sequence).getD t.headLatest

def checkGuard (t : Transient ε) (p : WritePlan ε) (key : Bytes) (pre : Precondition) : Except (Stop ε) ℕ := do
  let cur ← reading (kdGet t.keyDir key t.kdCtx)
  match pre with
  | .mustExist => if cur.isSome then return t.readSeq cur else throw (.lost t.headLatest)
  | .mustBeAbsent => if cur.isSome then throw (.lost (t.readSeq cur)) else return t.readSeq cur
  | .mustBeUnchanged =>
    match p.snap with
    -- Refused when the plan was built.
    | none => return 0
    | some s =>
      let snapEntry ← reading (kdGet s.keyDir key s.kdCtx)
      if sequenceOr0 cur = sequenceOr0 snapEntry then return t.readSeq cur
      else throw (.lost (t.readSeq cur))
  | .none => return 0

def rangeChanged (t : Transient ε) (s : Snapshot ε) (lo hi : Bytes) : Except (Stop ε) Unit := do
  (t.keyDir.range lo hi).forM (fun e => do
    let entry ← reading (t.kdCtx.entryAt e.2)
    let snapEntry ← reading (kdGet s.keyDir e.1 s.kdCtx)
    if entry.sequence ≠ sequenceOr0 snapEntry then throw (.lost entry.sequence))
  (s.keyDir.range lo hi).forM (fun e => do
    let cur ← reading (kdGet t.keyDir e.1 t.kdCtx)
    if cur.isNone then throw (.lost t.headLatest))

def checkRangeGuard (t : Transient ε) (s : Snapshot ε) (g : RangeGuard) : Except (Stop ε) ℕ := do
  t.rangeChanged s g.lo g.hi
  return t.headLatest

def pointConflict (t : Transient ε) (p : WritePlan ε) (s : Snapshot ε) (i : ℕ) (key : Bytes) : Except (Stop ε) Unit := do
  let snapEntry ← reading (p.snapshotEntry s i key)
  if snapEntry.any (fun at' => kdHolds t.keyDir key at') then return
  let cur ← reading (kdGet t.keyDir key t.kdCtx)
  match snapEntry, cur with
  | none, none => return
  | none, some _ => throw (.lost (t.readSeq cur))
  | some _, none => throw (.lost (t.readSeq cur))
  | some e, some c => if c.sequence ≠ e.sequence then throw (.lost (t.readSeq cur))

def writeConflict (t : Transient ε) (p : WritePlan ε) (s : Snapshot ε) (w : WriteOp × ℕ) : Except (Stop ε) Unit :=
  match w.1 with
  | .pointPut key _ => t.pointConflict p s w.2 key
  | .pointDel key => t.pointConflict p s w.2 key
  | .rangeDel lo hi => t.rangeChanged s lo hi

def validatePreconditions (t : Transient ε) (p : WritePlan ε) (deferPuts : Bool) : Except (Stop ε) ℕ := do
  let heldOn ← p.guards.entries.foldlM (fun r g => (t.checkGuard p g.1 g.2).map (max r)) 0
  match p.snap with
  | none => return heldOn
  | some s =>
    let heldOn ← p.rangeGuards.foldlM (fun _ g => t.checkRangeGuard s g) heldOn
    if !deferPuts then p.writes.zipIdx.forM (t.writeConflict p s)
    return heldOn

def prepareWrite (t : Transient ε) (p : WritePlan ε) : List DataEntry :=
  if p.multi then
    ⟨t.nextSeq, .bulkBegin, [], []⟩ :: opEntries (t.nextSeq + 1) p.writes ++
      [⟨t.nextSeq + 1 + p.writes.length, .bulkEnd, [], []⟩]
  else opEntries t.nextSeq p.writes

def patch (t : Transient ε) (id : FileId) (d : FileStatsDeltaWords) : Transient ε :=
  { t with fileStats := t.fileStats.adjust id (fun fs => fileStatsPolicy.apply fs d) }

def release (t : Transient ε) (key : Bytes) (existing : Option KeyDirHit) : Transient ε :=
  match existing with
  | some hit => t.patch hit.ref.fileId { liveRemoved := .ofNat (entrySize key.length hit.size) }
  | none => t

def notePending (t : Transient ε) (offset : ℕ) (key : Bytes) (valueSize : ℕ) : Transient ε :=
  { t with pending := Function.update t.pending ⟨t.activeFileId, offset⟩ (some ⟨t.nextSeq, valueSize, key⟩) }

def newEntry (t : Transient ε) (offset valueSize : ℕ) : KeyDirEntry := ⟨t.nextSeq, offset, t.activeFileId, valueSize⟩

def advance (t : Transient ε) : Transient ε := { t with nextSeq := t.nextSeq + 1 }

def applyMarker (t : Transient ε) : Transient ε :=
  let m := UInt64.ofNat (markerSize .bulkBegin)
  (t.patch t.activeFileId { totalAdded := m, markerAdded := m }).advance

def applyPut (p : WritePlan ε) (t : Transient ε) (i : ℕ) (key value : Bytes) (offset : ℕ) : Except ε (Transient ε) := do
  let t := t.notePending offset key value.length
  let entry := t.newEntry offset value.length
  let byLocation := (p.resolvedEntry i).bind (fun at' =>
    (kdPutAt t.keyDir key at' entry).map (fun d => (d, some (kdHit at'))))
  let (keyDir, existing) ←
    match byLocation with
    | some placed => .ok placed
    | none => kdPut t.keyDir key entry t.kdCtx
  let sz := UInt64.ofNat (entrySize key.length value.length)
  return (({ t with keyDir }.release key existing).patch t.activeFileId { liveAdded := sz, totalAdded := sz }).advance

def applyDel (p : WritePlan ε) (t : Transient ε) (i : ℕ) (key : Bytes) : Except ε (Transient ε) := do
  let byLocation := (p.resolvedEntry i).bind (fun at' =>
    (kdEraseAt t.keyDir key at').map (fun d => (d, some (kdHit at'))))
  let (keyDir, existing) ←
    match byLocation with
    | some erased => .ok erased
    | none => kdErase t.keyDir key t.kdCtx
  let sz := UInt64.ofNat (entrySize key.length 0)
  return (({ t with keyDir }.release key existing).patch t.activeFileId { totalAdded := sz, tombstoneAdded := sz }).advance

def releaseKey (ctx : KeyDirCtx ε) (t : Transient ε) (e : Bytes × BlindRef) : Except ε (Transient ε) :=
  (ctx.keyAt e.2).map (fun record => t.release e.1 (some ⟨e.2, record.valueSize⟩))

def eraseKey (ctx : KeyDirCtx ε) (d : KeyDirTree) (e : Bytes × BlindRef) : Except ε KeyDirTree :=
  (kdErase d e.1 ctx).map Prod.fst

def applyRangeDel (t : Transient ε) (lo hi : Bytes) : Except ε (Transient ε) := do
  let gone := t.keyDir.range lo hi
  let released ← gone.foldlM (releaseKey t.kdCtx) t
  let keyDir ← gone.foldlM (eraseKey t.kdCtx) t.keyDir
  let sz := UInt64.ofNat (entrySize lo.length hi.length)
  return ({ released with keyDir }.patch t.activeFileId { totalAdded := sz, tombstoneAdded := sz }).advance

def applyWrite (p : WritePlan ε) (t : Transient ε) (w : (WriteOp × ℕ) × ℕ) : Except ε (Transient ε) :=
  match w.1.1 with
  | .pointPut key value => applyPut p t w.1.2 key value w.2
  | .pointDel key => applyDel p t w.1.2 key
  | .rangeDel lo hi => t.applyRangeDel lo hi

def applyWrites (t : Transient ε) (p : WritePlan ε) (offsets : List ℕ) : Except ε (Transient ε) := do
  let began := if p.multi then t.applyMarker else t
  let written ← (p.placed offsets).foldlM (applyWrite p) began
  let ended := if p.multi then written.applyMarker else written
  return ended.patch t.activeFileId { minSequence := .ofNat t.nextSeq, maxSequence := .ofNat (ended.nextSeq - 1) }

def canApplyPutsChecked (p : WritePlan ε) : Bool :=
  p.snap.isSome && !p.writes.isEmpty && p.snapEntries.length = p.writes.length && p.writes.all WriteOp.isPointPut

structure Undo where
  key : Bytes
  now : KeyDirEntry
  was : Option KeyDirHit

structure Descents (ε : Type) where
  t : Transient ε
  undo : List Undo := []
  done : ℕ := 0
  confirmed : Bool := true

/-- The puts of a plan, each placed by the descent that checks it, up to one that cannot be confirmed. -/
def checkedPuts (p : WritePlan ε) : List ((WriteOp × ℕ) × ℕ) → Descents ε → Except ε (Descents ε)
  | [], c => .ok c
  | ((.pointPut key value, i), offset) :: rest, c => do
    let t := c.t.notePending offset key value.length
    let entry := t.newEntry offset value.length
    match p.resolvedEntry i with
    | some at' =>
      match kdPutAt t.keyDir key at' entry with
      | some keyDir =>
        checkedPuts p rest
          { c with t := { t with keyDir }.advance, undo := ⟨key, entry, some (kdHit at')⟩ :: c.undo, done := c.done + 1 }
      | none => return { c with t, confirmed := false }
    | none =>
      let (keyDir, was) ← kdPut t.keyDir key entry t.kdCtx
      let undo := ⟨key, entry, was⟩ :: c.undo
      -- The key appeared since the snapshot.
      if was.isSome then return { c with t := { t with keyDir }, undo, confirmed := false }
      checkedPuts p rest { c with t := { t with keyDir }.advance, undo, done := c.done + 1 }
  -- A plan that is checked this way holds puts only.
  | ((.pointDel _, _), _) :: _, c => .ok { c with confirmed := false }
  | ((.rangeDel _ _, _), _) :: _, c => .ok { c with confirmed := false }

def takeBack (d : KeyDirTree) (u : Undo) : Option KeyDirTree :=
  match u.was with
  | some was => kdRestore d u.key u.now was
  | none => kdRemove d u.key u.now

def dropPending (id : FileId) (pending : PendingRecords) (offsets : List ℕ) : PendingRecords :=
  offsets.foldl (fun p offset => Function.update p ⟨id, offset⟩ none) pending

inductive CheckedResult (ε : Type) where
  | applied (t : Transient ε)
  | abandoned (t : Transient ε)
  | undoFault

def abandon (nextSeq : ℕ) (puts : List ℕ) (c : Descents ε) : CheckedResult ε :=
  match c.undo.foldlM takeBack c.t.keyDir with
  | some keyDir =>
    .abandoned { c.t with keyDir, nextSeq, pending := dropPending c.t.activeFileId c.t.pending (puts.take (c.done + 1)) }
  | none => .undoFault

/-- The counters of a confirmed plan land only now, as `apply_writes` would leave them: a patch cannot be taken back. -/
def settle (t : Transient ε) (p : WritePlan ε) (c : Descents ε) : Transient ε :=
  let u := if p.multi then c.t.advance else c.t
  let putBytes := UInt64.ofNat (p.writes.map WriteOp.bytes).sum
  let markers := UInt64.ofNat (if p.multi then 2 * markerSize .bulkBegin else 0)
  let u := u.patch t.activeFileId
    { liveAdded := putBytes, totalAdded := putBytes + markers, markerAdded := markers,
      minSequence := .ofNat t.nextSeq, maxSequence := .ofNat (u.nextSeq - 1) }
  c.undo.reverse.foldl (fun u x => u.release x.key x.was) u

def applyPutsChecked (t : Transient ε) (p : WritePlan ε) (offsets : List ℕ) : Except ε (CheckedResult ε) :=
  (checkedPuts p (p.placed offsets) { t := if p.multi then t.advance else t }).map (fun c =>
    if c.confirmed then .applied (settle t p c)
    else abandon t.nextSeq (if p.multi then offsets.tail else offsets) c)

end Transient

inductive SlotOutcome (ε : Type) where
  | empty
  | conflict (restsOn : ℕ)
  | nothing (restsOn : ℕ)
  | refused (e : DbError)
  | applied (t : Transient ε) (entries : List DataEntry)

inductive Verdict (ε : Type) where
  | lost (restsOn : ℕ)
  | applied (restsOn : ℕ) (t : Transient ε)
  | undoFault

def twoPasses (t : Transient ε) (p : WritePlan ε) (offsets : List ℕ) : Except ε (Verdict ε) :=
  match t.validatePreconditions p false with
  | .error (.thrown e) => .error e
  | .error (.lost restsOn) => .ok (.lost restsOn)
  | .ok restsOn => (t.applyWrites p offsets).map (.applied restsOn)

def applyChecked (t : Transient ε) (p : WritePlan ε) (offsets : List ℕ) (restsOn : ℕ) : Except ε (Verdict ε) := do
  match ← t.applyPutsChecked p offsets with
  | .applied u => return .applied restsOn u
  -- A put the descents could not confirm leaves the plan unapplied.
  | .abandoned u => twoPasses u p offsets
  | .undoFault => return .undoFault

def Verdict.outcome (entries : List DataEntry) : Verdict ε → SlotOutcome ε
  | .lost restsOn => .conflict restsOn
  | .applied _ t => .applied t entries
  | .undoFault => .refused .undoFault

def executeSlot (cfg : Config) (twoPass canRotate : Bool) (t : Transient ε) (runningOffset : ℕ) (p : WritePlan ε) :
    Except ε (SlotOutcome ε) :=
  if p.isEmpty then .ok .empty
  else
    let checked := Transient.canApplyPutsChecked p && !twoPass
    match t.validatePreconditions p checked with
    | .error (.thrown e) => .error e
    | .error (.lost restsOn) => .ok (.conflict restsOn)
    | .ok restsOn =>
      match (t.prepareWrite p).getLast? with
      | none => .ok (.nothing restsOn)
      | some last =>
        if maxSequence < last.sequence then .ok (.refused (.sequenceSpaceExhausted last.sequence))
        else if !canRotate && cfg.rotationThreshold ≤ runningOffset + p.writeBytes then .ok (.refused .fileIdsExhausted)
        else
          let offsets := offsetsFrom runningOffset (t.prepareWrite p)
          if checked then (applyChecked t p offsets restsOn).map (Verdict.outcome (t.prepareWrite p))
          else (t.applyWrites p offsets).map (.applied · (t.prepareWrite p))

end Bytecask.Blind
