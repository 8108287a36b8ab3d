import Bytecask.Db
import Bytecask.Mirror
import Bytecask.WritePlan

/-! The commit path: a group of plans is applied to the head, appended in one call, and published by
the flush that covers it. -/

namespace Bytecask

structure Slot where
  plan : WritePlan
  sync : Bool := true

inductive SlotOutcome where
  | empty
  | conflict (restsOn : ℕ)
  | nothing (restsOn : ℕ)
  | refused (e : DbError)
  | applied (t : EngineState) (entries : List DataEntry)

def applySlot (t : EngineState) (plan : WritePlan) (offsets : List ℕ) : SlotOutcome :=
  let entries := t.prepareWrite plan
  if EngineState.canApplyPutsChecked plan then
    match t.applyPutsChecked plan offsets with
    | .applied t' => .applied t' entries
    | .abandoned t' =>
      -- A put the descents could not confirm: checked in a pass of its own, then applied.
      match t'.validatePreconditions plan false with
      | .error restsOn => .conflict restsOn
      | .ok _ => .applied (t'.applyWrites plan offsets) entries
    | .undoFault => .refused .undoFault
  else .applied (t.applyWrites plan offsets) entries

def executeSlot (cfg : Config) (canRotate : Bool) (t : EngineState) (runningOffset : ℕ) (plan : WritePlan) :
    SlotOutcome :=
  if plan.isEmpty then .empty
  else
    match t.validatePreconditions plan (EngineState.canApplyPutsChecked plan) with
    | .error restsOn => .conflict restsOn
    | .ok restsOn =>
      match (t.prepareWrite plan).getLast? with
      | none => .nothing restsOn
      | some last =>
        if maxSequence < last.sequence then .refused (.sequenceSpaceExhausted last.sequence)
        else if !canRotate && cfg.rotationThreshold ≤ runningOffset + plan.writeBytes then .refused .fileIdsExhausted
        else applySlot t plan (offsetsFrom runningOffset (t.prepareWrite plan))

structure Staged where
  t : EngineState
  entries : List DataEntry := []
  offset : ℕ
  outcomes : List SlotOutcome := []

namespace Staged

def add (g : Staged) (o : SlotOutcome) : Staged :=
  match o with
  | .applied t entries =>
    { t, entries := g.entries ++ entries, offset := g.offset + bytesOf entries, outcomes := g.outcomes ++ [o] }
  | _ => { g with outcomes := g.outcomes ++ [o] }

end Staged

/-- Phase 1: the slots in order, up to one that would take the file past its largest offset. The
first slot always goes in. -/
def stageSlots (cfg : Config) (canRotate : Bool) : List Slot → Staged → Staged
  | [], g => g
  | slot :: slots, g =>
    if g.outcomes ≠ [] ∧ cfg.maxGroupFileBytes < g.offset + slot.plan.writeBytes then g
    else stageSlots cfg canRotate slots (g.add (executeSlot cfg canRotate g.t g.offset slot.plan))

inductive SlotResult where
  | threw (e : DbError)
  | conflict (restsOn : ℕ)
  | committed (sequence syncThrough restsOn : ℕ)

def SlotOutcome.result (syncThrough : ℕ) : SlotOutcome → SlotResult
  | .empty => .committed 0 syncThrough 0
  | .conflict restsOn => .conflict restsOn
  | .nothing restsOn => .committed 0 syncThrough restsOn
  | .refused e => .threw e
  | .applied _ entries => .committed ((entries.getLast?.map DataEntry.sequence).getD 0) 0 0

namespace SlotResult

def fail (e : DbError) : SlotResult → SlotResult
  | .threw e' => .threw e'
  | _ => .threw e

def target : SlotResult → ℕ
  | .committed sequence syncThrough _ => if sequence ≠ 0 then sequence else syncThrough
  | _ => 0

end SlotResult

namespace Db

def writeRefusal (db : Db) : Option DbError :=
  if !db.published.isWriteAllowed then some (if db.published.degraded then .degraded else .followerMode)
  else if db.writeFault then some .degraded else none

/-- `commit_appended` past the point where the rotation barrier holds the flush role. -/
def rotateAppended (anySync : Bool) (batchMaxSeq : ℕ) : Op (Option DbError) := do
  flushPending
  let db ← get
  let published := db.published
  if db.refused then return some (if db.flushError then .io else .degraded)
  let file := db.t.activePath
  catching (do
    onError (do
        sync file
        modifyT (fun t => t.applySync batchMaxSeq))
      (degradeFrom published)
    rotation (degradeTransient published)
    if anySync then
      onError (do
          sync file
          modifyT (fun t => t.applySync batchMaxSeq))
        (degradeFrom published)
    storeState published (← get).t
    return none) (fun e => pure (some e))

/-- The head, or the rotation barrier and the publication after it. The result is the error of every
slot of the group, if there is one. -/
def commitAppended (cfg : Config) (anySync : Bool) (batchMaxSeq : ℕ) : Op (Option DbError) := do
  if anySync then modifyT (fun t => t.noteSyncRequested batchMaxSeq)
  let db ← get
  if db.disk.size db.t.activePath < cfg.rotationThreshold then
    storeHead db.t
    return none
  let e ← rotateAppended anySync batchMaxSeq
  storeHead (← get).published
  return e

def degradeAppend : Op Unit := do
  flushPending
  degradeFrom (← get).published
  storeHead (← get).published

def executeGroup (cfg : Config) (batch : List Slot) : Op (List SlotResult) := do
  let db ← get
  match db.writeRefusal with
  | some e => return batch.map (fun _ => .threw e)
  | none =>
    let canRotate := db.head.fileIdsLeft ≠ 0
    let file := db.head.activePath
    let staged := stageSlots cfg canRotate batch { t := db.head, offset := db.disk.size file }
    let taken := batch.take staged.outcomes.length
    let headLastSeq := staged.t.nextSeq - 1
    let syncThrough := fun (slot : Slot) =>
      if slot.sync && db.published.durableSeq < headLastSeq then headLastSeq else 0
    let results := (taken.zip staged.outcomes).map (fun p => p.2.result (syncThrough p.1))
    modify (fun db => { db with t := staged.t })
    if staged.entries = [] then
      -- A sync slot that appended nothing still waits for everything before it.
      if results.any (fun r => r.target ≠ 0) then
        modifyT (fun t => t.noteSyncRequested headLastSeq)
        storeHead (← get).t
      return results
    catching (do
        onError (appendEntries file staged.entries) (do
          attempt (sync file)
          degradeAppend)
        match ← commitAppended cfg (taken.any Slot.sync) headLastSeq with
        | none => return results
        | some e => return results.map (SlotResult.fail e))
      (fun e => pure (results.map (SlotResult.fail e)))

end Db

end Bytecask
