import Bytecask.EngineState
import Bytecask.Hint

/-! Hint-stream recovery: fences and bounds of each file, one merge for each key range, and the state
they make together. -/

namespace Bytecask.Recovery

inductive RecoveryError where
  | unreadableHint
  | rangeTombstoneInRun
  | hintNotSorted
  | badPosition
  | keysNotAscending
  | sequenceOverlap (a b : FileId)
  | sharedSequence
  | packedLimit
deriving DecidableEq, Repr

structure RecoveredFile where
  fileId : FileId
  hint : Option HintFile
  totalBytes : ℕ

structure RangeTombstone where
  start : Bytes
  «end» : Bytes
  seq : ℕ
  fileId : FileId
  needed : Bool := false
deriving DecidableEq

structure NeededTombstones where
  horizon : ℕ := 0
  sequences : List ℕ := []
deriving DecidableEq, Repr

structure Fence where
  key : Bytes
  «at» : Position

structure FileRun where
  hint : Option HintFile
  dataStart : Position := ⟨0, 0⟩
  fences : List Fence := []
  rangeTombstones : List RangeTombstone := []
  stats : FileStats
  maxSeq : ℕ := 0
  markers : List ChangeMarker := []
  inData : Bool := false
  nextFence : Position := ⟨0, 0⟩
  prevKey : Option Bytes := none

def fenceStep : ℕ := 4096

def countHint (st : FileStats) (he : HintEntry) : FileStats :=
  { st with
    minSequence := if st.minSequence = 0 ∨ he.sequence < st.minSequence then he.sequence else st.minSequence
    maxSequence := max st.maxSequence he.sequence
    tombstoneBytes := st.tombstoneBytes + tombstoneSize he.entryType he.key.length he.endKey.length
    markerBytes := st.markerBytes + markerSize he.entryType
    changeMarkerBytes := st.changeMarkerBytes + changeMarkerSize he.entryType }

def FileRun.enter (run : FileRun) (pos : Position) : FileRun :=
  if run.inData then run else { run with inData := true, dataStart := pos }

def FileRun.fence (run : FileRun) (pos : Position) (key : Bytes) : FileRun :=
  if run.nextFence.le pos then
    { run with
      fences := run.fences ++ [⟨key, pos⟩]
      nextFence := ⟨pos.frame, (pos.offset / fenceStep + 1) * fenceStep⟩ }
  else run

def FileRun.data (run : FileRun) (pos : Position) (he : HintEntry) : FileRun :=
  if run.prevKey = some he.key then run.enter pos
  else { (run.enter pos).fence pos he.key with prevKey := some he.key }

def FileRun.meet (fileId : FileId) (run : FileRun) (p : Position × HintEntry) : FileRun :=
  let run := { run with maxSeq := max run.maxSeq p.2.sequence, stats := countHint run.stats p.2 }
  match p.2.entryType with
  | .bulkBegin | .bulkEnd => run
  | .changeMarker => { run with markers := run.markers ++ [⟨p.2.sequence, p.2.markerId⟩] }
  | .rangeDel =>
    { run with rangeTombstones := run.rangeTombstones ++ [⟨p.2.key, p.2.endKey, p.2.sequence, fileId, false⟩] }
  | .put | .delete => run.data p.1 p.2

def scanStep (fileId : FileId) (run : FileRun) (p : Position × HintEntry) : Except RecoveryError FileRun :=
  if p.2.entryType = .rangeDel ∧ run.inData then .error .rangeTombstoneInRun else .ok (run.meet fileId p)

def scanFile (strict : Bool) (rf : RecoveredFile) : Except RecoveryError FileRun :=
  match rf.hint with
  | none => if strict then .error .unreadableHint else .ok { hint := none, stats := { totalBytes := rf.totalBytes } }
  | some h => do
    let scan := h.makeScanner.drain (h.entries.length + 1)
    let run ← scan.1.foldlM (scanStep rf.fileId) { hint := some h, stats := { totalBytes := rf.totalBytes } }
    return if run.inData then run else { run with dataStart := scan.2.position }

def splitters (w : ℕ) (pool : List Bytes) : List Bytes :=
  (List.range' 1 (w - 1)).foldl (fun acc r =>
    match pool[r * pool.length / w]? with
    | none => acc
    | some k => if acc.getLast?.all (fun last => last < k) then acc ++ [k] else acc) []

def belowHi (hi : Option Bytes) (k : Bytes) : Bool := hi.all (fun h => k < h)

structure Cursor where
  fileId : FileId
  cur : HintEntry
  lookahead : Option HintEntry
  stream : List HintEntry

def nextData : List HintEntry → Except RecoveryError (Option (HintEntry × List HintEntry))
  | [] => .ok none
  | he :: rest =>
    match he.entryType with
    | .put | .delete => .ok (some (he, rest))
    | .rangeDel => .error .rangeTombstoneInRun
    | .bulkBegin | .bulkEnd | .changeMarker => nextData rest

def loadKey (cur : HintEntry) : List HintEntry → Except RecoveryError (HintEntry × Option HintEntry × List HintEntry)
  | [] => .ok (cur, none, [])
  | he :: rest =>
    match he.entryType with
    | .put | .delete =>
      if he.key < cur.key then .error .hintNotSorted
      else if he.key = cur.key then loadKey (if cur.sequence < he.sequence then he else cur) rest
      else .ok (cur, some he, rest)
    | .rangeDel => .error .rangeTombstoneInRun
    | .bulkBegin | .bulkEnd | .changeMarker => loadKey cur rest

def load (hi : Option Bytes) (fileId : FileId) (lookahead : Option HintEntry) (stream : List HintEntry) :
    Except RecoveryError (Option Cursor) := do
  let first ← match lookahead with
    | some he => .ok (some (he, stream))
    | none => nextData stream
  match first with
  | none => return none
  | some (he, rest) =>
    if belowHi hi he.key then
      let (cur, ahead, rest) ← loadKey he rest
      return some ⟨fileId, cur, ahead, rest⟩
    else return none

def skipBelow (lo : Bytes) : List HintEntry → Except RecoveryError (Option HintEntry × List HintEntry)
  | [] => .ok (none, [])
  | he :: rest =>
    match he.entryType with
    | .put | .delete => if he.key < lo then skipBelow lo rest else .ok (some he, rest)
    | .rangeDel => .error .rangeTombstoneInRun
    | .bulkBegin | .bulkEnd | .changeMarker => skipBelow lo rest

def openCursor (lo : Bytes) (hi : Option Bytes) (fileId : FileId) (run : FileRun) :
    Except RecoveryError (Option Cursor) :=
  match run.hint with
  | none => .ok none
  | some h => do
    let below := if lo = [] then none else (run.fences.takeWhile (fun f => f.key < lo)).getLast?
    let start := (below.map Fence.at).getD run.dataStart
    match h.makeScanner.seek start with
    | none => .error .badPosition
    | some sc =>
      if lo = [] then load hi fileId none sc.rest
      else
        let (ahead, rest) ← skipBelow lo sc.rest
        load hi fileId ahead rest

def kdeNewer (a b : KeyDirEntry) : Except RecoveryError Bool :=
  if a.sequence ≠ b.sequence then .ok (b.sequence < a.sequence)
  else if a.fileId ≠ b.fileId then .error (.sequenceOverlap a.fileId b.fileId)
  else if a.fileOffset ≠ b.fileOffset then .error .sharedSequence
  else .ok false

/-- Without the limits of the packed form, which `recoveryLoadPacked` checks. -/
def Cursor.entry (c : Cursor) : KeyDirEntry := ⟨c.cur.sequence, c.cur.fileOffset, c.fileId, c.cur.valueSize⟩

def pickWinner (first : Cursor) (others : List Cursor) : Except RecoveryError Cursor :=
  others.foldlM (fun winner c => do
    let newer ← kdeNewer c.entry winner.entry
    return if newer then c else winner) first

def olderPutElsewhere (found : List Cursor) (seq : ℕ) (file : FileId) : Bool :=
  found.any (fun c => c.cur.entryType = .put && c.cur.sequence < seq && c.fileId != file)

def RangeTombstone.covers (rt : RangeTombstone) (key : Bytes) : Bool := rt.start ≤ key && key < rt.end

def markNeeded (key : Bytes) (found : List Cursor) (needed : List ℕ) (ranges : List RangeTombstone) :
    List ℕ × List RangeTombstone :=
  (needed ++ (found.filter (fun c => c.cur.entryType = .delete &&
      olderPutElsewhere found c.cur.sequence c.fileId)).map (fun c => c.cur.sequence),
    ranges.map (fun rt =>
      if rt.needed || !rt.covers key then rt
      else { rt with needed := olderPutElsewhere found rt.seq rt.fileId }))

structure RangeOut where
  run : List (Bytes × KeyDirEntry) := []
  live : SortedMap FileId ℕ := SortedMap.empty
  needed : List ℕ := []
  ranges : List RangeTombstone

def RangeOut.append (out : RangeOut) (key : Bytes) (e : KeyDirEntry) : Except RecoveryError RangeOut :=
  if out.run.getLast?.all (fun last => last.1 < key) then
    .ok { out with
      run := out.run ++ [(key, e)]
      live := out.live.insert e.fileId ((out.live.get e.fileId).getD 0 + entrySize key.length e.valueSize) }
  else .error .keysNotAscending

def mergeKey (rts : List RangeTombstone) (key : Bytes) (first : Cursor) (others : List Cursor) (out : RangeOut) :
    Except RecoveryError RangeOut := do
  let winner ← pickWinner first others
  let (needed, ranges) := markNeeded key (first :: others) out.needed out.ranges
  let out := { out with needed, ranges }
  let keep := winner.cur.entryType = .put && !rts.any (fun rt => winner.cur.sequence < rt.seq && rt.covers key)
  if keep then out.append key winner.entry else return out

def leastKey (c : Cursor) (heap : List Cursor) : Bytes := heap.foldl (fun k c => min k c.cur.key) c.cur.key

def mergeLoop (rts : List RangeTombstone) (hi : Option Bytes) :
    ℕ → List Cursor → RangeOut → Except RecoveryError RangeOut
  | 0, _, out => .ok out
  | _ + 1, [], out => .ok out
  | n + 1, c :: heap, out => do
    let key := leastKey c heap
    match (c :: heap).partition (fun c => c.cur.key = key) with
    | ([], _) => .ok out
    | (first :: others, rest) =>
      let out ← mergeKey rts key first others out
      let loaded ← (first :: others).mapM (fun c => load hi c.fileId c.lookahead c.stream)
      mergeLoop rts hi n (rest ++ loaded.reduceOption) out

def mergeRange (runs : List (FileId × FileRun)) (tombstones : List RangeTombstone) (lo : Bytes) (hi : Option Bytes) :
    Except RecoveryError RangeOut := do
  let rts := tombstones.filter (fun rt => belowHi hi rt.start && (lo = [] || lo < rt.end))
  let cursors ← runs.mapM (fun r => openCursor lo hi r.1 r.2)
  let keys := (runs.map (fun r => (r.2.hint.map (fun h => h.entries.length)).getD 0)).sum
  mergeLoop rts hi keys cursors.reduceOption { ranges := rts }

structure Recovered where
  state : EngineState
  needed : NeededTombstones

def neededTombstones (point : List ℕ) (horizon : ℕ) (skipped : Bool) : NeededTombstones :=
  if skipped then {} else ⟨horizon, (point.insertionSort (· ≤ ·)).dedup⟩

def sortedMarkers (markers : List ChangeMarker) : List ChangeMarker :=
  markers.insertionSort (fun a b => a.sinceSequence ≤ b.sinceSequence)

def recoveryLoadStreams (s : EngineState) (files : List RecoveredFile) (recoveryThreads : ℕ) (strict : Bool) :
    Except RecoveryError Recovered := do
  if files = [] then return ⟨s, {}⟩
  let w := min files.length recoveryThreads
  let scanned ← files.mapM (scanFile strict)
  let runs := (files.map RecoveredFile.fileId).zip scanned
  let maxSeq := scanned.foldl (fun m run => max m run.maxSeq) 0
  let pool := (scanned.flatMap (fun run => run.fences.map Fence.key)).insertionSort (· ≤ ·)
  let cuts := if 1 < w then splitters w pool else []
  let outs ← (([] :: cuts).zip (cuts.map some ++ [none])).mapM (fun r =>
    mergeRange runs (scanned.flatMap FileRun.rangeTombstones) r.1 r.2)
  let live (fileId : FileId) := (outs.map (fun o => (o.live.get fileId).getD 0)).sum
  let needed := outs.flatMap (fun o => o.needed ++ (o.ranges.filter RangeTombstone.needed).map RangeTombstone.seq)
  let stats := runs.foldl (fun m r => m.insert r.1 { r.2.stats with liveBytes := live r.1 }) SortedMap.empty
  match SortedMap.ofList? (outs.flatMap RangeOut.run) with
  | none => .error .keysNotAscending
  | some keyDir =>
    return ⟨{ s with
      keyDir
      nextSeq := maxSeq + 1
      fileStats := stats
      changeMarkers := sortedMarkers (scanned.flatMap FileRun.markers) },
      neededTombstones needed maxSeq (scanned.any (fun run => run.hint.isNone))⟩

end Bytecask.Recovery
