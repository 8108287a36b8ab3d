import Bytecask.Entry
import Bytecask.Lib.SortedMap

/-! The key directory and the byte counters of a data file. -/

namespace Bytecask

abbrev FileId := ℕ

structure KeyDirEntry where
  sequence : ℕ
  fileOffset : ℕ
  fileId : FileId
  valueSize : ℕ
deriving DecidableEq, Repr

abbrev KeyDir := SortedMap Bytes KeyDirEntry

def kdGet (d : KeyDir) (key : Bytes) : Option KeyDirEntry := d.get key

def kdPut (d : KeyDir) (key : Bytes) (e : KeyDirEntry) : KeyDir × Option KeyDirEntry :=
  (d.insert key e, d.get key)

def kdErase (d : KeyDir) (key : Bytes) : KeyDir × Option KeyDirEntry := (d.erase key, d.get key)

namespace KeyDirEntry

def SameRecord (a b : KeyDirEntry) : Prop := a.fileId = b.fileId ∧ a.fileOffset = b.fileOffset

instance (a b : KeyDirEntry) : Decidable (a.SameRecord b) := inferInstanceAs (Decidable (_ ∧ _))

end KeyDirEntry

def kdHolds (d : KeyDir) (key : Bytes) (record : KeyDirEntry) : Bool :=
  (d.get key).any (fun e => e.SameRecord record)

def kdPutAt (d : KeyDir) (key : Bytes) (record e : KeyDirEntry) : Option KeyDir :=
  if kdHolds d key record then some (d.insert key e) else none

def kdEraseAt (d : KeyDir) (key : Bytes) (record : KeyDirEntry) : Option KeyDir :=
  if kdHolds d key record then some (d.erase key) else none

def kdHit (record : KeyDirEntry) : KeyDirEntry := record

def kdRestore (d : KeyDir) (key : Bytes) (now was : KeyDirEntry) : Option KeyDir :=
  kdPutAt d key now was

def kdRemove (d : KeyDir) (key : Bytes) (now : KeyDirEntry) : Option KeyDir := kdEraseAt d key now

def kdRange (d : KeyDir) (lo hi : Bytes) : List (Bytes × KeyDirEntry) :=
  d.range lo hi

structure FileStats where
  liveBytes : ℕ := 0
  totalBytes : ℕ := 0
  minSequence : ℕ := 0
  maxSequence : ℕ := 0
  tombstoneBytes : ℕ := 0
  markerBytes : ℕ := 0
  changeMarkerBytes : ℕ := 0
deriving DecidableEq, Repr

def FileStats.reclaimableBytes (fs : FileStats) : ℕ :=
  fs.totalBytes - (fs.liveBytes + fs.tombstoneBytes + fs.markerBytes + fs.changeMarkerBytes)

structure FileStatsDelta where
  liveAdded : ℕ := 0
  liveRemoved : ℕ := 0
  totalAdded : ℕ := 0
  tombstoneAdded : ℕ := 0
  markerAdded : ℕ := 0
  changeMarkerAdded : ℕ := 0
  minSequence : ℕ := 0
  maxSequence : ℕ := 0

def FileStats.apply (fs : FileStats) (d : FileStatsDelta) : FileStats where
  liveBytes := fs.liveBytes + d.liveAdded - d.liveRemoved
  totalBytes := fs.totalBytes + d.totalAdded
  tombstoneBytes := fs.tombstoneBytes + d.tombstoneAdded
  markerBytes := fs.markerBytes + d.markerAdded
  changeMarkerBytes := fs.changeMarkerBytes + d.changeMarkerAdded
  minSequence := if fs.minSequence = 0 then d.minSequence else fs.minSequence
  maxSequence := max fs.maxSequence d.maxSequence

def liveBytesIn (d : KeyDir) (id : FileId) : ℕ :=
  d.sum (fun k e => if e.fileId = id then entrySize k.length e.valueSize else 0)

lemma kdHolds_iff {d : KeyDir} {key : Bytes} {record : KeyDirEntry} :
    kdHolds d key record ↔ ∃ e, d.get key = some e ∧ e.SameRecord record := by
  simp [kdHolds, Option.any_eq_true]

lemma mem_kdRange {d : KeyDir} {lo hi : Bytes} {e : Bytes × KeyDirEntry} :
    e ∈ kdRange d lo hi ↔ d.get e.1 = some e.2 ∧ lo ≤ e.1 ∧ e.1 < hi := by
  rw [kdRange, SortedMap.mem_range, SortedMap.get_eq_some]

end Bytecask
