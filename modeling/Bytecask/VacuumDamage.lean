import Bytecask.RecordFormat
import Bytecask.Runs
import Bytecask.Vacuum

/-! A vacuum of a file that was damaged after it was written. -/

namespace Bytecask

lemma scanUnits_damage (es : List (DataEntry × ℕ)) (batch : Option (List (DataEntry × ℕ))) (committed : ℕ) :
    (scanUnits .damage es batch committed).damaged = true := by
  induction es generalizing batch committed with
  | nil => cases batch <;> rfl
  | cons p es ih =>
    cases batch with
    | none =>
      simp only [scanUnits]
      split_ifs
      · exact ih _ _
      · exact ih _ _
    | some batch =>
      simp only [scanUnits]
      split
      · rfl
      · exact ih _ _
      · exact ih _ _

lemma vacuumScanAndCopy_damage (v : VacuumScan) (cancelAfter : Option ℕ) (es : List DataEntry) :
    vacuumScanAndCopy v cancelAfter ⟨es, .damage⟩ = .error .damage ∨
      ∃ scan, vacuumScanAndCopy v cancelAfter ⟨es, .damage⟩ = .ok scan ∧ scan.cancelled = true := by
  have hd : (scanCommitted ⟨es, .damage⟩).damaged = true := scanUnits_damage _ _ _
  simp only [vacuumScanAndCopy]
  split
  · exact .inr ⟨_, rfl, rfl⟩
  · rw [hd]
    exact .inl rfl

namespace Db

def Untouched (db db' : Db) : Prop := db'.disk = db.disk ∧ db'.published = db.published

def single (k : Byte) : DataEntry := ⟨k.val, .put, [k], [7]⟩

lemma single_recordFits {k : Byte} (hk : k ≠ 0) : (single k).RecordFits where
  positive := fun h => hk (Fin.ext h)
  sequence := by
    simp only [single]
    omega
  key := by simp [single]
  value := by simp [single]
  marker := by simp [single]

def sealedCalls : List Call :=
  [.group ([[1], [2], [3], [4]].map fun k => { plan := { writes := [.pointPut k [7]], guards_snap := WritePlan.unguarded } }),
    .createManifest, .group [{ plan := { writes := [.pointPut [1] [8]], guards_snap := WritePlan.unguarded } }], .flush]

def sealedDb : Db := sealedCalls.foldl (fun db c => c.next sampleConfig db) (Db.opened .leader)

def overwritten (bad : Bytes) : Bytes :=
  serializeAll crc32c [single 1, single 2] ++ (bad ++ serializeAll crc32c [single 4])

def foundFile (found : DataFile) : DiskFile := { entries := found.entries, tail := found.tail }

lemma foundFile_data (found : DataFile) : (foundFile found).data = found := by
  simp [foundFile, DiskFile.data]

def damagedFile (bad : Bytes) : DiskFile := foundFile (sweep crc32c (overwritten bad))

def damagedDb (bad : Bytes) : Db :=
  { sealedDb with disk := sealedDb.disk.adjust 0 fun _ => damagedFile bad }

def flipped : Bytes := ((single 3).serialize crc32c).set 16 6

lemma flipped_stops : advance crc32c (flipped ++ serializeAll crc32c [single 4]) = .stop .damage := by decide +kernel

lemma flipped_header {h : EntryHeader} {rest : Bytes} (hh : readHeader flipped = some (h, rest)) :
    ¬ h.Ends (flipped ++ serializeAll crc32c [single 4]).length := by
  have hread : readHeader flipped = some (⟨3, 1, 1, 1⟩, flipped.drop 15) := by decide +kernel
  have hleft : (flipped ++ serializeAll crc32c [single 4]).length = 42 := by decide +kernel
  cases hh
  rintro (h | ⟨type, -, -, hlt⟩)
  · cases h
  · exact absurd hlt (by decide)

def zeroed : Bytes := List.replicate (single 3).size 0

end Db

end Bytecask
