import Bytecask.Hint
import Bytecask.Wire

/-! The bytes of a hint's frames: the encoder with the widths of its fields, and the decoder. -/

namespace Bytecask

open Option

namespace HintEntry

def serializeEntry (sequence : ℕ) (type : EntryType) (fileOffset valueSize : ℕ) (key : Bytes) : Option Bytes := do
  let keyLen ← narrow 2 key.length
  return littleEndian 8 sequence ++ (littleEndian 1 type.code ++ (littleEndian 8 fileOffset ++
    (littleEndian 4 valueSize ++ (littleEndian 2 keyLen ++ key))))

def serializeRangeDelEntry (sequence fileOffset : ℕ) (startKey endKey : Bytes) : Option Bytes := do
  let valueSize ← narrow 4 endKey.length
  let header ← serializeEntry sequence .rangeDel fileOffset valueSize startKey
  let endLen ← narrow 2 endKey.length
  return header ++ (littleEndian 2 endLen ++ endKey)

def serializeChangeMarkerEntry (sequence fileOffset : ℕ) (id : MarkerId) : Option Bytes := do
  let header ← serializeEntry sequence .changeMarker fileOffset changeMarkerIdBytes []
  return header ++ littleEndian 8 id.val

def serialize (he : HintEntry) : Option Bytes :=
  match he.entryType with
  | .rangeDel => serializeRangeDelEntry he.sequence he.fileOffset he.key he.endKey
  | .changeMarker => serializeChangeMarkerEntry he.sequence he.fileOffset he.markerId
  | .bulkBegin | .bulkEnd => serializeEntry he.sequence he.entryType he.fileOffset 0 []
  | .put | .delete => do
    -- The staged run keeps a value size in 32 bits.
    let valueSize ← narrow 4 he.valueSize
    serializeEntry he.sequence he.entryType he.fileOffset valueSize he.key

def deserialize (buf : Bytes) : Option (HintEntry × Bytes) := do
  let (sequence, buf) ← readWord 8 buf
  let (code, buf) ← readWord 1 buf
  let (fileOffset, buf) ← readWord 8 buf
  let (valueSize, buf) ← readWord 4 buf
  let (keyLen, buf) ← readWord 2 buf
  let (key, buf) ← takeBytes keyLen buf
  let type ← EntryType.ofCode code
  match type with
  | .rangeDel =>
    let (endLen, buf) ← readWord 2 buf
    let (endKey, buf) ← takeBytes endLen buf
    return (⟨sequence, type, fileOffset, key, valueSize, endKey, 0⟩, buf)
  | .changeMarker =>
    if keyLen ≠ 0 ∨ valueSize ≠ changeMarkerIdBytes then none
    else
      let (id, buf) ← readWord 8 buf
      return (⟨sequence, type, fileOffset, key, valueSize, [], Fin.ofNat (2 ^ 64) id⟩, buf)
  | _ => return (⟨sequence, type, fileOffset, key, valueSize, [], 0⟩, buf)

lemma deserialize_header (type : EntryType) (fileOffset : ℕ) {sequence valueSize : ℕ} {key : Bytes}
    (hs : sequence < 256 ^ 8) (hv : valueSize < 256 ^ 4) (hk : key.length < 256 ^ 2) :
    ∃ bytes, serializeEntry sequence type fileOffset valueSize key = some bytes ∧
      (fileOffset < 256 ^ 8 → ∀ rest, deserialize (bytes ++ rest) = match type with
        | .rangeDel => do
          let (endLen, buf) ← readWord 2 rest
          let (endKey, buf) ← takeBytes endLen buf
          return (⟨sequence, type, fileOffset, key, valueSize, endKey, 0⟩, buf)
        | .changeMarker =>
          if key.length ≠ 0 ∨ valueSize ≠ changeMarkerIdBytes then none
          else do
            let (id, buf) ← readWord 8 rest
            return (⟨sequence, type, fileOffset, key, valueSize, [], Fin.ofNat (2 ^ 64) id⟩, buf)
        | _ => some (⟨sequence, type, fileOffset, key, valueSize, [], 0⟩, rest)) := by
  have hc := type.code_lt
  refine ⟨_, by rw [serializeEntry, narrow_of_lt hk]; rfl, fun ho rest => ?_⟩
  simp only [deserialize, List.append_assoc]
  rw [readWord_littleEndian hs, bind_eq_bind, bind_some]
  simp only [readWord_littleEndian hc, readWord_littleEndian ho, readWord_littleEndian hv, readWord_littleEndian hk,
    takeBytes_append, EntryType.ofCode_code, bind_eq_bind, bind_some]
  cases type <;> rfl

def Encodes (he : HintEntry) : Prop :=
  ∃ bytes, he.serialize = some bytes ∧
    (he.fileOffset < 256 ^ 8 → ∀ rest, deserialize (bytes ++ rest) = some (he, rest))

end HintEntry

structure DataEntry.HintFits (e : DataEntry) : Prop where
  sequence : e.sequence < 256 ^ 8
  key : e.key.length < 256 ^ 2
  value : e.value.length < 256 ^ 4
  endKey : e.entryType = .rangeDel → e.value.length < 256 ^ 2

namespace HintEntry

lemma ofEntry_encodes {e : DataEntry} (hf : e.HintFits) (offset : ℕ) : (HintEntry.ofEntry e offset).Encodes := by
  obtain ⟨sequence, type, key, value⟩ := e
  cases type with
  | put =>
    obtain ⟨bytes, hb, hd⟩ := deserialize_header .put offset hf.sequence hf.value hf.key
    exact ⟨bytes, by simpa [ofEntry, serialize, narrow_of_lt hf.value] using hb, hd⟩
  | delete =>
    obtain ⟨bytes, hb, hd⟩ := deserialize_header .delete offset hf.sequence hf.value hf.key
    exact ⟨bytes, by simpa [ofEntry, serialize, narrow_of_lt hf.value] using hb, hd⟩
  | bulkBegin => exact deserialize_header .bulkBegin offset hf.sequence (by decide) (by decide)
  | bulkEnd => exact deserialize_header .bulkEnd offset hf.sequence (by decide) (by decide)
  | rangeDel =>
    have hend := hf.endKey rfl
    obtain ⟨bytes, hb, hd⟩ :=
      deserialize_header .rangeDel offset hf.sequence hf.value hf.key
    refine ⟨bytes ++ (littleEndian 2 value.length ++ value), ?_, fun ho rest => ?_⟩
    · simp only [ofEntry, serialize, serializeRangeDelEntry, narrow_of_lt hf.value, narrow_of_lt hend, hb,
        bind_eq_bind, bind_some]
      rfl
    · rw [List.append_assoc, hd ho, List.append_assoc]
      simp only [readWord_littleEndian hend, takeBytes_append, bind_eq_bind, bind_some]
      rfl
  | changeMarker =>
    obtain ⟨bytes, hb, hd⟩ := deserialize_header .changeMarker offset hf.sequence
      (show changeMarkerIdBytes < 256 ^ 4 by decide) (show ([] : Bytes).length < 256 ^ 2 by decide)
    refine ⟨bytes ++ littleEndian 8 (decodeMarkerId value).val, ?_, fun ho rest => ?_⟩
    · simp only [ofEntry, serialize, serializeChangeMarkerEntry, hb, bind_eq_bind, bind_some]
      rfl
    · have hid : (decodeMarkerId value).val < 256 ^ 8 := (decodeMarkerId value).isLt
      rw [List.append_assoc, hd ho]
      simp [readWord_littleEndian, ofEntry]

lemma serialize_rangeDel_throws {sequence offset : ℕ} {key value : Bytes} (h : 256 ^ 2 ≤ value.length) :
    (HintEntry.ofEntry ⟨sequence, .rangeDel, key, value⟩ offset).serialize = none := by
  have hn : narrow 2 value.length = none := if_neg (not_lt.2 h)
  simp only [ofEntry, serialize, serializeRangeDelEntry, hn, bind_eq_bind, bind_none]
  cases narrow 4 value.length with
  | none => rfl
  | some n =>
    rw [bind_some]
    cases serializeEntry sequence .rangeDel offset n key <;> rfl

end HintEntry

end Bytecask
