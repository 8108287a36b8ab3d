import Bytecask.Blind.Transient
import Bytecask.RecordFormat

/-! The bytes an append writes, the offsets it assigns, and the reads of single records that find them again. -/

namespace Bytecask.Blind

open List

def kInlineValueBytes : ℕ := 4096

def inlineBytes (e : DataEntry) : ℕ := if e.value.length ≤ kInlineValueBytes then e.size else e.size - e.value.length

structure WritevLimits where
  entries : ℕ
  bytes : ℕ
  scratchBytes : ℕ
  entries_pos : 0 < entries

def chunkLength (lim : WritevLimits) : List DataEntry → (n chunkBytes chunkInline : ℕ) → ℕ
  | [], n, _, _ => n
  | e :: es, n, chunkBytes, chunkInline =>
    if lim.entries ≤ n then n
    else
      let chunkBytes := chunkBytes + e.size
      let nextInline := chunkInline + inlineBytes e
      if 0 < n ∧ (lim.bytes < chunkBytes ∨ lim.scratchBytes < nextInline) then n
      else chunkLength lim es (n + 1) chunkBytes nextInline

inductive Piece where
  | run (bytes : Bytes)
  | ext (value : Bytes)

def Piece.bytes : Piece → Bytes
  | run bytes => bytes
  | ext value => value

section Crc

variable (crc : Crc)

def runToEnd (bytes : Bytes) : List Piece → List Piece
  | .run before :: pieces => .run (before ++ bytes) :: pieces
  | pieces => .run bytes :: pieces

def addPieces (pieces : List Piece) (e : DataEntry) : List Piece :=
  if inlineBytes e = e.size then runToEnd (e.header ++ e.key ++ e.value ++ e.crcBytes crc) pieces
  else runToEnd (e.crcBytes crc) (.ext e.value :: runToEnd (e.header ++ e.key) pieces)

def chunkBytes (chunk : List DataEntry) : Bytes := ((chunk.foldl (addPieces crc) []).reverse.map Piece.bytes).flatten

def appendChunks (lim : WritevLimits) : ℕ → List DataEntry → Bytes → Bytes × List ℕ
  | 0, _, file => (file, [])
  | _ + 1, [], file => (file, [])
  | n + 1, e :: es, file =>
    let k := chunkLength lim (e :: es) 0 0 0
    let chunk := (e :: es).take k
    let rest := appendChunks lim n ((e :: es).drop k) (file ++ chunkBytes crc chunk)
    (rest.1, (located file.length chunk).map Prod.snd ++ rest.2)

def appendEntries (lim : WritevLimits) (entries : List DataEntry) (file : Bytes) : Bytes × List ℕ :=
  appendChunks crc lim entries.length entries file

inductive ReadError where
  | missingFile
  | headerPastEnd
  | recordPastEnd
  | crcMismatch
  | notAPut
deriving DecidableEq, Repr

/-- A read of the record at an offset, with its CRC checked, as `key_at` asks for it. -/
def lendRecord (file : Bytes) (offset : ℕ) : Except ReadError PendingRecord :=
  let left := file.drop offset
  match readHeader left with
  | none => .error .headerPastEnd
  | some (h, _) =>
    match takeBytes h.recordBytes left with
    | none => .error .recordPastEnd
    | some (raw, _) =>
      if !crcMatches crc raw then .error .crcMismatch
      else if EntryType.ofCode h.code ≠ some .put then .error .notAPut
      else .ok ⟨h.sequence, h.valueSize, (raw.drop headerSize).take h.keySize⟩

def readFiles (files : FileId → Option Bytes) : FileReader ReadError := fun r =>
  match files r.fileId with
  | none => .error .missingFile
  | some file => lendRecord crc file r.offset

end Crc

section Append

variable {crc : Crc}
variable (lim : WritevLimits)

lemma le_chunkLength (es : List DataEntry) (n b i : ℕ) : n ≤ chunkLength lim es n b i := by
  induction es generalizing n b i with
  | nil => exact le_rfl
  | cons e es ih =>
    simp only [chunkLength]
    have hmore := ih (n + 1) (b + e.size) (i + inlineBytes e)
    split_ifs <;> omega

lemma chunkLength_pos (e : DataEntry) (es : List DataEntry) : 0 < chunkLength lim (e :: es) 0 0 0 := by
  rw [chunkLength, if_neg (not_le.2 lim.entries_pos), if_neg (fun h => absurd h.1 (lt_irrefl 0))]
  exact le_chunkLength lim es 1 _ _

lemma bytes_runToEnd (bytes : Bytes) (pieces : List Piece) :
    ((runToEnd bytes pieces).reverse.map Piece.bytes).flatten = (pieces.reverse.map Piece.bytes).flatten ++ bytes := by
  cases pieces with
  | nil => simp [runToEnd, Piece.bytes]
  | cons p pieces => cases p <;> simp [runToEnd, Piece.bytes]

lemma serialize_eq (e : DataEntry) : e.serialize crc = e.header ++ (e.key ++ e.value) ++ e.crcBytes crc := by
  rw [DataEntry.serialize, ← e.covered_drop, DataEntry.header, take_append_drop]

lemma bytes_addPieces (pieces : List Piece) (e : DataEntry) :
    ((addPieces crc pieces e).reverse.map Piece.bytes).flatten =
      (pieces.reverse.map Piece.bytes).flatten ++ e.serialize crc := by
  rw [addPieces]
  split_ifs
  · rw [bytes_runToEnd, serialize_eq]
    simp
  · rw [bytes_runToEnd, reverse_cons, map_append, flatten_append, bytes_runToEnd, serialize_eq]
    simp [Piece.bytes]

lemma bytes_foldl_addPieces (chunk : List DataEntry) (pieces : List Piece) :
    ((chunk.foldl (addPieces crc) pieces).reverse.map Piece.bytes).flatten =
      (pieces.reverse.map Piece.bytes).flatten ++ serializeAll crc chunk := by
  induction chunk generalizing pieces with
  | nil => simp [serializeAll]
  | cons e chunk ih =>
    rw [foldl_cons, ih, bytes_addPieces]
    simp [serializeAll]

lemma chunkBytes_eq (chunk : List DataEntry) : chunkBytes crc chunk = serializeAll crc chunk := bytes_foldl_addPieces chunk []

lemma appendChunks_spec (n : ℕ) (es : List DataEntry) (hn : es.length ≤ n) (file : Bytes) :
    appendChunks crc lim n es file = (file ++ serializeAll crc es, offsetsFrom file.length es) := by
  induction n generalizing es file with
  | zero =>
    rw [eq_nil_of_length_eq_zero (Nat.le_zero.1 hn)]
    simp [appendChunks, serializeAll, offsetsFrom, located]
  | succ n ih =>
    cases es with
    | nil => simp [appendChunks, serializeAll, offsetsFrom, located]
    | cons e es =>
      have hpos := chunkLength_pos lim e es
      have hdrop : ((e :: es).drop (chunkLength lim (e :: es) 0 0 0)).length ≤ n := by
        rw [length_drop]
        omega
      rw [appendChunks, ih _ hdrop, chunkBytes_eq]
      generalize chunkLength lim (e :: es) 0 0 0 = k
      have hsplit : (e :: es).take k ++ (e :: es).drop k = e :: es := take_append_drop k _
      have hoffsets : offsetsFrom file.length (e :: es) = offsetsFrom file.length ((e :: es).take k) ++
          offsetsFrom (file ++ serializeAll crc ((e :: es).take k)).length ((e :: es).drop k) := by
        rw [length_append, serializeAll_length, offsetsFrom, offsetsFrom, offsetsFrom, ← map_append, ← located_append,
          hsplit]
      rw [append_assoc, ← serializeAll_append, hsplit, hoffsets]
      rfl

lemma appendEntries_eq (es : List DataEntry) (file : Bytes) :
    appendEntries crc lim es file = (file ++ serializeAll crc es, offsetsFrom file.length es) :=
  appendChunks_spec lim es.length es le_rfl file

end Append

section Read

variable {crc : Crc} {e : DataEntry} {r : PendingRecord}

lemma lendRecord_serialize (h : e.RecordFits) (hput : e.entryType = .put) (before rest : Bytes) :
    lendRecord crc (before ++ (e.serialize crc ++ rest)) before.length = .ok ⟨e.sequence, e.value.length, e.key⟩ := by
  obtain ⟨after, hheader⟩ := @readHeader_serialize crc e h rest
  have htake : takeBytes (entrySize e.key.length e.value.length) (e.serialize crc ++ rest) =
      some (e.serialize crc, rest) := takeBytes_append e.serialize_length rest
  have hdrop : (e.serialize crc).drop headerSize = e.key ++ e.value ++ e.crcBytes crc := by
    rw [DataEntry.serialize, drop_append_of_le_length (by rw [e.covered_length]; omega), e.covered_drop]
  have hcode : EntryType.ofCode e.entryType.code = some .put := by rw [EntryType.ofCode_code, hput]
  simp only [lendRecord, drop_left, hheader, EntryHeader.recordBytes, htake, crcMatches_serialize, Bool.not_true,
    Bool.false_eq_true, if_false, hcode, ne_eq, not_true, hdrop, append_assoc, take_left]

lemma takeBytes_more {n : ℕ} {bs raw after : Bytes} (h : takeBytes n bs = some (raw, after)) (rest : Bytes) :
    takeBytes n (bs ++ rest) = some (raw, after ++ rest) := by
  rw [takeBytes] at h ⊢
  split_ifs at h with hle
  cases h
  rw [if_pos (by rw [length_append]; omega), take_append_of_le_length hle, drop_append_of_le_length hle]

lemma lendRecord_append {file : Bytes} {offset : ℕ} (h : lendRecord crc file offset = .ok r) (rest : Bytes) :
    lendRecord crc (file ++ rest) offset = .ok r := by
  cases hh : readHeader (file.drop offset) with
  | none =>
    simp only [lendRecord, hh] at h
    cases h
  | some x =>
    obtain ⟨hdr, after⟩ := x
    have hlen : headerSize ≤ (file.drop offset).length := by
      rw [(readHeader_eq_some hh).1]
      simp only [length_append, littleEndian_length, headerSize]
      omega
    have hle : offset ≤ file.length := by
      rw [length_drop] at hlen
      have hpos : 0 < headerSize := by decide
      omega
    have hdrop : (file ++ rest).drop offset = file.drop offset ++ rest := drop_append_of_le_length hle
    obtain ⟨hdr', after', hh', hmore⟩ := readHeader_append hlen
    cases hh.symm.trans hh'
    simp only [lendRecord, hh] at h
    cases ht : takeBytes hdr.recordBytes (file.drop offset) with
    | none =>
      simp only [ht] at h
      cases h
    | some y =>
      simp only [ht] at h
      simp only [lendRecord, hdrop, hmore, takeBytes_more ht]
      exact h

end Read

lemma located_split {e : DataEntry} {o : ℕ} {start : ℕ} {es : List DataEntry} (h : (e, o) ∈ located start es) :
    ∃ l l', es = l ++ e :: l' ∧ o = start + bytesOf l := by
  induction es generalizing start with
  | nil => cases h
  | cons x es ih =>
    rcases mem_cons.1 h with h | h
    · cases h
      exact ⟨[], es, rfl, rfl⟩
    · obtain ⟨l, l', rfl, rfl⟩ := ih h
      refine ⟨x :: l, l', rfl, ?_⟩
      rw [bytesOf_cons, Nat.add_assoc]

end Bytecask.Blind
