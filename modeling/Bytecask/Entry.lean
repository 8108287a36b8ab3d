import Mathlib

/-! Entries as the data files hold them: their types, sizes and the markers of a history. -/

namespace Bytecask

abbrev Byte := Fin 256

abbrev Bytes := List Byte

abbrev Crc := Bytes → Fin (2 ^ 32)

-- named, so that a literal's instance is the same term in every module
instance byteCount : NeZero 256 := ⟨by decide⟩
instance wordCount : NeZero (2 ^ 32) := ⟨by decide⟩
instance markerCount : NeZero (2 ^ 64) := ⟨by decide⟩

lemma nil_le_bytes (k : Bytes) : [] ≤ k := not_lt.1 (List.not_lt_nil k)

inductive EntryType where
  | put
  | delete
  | bulkBegin
  | bulkEnd
  | rangeDel
  | changeMarker
deriving DecidableEq, Repr

structure DataEntry where
  sequence : ℕ
  entryType : EntryType
  key : Bytes
  value : Bytes
deriving DecidableEq, Repr

abbrev MarkerId := Fin (2 ^ 64)

structure ChangeMarker where
  sinceSequence : ℕ
  id : MarkerId
deriving DecidableEq, Repr

def originMarker : ChangeMarker := ⟨0, 0⟩

def headerSize : ℕ := 15
def crcSize : ℕ := 4
def changeMarkerIdBytes : ℕ := 8

def entrySize (keySize valueSize : ℕ) : ℕ := headerSize + keySize + valueSize + crcSize

def tombstoneSize (type : EntryType) (keySize valueSize : ℕ) : ℕ :=
  match type with
  | .delete | .rangeDel => entrySize keySize valueSize
  | .put | .bulkBegin | .bulkEnd | .changeMarker => 0

def markerSize : EntryType → ℕ
  | .bulkBegin | .bulkEnd => entrySize 0 0
  | .put | .delete | .rangeDel | .changeMarker => 0

def changeMarkerSize : EntryType → ℕ
  | .changeMarker => entrySize 0 changeMarkerIdBytes
  | .put | .delete | .bulkBegin | .bulkEnd | .rangeDel => 0

lemma entrySize_pos (k v : ℕ) : 0 < entrySize k v := by
  simp [entrySize, headerSize]

def littleEndian : ℕ → ℕ → Bytes
  | 0, _ => []
  | n + 1, v => Fin.ofNat 256 v :: littleEndian n (v / 256)

def readLittleEndian : Bytes → ℕ
  | [] => 0
  | b :: bs => b.val + 256 * readLittleEndian bs

def encodeMarkerId (id : MarkerId) : Bytes := littleEndian changeMarkerIdBytes id.val

def decodeMarkerId (value : Bytes) : MarkerId :=
  Fin.ofNat (2 ^ 64) (readLittleEndian (value.take changeMarkerIdBytes))

@[simp] lemma littleEndian_length (n v : ℕ) : (littleEndian n v).length = n := by
  induction n generalizing v with
  | zero => rfl
  | succ n ih => simp [littleEndian, ih]

lemma readLittleEndian_littleEndian (n v : ℕ) : readLittleEndian (littleEndian n v) = v % 256 ^ n := by
  induction n generalizing v with
  | zero => simp [littleEndian, readLittleEndian, Nat.mod_one]
  | succ n ih =>
    simp only [littleEndian, readLittleEndian, ih, Fin.val_ofNat]
    rw [Nat.pow_succ', Nat.mod_mul]

lemma littleEndian_readLittleEndian (bs : Bytes) : littleEndian bs.length (readLittleEndian bs) = bs := by
  induction bs with
  | nil => rfl
  | cons b bs ih =>
    have hb : Fin.ofNat 256 (b.val + 256 * readLittleEndian bs) = b := Fin.ext (by simp [Nat.mod_eq_of_lt])
    have hd : (b.val + 256 * readLittleEndian bs) / 256 = readLittleEndian bs := by
      omega
    simp only [List.length_cons, littleEndian, readLittleEndian, hb, hd, ih]

lemma readLittleEndian_lt (bs : Bytes) : readLittleEndian bs < 256 ^ bs.length := by
  induction bs with
  | nil => simp [readLittleEndian]
  | cons b bs ih =>
    rw [readLittleEndian, List.length_cons, Nat.pow_succ]
    omega

@[simp] lemma encodeMarkerId_length (id : MarkerId) : (encodeMarkerId id).length = changeMarkerIdBytes :=
  littleEndian_length _ _

@[simp] lemma decodeMarkerId_encodeMarkerId (id : MarkerId) : decodeMarkerId (encodeMarkerId id) = id := by
  have ht : (encodeMarkerId id).take changeMarkerIdBytes = encodeMarkerId id :=
    List.take_of_length_le (by simp)
  apply Fin.ext
  rw [decodeMarkerId, ht, encodeMarkerId, readLittleEndian_littleEndian, Fin.val_ofNat]
  have h256 : (256 : ℕ) ^ changeMarkerIdBytes = 2 ^ 64 := by norm_num [changeMarkerIdBytes]
  rw [h256, Nat.mod_mod, Nat.mod_eq_of_lt id.isLt]

def markerAt (markers : List ChangeMarker) (sequence : ℕ) : ChangeMarker :=
  (markers.takeWhile (fun m => m.sinceSequence ≤ sequence)).getLast?.getD originMarker

namespace DataEntry

def size (e : DataEntry) : ℕ := entrySize e.key.length e.value.length

/-- The shape every writer gives an entry: a tombstone and a batch marker have no value, and a
change marker is keyless with an 8-byte id. -/
def Shaped (e : DataEntry) : Prop :=
  match e.entryType with
  | .put | .rangeDel => True
  | .delete => e.value = []
  | .bulkBegin | .bulkEnd => e.key = [] ∧ e.value = []
  | .changeMarker => e.key = [] ∧ e.value.length = changeMarkerIdBytes

instance : (e : DataEntry) → Decidable e.Shaped
  | ⟨_, .put, _, _⟩ | ⟨_, .rangeDel, _, _⟩ => .isTrue trivial
  | ⟨_, .delete, _, _⟩ => inferInstanceAs (Decidable (_ = _))
  | ⟨_, .bulkBegin, _, _⟩ | ⟨_, .bulkEnd, _, _⟩ | ⟨_, .changeMarker, _, _⟩ =>
    inferInstanceAs (Decidable (_ ∧ _))

def Touches (e : DataEntry) (k : Bytes) : Prop :=
  match e.entryType with
  | .put | .delete => e.key = k
  | .rangeDel => e.key ≤ k ∧ k < e.value
  | .bulkBegin | .bulkEnd | .changeMarker => False

instance (k : Bytes) : (e : DataEntry) → Decidable (e.Touches k)
  | ⟨_, .put, _, _⟩ | ⟨_, .delete, _, _⟩ => inferInstanceAs (Decidable (_ = _))
  | ⟨_, .rangeDel, _, _⟩ => inferInstanceAs (Decidable (_ ∧ _))
  | ⟨_, .bulkBegin, _, _⟩ | ⟨_, .bulkEnd, _, _⟩ | ⟨_, .changeMarker, _, _⟩ => .isFalse id

lemma size_pos (e : DataEntry) : 0 < e.size := entrySize_pos _ _

end DataEntry

end Bytecask
