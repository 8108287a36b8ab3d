import Bytecask.DataFile
import Bytecask.Wire

/-! The bytes of a data file: records behind their headers, and the sweep that frames them. -/

namespace Bytecask

open List EntryType

structure EntryHeader where
  sequence : ℕ
  code : ℕ
  keySize : ℕ
  valueSize : ℕ
deriving DecidableEq

def readHeader (buf : Bytes) : Option (EntryHeader × Bytes) := do
  let (sequence, buf) ← readWord 8 buf
  let (code, buf) ← readWord 1 buf
  let (keySize, buf) ← readWord 2 buf
  let (valueSize, buf) ← readWord 4 buf
  return (⟨sequence, code, keySize, valueSize⟩, buf)

namespace EntryHeader

def recordBytes (h : EntryHeader) : ℕ := entrySize h.keySize h.valueSize

def Malformed (h : EntryHeader) (type : EntryType) : Prop :=
  type = .changeMarker ∧ (h.keySize ≠ 0 ∨ h.valueSize ≠ changeMarkerIdBytes)

instance (h : EntryHeader) (type : EntryType) : Decidable (h.Malformed type) := inferInstanceAs (Decidable (_ ∧ _))

def Ends (h : EntryHeader) (left : ℕ) : Prop :=
  h.sequence = 0 ∨ ∃ type, ofCode h.code = some type ∧ ¬ h.Malformed type ∧ left < h.recordBytes

end EntryHeader

inductive Framed where
  | stop (tail : Tail)
  | entry (e : DataEntry) (rest : Bytes)
deriving DecidableEq

def crcByte (c : ℕ) (b : Byte) : ℕ :=
  (List.range 8).foldl (fun c _ => if c % 2 = 1 then (c / 2) ^^^ 0x82F63B78 else c / 2) (c ^^^ b.val)

def crc32c (bytes : Bytes) : Fin (2 ^ 32) := Fin.ofNat (2 ^ 32) (bytes.foldl crcByte 0xFFFFFFFF ^^^ 0xFFFFFFFF)

section Crc

variable (crc : Crc)

def DataEntry.covered (e : DataEntry) : Bytes :=
  littleEndian 8 e.sequence ++ (littleEndian 1 e.entryType.code ++ (littleEndian 2 e.key.length ++
    (littleEndian 4 e.value.length ++ (e.key ++ e.value))))

def DataEntry.header (e : DataEntry) : Bytes := e.covered.take headerSize

abbrev DataEntry.crcBytes (e : DataEntry) : Bytes := littleEndian crcSize (crc e.covered).val

def DataEntry.serialize (e : DataEntry) : Bytes := e.covered ++ littleEndian crcSize (crc e.covered).val

def crcMatches (record : Bytes) : Bool :=
  crcSize ≤ record.length &&
    (crc (record.take (record.length - crcSize))).val = readLittleEndian (record.drop (record.length - crcSize))

def advance (left : Bytes) : Framed :=
  match readHeader left with
  | none => .stop .zeros
  | some (h, _) =>
    if h.sequence = 0 then .stop .zeros
    else
      match ofCode h.code with
      | none => .stop .damage
      | some type =>
        if h.Malformed type then .stop .damage
        else
          match takeBytes h.recordBytes left with
          | none => .stop .torn
          | some (raw, rest) =>
            if crcMatches crc raw then
              .entry ⟨h.sequence, type, (raw.drop headerSize).take h.keySize,
                (raw.drop (headerSize + h.keySize)).take h.valueSize⟩ rest
            else .stop .damage

def sweepFrom : ℕ → Bytes → DataFile
  | 0, _ => {}
  | n + 1, left =>
    match advance crc left with
    | .stop tail => ⟨[], tail⟩
    | .entry e rest => ⟨e :: (sweepFrom n rest).entries, (sweepFrom n rest).tail⟩

def sweep (bytes : Bytes) : DataFile := sweepFrom crc (bytes.length + 1) bytes

def serializeAll (es : List DataEntry) : Bytes := es.flatMap (DataEntry.serialize crc)

end Crc

/-- The fields of a record have room for the entry, and nothing of it reads as damage or as an end. -/
structure DataEntry.RecordFits (e : DataEntry) : Prop where
  positive : e.sequence ≠ 0
  sequence : e.sequence < 256 ^ 8
  key : e.key.length < 256 ^ 2
  value : e.value.length < 256 ^ 4
  marker : e.entryType = .changeMarker → e.key = [] ∧ e.value.length = changeMarkerIdBytes

section Sweep

variable {crc : Crc} {e : DataEntry}
variable {rest bs after left : Bytes} {n : ℕ} {h : EntryHeader} (es : List DataEntry)

lemma DataEntry.covered_length (e : DataEntry) : e.covered.length = headerSize + e.key.length + e.value.length := by
  simp only [covered, length_append, littleEndian_length, headerSize]
  omega

lemma DataEntry.serialize_length (e : DataEntry) : (e.serialize crc).length = e.size := by
  simp only [serialize, length_append, covered_length, littleEndian_length, DataEntry.size, entrySize]

lemma readHeader_serialize (h : e.RecordFits) (rest : Bytes) : ∃ after,
    readHeader (e.serialize crc ++ rest) = some (⟨e.sequence, e.entryType.code, e.key.length, e.value.length⟩, after) := by
  simp only [readHeader, DataEntry.serialize, DataEntry.covered, append_assoc]
  simp only [readWord_littleEndian h.sequence, readWord_littleEndian e.entryType.code_lt, readWord_littleEndian h.key,
    readWord_littleEndian h.value, Option.bind_eq_bind, Option.bind_some]
  exact ⟨_, rfl⟩

lemma crcMatches_serialize : crcMatches crc (e.serialize crc) = true := by
  have hlen : (e.serialize crc).length - crcSize = e.covered.length := by
    simp [DataEntry.serialize]
  have hcrc : (crc e.covered).val < 256 ^ crcSize := (crc _).isLt
  rw [crcMatches, hlen, DataEntry.serialize, take_left, drop_left, readLittleEndian_littleEndian,
    Nat.mod_eq_of_lt hcrc]
  simp

lemma DataEntry.covered_drop (e : DataEntry) : e.covered.drop headerSize = e.key ++ e.value := by
  have hsplit : e.covered = (littleEndian 8 e.sequence ++ littleEndian 1 e.entryType.code ++
      littleEndian 2 e.key.length ++ littleEndian 4 e.value.length) ++ (e.key ++ e.value) := by
    simp [covered]
  rw [hsplit, drop_left' (by simp [headerSize])]

lemma advance_serialize (h : e.RecordFits) (rest : Bytes) : advance crc (e.serialize crc ++ rest) = .entry e rest := by
  obtain ⟨after, hheader⟩ := readHeader_serialize h rest
  have hwell : ¬ (⟨e.sequence, e.entryType.code, e.key.length, e.value.length⟩ : EntryHeader).Malformed e.entryType := by
    rintro ⟨ht, hbad⟩
    obtain ⟨hk, hv⟩ := h.marker ht
    simp [hk, hv] at hbad
  have htake : takeBytes (entrySize e.key.length e.value.length) (e.serialize crc ++ rest) =
      some (e.serialize crc, rest) := takeBytes_append e.serialize_length rest
  have hdrop : (e.serialize crc).drop headerSize = e.key ++ e.value ++ e.crcBytes crc := by
    rw [DataEntry.serialize, drop_append_of_le_length (by rw [e.covered_length]; omega), e.covered_drop]
  rw [advance, hheader]
  simp only [if_neg h.positive, ofCode_code, if_neg hwell, EntryHeader.recordBytes, htake,
    crcMatches_serialize, if_true, hdrop, ← drop_drop, append_assoc, take_left, drop_left]

lemma sweepFrom_serializeAll {es : List DataEntry} (hes : ∀ e ∈ es, e.RecordFits) (n : ℕ) (rest : Bytes) :
    sweepFrom crc (es.length + n) (serializeAll crc es ++ rest) =
      ⟨es ++ (sweepFrom crc n rest).entries, (sweepFrom crc n rest).tail⟩ := by
  induction es with
  | nil => simp [serializeAll]
  | cons e es ih =>
    have hlen : (e :: es).length + n = es.length + n + 1 := by
      rw [length_cons]
      omega
    have hsplit : serializeAll crc (e :: es) ++ rest = e.serialize crc ++ (serializeAll crc es ++ rest) := by
      simp [serializeAll]
    rw [hlen, hsplit, sweepFrom, advance_serialize (hes e mem_cons_self)]
    simp only [ih fun x hx => hes x (mem_cons_of_mem e hx), cons_append]

lemma length_le_serializeAll : es.length ≤ (serializeAll crc es).length := by
  induction es with
  | nil => simp
  | cons e es ih =>
    have hpos := e.size_pos
    have hsplit : (serializeAll crc (e :: es)).length = e.size + (serializeAll crc es).length := by
      simp [serializeAll, DataEntry.serialize_length]
    rw [hsplit, length_cons]
    omega

lemma serializeAll_append (fs : List DataEntry) :
    serializeAll crc (es ++ fs) = serializeAll crc es ++ serializeAll crc fs := flatMap_append

lemma serializeAll_length : (serializeAll crc es).length = bytesOf es := by
  induction es with
  | nil => rfl
  | cons e es ih =>
    rw [← singleton_append, serializeAll_append, length_append, ih, bytesOf_append]
    simp [serializeAll, DataEntry.serialize_length]

lemma sweep_of_stop {es : List DataEntry} (hes : ∀ e ∈ es, e.RecordFits) {tail : Tail}
    (hstop : advance crc rest = .stop tail) : sweep crc (serializeAll crc es ++ rest) = ⟨es, tail⟩ := by
  have hle := @length_le_serializeAll crc es
  obtain ⟨n, hn⟩ : ∃ n, (serializeAll crc es ++ rest).length + 1 = es.length + (n + 1) := by
    refine ⟨(serializeAll crc es ++ rest).length - es.length, ?_⟩
    rw [length_append]
    omega
  rw [sweep, hn, sweepFrom_serializeAll hes, sweepFrom, hstop]
  simp

lemma readWord_isSome (h : n ≤ bs.length) : ∃ v, readWord n bs = some (v, bs.drop n) :=
  ⟨_, by rw [readWord, takeBytes, if_pos h]; rfl⟩

lemma readWord_append {v : ℕ} (h : readWord n bs = some (v, after)) (rest : Bytes) :
    readWord n (bs ++ rest) = some (v, after ++ rest) := by
  simp only [readWord, takeBytes] at h ⊢
  split_ifs at h with hle
  · simp only [Option.map_some, Option.some.injEq, Prod.mk.injEq] at h
    have hle' : n ≤ (bs ++ rest).length := by
      rw [length_append]
      omega
    rw [if_pos hle', Option.map_some, take_append_of_le_length hle, drop_append_of_le_length hle, h.1, h.2]
  · cases h

lemma readHeader_append (hlen : headerSize ≤ bs.length) : ∃ h after,
    readHeader bs = some (h, after) ∧ ∀ rest, readHeader (bs ++ rest) = some (h, after ++ rest) := by
  have h15 : 15 ≤ bs.length := hlen
  obtain ⟨a, ha⟩ := @readWord_isSome bs 8 (by omega)
  obtain ⟨b, hb⟩ := @readWord_isSome (bs.drop 8) 1 (by rw [length_drop]; omega)
  obtain ⟨c, hc⟩ := @readWord_isSome ((bs.drop 8).drop 1) 2 (by simp only [length_drop]; omega)
  obtain ⟨d, hd⟩ := @readWord_isSome (((bs.drop 8).drop 1).drop 2) 4 (by simp only [length_drop]; omega)
  refine ⟨⟨a, b, c, d⟩, (((bs.drop 8).drop 1).drop 2).drop 4, ?_, fun rest => ?_⟩
  · simp only [readHeader, ha, hb, hc, hd, Option.bind_eq_bind, Option.bind_some]
    rfl
  · simp only [readHeader, readWord_append ha, readWord_append hb, readWord_append hc, readWord_append hd,
      Option.bind_eq_bind, Option.bind_some]
    rfl

lemma readHeader_eq_some (hh : readHeader bs = some (h, after)) :
    bs = littleEndian 8 h.sequence ++ (littleEndian 1 h.code ++ (littleEndian 2 h.keySize ++
      (littleEndian 4 h.valueSize ++ after))) ∧
    h.sequence < 256 ^ 8 ∧ h.keySize < 256 ^ 2 ∧ h.valueSize < 256 ^ 4 := by
  simp only [readHeader, Option.bind_eq_bind, Option.bind_eq_some_iff, Prod.exists] at hh
  obtain ⟨a, bs₁, h₁, b, bs₂, h₂, c, bs₃, h₃, d, bs₄, h₄, hr⟩ := hh
  cases hr
  obtain ⟨rfl, ha⟩ := readWord_eq_some h₁
  obtain ⟨rfl, -⟩ := readWord_eq_some h₂
  obtain ⟨rfl, hc⟩ := readWord_eq_some h₃
  obtain ⟨rfl, hd⟩ := readWord_eq_some h₄
  exact ⟨rfl, ha, hc, hd⟩

lemma record_parts (raw : Bytes) (k v : ℕ) : raw = raw.take headerSize ++ ((raw.drop headerSize).take k ++
    ((raw.drop (headerSize + k)).take v ++ raw.drop (headerSize + k + v))) := by
  rw [← drop_drop (i := v), take_append_drop, ← drop_drop, take_append_drop,
    take_append_drop]

lemma eq_serialize_of_crcMatches {raw : Bytes} {type : EntryType}
    (hraw : raw = littleEndian 8 h.sequence ++ (littleEndian 1 h.code ++ (littleEndian 2 h.keySize ++
      (littleEndian 4 h.valueSize ++ after)))) (hlen : raw.length = h.recordBytes) (hcode : h.code = type.code)
    (hcrc : crcMatches crc raw = true) :
    ((raw.drop headerSize).take h.keySize).length = h.keySize ∧
    ((raw.drop (headerSize + h.keySize)).take h.valueSize).length = h.valueSize ∧
    raw = DataEntry.serialize crc ⟨h.sequence, type, (raw.drop headerSize).take h.keySize,
      (raw.drop (headerSize + h.keySize)).take h.valueSize⟩ := by
  rw [EntryHeader.recordBytes, entrySize] at hlen
  have hkey : ((raw.drop headerSize).take h.keySize).length = h.keySize := by
    rw [length_take, length_drop]
    omega
  have hvalue : ((raw.drop (headerSize + h.keySize)).take h.valueSize).length = h.valueSize := by
    rw [length_take, length_drop]
    omega
  refine ⟨hkey, hvalue, ?_⟩
  have hhead : raw.take headerSize = littleEndian 8 h.sequence ++ (littleEndian 1 h.code ++
      (littleEndian 2 h.keySize ++ littleEndian 4 h.valueSize)) := by
    rw [hraw]
    simp only [← append_assoc]
    exact take_left' (by simp [headerSize])
  have hend : raw.length - crcSize = headerSize + h.keySize + h.valueSize := by omega
  have hcovered : raw.take (raw.length - crcSize) = DataEntry.covered ⟨h.sequence, type,
      (raw.drop headerSize).take h.keySize, (raw.drop (headerSize + h.keySize)).take h.valueSize⟩ := by
    rw [DataEntry.covered, hkey, hvalue, ← hcode]
    simp only [← append_assoc] at hhead ⊢
    rw [← hhead, hend]
    nth_rewrite 1 [record_parts raw _ _]
    simp only [← append_assoc]
    refine take_left' ?_
    simp only [length_append, hkey, hvalue, length_take]
    omega
  have hlast : (raw.drop (raw.length - crcSize)).length = crcSize := by
    rw [length_drop]
    omega
  have hback := littleEndian_readLittleEndian (raw.drop (raw.length - crcSize))
  simp only [crcMatches, Bool.and_eq_true, decide_eq_true_eq] at hcrc
  rw [hlast, ← hcrc.2, hcovered] at hback
  rw [DataEntry.serialize, hback, ← hcovered, take_append_drop]

lemma eq_serialize_of_advance (h : advance crc left = .entry e rest) : e.RecordFits ∧ left = e.serialize crc ++ rest := by
  rw [advance] at h
  cases hh : readHeader left with
  | none =>
    rw [hh] at h
    cases h
  | some p =>
    obtain ⟨hd, after⟩ := p
    obtain ⟨hleft, hs, hk, hv⟩ := readHeader_eq_some hh
    simp only [hh] at h
    split_ifs at h with hzero
    cases hc : ofCode hd.code with
    | none =>
      rw [hc] at h
      cases h
    | some type =>
      simp only [hc] at h
      split_ifs at h with hm
      rw [takeBytes] at h
      split_ifs at h with hle
      simp only at h
      split_ifs at h with hcrc
      obtain ⟨rfl, rfl⟩ := Framed.entry.inj h
      have hraw : left.take hd.recordBytes = littleEndian 8 hd.sequence ++ (littleEndian 1 hd.code ++
          (littleEndian 2 hd.keySize ++ (littleEndian 4 hd.valueSize ++ after.take (hd.recordBytes - headerSize)))) := by
        have hge : headerSize ≤ hd.recordBytes := by
          rw [EntryHeader.recordBytes, entrySize]
          omega
        rw [hleft]
        simp only [← append_assoc]
        rw [take_append, take_of_length_le (by simpa [headerSize] using hge)]
        simp [headerSize]
      obtain ⟨hkey, hvalue, heq⟩ := eq_serialize_of_crcMatches hraw (length_take_of_le hle)
        (eq_code_of_ofCode hc) hcrc
      refine ⟨⟨hzero, hs, by rw [hkey]; exact hk, by rw [hvalue]; exact hv, fun ht => ?_⟩, ?_⟩
      · have hsizes : hd.keySize = 0 ∧ hd.valueSize = changeMarkerIdBytes := by
          by_contra hbad
          exact hm ⟨ht, by omega⟩
        exact ⟨length_eq_zero_iff.1 (hkey.trans hsizes.1), hvalue.trans hsizes.2⟩
      · rw [← heq, take_append_drop]

lemma sweepFrom_spec (n : ℕ) (bytes : Bytes) (hn : bytes.length < n) :
    (∀ e ∈ (sweepFrom crc n bytes).entries, e.RecordFits) ∧
      ∃ rest, bytes = serializeAll crc (sweepFrom crc n bytes).entries ++ rest := by
  induction n generalizing bytes with
  | zero => omega
  | succ n ih =>
    rw [sweepFrom]
    cases h : advance crc bytes with
    | stop tail => exact ⟨by simp, bytes, by simp [serializeAll]⟩
    | entry e rest =>
      obtain ⟨hfits, rfl⟩ := eq_serialize_of_advance h
      have hlt : rest.length < n := by
        have := e.size_pos
        rw [length_append, e.serialize_length] at hn
        omega
      obtain ⟨hall, left, hleft⟩ := ih rest hlt
      refine ⟨fun x hx => ?_, left, ?_⟩
      · rcases mem_cons.1 hx with rfl | hx
        · exact hfits
        · exact hall x hx
      · simp only [serializeAll, flatMap_cons, append_assoc]
        rw [← serializeAll, ← hleft]

lemma sweep_spec (bytes : Bytes) : (∀ e ∈ (sweep crc bytes).entries, e.RecordFits) ∧
    ∃ rest, bytes = serializeAll crc (sweep crc bytes).entries ++ rest :=
  sweepFrom_spec _ _ (Nat.lt_succ_self _)

lemma advance_damage (hh : readHeader left = some (h, after))
    (hends : ¬ h.Ends left.length) (hbad : ∀ e rest, advance crc left ≠ .entry e rest) :
    advance crc left = .stop .damage := by
  have hseq : h.sequence ≠ 0 := fun hz => hends (.inl hz)
  simp only [advance, hh, if_neg hseq] at hbad ⊢
  cases hc : ofCode h.code with
  | none => rfl
  | some type =>
    simp only [hc] at hbad ⊢
    by_cases hm : h.Malformed type
    · rw [if_pos hm]
    · have hle : h.recordBytes ≤ left.length := not_lt.1 fun hlt => hends (.inr ⟨type, hc, hm, hlt⟩)
      simp only [takeBytes, if_pos hle] at hbad ⊢
      split_ifs at hbad ⊢ with hcrc
      · exact absurd rfl (hbad _ _)
      · rfl

/-- Bytes read as a record just if they are one written, and a sweep gives back what was written up to where no record begins. -/
theorem records_read_back (crc : Crc) :
    (∀ left (e : DataEntry) rest, advance crc left = .entry e rest ↔ e.RecordFits ∧ left = e.serialize crc ++ rest) ∧
    ∀ es rest, (∀ e ∈ es, e.RecordFits) → (∀ (e : DataEntry) left, e.RecordFits → rest ≠ e.serialize crc ++ left) →
      (sweep crc (serializeAll crc es ++ rest)).entries = es := by
  refine ⟨fun left e rest => ⟨eq_serialize_of_advance, ?_⟩, fun es rest hes hrest => ?_⟩
  · rintro ⟨hfits, rfl⟩
    exact advance_serialize hfits rest
  · cases h : advance crc rest with
    | stop tail => rw [sweep_of_stop hes h]
    | entry e left =>
      obtain ⟨hfits, heq⟩ := eq_serialize_of_advance h
      exact absurd heq (hrest e left hfits)

theorem onePut_read_back : (sweep crc32c (serializeAll crc32c [⟨1, .put, [1], [7]⟩] ++ [2, 0, 0])).entries = [⟨1, .put, [1], [7]⟩] := by
  refine (records_read_back crc32c).2 _ _ ?_ fun e left _ heq => ?_
  · simp only [mem_singleton, forall_eq]
    exact ⟨by decide, by decide, by decide, by decide, nofun⟩
  · have hlen := congrArg length heq
    rw [length_append, DataEntry.serialize_length, DataEntry.size, entrySize] at hlen
    simp only [length_cons, length_nil, headerSize, crcSize] at hlen
    omega

end Sweep

end Bytecask
