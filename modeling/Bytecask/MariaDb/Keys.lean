import Bytecask.Lib.Images
import Bytecask.Wire

/-! The keys of a MariaDB table: a row stands under its primary key, and each secondary index has an entry whose key
ends in the row's primary key. -/

namespace Bytecask

open List

namespace MariaDb

def nsRow : Byte := 2

def nsIndex : Byte := 3

abbrev Row := List (Option Bytes)

def Row.field (r : Row) (i : ℕ) : Option Bytes := (r[i]?).join

/-- A part of a key: the stored bytes of a field have one width, and a NULL has bytes of its own. -/
structure KeyPart where
  fieldnr : ℕ
  nullable : Bool
  storedLength : ℕ
  encode : Option Bytes → Bytes
  length_encode : ∀ v, (encode v).length = storedLength
  encode_null : nullable = true → ∀ v, encode none ≠ encode (some v)

def KeyPart.isNull (p : KeyPart) (r : Row) : Bool := p.nullable && (r.field p.fieldnr).isNone

def encodeKeyParts (parts : List KeyPart) (r : Row) : Bytes := parts.flatMap (fun p => p.encode (r.field p.fieldnr))

def storedLength (parts : List KeyPart) : ℕ := (parts.map KeyPart.storedLength).sum

structure IndexInfo where
  indexId : ℕ
  isUnique : Bool
  parts : List KeyPart

def IndexInfo.hasNull (ix : IndexInfo) (r : Row) : Bool := ix.parts.any (fun p => p.isNull r)

structure Table where
  tableId : ℕ
  primaryKey : Option (List KeyPart)
  indexes : List IndexInfo
  fields : ℕ
  encodeRow : Row → Bytes
  decodeRow : Bytes → Row
  decode_encode : ∀ r : Row, r.length = fields → decodeRow (encodeRow r) = r
  tableId_lt : tableId + 1 < 256 ^ 4
  indexId_lt : ∀ ix ∈ indexes, ix.indexId + 1 < 256 ^ 2
  indexIds : (indexes.map IndexInfo.indexId).Nodup

def tableIdPrefix (tableId : ℕ) : Bytes := nsRow :: bigEndian 4 tableId

def tableIdUpperBound (tableId : ℕ) : Bytes := nsRow :: bigEndian 4 (tableId + 1)

def indexIdPrefix (tableId indexId : ℕ) : Bytes := nsIndex :: (bigEndian 4 tableId ++ bigEndian 2 indexId)

def indexIdUpperBound (tableId indexId : ℕ) : Bytes := nsIndex :: (bigEndian 4 tableId ++ bigEndian 2 (indexId + 1))

def keyBelongsToTable (k : Bytes) (tableId : ℕ) : Bool := k.take 5 = tableIdPrefix tableId

def keyBelongsToIndex (k : Bytes) (tableId indexId : ℕ) : Bool := k.take 7 = indexIdPrefix tableId indexId

namespace Table

def noPk (T : Table) : Bool := T.primaryKey.isNone

def pkSuffix (T : Table) (r : Row) (rowid : ℕ) : Bytes :=
  match T.primaryKey with
  | none => bigEndian 8 rowid
  | some parts => encodeKeyParts parts r

def pkSuffixLength (T : Table) : ℕ :=
  match T.primaryKey with
  | none => 8
  | some parts => storedLength parts

def encodePk (T : Table) (r : Row) (rowid : ℕ) : Bytes := tableIdPrefix T.tableId ++ T.pkSuffix r rowid

def encodeUniqueSecKey (T : Table) (ix : IndexInfo) (r : Row) : Bytes :=
  indexIdPrefix T.tableId ix.indexId ++ encodeKeyParts ix.parts r

def encodeSecKey (T : Table) (ix : IndexInfo) (r : Row) (rowid : ℕ) : Bytes :=
  T.encodeUniqueSecKey ix r ++ T.pkSuffix r rowid

def image (T : Table) (r : Row) (rowid : ℕ) (k : Bytes) : Option Bytes :=
  if k = T.encodePk r rowid then some (T.encodeRow r)
  else if ∃ ix ∈ T.indexes, k = T.encodeSecKey ix r rowid then some []
  else none

def Fits (T : Table) (r : Row) (rowid : ℕ) : Prop :=
  r.length = T.fields ∧ if T.noPk then rowid < 256 ^ 8 else rowid = 0

instance (T : Table) (r : Row) (rowid : ℕ) : Decidable (T.Fits r rowid) := inferInstanceAs (Decidable (_ ∧ _))

def Owns (T : Table) (k : Bytes) : Prop :=
  keyBelongsToTable k T.tableId = true ∨ ∃ ix ∈ T.indexes, keyBelongsToIndex k T.tableId ix.indexId = true

def rowKeyOf (T : Table) (k : Bytes) : Bytes :=
  match T.indexes.find? (fun ix => keyBelongsToIndex k T.tableId ix.indexId) with
  | none => k
  | some ix => tableIdPrefix T.tableId ++ k.drop (7 + storedLength ix.parts)

end Table

section Parts

variable {parts : List KeyPart} {r r' : Row}

@[simp] lemma encodeKeyParts_length (parts : List KeyPart) (r : Row) : (encodeKeyParts parts r).length = storedLength parts := by
  simp [encodeKeyParts, storedLength, length_flatMap, KeyPart.length_encode]

lemma isNull_eq_of_encode {p : KeyPart} (h : p.encode (r.field p.fieldnr) = p.encode (r'.field p.fieldnr)) :
    p.isNull r = p.isNull r' := by
  rw [KeyPart.isNull, KeyPart.isNull]
  cases hn : p.nullable with
  | false => rfl
  | true =>
    cases hr : r.field p.fieldnr <;> cases hr' : r'.field p.fieldnr
    · rfl
    · rw [hr, hr'] at h
      exact absurd h (p.encode_null hn _)
    · rw [hr, hr'] at h
      exact absurd h.symm (p.encode_null hn _)
    · rfl

lemma anyNull_eq_of_encode (h : encodeKeyParts parts r = encodeKeyParts parts r') :
    parts.any (fun p => p.isNull r) = parts.any (fun p => p.isNull r') := by
  induction parts with
  | nil => rfl
  | cons p parts ih =>
    obtain ⟨hp, hrest⟩ := append_inj h (by rw [p.length_encode, p.length_encode])
    rw [any_cons, any_cons, isNull_eq_of_encode hp, ih hrest]

end Parts

section Prefixes

variable {k : Bytes} {t t' i i' : ℕ}

@[simp] lemma tableIdPrefix_length (t : ℕ) : (tableIdPrefix t).length = 5 := by simp [tableIdPrefix]

@[simp] lemma indexIdPrefix_length (t i : ℕ) : (indexIdPrefix t i).length = 7 := by simp [indexIdPrefix]

lemma belongsToTable_append (t : ℕ) (xs : Bytes) : keyBelongsToTable (tableIdPrefix t ++ xs) t = true :=
  decide_eq_true (take_left' (tableIdPrefix_length t))

lemma belongsToIndex_append (t i : ℕ) (xs : Bytes) : keyBelongsToIndex (indexIdPrefix t i ++ xs) t i = true :=
  decide_eq_true (take_left' (indexIdPrefix_length t i))

lemma eq_of_belongsToTable (h : keyBelongsToTable k t = true) : k = tableIdPrefix t ++ k.drop 5 := by
  rw [← of_decide_eq_true h, take_append_drop]

lemma eq_of_belongsToIndex (h : keyBelongsToIndex k t i = true) : k = indexIdPrefix t i ++ k.drop 7 := by
  rw [← of_decide_eq_true h, take_append_drop]

lemma le_of_belongsToIndex (h : keyBelongsToIndex k t i = true) : indexIdPrefix t i ≤ k := by
  rw [eq_of_belongsToIndex h]
  exact not_lt.1 le_append_left

lemma not_both_belong (h : keyBelongsToTable k t = true) : keyBelongsToIndex k t' i = false := by
  rw [eq_of_belongsToTable h, keyBelongsToIndex, decide_eq_false_iff_not]
  intro heq
  have hhead := congrArg List.head? heq
  exact absurd (Option.some.inj hhead) (by decide)

lemma tableId_of_belongs (ht : t < 256 ^ 4) (ht' : t' < 256 ^ 4) (h : keyBelongsToTable k t = true)
    (h' : keyBelongsToTable k t' = true) : t = t' :=
  bigEndian_inj ht ht' (List.cons.inj ((of_decide_eq_true h).symm.trans (of_decide_eq_true h'))).2

lemma indexId_of_belongs (ht : t < 256 ^ 4) (ht' : t' < 256 ^ 4) (hi : i < 256 ^ 2) (hi' : i' < 256 ^ 2)
    (h : keyBelongsToIndex k t i = true) (h' : keyBelongsToIndex k t' i' = true) : t = t' ∧ i = i' := by
  have heq := (List.cons.inj ((of_decide_eq_true h).symm.trans (of_decide_eq_true h'))).2
  obtain ⟨hts, his⟩ := append_inj heq (by simp)
  exact ⟨bigEndian_inj ht ht' hts, bigEndian_inj hi hi' his⟩

lemma lt_tableIdUpperBound (ht : t + 1 < 256 ^ 4) (h : keyBelongsToTable k t = true) : k < tableIdUpperBound t := by
  rw [eq_of_belongsToTable h, tableIdPrefix, tableIdUpperBound, cons_append]
  refine cons_lt_cons_iff.2 (.inr ⟨rfl, ?_⟩)
  have hlt := append_lt_append (by simp) (bigEndian_lt ht (Nat.lt_succ_self t)) (k.drop 5) []
  rwa [append_nil] at hlt

lemma lt_indexIdUpperBound (hi : i + 1 < 256 ^ 2) (h : keyBelongsToIndex k t i = true) : k < indexIdUpperBound t i := by
  rw [eq_of_belongsToIndex h, indexIdPrefix, indexIdUpperBound, cons_append]
  refine cons_lt_cons_iff.2 (.inr ⟨rfl, ?_⟩)
  rw [append_assoc]
  have hlt := append_lt_append (by simp) (bigEndian_lt hi (Nat.lt_succ_self i)) (k.drop 7) []
  exact append_left_lt hlt

end Prefixes

namespace Table

variable {T : Table} {ix ix' : IndexInfo} {r r' : Row} {id id' : ℕ} {k : Bytes}

lemma pkSuffix_length (T : Table) (r : Row) (id : ℕ) : (T.pkSuffix r id).length = T.pkSuffixLength := by
  rw [pkSuffix, pkSuffixLength]
  cases T.primaryKey <;> simp

lemma tableId_lt' (T : Table) : T.tableId < 256 ^ 4 := by
  have := T.tableId_lt
  omega

lemma indexId_lt' (h : ix ∈ T.indexes) : ix.indexId < 256 ^ 2 := by
  have := T.indexId_lt ix h
  omega

lemma encodePk_belongs (T : Table) (r : Row) (id : ℕ) : keyBelongsToTable (T.encodePk r id) T.tableId = true :=
  belongsToTable_append _ _

lemma encodeSecKey_belongs (T : Table) (ix : IndexInfo) (r : Row) (id : ℕ) :
    keyBelongsToIndex (T.encodeSecKey ix r id) T.tableId ix.indexId = true := by
  exact belongsToIndex_append _ _ _

lemma encodeSecKey_ne_encodePk (T : Table) (ix : IndexInfo) (r r' : Row) (id id' : ℕ) :
    T.encodeSecKey ix r id ≠ T.encodePk r' id' := by
  intro heq
  have hsec := T.encodeSecKey_belongs ix r id
  rw [heq, not_both_belong (T.encodePk_belongs r' id')] at hsec
  cases hsec

lemma index_eq_of_belongs (h : ix ∈ T.indexes) (h' : ix' ∈ T.indexes) (hk : keyBelongsToIndex k T.tableId ix.indexId = true)
    (hk' : keyBelongsToIndex k T.tableId ix'.indexId = true) : ix = ix' :=
  inj_on_of_nodup_map T.indexIds h h' (indexId_of_belongs T.tableId_lt' T.tableId_lt' (indexId_lt' h) (indexId_lt' h') hk hk').2

lemma rowKeyOf_of_row (h : keyBelongsToTable k T.tableId = true) : T.rowKeyOf k = k := by
  rw [rowKeyOf, List.find?_eq_none.2]
  intro ix _
  rw [not_both_belong h]
  exact Bool.false_ne_true

lemma rowKeyOf_of_index (h : ix ∈ T.indexes) (hk : keyBelongsToIndex k T.tableId ix.indexId = true) :
    T.rowKeyOf k = tableIdPrefix T.tableId ++ k.drop (7 + storedLength ix.parts) := by
  rw [rowKeyOf]
  cases hf : T.indexes.find? (fun ix => keyBelongsToIndex k T.tableId ix.indexId) with
  | none => exact absurd hk (List.find?_eq_none.1 hf ix h)
  | some ix' =>
    have hix' : ix' ∈ T.indexes := List.mem_of_find?_eq_some hf
    rw [index_eq_of_belongs h hix' hk (List.find?_some hf :)]

lemma encodeUniqueSecKey_length (T : Table) (ix : IndexInfo) (r : Row) :
    (T.encodeUniqueSecKey ix r).length = 7 + storedLength ix.parts := by
  simp [encodeUniqueSecKey]

lemma rowKeyOf_encodeSecKey (h : ix ∈ T.indexes) (r : Row) (id : ℕ) : T.rowKeyOf (T.encodeSecKey ix r id) = T.encodePk r id := by
  rw [rowKeyOf_of_index h (T.encodeSecKey_belongs ix r id), encodeSecKey, encodePk,
    drop_left' (T.encodeUniqueSecKey_length ix r)]

lemma image_eq_some {v : Bytes} : T.image r id k = some v ↔
    (k = T.encodePk r id ∧ v = T.encodeRow r) ∨ (v = [] ∧ ∃ ix ∈ T.indexes, k = T.encodeSecKey ix r id) := by
  rw [image]
  split_ifs with hpk hsec
  · have hno : ¬ ∃ ix ∈ T.indexes, k = T.encodeSecKey ix r id := by
      rintro ⟨ix, -, hk⟩
      exact T.encodeSecKey_ne_encodePk ix r r id id (hk.symm.trans hpk)
    rw [or_iff_left fun h => hno h.2, Option.some.injEq, eq_comm, and_iff_right hpk]
  · simp [hpk, hsec, eq_comm]
  · simp [hpk, hsec]

@[simp] lemma image_encodePk (T : Table) (r : Row) (id : ℕ) : T.image r id (T.encodePk r id) = some (T.encodeRow r) := if_pos rfl

lemma image_encodeSecKey (h : ix ∈ T.indexes) (r : Row) (id : ℕ) : T.image r id (T.encodeSecKey ix r id) = some [] :=
  image_eq_some.2 (.inr ⟨rfl, ix, h, rfl⟩)

lemma rowKeyOf_of_image (h : T.image r id k ≠ none) : T.rowKeyOf k = T.encodePk r id := by
  obtain ⟨v, hv⟩ := Option.ne_none_iff_exists'.1 h
  rcases image_eq_some.1 hv with ⟨rfl, -⟩ | ⟨-, ix, hix, rfl⟩
  · exact rowKeyOf_of_row (T.encodePk_belongs r id)
  · exact rowKeyOf_encodeSecKey hix r id

lemma owns_of_image (h : T.image r id k ≠ none) : T.Owns k := by
  obtain ⟨v, hv⟩ := Option.ne_none_iff_exists'.1 h
  rcases image_eq_some.1 hv with ⟨rfl, -⟩ | ⟨-, ix, hix, rfl⟩
  · exact .inl (T.encodePk_belongs r id)
  · exact .inr ⟨ix, hix, T.encodeSecKey_belongs ix r id⟩

abbrev Stored (T : Table) : Type := { p : Row × ℕ // T.Fits p.1 p.2 }

lemma Fits.ext (h : T.Fits r id) (h' : T.Fits r' id') (hkey : T.encodePk r id = T.encodePk r' id')
    (hrow : T.encodeRow r = T.encodeRow r') : r = r' ∧ id = id' := by
  refine ⟨?_, ?_⟩
  · rw [← T.decode_encode r h.1, ← T.decode_encode r' h'.1, hrow]
  · have hid := h.2
    have hid' := h'.2
    have hsuffix := append_cancel_left hkey
    rw [pkSuffix, pkSuffix] at hsuffix
    rw [noPk] at hid hid'
    cases hpk : T.primaryKey with
    | none =>
      rw [hpk] at hid hid' hsuffix
      exact bigEndian_inj hid hid' hsuffix
    | some parts =>
      rw [hpk] at hid hid'
      exact Eq.trans hid (Eq.symm hid')

def imaging (T : Table) : Imaging T.Stored Bytes Bytes where
  image s := T.image s.1.1 s.1.2
  key s := T.encodePk s.1.1 s.1.2
  owner := T.rowKeyOf
  owned := T.Owns
  owner_of_image h := rowKeyOf_of_image (Option.ne_none_iff_exists'.2 ⟨_, h⟩)
  owned_of_image h := owns_of_image (Option.ne_none_iff_exists'.2 ⟨_, h⟩)
  image_key s := ⟨_, T.image_encodePk s.1.1 s.1.2⟩
  ext_key := by
    rintro ⟨⟨r, id⟩, hs⟩ ⟨⟨r', id'⟩, hs'⟩ hkey himage
    rw [T.image_encodePk, T.image_encodePk] at himage
    obtain ⟨rfl, rfl⟩ := Fits.ext hs hs' hkey (Option.some.inj himage)
    rfl

lemma Owns.tableId_eq {T' : Table} (h : T.Owns k) (h' : T'.Owns k) : T.tableId = T'.tableId := by
  rcases h with h | ⟨ix, hix, h⟩ <;> rcases h' with h' | ⟨ix', hix', h'⟩
  · exact tableId_of_belongs T.tableId_lt' T'.tableId_lt' h h'
  · rw [not_both_belong h] at h'
    cases h'
  · rw [not_both_belong h'] at h
    cases h
  · exact (indexId_of_belongs T.tableId_lt' T'.tableId_lt' (indexId_lt' hix) (indexId_lt' hix') h h').1

end Table

end MariaDb

end Bytecask
