import Bytecask.Sql.KeyOrder

/-! Keys are read back as they were written, and `key_successor` bounds what begins with a key. -/

namespace Bytecask.Sql

open List KeyReader

def KeyPart.canonical (part : KeyPart) : Value → Value
  | .f64 bits => .f64 (part.format.canonical bits)
  | v => v

section Reading

variable {part : KeyPart} {v : Value} {desc null : Bool}

def written (desc : Bool) (b : Byte) : Byte := if desc then invert b else b

@[simp] lemma written_written (desc : Bool) (b : Byte) : written desc (written desc b) = b := by
  cases desc with
  | false => rfl
  | true => exact invert_invert b

lemma KeyPart.code_eq (part : KeyPart) (v : Value) :
    part.code v = ((if part.nullable then [presentMarker] else []) ++ part.body v).map (written part.desc) := by
  have hasc : written false = id := rfl
  have hdesc : written true = invert := rfl
  cases hn : part.nullable <;> cases hd : part.desc <;> simp [code, hasc, hdesc, hn, hd]

lemma nextByte_written (desc null : Bool) (b : Byte) (rest : Bytes) :
    nextByte ⟨written desc b :: rest, true, null⟩ desc = (some b, ⟨rest, true, null⟩) :=
  congrArg (fun b => (some b, _)) (written_written desc b)

lemma readMarker_code (part : KeyPart) (v : Value) (rest : Bytes) (null : Bool) :
    readMarker ⟨part.code v ++ rest, true, null⟩ part =
      (true, ⟨(part.body v).map (written part.desc) ++ rest, true, false⟩) := by
  rw [KeyPart.code_eq]
  cases hn : part.nullable with
  | false => simp [readMarker, hn]
  | true =>
    simp [readMarker, hn, nextByte_written, nullMarker, presentMarker]

lemma readBe_written (desc null : Bool) (bs rest : Bytes) (u : ℕ) :
    readBe desc bs.length u ⟨bs.map (written desc) ++ rest, true, null⟩ =
      (some (bs.foldl (fun u b => b.val + 256 * u) u), ⟨rest, true, null⟩) := by
  induction bs generalizing u with
  | nil => rfl
  | cons b bs ih =>
    have hor : u <<< 8 ||| b.val = b.val + 256 * u := by
      rw [← Nat.shiftLeft_add_eq_or_of_lt b.isLt, Nat.shiftLeft_eq]
      omega
    rw [length_cons, map_cons, cons_append, readBe, nextByte_written]
    dsimp only
    rw [ih, hor, foldl_cons]

lemma readBe_bigEndian {w n : ℕ} (h : n < 256 ^ w) (desc null : Bool) (rest : Bytes) :
    readBe desc w 0 ⟨(bigEndian w n).map (written desc) ++ rest, true, null⟩ = (some n, ⟨rest, true, null⟩) := by
  have hbs := readBe_written desc null (bigEndian w n) rest 0
  rwa [bigEndian_length, bigEndian, foldl_reverse, ← readLittleEndian_eq_foldr, readLittleEndian_littleEndian, Nat.mod_eq_of_lt h] at hbs

lemma toInt64_biased {v : ℤ} {width : ℕ} (hlo : -2 ^ 63 ≤ v) (hhi : v < 2 ^ 63) (h : fitsWidth v width = true) :
    toInt64 (biased width v + 2 ^ 64 - signBitOf width) = v := by
  obtain ⟨hw, hlo', hhi'⟩ := fitsWidth_cases hlo hhi h
  obtain ⟨k, hk, hsign⟩ : ∃ k, k = 2 ^ (8 * width - 1) ∧ signBitOf width = k := ⟨_, rfl, Nat.one_shiftLeft _⟩
  have hz : (2 : ℤ) ^ (8 * width - 1) = k := by exact_mod_cast hk.symm
  rw [hsign, biased, hz, toInt64]
  split_ifs <;> omega

lemma readBytesLoop_byte {b : Byte} (hb : b ≠ 0) (desc null : Bool) (v rest : Bytes) :
    readBytesLoop desc null v (written desc b :: rest) = readBytesLoop desc null (v ++ [b]) rest := by
  have hread : (if desc then invert (written desc b) else written desc b) = b := written_written desc b
  rw [readBytesLoop.eq_def]
  simp only [hread, if_pos hb]

lemma readBytesLoop_zero (desc null : Bool) (v : Bytes) (next : Byte) (rest : Bytes) :
    readBytesLoop desc null v (written desc 0 :: written desc next :: rest) =
      if next = 0 then (some v, ⟨rest, true, null⟩)
      else if next ≠ escape then (none, ⟨rest, false, null⟩)
      else readBytesLoop desc null (v ++ [0]) rest := by
  have hread : ∀ b, (if desc then invert (written desc b) else written desc b) = b := written_written desc
  rw [readBytesLoop.eq_def]
  simp [hread]

lemma readBytesLoop_written (desc null : Bool) (v acc rest : Bytes) :
    readBytesLoop desc null acc ((escaped v ++ [0, 0]).map (written desc) ++ rest) =
      (some (acc ++ v), ⟨rest, true, null⟩) := by
  induction v generalizing acc with
  | nil =>
    rw [append_nil]
    exact readBytesLoop_zero desc null acc 0 rest
  | cons b v ih =>
    have hacc : acc ++ b :: v = acc ++ [b] ++ v := by simp
    rw [hacc, ← ih]
    by_cases hb : b = 0
    · subst hb
      exact readBytesLoop_zero desc null acc escape _
    · simp only [escaped, flatMap_cons, if_neg hb]
      exact readBytesLoop_byte hb desc null acc _

lemma readValue_code (h : part.Holds v) (rest : Bytes) (null : Bool) :
    readValue ⟨part.code v ++ rest, true, null⟩ part = (some (part.canonical v), ⟨rest, true, false⟩) := by
  have hmark := readMarker_code part v rest null
  cases v with
  | i64 v =>
    obtain ⟨htype, hlo, hhi, hfits⟩ := h
    obtain ⟨hw, -, hlt⟩ := fitsWidth_cases hlo hhi hfits
    have hvalid : fixedWidthValid .i64 part.width = true := decide_eq_true hw
    have hbe := readBe_bigEndian (biased_lt (show 0 < part.width by omega) hlt) part.desc false rest
    have hread : readI64 ⟨part.code (.i64 v) ++ rest, true, null⟩ part = (some v, ⟨rest, true, false⟩) := by
      simp only [readI64, hmark, hvalid, KeyPart.body, hbe, toInt64_biased hlo hhi hfits]
      rfl
    rw [readValue, htype]
    simp only [hread]
    rfl
  | f64 bits =>
    have hbe := readBe_bigEndian (part.toOrdered_lt h) part.desc false rest
    have hback := FloatFormat.ofOrdered_toOrdered h.2.2
    have hread : readF64 ⟨part.code (.f64 bits) ++ rest, true, null⟩ part =
        (some (part.format.canonical bits), ⟨rest, true, false⟩) := by
      simp only [readF64, hmark, h.2.1, KeyPart.body]
      obtain hw | hw := h.width <;> simp_all [KeyPart.format]
    rw [readValue, h.1]
    simp only [hread]
    rfl
  | bool v =>
    have hread : readBool ⟨part.code (.bool v) ++ rest, true, null⟩ part = (some v, ⟨rest, true, false⟩) := by
      cases v <;> simp [readBool, hmark, KeyPart.body, nextByte_written]
    rw [readValue, show part.type = .bool from h]
    simp only [hread]
    rfl
  | bytes v =>
    have hread : readBytes ⟨part.code (.bytes v) ++ rest, true, null⟩ part = (some v, ⟨rest, true, false⟩) := by
      simp only [readBytes, hmark, KeyPart.body, readBytesLoop_written, nil_append]
    rw [readValue, show part.type = .bytes from h]
    simp only [hread]
    rfl

lemma readValue_null (hn : part.nullable = true) (rest : Bytes) (null : Bool) :
    readValue ⟨written part.desc nullMarker :: rest, true, null⟩ part = (none, ⟨rest, true, true⟩) := by
  have hmark : readMarker ⟨written part.desc nullMarker :: rest, true, null⟩ part = (false, ⟨rest, true, true⟩) := by
    simp [readMarker, hn, nextByte_written]
  rw [readValue]
  cases part.type <;>
    simp [readI64, readF64, readBool, readBytes, hmark]

lemma readTuple_encode {parts : List KeyPart} {tuple : List (Option Value)} (h : Fits (parts.map .key) tuple)
    (hlen : tuple.length = parts.length) (null : Bool) :
    ∃ null', readTuple ⟨encode (parts.map .key) tuple, true, null⟩ parts =
      (List.zipWith (fun part cell => cell.map part.canonical) parts tuple, ⟨[], true, null'⟩) := by
  induction parts generalizing tuple null with
  | nil =>
    exact ⟨null, rfl⟩
  | cons part parts ih =>
    cases tuple with
    | nil => cases hlen
    | cons cell tuple =>
      obtain ⟨null', hrest⟩ := ih h.2 (Nat.succ.inj hlen) cell.isNone
      have hcell : readValue ⟨encode ((part :: parts).map .key) (cell :: tuple), true, null⟩ part =
          (cell.map part.canonical, ⟨encode (parts.map .key) tuple, true, cell.isNone⟩) := by
        rw [map_cons, encode_cons h]
        cases cell with
        | none => exact readValue_null h.1 _ null
        | some v => exact readValue_code h.1 _ null
      refine ⟨null', ?_⟩
      simp only [readTuple, hcell, hrest, zipWith_cons_cons]

end Reading

section Successor

def above (p : Bytes) : Set Bytes := { s | ∀ t, p <+: t → t < s }

lemma mem_above_cons {b : Byte} {p s : Bytes} :
    s ∈ above (b :: p) ↔ ∃ c s', s = c :: s' ∧ (b < c ∨ b = c ∧ s' ∈ above p) := by
  constructor
  · intro h
    cases s with
    | nil => exact absurd (h _ prefix_rfl) (not_lt_nil _)
    | cons c s' =>
      obtain hlt | ⟨rfl, -⟩ := cons_lt_cons_iff.1 (h _ prefix_rfl)
      · exact ⟨c, s', rfl, .inl hlt⟩
      · refine ⟨b, s', rfl, .inr ⟨rfl, ?_⟩⟩
        intro t ht
        obtain hlt | ⟨-, hlt⟩ := cons_lt_cons_iff.1 (h _ (cons_prefix_cons.2 ⟨rfl, ht⟩))
        · exact absurd hlt (lt_irrefl b)
        · exact hlt
  · rintro ⟨c, s', rfl, hs⟩ t ht
    cases t with
    | nil => exact absurd ht (by simp)
    | cons d t =>
      obtain ⟨rfl, ht'⟩ := cons_prefix_cons.1 ht
      obtain hlt | ⟨rfl, hs'⟩ := hs
      · exact cons_lt_cons_iff.2 (.inl hlt)
      · exact cons_lt_cons_iff.2 (.inr ⟨rfl, hs' t ht'⟩)

lemma keySuccessor_spec (p : Bytes) :
    (keySuccessor p = [] → above p = ∅) ∧ (keySuccessor p ≠ [] → IsLeast (above p) (keySuccessor p)) := by
  induction p with
  | nil =>
    refine ⟨fun _ => ?_, fun h => absurd rfl h⟩
    exact Set.eq_empty_of_forall_notMem (fun s hs => lt_irrefl s (hs s nil_prefix))
  | cons b p ih =>
    rw [keySuccessor_cons]
    by_cases hp : keySuccessor p = []
    · have hempty := ih.1 hp
      rw [if_pos hp]
      by_cases hb : b = 0xFF
      · rw [if_neg (not_not.2 hb)]
        refine ⟨fun _ => ?_, fun h => absurd rfl h⟩
        refine Set.eq_empty_of_forall_notMem (fun s hs => ?_)
        obtain ⟨c, s', -, hlt | ⟨-, hs'⟩⟩ := mem_above_cons.1 hs
        · have hle : c ≤ 0xFF := Fin.le_last c
          exact absurd hlt (hb ▸ hle.not_gt)
        · rw [hempty] at hs'
          exact hs'
      · have hsucc : b < b + 1 := Fin.lt_add_one_iff.2 (Fin.lt_last_iff_ne_last.2 hb)
        rw [if_pos hb]
        refine ⟨fun h => absurd h (cons_ne_nil _ _), fun _ => ⟨mem_above_cons.2 ⟨_, _, rfl, .inl hsucc⟩, ?_⟩⟩
        intro s hs
        obtain ⟨c, s', rfl, hlt | ⟨-, hs'⟩⟩ := mem_above_cons.1 hs
        · obtain heq | hlt' := (Fin.add_one_le_of_lt hlt).eq_or_lt
          · exact heq ▸ cons_le_cons _ (not_lt.1 (not_lt_nil s'))
          · exact (cons_lt_cons_iff.2 (.inl hlt')).le
        · rw [hempty] at hs'
          exact hs'.elim
    · obtain ⟨hmem, hleast⟩ := ih.2 hp
      rw [if_neg hp]
      refine ⟨fun h => absurd h (cons_ne_nil _ _), fun _ => ⟨mem_above_cons.2 ⟨_, _, rfl, .inr ⟨rfl, hmem⟩⟩, ?_⟩⟩
      intro s hs
      obtain ⟨c, s', rfl, hlt | ⟨rfl, hs'⟩⟩ := mem_above_cons.1 hs
      · exact (cons_lt_cons_iff.2 (.inl hlt)).le
      · exact cons_le_cons b (hleast hs')

end Successor

/-- For tuples of the front parts of a layout: keys compare as their tuples do, one begins with another exactly when its
parts do, a key is read back to its end, and `key_successor` is the least bound of what begins with its argument. -/
theorem key_encoding_exact {layout : List LayoutPart} {tuple tuple' : List (Option Value)} (h : Fits layout tuple)
    (h' : Fits layout tuple') :
    encodeFrom [] layout tuple = some (encode layout tuple) ∧
    (tuple.length = tuple'.length →
      (encode layout tuple < encode layout tuple' ↔ compareTuples layout tuple tuple' = .lt) ∧
      (encode layout tuple = encode layout tuple' ↔ compareTuples layout tuple tuple' = .eq) ∧
      (encode layout tuple' < encode layout tuple ↔ compareTuples layout tuple tuple' = .gt)) ∧
    (encode layout tuple <+: encode layout tuple' ↔
      tuple.length ≤ tuple'.length ∧ compareTuples layout tuple tuple' = .eq) ∧
    (∀ part a b, LayoutPart.Holds part a → part.Holds b → encode [part] [a] <+: encode [part] [b] →
      encode [part] [a] = encode [part] [b]) ∧
    (∀ parts : List KeyPart, layout = parts.map .key → tuple.length = parts.length → ∃ null,
      readTuple ⟨encode layout tuple, true, false⟩ parts =
        (List.zipWith (fun part cell => cell.map part.canonical) parts tuple, ⟨[], true, null⟩)) ∧
    (∀ p, (keySuccessor p = [] ↔ above p = ∅) ∧ (keySuccessor p ≠ [] → IsLeast (above p) (keySuccessor p))) := by
  refine ⟨?_, ?_, encode_isPrefix_iff h h', ?_, ?_, ?_⟩
  · rw [encode_eq h, encodeFrom_eq h, nil_append]
  · intro hlen
    have hagree := agrees_encode h h' hlen
    refine ⟨hagree.lt_iff, hagree.eq_iff, ?_⟩
    rw [hagree.symm.lt_iff, Ordering.swap_eq_lt]
  · intro part a b ha hb hp
    have hcell : ∀ {c}, part.Holds c → Fits [part] [c] := fun hc => ⟨hc, trivial⟩
    obtain ⟨-, heq⟩ := (encode_isPrefix_iff (hcell ha) (hcell hb)).1 hp
    exact (agrees_encode (hcell ha) (hcell hb) rfl).eq_iff.2 heq
  · rintro parts rfl hlen
    exact readTuple_encode h hlen false
  · intro p
    refine ⟨⟨(keySuccessor_spec p).1, fun hempty => ?_⟩, (keySuccessor_spec p).2⟩
    by_contra hne
    exact (Set.eq_empty_iff_forall_notMem.1 hempty) _ ((keySuccessor_spec p).2 hne).1

def sampleLayout : List LayoutPart := [.key ⟨.bytes, true, true, 8⟩, .key ⟨.i64, false, false, 2⟩]

theorem sampleKeys_ordered :
    encode sampleLayout [some (.bytes [0, 7]), some (.i64 (-3))] < encode sampleLayout [none, some (.i64 5)] := by
  have hvalue : Fits sampleLayout [some (.bytes [0, 7]), some (.i64 (-3))] :=
    ⟨rfl, ⟨rfl, by decide, by decide, rfl⟩, trivial⟩
  have hnull : Fits sampleLayout [none, some (.i64 5)] := ⟨rfl, ⟨rfl, by decide, by decide, rfl⟩, trivial⟩
  exact ((key_encoding_exact hvalue hnull).2.1 rfl).1.2 (by decide)

end Bytecask.Sql
