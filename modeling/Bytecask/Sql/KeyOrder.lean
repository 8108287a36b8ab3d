import Bytecask.Sql.KeyCodec

/-! Comparing keys byte by byte compares the tuples they encode, part by part. -/

namespace Bytecask.Sql

open PrefixCode List LayoutPart

def KeyPart.format (part : KeyPart) : FloatFormat := if part.width = 4 then f32 else f64

def KeyPart.Holds (part : KeyPart) : Value → Prop
  | .i64 v => part.type = .i64 ∧ -2 ^ 63 ≤ v ∧ v < 2 ^ 63 ∧ fitsWidth v part.width = true
  | .f64 bits => part.type = .f64 ∧ fixedWidthValid .f64 part.width = true ∧ bits < 2 * part.format.signBit
  | .bool _ => part.type = .bool
  | .bytes _ => part.type = .bytes

def KeyPart.compare (part : KeyPart) : Value → Value → Ordering
  | .i64 v, .i64 w => cmp v w
  | .f64 bits, .f64 bits' => part.format.compare bits bits'
  | .bool v, .bool w => cmp v w
  | .bytes v, .bytes w => cmp v w
  | _, _ => .eq

namespace LayoutPart

def Holds : LayoutPart → Option Value → Prop
  | .key part, none => part.nullable = true
  | .key part, some v => part.Holds v
  | .sort _ _, none => True
  | .sort part _, some v => part.Holds v

/-- NULL is first in an ASC part of a key and last in a DESC one, and where it was asked for in a sort key. -/
def compare : LayoutPart → Option Value → Option Value → Ordering
  | _, none, none => .eq
  | .key part, none, some _ => if part.desc then .gt else .lt
  | .key part, some _, none => if part.desc then .lt else .gt
  | .sort _ nullsFirst, none, some _ => if nullsFirst then .lt else .gt
  | .sort _ nullsFirst, some _, none => if nullsFirst then .gt else .lt
  | .key part, some v, some w => if part.desc then (part.compare v w).swap else part.compare v w
  | .sort part _, some v, some w => if part.desc then (part.compare v w).swap else part.compare v w

end LayoutPart

def Fits : List LayoutPart → List (Option Value) → Prop
  | _, [] => True
  | part :: layout, cell :: tuple => part.Holds cell ∧ Fits layout tuple
  | [], _ :: _ => False

def compareTuples : List LayoutPart → List (Option Value) → List (Option Value) → Ordering
  | part :: layout, cell :: tuple, cell' :: tuple' => (part.compare cell cell').then (compareTuples layout tuple tuple')
  | _, _, _ => .eq

section Bytes

lemma invert_val : ∀ b : Byte, (invert b).val = 255 - b.val := by decide +kernel

lemma invert_strictAnti : StrictAnti invert := by
  intro b c h
  have hlt : b.val < c.val := h
  rw [Fin.lt_def, invert_val, invert_val]
  omega

@[simp] lemma invert_invert (b : Byte) : invert (invert b) = b := by
  apply Fin.ext
  rw [invert_val, invert_val]
  omega

def escaped (v : Bytes) : Bytes := v.flatMap (fun b => if b = 0 then [b, escape] else [b])

lemma escaped_below {v w : Bytes} (h : v < w) (x y : Bytes) : Below (escaped v ++ 0 :: 0 :: x) (escaped w ++ 0 :: 0 :: y) := by
  induction v generalizing w with
  | nil =>
    cases w with
    | nil => exact absurd h (lt_irrefl _)
    | cons c w =>
      by_cases hc : c = 0
      · subst hc
        exact (below_cons_of_lt (by decide) x _).cons 0
      · simp only [escaped, flatMap_cons, if_neg hc]
        exact below_cons_of_lt (Fin.pos_iff_ne_zero.2 hc) _ _
  | cons b v ih =>
    cases w with
    | nil => cases h
    | cons c w =>
      obtain hlt | ⟨rfl, hlt⟩ := cons_lt_cons_iff.1 h
      · have hc : c ≠ 0 := (Fin.zero_le b).trans_lt hlt |>.ne'
        simp only [escaped, flatMap_cons, if_neg hc]
        by_cases hb : b = 0
        · rw [if_pos hb]
          exact below_cons_of_lt hlt _ _
        · rw [if_neg hb]
          exact below_cons_of_lt hlt _ _
      · simp only [escaped, flatMap_cons, append_assoc]
        exact (ih hlt).append_left _

lemma foldl_escaped (v out : Bytes) :
    v.foldl (fun out b => if b = 0 then out ++ [b] ++ [escape] else out ++ [b]) out = out ++ escaped v := by
  induction v generalizing out with
  | nil => simp [escaped]
  | cons b v ih =>
    rw [foldl_cons, ih]
    by_cases hb : b = 0 <;> simp [escaped, hb]

end Bytes

section Words

variable {v : ℤ} {width : ℕ}

lemma agrees_bigEndian {w a b : ℕ} (ha : a < 256 ^ w) (hb : b < 256 ^ w) : Agrees (cmp a b) (bigEndian w a) (bigEndian w b) := by
  apply agrees_cmp
  · intro h
    exact below_of_length_eq (by simp) (bigEndian_lt hb h)
  · intro h
    exact below_of_length_eq (by simp) (bigEndian_lt ha h)

def biased (width : ℕ) (v : ℤ) : ℕ := (v + 2 ^ (8 * width - 1)).toNat

lemma xor_two_pow {k x : ℕ} (h : x < 2 * 2 ^ k) : x ^^^ 2 ^ k = if x < 2 ^ k then x + 2 ^ k else x - 2 ^ k := by
  have hlow : ∀ y < 2 ^ k, y ^^^ 2 ^ k = y + 2 ^ k := by
    intro y hy
    apply Nat.eq_of_testBit_eq
    intro i
    have hsum := Nat.testBit_two_pow_mul_add 1 hy i
    rw [Nat.mul_one, Nat.add_comm] at hsum
    rw [Nat.testBit_xor, hsum, Nat.testBit_two_pow]
    by_cases hi : i < k
    · simp [hi, hi.ne']
    · have hone : Nat.testBit 1 (i - k) = decide (0 = i - k) := @Nat.testBit_two_pow 0 _
      rw [if_neg hi, Nat.testBit_lt_two_pow (hy.trans_le (Nat.pow_le_pow_right (by decide) (not_lt.1 hi))), hone]
      simp only [Bool.false_xor, decide_eq_decide]
      omega
  by_cases hx : x < 2 ^ k
  · rw [if_pos hx, hlow x hx]
  · rw [if_neg hx]
    obtain ⟨y, rfl⟩ := Nat.exists_eq_add_of_le' (not_lt.1 hx)
    rw [← hlow y (by omega), Nat.xor_assoc, Nat.xor_self, Nat.xor_zero, hlow y (by omega), Nat.add_sub_cancel]

lemma fitsWidth_cases (hlo : -2 ^ 63 ≤ v) (hhi : v < 2 ^ 63) (h : fitsWidth v width = true) :
    (width = 2 ∨ width = 4 ∨ width = 8) ∧ -2 ^ (8 * width - 1) ≤ v ∧ v < 2 ^ (8 * width - 1) := by
  unfold fitsWidth at h
  split at h
  · exact ⟨.inl rfl, of_decide_eq_true h⟩
  · exact ⟨.inr (.inl rfl), of_decide_eq_true h⟩
  · exact ⟨.inr (.inr rfl), hlo, hhi⟩
  · cases h

lemma biased_lt (hw : 0 < width) (hhi : v < 2 ^ (8 * width - 1)) : biased width v < 256 ^ width := by
  have hpow : (256 : ℤ) ^ width = 2 * 2 ^ (8 * width - 1) := by
    rw [← pow_succ', show 8 * width - 1 + 1 = 8 * width by omega, pow_mul]
    rfl
  have hpos : (0 : ℤ) < 2 ^ (8 * width - 1) := by positivity
  rw [biased]
  zify
  omega

lemma bitCast_xor (hlo : -2 ^ 63 ≤ v) (hhi : v < 2 ^ 63) (h : fitsWidth v width = true) :
    bigEndian width (bitCast v ^^^ signBitOf width) = bigEndian width (biased width v) := by
  obtain ⟨hw, hlo', hhi'⟩ := fitsWidth_cases hlo hhi h
  rw [← bigEndian_mod]
  congr 1
  obtain rfl | rfl | rfl := hw
  · rw [show (256 : ℕ) ^ 2 = 2 ^ 16 from rfl, Nat.xor_mod_two_pow, show signBitOf 2 % 2 ^ 16 = 2 ^ 15 from rfl,
      xor_two_pow (by omega), biased, bitCast]
    split_ifs <;> omega
  · rw [show (256 : ℕ) ^ 4 = 2 ^ 32 from rfl, Nat.xor_mod_two_pow, show signBitOf 4 % 2 ^ 32 = 2 ^ 31 from rfl,
      xor_two_pow (by omega), biased, bitCast]
    split_ifs <;> omega
  · rw [show (256 : ℕ) ^ 8 = 2 ^ 64 from rfl, Nat.xor_mod_two_pow, show signBitOf 8 % 2 ^ 64 = 2 ^ 63 from rfl,
      xor_two_pow (by omega), biased, bitCast]
    split_ifs <;> omega

end Words

section Parts

def KeyPart.body (part : KeyPart) : Value → Bytes
  | .i64 v => bigEndian part.width (biased part.width v)
  | .f64 bits => bigEndian part.width (part.format.toOrdered bits)
  | .bool v => [if v then 1 else 0]
  | .bytes v => escaped v ++ [0, 0]

def KeyPart.code (part : KeyPart) (v : Value) : Bytes :=
  let bytes := if part.nullable then presentMarker :: part.body v else part.body v
  if part.desc then bytes.map invert else bytes

def LayoutPart.code : LayoutPart → Option Value → Bytes
  | .key part, none => [if part.desc then invert nullMarker else nullMarker]
  | .key part, some v => part.code v
  | .sort _ nullsFirst, none => [if nullsFirst then nullMarker else sortNullLast]
  | .sort part _, some v => presentMarker :: KeyPart.code { part with nullable := false } v

variable {part : KeyPart} {v w : Value}

lemma finishPart_eq (out body : Bytes) (part : KeyPart) :
    finishPart (putMarker out part ++ body) out.length part =
      out ++ (let bytes := if part.nullable then presentMarker :: body else body
        if part.desc then bytes.map invert else bytes) := by
  have hmark : putMarker out part ++ body = out ++ (if part.nullable then presentMarker :: body else body) := by
    cases hn : part.nullable <;> simp [putMarker, hn]
  rw [hmark]
  cases hd : part.desc <;> simp [finishPart, invertFrom, hd]

lemma KeyPart.Holds.width (h : part.Holds (.f64 bits)) : part.width = 4 ∨ part.width = 8 := of_decide_eq_true h.2.1

lemma KeyPart.toOrdered_lt (part : KeyPart) {bits : ℕ} (h : part.Holds (.f64 bits)) :
    part.format.toOrdered bits < 256 ^ part.width := by
  have hsize : 2 * part.format.signBit = 256 ^ part.width := by
    obtain hw | hw := h.width <;> rw [KeyPart.format, hw] <;> decide
  exact hsize ▸ FloatFormat.toOrdered_lt h.2.2

lemma putValue_eq (h : part.Holds v) (out : Bytes) : putValue out part v = some (out ++ part.code v) := by
  cases v with
  | i64 v =>
    obtain ⟨-, hlo, hhi, hfits⟩ := h
    rw [putValue, keyPutI64, if_pos hfits, putBe, bitCast_xor hlo hhi hfits, finishPart_eq]
    rfl
  | f64 bits =>
    have hput : (if part.width = 4 then putBe (putMarker out part) (f32.toOrdered bits) 4
        else putBe (putMarker out part) (f64.toOrdered bits) 8) =
          putMarker out part ++ bigEndian part.width (part.format.toOrdered bits) := by
      obtain hw | hw := h.width <;> simp [putBe, KeyPart.format, hw]
    rw [putValue, keyPutF64, if_pos h.2.1]
    dsimp only
    rw [hput, finishPart_eq]
    rfl
  | bool v =>
    rw [putValue, keyPutBool, finishPart_eq]
    rfl
  | bytes v =>
    rw [putValue, keyPutBytes, foldl_escaped, append_assoc, append_assoc, finishPart_eq]
    rfl

lemma LayoutPart.put_eq {part : LayoutPart} {cell : Option Value} (h : part.Holds cell) (out : Bytes) :
    part.put out cell = some (out ++ part.code cell) := by
  cases part with
  | key part =>
    cases cell with
    | none => rfl
    | some v => exact putValue_eq h out
  | sort part nullsFirst =>
    cases cell with
    | none => rfl
    | some v =>
      have hv : KeyPart.Holds { part with nullable := false } v := by
        cases v <;> exact h
      rw [put, putValue_eq hv, sortPutPresent, append_assoc]
      rfl

lemma KeyPart.agrees_body (hv : part.Holds v) (hw : part.Holds w) : Agrees (part.compare v w) (part.body v) (part.body w) := by
  cases v with
  | i64 a =>
    cases w with
    | i64 b =>
      obtain ⟨-, hlo, hhi, hfits⟩ := hv
      obtain ⟨-, hlo', hhi', hfits'⟩ := hw
      obtain ⟨hwidth, ha, ha'⟩ := fitsWidth_cases hlo hhi hfits
      obtain ⟨-, hb, hb'⟩ := fitsWidth_cases hlo' hhi' hfits'
      have hcmp : cmp a b = cmp (biased part.width a) (biased part.width b) := by
        have hcast := (Nat.strictMono_cast : StrictMono (Nat.cast : ℕ → ℤ)).cmp_map_eq (biased part.width a) (biased part.width b)
        rw [← hcast, biased, biased, Int.toNat_of_nonneg (by omega), Int.toNat_of_nonneg (by omega),
          (add_left_strictMono (a := (2 : ℤ) ^ (8 * part.width - 1))).cmp_map_eq]
      rw [compare, hcmp]
      exact agrees_bigEndian (biased_lt (by omega) ha') (biased_lt (by omega) hb')
    | f64 | bool | bytes => cases hv.1.symm.trans (by first | exact hw.1 | exact hw)
  | f64 a =>
    cases w with
    | f64 b =>
      rw [compare, ← FloatFormat.cmp_toOrdered hv.2.2 hw.2.2]
      exact agrees_bigEndian (part.toOrdered_lt hv) (part.toOrdered_lt hw)
    | i64 | bool | bytes => cases hv.1.symm.trans (by first | exact hw.1 | exact hw)
  | bool a =>
    cases w with
    | bool b =>
      cases a <;> cases b
      · rfl
      · exact below_cons_of_lt (by decide) [] []
      · exact below_cons_of_lt (by decide) [] []
      · rfl
    | i64 | f64 | bytes => cases hv.symm.trans (by first | exact hw.1 | exact hw)
  | bytes a =>
    cases w with
    | bytes b =>
      exact @agrees_cmp _ _ _ _ _ a b (fun v => escaped v ++ [0, 0]) (fun h => escaped_below h [] [])
        (fun h => escaped_below h [] [])
    | i64 | f64 | bool => cases hv.symm.trans (by first | exact hw.1 | exact hw)

lemma KeyPart.agrees_code (hv : part.Holds v) (hw : part.Holds w) :
    Agrees (if part.desc then (part.compare v w).swap else part.compare v w) (part.code v) (part.code w) := by
  have hbytes : Agrees (part.compare v w) (if part.nullable then presentMarker :: part.body v else part.body v)
      (if part.nullable then presentMarker :: part.body w else part.body w) := by
    cases part.nullable with
    | false => exact agrees_body hv hw
    | true => exact @Agrees.then_append _ _ [presentMarker] [presentMarker] .eq _ _ _ rfl (agrees_body hv hw)
  rw [code, code]
  cases part.desc with
  | false => exact hbytes
  | true => exact hbytes.map_anti invert_strictAnti

lemma KeyPart.code_ne_nil (h : part.Holds v) : part.code v ≠ [] := by
  have hbody : part.body v ≠ [] := by
    refine ne_nil_of_length_pos ?_
    cases v with
    | i64 v =>
      have hw := (fitsWidth_cases h.2.1 h.2.2.1 h.2.2.2).1
      rw [body, bigEndian_length]
      omega
    | f64 bits =>
      have hw := h.width
      rw [body, bigEndian_length]
      omega
    | bool v => exact Nat.one_pos
    | bytes v => simp [body]
  cases hn : part.nullable <;> cases hd : part.desc <;> simp [code, hn, hd, hbody]

variable {lpart : LayoutPart} {a b : Option Value}

lemma LayoutPart.code_ne_nil (h : lpart.Holds a) : lpart.code a ≠ [] := by
  cases lpart with
  | key part =>
    cases a with
    | none => exact cons_ne_nil _ _
    | some v => exact KeyPart.code_ne_nil h
  | sort part nullsFirst => cases a <;> exact cons_ne_nil _ _

lemma LayoutPart.agrees_code (ha : lpart.Holds a) (hb : lpart.Holds b) :
    Agrees (lpart.compare a b) (lpart.code a) (lpart.code b) := by
  cases lpart with
  | key part =>
    -- the markers are there to tell a NULL from a value, in a part that has NULLs
    have hnull : part.nullable = true → ∀ v, if part.desc then Below (part.code v) [invert nullMarker] else
        Below [nullMarker] (part.code v) := by
      intro hn v
      rw [KeyPart.code, if_pos hn]
      cases part.desc <;> exact below_cons_of_lt (by decide) _ _
    cases a with
    | none =>
      cases b with
      | none => rfl
      | some v =>
        have h := hnull ha v
        rw [compare, code, code]
        cases hd : part.desc <;> rw [hd] at h <;> exact h
    | some v =>
      cases b with
      | none =>
        have h := hnull hb v
        rw [compare, code, code]
        cases hd : part.desc <;> rw [hd] at h <;> exact h
      | some w => exact KeyPart.agrees_code ha hb
  | sort part nullsFirst =>
    cases a with
    | none =>
      cases b with
      | none => rfl
      | some v => cases nullsFirst <;> exact below_cons_of_lt (by decide) _ _
    | some v =>
      cases b with
      | none => cases nullsFirst <;> exact below_cons_of_lt (by decide) _ _
      | some w =>
        have h := @KeyPart.agrees_code { part with nullable := false } v w ha hb
        exact @Agrees.then_append _ _ [presentMarker] [presentMarker] .eq _ _ _ rfl h

end Parts

section Tuples

variable {part : LayoutPart} {layout : List LayoutPart} {tuple tuple' : List (Option Value)}

lemma encodeFrom_eq (h : Fits layout tuple) (out : Bytes) :
    encodeFrom out layout tuple = some (out ++ (List.zipWith LayoutPart.code layout tuple).flatten) := by
  induction layout generalizing tuple out with
  | nil => simp [encodeFrom]
  | cons part layout ih =>
    cases tuple with
    | nil => simp [encodeFrom]
    | cons cell tuple =>
      rw [encodeFrom, put_eq h.1]
      simp [ih h.2]

lemma encode_eq (h : Fits layout tuple) : encode layout tuple = (List.zipWith LayoutPart.code layout tuple).flatten := by
  rw [encode, encodeFrom_eq h]
  rfl

lemma encode_cons {cell : Option Value} (h : Fits (part :: layout) (cell :: tuple)) :
    encode (part :: layout) (cell :: tuple) = part.code cell ++ encode layout tuple := by
  rw [encode_eq h, encode_eq h.2]
  rfl

lemma agrees_encode (h : Fits layout tuple) (h' : Fits layout tuple') (hlen : tuple.length = tuple'.length) :
    Agrees (compareTuples layout tuple tuple') (encode layout tuple) (encode layout tuple') := by
  induction layout generalizing tuple tuple' with
  | nil => rfl
  | cons part layout ih =>
    cases tuple with
    | nil =>
      rw [length_eq_zero_iff.1 hlen.symm]
      rfl
    | cons cell tuple =>
      cases tuple' with
      | nil => cases hlen
      | cons cell' tuple' =>
        rw [encode_cons h, encode_cons h']
        exact (agrees_code h.1 h'.1).then_append (ih h.2 h'.2 (Nat.succ.inj hlen))

lemma encode_isPrefix_iff (h : Fits layout tuple) (h' : Fits layout tuple') :
    encode layout tuple <+: encode layout tuple' ↔
      tuple.length ≤ tuple'.length ∧ compareTuples layout tuple tuple' = .eq := by
  induction layout generalizing tuple tuple' with
  | nil =>
    cases tuple with
    | nil => simp [encode, encodeFrom, compareTuples]
    | cons cell tuple => exact h.elim
  | cons part layout ih =>
    cases tuple with
    | nil => simp [encode, encodeFrom, compareTuples]
    | cons cell tuple =>
      cases tuple' with
      | nil =>
        have hne := code_ne_nil h.1
        simp [encode_cons h, show encode (part :: layout) [] = [] from rfl, hne]
      | cons cell' tuple' =>
        have hcode := agrees_code h.1 h'.1
        rw [encode_cons h, encode_cons h', compareTuples, length_cons, length_cons, Nat.add_le_add_iff_right]
        constructor
        · intro hp
          have heq := (hcode.isPrefix_iff _).1 ((prefix_append _ _).trans hp)
          rw [hcode.eq_iff.2 heq, prefix_append_right_inj] at hp
          rw [heq]
          exact (ih h.2 h'.2).1 hp
        · rintro ⟨hlen, hthen⟩
          obtain ⟨heq, hrest⟩ := Ordering.then_eq_eq.1 hthen
          rw [hcode.eq_iff.2 heq, prefix_append_right_inj]
          exact (ih h.2 h'.2).2 ⟨hlen, hrest⟩

end Tuples

end Bytecask.Sql
