import Bytecask.Entry

/-! Comparing the keys of a tree node: whole keys, shared beginnings, and the first four bytes as a number. -/

namespace Bytecask.Tree

open List

def memcmp : Bytes → Bytes → Ordering
  | a :: as, b :: bs => if a = b then memcmp as bs else if a < b then .lt else .gt
  | _, _ => .eq

def compareBytes (a b : Bytes) : Ordering :=
  let n := min a.length b.length
  match memcmp (a.take n) (b.take n) with
  | .eq => if a.length = b.length then .eq else if a.length < b.length then .lt else .gt
  | c => c

def countrZero : ℕ → ℕ → ℕ
  | 0, _ => 0
  | width + 1, n => if n % 2 = 1 then 0 else countrZero width (n / 2) + 1

def commonBytes : Bytes → Bytes → ℕ
  | a :: as, b :: bs => if a = b then commonBytes as bs + 1 else 0
  | _, _ => 0

def commonWords : ℕ → Bytes → Bytes → ℕ
  | 0, a, b => commonBytes a b
  | words + 1, a, b =>
    let x := readLittleEndian (a.take 8)
    let y := readLittleEndian (b.take 8)
    if x ≠ y then countrZero 64 (x ^^^ y) / 8
    else commonWords words (a.drop 8) (b.drop 8) + 8

def commonPrefixLength (a b : Bytes) : ℕ := commonWords (min a.length b.length / 8) a b

def headOf (suffix : Bytes) : ℕ :=
  if 4 ≤ suffix.length then readLittleEndian (suffix.take 4).reverse
  else (suffix.zipIdx.foldl (fun h b => h ||| b.1.val <<< (24 - 8 * b.2)) 0)

section Compare

variable {a b : Bytes}

lemma compareBytes_cons (x y : Byte) (a b : Bytes) :
    compareBytes (x :: a) (y :: b) = if x = y then compareBytes a b else if x < y then .lt else .gt := by
  simp only [compareBytes, length_cons, Nat.add_min_add_right, take_succ_cons, memcmp]
  by_cases hxy : x = y
  · simp only [if_pos hxy, Nat.add_right_cancel_iff, Nat.add_lt_add_iff_right]
  · by_cases hlt : x < y
    · simp only [if_neg hxy, if_pos hlt]
    · simp only [if_neg hxy, if_neg hlt]

lemma compareBytes_spec (a b : Bytes) : (compareBytes a b = .lt ↔ a < b) ∧ (compareBytes a b = .eq ↔ a = b) := by
  induction a generalizing b with
  | nil => cases b <;> simp [compareBytes, memcmp]
  | cons x a ih =>
    cases b with
    | nil => simp [compareBytes, memcmp]
    | cons y b =>
      rw [compareBytes_cons, cons_lt_cons_iff]
      rcases lt_trichotomy x y with hlt | rfl | hgt
      · simp [hlt, hlt.ne]
      · simp [ih]
      · simp [hgt.ne', hgt.not_gt]

lemma compareBytes_lt : compareBytes a b = .lt ↔ a < b := (compareBytes_spec a b).1

lemma compareBytes_eq : compareBytes a b = .eq ↔ a = b := (compareBytes_spec a b).2

lemma compareBytes_gt : compareBytes a b = .gt ↔ b < a := by
  rcases lt_trichotomy a b with hlt | rfl | hgt
  · simp [compareBytes_lt.2 hlt, hlt.not_gt]
  · simp [compareBytes_eq.2]
  · have hne : compareBytes a b ≠ .lt := fun h => hgt.not_gt (compareBytes_lt.1 h)
    have hne' : compareBytes a b ≠ .eq := fun h => hgt.ne' (compareBytes_eq.1 h)
    cases h : compareBytes a b <;> simp_all

end Compare

section Common

variable {width n : ℕ} {a b : Bytes}

lemma countrZero_lt (h : n % 2 ^ width ≠ 0) : countrZero width n < width := by
  induction width generalizing n with
  | zero => simp [Nat.mod_one] at h
  | succ width ih =>
    rw [countrZero]
    by_cases hodd : n % 2 = 1
    · rw [if_pos hodd]
      omega
    · rw [if_neg hodd]
      have hhalf : n / 2 % 2 ^ width ≠ 0 := by
        intro hz
        apply h
        rw [Nat.pow_succ', Nat.mod_mul, hz]
        omega
      have := ih hhalf
      omega

lemma countrZero_mono {more : ℕ} (h : n % 2 ^ width ≠ 0) : countrZero (width + more) n = countrZero width n := by
  induction width generalizing n with
  | zero => simp [Nat.mod_one] at h
  | succ width ih =>
    rw [Nat.add_right_comm, countrZero, countrZero]
    by_cases hodd : n % 2 = 1
    · rw [if_pos hodd, if_pos hodd]
    · rw [if_neg hodd, if_neg hodd, ih]
      intro hz
      apply h
      rw [Nat.pow_succ', Nat.mod_mul, hz]
      omega

lemma countrZero_shift (k width n : ℕ) : countrZero (width + k) (2 ^ k * n) = countrZero width n + k := by
  induction k with
  | zero => simp
  | succ k ih =>
    have heven : ¬ 2 ^ (k + 1) * n % 2 = 1 := by
      rw [Nat.pow_succ', Nat.mul_assoc]
      omega
    have hhalf : 2 ^ (k + 1) * n / 2 = 2 ^ k * n := by
      rw [Nat.pow_succ', Nat.mul_assoc]
      omega
    rw [← Nat.add_assoc, countrZero, if_neg heven, hhalf, ih]
    omega

lemma xor_add_mul {x y : ℕ} (hx : x < 2 ^ 8) (hy : y < 2 ^ 8) (m n : ℕ) :
    (x + 256 * m) ^^^ (y + 256 * n) = (x ^^^ y) + 256 * (m ^^^ n) := by
  apply Nat.eq_of_testBit_eq
  intro i
  rw [Nat.testBit_xor, Nat.add_comm, Nat.add_comm y, Nat.add_comm (x ^^^ y), show (256 : ℕ) = 2 ^ 8 from rfl,
    Nat.testBit_two_pow_mul_add _ hx, Nat.testBit_two_pow_mul_add _ hy,
    Nat.testBit_two_pow_mul_add _ (Nat.xor_lt_two_pow hx hy)]
  by_cases hi : i < 8
  · rw [if_pos hi, if_pos hi, if_pos hi, Nat.testBit_xor]
  · rw [if_neg hi, if_neg hi, if_neg hi, Nat.testBit_xor]

lemma countrZero_xor (hlen : a.length = b.length) (hne : readLittleEndian a ≠ readLittleEndian b) :
    countrZero (8 * a.length) (readLittleEndian a ^^^ readLittleEndian b) / 8 = commonBytes a b := by
  induction a generalizing b with
  | nil =>
    obtain rfl : b = [] := length_eq_zero_iff.1 hlen.symm
    exact absurd rfl hne
  | cons x a ih =>
    cases b with
    | nil => cases hlen
    | cons y b =>
      have hlen' : a.length = b.length := Nat.succ.inj hlen
      simp only [readLittleEndian] at hne ⊢
      rw [xor_add_mul x.isLt y.isLt, length_cons, Nat.mul_succ, commonBytes]
      by_cases hxy : x = y
      · subst hxy
        have hne' : readLittleEndian a ≠ readLittleEndian b := fun h => hne (by rw [h])
        rw [if_pos rfl, Nat.xor_self, Nat.zero_add, show (256 : ℕ) = 2 ^ 8 from rfl, countrZero_shift,
          Nat.add_div_right _ (by decide), ih hlen' hne']
      · have hbyte : (x.val ^^^ y.val) < 2 ^ 8 := Nat.xor_lt_two_pow x.isLt y.isLt
        have hdiff : x.val ^^^ y.val ≠ 0 := fun h => hxy (Fin.ext (Nat.xor_eq_zero_iff.1 h))
        have hlow : ((x.val ^^^ y.val) + 256 * (readLittleEndian a ^^^ readLittleEndian b)) % 2 ^ 8 ≠ 0 := by
          rw [show (2 : ℕ) ^ 8 = 256 from rfl, Nat.add_mul_mod_self_left]
          exact (Nat.mod_eq_of_lt hbyte).trans_ne hdiff
        rw [if_neg hxy, Nat.add_comm, countrZero_mono hlow]
        exact Nat.div_eq_of_lt (countrZero_lt hlow)

lemma commonBytes_append (h : a.length = b.length) (c d : Bytes) :
    commonBytes (a ++ c) (b ++ d) = if a = b then a.length + commonBytes c d else commonBytes a b := by
  induction a generalizing b with
  | nil =>
    obtain rfl : b = [] := length_eq_zero_iff.1 h.symm
    simp
  | cons x a ih =>
    cases b with
    | nil => cases h
    | cons y b =>
      rw [cons_append, cons_append, commonBytes, ih (Nat.succ.inj h), commonBytes]
      by_cases hxy : x = y
      · by_cases hab : a = b
        · simp [hxy, hab]
          omega
        · simp [hxy, hab]
      · simp [hxy]

lemma readLittleEndian_inj (hlen : a.length = b.length) (h : readLittleEndian a = readLittleEndian b) : a = b := by
  rw [← littleEndian_readLittleEndian a, ← littleEndian_readLittleEndian b, hlen, h]

lemma commonWords_eq {words : ℕ} (ha : 8 * words ≤ a.length) (hb : 8 * words ≤ b.length) :
    commonWords words a b = commonBytes a b := by
  induction words generalizing a b with
  | zero => rfl
  | succ words ih =>
    have hta : (a.take 8).length = 8 := length_take_of_le (by omega)
    have htb : (b.take 8).length = 8 := length_take_of_le (by omega)
    have hsplit := commonBytes_append (hta.trans htb.symm) (a.drop 8) (b.drop 8)
    rw [take_append_drop, take_append_drop, hta] at hsplit
    rw [hsplit]
    by_cases hxy : readLittleEndian (a.take 8) = readLittleEndian (b.take 8)
    · have hsame := readLittleEndian_inj (hta.trans htb.symm) hxy
      rw [commonWords, if_neg (not_not.2 hxy), if_pos hsame, ih (by simp; omega) (by simp; omega), Nat.add_comm]
    · have hdiff : a.take 8 ≠ b.take 8 := fun h => hxy (by rw [h])
      have hzero := countrZero_xor (hta.trans htb.symm) hxy
      rw [hta] at hzero
      rw [commonWords, if_pos hxy, if_neg hdiff, ← hzero]

lemma commonPrefixLength_eq (a b : Bytes) : commonPrefixLength a b = commonBytes a b := by
  apply commonWords_eq <;> omega

end Common

section Head

variable {a b : Bytes}

def leading : ℕ → Bytes → ℕ
  | 0, _ => 0
  | _ + 1, [] => 0
  | width + 1, b :: bs => b.val * 256 ^ width + leading width bs

lemma leading_lt (width : ℕ) (bs : Bytes) : leading width bs < 256 ^ width := by
  induction width generalizing bs with
  | zero => simp [leading]
  | succ width ih =>
    cases bs with
    | nil => simp [leading]
    | cons b bs =>
      have hb : b.val + 1 ≤ 256 := b.isLt
      calc b.val * 256 ^ width + leading width bs
          < b.val * 256 ^ width + 256 ^ width := Nat.add_lt_add_left (ih bs) _
        _ = (b.val + 1) * 256 ^ width := by ring
        _ ≤ 256 * 256 ^ width := Nat.mul_le_mul_right _ hb
        _ = 256 ^ (width + 1) := (Nat.pow_succ').symm

lemma leading_le (width : ℕ) (h : a ≤ b) : leading width a ≤ leading width b := by
  induction width generalizing a b with
  | zero => simp [leading]
  | succ width ih =>
    cases a with
    | nil => simp [leading]
    | cons x a =>
      cases b with
      | nil => exact absurd h (not_le.2 (nil_lt_cons x a))
      | cons y b =>
        simp only [leading]
        rcases lt_trichotomy x y with hlt | rfl | hgt
        · have hxy : (x.val + 1) * 256 ^ width ≤ y.val * 256 ^ width := Nat.mul_le_mul_right _ hlt
          have := leading_lt width a
          rw [Nat.add_mul] at hxy
          omega
        · have hab : a ≤ b := by
            rw [← not_lt] at h ⊢
            exact fun hba => h (cons_lt_cons_iff.2 (.inr ⟨rfl, hba⟩))
          exact Nat.add_le_add_left (ih hab) _
        · exact absurd h (not_le.2 (cons_lt_cons_iff.2 (.inl hgt)))

lemma or_shiftLeft (m i : ℕ) (b : Byte) : m * 2 ^ (i + 8) ||| b.val <<< i = (m * 256 + b.val) * 2 ^ i := by
  have hlow : b.val * 2 ^ i < 2 ^ (i + 8) := by
    rw [Nat.pow_add, Nat.mul_comm]
    exact Nat.mul_lt_mul_of_pos_left b.isLt (Nat.two_pow_pos i)
  rw [Nat.shiftLeft_eq, Nat.mul_comm, ← Nat.two_pow_add_eq_or_of_lt hlow, Nat.pow_add]
  ring

lemma foldl_bytes {width : ℕ} (hw : width ≤ 4) (bs : Bytes) (hlen : bs.length ≤ width) (m : ℕ) :
    (bs.zipIdx (4 - width)).foldl (fun h b => h ||| b.1.val <<< (24 - 8 * b.2)) (m * 2 ^ (8 * width)) =
      m * 2 ^ (8 * width) + leading width bs := by
  induction bs generalizing width m with
  | nil => cases width <;> rfl
  | cons b bs ih =>
    obtain ⟨w, rfl⟩ : ∃ w, width = w + 1 := ⟨width - 1, by simp at hlen; omega⟩
    have hshift : 24 - 8 * (4 - (w + 1)) = 8 * w := by omega
    have hidx : 4 - (w + 1) + 1 = 4 - w := by omega
    have h256 : (256 : ℕ) ^ w = 2 ^ (8 * w) := by rw [Nat.pow_mul]
    have hor := or_shiftLeft m (8 * w) b
    rw [zipIdx_cons, foldl_cons, hshift, Nat.mul_succ, hor, hidx,
      ih (by omega) (by simpa using hlen) _, leading, h256, Nat.pow_add]
    ring

lemma headOf_eq (s : Bytes) : headOf s = leading 4 s := by
  rw [headOf]
  by_cases h : 4 ≤ s.length
  · rw [if_pos h]
    match s, h with
    | a :: b :: c :: d :: s, _ =>
      simp [leading, readLittleEndian]
      omega
  · rw [if_neg h]
    simpa using foldl_bytes le_rfl s (by omega) 0

lemma headOf_le (h : a ≤ b) : headOf a ≤ headOf b := by
  rw [headOf_eq, headOf_eq]
  exact leading_le 4 h

end Head

end Bytecask.Tree
