import Mathlib

/-! Floating-point numbers as bit patterns: a sign, an exponent and a fraction, with the order of their values, and the
transform under which the order of the values is the order of the patterns. -/

namespace Bytecask.Sql

structure FloatFormat where
  exponentBits : ℕ
  fractionBits : ℕ
  exponent_pos : 0 < exponentBits
  fraction_pos : 0 < fractionBits

def f64 : FloatFormat := ⟨11, 52, by decide, by decide⟩
def f32 : FloatFormat := ⟨8, 23, by decide, by decide⟩

namespace FloatFormat

variable (F : FloatFormat)

def low : ℕ := F.exponentBits + F.fractionBits

def signBit : ℕ := 2 ^ F.low

/-- A pattern without its sign, in units of the least positive value; an infinity lies beyond every finite value. -/
def magnitude (x : ℕ) : ℕ :=
  if x / 2 ^ F.fractionBits = 0 then x % 2 ^ F.fractionBits
  else (2 ^ F.fractionBits + x % 2 ^ F.fractionBits) * 2 ^ (x / 2 ^ F.fractionBits - 1)

def infinity : ℕ := (2 ^ F.exponentBits - 1) * 2 ^ F.fractionBits

def isNaN (bits : ℕ) : Bool := F.infinity < bits % F.signBit

def value (bits : ℕ) : ℤ :=
  if F.signBit ≤ bits then -(F.magnitude (bits % F.signBit) : ℤ) else F.magnitude (bits % F.signBit)

def compare (a b : ℕ) : Ordering :=
  match F.isNaN a, F.isNaN b with
  | true, true => .eq
  | true, false => .gt
  | false, true => .lt
  | false, false => cmp (F.value a) (F.value b)

def canonicalNaN : ℕ := F.infinity + 2 ^ (F.fractionBits - 1)

def canonical (bits : ℕ) : ℕ :=
  if F.isNaN bits then F.canonicalNaN else if F.value bits = 0 then 0 else bits

def toOrdered (bits : ℕ) : ℕ :=
  if F.isNaN bits then F.canonicalNaN ||| F.signBit
  else
    let bits := if F.value bits = 0 then 0 else bits
    if bits &&& F.signBit ≠ 0 then 2 * F.signBit - 1 - bits else bits ||| F.signBit

def ofOrdered (u : ℕ) : ℕ :=
  if u &&& F.signBit ≠ 0 then u &&& (F.signBit - 1) else 2 * F.signBit - 1 - u

example : f64.signBit = 1 <<< 63 ∧ f64.canonicalNaN = 0x7FF8000000000000 := by decide

example : f32.signBit = 1 <<< 31 ∧ f32.canonicalNaN = 0x7FC00000 := by decide

variable {F} {a b bits : ℕ}

lemma magnitude_parts {q r : ℕ} (hr : r < 2 ^ F.fractionBits) :
    F.magnitude (2 ^ F.fractionBits * q + r) = if q = 0 then r else (2 ^ F.fractionBits + r) * 2 ^ (q - 1) := by
  have hdiv : (2 ^ F.fractionBits * q + r) / 2 ^ F.fractionBits = q := by
    rw [Nat.mul_add_div (Nat.two_pow_pos _), Nat.div_eq_of_lt hr, Nat.add_zero]
  rw [magnitude, hdiv, Nat.mul_add_mod, Nat.mod_eq_of_lt hr]

lemma magnitude_lt_succ (x : ℕ) : F.magnitude x < F.magnitude (x + 1) := by
  have hpos : 0 < 2 ^ F.fractionBits := Nat.two_pow_pos _
  have hr := Nat.mod_lt x hpos
  have hx := (Nat.div_add_mod x (2 ^ F.fractionBits)).symm
  generalize x / 2 ^ F.fractionBits = q at hx
  generalize x % 2 ^ F.fractionBits = r at hx hr
  subst hx
  rw [magnitude_parts hr]
  rcases (Nat.succ_le_of_lt hr).eq_or_lt with heq | hlt
  · -- the fraction runs over into the exponent
    have hnext : 2 ^ F.fractionBits * q + r + 1 = 2 ^ F.fractionBits * (q + 1) + 0 := by
      rw [Nat.mul_succ]
      omega
    rw [hnext, magnitude_parts hpos, if_neg (Nat.succ_ne_zero q), Nat.add_sub_cancel, Nat.add_zero]
    cases q with
    | zero =>
      rw [if_pos rfl, Nat.pow_zero, Nat.mul_one]
      exact hr
    | succ q =>
      rw [if_neg (Nat.succ_ne_zero q), Nat.add_sub_cancel, Nat.pow_succ, Nat.mul_comm _ 2, ← Nat.mul_assoc]
      exact Nat.mul_lt_mul_of_pos_right (by omega) (Nat.two_pow_pos q)
  · rw [Nat.add_assoc, magnitude_parts hlt]
    cases q with
    | zero => exact Nat.lt_succ_self r
    | succ q =>
      exact Nat.mul_lt_mul_of_pos_right (by omega) (Nat.two_pow_pos _)

lemma magnitude_strictMono : StrictMono F.magnitude := strictMono_nat_of_lt_succ magnitude_lt_succ

lemma magnitude_zero : F.magnitude 0 = 0 := by simp [magnitude]

lemma magnitude_pos {x : ℕ} (h : 0 < x) : 0 < F.magnitude x := magnitude_zero (F := F) ▸ magnitude_strictMono h

lemma signBit_pos : 0 < F.signBit := Nat.two_pow_pos _

lemma canonicalNaN_lt : F.canonicalNaN < F.signBit := by
  have he : 0 < 2 ^ F.exponentBits := Nat.two_pow_pos _
  have hf : 2 ^ (F.fractionBits - 1) < 2 ^ F.fractionBits :=
    Nat.pow_lt_pow_right (by decide) (Nat.sub_lt F.fraction_pos (by decide))
  calc (2 ^ F.exponentBits - 1) * 2 ^ F.fractionBits + 2 ^ (F.fractionBits - 1)
      < (2 ^ F.exponentBits - 1) * 2 ^ F.fractionBits + 2 ^ F.fractionBits := Nat.add_lt_add_left hf _
    _ = 2 ^ F.exponentBits * 2 ^ F.fractionBits := by rw [← Nat.succ_mul, Nat.succ_eq_add_one, Nat.sub_add_cancel he]
    _ = F.signBit := (Nat.pow_add _ _ _).symm

lemma infinity_lt_canonicalNaN : F.infinity < F.canonicalNaN := Nat.lt_add_of_pos_right (Nat.two_pow_pos _)

lemma and_signBit (h : bits < 2 * F.signBit) : bits &&& F.signBit ≠ 0 ↔ F.signBit ≤ bits := by
  have hpow : 2 * F.signBit = 2 ^ (F.low + 1) := (Nat.pow_succ').symm
  rw [signBit, Nat.and_two_pow]
  constructor
  · intro hne
    by_contra hlt
    rw [Nat.testBit_lt_two_pow (not_le.1 hlt)] at hne
    simp at hne
  · intro hle
    rw [Nat.testBit_of_two_pow_le_and_two_pow_add_one_gt hle (hpow ▸ h)]
    simp

lemma or_signBit (h : bits < F.signBit) : bits ||| F.signBit = F.signBit + bits := by
  have hor := Nat.two_pow_add_eq_or_of_lt h 1
  rw [Nat.mul_one] at hor
  rw [Nat.or_comm]
  exact hor.symm

def index (F : FloatFormat) (bits : ℕ) : ℤ := if F.signBit ≤ bits then -((bits % F.signBit : ℕ) : ℤ) else (bits % F.signBit : ℕ)

lemma value_eq (bits : ℕ) :
    F.value bits = if F.index bits < 0 then -(F.magnitude (F.index bits).natAbs : ℤ) else F.magnitude (F.index bits).natAbs := by
  rw [value, index]
  by_cases hneg : F.signBit ≤ bits
  · rw [if_pos hneg, if_pos hneg, Int.natAbs_neg, Int.natAbs_natCast]
    rcases Nat.eq_zero_or_pos (bits % F.signBit) with hz | hpos
    · simp [hz, magnitude_zero]
    · rw [if_pos (by omega)]
  · rw [if_neg hneg, if_neg hneg, Int.natAbs_natCast, if_neg (by omega)]

lemma signed_strictMono :
    StrictMono fun k : ℤ => if k < 0 then -(F.magnitude k.natAbs : ℤ) else F.magnitude k.natAbs := by
  intro k l hkl
  have hmono := @magnitude_strictMono F
  dsimp only
  by_cases hk : k < 0
  · rw [if_pos hk]
    have hpos := @magnitude_pos F k.natAbs (by omega)
    by_cases hl : l < 0
    · rw [if_pos hl]
      have := hmono (show l.natAbs < k.natAbs by omega)
      omega
    · rw [if_neg hl]
      omega
  · rw [if_neg hk, if_neg (by omega)]
    have := hmono (show k.natAbs < l.natAbs by omega)
    omega

lemma value_eq_zero : F.value bits = 0 ↔ F.index bits = 0 := by
  have hzero := (signed_strictMono (F := F)).injective.eq_iff (a := F.index bits) (b := 0)
  rw [value_eq]
  simpa [magnitude_zero] using hzero

lemma toOrdered_eq (h : bits < 2 * F.signBit) (hn : F.isNaN bits = false) :
    (F.toOrdered bits : ℤ) = if F.index bits < 0 then F.signBit - 1 + F.index bits else F.signBit + F.index bits := by
  have hpos := @signBit_pos F
  rw [toOrdered, if_neg (by rw [hn]; decide)]
  dsimp only
  by_cases hz : F.value bits = 0
  · rw [if_pos hz, Nat.zero_and, if_neg (by simp), Nat.zero_or, value_eq_zero.1 hz]
    simp
  · rw [if_neg hz]
    have hne := mt value_eq_zero.2 hz
    rw [index] at hne ⊢
    by_cases hneg : F.signBit ≤ bits
    · have hbits : bits % F.signBit = bits - F.signBit := by
        rw [Nat.mod_eq_sub_mod hneg, Nat.mod_eq_of_lt (by omega)]
      rw [if_pos ((and_signBit h).2 hneg), if_pos (by omega), hbits]
      omega
    · have hbits : bits % F.signBit = bits := Nat.mod_eq_of_lt (not_le.1 hneg)
      rw [if_neg hneg, if_neg (mt (and_signBit h).1 hneg), or_signBit (not_le.1 hneg), if_neg (by omega), hbits]
      omega

lemma toOrdered_nan (hn : F.isNaN bits = true) : F.toOrdered bits = F.signBit + F.canonicalNaN := by
  rw [toOrdered, if_pos hn, or_signBit canonicalNaN_lt]

lemma index_bounds (bits : ℕ) : -(F.signBit : ℤ) < F.index bits ∧ F.index bits < F.signBit := by
  have hmod := Nat.mod_lt bits (@signBit_pos F)
  rw [index]
  split_ifs <;> omega

lemma index_le_infinity (hn : F.isNaN bits = false) : F.index bits ≤ F.infinity := by
  have hle : bits % F.signBit ≤ F.infinity := not_lt.1 (of_decide_eq_false hn)
  rw [index]
  split_ifs <;> omega

lemma toOrdered_lt (h : bits < 2 * F.signBit) : F.toOrdered bits < 2 * F.signBit := by
  cases hn : F.isNaN bits with
  | true =>
    have := @canonicalNaN_lt F
    rw [toOrdered_nan hn]
    omega
  | false =>
    have heq := toOrdered_eq h hn
    have hb := F.index_bounds bits
    split_ifs at heq <;> omega

lemma toOrdered_lt_nan (h : a < 2 * F.signBit) (hn : F.isNaN a = false) : F.toOrdered a < F.signBit + F.canonicalNaN := by
  have heq := toOrdered_eq h hn
  have hle := index_le_infinity hn
  have hlt := @infinity_lt_canonicalNaN F
  split_ifs at heq <;> omega

lemma cmp_toOrdered (ha : a < 2 * F.signBit) (hb : b < 2 * F.signBit) :
    cmp (F.toOrdered a) (F.toOrdered b) = F.compare a b := by
  rw [compare]
  cases hna : F.isNaN a with
  | true =>
    cases hnb : F.isNaN b with
    | true => rw [toOrdered_nan hna, toOrdered_nan hnb, cmp_self_eq_eq]
    | false => exact (cmp_eq_gt_iff _ _).2 (toOrdered_nan hna ▸ toOrdered_lt_nan hb hnb)
  | false =>
    cases hnb : F.isNaN b with
    | true => exact (cmp_eq_lt_iff _ _).2 (toOrdered_nan hnb ▸ toOrdered_lt_nan ha hna)
    | false =>
      have hshift : StrictMono fun k : ℤ => if k < 0 then (F.signBit : ℤ) - 1 + k else F.signBit + k := by
        intro k l hkl
        dsimp only
        split_ifs <;> omega
      calc cmp (F.toOrdered a) (F.toOrdered b) = cmp (F.toOrdered a : ℤ) (F.toOrdered b : ℤ) :=
            (Nat.strictMono_cast.cmp_map_eq _ _).symm
        _ = cmp (F.index a) (F.index b) := by rw [toOrdered_eq ha hna, toOrdered_eq hb hnb, hshift.cmp_map_eq]
        _ = cmp (F.value a) (F.value b) := by rw [value_eq, value_eq, signed_strictMono.cmp_map_eq]

lemma ofOrdered_eq {u : ℕ} (h : u < 2 * F.signBit) :
    F.ofOrdered u = if F.signBit ≤ u then u - F.signBit else 2 * F.signBit - 1 - u := by
  have hmask : u &&& (F.signBit - 1) = u % F.signBit := Nat.and_two_pow_sub_one_eq_mod u F.low
  rw [ofOrdered, hmask]
  by_cases hge : F.signBit ≤ u
  · rw [if_pos ((and_signBit h).2 hge), if_pos hge, Nat.mod_eq_sub_mod hge, Nat.mod_eq_of_lt (by omega)]
  · rw [if_neg (mt (and_signBit h).1 hge), if_neg hge]

lemma ofOrdered_toOrdered (h : bits < 2 * F.signBit) : F.ofOrdered (F.toOrdered bits) = F.canonical bits := by
  rw [ofOrdered_eq (toOrdered_lt h), canonical]
  cases hn : F.isNaN bits with
  | true =>
    rw [toOrdered_nan hn, if_pos (Nat.le_add_right _ _), if_pos rfl, Nat.add_sub_cancel_left]
  | false =>
    have heq := toOrdered_eq h hn
    rw [if_neg Bool.false_ne_true]
    by_cases hz : F.value bits = 0
    · rw [value_eq_zero.1 hz, if_neg (lt_irrefl 0), Int.add_zero] at heq
      have hu : F.toOrdered bits = F.signBit := Int.ofNat.inj heq
      rw [if_pos hz, hu, if_pos le_rfl, Nat.sub_self]
    · have hne := mt value_eq_zero.2 hz
      rw [if_neg hz]
      rw [index] at heq hne
      by_cases hneg : F.signBit ≤ bits
      · have hbits : bits % F.signBit = bits - F.signBit := by
          rw [Nat.mod_eq_sub_mod hneg, Nat.mod_eq_of_lt (by omega)]
        rw [if_pos hneg, hbits] at heq hne
        rw [if_neg (show ¬ F.signBit ≤ F.toOrdered bits by omega)]
        omega
      · have hbits : bits % F.signBit = bits := Nat.mod_eq_of_lt (not_le.1 hneg)
        rw [if_pos (show F.signBit ≤ F.toOrdered bits by omega)]
        omega

end FloatFormat

end Bytecask.Sql
