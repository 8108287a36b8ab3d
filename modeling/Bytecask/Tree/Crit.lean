import Bytecask.Lib.Critbit
import Bytecask.Tree.Bytes

/-! Keys as bit strings: every byte is preceded by a 1 and the end of the key is a 0, so that a key and its
beginning differ. A position is the byte's index times 16, plus 0 for its leading 1 and 1 to 8 for its bits. -/

namespace Bytecask.Tree

open Critbit

def posShift : ℕ := 4
def noCrit : ℕ := 2 ^ 32 - 1

def bit (k : Bytes) (p : ℕ) : ℕ :=
  let i := p >>> posShift
  let r := p &&& 15
  if k.length ≤ i then 0
  else if r = 0 then 1
  else (k.getD i 0).val >>> (8 - r) &&& 1

def countlZero : ℕ → ℕ → ℕ
  | 0, _ => 0
  | width + 1, n => if n.testBit width then 0 else countlZero width n + 1

def crit (a b : Bytes) : ℕ :=
  let cpl := commonPrefixLength a b
  if cpl = a.length ∧ cpl = b.length then noCrit
  else
    let base := cpl <<< posShift % 2 ^ 32
    if cpl = a.length ∨ cpl = b.length then base
    else base + 1 + countlZero 8 ((a.getD cpl 0).val ^^^ (b.getD cpl 0).val)

def isSet (k : Bytes) (p : ℕ) : Bool := bit k p ≠ 0

section Bits

lemma isSet_ended {k : Bytes} {p : ℕ} (h : k.length ≤ p / 16) : isSet k p = false := by
  simp [isSet, bit, posShift, Nat.shiftRight_eq_div_pow, h]

lemma and_fifteen (p : ℕ) : p &&& 15 = p % 16 := Nat.and_two_pow_sub_one_eq_mod p 4

lemma isSet_going {k : Bytes} {p : ℕ} (h : p / 16 < k.length) :
    isSet k p = if p % 16 = 0 then true else (k.getD (p / 16) 0).val.testBit (8 - p % 16) := by
  have hdiv : p >>> posShift = p / 16 := Nat.shiftRight_eq_div_pow p 4
  rw [isSet, bit, hdiv, and_fifteen, if_neg (not_le.2 h)]
  by_cases hr : p % 16 = 0
  · rw [if_pos hr, if_pos hr]
    rfl
  · rw [if_neg hr, if_neg hr, Nat.testBit, Nat.and_comm 1]
    cases (k.getD _ 0).val >>> _ &&& 1 <;> rfl

lemma countlZero_spec {width x : ℕ} (hx : x < 2 ^ width) (hne : x ≠ 0) :
    countlZero width x < width ∧ x.testBit (width - 1 - countlZero width x) = true ∧
      ∀ i < countlZero width x, x.testBit (width - 1 - i) = false := by
  induction width with
  | zero => exact absurd (Nat.lt_one_iff.1 hx) hne
  | succ width ih =>
    rw [countlZero]
    by_cases hbit : x.testBit width = true
    · rw [if_pos hbit]
      exact ⟨Nat.succ_pos _, hbit, fun i hi => absurd hi (Nat.not_lt_zero i)⟩
    · rw [if_neg hbit]
      have hlt : x < 2 ^ width := by
        by_contra hge
        exact hbit (Nat.testBit_of_two_pow_le_and_two_pow_add_one_gt (not_lt.1 hge) hx)
      obtain ⟨hz, hset, hclear⟩ := ih hlt
      refine ⟨by omega, ?_, fun i hi => ?_⟩
      · rw [show width + 1 - 1 - (countlZero width x + 1) = width - 1 - countlZero width x by omega]
        exact hset
      · cases i with
        | zero => simpa using hbit
        | succ i =>
          rw [show width + 1 - 1 - (i + 1) = width - 1 - i by omega]
          exact hclear i (by omega)

lemma byte_split {u v : Byte} (h : u < v) :
    countlZero 8 (u.val ^^^ v.val) < 8 ∧ (∀ i < countlZero 8 (u.val ^^^ v.val), u.val.testBit (7 - i) = v.val.testBit (7 - i)) ∧
      u.val.testBit (7 - countlZero 8 (u.val ^^^ v.val)) = false ∧
      v.val.testBit (7 - countlZero 8 (u.val ^^^ v.val)) = true := by
  have hne : u.val ^^^ v.val ≠ 0 := fun hz => h.ne (Fin.ext (Nat.xor_eq_zero_iff.1 hz))
  obtain ⟨hz, hset, hclear⟩ := countlZero_spec (Nat.xor_lt_two_pow (n := 8) u.isLt v.isLt) hne
  generalize countlZero 8 (u.val ^^^ v.val) = z at hz hset hclear ⊢
  have hsame : ∀ i < z, u.val.testBit (7 - i) = v.val.testBit (7 - i) := by
    intro i hi
    have := hclear i hi
    simpa using this
  have habove : ∀ j, 7 - z < j → v.val.testBit j = u.val.testBit j := by
    intro j hj
    by_cases hj8 : j < 8
    · have := hsame (7 - j) (by omega)
      rw [show 7 - (7 - j) = j by omega] at this
      exact this.symm
    · have hpow : 2 ^ 8 ≤ 2 ^ j := Nat.pow_le_pow_right (by decide) (not_lt.1 hj8)
      rw [Nat.testBit_lt_two_pow (v.isLt.trans_le hpow), Nat.testBit_lt_two_pow (u.isLt.trans_le hpow)]
  refine ⟨hz, hsame, ?_⟩
  cases hu : u.val.testBit (7 - z) with
  | false => exact ⟨rfl, by simpa [hu] using hset⟩
  | true =>
    have hv : v.val.testBit (7 - z) = false := by simpa [hu] using hset
    exact absurd (Nat.lt_of_testBit _ hv hu habove) (not_lt.2 (le_of_lt h))

end Bits

section Crit

variable {a b : Bytes}

lemma commonBytes_comm (a b : Bytes) : commonBytes a b = commonBytes b a := by
  induction a generalizing b with
  | nil => cases b <;> rfl
  | cons x a ih =>
    cases b with
    | nil => rfl
    | cons y b =>
      rw [commonBytes, commonBytes, ih]
      by_cases hxy : x = y
      · rw [if_pos hxy, if_pos hxy.symm]
      · rw [if_neg hxy, if_neg (Ne.symm hxy)]

lemma crit_comm (a b : Bytes) : crit a b = crit b a := by
  simp only [crit, commonPrefixLength_eq, commonBytes_comm, Nat.xor_comm, and_comm, or_comm]

lemma commonBytes_le (a b : Bytes) : commonBytes a b ≤ a.length := by
  induction a generalizing b with
  | nil => simp [commonBytes]
  | cons x a ih =>
    cases b with
    | nil => simp [commonBytes]
    | cons y b =>
      have := ih b
      rw [commonBytes, List.length_cons]
      split_ifs <;> omega

lemma getD_of_lt_common {i : ℕ} (h : i < commonBytes a b) : a.getD i 0 = b.getD i 0 := by
  induction a generalizing b i with
  | nil => simp [commonBytes] at h
  | cons x a ih =>
    cases b with
    | nil => simp [commonBytes] at h
    | cons y b =>
      rw [commonBytes] at h
      by_cases hxy : x = y
      · rw [if_pos hxy] at h
        cases i with
        | zero => simpa using hxy
        | succ i => simpa using ih (by omega : i < commonBytes a b)
      · rw [if_neg hxy] at h
        omega

lemma common_of_lt (h : a < b) :
    commonBytes a b < b.length ∧
      (commonBytes a b < a.length → a.getD (commonBytes a b) 0 < b.getD (commonBytes a b) 0) := by
  induction a generalizing b with
  | nil =>
    cases b with
    | nil => exact absurd h (lt_irrefl _)
    | cons y b => simp [commonBytes]
  | cons x a ih =>
    cases b with
    | nil => exact absurd h (List.not_lt_nil _)
    | cons y b =>
      rw [commonBytes]
      rcases List.cons_lt_cons_iff.1 h with hxy | ⟨rfl, hab⟩
      · rw [if_neg hxy.ne]
        simpa using hxy
      · rw [if_pos rfl]
        simpa using ih hab

lemma base_eq (hc : commonBytes a b ≤ 65535) : commonBytes a b <<< posShift % 2 ^ 32 = 16 * commonBytes a b := by
  rw [Nat.shiftLeft_eq, posShift]
  omega

lemma splits_crit (h : a < b) (hlen : a.length ≤ 65535 ∨ b.length ≤ 65535) : Splits isSet a b (crit a b) := by
  obtain ⟨hb, hbyte⟩ := common_of_lt h
  have ha := commonBytes_le a b
  have hsame := @getD_of_lt_common a b
  rw [crit, commonPrefixLength_eq, if_neg (by omega), base_eq (by omega)]
  generalize commonBytes a b = c at *
  have hbefore : ∀ p, p / 16 < c → isSet a p = isSet b p := by
    intro p hp
    rw [isSet_going (hp.trans_le ha), isSet_going (hp.trans hb), hsame hp]
  by_cases hend : c = a.length
  · rw [if_pos (.inl hend)]
    refine ⟨fun p hp => hbefore p (by omega), isSet_ended (by omega), ?_⟩
    rw [isSet_going (by omega), if_pos (by omega)]
  · rw [if_neg (by omega)]
    have hac : c < a.length := by omega
    obtain ⟨hz, hhigh, hlow, hset⟩ := byte_split (hbyte hac)
    generalize countlZero 8 _ = z at *
    have hdiv : (16 * c + 1 + z) / 16 = c := by omega
    have hmod : (16 * c + 1 + z) % 16 = z + 1 := by omega
    have hbit : 8 - (z + 1) = 7 - z := by omega
    refine ⟨fun p hp => ?_, ?_, ?_⟩
    · by_cases hpc : p / 16 < c
      · exact hbefore p hpc
      · have hpc' : p / 16 = c := by omega
        rw [isSet_going (by omega), isSet_going (by omega), hpc']
        by_cases hr : p % 16 = 0
        · rw [if_pos hr, if_pos hr]
        · rw [if_neg hr, if_neg hr]
          have := hhigh (p % 16 - 1) (by omega)
          rw [show 7 - (p % 16 - 1) = 8 - p % 16 by omega] at this
          exact this
    · rw [isSet_going (by omega), hmod, if_neg (by omega), hdiv, hbit]
      exact hlow
    · rw [isSet_going (by omega), hmod, if_neg (by omega), hdiv, hbit]
      exact hset

lemma crit_self (a : Bytes) : crit a a = noCrit := by
  have hcpl : commonBytes a a = a.length := by
    induction a with
    | nil => rfl
    | cons x a ih => rw [commonBytes, if_pos rfl, ih, List.length_cons]
  rw [crit, commonPrefixLength_eq, hcpl, if_pos ⟨rfl, rfl⟩]

lemma crit_lt (h : a ≠ b) (hlen : a.length ≤ 65535 ∨ b.length ≤ 65535) : crit a b < 2 ^ 20 := by
  have key_step : ∀ {a b : Bytes}, a < b → a.length ≤ 65535 ∨ b.length ≤ 65535 → crit a b < 2 ^ 20 := by
    intro a b h hlen
    obtain ⟨hb, hbyte⟩ := common_of_lt h
    have ha := commonBytes_le a b
    rw [crit, commonPrefixLength_eq, if_neg (by omega), base_eq (by omega)]
    by_cases hend : commonBytes a b = a.length ∨ commonBytes a b = b.length
    · rw [if_pos hend]
      omega
    · rw [if_neg hend]
      have hz := (byte_split (hbyte (by omega))).1
      omega
  rcases lt_or_gt_of_ne h with hlt | hgt
  · exact key_step hlt hlen
  · rw [crit_comm]
    exact key_step hgt hlen.symm

lemma noCrit_iff (hlen : a.length ≤ 65535 ∨ b.length ≤ 65535) : crit a b = noCrit ↔ a = b := by
  refine ⟨fun h => ?_, fun h => h ▸ crit_self a⟩
  by_contra hne
  have hlt := crit_lt hne hlen
  rw [h] at hlt
  exact absurd hlt (by decide)

lemma lt_of_splits {p : ℕ} (h : Splits isSet a b p) (hlen : a.length ≤ 65535 ∨ b.length ≤ 65535) : a < b := by
  rcases lt_trichotomy a b with hlt | rfl | hgt
  · exact hlt
  · exact absurd (h.2.1.symm.trans h.2.2) (by decide)
  · have hback := h.trans (splits_crit hgt hlen.symm)
    exact absurd (hback.2.2.1.symm.trans hback.2.2.2) (by decide)

lemma crit_of_splits {p : ℕ} (h : Splits isSet a b p) (hlen : a.length ≤ 65535 ∨ b.length ≤ 65535) : crit a b = p :=
  (splits_crit (lt_of_splits h hlen) hlen).unique h

lemma crit_differs (h : a ≠ b) (hlen : a.length ≤ 65535 ∨ b.length ≤ 65535) :
    (∀ p < crit a b, isSet a p = isSet b p) ∧ isSet a (crit a b) ≠ isSet b (crit a b) := by
  rcases lt_or_gt_of_ne h with hlt | hgt
  · obtain ⟨hsame, ha, hb⟩ := splits_crit hlt hlen
    exact ⟨hsame, by rw [ha, hb]; decide⟩
  · obtain ⟨hsame, hb, ha⟩ := splits_crit hgt hlen.symm
    rw [crit_comm]
    exact ⟨fun p hp => (hsame p hp).symm, by rw [ha, hb]; decide⟩

end Crit

end Bytecask.Tree
