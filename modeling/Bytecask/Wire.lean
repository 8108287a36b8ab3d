import Bytecask.Entry
import Bytecask.Lib.PrefixCode

/-! Reading and writing the fixed-width fields of the file formats and keys. -/

namespace Bytecask

def narrow (width n : ℕ) : Option ℕ := if n < 256 ^ width then some n else none

def bigEndian (width n : ℕ) : Bytes := (littleEndian width n).reverse

def takeBytes (n : ℕ) (input : Bytes) : Option (Bytes × Bytes) :=
  if n ≤ input.length then some (input.take n, input.drop n) else none

def readWord (width : ℕ) (input : Bytes) : Option (ℕ × Bytes) :=
  (takeBytes width input).map (fun p => (readLittleEndian p.1, p.2))

lemma narrow_of_lt {width n : ℕ} (h : n < 256 ^ width) : narrow width n = some n := if_pos h

lemma takeBytes_append {n : ℕ} {xs : Bytes} (h : xs.length = n) (rest : Bytes) :
    takeBytes n (xs ++ rest) = some (xs, rest) := by
  subst h
  simp [takeBytes]

lemma readWord_littleEndian {width v : ℕ} (h : v < 256 ^ width) (rest : Bytes) :
    readWord width (littleEndian width v ++ rest) = some (v, rest) := by
  rw [readWord, takeBytes_append (littleEndian_length width v), Option.map_some, readLittleEndian_littleEndian,
    Nat.mod_eq_of_lt h]

lemma readWord_eq_some {n v : ℕ} {bs after : Bytes} (h : readWord n bs = some (v, after)) :
    bs = littleEndian n v ++ after ∧ v < 256 ^ n := by
  simp only [readWord, takeBytes] at h
  split_ifs at h with hle
  · simp only [Option.map_some, Option.some.injEq, Prod.mk.injEq] at h
    obtain ⟨rfl, rfl⟩ := h
    have hlen : (bs.take n).length = n := List.length_take_of_le hle
    have hback := littleEndian_readLittleEndian (bs.take n)
    have hlt := readLittleEndian_lt (bs.take n)
    rw [hlen] at hback hlt
    exact ⟨by rw [hback, List.take_append_drop], hlt⟩
  · cases h

lemma readLittleEndian_eq_foldr (bs : Bytes) : readLittleEndian bs = bs.foldr (fun b u => b.val + 256 * u) 0 := by
  induction bs with
  | nil => rfl
  | cons b bs ih => rw [readLittleEndian, ih, List.foldr_cons]

section BigEndian

@[simp] lemma bigEndian_length (w n : ℕ) : (bigEndian w n).length = w := by simp [bigEndian]

lemma bigEndian_inj {w a b : ℕ} (ha : a < 256 ^ w) (hb : b < 256 ^ w) (h : bigEndian w a = bigEndian w b) : a = b := by
  have hread := congrArg readLittleEndian (List.reverse_injective h)
  rwa [readLittleEndian_littleEndian, readLittleEndian_littleEndian, Nat.mod_eq_of_lt ha, Nat.mod_eq_of_lt hb] at hread

lemma bigEndian_succ (w n : ℕ) : bigEndian (w + 1) n = bigEndian w (n / 256) ++ [Fin.ofNat 256 n] := by
  simp [bigEndian, littleEndian]

lemma append_lt_append {xs ys : Bytes} (hlen : xs.length = ys.length) (h : xs < ys) (us vs : Bytes) : xs ++ us < ys ++ vs :=
  ((PrefixCode.below_of_length_eq hlen h).append us vs).lt

lemma bigEndian_lt {w a b : ℕ} (hb : b < 256 ^ w) (h : a < b) : bigEndian w a < bigEndian w b := by
  induction w generalizing a b with
  | zero => omega
  | succ w ih =>
    rw [bigEndian_succ, bigEndian_succ]
    have hdiv : b / 256 < 256 ^ w := by omega
    rcases Nat.lt_or_ge (a / 256) (b / 256) with hlt | hge
    · exact append_lt_append (by simp) (ih hdiv hlt) _ _
    · have heq : a / 256 = b / 256 := by omega
      rw [heq]
      refine List.append_left_lt (List.cons_lt_cons_iff.2 (.inl ?_))
      rw [Fin.lt_def, Fin.val_ofNat, Fin.val_ofNat]
      omega

lemma bigEndian_mod (w n : ℕ) : bigEndian w (n % 256 ^ w) = bigEndian w n := by
  have hlittle : ∀ w n, littleEndian w (n % 256 ^ w) = littleEndian w n := by
    intro w
    induction w with
    | zero => exact fun _ => rfl
    | succ w ih =>
      intro n
      have hlow : n % 256 ^ (w + 1) % 256 = n % 256 := Nat.mod_mod_of_dvd n (Dvd.intro_left _ rfl)
      have hhigh : n % 256 ^ (w + 1) / 256 = n / 256 % 256 ^ w := by
        rw [Nat.pow_succ', Nat.mod_mul_right_div_self]
      rw [littleEndian, littleEndian, hhigh, ih]
      congr 1
      exact Fin.ext hlow
  rw [bigEndian, bigEndian, hlittle]

end BigEndian

namespace EntryType

def code : EntryType → ℕ
  | put => 1
  | delete => 2
  | bulkBegin => 3
  | bulkEnd => 4
  | rangeDel => 5
  | changeMarker => 6

def ofCode : ℕ → Option EntryType
  | 1 => some put
  | 2 => some delete
  | 3 => some bulkBegin
  | 4 => some bulkEnd
  | 5 => some rangeDel
  | 6 => some changeMarker
  | _ => none

@[simp] lemma ofCode_code (t : EntryType) : ofCode t.code = some t := by cases t <;> rfl

lemma eq_code_of_ofCode {c : ℕ} {t : EntryType} (h : ofCode c = some t) : c = t.code := by
  unfold ofCode at h
  split at h <;> cases h <;> rfl

lemma code_lt (t : EntryType) : t.code < 256 ^ 1 := by cases t <;> decide

end EntryType

end Bytecask
