import Bytecask.Tree.Leaf

/-! The walk of a blind leaf, down its index and over the range left, is the walk of the whole trie. -/

namespace Bytecask.Tree

open Critbit Function List

namespace Arrays

variable {a : Arrays} {lo hi : ℕ}
variable {s : IndexState} {k m : ℕ} (q : Bytes)

lemma root_fold (a : Arrays) (lo m : ℕ) :
    ∃ r, ((List.range' (lo + 2) m).foldl (fun (s : ℕ × ℕ) i => if a.critAt i < s.2 then (i, a.critAt i) else s)
        (lo + 1, a.critAt (lo + 1))) = (r, a.critAt r) ∧ lo < r ∧ r < lo + 2 + m ∧
      ∀ i, lo < i → i < lo + 2 + m → a.critAt r ≤ a.critAt i := by
  induction m with
  | zero =>
    refine ⟨lo + 1, rfl, by omega, by omega, fun i hlo hhi => ?_⟩
    obtain rfl : i = lo + 1 := by omega
    exact le_rfl
  | succ m ih =>
    obtain ⟨r, hfold, hlo, hhi, hmin⟩ := ih
    rw [range'_1_concat, foldl_append, hfold, foldl_cons, foldl_nil]
    by_cases hlt : a.critAt (lo + 2 + m) < a.critAt r
    · refine ⟨lo + 2 + m, if_pos hlt, by omega, by omega, fun i hi hi' => ?_⟩
      rcases Nat.lt_or_ge i _ with hlow | hge
      · exact hlt.le.trans (hmin i hi hlow)
      · obtain rfl : i = lo + 2 + m := by omega
        exact le_rfl
    · refine ⟨r, if_neg hlt, hlo, by omega, fun i hi hi' => ?_⟩
      rcases Nat.lt_or_ge i _ with hlow | hge
      · exact hmin i hi hlow
      · obtain rfl : i = lo + 2 + m := by omega
        exact not_lt.1 hlt

lemma root_spec (h : ¬ hi - lo < 2) :
    lo < a.root lo hi ∧ a.root lo hi < hi ∧ ∀ i, lo < i → i < hi → a.critAt (a.root lo hi) ≤ a.critAt i := by
  obtain ⟨r, hfold, hlo, hhi, hmin⟩ := root_fold a lo _
  have hr : a.root lo hi = r := by rw [root, hfold]
  have hend : lo + 2 + (hi - (lo + 2)) = hi := by omega
  rw [hend] at hhi hmin
  rw [hr]
  exact ⟨hlo, hhi, hmin⟩

def SlotOk (a : Arrays) (s : IndexState) (k : ℕ) : Prop :=
  if s.hi k - s.lo k < 2 then s.out k = 0
  else
    s.out k = a.root (s.lo k) (s.hi k) ∧
      (2 * k + 2 < indexSlots → s.lo (2 * k + 1) = s.lo k ∧ s.hi (2 * k + 1) = s.out k ∧
        s.lo (2 * k + 2) = s.out k ∧ s.hi (2 * k + 2) = s.hi k)

structure Indexed (a : Arrays) (m : ℕ) (s : IndexState) : Prop where
  first : s.lo 0 = 0 ∧ s.hi 0 = a.length
  inside : ∀ k, s.hi k ≤ a.length
  slots : ∀ k < m, a.SlotOk s k

lemma SlotOk.frame {t : IndexState} (h : a.SlotOk s k) (hk : k < m) (hout : t.out k = s.out k)
    (hlo : ∀ i < 2 * m + 1, t.lo i = s.lo i) (hhi : ∀ i < 2 * m + 1, t.hi i = s.hi i) : a.SlotOk t k := by
  rw [SlotOk] at h ⊢
  rw [hout, hlo k (by omega), hhi k (by omega), hlo _ (by omega), hhi _ (by omega),
    hlo _ (by omega), hhi _ (by omega)]
  exact h

lemma indexStep_ok (hlen : a.length ≤ 256) (h : a.Indexed m s) : a.Indexed (m + 1) (a.indexStep s m) := by
  have hinside := h.inside m
  rw [indexStep]
  by_cases hsmall : s.hi m - s.lo m < 2
  · rw [if_pos hsmall]
    refine ⟨h.first, h.inside, fun k hk => ?_⟩
    rcases (Nat.le_of_lt_succ hk).eq_or_lt with rfl | hlt
    · rw [SlotOk, if_pos hsmall]
      exact update_self _ _ _
    · exact (h.slots k hlt).frame hlt (update_of_ne hlt.ne _ _) (fun _ _ => rfl) fun _ _ => rfl
  · obtain ⟨hrlo, hrhi, -⟩ := @root_spec a _ _ hsmall
    have hmod : a.root _ _ % 256 = a.root (s.lo m) (s.hi m) := Nat.mod_eq_of_lt (by omega)
    rw [if_neg hsmall]
    dsimp only
    rw [hmod]
    generalize hr : a.root _ _ = r at hrlo hrhi
    by_cases hdeep : 2 * m + 2 < indexSlots
    · rw [if_pos hdeep]
      have hframe : ∀ (f : ℕ → ℕ) (x y i : ℕ), i < 2 * m + 1 →
          Function.update (Function.update f (2 * m + 1) x) (2 * m + 2) y i = f i := by
        intro f x y i hi
        rw [update_of_ne (by omega), update_of_ne (by omega)]
      refine ⟨⟨?_, ?_⟩, fun k => ?_, fun k hk => ?_⟩
      · exact (hframe s.lo (s.lo m) r 0 (Nat.succ_pos _)).trans h.first.1
      · exact (hframe s.hi r (s.hi m) 0 (Nat.succ_pos _)).trans h.first.2
      · dsimp only
        by_cases hk2 : k = 2 * m + 2
        · rw [hk2, update_self]
          exact hinside
        · rw [update_of_ne hk2]
          by_cases hk1 : k = 2 * m + 1
          · rw [hk1, update_self]
            omega
          · rw [update_of_ne hk1]
            exact h.inside k
      · rcases (Nat.le_of_lt_succ hk).eq_or_lt with rfl | hlt
        · rw [SlotOk]
          simp only [hframe _ _ _ k (by omega : k < 2 * k + 1), if_neg hsmall, update_self, hr]
          refine ⟨trivial, fun _ => ⟨?_, ?_, trivial, trivial⟩⟩
          · rw [update_of_ne (by omega), update_self]
          · rw [update_of_ne (by omega), update_self]
        · exact (h.slots k hlt).frame hlt (update_of_ne hlt.ne _ _) (hframe _ _ _) (hframe _ _ _)
    · rw [if_neg hdeep]
      refine ⟨h.first, h.inside, fun k hk => ?_⟩
      rcases (Nat.le_of_lt_succ hk).eq_or_lt with rfl | hlt
      · rw [SlotOk, if_neg hsmall]
        exact ⟨(update_self _ _ _).trans hr.symm, fun hd => absurd hd hdeep⟩
      · exact (h.slots k hlt).frame hlt (update_of_ne hlt.ne _ _) (fun _ _ => rfl) fun _ _ => rfl

lemma indexed (hlen : a.length ≤ 256) (m : ℕ) : a.Indexed m (a.indexState m) := by
  induction m with
  | zero =>
    have hhi : (a.indexState 0).hi = Function.update (fun _ => 0) 0 a.length := rfl
    refine ⟨⟨rfl, ?_⟩, fun k => ?_, fun k hk => absurd hk (Nat.not_lt_zero k)⟩
    · rw [hhi, update_self]
    · by_cases hk : k = 0
      · rw [hhi, hk, update_self]
      · rw [hhi, update_of_ne hk]
        exact Nat.zero_le _
  | succ m ih =>
    rw [indexState, range_succ, foldl_append]
    exact indexStep_ok hlen ih

lemma exists_index (hlen : a.length ≤ 256) :
    ∃ s, a.Indexed indexSlots s ∧ ∀ k < indexSlots, a.computeIndex.getD k 0 = s.out k := by
  refine ⟨_, indexed hlen _, fun k hk => ?_⟩
  rw [computeIndex, getD_eq_getElem _ _ (by simpa using hk)]
  simp

lemma descend_spec {top : List ℕ} (hslots : ∀ k < indexSlots, a.SlotOk s k)
    (htop : ∀ k < indexSlots, top.getD k 0 = s.out k) (q : Bytes) (fuel : ℕ) (hlt : lo < hi)
    (hrange : k < indexSlots → lo = s.lo k ∧ hi = s.hi k) :
    (a.descend top q fuel k lo hi).1 < (a.descend top q fuel k lo hi).2 ∧ (a.descend top q fuel k lo hi).2 ≤ hi ∧
      ∀ c, Reaches a.critAt (isSet q) (a.descend top q fuel k lo hi).1 (a.descend top q fuel k lo hi).2 c →
        Reaches a.critAt (isSet q) lo hi c := by
  induction fuel generalizing k lo hi with
  | zero => exact ⟨hlt, le_rfl, fun c hc => hc⟩
  | succ fuel ih =>
    rw [descend]
    by_cases hgo : k < indexSlots ∧ top.getD k 0 ≠ 0
    · rw [if_pos hgo]
      have hslot := hslots k hgo.1
      rw [SlotOk, ← htop k hgo.1, ← (hrange hgo.1).1, ← (hrange hgo.1).2] at hslot
      have hwide : ¬ hi - lo < 2 := fun hsmall => hgo.2 (by rwa [if_pos hsmall] at hslot)
      rw [if_neg hwide] at hslot
      obtain ⟨hroot, hnext⟩ := hslot
      obtain ⟨hrlo, hrhi, hmin⟩ := @root_spec a _ _ hwide
      rw [← hroot] at hrlo hrhi hmin
      generalize top.getD k 0 = r at hrlo hrhi hmin hnext
      by_cases hbit : bit q (a.critAt r) ≠ 0
      · rw [if_pos hbit]
        have hset : isSet q _ = true := decide_eq_true hbit
        obtain ⟨hok, hle, hreach⟩ := @ih r hi _ hrhi
          (fun hk => ⟨(hnext hk).2.2.1.symm, (hnext hk).2.2.2.symm⟩)
        exact ⟨hok, hle, fun c hc => (hreach c hc).of_root_right hrlo hmin hset⟩
      · rw [if_neg hbit]
        have hclear : isSet q _ = false := decide_eq_false hbit
        have hdown : 2 * k + 1 < indexSlots → 2 * k + 2 < indexSlots := by
          rw [indexSlots]
          omega
        obtain ⟨hok, hle, hreach⟩ := @ih lo r _ hrlo
          (fun hk => ⟨(hnext (hdown hk)).1.symm, (hnext (hdown hk)).2.1.symm⟩)
        exact ⟨hok, hle.trans hrhi.le, fun c hc => (hreach c hc).of_root_left hrhi hmin hclear⟩
    · rw [if_neg hgo]
      exact ⟨hlt, le_rfl, fun c hc => hc⟩

lemma scan_bit (p : ℕ) :
    (if p >>> posShift < q.length then 0x100 ||| (q.getD (min (p >>> posShift) (q.length - 1)) 0).val else 0) >>>
      (8 - (p &&& 15)) &&& 1 = bit q p := by
  rw [bit]
  by_cases hin : p >>> posShift < q.length
  · rw [if_pos hin, if_neg (not_le.2 hin), min_eq_left (by omega)]
    generalize q.getD _ 0 = byte
    have hor : 0x100 ||| byte.val = 256 + byte.val := (@Nat.two_pow_add_eq_or_of_lt 8 _ byte.isLt 1).symm
    rw [hor, Nat.and_one_is_mod, Nat.and_one_is_mod, Nat.shiftRight_eq_div_pow, Nat.shiftRight_eq_div_pow]
    by_cases hr : p &&& 15 = 0
    · rw [if_pos hr, hr]
      omega
    · rw [if_neg hr]
      have hle : 8 - (p &&& 15) ≤ 7 := by omega
      generalize 8 - (p &&& 15) = i at hle
      interval_cases i <;> omega
  · rw [if_neg hin, if_pos (not_lt.1 hin)]
    simp

lemma bit_le_one (p : ℕ) : bit q p ≤ 1 := by
  rw [bit]
  split_ifs
  · exact Nat.zero_le 1
  · exact le_rfl
  · exact Nat.and_le_right

lemma or_noCrit {p : ℕ} (h : p < noCrit) : p ||| (2 ^ 32 - 1) % 2 ^ 32 = noCrit := by
  apply Nat.eq_of_testBit_eq
  intro i
  rw [Nat.testBit_or, noCrit, Nat.mod_eq_of_lt (by decide), Nat.testBit_two_pow_sub_one]
  by_cases hi : i < 32
  · simp [hi]
  · have hpow : 2 ^ 32 ≤ 2 ^ i := Nat.pow_le_pow_right (by decide) (not_lt.1 hi)
    rw [Nat.testBit_lt_two_pow (h.trans_le ((Nat.sub_le _ _).trans hpow)), Bool.false_or]

lemma scan_fold (lo m : ℕ) (hsmall : ∀ i, lo < i → i < lo + 1 + m → a.critAt i < noCrit) :
    Scanned a.critAt (isSet q) noCrit lo (lo + 1 + m)
      ((List.range' (lo + 1) m).foldl (a.scanStep q) (lo, noCrit)).1
      ((List.range' (lo + 1) m).foldl (a.scanStep q) (lo, noCrit)).2 := by
  induction m with
  | zero => exact scanned_single noCrit lo
  | succ m ih =>
    have h := ih fun i hlo hi => hsmall i hlo (by omega)
    have hnone := hsmall (lo + 1 + m) (by omega) (by omega)
    rw [range'_1_concat, foldl_append, foldl_cons, foldl_nil, ← Nat.add_assoc]
    generalize (List.range' (lo + 1) m).foldl (a.scanStep q) (lo, noCrit) = s at h
    rw [scanStep]
    rw [scan_bit]
    by_cases hpath : a.critAt (lo + 1 + m) < s.2
    · by_cases hbit : bit q (a.critAt (lo + 1 + m)) ≠ 0
      · have hone : bit q (a.critAt (lo + 1 + m)) = 1 := by
          have := bit_le_one q (a.critAt (lo + 1 + m))
          omega
        have hmask := or_noCrit hnone
        rw [if_pos ⟨hpath, hbit⟩, if_pos hpath, hone, hmask]
        exact h.right hpath (decide_eq_true hbit)
      · rw [if_neg (fun hand => hbit hand.2), if_pos hpath, not_not.1 hbit, Nat.sub_zero, Nat.mod_self, Nat.or_zero]
        exact h.left hpath (decide_eq_false hbit)
    · rw [if_neg (fun hand => hpath hand.1), if_neg hpath]
      exact h.skip (not_lt.1 hpath) hnone

lemma scan_reaches (hlt : lo < hi) (hsmall : ∀ i, lo < i → i < hi → a.critAt i < noCrit) :
    Reaches a.critAt (isSet q) lo hi (a.scan q lo hi) := by
  have hend : lo + 1 + (hi - (lo + 1)) = hi := by omega
  have h := @scan_fold a q lo _ (by rwa [hend])
  rw [hend] at h
  exact h.toReaches

end Arrays

end Bytecask.Tree
