import Mathlib

/-! Walks of the binary trie that a sorted sequence of bit strings implies. The trie is not built: it is given by
the positions `crit i` where the `i`-th string first differs from the one before it. The root of a range is its
boundary with the smallest position, and a walk from there follows the bits of a query. -/

namespace Critbit

section Walk

variable (crit : ℕ → ℕ) (q : ℕ → Bool)

def OnPath (c r : ℕ) : Prop :=
  (c < r ∧ ∀ i, c < i → i < r → crit r < crit i) ∨ (r ≤ c ∧ ∀ i, r < i → i ≤ c → crit r < crit i)

structure Reaches (lo hi c : ℕ) : Prop where
  ge : lo ≤ c
  lt : c < hi
  turn : ∀ r, lo < r → r < hi → OnPath crit c r → (q (crit r) = true ↔ r ≤ c)

structure Scanned (none lo hi c s : ℕ) : Prop extends Reaches crit q lo hi c where
  bound : ∀ i, c < i → i < hi → s ≤ crit i
  least : s = none ∨ ∃ i, c < i ∧ i < hi ∧ crit i = s

variable {crit q} {lo hi c r : ℕ}

lemma reaches_single (lo : ℕ) : Reaches crit q lo (lo + 1) lo :=
  ⟨le_rfl, Nat.lt_succ_self lo, fun r hlo hhi _ => absurd hhi (by omega)⟩

lemma Reaches.of_root_right (hr : lo < r) (hmin : ∀ i, lo < i → i < hi → crit r ≤ crit i) (hq : q (crit r) = true)
    (h : Reaches crit q r hi c) : Reaches crit q lo hi c := by
  refine ⟨hr.le.trans h.ge, h.lt, fun r' hlo hhi hpath => ?_⟩
  rcases lt_trichotomy r' r with hlt | rfl | hgt
  · have hge := h.ge
    rcases hpath with ⟨hc, -⟩ | ⟨-, hall⟩
    · omega
    · exact absurd (hall r hlt h.ge) (not_lt.2 (hmin r' hlo hhi))
  · exact ⟨fun _ => h.ge, fun _ => hq⟩
  · exact h.turn r' hgt hhi hpath

lemma Reaches.of_root_left (hr : r < hi) (hmin : ∀ i, lo < i → i < hi → crit r ≤ crit i) (hq : q (crit r) = false)
    (h : Reaches crit q lo r c) : Reaches crit q lo hi c := by
  refine ⟨h.ge, h.lt.trans hr, fun r' hlo hhi hpath => ?_⟩
  rcases lt_trichotomy r' r with hlt | rfl | hgt
  · exact h.turn r' hlo hlt hpath
  · exact ⟨fun hq' => absurd (hq.symm.trans hq') (by decide), fun hle => absurd h.lt (not_lt.2 hle)⟩
  · have hlt := h.lt
    rcases hpath with ⟨-, hall⟩ | ⟨hc, -⟩
    · exact absurd (hall r h.lt hgt) (not_lt.2 (hmin r' hlo hhi))
    · omega

variable {none s : ℕ}

lemma scanned_single (none lo : ℕ) : Scanned crit q none lo (lo + 1) lo none :=
  ⟨reaches_single lo, fun i hlt hlt' => absurd hlt' (by omega), .inl rfl⟩

section

variable (h : Scanned crit q none lo hi c s)

include h

lemma Scanned.onPath_iff (hnone : crit hi < none) : crit hi < s ↔ OnPath crit c hi := by
  constructor
  · intro hlt
    exact .inl ⟨h.lt, fun i hc hi' => hlt.trans_le (h.bound i hc hi')⟩
  · rintro (⟨-, hall⟩ | ⟨hle, -⟩)
    · rcases h.least with rfl | ⟨i, hc, hi', rfl⟩
      · exact hnone
      · exact hall i hc hi'
    · exact absurd h.lt (not_lt.2 hle)

lemma Scanned.right (hlt : crit hi < s) (hq : q (crit hi) = true) : Scanned crit q none lo (hi + 1) hi none := by
  refine ⟨⟨h.ge.trans h.lt.le, Nat.lt_succ_self hi, fun r hlo hhi hpath => ?_⟩, fun i hi' hi'' => absurd hi'' (by omega),
    .inl rfl⟩
  have hle : r ≤ hi := Nat.le_of_lt_succ hhi
  refine ⟨fun _ => hle, fun _ => ?_⟩
  rcases hle.eq_or_lt with rfl | hr
  · exact hq
  · have hall : ∀ i, r < i → i ≤ hi → crit r < crit i := by
      rcases hpath with ⟨hc, -⟩ | ⟨-, hall⟩
      · omega
      · exact hall
    by_cases hrc : r ≤ c
    · exact (h.turn r hlo hr (.inr ⟨hrc, fun i hi' hic => hall i hi' (hic.trans h.lt.le)⟩)).2 hrc
    · have hsmall := h.bound r (not_le.1 hrc) hr
      exact absurd (hall hi hr le_rfl) (not_lt.2 (hlt.le.trans hsmall))

lemma Scanned.left (hlt : crit hi < s) (hq : q (crit hi) = false) : Scanned crit q none lo (hi + 1) c (crit hi) := by
  refine ⟨⟨h.ge, h.lt.trans (Nat.lt_succ_self hi), fun r hlo hhi hpath => ?_⟩, fun i hc hi' => ?_,
    .inr ⟨hi, h.lt, Nat.lt_succ_self hi, rfl⟩⟩
  · rcases (Nat.le_of_lt_succ hhi).eq_or_lt with rfl | hr
    · exact ⟨fun hq' => absurd (hq.symm.trans hq') (by decide), fun hle => absurd h.lt (not_lt.2 hle)⟩
    · exact h.turn r hlo hr hpath
  · rcases (Nat.le_of_lt_succ hi').eq_or_lt with rfl | hlt'
    · exact le_rfl
    · exact hlt.le.trans (h.bound i hc hlt')

lemma Scanned.skip (hge : s ≤ crit hi) (hnone : crit hi < none) : Scanned crit q none lo (hi + 1) c s := by
  refine ⟨⟨h.ge, h.lt.trans (Nat.lt_succ_self hi), fun r hlo hhi hpath => ?_⟩, fun i hc hi' => ?_, ?_⟩
  · rcases (Nat.le_of_lt_succ hhi).eq_or_lt with rfl | hr
    · exact absurd ((h.onPath_iff hnone).2 hpath) (not_lt.2 hge)
    · exact h.turn r hlo hr hpath
  · rcases (Nat.le_of_lt_succ hi').eq_or_lt with rfl | hlt'
    · exact hge
    · exact h.bound i hc hlt'
  · rcases h.least with rfl | ⟨i, hc, hi', rfl⟩
    · exact .inl rfl
    · exact .inr ⟨i, hc, hi'.trans (Nat.lt_succ_self hi), rfl⟩

end

end Walk

section Bits

variable {K : Type*} (bit : K → ℕ → Bool)

def Splits (a b : K) (p : ℕ) : Prop := (∀ p' < p, bit a p' = bit b p') ∧ bit a p = false ∧ bit b p = true

def Chain (key : ℕ → K) (crit : ℕ → ℕ) (n : ℕ) : Prop := ∀ i, 0 < i → i < n → Splits bit (key (i - 1)) (key i) (crit i)

variable {bit} {a b c : K} {p p' : ℕ}

lemma Splits.trans (h : Splits bit a b p) (h' : Splits bit b c p') : p ≠ p' ∧ Splits bit a c (min p p') := by
  have hne : p ≠ p' := by
    rintro rfl
    exact absurd (h.2.2.symm.trans h'.2.1) (by decide)
  refine ⟨hne, fun i hi => (h.1 i (by omega)).trans (h'.1 i (by omega)), ?_⟩
  rcases hne.lt_or_gt with hlt | hgt
  · rw [min_eq_left hlt.le]
    exact ⟨h.2.1, (h'.1 p hlt) ▸ h.2.2⟩
  · rw [min_eq_right hgt.le]
    exact ⟨(h.1 p' hgt).trans h'.2.1, h'.2.2⟩

lemma Splits.unique (h : Splits bit a b p) (h' : Splits bit a b p') : p = p' := by
  rcases lt_trichotomy p p' with hlt | heq | hgt
  · exact absurd (h.2.1.symm.trans ((h'.1 p hlt).trans h.2.2)) (by decide)
  · exact heq
  · exact absurd (h'.2.1.symm.trans ((h.1 p' hgt).trans h'.2.2)) (by decide)

variable {key : ℕ → K} {crit : ℕ → ℕ} {n i j : ℕ}

lemma Chain.least (h : Chain bit key crit n) (hij : i < j) (hj : j < n) :
    ∃ r, i < r ∧ r ≤ j ∧ Splits bit (key i) (key j) (crit r) ∧ ∀ r', i < r' → r' ≤ j → r' ≠ r → crit r < crit r' := by
  induction j, hij using Nat.le_induction with
  | base =>
    refine ⟨i + 1, Nat.lt_succ_self i, le_rfl, h _ (Nat.succ_pos i) hj, fun r' hlt hle hne => ?_⟩
    omega
  | succ j hij ih =>
    obtain ⟨r, hir, hrj, hsplit, hmin⟩ := ih (by omega)
    have hlast := h (j + 1) (Nat.succ_pos j) hj
    obtain ⟨hne, hsplit'⟩ := hsplit.trans hlast
    rcases hne.lt_or_gt with hlt | hgt
    · rw [min_eq_left hlt.le] at hsplit'
      refine ⟨r, hir, hrj.trans (Nat.le_succ j), hsplit', fun r' hlo hhi hne' => ?_⟩
      rcases hhi.eq_or_lt with rfl | hhi
      · exact hlt
      · exact hmin r' hlo (Nat.le_of_lt_succ hhi) hne'
    · rw [min_eq_right hgt.le] at hsplit'
      refine ⟨j + 1, by omega, le_rfl, hsplit', fun r' hlo hhi hne' => ?_⟩
      by_cases hr : r' = r
      · exact hr ▸ hgt
      · exact hgt.trans (hmin r' hlo (by omega) hr)

lemma Chain.reaches_unique (h : Chain bit key crit n) {q : ℕ → Bool} {c c' : ℕ} (hc : Reaches crit q 0 n c)
    (hc' : Reaches crit q 0 n c') : c = c' := by
  have key_step : ∀ c c', Reaches crit q 0 n c → Reaches crit q 0 n c' → ¬ c < c' := by
    intro c c' hc hc' hlt
    obtain ⟨r, hlo, hhi, -, hmin⟩ := h.least hlt hc'.lt
    have hr : r < n := hhi.trans_lt hc'.lt
    have hleft := hc.turn r (by omega) hr (.inl ⟨hlo, fun i hi hi' => hmin i hi (by omega) (by omega)⟩)
    have hright := hc'.turn r (by omega) hr (.inr ⟨hhi, fun i hi hi' => hmin i (by omega) hi' (by omega)⟩)
    exact absurd (hleft.1 (hright.2 hhi)) (not_le.2 hlo)
  have h₁ := key_step c c' hc hc'
  have h₂ := key_step c' c hc' hc
  omega

lemma Chain.agree (h : Chain bit key crit n) {j' : ℕ} (hj : j < n) (hbig : ∀ r, i < r → r ≤ j → j' < crit r) (hij : i ≤ j) :
    ∀ p ≤ j', bit (key i) p = bit (key j) p := by
  intro p hp
  rcases hij.eq_or_lt with rfl | hlt
  · rfl
  · obtain ⟨r, hlo, hhi, hsplit, -⟩ := h.least hlt hj
    exact hsplit.1 p (hp.trans_lt (hbig r hlo hhi))

structure IsRun (crit : ℕ → ℕ) (n c j a b : ℕ) : Prop where
  le : a ≤ c
  lt : c < b
  le_end : b ≤ n
  below : ∀ i, a < i → i ≤ c → j < crit i
  above : ∀ i, c < i → i < b → j < crit i
  stop_low : a = 0 ∨ crit a ≤ j
  stop_high : b = n ∨ crit b ≤ j

section Place

variable {q : K} {c j a b : ℕ} (h : Chain bit key crit n) (hr : Reaches crit (bit q) 0 n c) (hrun : IsRun crit n c j a b)
  (hsame : ∀ p < j, bit q p = bit (key c) p) (hdiff : bit q j ≠ bit (key c) j)
include h hrun

lemma IsRun.agree_low {p : ℕ} (hp : p ≤ j) : bit (key a) p = bit (key c) p :=
  h.agree (hrun.lt.trans_le hrun.le_end) hrun.below hrun.le p hp

lemma IsRun.agree_high {p : ℕ} (hp : p ≤ j) : bit (key c) p = bit (key (b - 1)) p := by
  have hlt := hrun.lt
  have hend := hrun.le_end
  exact h.agree (by omega) (fun r hlo hhi => hrun.above r hlo (by omega)) (by omega) p hp

include hr hdiff

lemma IsRun.low_lt (ha : 0 < a) : crit a < j := by
  have hlt := hrun.lt
  have hend := hrun.le_end
  have hle := hrun.le
  refine lt_of_le_of_ne (hrun.stop_low.resolve_left (by omega)) fun heq => ?_
  have hpath : OnPath crit c a := .inr ⟨hle, fun i hi hic => heq ▸ hrun.below i hi hic⟩
  have hqbit : bit q j = true := heq ▸ (hr.turn a ha (by omega) hpath).2 hle
  have hkey : bit (key a) j = true := heq ▸ (h a ha (by omega)).2.2
  exact hdiff (hqbit.trans (hkey.symm.trans (hrun.agree_low h le_rfl)))

lemma IsRun.high_lt (hb : b < n) : crit b < j := by
  have hlt := hrun.lt
  refine lt_of_le_of_ne (hrun.stop_high.resolve_left (by omega)) fun heq => ?_
  have hpath : OnPath crit c b := .inl ⟨hlt, fun i hi hib => heq ▸ hrun.above i hi hib⟩
  have hqbit : bit q j = false := by
    rw [← Bool.not_eq_true]
    intro hq
    have := (hr.turn b (by omega) hb hpath).1 (heq ▸ hq)
    omega
  have hkey : bit (key (b - 1)) j = false := heq ▸ (h b (by omega) hb).2.1
  exact hdiff (hqbit.trans (hkey.symm.trans (hrun.agree_high h le_rfl).symm))

include hsame

lemma IsRun.after (hq : bit q j = true) :
    Splits bit (key (b - 1)) q j ∧ (b < n → Splits bit q (key b) (crit b)) := by
  have hhigh : ∀ p < j, bit (key (b - 1)) p = bit q p := fun p hp =>
    (hrun.agree_high h hp.le).symm.trans (hsame p hp).symm
  constructor
  · refine ⟨hhigh, ?_, hq⟩
    rw [← hrun.agree_high h le_rfl, ← Bool.not_eq_true]
    exact fun hc => hdiff (hq.trans hc.symm)
  · intro hb
    have hlt := hrun.high_lt h hr hdiff hb
    have hsplit := h b (Nat.zero_lt_of_lt hrun.lt) hb
    exact ⟨fun p hp => (hhigh p (hp.trans hlt)).symm.trans (hsplit.1 p hp), (hhigh _ hlt) ▸ hsplit.2.1, hsplit.2.2⟩

lemma IsRun.before (hq : bit q j = false) :
    Splits bit q (key a) j ∧ (0 < a → Splits bit (key (a - 1)) q (crit a)) := by
  have hlow : ∀ p < j, bit q p = bit (key a) p := fun p hp => (hsame p hp).trans (hrun.agree_low h hp.le).symm
  constructor
  · refine ⟨hlow, hq, ?_⟩
    rw [hrun.agree_low h le_rfl, ← Bool.not_eq_false]
    exact fun hc => hdiff (hq.trans hc.symm)
  · intro ha
    have hlt := hrun.low_lt h hr hdiff ha
    have hsplit := h a ha (hrun.le.trans_lt (hrun.lt.trans_le hrun.le_end))
    exact ⟨fun p hp => (hsplit.1 p hp).trans (hlow p (hp.trans hlt)).symm, hsplit.2.1, (hlow _ hlt).trans hsplit.2.2⟩

end Place

end Bits

end Critbit
