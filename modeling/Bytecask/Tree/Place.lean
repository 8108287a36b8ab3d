import Bytecask.Tree.Walk

/-! Placing a key in a blind leaf, and what inserting and removing there leave. -/

namespace Bytecask.Tree

open List

open Blind (BlindRef)
open Critbit

variable {res : BlindRef → Bytes}

def Arrays.Crits (res : BlindRef → Bytes) (a : Arrays) : Prop :=
  ∀ i, 0 < i → i < a.length → a.critAt i = crit (a.keyAt res (i - 1)) (a.keyAt res i)

/-- A leaf as the tree keeps it; a leaf has fewer than 256 entries, so that the index names them in a byte. -/
structure Leaf.Sound (res : BlindRef → Bytes) (n : Leaf) : Prop where
  ascending : (n.arrays.keys res).Pairwise (· < ·)
  short : ∀ k ∈ n.arrays.keys res, k.length ≤ 65535
  crits : n.arrays.Crits res
  top : n.top = n.arrays.computeIndex
  fits : n.arrays.length < 256

namespace Arrays

variable {a : Arrays} {i j : ℕ}

lemma length_keys (a : Arrays) : (a.keys res).length = a.length := length_map _

lemma keys_getElem (hi : i < (a.keys res).length) : (a.keys res)[i] = a.keyAt res i := by
  have hi' : i < a.length := by rwa [length_keys] at hi
  rw [keyAt, entry, getD_eq_getElem]
  exact getElem_map _

lemma keys_getElem? (hi : i < a.length) : (a.keys res)[i]? = some (a.keyAt res i) := by
  have hi' : i < (a.keys res).length := by rwa [length_keys]
  rw [List.getElem?_eq_getElem hi', keys_getElem]

lemma keyAt_mem (hi : i < a.length) : a.keyAt res i ∈ a.keys res := mem_of_getElem? (keys_getElem? hi)

lemma keyAt_lt (h : (a.keys res).Pairwise (· < ·)) (hij : i < j) (hj : j < a.length) : a.keyAt res i < a.keyAt res j := by
  rw [← @length_keys res] at hj
  rw [← keys_getElem hj, ← keys_getElem (hij.trans hj)]
  exact pairwise_iff_getElem.1 h i j _ hj hij

lemma runLow_spec (a : Arrays) (j c : ℕ) :
    a.runLow j c ≤ c ∧ (∀ i, a.runLow j c < i → i ≤ c → j < a.critAt i) ∧
      (a.runLow j c = 0 ∨ a.critAt (a.runLow j c) ≤ j) := by
  induction c with
  | zero => exact ⟨le_rfl, fun i hlt hle => absurd hle (by omega), .inl rfl⟩
  | succ c ih =>
    rw [runLow]
    by_cases hj : j < a.critAt (c + 1)
    · rw [if_pos hj]
      obtain ⟨hle, hrun, hstop⟩ := ih
      refine ⟨hle.trans (Nat.le_succ c), fun i hlt hic => ?_, hstop⟩
      rcases hic.eq_or_lt with rfl | hlt'
      · exact hj
      · exact hrun i hlt (Nat.le_of_lt_succ hlt')
    · rw [if_neg hj]
      exact ⟨le_rfl, fun i hlt hle => absurd hle (by omega), .inr (not_lt.1 hj)⟩

lemma runHigh_spec (a : Arrays) (j fuel b : ℕ) :
    b ≤ a.runHigh j fuel b ∧ a.runHigh j fuel b ≤ b + fuel ∧
      (∀ i, b ≤ i → i < a.runHigh j fuel b → j < a.critAt i) ∧
      (a.runHigh j fuel b = b + fuel ∨ a.critAt (a.runHigh j fuel b) ≤ j) := by
  induction fuel generalizing b with
  | zero => exact ⟨le_rfl, le_rfl, fun i hle hlt => absurd hlt (not_lt.2 hle), .inl rfl⟩
  | succ fuel ih =>
    rw [runHigh]
    by_cases hj : j < a.critAt b
    · rw [if_pos hj]
      obtain ⟨hge, hle, hrun, hstop⟩ := ih _
      refine ⟨by omega, by omega, fun i hbi hlt => ?_, hstop.imp (fun h => by omega) id⟩
      rcases hbi.eq_or_lt with rfl | hlt'
      · exact hj
      · exact hrun i hlt' hlt
    · rw [if_neg hj]
      exact ⟨le_rfl, by omega, fun i hle hlt => absurd hlt (not_lt.2 hle), .inr (not_lt.1 hj)⟩

lemma isRun {c : ℕ} (a : Arrays) (j : ℕ) (hc : c < a.length) :
    IsRun a.critAt a.length c j (a.runLow j c) (a.runHigh j (a.length - (c + 1)) (c + 1)) := by
  obtain ⟨hle, hlow, hstop⟩ := runLow_spec a j c
  obtain ⟨hge, hend, hhigh, hstop'⟩ := runHigh_spec a j _ (c + 1)
  exact ⟨hle, by omega, by omega, hlow, fun i hlt hlt' => hhigh i hlt hlt', hstop, hstop'.imp (fun h => by omega) id⟩

section Words

lemma shiftRight_metaWord {critBit : ℕ} (h : critBit < 2 ^ 20) (fp : ℕ) : metaWord critBit fp >>> 12 = critBit := by
  have hlow : fp &&& 0xFFF = fp % 2 ^ 12 := Nat.and_two_pow_sub_one_eq_mod fp 12
  have hlt : fp % 2 ^ 12 < 2 ^ 12 := Nat.mod_lt _ (by decide)
  rw [metaWord, hlow, Nat.shiftLeft_eq, Nat.mod_eq_of_lt (by omega), Nat.mul_comm, ← Nat.two_pow_add_eq_or_of_lt hlt,
    Nat.shiftRight_eq_div_pow]
  omega

lemma loc_parts {file off low : ℕ} (hfile : file < 2 ^ 20) (hoff : off < 2 ^ 32) (hlow : low < 2 ^ 12) :
    (file <<< 44 % 2 ^ 64 ||| off <<< 12 ||| low) >>> 44 % 2 ^ 32 = file ∧
      (file <<< 44 % 2 ^ 64 ||| off <<< 12 ||| low) >>> 12 % 2 ^ 32 = off := by
  have hsum : 2 ^ 12 * off + low < 2 ^ 44 := by omega
  have hword : (file <<< 44 % 2 ^ 64 ||| off <<< 12 ||| low) = 2 ^ 44 * file + (2 ^ 12 * off + low) := by
    rw [Nat.or_assoc, Nat.shiftLeft_eq, Nat.shiftLeft_eq, Nat.mod_eq_of_lt (by omega), Nat.mul_comm, Nat.mul_comm off,
      ← Nat.two_pow_add_eq_or_of_lt hlow, ← Nat.two_pow_add_eq_or_of_lt hsum]
  constructor
  · omega
  · omega

lemma refOf_locWord {fp : ℕ} {ref : BlindRef} (hfile : ref.fileId < 2 ^ 20) (hoff : ref.offset < 2 ^ 32) (hfp : fp < 2 ^ 24) :
    refOf (locWord fp ref) = ref := by
  have hlow : fp >>> 12 < 2 ^ 12 := by
    omega
  obtain ⟨h₁, h₂⟩ := loc_parts hfile hoff hlow
  rw [refOf, locWord, h₁, h₂]

lemma setCrit_eq (a : Arrays) (i critBit : ℕ) : a.setCrit i critBit = a.set i ⟨metaWord critBit (a.entry i).word, (a.entry i).loc⟩ :=
  rfl

end Words

section Entries

variable {k : ℕ}

lemma entry_set (a : Arrays) (i k : ℕ) (e : LeafEntry) (hi : i < a.length) :
    entry (a.set i e) k = if k = i then e else a.entry k := by
  rw [entry, entry, getD_eq_getElem?_getD, getD_eq_getElem?_getD, List.getElem?_set]
  by_cases hk : k = i
  · rw [if_pos hk.symm, if_pos hi, if_pos hk]
    rfl
  · rw [if_neg (Ne.symm hk), if_neg hk]

lemma entry_openAt (a : Arrays) (i k : ℕ) (hi : i ≤ a.length) :
    (a.openAt i).entry k = if k ≤ i then a.entry k else a.entry (k - 1) := by
  rw [entry, getD_eq_getElem?_getD, openAt, List.getElem?_insertIdx]
  rcases lt_trichotomy k i with hlt | rfl | hgt
  · rw [if_pos hlt, if_pos hlt.le, entry, getD_eq_getElem?_getD]
  · rw [if_neg (lt_irrefl k), if_pos rfl, if_pos hi, if_pos le_rfl]
    rfl
  · rw [if_neg hgt.not_gt, if_neg hgt.ne', if_neg (not_le.2 hgt), entry, getD_eq_getElem?_getD]

lemma length_openAt (a : Arrays) {i : ℕ} (hi : i ≤ a.length) : (a.openAt i).length = a.length + 1 :=
  length_insertIdx_of_le_length hi _

lemma entry_eraseIdx (a : Arrays) (i k : ℕ) : entry (a.eraseIdx i) k = if k < i then a.entry k else a.entry (k + 1) := by
  rw [entry, getD_eq_getElem?_getD, List.getElem?_eraseIdx]
  by_cases hk : k < i
  · rw [if_pos hk, if_pos hk, entry, getD_eq_getElem?_getD]
  · rw [if_neg hk, if_neg hk, entry, getD_eq_getElem?_getD]

end Entries

section Inserted

variable {b : Arrays} {idx : ℕ} {q : Bytes}
variable {c fpq x : ℕ} {ref : BlindRef}

structure Inserted (res : BlindRef → Bytes) (a b : Arrays) (idx : ℕ) (q : Bytes) : Prop where
  le : idx ≤ a.length
  length : b.length = a.length + 1
  key : ∀ k, b.keyAt res k = if k < idx then a.keyAt res k else if k = idx then q else a.keyAt res (k - 1)
  low : ∀ k < idx, b.critAt k = a.critAt k
  high : ∀ k, idx + 1 < k → b.critAt k = a.critAt (k - 1)

lemma Inserted.keys (h : Inserted res a b idx q) : b.keys res = (a.keys res).insertIdx idx q := by
  have hle : idx ≤ (a.keys res).length := by
    rw [length_keys]
    exact h.le
  apply ext_getElem
  · rw [length_keys, length_insertIdx_of_le_length hle, length_keys, h.length]
  · intro k hk _
    rw [keys_getElem, h.key, getElem_insertIdx]
    split_ifs
    · rw [keys_getElem]
    · rfl
    · rw [keys_getElem]

lemma Inserted.crits (h : Inserted res a b idx q) (hcrits : a.Crits res)
    (hat : 0 < idx → b.critAt idx = crit (a.keyAt res (idx - 1)) q)
    (hnext : idx < a.length → b.critAt (idx + 1) = crit q (a.keyAt res idx)) : b.Crits res := by
  intro k hpos hk
  have hlen := h.length
  have hle := h.le
  rw [h.key k, h.key]
  rcases lt_trichotomy k idx with hlt | rfl | hgt
  · rw [if_pos hlt, if_pos (by omega), h.low k hlt]
    exact hcrits k hpos (by omega)
  · rw [if_neg (lt_irrefl k), if_pos rfl, if_pos (by omega)]
    exact hat hpos
  · rw [if_neg hgt.not_gt, if_neg hgt.ne']
    rcases (Nat.succ_le_of_lt hgt).eq_or_lt with rfl | hfar
    · rw [Nat.succ_sub_one, if_neg (lt_irrefl idx), if_pos rfl]
      exact hnext (by omega)
    · rw [if_neg (by omega), if_neg (by omega), h.high k hfar]
      exact hcrits _ (by omega) (by omega)

lemma keyAt_setCrit (a : Arrays) (i c k : ℕ) (hi : i < a.length) : (a.setCrit i c).keyAt res k = a.keyAt res k := by
  rw [keyAt, keyAt, setCrit_eq, entry_set _ _ _ _ hi]
  by_cases hk : k = i
  · rw [if_pos hk, hk]
  · rw [if_neg hk]

lemma critAt_setCrit (a : Arrays) {i : ℕ} (k : ℕ) (hi : i < a.length) (hc : c < 2 ^ 20) :
    (a.setCrit i c).critAt k = if k = i then c else a.critAt k := by
  rw [critAt, critAt, setCrit_eq, entry_set _ _ _ _ hi]
  by_cases hk : k = i
  · rw [if_pos hk, if_pos hk]
    exact shiftRight_metaWord hc _
  · rw [if_neg hk, if_neg hk]

lemma inserted_write (hidx : idx ≤ a.length) (x : ℕ) (hkey : res ref = q)
    (hfile : ref.fileId < 2 ^ 20) (hoff : ref.offset < 2 ^ 32) (hfp : fpq < 2 ^ 24) :
    Inserted res a ((a.openAt idx).write idx x fpq ref) idx q := by
  have hlen := length_openAt a hidx
  have hentry : ∀ k, entry ((a.openAt idx).write idx x fpq ref) k =
      if k = idx then ⟨metaWord x fpq, locWord fpq ref⟩ else if k ≤ idx then a.entry k else a.entry (k - 1) := by
    intro k
    rw [write, entry_set _ _ _ _ (by omega), entry_openAt _ _ _ hidx]
  refine ⟨hidx, ?_, fun k => ?_, fun k hk => ?_, fun k hk => ?_⟩
  · rw [write, length_set, hlen]
  · rw [keyAt, hentry]
    rcases lt_trichotomy k idx with hlt | rfl | hgt
    · rw [if_neg hlt.ne, if_pos hlt.le, if_pos hlt, keyAt]
    · rw [if_pos rfl, if_neg (lt_irrefl k), if_pos rfl, refOf_locWord hfile hoff hfp, hkey]
    · rw [if_neg hgt.ne', if_neg (not_le.2 hgt), if_neg hgt.not_gt, if_neg hgt.ne', keyAt]
  · rw [critAt, hentry, if_neg hk.ne, if_pos hk.le, critAt]
  · rw [critAt, hentry, if_neg (by omega), if_neg (by omega), critAt]

lemma critAt_write_self (hidx : idx ≤ a.length) (hx : x < 2 ^ 20) : ((a.openAt idx).write idx x fpq ref).critAt idx = x := by
  have hlen := length_openAt a hidx
  rw [critAt, write, entry_set _ _ _ _ (by omega), if_pos rfl]
  exact shiftRight_metaWord hx fpq

lemma critAt_openAt_next (hidx : idx ≤ a.length) : (a.openAt idx).critAt (idx + 1) = a.critAt idx := by
  rw [critAt, entry_openAt _ _ _ hidx, if_neg (by omega), Nat.add_sub_cancel, critAt]

lemma critAt_write_next (hidx : idx ≤ a.length) : ((a.openAt idx).write idx x fpq ref).critAt (idx + 1) = a.critAt idx := by
  have hlen := length_openAt a hidx
  rw [critAt, write, entry_set _ _ _ _ (by omega), if_neg (by omega)]
  exact critAt_openAt_next hidx

lemma Inserted.setCrit (h : Inserted res a b idx q) (hc : c < 2 ^ 20) (hlt : idx < a.length) :
    Inserted res a (b.setCrit (idx + 1) c) idx q := by
  have hlen := h.length
  have hin : idx + 1 < b.length := by omega
  refine ⟨h.le, ?_, fun k => ?_, fun k hk => ?_, fun k hk => ?_⟩
  · rw [setCrit_eq, length_set, hlen]
  · rw [keyAt_setCrit _ _ _ _ hin, h.key]
  · rw [critAt_setCrit _ _ hin hc, if_neg (by omega), h.low k hk]
  · rw [critAt_setCrit _ _ hin hc, if_neg (by omega), h.high k hk]

end Inserted

end Arrays

namespace Leaf

variable {n : Leaf}
variable {i : ℕ}

section

variable (h : n.Sound res)

include h

lemma Sound.keyAt_short (hi : i < n.arrays.length) : (n.arrays.keyAt res i).length ≤ 65535 :=
  h.short _ (Arrays.keyAt_mem hi)

lemma Sound.chain : Chain isSet (n.arrays.keyAt res) n.arrays.critAt n.arrays.length := by
  intro i hpos hi
  rw [h.crits i hpos hi]
  exact splits_crit (Arrays.keyAt_lt h.ascending (by omega) hi) (.inr (h.keyAt_short hi))

lemma Sound.critAt_lt (hpos : 0 < i) (hi : i < n.arrays.length) : n.arrays.critAt i < 2 ^ 20 := by
  rw [h.crits i hpos hi]
  exact crit_lt (Arrays.keyAt_lt h.ascending (by omega) hi).ne (.inr (h.keyAt_short hi))

lemma Sound.scan_reaches (q : Bytes) {lo hi : ℕ} (hlt : lo < hi) (hle : hi ≤ n.arrays.length) :
    Reaches n.arrays.critAt (isSet q) lo hi (n.arrays.scan q lo hi) := by
  apply Arrays.scan_reaches q hlt
  intro i hlo hhi
  exact (h.critAt_lt (by omega) (by omega)).trans (by decide)

lemma Sound.candidate_reaches (q : Bytes) (hne : 0 < n.arrays.length) :
    Reaches n.arrays.critAt (isSet q) 0 n.arrays.length (n.candidate q) := by
  obtain ⟨s, hindex, htop⟩ := Arrays.exists_index h.fits.le
  rw [← h.top] at htop
  obtain ⟨hlt, hle, hreach⟩ := Arrays.descend_spec hindex.slots htop q _ hne
    (fun _ => ⟨hindex.first.1.symm, hindex.first.2.symm⟩)
  exact hreach _ (h.scan_reaches q hlt hle)

lemma Sound.candidate_empty (q : Bytes) (hzero : n.arrays.length = 0) : n.candidate q = n.arrays.scan q 0 n.arrays.length := by
  obtain ⟨s, hindex, htop⟩ := Arrays.exists_index h.fits.le
  have hslot := hindex.slots 0 (by decide)
  rw [Arrays.SlotOk, hindex.first.1, hindex.first.2, hzero, if_pos (by decide), ← htop 0 (by decide), ← h.top] at hslot
  rw [candidate, show indexSlots = 14 + 1 from rfl, Arrays.descend, if_neg (fun hgo => hgo.2 hslot)]

lemma Sound.candidate_eq (q : Bytes) : n.candidate q = n.arrays.scan q 0 n.arrays.length := by
  rcases Nat.eq_zero_or_pos n.arrays.length with hzero | hpos
  · exact h.candidate_empty q hzero
  · exact h.chain.reaches_unique (h.candidate_reaches q hpos) (h.scan_reaches q hpos le_rfl)

end

/-- What `position` finds of a key that is not there: the entries before the place are smaller, those from it on are
larger, and the bits against both neighbours are known. -/
structure Placed (res : BlindRef → Bytes) (n : Leaf) (q : Bytes) (p : LeafPos) : Prop where
  le : p.idx ≤ n.arrays.length
  left : 0 < p.idx → Splits isSet (n.arrays.keyAt res (p.idx - 1)) q (if p.after then p.j else n.arrays.critAt p.idx)
  right : p.idx < n.arrays.length →
    Splits isSet q (n.arrays.keyAt res p.idx) (if p.after then n.arrays.critAt p.idx else p.j)
  some : p.after = false → 0 < n.arrays.length → p.idx < n.arrays.length

lemma Sound.position_cases (h : n.Sound res) (q : Bytes) :
    (∃ c < n.arrays.length, n.arrays.keyAt res c = q ∧ n.position res q = { idx := c, exact := true }) ∨
      (n.position res q).exact = false ∧ n.Placed res q (n.position res q) := by
  rw [position]
  by_cases hzero : n.arrays.length = 0
  · rw [if_pos hzero]
    exact .inr ⟨rfl, Nat.zero_le _, fun hlt => absurd hlt (lt_irrefl 0), fun hlt => absurd hlt (by omega),
      fun _ hlt => absurd hlt (by omega)⟩
  · rw [if_neg hzero]
    have hr := h.candidate_reaches q (Nat.pos_of_ne_zero hzero)
    generalize n.candidate q = c at hr
    have hshort : q.length ≤ 65535 ∨ (n.arrays.keyAt res c).length ≤ 65535 := .inr (h.keyAt_short hr.lt)
    by_cases heq : crit q (n.arrays.keyAt res c) = noCrit
    · rw [if_pos heq]
      exact .inl ⟨c, hr.lt, ((noCrit_iff hshort).1 heq).symm, rfl⟩
    · rw [if_neg heq]
      have hne : q ≠ n.arrays.keyAt res c := mt (noCrit_iff hshort).2 heq
      obtain ⟨hsame, hdiff⟩ := crit_differs hne hshort
      generalize crit q _ = j at hsame hdiff
      have hrun := n.arrays.isRun j hr.lt
      right
      by_cases hbit : bit q j ≠ 0
      · rw [if_pos hbit]
        obtain ⟨hleft, hright⟩ := hrun.after h.chain hr hsame hdiff (decide_eq_true hbit)
        exact ⟨rfl, hrun.le_end, fun _ => hleft, hright, fun h => by cases h⟩
      · rw [if_neg hbit]
        obtain ⟨hright, hleft⟩ := hrun.before h.chain hr hsame hdiff (decide_eq_false hbit)
        have hlt := hrun.le.trans_lt hr.lt
        exact ⟨rfl, hlt.le, hleft, fun _ => hright, fun _ _ => hlt⟩

section Placed

variable {q : Bytes} {p : LeafPos}
variable {i : ℕ}

lemma Placed.lt_of_lt (h : n.Sound res) (hp : n.Placed res q p) (hi : i < p.idx) : n.arrays.keyAt res i < q := by
  have hle := hp.le
  have hlast := lt_of_splits (hp.left (by omega)) (.inl (h.keyAt_short (by omega)))
  rcases (Nat.le_sub_one_of_lt hi).eq_or_lt with rfl | hlt
  · exact hlast
  · exact (Arrays.keyAt_lt h.ascending hlt (by omega)).trans hlast

lemma Placed.gt_of_ge (h : n.Sound res) (hp : n.Placed res q p) (hi : p.idx ≤ i) (hlen : i < n.arrays.length) :
    q < n.arrays.keyAt res i := by
  have hfirst := lt_of_splits (hp.right (by omega)) (.inr (h.keyAt_short (by omega)))
  rcases hi.eq_or_lt with rfl | hlt
  · exact hfirst
  · exact hfirst.trans (Arrays.keyAt_lt h.ascending hlt hlen)

lemma Placed.not_mem (h : n.Sound res) (hp : n.Placed res q p) : q ∉ n.arrays.keys res := by
  intro hmem
  obtain ⟨i, hi, rfl⟩ := mem_iff_getElem.1 hmem
  rw [Arrays.keys_getElem] at hp
  have hlen : i < n.arrays.length := by rwa [Arrays.length_keys] at hi
  rcases Nat.lt_or_ge i p.idx with hlt | hge
  · exact lt_irrefl _ (hp.lt_of_lt h hlt)
  · exact lt_irrefl _ (hp.gt_of_ge h hge hlen)

lemma Placed.idx_eq (h : n.Sound res) (hp : n.Placed res q p) : p.idx = (n.arrays.keys res).countP (· < q) := by
  have hlen := @Arrays.length_keys res n.arrays
  have hle := hp.le
  have hsplit := @countP_eq_of_split _ (fun k : Bytes => decide (k < q)) ((n.arrays.keys res).take p.idx)
    ((n.arrays.keys res).drop p.idx)
  rw [take_append_drop, length_take_of_le (by omega)] at hsplit
  symm
  apply hsplit
  · intro k hk
    obtain ⟨i, hi, rfl⟩ := mem_take_iff_getElem.1 hk
    rw [Arrays.keys_getElem]
    exact decide_eq_true (hp.lt_of_lt h (by omega))
  · intro k hk
    obtain ⟨i, hi, rfl⟩ := mem_drop_iff_getElem.1 hk
    rw [Arrays.keys_getElem]
    exact decide_eq_false (hp.gt_of_ge h (Nat.le_add_right _ _) (by omega)).not_gt

lemma Placed.insertInto (h : n.Sound res) (hp : n.Placed res q p) {fpq : ℕ} {ref : BlindRef} (hkey : res ref = q)
    (hfile : ref.fileId < 2 ^ 20) (hoff : ref.offset < 2 ^ 32) (hfp : fpq < 2 ^ 24) :
    (n.arrays.insertInto p fpq ref).keys res = (n.arrays.keys res).insertIdx p.idx q ∧
      (n.arrays.insertInto p fpq ref).Crits res := by
  have hle := hp.le
  have hwrite := fun x => @Arrays.inserted_write res _ p.idx q fpq ref hle x hkey hfile hoff hfp
  have hleft : 0 < p.idx → (if p.after then p.j else n.arrays.critAt p.idx) = crit (n.arrays.keyAt res (p.idx - 1)) q :=
    fun hpos => (crit_of_splits (hp.left hpos) (.inl (h.keyAt_short (by omega)))).symm
  have hright : p.idx < n.arrays.length →
      (if p.after then n.arrays.critAt p.idx else p.j) = crit q (n.arrays.keyAt res p.idx) :=
    fun hlt => (crit_of_splits (hp.right hlt) (.inr (h.keyAt_short hlt))).symm
  rw [Arrays.insertInto]
  by_cases hafter : p.after = true
  · rw [if_pos hafter]
    simp only [if_pos hafter] at hleft hright
    refine ⟨(hwrite p.j).keys, (hwrite p.j).crits h.crits (fun hpos => ?_) fun hlt => ?_⟩
    · have hne : n.arrays.keyAt res (p.idx - 1) ≠ q := (hp.lt_of_lt h (by omega)).ne
      have hsmall : p.j < 2 ^ 20 := hleft hpos ▸ crit_lt hne (.inl (h.keyAt_short (by omega)))
      rw [Arrays.critAt_write_self hle hsmall, hleft hpos]
    · rw [Arrays.critAt_write_next hle, hright hlt]
  · simp only [if_neg hafter] at hleft hright ⊢
    rcases Nat.eq_zero_or_pos n.arrays.length with hzero | hpos
    · rw [if_neg (by omega)]
      exact ⟨(hwrite _).keys, (hwrite _).crits h.crits (fun hpos => absurd hle (by omega)) fun hlt => absurd hlt (by omega)⟩
    · have hlt : p.idx < n.arrays.length := hp.some (Bool.not_eq_true _ ▸ hafter) hpos
      have hsmall : p.j < 2 ^ 20 :=
        hright hlt ▸ crit_lt (hp.gt_of_ge h le_rfl hlt).ne (.inr (h.keyAt_short hlt))
      rw [if_pos (Nat.succ_le_of_lt hlt), Arrays.critAt_openAt_next hle]
      have hset := (hwrite (if 0 < p.idx then n.arrays.critAt p.idx else 0)).setCrit hsmall hlt
      have hlen := (hwrite (if 0 < p.idx then n.arrays.critAt p.idx else 0)).length
      refine ⟨hset.keys, hset.crits h.crits (fun hpos => ?_) fun _ => ?_⟩
      · rw [Arrays.critAt_setCrit _ _ (by omega) hsmall, if_neg (by omega), if_pos hpos,
          Arrays.critAt_write_self hle (h.critAt_lt hpos hlt), hleft hpos]
      · rw [Arrays.critAt_setCrit _ _ (by omega) hsmall, if_pos rfl, hright hlt]

end Placed

lemma Sound.removeAt (h : n.Sound res) (hi : i < n.arrays.length) :
    (n.removeAt i).arrays.keys res = (n.arrays.keys res).eraseIdx i ∧ (n.removeAt i).arrays.Crits res := by
  have hinner : 0 < i → i + 1 < n.arrays.length →
      min (n.arrays.critAt i) (n.arrays.critAt (i + 1)) < 2 ^ 20 ∧
        min (n.arrays.critAt i) (n.arrays.critAt (i + 1)) = crit (n.arrays.keyAt res (i - 1)) (n.arrays.keyAt res (i + 1)) := by
    intro hpos hlast
    have hnext := h.chain (i + 1) (Nat.succ_pos i) hlast
    have hsplit := ((h.chain i hpos hi).trans hnext).2
    exact ⟨(min_le_left _ _).trans_lt (h.critAt_lt hpos hi), (crit_of_splits hsplit (.inr (h.keyAt_short hlast))).symm⟩
  have hmod : ∃ m : Arrays, (n.removeAt i).arrays = m.eraseIdx i ∧ m.length = n.arrays.length ∧
      (∀ k, m.keyAt res k = n.arrays.keyAt res k) ∧ (∀ k, k ≠ i + 1 → m.critAt k = n.arrays.critAt k) ∧
      (0 < i → i + 1 < n.arrays.length → m.critAt (i + 1) = min (n.arrays.critAt i) (n.arrays.critAt (i + 1))) := by
    by_cases hin : 0 < i ∧ i + 1 < n.arrays.length
    · refine ⟨n.arrays.setCrit (i + 1) (min (n.arrays.critAt i) (n.arrays.critAt (i + 1))), ?_, ?_, fun k => ?_, fun k hk => ?_,
        fun _ _ => ?_⟩
      · simp only [Leaf.removeAt, buildIndex, if_pos hin]
      · rw [Arrays.setCrit_eq, length_set]
      · exact Arrays.keyAt_setCrit _ _ _ _ hin.2
      · rw [Arrays.critAt_setCrit _ _ hin.2 (hinner hin.1 hin.2).1, if_neg hk]
      · rw [Arrays.critAt_setCrit _ _ hin.2 (hinner hin.1 hin.2).1, if_pos rfl]
    · refine ⟨n.arrays, ?_, rfl, fun _ => rfl, fun _ _ => rfl, fun hpos hlast => absurd ⟨hpos, hlast⟩ hin⟩
      simp only [Leaf.removeAt, buildIndex, if_neg hin]
  obtain ⟨m, hm, hlen, hkey, hsame, hmin⟩ := hmod
  have hkeys : m.keys res = n.arrays.keys res := by
    apply ext_getElem
    · rw [Arrays.length_keys, Arrays.length_keys, hlen]
    · intro k _ _
      rw [Arrays.keys_getElem, Arrays.keys_getElem, hkey]
  rw [hm]
  refine ⟨?_, fun k hpos hk => ?_⟩
  · rw [Arrays.keys, ← eraseIdx_map, ← hkeys, Arrays.keys]
  · have hk' : k + 1 < n.arrays.length := by
      rw [length_eraseIdx_of_lt (hlen ▸ hi)] at hk
      omega
    rw [Arrays.critAt, Arrays.keyAt, Arrays.keyAt, Arrays.entry_eraseIdx, Arrays.entry_eraseIdx]
    rcases lt_trichotomy k i with hlt | rfl | hgt
    · rw [if_pos hlt, if_pos (by omega)]
      have := h.crits k hpos (by omega)
      rw [← hsame k (by omega), ← hkey, ← hkey] at this
      exact this
    · rw [if_neg (lt_irrefl k), if_pos (by omega)]
      have := (hmin hpos hk').trans (hinner hpos hk').2
      rw [← hkey, ← hkey] at this
      exact this
    · rw [if_neg (by omega), if_neg (by omega), Nat.sub_add_cancel hpos]
      have := h.crits _ (by omega) hk'
      rw [← hsame _ (by omega), ← hkey, ← hkey] at this
      exact this

/-- A blind leaf places every key exactly though it reads only one, and keeps its bits right. -/
theorem blind_search_exact (h : n.Sound res) (q : Bytes) :
    ((n.position res q).exact = true ↔ q ∈ n.arrays.keys res) ∧
      ((n.position res q).exact = true → (n.arrays.keys res)[(n.position res q).idx]? = some q) ∧
      ((n.position res q).exact = false →
        (n.position res q).idx = (n.arrays.keys res).countP (· < q) ∧
        ∀ (fpq : ℕ) (ref : BlindRef), res ref = q → ref.fileId < 2 ^ 20 → ref.offset < 2 ^ 32 → fpq < 2 ^ 24 →
          (n.arrays.insertInto (n.position res q) fpq ref).keys res =
              (n.arrays.keys res).insertIdx (n.position res q).idx q ∧
            (n.arrays.insertInto (n.position res q) fpq ref).Crits res) ∧
      (∀ i < n.arrays.length,
        (n.removeAt i).arrays.keys res = (n.arrays.keys res).eraseIdx i ∧ (n.removeAt i).arrays.Crits res) ∧
      n.candidate q = n.arrays.scan q 0 n.arrays.length := by
  refine ⟨?_, ?_, ?_, fun i hi => h.removeAt hi, h.candidate_eq q⟩
  · rcases h.position_cases q with ⟨c, hc, hkey, hpos⟩ | ⟨hexact, hp⟩
    · rw [hpos]
      exact ⟨fun _ => hkey ▸ Arrays.keyAt_mem hc, fun _ => rfl⟩
    · rw [hexact]
      exact ⟨fun hf => (by cases hf), fun hmem => absurd hmem (hp.not_mem h)⟩
  · rcases h.position_cases q with ⟨c, hc, hkey, hpos⟩ | ⟨hexact, hp⟩
    · rw [hpos]
      exact fun _ => hkey ▸ Arrays.keys_getElem? hc
    · rw [hexact]
      exact fun hf => by cases hf
  · rcases h.position_cases q with ⟨c, hc, hkey, hpos⟩ | ⟨hexact, hp⟩
    · rw [hpos]
      exact fun hf => by cases hf
    · exact fun _ => ⟨hp.idx_eq h, fun fpq ref hkey hfile hoff hfp => hp.insertInto h hkey hfile hoff hfp⟩

def sampleKey (r : BlindRef) : Bytes := ([[97], [97, 0], [97, 98], [200], [97, 1]] : List Bytes).getD r.offset []

def sampleLeaf : Leaf :=
  buildIndex
    { arrays := [⟨0, locWord 0 ⟨1, 0⟩⟩, ⟨metaWord 16 0, locWord 0 ⟨1, 1⟩⟩, ⟨metaWord 18 0, locWord 0 ⟨1, 2⟩⟩,
        ⟨metaWord 1 0, locWord 0 ⟨1, 3⟩⟩]
      top := []
      lastPos := 0 }

lemma sampleLeaf_sound : sampleLeaf.Sound sampleKey := by
  refine ⟨by decide +kernel, by decide +kernel, fun i hpos hi => ?_, rfl, by decide⟩
  have hi' : i < 4 := hi
  interval_cases i <;> decide +kernel

theorem sampleLeaf_exact :
    (sampleLeaf.position sampleKey [97, 98]).exact = true ∧ (sampleLeaf.position sampleKey [97, 1]).idx = 2 ∧
      (sampleLeaf.arrays.insertInto (sampleLeaf.position sampleKey [97, 1]) 0 ⟨1, 4⟩).Crits sampleKey := by
  obtain ⟨hmem, -, -, -, -⟩ := blind_search_exact sampleLeaf_sound [97, 98]
  obtain ⟨-, -, hplace, -, -⟩ := blind_search_exact sampleLeaf_sound [97, 1]
  obtain ⟨hidx, hinsert⟩ := hplace (by decide +kernel)
  refine ⟨hmem.2 (by decide +kernel), hidx.trans (by decide +kernel), ?_⟩
  exact (hinsert 0 ⟨1, 4⟩ (by decide +kernel) (by decide) (by decide) (by decide)).2

end Leaf

end Bytecask.Tree
