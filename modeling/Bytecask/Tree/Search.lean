import Bytecask.Lib.Rank
import Bytecask.Tree.Node

/-! The search of a slotted page is a lower bound: shared beginning, hints, heads and suffixes together. -/

namespace Bytecask.Tree

open List

section Order

variable {a b : Bytes}

lemma append_lt_append_iff (c : Bytes) : c ++ a < c ++ b ↔ a < b := by
  induction c with
  | nil => rfl
  | cons x c ih => simp [ih]

lemma eq_append_of_common (h : a.length ≤ commonBytes a b) : b = a ++ b.drop a.length := by
  induction a generalizing b with
  | nil => rfl
  | cons x a ih =>
    cases b with
    | nil => simp [commonBytes] at h
    | cons y b =>
      rw [commonBytes] at h
      by_cases hxy : x = y
      · rw [if_pos hxy, length_cons, Nat.add_le_add_iff_right] at h
        rw [hxy, cons_append, length_cons, drop_succ_cons, ← ih h]
      · rw [if_neg hxy] at h
        simp at h

lemma apart_of_common (h : commonBytes a b < a.length) (s : Bytes) :
    if commonBytes a b = b.length ∨ b.getD (commonBytes a b) 0 < a.getD (commonBytes a b) 0 then b < a ++ s
    else a ++ s < b := by
  induction a generalizing b with
  | nil => simp at h
  | cons x a ih =>
    cases b with
    | nil => simp [commonBytes]
    | cons y b =>
      rw [commonBytes] at h ⊢
      by_cases hxy : x = y
      · subst hxy
        have hrec := ih (by simpa using h) (b := b)
        simpa [cons_lt_cons_iff] using hrec
      · rw [if_neg hxy]
        by_cases hyx : y < x
        · simpa [hyx] using cons_lt_cons_iff.2 (.inl hyx)
        · have hlt : x < y := lt_of_le_of_ne (not_lt.1 hyx) hxy
          simpa [hyx] using cons_lt_cons_iff.2 (.inl hlt)

end Order

def IsLowerBound (keys : List Bytes) (q : Bytes) (p : Pos) : Prop :=
  p.idx = keys.countP (· < q) ∧ (p.exact = true ↔ keys[p.idx]? = some q)

section Facts

variable {P : Type} {n : Node P}
variable {i : ℕ} {q x : Bytes} {front rest : List Bytes}

lemma length_keys (n : Node P) : n.keys.length = n.count := by simp [Node.keys, Node.suffixes, Node.count]

lemma suffixOf_head (h : Laid n) {s : ℕ} (hs : s ∈ n.slots) : slotHead s = headOf (n.suffixOf s) := by
  obtain ⟨e, he, hhead⟩ := h.slots s hs
  rw [Node.suffixOf, he]
  exact hhead

lemma suffixes_sorted (h : n.keys.Pairwise (· < ·)) : n.slots.Pairwise (fun s t => n.suffixOf s < n.suffixOf t) := by
  rw [Node.keys, Node.suffixes, map_map, pairwise_map] at h
  exact h.imp fun hst => (append_lt_append_iff _).1 hst

lemma heads_sorted (hl : Laid n) (h : n.keys.Pairwise (· < ·)) : n.slots.Pairwise (fun s t => slotHead s ≤ slotHead t) := by
  apply (suffixes_sorted h).imp_of_mem
  intro s t hs ht hst
  rw [suffixOf_head hl hs, suffixOf_head hl ht]
  exact headOf_le hst.le

lemma head_getElem_le (hl : Laid n) (h : n.keys.Pairwise (· < ·)) {j : ℕ} (hij : i ≤ j) (hj : j < n.slots.length) :
    slotHead (n.slots.getD i 0) ≤ slotHead (n.slots.getD j 0) := by
  rw [getD_eq_getElem _ _ hj, getD_eq_getElem _ _ (hij.trans_lt hj)]
  rcases hij.eq_or_lt with rfl | hlt
  · exact le_rfl
  · exact pairwise_iff_getElem.1 (heads_sorted hl h) i j _ hj hlt

lemma hint_place_lt {len : ℕ} (hi : i < hintCount) (hlen : hintMinCount ≤ len) : (i + 1) * (len / (hintCount + 1)) < len := by
  have hdist := Nat.div_mul_le_self len (hintCount + 1)
  have hle : (i + 1) * (len / (hintCount + 1)) ≤ hintCount * (len / (hintCount + 1)) := Nat.mul_le_mul_right _ hi
  have hpos : 0 < len / (hintCount + 1) := Nat.div_pos (by simp [hintMinCount, hintCount] at *; omega) (by decide)
  rw [Nat.mul_succ, Nat.mul_comm] at hdist
  omega

lemma sample_getElem {slots : List ℕ} (hi : i < (sample slots).length) :
    (sample slots)[i] = slotHead (slots.getD ((i + 1) * (slots.length / (hintCount + 1))) 0) := by
  simp [sample]

lemma hint_lt_iff (hl : Laid n) (h : n.keys.Pairwise (· < ·)) (hc : hintMinCount ≤ n.count) (head : ℕ) (hi : i < hintCount) :
    i < n.hints.countP (· < head) ↔ slotHead (n.slots.getD ((i + 1) * (n.count / (hintCount + 1))) 0) < head := by
  have hsorted : (sample n.slots).Pairwise (· ≤ ·) := by
    rw [sample, pairwise_map]
    refine pairwise_lt_range.imp_of_mem ?_
    intro a b _ hb hab
    apply head_getElem_le hl h (Nat.mul_le_mul_right _ (by omega))
    exact hint_place_lt (mem_range.1 hb) hc
  have hlen : i < (sample n.slots).length := by simpa [sample] using hi
  rw [hl.hints hc, lt_countP_iff hsorted (fun a b hab hb => by simp at hb ⊢; omega) hlen, sample_getElem]
  simp [Node.count]

lemma run_spec (hl : Laid n) (h : n.keys.Pairwise (· < ·)) (head : ℕ) :
    (n.run head).1 ≤ (n.run head).2 ∧ (n.run head).1 ≤ n.count ∧
      (∀ i < (n.run head).1, slotHead (n.slots.getD i 0) < head) ∧
      ∀ i < n.count, (n.run head).2 ≤ i → ¬ slotHead (n.slots.getD i 0) < head := by
  rw [Node.run]
  by_cases hc : hintMinCount ≤ n.count
  · rw [if_pos hc]
    have hiff := fun i => @hint_lt_iff P n i hl h hc head
    have hplace := fun i hi => @hint_place_lt i _ hi hc
    have hk : n.hints.countP (· < head) ≤ hintCount := by
      have := countP_le_length (p := fun x => decide (x < head)) (l := n.hints)
      rw [hl.hints hc] at this ⊢
      simpa [sample] using this
    generalize n.hints.countP (· < head) = k at hk hiff ⊢
    generalize n.count / (hintCount + 1) = dist at hiff hplace ⊢
    dsimp only
    have hbelow : ∀ j, k = j + 1 → (j + 1) * dist < n.count ∧ slotHead (n.slots.getD ((j + 1) * dist) 0) < head :=
      fun j hj => ⟨hplace j (by omega), (hiff j (by omega)).1 (by omega)⟩
    have hlo : (if k = 0 then 0 else k * dist + 1) ≤ n.count ∧
        ∀ i < (if k = 0 then 0 else k * dist + 1), slotHead (n.slots.getD i 0) < head := by
      cases k with
      | zero => exact ⟨Nat.zero_le _, fun i hi => absurd hi (Nat.not_lt_zero i)⟩
      | succ j =>
        obtain ⟨hlt, hhead⟩ := hbelow j rfl
        exact ⟨hlt, fun i hi => (head_getElem_le hl h (Nat.le_of_lt_succ hi) hlt).trans_lt hhead⟩
    refine ⟨?_, hlo.1, hlo.2, ?_⟩
    · by_cases hlast : k = hintCount
      · rw [if_pos hlast]
        exact hlo.1
      · rw [if_neg hlast, Nat.add_mul]
        split_ifs <;> omega
    · intro i hi hle
      by_cases hlast : k = hintCount
      · rw [if_pos hlast] at hle
        exact absurd hle (not_le.2 hi)
      · rw [if_neg hlast] at hle
        have hk' : k < hintCount := lt_of_le_of_ne hk hlast
        have hhead := mt (hiff k hk').2 (lt_irrefl k)
        exact fun hlt => hhead ((head_getElem_le hl h (by omega) hi).trans_lt hlt)
  · rw [if_neg hc]
    refine ⟨Nat.zero_le _, Nat.zero_le _, fun i hi => absurd hi (Nat.not_lt_zero i), fun i hi hle => ?_⟩
    exact absurd hle (not_le.2 hi)

lemma rank_of_run (hl : Laid n) (h : n.keys.Pairwise (· < ·)) (head : ℕ) :
    (n.run head).1 + ((n.slots.drop (n.run head).1).take ((n.run head).2 - (n.run head).1)).countP (· < head <<< 32) =
      n.slots.countP (slotHead · < head) := by
  obtain ⟨hle, hlen, hlo, hhi⟩ := run_spec hl h head
  have hpred : (fun s : ℕ => decide (s < head <<< 32)) = fun s => decide (slotHead s < head) := by
    funext s
    exact decide_eq_decide.2 (lt_target_iff s head)
  rw [hpred]
  symm
  apply countP_window hle hlen
  · intro s hs
    obtain ⟨i, hi, rfl⟩ := mem_take_iff_getElem.1 hs
    have := hlo i (by omega)
    rw [getD_eq_getElem _ _ (by omega)] at this
    exact decide_eq_true this
  · intro s hs
    obtain ⟨i, hi, rfl⟩ := mem_drop_iff_getElem.1 hs
    have hi' : (n.run head).2 + i < n.slots.length := by omega
    have := hhi _ hi' (Nat.le_add_right _ _)
    rw [getD_eq_getElem _ _ hi'] at this
    exact decide_eq_false this

lemma rank_here (hsorted : (front ++ x :: rest).Pairwise (· < ·))
    (hfront : ∀ a ∈ front, a < q) (hx : q ≤ x) : front.length = (front ++ x :: rest).countP (· < q) := by
  symm
  apply countP_eq_of_split
  · exact fun a ha => decide_eq_true (hfront a ha)
  · intro a ha
    apply decide_eq_false
    rw [not_lt]
    rcases mem_cons.1 ha with rfl | ha
    · exact hx
    · exact hx.trans (rel_of_pairwise_cons (pairwise_append.1 hsorted).2.1 ha).le

lemma isLowerBound_above (hsorted : (front ++ x :: rest).Pairwise (· < ·))
    (hfront : ∀ a ∈ front, a < q) (hx : q < x) : IsLowerBound (front ++ x :: rest) q ⟨front.length, false⟩ := by
  refine ⟨rank_here hsorted hfront hx.le, fun h => (by cases h), fun h => ?_⟩
  rw [List.getElem?_append_right le_rfl, Nat.sub_self, List.getElem?_cons_zero] at h
  exact absurd (Option.some.inj h) hx.ne'

lemma scanHead_spec (hl : Laid n) {suf : Bytes} {front rest : List ℕ}
    (hsorted : ((front ++ rest).map n.suffixOf).Pairwise (· < ·)) (hmem : ∀ s ∈ rest, s ∈ n.slots)
    (hfront : ∀ a ∈ front.map n.suffixOf, a < suf) (hrest : ∀ s ∈ rest, headOf suf ≤ slotHead s) :
    IsLowerBound ((front ++ rest).map n.suffixOf) suf (n.scanHead (headOf suf) suf front.length rest) := by
  induction rest generalizing front with
  | nil =>
    have hrank := @countP_eq_of_split _ (fun a => decide (a < suf)) _ []
      (fun a ha => decide_eq_true (hfront a ha)) (fun a ha => (not_mem_nil ha).elim)
    rw [append_nil] at hrank ⊢
    exact ⟨by simp [Node.scanHead, hrank], by simp [Node.scanHead]⟩
  | cons s rest ih =>
    have hlen : front.length = (front.map n.suffixOf).length := by rw [length_map]
    rw [Node.scanHead]
    by_cases hhead : slotHead s = headOf suf
    · rw [if_pos hhead]
      cases hcmp : compareBytes _ suf with
      | lt =>
        have hlt := compareBytes_lt.1 hcmp
        have hfront' : ∀ a ∈ (front ++ [s]).map n.suffixOf, a < suf := by
          intro a ha
          rw [map_append] at ha
          exact (mem_append.1 ha).elim (hfront a) fun h => (mem_singleton.1 h) ▸ hlt
        have hstep := @ih _ (by simpa using hsorted) (fun t ht => hmem t (mem_cons_of_mem s ht))
          hfront' (fun t ht => hrest t (mem_cons_of_mem s ht))
        simpa using hstep
      | eq =>
        rw [map_append, map_cons] at hsorted ⊢
        have heq := compareBytes_eq.1 hcmp
        refine ⟨hlen.trans (rank_here hsorted hfront heq.ge), fun _ => ?_, fun _ => rfl⟩
        rw [hlen, List.getElem?_append_right le_rfl, Nat.sub_self, List.getElem?_cons_zero, heq]
      | gt =>
        rw [map_append, map_cons] at hsorted ⊢
        rw [hlen]
        exact isLowerBound_above hsorted hfront (compareBytes_gt.1 hcmp)
    · have hlt : headOf suf < headOf (n.suffixOf s) := by
        rw [← suffixOf_head hl (hmem s mem_cons_self)]
        exact lt_of_le_of_ne (hrest s mem_cons_self) (Ne.symm hhead)
      have hgt : suf < n.suffixOf s := not_le.1 fun hle => absurd (headOf_le hle) (not_le.2 hlt)
      rw [if_neg hhead, hlen]
      rw [map_append, map_cons] at hsorted ⊢
      exact isLowerBound_above hsorted hfront hgt

lemma search_inside (hl : Laid n) (h : n.keys.Pairwise (· < ·)) (suf : Bytes) :
    IsLowerBound n.suffixes suf
      (n.scanHead (headOf suf) suf (n.slots.countP (slotHead · < headOf suf))
        (n.slots.drop (n.slots.countP (slotHead · < headOf suf)))) := by
  have hdown : ∀ s t : ℕ, slotHead s ≤ slotHead t → decide (slotHead t < headOf suf) = true →
      decide (slotHead s < headOf suf) = true := by
    intro s t hst ht
    exact decide_eq_true (hst.trans_lt (of_decide_eq_true ht))
  have hplace := fun i hi => @lt_countP_iff _ (fun s => decide (slotHead s < headOf suf)) _ _ (heads_sorted hl h) hdown i hi
  have hle := countP_le_length (p := fun s => decide (slotHead s < headOf suf)) (l := n.slots)
  generalize n.slots.countP (slotHead · < headOf suf) = pos at hplace hle ⊢
  have hsplit : n.slots.take pos ++ n.slots.drop pos = n.slots := take_append_drop pos _
  have hlen : (n.slots.take pos).length = pos := length_take_of_le hle
  have hspec := @scanHead_spec P n hl suf (n.slots.take pos) (n.slots.drop pos)
  rw [hsplit, hlen] at hspec
  apply hspec
  · exact pairwise_map.2 (suffixes_sorted h)
  · exact fun s hs => mem_of_mem_drop hs
  · intro a ha
    obtain ⟨s, hs, rfl⟩ := mem_map.1 ha
    obtain ⟨i, hi, rfl⟩ := mem_take_iff_getElem.1 hs
    have hlt := of_decide_eq_true ((hplace i (by omega)).1 (by omega))
    rw [suffixOf_head hl (getElem_mem _)] at hlt
    exact not_le.1 fun hge => absurd (headOf_le hge) (not_le.2 hlt)
  · intro s hs
    obtain ⟨i, hi, rfl⟩ := mem_drop_iff_getElem.1 hs
    have hge := mt (hplace (pos + i) (by omega)).2 (by omega)
    simpa using hge

lemma isLowerBound_append {xs : List Bytes} {p : Pos} (c : Bytes) (h : IsLowerBound xs q p) :
    IsLowerBound (xs.map (c ++ ·)) (c ++ q) p := by
  constructor
  · rw [countP_map, h.1]
    congr 1
    funext a
    exact decide_eq_decide.2 (append_lt_append_iff c).symm
  · rw [h.2, List.getElem?_map]
    cases xs[p.idx]? with
    | none => simp
    | some a => simp

lemma search_isLowerBound (hl : Laid n) (h : n.keys.Pairwise (· < ·)) (key : Bytes) :
    IsLowerBound n.keys key (n.search key) := by
  have hkeys : ∀ k ∈ n.keys, ∃ s, k = n.shared ++ s := by
    intro k hk
    obtain ⟨s, -, rfl⟩ := mem_map.1 hk
    exact ⟨s, rfl⟩
  rw [Node.search, commonPrefixLength_eq]
  dsimp only
  by_cases hout : commonBytes n.shared key < n.shared.length
  · rw [if_pos hout]
    have hapart := apart_of_common hout
    by_cases hbelow : commonBytes n.shared key = key.length ∨
        key.getD (commonBytes n.shared key) 0 < n.shared.getD (commonBytes n.shared key) 0
    · rw [if_pos hbelow]
      simp only [if_pos hbelow] at hapart
      have hall : ∀ k ∈ n.keys, key < k := by
        intro k hk
        obtain ⟨s, rfl⟩ := hkeys k hk
        exact hapart s
      refine ⟨?_, fun h => (by cases h), fun h => absurd (hall _ (mem_of_getElem? h)) (lt_irrefl _)⟩
      symm
      exact countP_eq_zero.2 fun k hk hlt => (hall k hk).not_gt (of_decide_eq_true hlt)
    · rw [if_neg hbelow]
      simp only [if_neg hbelow] at hapart
      have hall : ∀ k ∈ n.keys, k < key := by
        intro k hk
        obtain ⟨s, rfl⟩ := hkeys k hk
        exact hapart s
      refine ⟨?_, fun h => (by cases h), fun h => absurd (hall _ (mem_of_getElem? h)) (lt_irrefl _)⟩
      rw [← length_keys]
      symm
      exact countP_eq_length.2 fun k hk => decide_eq_true (hall k hk)
  · rw [if_neg hout]
    have hkey := eq_append_of_common (not_lt.1 hout)
    have hin := isLowerBound_append n.shared (search_inside hl h (key.drop n.shared.length))
    rw [← hkey] at hin
    rw [rank_of_run hl h]
    exact hin

lemma lt_childIndex_iff (hl : Laid n) (h : n.keys.Pairwise (· < ·)) (key : Bytes) (hi : i < n.keys.length) :
    i < n.childIndex key ↔ n.keys[i] ≤ key := by
  obtain ⟨hidx, hexact⟩ := search_isLowerBound hl h key
  have hrank : ∀ j, ∀ hj : j < n.keys.length, j < (n.search key).idx ↔ n.keys[j] < key := by
    intro j hj
    have hdown : ∀ a b : Bytes, a < b → decide (b < key) = true → decide (a < key) = true :=
      fun a b hab hb => decide_eq_true (hab.trans (of_decide_eq_true hb))
    rw [hidx, lt_countP_iff h hdown hj, decide_eq_true_iff]
  have hsorted := pairwise_iff_getElem.1 h
  rw [Node.childIndex]
  by_cases hfound : (n.search key).exact = true
  · rw [if_pos hfound]
    obtain ⟨hlt, hkey⟩ := List.getElem?_eq_some_iff.1 (hexact.1 hfound)
    constructor
    · intro hle
      rcases (Nat.le_of_lt_succ hle).lt_or_eq with hlt' | heq
      · exact ((hrank i hi).1 hlt').le
      · subst heq
        exact hkey.le
    · intro hle
      by_contra hge
      exact absurd (hkey ▸ hsorted _ i hlt hi (by omega)) (not_lt.2 hle)
  · rw [if_neg hfound]
    rw [hrank i hi]
    refine ⟨le_of_lt, fun hle => lt_of_le_of_ne hle fun heq => ?_⟩
    -- the key would be at its own rank, where the search found another
    have hnot : ¬ i < (n.search key).idx := mt (hrank i hi).1 heq.not_lt
    have hplace : (n.search key).idx = i := by
      rcases (not_lt.1 hnot).eq_or_lt with heq' | hlt
      · exact heq'
      · have hsmall := hsorted _ i (hlt.trans hi) hi hlt
        exact absurd ((hrank _ _).2 (heq ▸ hsmall)) (lt_irrefl _)
    exact hfound (hexact.2 (by rw [hplace, List.getElem?_eq_getElem hi, heq]))

lemma childIndex_le (hl : Laid n) (h : n.keys.Pairwise (· < ·)) (key : Bytes) : n.childIndex key ≤ n.count := by
  obtain ⟨hidx, hexact⟩ := search_isLowerBound hl h key
  rw [Node.childIndex, ← length_keys]
  by_cases hfound : (n.search key).exact = true
  · rw [if_pos hfound]
    exact (List.getElem?_eq_some_iff.1 (hexact.1 hfound)).1
  · rw [if_neg hfound, hidx]
    exact countP_le_length

def Node.interval (n : Node P) (i : ℕ) : Set Bytes :=
  {key | (∀ s, 0 < i → n.keys[i - 1]? = some s → s ≤ key) ∧ ∀ s, n.keys[i]? = some s → key < s}

lemma mem_interval_iff (hl : Laid n) (h : n.keys.Pairwise (· < ·)) (key : Bytes) (hi : i ≤ n.count) :
    key ∈ n.interval i ↔ i = n.childIndex key := by
  rw [← length_keys] at hi
  constructor
  · rintro ⟨hleft, hright⟩
    rcases lt_trichotomy i (n.childIndex key) with hlt | heq | hgt
    · have hin : i < n.keys.length := hlt.trans_le (length_keys n ▸ childIndex_le hl h key)
      have hle := (lt_childIndex_iff hl h key hin).1 hlt
      exact absurd (hright _ (List.getElem?_eq_getElem hin)) (not_lt.2 hle)
    · exact heq
    · have hin : i - 1 < n.keys.length := by omega
      have hle := hleft _ (by omega) (List.getElem?_eq_getElem hin)
      have := (lt_childIndex_iff hl h key hin).2 hle
      omega
  · rintro rfl
    constructor
    · intro s hpos hs
      obtain ⟨hin, rfl⟩ := List.getElem?_eq_some_iff.1 hs
      exact (lt_childIndex_iff hl h key hin).1 (by omega)
    · intro s hs
      obtain ⟨hin, rfl⟩ := List.getElem?_eq_some_iff.1 hs
      exact not_le.1 (mt (lt_childIndex_iff hl h key hin).2 (lt_irrefl _))

end Facts

/-- However a node came about, its search is a lower bound over its keys, and descends into the child whose
separators enclose the key. -/
theorem search_places {P : Type} {L : Layout} {trivial : Bool} {n : Node P} (hn : (nodes L trivial).Reachable n)
    (h : n.keys.Pairwise (· < ·)) (key : Bytes) :
    (n.search key).idx = n.keys.countP (· < key) ∧
      ((n.search key).exact = true ↔ n.keys[(n.search key).idx]? = some key) ∧
      n.childIndex key ≤ n.count ∧ ∀ i ≤ n.count, key ∈ n.interval i ↔ i = n.childIndex key := by
  have hl := laid_of_reachable hn
  obtain ⟨hidx, hexact⟩ := search_isLowerBound hl h key
  exact ⟨hidx, hexact, childIndex_le hl h key, fun i hi => mem_interval_iff hl h key hi⟩

def sampleLayout : Layout := ⟨16, 8, le_rfl⟩

def hinted : Node ℕ :=
  Node.pack sampleLayout true ((List.range hintMinCount).map fun i => ⟨[Fin.ofNat 256 (2 * i)], i⟩) 0

theorem hinted_places :
    hinted.keys.Pairwise (· < ·) ∧ (hinted.search [41]).idx = hinted.keys.countP (· < [41]) ∧
      (hinted.search [40]).exact = true := by
  have hreach : (nodes sampleLayout true).Reachable hinted :=
    .start ⟨true, _, 0, ⟨by decide +kernel, by decide +kernel, by decide +kernel⟩, rfl⟩
  have hsorted : hinted.keys.Pairwise (· < ·) := by decide +kernel
  refine ⟨hsorted, (search_places hreach hsorted [41]).1, ?_⟩
  exact (search_places hreach hsorted [40]).2.1.2 (by decide +kernel)

end Bytecask.Tree
