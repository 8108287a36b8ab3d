import Mathlib

/-! Binary heaps in a list, and the least `n` of the elements seen so far. Of the algorithms that keep a heap and sort a
range only the contracts are used: where they put elements of one rank is open. -/

namespace Heap

open List

variable {α ρ : Type*} (before : α → α → Prop)

def IsHeap (l : List α) : Prop := ∀ i, ∀ a ∈ l[(i - 1) / 2]?, ∀ b ∈ l[i]?, ¬ before a b

structure Algorithms where
  pushHeap : List α → List α
  popHeap : List α → List α
  sort : List α → List α
  pushHeap_spec : ∀ l x, IsHeap before l → pushHeap (l ++ [x]) ~ l ++ [x] ∧ IsHeap before (pushHeap (l ++ [x]))
  popHeap_spec : ∀ x l, IsHeap before (x :: l) → ∃ rest, popHeap (x :: l) = rest ++ [x] ∧ rest ~ l ∧ IsHeap before rest
  sort_spec : ∀ l, sort l ~ l ∧ (sort l).Pairwise fun a b => ¬ before b a

variable {before} [LinearOrder ρ] {rank : α → ρ} {l kept kept' all : List α} {a x : α} {keep : ℕ}
  (hbefore : ∀ a b, before a b ↔ rank a < rank b)

include hbefore

lemma IsHeap.front (h : IsHeap before (a :: l)) : ∀ b ∈ l, rank b ≤ rank a := by
  have bound : ∀ i : ℕ, ∀ b ∈ (a :: l)[i]?, rank b ≤ rank a := by
    intro i
    -- along the parents of a place, down to the first
    induction i using Nat.strong_induction_on with
    | _ i ih =>
      intro b hb
      by_cases hi : i = 0
      · subst hi
        simp_all
      have hlt := (List.getElem?_eq_some_iff.1 hb).1
      have hparent : (i - 1) / 2 < i := by omega
      have hc := getElem?_eq_getElem (hparent.trans hlt)
      have hle := h i _ hc _ hb
      rw [hbefore, not_lt] at hle
      exact hle.trans (ih _ hparent _ hc)
  intro b hb
  obtain ⟨i, hi⟩ := mem_iff_getElem?.1 (mem_cons_of_mem a hb)
  exact bound i b hi

lemma isHeap_of_pairwise (h : l.Pairwise fun a b => rank b ≤ rank a) : IsHeap before l := by
  intro i a ha b hb
  obtain ⟨hi, rfl⟩ := List.getElem?_eq_some_iff.1 ha
  obtain ⟨hj, rfl⟩ := List.getElem?_eq_some_iff.1 hb
  rw [hbefore, not_lt]
  by_cases h0 : i = 0
  · subst h0
    exact le_refl _
  · exact pairwise_iff_getElem.1 h _ _ hi hj (by omega)

/-- Algorithms that meet the contracts, by sorting where a heap is wanted too. -/
def Algorithms.bySorting : Algorithms before where
  pushHeap := insertionSort (Order.Preimage rank (· ≥ ·))
  popHeap l := l.tail.insertionSort (Order.Preimage rank (· ≥ ·)) ++ l.head?.toList
  sort := insertionSort (Order.Preimage rank (· ≤ ·))
  pushHeap_spec _ _ _ := ⟨perm_insertionSort _ _, isHeap_of_pairwise hbefore (pairwise_insertionSort _ _)⟩
  popHeap_spec _ _ _ := ⟨_, rfl, perm_insertionSort _ _, isHeap_of_pairwise hbefore (pairwise_insertionSort _ _)⟩
  sort_spec _ := by
    simp only [hbefore, not_lt]
    exact ⟨perm_insertionSort _ _, pairwise_insertionSort _ _⟩

omit hbefore

/-- The first `keep` elements of a list, or all of it when `keep` is zero. -/
def cut (keep : ℕ) (l : List α) : List α := if keep = 0 then l else l.take keep

variable (rank) in
/-- `kept` are `keep` of `all` with no smaller one left out, or all of them where they are not that many yet. -/
def Least (keep : ℕ) (all kept : List α) : Prop :=
  ∃ dropped, all ~ kept ++ dropped ∧ (∀ e ∈ kept, ∀ d ∈ dropped, rank e ≤ rank d) ∧
    (keep ≠ 0 → kept.length ≤ keep) ∧ (dropped = [] ∨ keep ≠ 0 ∧ kept.length = keep)

lemma Least.nil : Least rank keep [] [] := ⟨[], .refl _, by simp, by simp, .inl rfl⟩

lemma Least.subset (h : Least rank keep all kept) : kept ⊆ all := by
  obtain ⟨dropped, hall, -⟩ := h
  exact fun e he => hall.mem_iff.2 (mem_append_left _ he)

lemma Least.room (h : Least rank keep all kept) (hroom : ¬ (keep ≠ 0 ∧ kept.length = keep)) (hk : kept' ~ kept ++ [x]) :
    Least rank keep (all ++ [x]) kept' := by
  obtain ⟨dropped, hall, -, hlen, hd⟩ := h
  obtain rfl : dropped = [] := hd.resolve_right hroom
  rw [append_nil] at hall
  refine ⟨[], ?_, by simp, ?_, .inl rfl⟩
  · rw [append_nil]
    exact (hall.append_right [x]).trans hk.symm
  · intro h0
    have := hk.length_eq
    simp only [length_append, length_singleton] at this
    omega

lemma Least.refuse (h : Least rank keep all kept) (hfull : keep ≠ 0 ∧ kept.length = keep)
    (hx : ∀ e ∈ kept, rank e ≤ rank x) : Least rank keep (all ++ [x]) kept := by
  obtain ⟨dropped, hall, hle, hlen, -⟩ := h
  refine ⟨dropped ++ [x], ?_, ?_, hlen, .inr hfull⟩
  · rw [← append_assoc]
    exact hall.append_right [x]
  · intro e he d hd
    rcases mem_append.1 hd with hd | hd
    · exact hle e he d hd
    · rw [mem_singleton.1 hd]
      exact hx e he

lemma Least.replace {rest : List α} (h : Least rank keep all (a :: l)) (hfull : keep ≠ 0 ∧ (a :: l).length = keep)
    (ha : ∀ b ∈ l, rank b ≤ rank a) (hx : rank x ≤ rank a) (hrest : rest ~ l) (hk : kept' ~ rest ++ [x]) :
    Least rank keep (all ++ [x]) kept' := by
  obtain ⟨dropped, hall, hle, hlen, -⟩ := h
  have hkl : kept'.length = (a :: l).length := by
    rw [hk.length_eq, length_append, hrest.length_eq, length_singleton, length_cons]
  have hka : ∀ e ∈ kept', rank e ≤ rank a := by
    intro e he
    rcases mem_append.1 (hk.mem_iff.1 he) with he | he
    · exact ha e (hrest.mem_iff.1 he)
    · rw [mem_singleton.1 he]
      exact hx
  refine ⟨a :: dropped, ?_, ?_, by rw [hkl]; exact hlen, .inr (by rw [hkl]; exact hfull)⟩
  · calc all ++ [x] ~ a :: l ++ dropped ++ [x] := hall.append_right [x]
      _ ~ a :: ((l ++ [x]) ++ dropped) := by
        simp only [cons_append, append_assoc]
        exact ((perm_append_comm.append_left l)).cons a
      _ ~ (l ++ [x]) ++ a :: dropped := perm_middle.symm
      _ ~ kept' ++ a :: dropped := ((hk.trans (hrest.append_right [x])).symm).append_right _
  · intro e he d hd
    rcases mem_cons.1 hd with rfl | hd
    · exact hka e he
    · exact (hka e he).trans (hle a mem_cons_self d hd)

include hbefore in
/-- Sorted by any algorithm they are a sort of all the elements, cut. -/
lemma Least.sorted [DecidableRel before] (A : Algorithms before) (h : Least rank keep all kept)
    (hinj : ∀ a ∈ all, ∀ b ∈ all, rank a = rank b → a = b) :
    A.sort kept = cut keep (all.insertionSort fun a b => ¬ before b a) := by
  obtain ⟨dropped, hall, hle, hlen, hd⟩ := h
  obtain ⟨hk, hks⟩ := A.sort_spec kept
  obtain ⟨hdp, hds⟩ := A.sort_spec dropped
  have hperm : A.sort kept ++ A.sort dropped ~ all := (hk.append hdp).trans hall.symm
  have hpairs : ∀ (r : α → α → Prop) [DecidableRel r], r = Order.Preimage rank (· ≤ ·) → (all.insertionSort r).Pairwise r := by
    rintro _ _ rfl
    exact pairwise_insertionSort _ _
  have hsorted : (all.insertionSort fun a b => ¬ before b a) = A.sort kept ++ A.sort dropped := by
    refine Perm.eq_of_pairwise ?_ (hpairs _ ?_) ?_ ((perm_insertionSort _ _).trans hperm.symm)
    · intro a b ha hb hab hba
      rw [hbefore, not_lt] at hab hba
      exact hinj a ((mem_insertionSort _).1 ha) b (hperm.mem_iff.1 hb) (le_antisymm hab hba)
    · funext a b
      rw [hbefore, not_lt, Order.Preimage]
    · refine pairwise_append.2 ⟨hks, hds, fun e he d hd => ?_⟩
      rw [hbefore, not_lt]
      exact hle e (hk.mem_iff.1 he) d (hdp.mem_iff.1 hd)
  rw [hsorted, cut]
  have hkl := hk.length_eq
  by_cases h0 : keep = 0
  · obtain rfl : dropped = [] := hd.resolve_right fun h => h.1 h0
    rw [if_pos h0, hdp.eq_nil, append_nil]
  · rw [if_neg h0]
    rcases hd with rfl | hd
    · rw [hdp.eq_nil, append_nil, take_of_length_le (by rw [hkl]; exact hlen h0)]
    · rw [take_left' (by rw [hkl]; exact hd.2)]

end Heap
