import Bytecask.Sql.Scan

/-! A count through the view is the number of keys it shows. -/

namespace Bytecask.Sql

open List RangeSet SortedMap

variable {snap n : SortedMap Bytes Bytes} {o : Overlay} {b : Budget} {lo hi : Bytes}

lemma gives_foldlM {α β : Type} {step : β → α → Read β} {f : β → α → β} (h : ∀ acc x, Gives b (step acc x) (fun r => r = f acc x))
    (l : List α) (acc : β) : Gives b (l.foldlM step acc) (fun r => r = l.foldl f acc) := by
  induction l generalizing acc with
  | nil => exact Gives.pure rfl
  | cons x l ih =>
    refine (h acc x).bind ?_
    rintro acc' rfl
    exact ih _

lemma gives_countKeys (h : lo < hi) : Gives b (countKeys snap lo hi) (fun c => c = (snap.range lo hi).length) := by
  rw [countKeys, if_pos h]
  exact Gives.pure rfl

section Ranges

lemma sorted_from (o : Overlay) (lo : Bytes) :
    ((o.rangeAt lo).toList ++ o.ranges.after lo).Pairwise (fun r r' => r.1 < r'.1) := by
  have hafter : (o.ranges.after lo).Pairwise (fun r r' => r.1 < r'.1) :=
    o.ranges.bounds.sorted.sublist (dropWhile_suffix _).sublist
  cases hr : o.rangeAt lo with
  | none => exact hafter
  | some r =>
    obtain ⟨-, hlo, -⟩ := rangeAt_eq_some.1 hr
    refine pairwise_cons.2 ⟨fun r' hr' => ?_, hafter⟩
    exact hlo.trans_lt (mem_after.1 hr').2

lemma mem_countedRanges {r : Bytes × Bytes} :
    r ∈ countedRanges o lo hi ↔ r ∈ o.ranges.bounds.entries ∧ lo < r.2 ∧ r.1 < hi := by
  rw [countedRanges, takeWhile_eq_filter (sorted_from o lo), mem_filter, mem_append, Option.mem_toList,
    mem_after]
  · simp only [Overlay.rangeAt, rangeAt_eq_some, decide_eq_true_eq]
    constructor
    · rintro ⟨⟨hr, -, hlt⟩ | ⟨hr, hlt⟩, hhi⟩
      · exact ⟨hr, hlt, hhi⟩
      · exact ⟨hr, hlt.trans (o.ranges.nonempty r hr), hhi⟩
    · rintro ⟨hr, hlt, hhi⟩
      refine ⟨?_, hhi⟩
      rcases le_or_gt r.1 lo with hle | hgt
      · exact .inl ⟨hr, hle, hlt⟩
      · exact .inr ⟨hr, hgt⟩
  · intro r r' hrr' hr'
    simp only [decide_eq_true_eq] at hr' ⊢
    exact hrr'.trans hr'

lemma countedRanges_apart (o : Overlay) (lo hi : Bytes) : (countedRanges o lo hi).Pairwise (fun r r' => r.2 < r'.1) := by
  have hsorted : (countedRanges o lo hi).Pairwise (fun r r' => r.1 < r'.1) :=
    (sorted_from o lo).sublist ( takeWhile_prefix _).sublist
  refine hsorted.imp_of_mem fun hr hr' hlt => ?_
  exact o.ranges.apart _ (mem_countedRanges.1 hr).1 _ (mem_countedRanges.1 hr').1 hlt

lemma countKeys_clipped (snap : SortedMap Bytes Bytes) (lo hi : Bytes) (r : Bytes × Bytes) :
    (snap.range (max r.1 lo) (min r.2 hi)).length = (snap.range lo hi).countP (fun e => RangeSet.inRange r e.1) := by
  rw [range_eq_filter, range_eq_filter, countP_eq_length_filter, filter_filter]
  refine congrArg _ (filter_congr fun e _ => ?_)
  rw [Bool.eq_iff_iff]
  simp only [max_le_iff, lt_min_iff, decide_eq_true_eq, Bool.and_eq_true, RangeSet.inRange_iff]
  tauto

lemma foldl_ranges (snap : SortedMap Bytes Bytes) (o : Overlay) (lo hi : Bytes) :
    (countedRanges o lo hi).foldl (fun (n : ℤ) r => if !(max r.1 lo < min r.2 hi) then n
      else n - (snap.range (max r.1 lo) (min r.2 hi)).length) (snap.range lo hi).length =
    ((snap.range lo hi).filter (fun e => !o.covered e.1)).length := by
  have hstep : ∀ (rs : List (Bytes × Bytes)) (n : ℤ), rs.foldl (fun (n : ℤ) r => if !(max r.1 lo < min r.2 hi) then n
      else n - (snap.range (max r.1 lo) (min r.2 hi)).length) n =
      n - (rs.map (fun r => ((snap.range lo hi).countP (fun e => RangeSet.inRange r e.1) : ℤ))).sum := by
    intro rs
    induction rs with
    | nil => simp
    | cons r rs ih =>
      intro n
      have hempty : ¬ max r.1 lo < min r.2 hi → (snap.range (max r.1 lo) (min r.2 hi)).length = 0 := by
        intro hno
        rw [List.length_eq_zero_iff, List.eq_nil_iff_forall_not_mem]
        intro e he
        have hin := (SortedMap.mem_range.1 he).2
        exact hno (hin.1.trans_lt hin.2)
      rw [List.foldl_cons, ih, List.map_cons, List.sum_cons, ← countKeys_clipped]
      split_ifs with hc
      · have hzero := hempty (of_decide_eq_false ((Bool.not_eq_true' _).mp hc))
        omega
      · omega
  rw [hstep, ← RangeSet.countP_outside _ (countedRanges_apart o lo hi), List.countP_eq_length_filter]
  refine congrArg (fun l : List _ => (l.length : ℤ)) (List.filter_congr fun e he => ?_)
  obtain ⟨-, hlo, hhi⟩ := SortedMap.mem_range.1 he
  rw [Bool.eq_iff_iff, List.all_eq_true]
  simp only [Bool.not_eq_true', ← Bool.not_eq_true, Overlay.covered_iff, RangeSet.inRange_iff]
  constructor
  · rintro hall ⟨r, hr, hin⟩
    exact hall r (mem_countedRanges.2 ⟨hr, hlo.trans_lt hin.2, hin.1.trans_lt hhi⟩) hin
  · intro hno r hr hin
    exact hno ⟨r, (mem_countedRanges.1 hr).1, hin⟩

end Ranges

section Points

def uncovered (snap : SortedMap Bytes Bytes) (o : Overlay) (lo hi : Bytes) : List (Bytes × Bytes) :=
  (snap.range lo hi).filter (fun e => !o.covered e.1)

lemma uncovered_walk (snap : SortedMap Bytes Bytes) (o : Overlay) (lo hi : Bytes) : Walk false (uncovered snap o lo hi) :=
  (walk_range snap lo hi).filter _

lemma mem_uncovered_keys {k : Bytes} (hlo : lo ≤ k) (hhi : k < hi) :
    k ∈ (uncovered snap o lo hi).map Prod.fst ↔ (!o.covered k && (snap.get k).isSome) = true := by
  rw [mem_map, Bool.and_eq_true, Option.isSome_iff_exists]
  constructor
  · rintro ⟨⟨j, value⟩, he, rfl⟩
    obtain ⟨hmem, hcov⟩ := mem_filter.1 he
    exact ⟨hcov, value, get_eq_some.2 (mem_range.1 hmem).1⟩
  · rintro ⟨hcov, value, hget⟩
    have hmem := mem_range.2 ⟨get_eq_some.1 hget, hlo, hhi⟩
    exact ⟨(k, value), mem_filter.2 ⟨hmem, hcov⟩, rfl⟩

def corrected (snap : SortedMap Bytes Bytes) (o : Overlay) (n : ℤ) (p : Bytes × Option Bytes) : ℤ :=
  let inView := p.2.isSome
  let inSnapshot := !o.covered p.1 && (snap.get p.1).isSome
  if inView && !inSnapshot then n + 1 else if !inView && inSnapshot then n - 1 else n

lemma corrected_eq (m : ℤ) {p : Bytes × Option Bytes} (hlo : lo ≤ p.1) (hhi : p.1 < hi) :
    corrected snap o m p = m + gain (uncovered snap o lo hi) p := by
  rw [corrected, gain]
  simp only [mem_uncovered_keys hlo hhi]
  cases p.2.isSome <;> cases (!o.covered p.1 && (snap.get p.1).isSome) <;> simp [sub_eq_add_neg]

lemma foldl_corrected (ps : List (Bytes × Option Bytes)) (h : ∀ p ∈ ps, lo ≤ p.1 ∧ p.1 < hi) (m : ℤ) :
    ps.foldl (corrected snap o) m = m + (ps.map (gain (uncovered snap o lo hi))).sum := by
  induction ps generalizing m with
  | nil => simp
  | cons p ps ih =>
    obtain ⟨⟨hlo, hhi⟩, hps⟩ := forall_mem_cons.1 h
    rw [foldl_cons, ih hps, corrected_eq m hlo hhi, map_cons, sum_cons]
    omega

lemma overlaid_uncovered (h : ∀ k, o.atop snap k = n.get k) (lo hi : Bytes) :
    overlaid false (uncovered snap o lo hi) (o.points.range lo hi) = n.range lo hi := by
  let v : ViewEntries := ⟨snap, some o, lo, hi, false⟩
  have hbase : uncovered snap o lo hi = (v.sought v.start).filter v.visible := by
    refine (uncovered_walk snap o lo hi).eq_of_mem_iff ((v.all_walk.sublist (v.sought_suffix _).sublist).filter _) fun e => ?_
    rw [ViewEntries.mem_visible, uncovered, List.mem_filter, SortedMap.mem_range, Bool.not_eq_true', ← Bool.not_eq_true,
      Overlay.covered_iff, and_assoc, and_assoc, ← RangeSet.rangeAt_eq_none]
    rfl
  have hover : o.points.range lo hi = v.pointsFrom.filter (fun p => !v.pastEnd p.1) := by
    refine (walk_range _ lo hi).eq_of_mem_iff (v.pointsFrom_walk.filter _) fun p => ?_
    rw [ViewEntries.mem_pointsIn, SortedMap.mem_range]
    rfl
  have hdelivered : v.delivered = directed false (n.range lo hi) := ViewEntries.delivered_eq fun k => by
    rw [ViewEntries.viewGet_eq]
    exact h k
  rw [hbase, hover]
  exact hdelivered

end Points

theorem gives_viewCount (h : ∀ k, o.atop snap k = n.get k) (b : Budget) (hlt : lo < hi) (limit : ℕ) :
    Gives b (viewCount snap o b lo hi limit) (fun c => c = min (n.range lo hi).length limit) := by
  refine (gives_countKeys hlt).bind ?_
  rintro _ rfl
  refine (gives_foldlM (f := fun (n : ℤ) r => if !(max r.1 lo < min r.2 hi) then n
    else n - (snap.range (max r.1 lo) (min r.2 hi)).length) ?_ _ _).bind ?_
  · intro acc r
    dsimp only
    split_ifs with hc
    · exact Gives.pure rfl
    · have hclip : max r.1 lo < min r.2 hi := of_decide_eq_true (by simpa only [Bool.not_eq_true', Bool.not_eq_false] using hc)
      refine (gives_charge b 2).bind fun _ _ => (gives_countKeys hclip).bind ?_
      rintro _ rfl
      exact Gives.pure rfl
  rintro _ rfl
  refine (gives_foldlM (f := corrected snap o) ?_ _ _).bind ?_
  · intro acc p
    exact (gives_charge b 1).bind fun _ _ => Gives.pure rfl
  rintro _ rfl
  refine Gives.pure ?_
  have hlength := length_overlaid (uncovered_walk snap o lo hi) (walk_range o.points lo hi)
  rw [overlaid_uncovered h lo hi] at hlength
  have hall : (o.points.range lo hi).foldl (corrected snap o) ((uncovered snap o lo hi).length : ℤ) = (n.range lo hi).length := by
    rw [foldl_corrected _ fun p hp => (mem_range.1 hp).2, hlength]
  rw [foldl_ranges, ← uncovered, hall, Int.toNat_natCast]

section CountRange

lemma meets_of_point {p : Bytes × Option Bytes} (hp : p ∈ o.points.entries) (hlo : lo ≤ p.1) (hhi : p.1 < hi) :
    o.meets lo hi = true := by
  have hdrop := dropWhile_eq_filter (p := fun p : Bytes × Option Bytes => decide (p.1 < lo)) o.points.sorted
    (fun x y hxy hy => decide_eq_true (hxy.trans (of_decide_eq_true hy)))
  have hin : p ∈ o.points.entries.dropWhile (fun p => decide (p.1 < lo)) := by
    rw [hdrop, mem_filter]
    simpa [hp] using hlo
  rw [Overlay.meets]
  cases hl : o.points.entries.dropWhile (fun p => decide (p.1 < lo)) with
  | nil =>
    rw [hl] at hin
    cases hin
  | cons q rest =>
    have hsorted : (q :: rest).Pairwise (fun a b => a.1 < b.1) := hl ▸ o.points.sorted.sublist (dropWhile_suffix _).sublist
    rw [hl] at hin
    have hle : q.1 ≤ p.1 := by
      rcases mem_cons.1 hin with rfl | hin
      · exact le_rfl
      · exact ((pairwise_cons.1 hsorted).1 p hin).le
    simp [hle.trans_lt hhi]

lemma meets_of_covered {k : Bytes} (hk : k ∈ o.ranges) (hlo : lo ≤ k) (hhi : k < hi) : o.meets lo hi = true := by
  obtain ⟨r, hr, hin⟩ := hk
  rw [Overlay.meets]
  rcases le_or_gt r.1 lo with hle | hgt
  · have hcov : o.covered lo = true := Overlay.covered_iff.2 ⟨r, hr, hle, hlo.trans_lt hin.2⟩
    simp [hcov]
  · have hdrop := dropWhile_eq_filter (p := fun r : Bytes × Bytes => decide (r.1 < lo)) o.ranges.bounds.sorted
      (fun x y hxy hy => decide_eq_true (hxy.trans (of_decide_eq_true hy)))
    have hmem : r ∈ o.ranges.bounds.entries.dropWhile (fun r => decide (r.1 < lo)) := by
      rw [hdrop, mem_filter]
      simpa [hr] using hgt.le
    cases hl : o.ranges.bounds.entries.dropWhile (fun r => decide (r.1 < lo)) with
    | nil =>
      rw [hl] at hmem
      cases hmem
    | cons q rest =>
      have hsorted : (q :: rest).Pairwise (fun a b => a.1 < b.1) :=
        hl ▸ o.ranges.bounds.sorted.sublist (dropWhile_suffix _).sublist
      rw [hl] at hmem
      have hle : q.1 ≤ r.1 := by
        rcases mem_cons.1 hmem with rfl | hmem
        · exact le_rfl
        · exact ((pairwise_cons.1 hsorted).1 r hmem).le
      simp [hle.trans_lt (hin.1.trans_lt hhi)]

lemma range_of_not_meets (h : ∀ k, o.atop snap k = n.get k) (hno : ¬ o.meets lo hi = true) :
    n.range lo hi = snap.range lo hi := by
  refine (walk_range n lo hi).eq_of_mem_iff (walk_range snap lo hi) fun e => ?_
  rw [SortedMap.mem_range, SortedMap.mem_range]
  refine and_congr_left fun ⟨hlo, hhi⟩ => ?_
  have hpoint : o.points.get e.1 = none := SortedMap.get_eq_none.2 fun v hv => hno (meets_of_point hv hlo hhi)
  have hcov : ¬ o.covered e.1 = true := fun hc => hno (meets_of_covered (Overlay.covered_iff.1 hc) hlo hhi)
  have hsame : n.get e.1 = snap.get e.1 := by
    rw [← h, Overlay.atop, Overlay.find, hpoint, if_neg hcov]
    rfl
  rw [← SortedMap.get_eq_some, ← SortedMap.get_eq_some, hsame]

/-- `bc_count_range` counts the keys of any range, one with its bounds the wrong way round as empty. -/
theorem gives_countRange {overlay : Option Overlay} (h : ∀ k, viewGet snap overlay k = n.get k) (b : Budget) (lo hi : Bytes)
    (limit : ℕ) : Gives b (countRange snap overlay b lo hi limit) (fun c => c = min (n.range lo hi).length limit) := by
  refine (gives_charge b 2).bind fun _ _ => ?_
  by_cases hlt : lo < hi
  · rw [if_neg (by simpa using hlt)]
    have hsnap : n.range lo hi = snap.range lo hi → Gives b (countKeys snap lo hi >>= fun n => pure (min n limit))
        (fun c => c = min (n.range lo hi).length limit) := by
      intro heq
      refine (gives_countKeys hlt).bind ?_
      rintro _ rfl
      exact Gives.pure (by rw [heq])
    cases overlay with
    | none =>
      refine hsnap ?_
      have hsame : n = snap := SortedMap.ext fun k => (h k).symm
      rw [hsame]
    | some o =>
      have hover : ∀ k, o.atop snap k = n.get k := fun k => by
        rw [← h, ViewEntries.viewGet_eq]
        rfl
      by_cases hmeets : o.meets lo hi = true
      · rw [Option.filter_some, if_pos hmeets]
        exact gives_viewCount hover b hlt limit
      · rw [Option.filter_some, if_neg hmeets]
        exact hsnap (range_of_not_meets hover hmeets)
  · rw [if_pos (by simpa using hlt)]
    have hnil : n.range lo hi = [] := eq_nil_iff_forall_not_mem.2 fun e he => by
      have hin := (mem_range.1 he).2
      exact hlt (hin.1.trans_lt hin.2)
    exact Gives.pure (by rw [hnil]; simp)

end CountRange

end Bytecask.Sql
