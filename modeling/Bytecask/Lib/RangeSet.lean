import Bytecask.Lib.SortedMap

/-! Sets of keys kept as ranges `[lo, hi)` that neither meet nor touch. -/

structure RangeSet (κ : Type*) [LinearOrder κ] where
  bounds : SortedMap κ κ := SortedMap.empty
  nonempty : ∀ r ∈ bounds.entries, r.1 < r.2 := by simp
  apart : ∀ r ∈ bounds.entries, ∀ r' ∈ bounds.entries, r.1 < r'.1 → r.2 < r'.1 := by simp

namespace RangeSet

open List SortedMap

variable {κ : Type*} [LinearOrder κ]

def empty : RangeSet κ := {}

instance : DecidableEq (RangeSet κ) := fun s t =>
  decidable_of_iff (s.bounds = t.bounds) ⟨fun h => by cases s; cases t; simpa using h, fun h => by rw [h]⟩

instance : Membership κ (RangeSet κ) := ⟨fun s k => ∃ r ∈ s.bounds.entries, r.1 ≤ k ∧ k < r.2⟩

def isEmpty (s : RangeSet κ) : Bool := s.bounds.entries.isEmpty

def inRange (r : κ × κ) (k : κ) : Bool := r.1 ≤ k ∧ k < r.2

def after (s : RangeSet κ) (key : κ) : List (κ × κ) := s.bounds.entries.dropWhile (fun r => r.1 ≤ key)

def rangeAt (s : RangeSet κ) (key : κ) : Option (κ × κ) :=
  (s.bounds.entries.takeWhile (fun r => r.1 ≤ key)).getLast?.filter (fun r => key < r.2)

def meeting (s : RangeSet κ) (lo : κ) : List (κ × κ) :=
  match (s.bounds.entries.takeWhile (fun r => r.1 ≤ lo)).getLast? with
  | some r => if r.2 < lo then s.after lo else r :: s.after lo
  | none => s.after lo

def absorb : List (κ × κ) → κ × κ → SortedMap κ κ → (κ × κ) × SortedMap κ κ
  | [], new, m => (new, m)
  | r :: rs, new, m => if new.2 < r.1 then (new, m) else absorb rs (min new.1 r.1, max new.2 r.2) (m.erase r.1)

section Lookup

variable {s : RangeSet κ} {k lo : κ} {r r' : κ × κ}

lemma mem_iff : k ∈ s ↔ ∃ r ∈ s.bounds.entries, r.1 ≤ k ∧ k < r.2 := Iff.rfl

lemma not_mem_of_isEmpty (h : s.isEmpty = true) : k ∉ s := by
  rintro ⟨r, hr, -⟩
  rw [List.isEmpty_iff.1 h] at hr
  cases hr

lemma eq_of_fst_eq (hr : r ∈ s.bounds.entries) (hr' : r' ∈ s.bounds.entries) (h : r.1 = r'.1) : r = r' := by
  obtain ⟨a, b⟩ := r
  subst h
  rw [eq_of_key_eq hr hr']

lemma starts_eq_filter (s : RangeSet κ) (k : κ) :
    s.bounds.entries.takeWhile (fun r => r.1 ≤ k) = s.bounds.entries.filter (fun r => r.1 ≤ k) :=
  takeWhile_eq_filter s.bounds.sorted fun a b hab hb => by
    simp only [decide_eq_true_eq] at hb ⊢
    exact hab.le.trans hb

lemma mem_after : r ∈ s.after k ↔ r ∈ s.bounds.entries ∧ k < r.1 := by
  rw [after, dropWhile_eq_filter s.bounds.sorted, mem_filter]
  · simp
  · intro a b hab hb
    simp only [decide_eq_true_eq] at hb ⊢
    exact hab.le.trans hb

@[simp] lemma inRange_iff : inRange r k = true ↔ r.1 ≤ k ∧ k < r.2 := decide_eq_true_iff

lemma getLast?_starts : (s.bounds.entries.takeWhile (fun r => r.1 ≤ k)).getLast? = some r ↔
    r ∈ s.bounds.entries ∧ r.1 ≤ k ∧ ∀ r' ∈ s.bounds.entries, r'.1 ≤ k → r'.1 ≤ r.1 := by
  have hsorted : (s.bounds.entries.filter (fun r => r.1 ≤ k)).Pairwise (fun a b => a.1 < b.1) := s.bounds.sorted.filter _
  have hmem : ∀ q, q ∈ s.bounds.entries.filter (fun r => r.1 ≤ k) ↔ q ∈ s.bounds.entries ∧ q.1 ≤ k := by simp
  rw [s.starts_eq_filter]
  constructor
  · intro h
    obtain ⟨init, hinit⟩ := List.getLast?_eq_some_iff.1 h
    rw [hinit] at hsorted hmem
    obtain ⟨hr, hk⟩ := (hmem r).1 (by simp)
    refine ⟨hr, hk, fun r' hr' hk' => ?_⟩
    rcases mem_append.1 ((hmem r').2 ⟨hr', hk'⟩) with hin | hin
    · exact ((pairwise_append.1 hsorted).2.2 r' hin r (by simp)).le
    · rw [mem_singleton.1 hin]
  · rintro ⟨hr, hk, hlast⟩
    cases hl : (s.bounds.entries.filter (fun r => r.1 ≤ k)).getLast? with
    | none =>
      have hin := (hmem r).2 ⟨hr, hk⟩
      rw [List.getLast?_eq_none_iff.1 hl] at hin
      cases hin
    | some q =>
      obtain ⟨init, hinit⟩ := List.getLast?_eq_some_iff.1 hl
      rw [hinit] at hsorted hmem
      obtain ⟨hq, hqk⟩ := (hmem q).1 (by simp)
      rcases mem_append.1 ((hmem r).2 ⟨hr, hk⟩) with hin | hin
      · have hlt := (pairwise_append.1 hsorted).2.2 r hin q (by simp)
        exact absurd (hlast q hq hqk) (not_le.2 hlt)
      · rw [mem_singleton.1 hin]

lemma rangeAt_eq_some : s.rangeAt k = some r ↔ r ∈ s.bounds.entries ∧ r.1 ≤ k ∧ k < r.2 := by
  rw [rangeAt, Option.filter_eq_some_iff, getLast?_starts, decide_eq_true_eq]
  constructor
  · rintro ⟨⟨hr, hk, -⟩, hlt⟩
    exact ⟨hr, hk, hlt⟩
  · rintro ⟨hr, hk, hlt⟩
    refine ⟨⟨hr, hk, fun r' hr' hk' => ?_⟩, hlt⟩
    by_contra h
    exact absurd (hlt.trans (s.apart r hr r' hr' (not_le.1 h))) (not_lt.2 hk')

lemma rangeAt_eq_none : s.rangeAt k = none ↔ k ∉ s := by
  rw [Option.eq_none_iff_forall_ne_some, mem_iff]
  simp only [ne_eq, rangeAt_eq_some, not_exists]

lemma mem_meeting (hr : r ∈ s.bounds.entries) : r ∈ s.meeting lo ↔ lo ≤ r.2 := by
  have hafter : r ∈ s.after lo ↔ lo < r.1 := mem_after.trans (and_iff_right hr)
  rw [meeting]
  cases hl : (s.bounds.entries.takeWhile (fun r => r.1 ≤ lo)).getLast? with
  | none =>
    have hlo : lo < r.1 := by
      by_contra h
      have hin : r ∈ s.bounds.entries.takeWhile (fun r => r.1 ≤ lo) := by
        rw [s.starts_eq_filter]
        simp [hr, not_lt.1 h]
      rw [List.getLast?_eq_none_iff.1 hl] at hin
      cases hin
    exact iff_of_true (hafter.2 hlo) (hlo.trans (s.nonempty r hr)).le
  | some q =>
    obtain ⟨hq, hqlo, hlast⟩ := getLast?_starts.1 hl
    have hbelow : r.1 ≤ lo → r ≠ q → r.2 < lo := by
      intro h hne
      have hlt : r.1 < q.1 := (hlast r hr h).lt_of_ne fun heq => hne (eq_of_fst_eq hr hq heq)
      exact (s.apart r hr q hq hlt).trans_le hqlo
    dsimp only
    split_ifs with hend
    · rw [hafter]
      constructor
      · exact fun h => (h.trans (s.nonempty r hr)).le
      · intro h
        by_contra hle
        by_cases hrq : r = q
        · exact absurd (hrq ▸ hend) (not_lt.2 h)
        · exact absurd (hbelow (not_lt.1 hle) hrq) (not_lt.2 h)
    · rw [mem_cons, hafter]
      constructor
      · rintro (rfl | h)
        · exact not_lt.1 hend
        · exact (h.trans (s.nonempty r hr)).le
      · intro h
        by_contra hno
        obtain ⟨hne, hle⟩ := not_or.1 hno
        exact absurd (hbelow (not_lt.1 hle) hne) (not_lt.2 h)

lemma meeting_sublist (s : RangeSet κ) (lo : κ) : (s.meeting lo).Sublist s.bounds.entries := by
  have hsplit := takeWhile_append_dropWhile (p := fun r : κ × κ => decide (r.1 ≤ lo)) (l := s.bounds.entries)
  rw [meeting]
  cases hl : (s.bounds.entries.takeWhile (fun r => r.1 ≤ lo)).getLast? with
  | none => exact (dropWhile_suffix _).sublist
  | some q =>
    obtain ⟨init, hinit⟩ := List.getLast?_eq_some_iff.1 hl
    dsimp only
    split_ifs
    · exact (dropWhile_suffix _).sublist
    · conv_rhs => rw [← hsplit, hinit, append_assoc]
      exact sublist_append_right init _

end Lookup

section Add

variable {k lo hi : κ}

lemma absorb_spec {rs : List (κ × κ)} (new : κ × κ) (m : SortedMap κ κ) (hnew : new.1 < new.2)
    (hsorted : rs.Pairwise (fun a b => a.1 < b.1)) (hne : ∀ r ∈ rs, r.1 < r.2) (hlo : ∀ r ∈ rs, new.1 ≤ r.2) :
    ∃ taken rest, rs = taken ++ rest ∧ (absorb rs new m).2 = taken.foldl (fun m r => m.erase r.1) m ∧
      (∀ r ∈ rest, (absorb rs new m).1.2 < r.1) ∧
      ((absorb rs new m).1.1 = new.1 ∨ ∃ r ∈ taken, (absorb rs new m).1.1 = r.1) ∧
      ∀ k, (absorb rs new m).1.1 ≤ k ∧ k < (absorb rs new m).1.2 ↔
        (new.1 ≤ k ∧ k < new.2) ∨ ∃ r ∈ taken, r.1 ≤ k ∧ k < r.2 := by
  induction rs generalizing new m with
  | nil => exact ⟨[], [], rfl, rfl, by simp, .inl rfl, by simp [absorb]⟩
  | cons r rs ih =>
    obtain ⟨hr, hrs⟩ := pairwise_cons.1 hsorted
    rw [absorb]
    split_ifs with hstop
    · refine ⟨[], r :: rs, rfl, rfl, fun q hq => ?_, .inl rfl, by simp⟩
      rcases mem_cons.1 hq with rfl | hq
      · exact hstop
      · exact hstop.trans (hr q hq)
    · have hr₀ := hne r mem_cons_self
      have hmeet := hlo r mem_cons_self
      obtain ⟨taken, rest, hsplit, hm, hrest, hfirst, hcover⟩ := ih (min new.1 r.1, max new.2 r.2) _
        (lt_of_le_of_lt (min_le_left _ _) (hnew.trans_le (le_max_left _ _))) hrs
        (fun q hq => hne q (mem_cons_of_mem r hq))
        (fun q hq => (min_le_left _ _).trans (hlo q (mem_cons_of_mem r hq)))
      refine ⟨r :: taken, rest, by rw [hsplit, cons_append], hm, hrest, ?_, fun k => ?_⟩
      · rcases hfirst with h | ⟨q, hq, h⟩
        · rcases min_choice new.1 r.1 with hmin | hmin
          · exact .inl (h.trans hmin)
          · exact .inr ⟨r, mem_cons_self, h.trans hmin⟩
        · exact .inr ⟨q, mem_cons_of_mem r hq, h⟩
      · -- The two ranges meet or touch, so together they leave no gap.
        have hunion : (min new.1 r.1 ≤ k ∧ k < max new.2 r.2) ↔ (new.1 ≤ k ∧ k < new.2) ∨ (r.1 ≤ k ∧ k < r.2) := by
          rw [min_le_iff, lt_max_iff]
          constructor
          · rintro ⟨hl | hl, hh | hh⟩
            · exact .inl ⟨hl, hh⟩
            · rcases lt_or_ge k new.2 with h | h
              · exact .inl ⟨hl, h⟩
              · exact .inr ⟨(not_lt.1 hstop).trans h, hh⟩
            · rcases lt_or_ge k r.2 with h | h
              · exact .inr ⟨hl, h⟩
              · exact .inl ⟨hmeet.trans h, hh⟩
            · exact .inr ⟨hl, hh⟩
          · rintro (⟨hl, hh⟩ | ⟨hl, hh⟩)
            · exact ⟨.inl hl, .inl hh⟩
            · exact ⟨.inr hl, .inr hh⟩
        rw [hcover, hunion, or_assoc, exists_mem_cons_iff]

lemma mem_foldl_erase (rs : List (κ × κ)) (m : SortedMap κ κ) (e : κ × κ) :
    e ∈ (rs.foldl (fun m r => m.erase r.1) m).entries ↔ e ∈ m.entries ∧ ∀ r ∈ rs, e.1 ≠ r.1 := by
  induction rs generalizing m with
  | nil => simp
  | cons r rs ih =>
    rw [foldl_cons, ih, SortedMap.erase, SortedMap.mem_filter, forall_mem_cons]
    simp [and_assoc]

def emplace (m : SortedMap κ κ) (r : κ × κ) : SortedMap κ κ := if (m.get r.1).isSome then m else m.insert r.1 r.2

lemma added_spec (s : RangeSet κ) (h : lo < hi) :
    ∃ new : κ × κ, ∃ kept : κ × κ → Prop,
      (∀ e, e ∈ (emplace (absorb (s.meeting lo) (lo, hi) s.bounds).2 (absorb (s.meeting lo) (lo, hi) s.bounds).1).entries ↔
        e = new ∨ (e ∈ s.bounds.entries ∧ kept e)) ∧
      new.1 < new.2 ∧ (∀ r ∈ s.bounds.entries, kept r → r.2 < new.1 ∨ new.2 < r.1) ∧
      ∀ k, (new.1 ≤ k ∧ k < new.2) ↔ (lo ≤ k ∧ k < hi) ∨ ∃ r ∈ s.bounds.entries, ¬ kept r ∧ r.1 ≤ k ∧ k < r.2 := by
  have hsub := s.meeting_sublist lo
  have hin : ∀ r ∈ s.meeting lo, r ∈ s.bounds.entries := fun r hr => hsub.subset hr
  obtain ⟨taken, rest, hsplit, hm, hrest, hfirst, hcover⟩ := absorb_spec (lo, hi) _ h
    (s.bounds.sorted.sublist hsub) (fun r hr => s.nonempty r (hin r hr)) (fun r hr => (mem_meeting (hin r hr)).1 hr)
  generalize (absorb (s.meeting lo) (lo, hi) s.bounds).1 = new at hrest hfirst hcover ⊢
  rw [hm]
  have hnew : new.1 < new.2 := ((hcover lo).2 (.inl ⟨le_rfl, h⟩)).1.trans_lt ((hcover lo).2 (.inl ⟨le_rfl, h⟩)).2
  have htaken : ∀ r ∈ taken, r ∈ s.bounds.entries ∧ lo ≤ r.2 := by
    intro r hr
    have hmem : r ∈ s.meeting lo := hsplit ▸ mem_append_left rest hr
    exact ⟨hin r hmem, (mem_meeting (hin r hmem)).1 hmem⟩
  have hkeep : ∀ r ∈ s.bounds.entries, r ∉ taken → r.2 < new.1 ∨ new.2 < r.1 := by
    intro r hr hno
    by_cases hmem : r ∈ s.meeting lo
    · rw [hsplit] at hmem
      exact .inr (hrest r ((mem_append.1 hmem).resolve_left hno))
    · have hbelow : r.2 < lo := not_le.1 (mt (mem_meeting hr).2 hmem)
      rcases hfirst with heq | ⟨q, hq, heq⟩
      · exact .inl (hbelow.trans_eq heq.symm)
      · -- The range the new one now starts with lies past `r`.
        obtain ⟨hq, hqlo⟩ := htaken q hq
        rcases lt_trichotomy r.1 q.1 with hlt | hsame | hgt
        · exact .inl ((s.apart r hr q hq hlt).trans_eq heq.symm)
        · rw [eq_of_fst_eq hr hq hsame] at hbelow
          exact absurd hbelow (not_lt.2 hqlo)
        · have hend := (s.apart q hq r hr hgt).trans ((s.nonempty r hr).trans hbelow)
          exact absurd hend (not_lt.2 hqlo)
  have hleft : ∀ e, e ∈ (taken.foldl (fun m r => m.erase r.1) s.bounds).entries ↔ e ∈ s.bounds.entries ∧ e ∉ taken := by
    intro e
    rw [mem_foldl_erase]
    refine and_congr_right fun he => ⟨fun hno hmem => hno e hmem rfl, fun hno r hr heq => hno ?_⟩
    rwa [eq_of_fst_eq he (htaken r hr).1 heq]
  have hfree : (taken.foldl (fun m r => m.erase r.1) s.bounds).get new.1 = none := by
    refine get_eq_none.2 fun v hv => ?_
    obtain ⟨hv, hno⟩ := (hleft _).1 hv
    rcases hkeep _ hv hno with hlt | hlt
    · exact absurd (s.nonempty _ hv) (not_lt.2 hlt.le)
    · exact absurd hnew (not_lt.2 hlt.le)
  refine ⟨new, (· ∉ taken), fun e => ?_, hnew, hkeep, fun k => ?_⟩
  · rw [emplace, hfree, Option.isSome_none, if_neg (by simp), mem_insert, hleft]
    constructor
    · rintro (rfl | ⟨he, -⟩)
      · exact .inl rfl
      · exact .inr he
    · rintro (rfl | he)
      · exact .inl rfl
      · refine .inr ⟨he, fun heq => ?_⟩
        rcases hkeep e he.1 he.2 with hlt | hlt
        · exact absurd (s.nonempty e he.1) (not_lt.2 (heq ▸ hlt.le))
        · exact absurd hnew (not_lt.2 (heq ▸ hlt.le))
  · rw [hcover]
    refine or_congr Iff.rfl ⟨?_, ?_⟩
    · rintro ⟨r, hr, hk⟩
      exact ⟨r, (htaken r hr).1, not_not.2 hr, hk⟩
    · rintro ⟨r, -, hr, hk⟩
      exact ⟨r, not_not.1 hr, hk⟩

def add (s : RangeSet κ) (lo hi : κ) (h : lo < hi) : RangeSet κ where
  bounds :=
    let grown := absorb (s.meeting lo) (lo, hi) s.bounds
    emplace grown.2 grown.1
  nonempty := by
    obtain ⟨new, kept, hmem, hnew, -⟩ := s.added_spec h
    intro r hr
    rcases (hmem r).1 hr with rfl | hr
    · exact hnew
    · exact s.nonempty r hr.1
  apart := by
    obtain ⟨new, kept, hmem, hnew, hkeep, -⟩ := s.added_spec h
    intro r hr r' hr' hlt
    rcases (hmem r).1 hr with rfl | hr <;> rcases (hmem r').1 hr' with rfl | hr'
    · exact absurd hlt (lt_irrefl _)
    · exact (hkeep r' hr'.1 hr'.2).resolve_left fun h => absurd (s.nonempty r' hr'.1) (not_lt.2 (h.le.trans hlt.le))
    · exact (hkeep r hr.1 hr.2).resolve_right fun h => absurd hnew (not_lt.2 (h.le.trans hlt.le))
    · exact s.apart r hr.1 r' hr'.1 hlt

lemma mem_add {s : RangeSet κ} (h : lo < hi) : k ∈ s.add lo hi h ↔ k ∈ s ∨ (lo ≤ k ∧ k < hi) := by
  obtain ⟨new, kept, hmem, -, -, hcover⟩ := s.added_spec h
  constructor
  · rintro ⟨r, hr, hk⟩
    rcases (hmem r).1 hr with rfl | hr
    · rcases (hcover k).1 hk with hk | ⟨q, hq, -, hk⟩
      · exact .inr hk
      · exact .inl ⟨q, hq, hk⟩
    · exact .inl ⟨r, hr.1, hk⟩
  · rintro (⟨r, hr, hk⟩ | hk)
    · by_cases hkept : kept r
      · exact ⟨r, (hmem r).2 (.inr ⟨hr, hkept⟩), hk⟩
      · exact ⟨new, (hmem new).2 (.inl rfl), (hcover k).2 (.inr ⟨r, hr, hkept, hk⟩)⟩
    · exact ⟨new, (hmem new).2 (.inl rfl), (hcover k).2 (.inl hk)⟩

end Add

section Count

variable {α : Type*}

lemma countP_outside (f : α → κ) {rs : List (κ × κ)} (hrs : rs.Pairwise (fun r r' => r.2 < r'.1)) (l : List α) :
    (l.countP (fun a => rs.all (fun r => !inRange r (f a))) : ℤ) =
      l.length - (rs.map (fun r => (l.countP (fun a => inRange r (f a)) : ℤ))).sum := by
  induction rs with
  | nil => simp
  | cons r rs ih =>
    obtain ⟨hr, hrs⟩ := pairwise_cons.1 hrs
    have hsplit : l.countP (fun a => rs.all (fun r => !inRange r (f a))) =
        l.countP (fun a => (r :: rs).all (fun r => !inRange r (f a))) + l.countP (fun a => inRange r (f a)) := by
      clear ih
      induction l with
      | nil => rfl
      | cons a l ihl =>
        have hcase : inRange r (f a) = true → rs.all (fun r => !inRange r (f a)) = true := by
          intro hin
          refine all_eq_true.2 fun r' hr' => ?_
          have hlt := (inRange_iff.1 hin).2.trans (hr r' hr')
          simp [inRange, not_le.2 hlt]
        rw [countP_cons, countP_cons, countP_cons, ihl, all_cons]
        cases hin : inRange r (f a) with
        | true =>
          rw [hcase hin]
          simp only [Bool.not_true, Bool.false_and, if_true, Bool.false_eq_true, if_false]
          omega
        | false =>
          simp only [Bool.not_false, Bool.true_and, Bool.false_eq_true, if_false]
          omega
    rw [map_cons, sum_cons, ← sub_sub, sub_right_comm, ← ih hrs, hsplit]
    push_cast
    ring

end Count

end RangeSet
