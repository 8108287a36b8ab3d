import Mathlib

/-! Finite maps as lists of pairs whose keys strictly ascend: the order is a field, so two maps
with the same members are equal. -/

section Split

variable {α : Type*} {r : α → α → Prop} {p : α → Bool} {l : List α}

lemma takeWhile_eq_filter (h : l.Pairwise r) (hp : ∀ a b, r a b → p b = true → p a = true) : l.takeWhile p = l.filter p := by
  induction l with
  | nil => rfl
  | cons a l ih =>
    obtain ⟨ha, hl⟩ := List.pairwise_cons.1 h
    by_cases hpa : p a = true
    · rw [List.takeWhile_cons_of_pos hpa, List.filter_cons_of_pos hpa, ih hl]
    · have hnone : l.filter p = [] := List.filter_eq_nil_iff.2 fun b hb hpb => hpa (hp a b (ha b hb) hpb)
      rw [List.takeWhile_cons_of_neg hpa, List.filter_cons_of_neg hpa, hnone]

lemma dropWhile_eq_filter (h : l.Pairwise r) (hp : ∀ a b, r a b → p b = true → p a = true) :
    l.dropWhile p = l.filter (fun a => !p a) := by
  induction l with
  | nil => rfl
  | cons a l ih =>
    obtain ⟨ha, hl⟩ := List.pairwise_cons.1 h
    by_cases hpa : p a = true
    · rw [List.dropWhile_cons_of_pos hpa, ih hl, List.filter_cons_of_neg (by simp [hpa])]
    · have hall : ∀ b ∈ a :: l, (!p b) = true := by
        intro b hb
        rcases List.mem_cons.1 hb with rfl | hb
        · simpa using hpa
        · simpa using fun hpb => hpa (hp a b (ha b hb) hpb)
      rw [List.dropWhile_cons_of_neg hpa, List.filter_eq_self.2 hall]

end Split

structure SortedMap (κ ν : Type*) [LinearOrder κ] where
  entries : List (κ × ν)
  sorted : entries.Pairwise (fun a b => a.1 < b.1)

namespace SortedMap

open List

variable {κ ν μ : Type*} [LinearOrder κ]
variable {m n : SortedMap κ ν} {k : κ} {v : ν} {e : κ × ν} {l : List (κ × ν)}

instance [DecidableEq ν] : DecidableEq (SortedMap κ ν) := fun m n =>
  decidable_of_iff (m.entries = n.entries) (by cases m; cases n; simp)

def empty : SortedMap κ ν := ⟨[], List.Pairwise.nil⟩

def get (m : SortedMap κ ν) (k : κ) : Option ν := m.entries.lookup k

def keys (m : SortedMap κ ν) : List κ := m.entries.map Prod.fst

def filter (m : SortedMap κ ν) (p : κ → ν → Bool) : SortedMap κ ν :=
  ⟨m.entries.filter (fun e => p e.1 e.2), m.sorted.sublist filter_sublist⟩

def erase (m : SortedMap κ ν) (k : κ) : SortedMap κ ν :=
  m.filter (fun a _ => a ≠ k)

def insert (m : SortedMap κ ν) (k : κ) (v : ν) : SortedMap κ ν where
  entries := m.entries.filter (fun e => e.1 < k) ++ (k, v) :: m.entries.filter (fun e => k < e.1)
  sorted := by
    refine pairwise_append.2 ⟨m.sorted.sublist filter_sublist, ?_, ?_⟩
    · refine pairwise_cons.2 ⟨?_, m.sorted.sublist filter_sublist⟩
      intro e he
      simpa using (mem_filter.1 he).2
    · intro a ha b hb
      have hak : a.1 < k := by simpa using (mem_filter.1 ha).2
      rcases mem_cons.1 hb with rfl | hb
      · exact hak
      · exact hak.trans (by simpa using (mem_filter.1 hb).2)

def adjust (m : SortedMap κ ν) (k : κ) (f : ν → ν) : SortedMap κ ν :=
  match m.get k with
  | some v => m.insert k (f v)
  | none => m

def ofList? (l : List (κ × ν)) : Option (SortedMap κ ν) :=
  if h : l.Pairwise (fun a b => a.1 < b.1) then some ⟨l, h⟩ else none

def range (m : SortedMap κ ν) (lo hi : κ) : List (κ × ν) :=
  (m.entries.dropWhile (fun e => e.1 < lo)).takeWhile (fun e => e.1 < hi)

def sum (m : SortedMap κ ν) (f : κ → ν → ℕ) : ℕ := (m.entries.map (fun e => f e.1 e.2)).sum

lemma nodup_entries (m : SortedMap κ ν) : m.entries.Nodup :=
  m.sorted.imp (fun h he => absurd (congrArg Prod.fst he) h.ne)

lemma eq_of_key_eq {w : ν} (hv : (k, v) ∈ m.entries) (hw : (k, w) ∈ m.entries) : v = w := by
  have hn : (m.entries.map Prod.fst).Nodup := pairwise_map.2 (m.sorted.imp (fun h => h.ne))
  exact congrArg Prod.snd (inj_on_of_nodup_map hn hv hw rfl)

lemma get_eq_some : m.get k = some v ↔ (k, v) ∈ m.entries := by
  constructor
  · intro h
    obtain ⟨l₁, l₂, he, -⟩ := lookup_eq_some_iff.1 h
    rw [he]
    simp
  · intro h
    have hs : (m.get k).isSome := by
      rw [get, lookup_isSome_iff]
      exact ⟨(k, v), h, by simp⟩
    obtain ⟨w, hw⟩ := Option.isSome_iff_exists.1 hs
    obtain ⟨l₁, l₂, he, -⟩ := lookup_eq_some_iff.1 hw
    have hmem : (k, w) ∈ m.entries := by rw [he]; simp
    rw [hw, eq_of_key_eq hmem h]

lemma get_eq_none : m.get k = none ↔ ∀ v, (k, v) ∉ m.entries := by
  rw [Option.eq_none_iff_forall_ne_some]
  exact forall_congr' (fun v => not_congr get_eq_some)

lemma mem_keys : k ∈ m.keys ↔ ∃ v, m.get k = some v := by
  simp [keys, get_eq_some]

lemma ext_mem (h : ∀ e, e ∈ m.entries ↔ e ∈ n.entries) : m = n := by
  have hp : m.entries.Perm n.entries :=
    (perm_ext_iff_of_nodup m.nodup_entries n.nodup_entries).2 h
  have he : m.entries = n.entries :=
    hp.eq_of_pairwise (fun a b _ _ hab hba => absurd hab hba.asymm) m.sorted n.sorted
  cases m
  cases n
  simpa using he

lemma ext (h : ∀ k, m.get k = n.get k) : m = n := by
  apply ext_mem
  rintro ⟨k, v⟩
  rw [← get_eq_some, ← get_eq_some, h]

@[simp] lemma get_empty (k : κ) : (empty : SortedMap κ ν).get k = none := rfl

@[simp] lemma entries_empty : (empty : SortedMap κ ν).entries = [] := rfl

lemma mem_insert : e ∈ (m.insert k v).entries ↔ e = (k, v) ∨ (e ∈ m.entries ∧ e.1 ≠ k) := by
  simp only [insert, mem_append, mem_cons, mem_filter, decide_eq_true_eq]
  constructor
  · rintro (⟨he, hk⟩ | he | ⟨he, hk⟩)
    · exact .inr ⟨he, hk.ne⟩
    · exact .inl he
    · exact .inr ⟨he, hk.ne'⟩
  · rintro (he | ⟨he, hk⟩)
    · exact .inr (.inl he)
    · rcases lt_or_gt_of_ne hk with hk | hk
      · exact .inl ⟨he, hk⟩
      · exact .inr (.inr ⟨he, hk⟩)

lemma get_insert (m : SortedMap κ ν) (k j : κ) (v : ν) :
    (m.insert k v).get j = if j = k then some v else m.get j := by
  ext w
  rw [get_eq_some, mem_insert]
  by_cases hj : j = k
  · simp [hj, eq_comm]
  · simp [hj, get_eq_some]

@[simp] lemma get_insert_self (m : SortedMap κ ν) (k : κ) (v : ν) : (m.insert k v).get k = some v := by
  simp [get_insert]

lemma get_insert_ne (m : SortedMap κ ν) {j : κ} (v : ν) (h : j ≠ k) : (m.insert k v).get j = m.get j := by
  simp [get_insert, h]

lemma mem_filter {p : κ → ν → Bool} : e ∈ (m.filter p).entries ↔ e ∈ m.entries ∧ p e.1 e.2 := by
  simp [filter]

lemma get_filter (m : SortedMap κ ν) (p : κ → ν → Bool) (k : κ) :
    (m.filter p).get k = (m.get k).filter (p k) := by
  ext v
  rw [get_eq_some, mem_filter, ← get_eq_some, Option.filter_eq_some_iff]

lemma get_erase (m : SortedMap κ ν) (k j : κ) :
    (m.erase k).get j = if j = k then none else m.get j := by
  rw [erase, get_filter]
  by_cases hj : j = k
  · simp [hj]
  · cases m.get j <;> simp [hj]

@[simp] lemma get_erase_self (m : SortedMap κ ν) (k : κ) : (m.erase k).get k = none := by
  simp [get_erase]

lemma erase_of_get_none (h : m.get k = none) : m.erase k = m := by
  refine ext (fun j => ?_)
  rw [get_erase]
  split_ifs with hj
  · rw [hj, h]
  · rfl

@[simp] lemma erase_insert (m : SortedMap κ ν) (k : κ) (v : ν) : (m.insert k v).erase k = m.erase k := by
  refine ext (fun j => ?_)
  simp only [get_erase, get_insert]
  split_ifs <;> rfl

lemma insert_insert (m : SortedMap κ ν) (k : κ) (v w : ν) : (m.insert k v).insert k w = m.insert k w := by
  refine ext (fun j => ?_)
  simp only [get_insert]
  split_ifs <;> rfl

lemma insert_of_get (h : m.get k = some v) : m.insert k v = m := by
  refine ext (fun j => ?_)
  rw [get_insert]
  split_ifs with hj
  · rw [hj, h]
  · rfl

lemma get_adjust (m : SortedMap κ ν) (k j : κ) (f : ν → ν) :
    (m.adjust k f).get j = if j = k then (m.get k).map f else m.get j := by
  unfold adjust
  cases h : m.get k with
  | none =>
    by_cases hj : j = k
    · simp [hj, h]
    · simp [hj]
  | some v => simp [get_insert]

lemma perm_erase (h : m.get k = some v) : m.entries.Perm ((k, v) :: (m.erase k).entries) := by
  have hnot : (k, v) ∉ (m.erase k).entries := by
    intro hm
    simpa using (mem_filter.1 hm).2
  refine (perm_ext_iff_of_nodup m.nodup_entries
    (nodup_cons.2 ⟨hnot, (m.erase k).nodup_entries⟩)).2 ?_
  rintro ⟨j, w⟩
  rw [mem_cons, ← get_eq_some, ← get_eq_some, get_erase]
  by_cases hj : j = k
  · simp [hj, h, eq_comm]
  · simp [hj]

lemma sum_eq_erase (m : SortedMap κ ν) (f : κ → ν → ℕ) (k : κ) :
    m.sum f = (m.erase k).sum f + ((m.get k).map (f k)).getD 0 := by
  cases h : m.get k with
  | none => simp [erase_of_get_none h]
  | some v =>
    rw [sum, ((perm_erase h).map (fun e => f e.1 e.2)).sum_eq]
    simp [sum, Nat.add_comm]

lemma sum_insert (m : SortedMap κ ν) (f : κ → ν → ℕ) (k : κ) (v : ν) :
    (m.insert k v).sum f = (m.erase k).sum f + f k v := by
  rw [sum_eq_erase _ f k]
  simp

lemma range_eq_filter_of_sorted (lo hi : κ) (h : l.Pairwise (fun a b => a.1 < b.1)) :
    (l.dropWhile (fun e => e.1 < lo)).takeWhile (fun e => e.1 < hi) =
      l.filter (fun e => lo ≤ e.1 ∧ e.1 < hi) := by
  induction l with
  | nil => rfl
  | cons e l ih =>
    obtain ⟨he, hl⟩ := pairwise_cons.1 h
    by_cases hlo : e.1 < lo
    · rw [dropWhile_cons_of_pos (by simpa using hlo), ih hl,
        filter_cons_of_neg (by simp [hlo])]
    · have hd : l.dropWhile (fun e => e.1 < lo) = l := by
        cases l with
        | nil => rfl
        | cons a l =>
          have ha := (not_lt.1 hlo).trans (he a mem_cons_self).le
          exact dropWhile_cons_of_neg (by simpa using ha)
      rw [dropWhile_cons_of_neg (by simpa using hlo)]
      by_cases hhi : e.1 < hi
      · rw [takeWhile_cons_of_pos (by simpa using hhi),
          filter_cons_of_pos (by simp [hhi, not_lt.1 hlo]), ← ih hl, hd]
      · have hnil : l.filter (fun e => lo ≤ e.1 ∧ e.1 < hi) = [] := by
          refine filter_eq_nil_iff.2 (fun a ha => ?_)
          have hlt := (not_lt.1 hhi).trans (he a ha).le
          simp [hlt]
        rw [takeWhile_cons_of_neg (by simpa using hhi),
          filter_cons_of_neg (by simp [hhi]), hnil]

lemma range_eq_filter (m : SortedMap κ ν) (lo hi : κ) :
    m.range lo hi = m.entries.filter (fun e => lo ≤ e.1 ∧ e.1 < hi) :=
  range_eq_filter_of_sorted lo hi m.sorted

lemma mem_range {lo hi : κ} : e ∈ m.range lo hi ↔ e ∈ m.entries ∧ lo ≤ e.1 ∧ e.1 < hi := by
  simp [range_eq_filter]

lemma ofList?_eq_some (h : l.Pairwise (fun a b => a.1 < b.1)) : ofList? l = some ⟨l, h⟩ := by
  simp [ofList?, h]

def map (f : ν → μ) (m : SortedMap κ ν) : SortedMap κ μ where
  entries := m.entries.map (fun e => (e.1, f e.2))
  sorted := pairwise_map.2 m.sorted

lemma get_map (f : ν → μ) (m : SortedMap κ ν) (k : κ) : (m.map f).get k = (m.get k).map f := by
  refine Option.ext fun v => ?_
  rw [get_eq_some, Option.map_eq_some_iff]
  simp only [map, mem_map, Prod.mk.injEq]
  constructor
  · rintro ⟨e, he, rfl, rfl⟩
    exact ⟨e.2, get_eq_some.2 he, rfl⟩
  · rintro ⟨w, hw, rfl⟩
    exact ⟨(k, w), get_eq_some.1 hw, rfl, rfl⟩

lemma sum_map (f : ν → μ) (m : SortedMap κ ν) (g : κ → μ → ℕ) : (m.map f).sum g = m.sum (fun k v => g k (f v)) := by
  rw [sum, sum, map, map_map]
  rfl

lemma sum_congr {f g : κ → ν → ℕ} (h : ∀ k v, m.get k = some v → f k v = g k v) : m.sum f = m.sum g := by
  exact congrArg List.sum (map_congr_left fun e he => h e.1 e.2 (get_eq_some.2 he))

lemma get_foldl_insert {α : Type*} (key : α → κ) (val : α → ν) (l : List α) (m : SortedMap κ ν)
    (hn : (l.map key).Nodup) (hm : ∀ a ∈ l, m.get (key a) = none) (k : κ) (v : ν) :
    (l.foldl (fun m a => m.insert (key a) (val a)) m).get k = some v ↔
      m.get k = some v ∨ ∃ a ∈ l, key a = k ∧ v = val a := by
  induction l generalizing m with
  | nil => simp
  | cons a l ih =>
    obtain ⟨ha, hn⟩ := nodup_cons.1 hn
    have hne : ∀ b ∈ l, key b ≠ key a := fun b hb h => ha (h ▸ mem_map_of_mem hb)
    rw [foldl_cons, ih _ hn, exists_mem_cons_iff, ← or_assoc]
    · refine or_congr ?_ Iff.rfl
      rw [get_insert]
      split_ifs with hk
      · subst hk
        simp [hm, eq_comm]
      · simp [Ne.symm hk]
    · intro b hb
      rw [get_insert_ne _ _ (hne b hb)]
      exact hm b (mem_cons_of_mem a hb)

end SortedMap
