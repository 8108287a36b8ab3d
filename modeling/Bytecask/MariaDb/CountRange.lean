import Bytecask.MariaDb.Txn

/-! `count_range`: the snapshot's keys in a range, corrected by a walk over the buffer that stops at the limit. -/

namespace Bytecask.MariaDb

open List

def adds (snap : Store) (p : Bytes × Option Bytes) : Bool := p.2.isSome && !(snap.get p.1).isSome

def removes (snap : Store) (p : Bytes × Option Bytes) : Bool := !p.2.isSome && (snap.get p.1).isSome

def countBuffered (snap : Store) (limit : ℕ) : List (Bytes × Option Bytes) → ℕ → ℕ
  | [], n => n
  | p :: buf, n =>
    if adds snap p then if limit ≤ n + 1 then limit else countBuffered snap limit buf (n + 1)
    else if removes snap p then countBuffered snap limit buf (n - 1)
    else countBuffered snap limit buf n

def MariaDBTxn.countRange (t : MariaDBTxn) (s : Store) (lo hi : Bytes) (limit : ℕ) : ℕ × MariaDBTxn :=
  if lo < hi then
    let snap := t.snap.getD s
    let n := min limit (snap.entries.range lo hi).length
    (if limit ≤ n then limit else countBuffered snap limit (t.lookup.range lo hi) n, t.pinSnapshot s)
  else (0, t)

/-- What the walk has counted after some front of it, from `n` keys of the snapshot on. -/
def counted (snap : Store) (n : ℕ) (front : List (Bytes × Option Bytes)) : ℕ :=
  n + front.countP (adds snap) - front.countP (removes snap)

section Count

variable {snap : Store} {limit n : ℕ} {p : Bytes × Option Bytes} {buf front : List (Bytes × Option Bytes)}

lemma not_removes (h : adds snap p = true) : removes snap p = false := by
  simp only [adds, removes, Bool.and_eq_true] at h ⊢
  simp [h.1]

lemma counted_cons (hlost : (p :: front).countP (removes snap) ≤ n) : counted snap n (p :: front) =
    counted snap (if adds snap p then n + 1 else if removes snap p then n - 1 else n) front := by
  simp only [counted, countP_cons] at *
  by_cases hadd : adds snap p = true
  · simp only [hadd, not_removes, if_true, Bool.false_eq_true, if_false]
    omega
  · by_cases hdel : removes snap p = true <;> simp only [hadd, hdel, if_true, Bool.false_eq_true, if_false] at * <;> omega

lemma countBuffered_cons (hn : n < limit) : countBuffered snap limit (p :: buf) n =
    if limit ≤ (if adds snap p then n + 1 else if removes snap p then n - 1 else n) then limit
    else countBuffered snap limit buf (if adds snap p then n + 1 else if removes snap p then n - 1 else n) := by
  rw [countBuffered]
  by_cases hadd : adds snap p = true
  · simp only [hadd, if_true]
  · by_cases hdel : removes snap p = true
    · simp only [hadd, hdel, if_true, Bool.false_eq_true, if_false]
      rw [if_neg (by omega)]
    · simp only [hadd, hdel, Bool.false_eq_true, if_false]
      rw [if_neg (by omega)]

-- the walk stops at the first front that brings it to the limit
lemma countBuffered_spec (hn : n < limit) (hlost : buf.countP (removes snap) ≤ n) :
    (∃ front, front <+: buf ∧ limit ≤ counted snap n front) ∧ countBuffered snap limit buf n = limit ∨
    (∀ front, front <+: buf → counted snap n front < limit) ∧ countBuffered snap limit buf n = counted snap n buf := by
  induction buf generalizing n with
  | nil =>
    refine Or.inr ⟨fun front hfront => ?_, rfl⟩
    rwa [prefix_nil.1 hfront]
  | cons p buf ih =>
    have hcons : ∀ {front}, front <+: buf → counted snap n (p :: front) =
        counted snap (if adds snap p then n + 1 else if removes snap p then n - 1 else n) front := fun hfront =>
      counted_cons (((cons_prefix_cons.2 ⟨rfl, hfront⟩).sublist.countP_le).trans hlost)
    have hnext : buf.countP (removes snap) ≤ if adds snap p then n + 1 else if removes snap p then n - 1 else n := by
      rw [countP_cons] at hlost
      split_ifs at * <;> omega
    rw [countBuffered_cons hn]
    by_cases hfull : limit ≤ if adds snap p then n + 1 else if removes snap p then n - 1 else n
    · refine Or.inl ⟨⟨[p], by simp, ?_⟩, if_pos hfull⟩
      rwa [hcons nil_prefix]
    · rw [if_neg hfull, hcons (List.prefix_refl buf)]
      rcases ih (not_le.1 hfull) hnext with ⟨⟨front, hfront, hle⟩, heq⟩ | ⟨hall, heq⟩
      · exact Or.inl ⟨⟨p :: front, cons_prefix_cons.2 ⟨rfl, hfront⟩, by rwa [hcons hfront]⟩, heq⟩
      · refine Or.inr ⟨fun front hfront => ?_, heq⟩
        rcases prefix_cons_iff.1 hfront with rfl | ⟨front', rfl, hfront'⟩
        · exact hn
        · rw [hcons hfront']
          exact hall front' hfront'

variable {t : MariaDBTxn} {s : Store} {lo hi : Bytes} {k : Bytes}

def seen (t : MariaDBTxn) (s : Store) (lo hi : Bytes) : Set Bytes := {k | lo ≤ k ∧ k < hi ∧ (t.view s k).isSome}

def keysWhere {ν : Type} (m : SortedMap Bytes ν) (lo hi : Bytes) (p : Bytes × ν → Bool) : Finset Bytes :=
  (((m.range lo hi).filter p).map Prod.fst).toFinset

lemma mem_keysWhere {ν : Type} {m : SortedMap Bytes ν} {p : Bytes × ν → Bool} :
    k ∈ keysWhere m lo hi p ↔ lo ≤ k ∧ k < hi ∧ ∃ v, m.get k = some v ∧ p (k, v) = true := by
  simp only [keysWhere, mem_toFinset, mem_map, mem_filter, SortedMap.mem_range, Prod.exists, exists_and_right, exists_eq_right,
    SortedMap.get_eq_some]
  tauto

lemma card_keysWhere {ν : Type} (m : SortedMap Bytes ν) (p : Bytes × ν → Bool) :
    (keysWhere m lo hi p).card = (m.range lo hi).countP p := by
  have hnodup : (((m.range lo hi).filter p).map Prod.fst).Nodup :=
    pairwise_map.2 (((walk_range m lo hi).filter p).imp fun hab => ne_of_lt hab)
  rw [keysWhere, toFinset_card_of_nodup hnodup, length_map, countP_eq_length_filter]

lemma removed_subset : keysWhere t.lookup lo hi (removes snap) ⊆ keysWhere snap.entries lo hi fun _ => true := by
  intro k hk
  obtain ⟨hlo, hhi, v, -, hr⟩ := mem_keysWhere.1 hk
  obtain ⟨w, hw⟩ := Option.isSome_iff_exists.1 (Bool.and_eq_true_iff.1 hr).2
  obtain ⟨r, hr, -⟩ := Option.map_eq_some_iff.1 hw
  exact mem_keysWhere.2 ⟨hlo, hhi, r, hr, rfl⟩

lemma countP_removes_le : (t.lookup.range lo hi).countP (removes snap) ≤ (snap.entries.range lo hi).length := by
  have hle := Finset.card_le_card (@removed_subset snap t lo hi)
  rwa [card_keysWhere, card_keysWhere, countP_true] at hle

lemma seen_eq : seen t s lo hi = ↑((keysWhere (t.snap.getD s).entries lo hi (fun _ => true) \
    keysWhere t.lookup lo hi (removes (t.snap.getD s))) ∪ keysWhere t.lookup lo hi (adds (t.snap.getD s))) := by
  ext k
  show lo ≤ k ∧ k < hi ∧ (t.view s k).isSome ↔ _
  rw [Finset.mem_coe, Finset.mem_union, Finset.mem_sdiff, mem_keysWhere, mem_keysWhere, mem_keysWhere, MariaDBTxn.view]
  simp only [adds, removes, Store.get]
  cases t.lookup.get k with
  | none => cases (t.snap.getD s).entries.get k <;> simp
  | some v => cases v <;> cases (t.snap.getD s).entries.get k <;> simp

lemma ncard_seen : (seen t s lo hi).ncard =
    counted (t.snap.getD s) ((t.snap.getD s).entries.range lo hi).length (t.lookup.range lo hi) := by
  have hdisjoint : Disjoint (keysWhere (t.snap.getD s).entries lo hi (fun _ => true) \ keysWhere t.lookup lo hi (removes (t.snap.getD s)))
      (keysWhere t.lookup lo hi (adds (t.snap.getD s))) := by
    refine Finset.disjoint_left.2 fun k hk hadd => ?_
    obtain ⟨-, -, r, hr, -⟩ := mem_keysWhere.1 (Finset.mem_sdiff.1 hk).1
    obtain ⟨-, -, v, -, ha⟩ := mem_keysWhere.1 hadd
    simp [adds, Store.get, hr] at ha
  have hle := @countP_removes_le (t.snap.getD s) t lo hi
  rw [seen_eq, Set.ncard_coe_finset, Finset.card_union_of_disjoint hdisjoint, Finset.card_sdiff_of_subset removed_subset,
    card_keysWhere, card_keysWhere, card_keysWhere, countP_true, counted]
  omega

lemma countRange_spec (t : MariaDBTxn) (s : Store) (lo hi : Bytes) (limit : ℕ) :
    (∃ front, front <+: t.lookup.range lo hi ∧ limit ≤ counted (t.snap.getD s) ((t.snap.getD s).entries.range lo hi).length front) ∧
        (t.countRange s lo hi limit).1 = limit ∨
      (∀ front, front <+: t.lookup.range lo hi → counted (t.snap.getD s) ((t.snap.getD s).entries.range lo hi).length front < limit) ∧
        (t.countRange s lo hi limit).1 = (seen t s lo hi).ncard := by
  rw [MariaDBTxn.countRange, ncard_seen]
  by_cases hlt : lo < hi
  · rw [if_pos hlt]
    dsimp only
    by_cases hfull : limit ≤ min limit ((t.snap.getD s).entries.range lo hi).length
    · exact .inl ⟨⟨[], nil_prefix, hfull.trans (min_le_right _ _)⟩, if_pos hfull⟩
    · have hfew : ((t.snap.getD s).entries.range lo hi).length < limit := by omega
      rw [if_neg hfull, min_eq_right hfew.le]
      exact countBuffered_spec hfew countP_removes_le
  · have hnone : ∀ {ν : Type} (m : SortedMap Bytes ν), m.range lo hi = [] := fun m =>
      eq_nil_iff_forall_not_mem.2 fun e he => hlt ((SortedMap.mem_range.1 he).2.1.trans_lt (SortedMap.mem_range.1 he).2.2)
    rw [if_neg hlt, hnone, hnone]
    cases limit <;> simp [counted]

/-- No front of the walk over the buffer (none of it included) brings the count to a limit that the whole walk ends below. -/
def Settled (t : MariaDBTxn) (s : Store) (lo hi : Bytes) (limit : ℕ) : Prop :=
  (∃ front, front <+: t.lookup.range lo hi ∧ limit ≤ counted (t.snap.getD s) ((t.snap.getD s).entries.range lo hi).length front) →
    limit ≤ counted (t.snap.getD s) ((t.snap.getD s).entries.range lo hi).length (t.lookup.range lo hi)

lemma Settled.countRange {limit : ℕ} (h : Settled t s lo hi limit) : (t.countRange s lo hi limit).1 = min limit (seen t s lo hi).ncard := by
  rcases countRange_spec t s lo hi limit with ⟨hreached, heq⟩ | ⟨hbelow, heq⟩
  · have hle := h hreached
    rw [heq, ncard_seen, min_eq_left hle]
  · have hlt := hbelow _ (List.prefix_refl _)
    rw [← ncard_seen] at hlt
    rw [heq, min_eq_right hlt.le]

/-- A range count is the number of keys the transaction sees there, up to the limit, exactly if its walk is settled. -/
theorem count_range_exact (t : MariaDBTxn) (s : Store) (lo hi : Bytes) (limit : ℕ) :
    (t.countRange s lo hi limit).1 = min limit (seen t s lo hi).ncard ↔ Settled t s lo hi limit := by
  refine ⟨fun h hreached => ?_, Settled.countRange⟩
  rw [← ncard_seen]
  rcases countRange_spec t s lo hi limit with ⟨-, heq⟩ | ⟨hbelow, -⟩
  · rw [heq, eq_comm, min_eq_left_iff] at h
    exact h
  · obtain ⟨front, hfront, hle⟩ := hreached
    exact absurd hle (hbelow front hfront).not_ge

def twoKeys : Store := { entries := (SortedMap.empty.insert [1] ⟨1, []⟩).insert [2] ⟨2, []⟩, nextSeq := 3 }

/-- The limit is reached before the walk comes to what the buffer takes away. -/
theorem deleted_keys_counted : (MariaDBTxn.countRange { lookup := (SortedMap.empty.insert [1] none).insert [2] none } twoKeys [0] [9] 2).1 = 2 ∧
    (seen { lookup := (SortedMap.empty.insert [1] none).insert [2] none } twoKeys [0] [9]).ncard = 0 := by
  rw [ncard_seen]
  decide

end Count

end Bytecask.MariaDb
