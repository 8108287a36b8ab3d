import Mathlib

/-! Contents made of rows: a row stands under its key, and every other entry of its image belongs to that key. -/

structure Imaging (ρ κ ν : Type*) where
  image : ρ → κ → Option ν
  key : ρ → κ
  owner : κ → κ
  owned : κ → Prop
  owner_of_image : ∀ {r k v}, image r k = some v → owner k = key r
  owned_of_image : ∀ {r k v}, image r k = some v → owned k
  image_key : ∀ r, ∃ v, image r (key r) = some v
  ext_key : ∀ {r r'}, key r = key r' → image r (key r) = image r' (key r') → r = r'

namespace Imaging

variable {ρ κ ν : Type*} (I : Imaging ρ κ ν)

def Holds (m : κ → Option ν) (r : ρ) : Prop := m (I.key r) = I.image r (I.key r)

def Described (m : κ → Option ν) : Prop :=
  ∀ k, I.owned k → ∀ v, m k = some v ↔ ∃ r, I.Holds m r ∧ I.image r k = some v

def imageOf (r : Option ρ) (k : κ) : Option ν := r.bind (fun r => I.image r k)

def replaced [DecidableEq ν] (old new : κ → Option ν) (m : κ → Option ν) (k : κ) : Option ν :=
  if old k = new k then m k else new k

variable {I} {m m' : κ → Option ν} {r r' : ρ} {k g : κ}

lemma owner_key (I : Imaging ρ κ ν) (r : ρ) : I.owner (I.key r) = I.key r := by
  obtain ⟨v, hv⟩ := I.image_key r
  exact I.owner_of_image hv

lemma owned_key (I : Imaging ρ κ ν) (r : ρ) : I.owned (I.key r) := by
  obtain ⟨v, hv⟩ := I.image_key r
  exact I.owned_of_image hv

lemma Holds.eq_of_key (h : I.Holds m r) (h' : I.Holds m r') (hk : I.key r = I.key r') : r = r' := by
  refine I.ext_key hk ?_
  rw [← h, ← h', hk]

lemma Described.eq_image (h : I.Described m) (hr : I.Holds m r) (hk : I.owned k) (ho : I.owner k = I.key r) :
    m k = I.image r k := by
  refine Option.ext fun v => ?_
  rw [h k hk v]
  constructor
  · rintro ⟨r', hr', hv⟩
    have hsame : r' = r := hr'.eq_of_key hr ((I.owner_of_image hv).symm.trans ho)
    exact hsame ▸ hv
  · intro hv
    exact ⟨r, hr, hv⟩

lemma Described.eq_none (h : I.Described m) (hg : m g = none) (hk : I.owned k) (ho : I.owner k = g) : m k = none := by
  cases hv : m k with
  | none => rfl
  | some v =>
    obtain ⟨r, hr, hi⟩ := (h k hk v).1 hv
    obtain ⟨w, hw⟩ := I.image_key r
    have hkey : I.key r = g := (I.owner_of_image hi).symm.trans ho
    rw [Holds, hkey, hg] at hr
    rw [hkey, ← hr] at hw
    cases hw

lemma Described.eq_of_owner (h : I.Described m) (h' : I.Described m') (hg : m g = m' g) (hgo : I.owned g) (hgg : I.owner g = g)
    (hk : I.owned k) (ho : I.owner k = g) : m k = m' k := by
  cases hv : m g with
  | none =>
    rw [h.eq_none hv hk ho, h'.eq_none (hg ▸ hv) hk ho]
  | some v =>
    obtain ⟨r, hr, hi⟩ := (h g hgo v).1 hv
    have hkey : I.key r = g := (I.owner_of_image hi).symm.trans hgg
    have hr' : I.Holds m' r := by
      rw [Holds, hkey] at hr ⊢
      exact hg ▸ hr
    rw [h.eq_image hr hk (ho.trans hkey.symm), h'.eq_image hr' hk (ho.trans hkey.symm)]

lemma described_none (I : Imaging ρ κ ν) : I.Described (fun _ => none) := by
  intro k _ v
  refine ⟨(fun h => nomatch h), ?_⟩
  rintro ⟨r, hr, -⟩
  obtain ⟨w, hw⟩ := I.image_key r
  rw [Holds, hw] at hr
  cases hr

lemma described_image (I : Imaging ρ κ ν) (r : ρ) : I.Described (I.image r) := by
  intro k _ v
  refine ⟨fun h => ⟨r, rfl, h⟩, ?_⟩
  rintro ⟨r', hr', hv⟩
  obtain ⟨w, hw⟩ := I.image_key r'
  have hkey : I.key r' = I.key r := (I.owner_key r').symm.trans (I.owner_of_image (hr'.trans hw))
  have hsame : r = r' := I.ext_key hkey.symm (by rw [← hkey, hr'])
  exact hsame ▸ hv

lemma described_of_groups (h : ∀ g, ∃ m', I.Described m' ∧ ∀ k, I.owned k → I.owner k = g → m k = m' k) : I.Described m := by
  intro k hk v
  obtain ⟨m', hm', hg⟩ := h _
  rw [hg k hk rfl, hm' k hk v]
  refine exists_congr fun r => and_congr_left fun hv => ?_
  have hkey := I.owner_of_image hv
  rw [Holds, Holds, hg _ (I.owned_key r) ((I.owner_key r).trans hkey.symm)]

lemma Described.congr (h : I.Described m') (hm : ∀ k, I.owned k → m k = m' k) : I.Described m :=
  described_of_groups fun _ => ⟨m', h, fun k hk _ => hm k hk⟩

lemma imageOf_eq_none {r : Option ρ} (h : ∀ r₀ ∈ r, I.key r₀ ≠ I.owner k) : I.imageOf r k = none := by
  cases r with
  | none => rfl
  | some r =>
    cases hv : I.image r k with
    | none => exact hv
    | some v => exact absurd (I.owner_of_image hv).symm (h r rfl)

section Replace

variable [DecidableEq ν]

lemma replaced_of_eq {o n : κ → Option ν} (h : o k = n k → m k = n k) : replaced o n m k = n k := by
  rw [replaced]
  split_ifs with hk
  · exact h hk
  · rfl

lemma Described.replace (h : I.Described m) (old new : Option ρ) (hold : ∀ r ∈ old, I.Holds m r)
    (hnew : ∀ r ∈ new, m (I.key r) = none ∨ ∃ r₀ ∈ old, I.key r₀ = I.key r) :
    I.Described (replaced (I.imageOf old) (I.imageOf new) m) := by
  refine described_of_groups fun g => ?_
  by_cases hn : ∃ r ∈ new, I.key r = g
  · obtain ⟨n, rfl, rfl⟩ := hn
    refine ⟨I.image n, I.described_image n, fun k hk ho => replaced_of_eq fun hsame => ?_⟩
    by_cases hold' : ∃ r ∈ old, I.key r = I.key n
    · obtain ⟨o, rfl, hkey⟩ := hold'
      rw [← hsame]
      exact h.eq_image (hold o rfl) hk (ho.trans hkey.symm)
    · rw [← hsame, imageOf_eq_none fun r hr hkey => hold' ⟨r, hr, hkey.trans ho⟩]
      exact h.eq_none ((hnew n rfl).resolve_right hold') hk ho
  · have hnone : ∀ k, I.owner k = g → I.imageOf new k = none :=
      fun k ho => imageOf_eq_none fun r hr hkey => hn ⟨r, hr, hkey.trans ho⟩
    by_cases ho : ∃ r ∈ old, I.key r = g
    · obtain ⟨o, rfl, rfl⟩ := ho
      refine ⟨fun _ => none, I.described_none, fun k hk ho => ?_⟩
      rw [replaced_of_eq, hnone k ho]
      intro hsame
      rw [← hsame]
      exact h.eq_image (hold o rfl) hk ho
    · refine ⟨m, h, fun k _ hg => ?_⟩
      rw [replaced, if_pos]
      rw [hnone k hg, imageOf_eq_none fun r hr hkey => ho ⟨r, hr, hkey.trans hg⟩]

end Replace

section Distinct

variable {Clash : κ → κ → Prop} {o n : κ → Option ν}

def Distinct (Clash : κ → κ → Prop) (m : κ → Option ν) : Prop :=
  ∀ k k', Clash k k' → (m k).isSome → (m k').isSome → k = k'

lemma Distinct.congr {m' : κ → Option ν} (h : Distinct Clash m') (hm : ∀ k k', Clash k k' → m k = m' k ∧ m k' = m' k') :
    Distinct Clash m := by
  intro k k' hc hs hs'
  obtain ⟨hk, hk'⟩ := hm k k' hc
  exact h k k' hc (hk ▸ hs) (hk' ▸ hs')

lemma Distinct.replace [DecidableEq ν] (hm : Distinct Clash m) (hsymm : ∀ k k', Clash k k' → Clash k' k) (hn : Distinct Clash n)
    (hfree : ∀ k k', Clash k k' → (n k).isSome → o k ≠ n k → (m k').isSome → (o k').isSome) :
    Distinct Clash (replaced o n m) := by
  have hmixed : ∀ k k', Clash k k' → o k ≠ n k → (n k).isSome → o k' = n k' → (m k').isSome → k = k' := by
    intro k k' hc hk hs hk' hs'
    exact hn k k' hc hs (hk' ▸ hfree k k' hc hs hk hs')
  intro k k' hc hs hs'
  rw [replaced] at hs hs'
  by_cases hk : o k = n k <;> by_cases hk' : o k' = n k'
  · rw [if_pos hk] at hs
    rw [if_pos hk'] at hs'
    exact hm k k' hc hs hs'
  · rw [if_pos hk] at hs
    rw [if_neg hk'] at hs'
    exact (hmixed k' k (hsymm k k' hc) hk' hs' hk hs).symm
  · rw [if_neg hk] at hs
    rw [if_pos hk'] at hs'
    exact hmixed k k' hc hk hs hk' hs'
  · rw [if_neg hk] at hs
    rw [if_neg hk'] at hs'
    exact hn k k' hc hs hs'

end Distinct

end Imaging
