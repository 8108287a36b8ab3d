import Bytecask.Lib.SortedMap

/-! Walks over sorted entries with newer entries laid over them, in either direction. -/

variable {κ ν α : Type*}

def shown (p : κ × Option ν) : List (κ × ν) := p.2.toList.map (fun v => (p.1, v))

@[simp] lemma mem_shown {p : κ × Option ν} {e : κ × ν} : e ∈ shown p ↔ p = (e.1, some e.2) := by
  obtain ⟨k, v⟩ := p
  cases v <;> simp [shown, Prod.ext_iff, eq_comm]

lemma length_shown (p : κ × Option ν) : ((shown p).length : ℤ) = if p.2.isSome then 1 else 0 := by
  obtain ⟨k, _ | v⟩ := p <;> rfl

variable [LinearOrder κ]

def Before (reverse : Bool) (a b : κ) : Prop := if reverse then b < a else a < b

instance (reverse : Bool) (a b : κ) : Decidable (Before reverse a b) := inferInstanceAs (Decidable (ite _ _ _))

namespace Before

variable {reverse : Bool} {a b c : κ}

@[simp] lemma forward : Before false a b ↔ a < b := Iff.rfl

@[simp] lemma backward : Before true a b ↔ b < a := Iff.rfl

lemma irrefl (reverse : Bool) (a : κ) : ¬ Before reverse a a := by
  cases reverse <;> exact lt_irrefl a

lemma trans (h : Before reverse a b) (h' : Before reverse b c) : Before reverse a c := by
  cases reverse
  · exact lt_trans (α := κ) h h'
  · exact lt_trans (α := κ) h' h

lemma ne (h : Before reverse a b) : a ≠ b := by
  rintro rfl
  exact irrefl _ a h

lemma ne' (h : Before reverse a b) : b ≠ a := h.ne.symm

lemma asymm (h : Before reverse a b) : ¬ Before reverse b a := fun h' => irrefl reverse a (h.trans h')

lemma total (reverse : Bool) (h : a ≠ b) : Before reverse a b ∨ Before reverse b a := by
  cases reverse
  · exact lt_or_gt_of_ne h
  · exact (lt_or_gt_of_ne h).symm

end Before

def directed (reverse : Bool) (l : List α) : List α := if reverse then l.reverse else l

@[simp] lemma mem_directed {reverse : Bool} {l : List α} {a : α} : a ∈ directed reverse l ↔ a ∈ l := by
  cases reverse <;> simp [directed]

abbrev Walk (reverse : Bool) (l : List (κ × ν)) : Prop := l.Pairwise (fun a b => Before reverse a.1 b.1)

lemma walk_directed (reverse : Bool) {l : List (κ × ν)} (h : l.Pairwise (fun a b => a.1 < b.1)) :
    Walk reverse (directed reverse l) := by
  cases reverse
  · exact h
  · exact List.pairwise_reverse.2 h

lemma walk_range (m : SortedMap κ ν) (lo hi : κ) : Walk false (m.range lo hi) := by
  rw [SortedMap.range_eq_filter]
  exact List.Pairwise.filter _ m.sorted

lemma Walk.eq_of_mem_iff {reverse : Bool} {l m : List (κ × ν)} (hl : Walk reverse l) (hm : Walk reverse m)
    (h : ∀ e, e ∈ l ↔ e ∈ m) : l = m := by
  have hirrefl : Std.Irrefl (fun a b : κ × ν => Before reverse a.1 b.1) := ⟨fun a => Before.irrefl _ a.1⟩
  have hanti : Std.Antisymm (fun a b : κ × ν => Before reverse a.1 b.1) := ⟨fun _ _ hab hba => absurd hba hab.asymm⟩
  exact List.Pairwise.eq_of_mem_iff hl hm h

def overlaid (reverse : Bool) : List (κ × ν) → List (κ × Option ν) → List (κ × ν)
  | base, [] => base
  | [], p :: newer => shown p ++ overlaid reverse [] newer
  | b :: base, p :: newer =>
    if Before reverse p.1 b.1 then shown p ++ overlaid reverse (b :: base) newer
    else if p.1 = b.1 then shown p ++ overlaid reverse base newer
    else b :: overlaid reverse base (p :: newer)
termination_by base newer => base.length + newer.length

section Overlaid

variable {reverse : Bool} {base : List (κ × ν)} {newer : List (κ × Option ν)}

lemma mem_overlaid (hb : Walk reverse base) (ho : Walk reverse newer) {e : κ × ν} :
    e ∈ overlaid reverse base newer ↔ (e.1, some e.2) ∈ newer ∨ (e ∈ base ∧ ∀ v, (e.1, v) ∉ newer) := by
  fun_induction overlaid reverse base newer with
  | case1 base => simp
  | case2 p newer ih =>
    have ho' := (List.pairwise_cons.1 ho).2
    simp [ih .nil ho', eq_comm]
  | case3 b base p newer hlt ih =>
    obtain ⟨hp, ho'⟩ := List.pairwise_cons.1 ho
    obtain ⟨hbase, -⟩ := List.pairwise_cons.1 hb
    have hne : ∀ x ∈ b :: base, x.1 ≠ p.1 := by
      intro x hx
      rcases List.mem_cons.1 hx with rfl | hx
      · exact hlt.ne'
      · exact (hlt.trans (hbase x hx)).ne'
    have hover : (e ∈ b :: base ∧ ∀ v, (e.1, v) ∉ p :: newer) ↔ (e ∈ b :: base ∧ ∀ v, (e.1, v) ∉ newer) := by
      refine and_congr_right fun he => forall_congr' fun v => not_congr ?_
      rw [List.mem_cons, or_iff_right]
      exact fun h => hne e he (congrArg Prod.fst h)
    rw [List.mem_append, mem_shown, ih hb ho', hover, List.mem_cons (a := (e.1, some e.2)), or_assoc, @eq_comm _ p]
  | case4 b base p newer hlt heq ih =>
    obtain ⟨hp, ho'⟩ := List.pairwise_cons.1 ho
    obtain ⟨hbase, hb'⟩ := List.pairwise_cons.1 hb
    have hover : (e ∈ b :: base ∧ ∀ v, (e.1, v) ∉ p :: newer) ↔ (e ∈ base ∧ ∀ v, (e.1, v) ∉ newer) := by
      constructor
      · rintro ⟨he, hno⟩
        refine ⟨(List.mem_cons.1 he).resolve_left ?_, fun v hv => hno v (List.mem_cons_of_mem p hv)⟩
        rintro rfl
        exact hno p.2 (by rw [← heq]; exact List.mem_cons_self)
      · rintro ⟨he, hno⟩
        refine ⟨List.mem_cons_of_mem b he, fun v hv => ?_⟩
        rcases List.mem_cons.1 hv with h | h
        · exact (hbase e he).ne' ((congrArg _ h).trans heq)
        · exact hno v h
    rw [List.mem_append, mem_shown, ih hb' ho', hover, List.mem_cons, or_assoc, @eq_comm _ p]
  | case5 b base p newer hlt hne ih =>
    obtain ⟨hp, -⟩ := List.pairwise_cons.1 ho
    obtain ⟨-, hb'⟩ := List.pairwise_cons.1 hb
    have hbp : Before reverse b.1 p.1 := (Before.total _ (Ne.symm hne)).resolve_right hlt
    have hno : ∀ v, (b.1, v) ∉ p :: newer := by
      intro v hv
      rcases List.mem_cons.1 hv with h | h
      · exact hne (congrArg _ h).symm
      · exact (hbp.trans (hp _ h)).ne rfl
    rw [List.mem_cons, ih hb' ho, or_left_comm]
    refine or_congr Iff.rfl ?_
    constructor
    · rintro (rfl | ⟨he, hv⟩)
      · exact ⟨List.mem_cons_self, hno⟩
      · exact ⟨List.mem_cons_of_mem b he, hv⟩
    · rintro ⟨he, hv⟩
      exact (List.mem_cons.1 he).imp_right fun he => ⟨he, hv⟩

lemma overlaid_walk (hb : Walk reverse base) (ho : Walk reverse newer) : Walk reverse (overlaid reverse base newer) := by
  have hshown : ∀ (p : κ × Option ν) {l : List (κ × ν)}, Walk reverse l → (∀ e ∈ l, Before reverse p.1 e.1) →
      Walk reverse (shown p ++ l) := by
    rintro ⟨k, _ | v⟩ l hl hk
    · exact hl
    · exact List.pairwise_cons.2 ⟨hk, hl⟩
  fun_induction overlaid reverse base newer with
  | case1 base => exact hb
  | case2 p newer ih =>
    obtain ⟨hp, ho'⟩ := List.pairwise_cons.1 ho
    refine hshown p (ih .nil ho') fun e he => ?_
    rw [mem_overlaid .nil ho'] at he
    exact hp _ (he.resolve_right (by simp))
  | case3 b base p newer hlt ih =>
    obtain ⟨hp, ho'⟩ := List.pairwise_cons.1 ho
    obtain ⟨hbase, -⟩ := List.pairwise_cons.1 hb
    refine hshown p (ih hb ho') fun e he => ?_
    rcases (mem_overlaid hb ho').1 he with h | ⟨h, -⟩
    · exact hp _ h
    · rcases List.mem_cons.1 h with rfl | h
      · exact hlt
      · exact hlt.trans (hbase e h)
  | case4 b base p newer hlt heq ih =>
    obtain ⟨hp, ho'⟩ := List.pairwise_cons.1 ho
    obtain ⟨hbase, hb'⟩ := List.pairwise_cons.1 hb
    refine hshown p (ih hb' ho') fun e he => ?_
    rcases (mem_overlaid hb' ho').1 he with h | ⟨h, -⟩
    · exact hp _ h
    · exact heq ▸ hbase e h
  | case5 b base p newer hlt hne ih =>
    obtain ⟨hp, -⟩ := List.pairwise_cons.1 ho
    obtain ⟨hbase, hb'⟩ := List.pairwise_cons.1 hb
    have hbp : Before reverse b.1 p.1 := (Before.total _ (Ne.symm hne)).resolve_right hlt
    refine List.pairwise_cons.2 ⟨fun e he => ?_, ih hb' ho⟩
    rcases (mem_overlaid hb' ho).1 he with h | ⟨h, -⟩
    · rcases List.mem_cons.1 h with h | h
      · exact (congrArg Prod.fst h) ▸ hbp
      · exact hbp.trans (hp _ h)
    · exact hbase e h

def gain (base : List (κ × ν)) (p : κ × Option ν) : ℤ :=
  (if p.2.isSome then 1 else 0) - (if p.1 ∈ base.map Prod.fst then 1 else 0)

lemma sum_gain_congr {base' : List (κ × ν)} (h : ∀ p ∈ newer, (p.1 ∈ base.map Prod.fst ↔ p.1 ∈ base'.map Prod.fst)) :
    (newer.map (gain base)).sum = (newer.map (gain base')).sum := by
  refine congrArg _ (List.map_congr_left fun p hp => ?_)
  rw [gain, gain]
  simp only [h p hp]

lemma length_overlaid (hb : Walk reverse base) (ho : Walk reverse newer) :
    ((overlaid reverse base newer).length : ℤ) = base.length + (newer.map (gain base)).sum := by
  fun_induction overlaid reverse base newer with
  | case1 base => simp
  | case2 p newer ih =>
    rw [List.length_append, Nat.cast_add, length_shown, ih .nil (List.pairwise_cons.1 ho).2, List.map_cons, List.sum_cons, gain]
    simp
  | case3 b base p newer hlt ih =>
    obtain ⟨hbase, -⟩ := List.pairwise_cons.1 hb
    have hno : p.1 ∉ (b :: base).map Prod.fst := by
      intro hmem
      obtain ⟨x, hx, hxp⟩ := List.mem_map.1 hmem
      rcases List.mem_cons.1 hx with rfl | hx
      · exact hlt.ne' hxp
      · exact (hlt.trans (hbase x hx)).ne' hxp
    rw [List.length_append, Nat.cast_add, length_shown, ih hb (List.pairwise_cons.1 ho).2, List.map_cons, List.sum_cons, gain,
      if_neg hno]
    omega
  | case4 b base p newer hlt heq ih =>
    obtain ⟨hp, ho'⟩ := List.pairwise_cons.1 ho
    have hyes : p.1 ∈ (b :: base).map Prod.fst := by simp [heq]
    have hsum : (newer.map (gain (b :: base))).sum = (newer.map (gain base)).sum := by
      refine sum_gain_congr fun q hq => ?_
      have hne : q.1 ≠ b.1 := heq ▸ (hp q hq).ne'
      simp [hne]
    rw [List.length_append, Nat.cast_add, length_shown, ih (List.pairwise_cons.1 hb).2 ho', List.map_cons, List.sum_cons, hsum,
      gain, if_pos hyes, List.length_cons, Nat.cast_add]
    omega
  | case5 b base p newer hlt hne ih =>
    obtain ⟨hp, -⟩ := List.pairwise_cons.1 ho
    have hbp : Before reverse b.1 p.1 := (Before.total _ (Ne.symm hne)).resolve_right hlt
    have hsum : ((p :: newer).map (gain (b :: base))).sum = ((p :: newer).map (gain base)).sum := by
      refine sum_gain_congr fun q hq => ?_
      have hqb : q.1 ≠ b.1 := by
        rcases List.mem_cons.1 hq with rfl | hq
        · exact hbp.ne'
        · exact (hbp.trans (hp q hq)).ne'
      simp [hqb]
    rw [List.length_cons, Nat.cast_add, ih (List.pairwise_cons.1 hb).2 ho, hsum, List.length_cons, Nat.cast_add]
    omega

end Overlaid
