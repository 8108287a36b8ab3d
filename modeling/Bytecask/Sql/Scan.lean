import Bytecask.Sql.View

/-! A scan through the view delivers the entries of the snapshot with the overlay laid over them. -/

namespace Bytecask.Sql

open List Option

section Gives

variable {α β : Type} {b : Budget} {m : Read α} {P : α → Prop} {Q : β → Prop}

def Budget.Stops (b : Budget) (e : ReadError) (_ : ℕ) : Prop :=
  (e = .budget ∧ b.maxReads ≠ 0) ∨ (e = .canceled ∧ ∃ n, b.canceled n = true)

def Gives (b : Budget) (m : Read α) (P : α → Prop) : Prop := ∀ n, m.wp (fun a _ => P a) b.Stops n

lemma Gives.pure {a : α} (h : P a) : Gives b (Pure.pure a : Read α) P := fun _ => h

lemma Gives.bind {f : α → Read β} (hm : Gives b m P) (hf : ∀ a, P a → Gives b (f a) Q) : Gives b (m >>= f) Q := by
  intro n
  rw [EStateM.wp_bind]
  exact EStateM.wp_mono (hm n) (fun a n' ha => hf a ha n') (fun _ _ he => he)

lemma Gives.mono {P' : α → Prop} (hm : Gives b m P) (h : ∀ a, P a → P' a) : Gives b m P' :=
  fun n => EStateM.wp_mono (hm n) (fun a _ ha => h a ha) (fun _ _ he => he)

lemma gives_charge (b : Budget) (units : ℕ) : Gives b (b.charge units) (fun _ => True) := by
  intro n
  simp only [Budget.charge, EStateM.wp_bind, EStateM.wp_get, EStateM.wp_set]
  split_ifs with h₁ h₂ h₂
  · exact .inl ⟨rfl, h₁.1⟩
  · exact .inl ⟨rfl, h₁.1⟩
  · exact .inr ⟨rfl, _, h₂.2⟩
  · trivial

end Gives

namespace ViewEntries

variable {v : ViewEntries} {b : Budget}

section Walk

variable {at' : Bytes} {e : Bytes × Bytes}

def all (v : ViewEntries) : List (Bytes × Bytes) := directed v.reverse v.snap.entries

def reached (v : ViewEntries) (at' k : Bytes) : Bool := if v.reverse then k < at' else !(k < at')

def sought (v : ViewEntries) (at' : Bytes) : List (Bytes × Bytes) := v.all.filter (fun e => v.reached at' e.1)

lemma all_walk (v : ViewEntries) : Walk v.reverse v.all := walk_directed v.reverse v.snap.sorted

lemma reached_of_before {j k : Bytes} (h : Before v.reverse j k) (hj : v.reached at' j = true) : v.reached at' k = true := by
  rw [reached] at hj ⊢
  cases hr : v.reverse with
  | false =>
    rw [hr] at h hj
    simp only [Bool.false_eq_true, if_false, Bool.not_eq_true', decide_eq_false_iff_not, not_lt, Before.forward] at h hj ⊢
    exact hj.trans h.le
  | true =>
    rw [hr] at h hj
    simp only [if_true, decide_eq_true_eq, Before.backward] at h hj ⊢
    exact h.trans hj

lemma sought_suffix (v : ViewEntries) (at' : Bytes) : v.sought at' <:+ v.all := by
  have hdrop : v.all.dropWhile (fun e => !v.reached at' e.1) = v.sought at' := by
    rw [dropWhile_eq_filter v.all_walk]
    · simp [sought]
    · intro x y hxy hy
      simp only [Bool.not_eq_true'] at hy ⊢
      rw [Bool.eq_false_iff] at hy ⊢
      exact mt (reached_of_before hxy) hy
  rw [← hdrop]
  exact dropWhile_suffix _

lemma mem_sought : e ∈ v.sought at' ↔ e ∈ v.all ∧ v.reached at' e.1 = true := mem_filter

lemma mem_of_suffix {x : Bytes × Bytes} {t : List (Bytes × Bytes)} (h : x :: t <:+ v.all) :
    e ∈ x :: t ↔ e ∈ v.all ∧ ¬ Before v.reverse e.1 x.1 := by
  obtain ⟨pre, hpre⟩ := h
  have hwalk := v.all_walk
  rw [← hpre, Walk, pairwise_append] at hwalk
  obtain ⟨-, hxt, hcross⟩ := hwalk
  rw [← hpre, mem_append]
  constructor
  · intro he
    refine ⟨.inr he, fun hb => ?_⟩
    rcases mem_cons.1 he with rfl | he
    · exact Before.irrefl _ _ hb
    · exact hb.asymm ((pairwise_cons.1 hxt).1 e he)
  · rintro ⟨he | he, hb⟩
    · exact absurd (hcross e he x mem_cons_self) hb
    · exact he

lemma suffix_of_not_mem {α : Type} {l l' w : List α} {x : α} (h : l <:+ w) (h' : l' <:+ w) (hx : x ∈ l) (hx' : x ∉ l') :
    l' <:+ l ∧ l'.length < l.length := by
  rcases suffix_or_suffix_of_suffix h h' with hsuf | hsuf
  · exact absurd (hsuf.subset hx) hx'
  · refine ⟨hsuf, hsuf.length_le.lt_of_ne fun heq => hx' ?_⟩
    rwa [hsuf.eq_of_length heq]

end Walk

section Seek

variable {at' : Bytes}

lemma iterFrom_eq (hr : v.reverse = false) (at' : Bytes) : iterFrom v.snap at' = v.sought at' := by
  have hfilter := dropWhile_eq_filter (p := fun e : Bytes × Bytes => decide (e.1 < at')) v.snap.sorted (fun x y hxy hy => by
    simp only [decide_eq_true_eq] at hy ⊢
    exact hxy.trans hy)
  rw [iterFrom, hfilter, sought, all, hr]
  refine filter_congr fun e _ => ?_
  rw [reached, hr]
  rfl

lemma mem_riterFrom (hr : v.reverse = true) (hat : at' ≠ []) {e : Bytes × Bytes} :
    e ∈ riterFrom v.snap at' ↔ e ∈ v.all ∧ e.1 ≤ at' := by
  have hwalk := v.all_walk
  rw [all, hr] at hwalk ⊢
  have hfilter := dropWhile_eq_filter (p := fun e : Bytes × Bytes => decide (at' < e.1)) hwalk (fun x y hxy hy => by
    simp only [decide_eq_true_eq] at hy ⊢
    exact hy.trans hxy)
  have hdrop : riterFrom v.snap at' = (directed true v.snap.entries).dropWhile (fun e => decide (at' < e.1)) := by
    rw [riterFrom, if_neg hat]
    rfl
  rw [hdrop, hfilter, mem_filter]
  simp

lemma riterFrom_walk (hr : v.reverse = true) (at' : Bytes) : Walk v.reverse (riterFrom v.snap at') := by
  have hwalk := v.all_walk
  rw [all, hr] at hwalk
  rw [hr, riterFrom]
  split_ifs
  · exact hwalk
  · exact hwalk.sublist (dropWhile_suffix _).sublist

lemma gives_snapSeek (b : Budget) (hat : v.reverse = true → at' ≠ []) : Gives b (v.snapSeek b at') (fun l => l = v.sought at') := by
  rw [snapSeek]
  split_ifs with hr
  · have hmem : ∀ e, e ∈ riterFrom v.snap at' ↔ e ∈ v.all ∧ e.1 ≤ at' := fun e => mem_riterFrom hr (hat hr)
    have hwalk := riterFrom_walk hr at'
    have hsought : Walk _ _ := v.all_walk.sublist (v.sought_suffix at').sublist
    have hreached : ∀ e, e ∈ v.sought at' ↔ e ∈ v.all ∧ e.1 < at' := by
      intro e
      rw [mem_sought, reached, if_pos hr, decide_eq_true_eq]
    cases hit : riterFrom v.snap at' with
    | nil =>
      rw [hit] at hmem hwalk
      refine Gives.pure (hwalk.eq_of_mem_iff hsought fun e => ?_)
      rw [hmem, hreached]
      exact ⟨fun h => absurd ((hmem e).2 h) not_mem_nil, fun h => ⟨h.1, h.2.le⟩⟩
    | cons x rest =>
      rw [hit] at hmem hwalk
      obtain ⟨hx, hrest⟩ := pairwise_cons.1 hwalk
      have hxat := ((hmem x).1 mem_cons_self).2
      have hbelow : ∀ e ∈ rest, e.1 < x.1 := by
        intro e he
        have hb := hx e he
        rw [hr] at hb
        exact hb
      simp only
      split_ifs with heq
      · refine (gives_charge b 1).bind fun _ _ => Gives.pure (Walk.eq_of_mem_iff hrest hsought fun e => ?_)
        rw [hreached]
        constructor
        · intro he
          exact ⟨((hmem e).1 (mem_cons_of_mem x he)).1, heq ▸ hbelow e he⟩
        · rintro ⟨he, hlt⟩
          refine (mem_cons.1 ((hmem e).2 ⟨he, hlt.le⟩)).resolve_left ?_
          rintro rfl
          exact hlt.ne heq
      · refine Gives.pure (Walk.eq_of_mem_iff hwalk hsought fun e => ?_)
        rw [hmem, hreached]
        refine and_congr_right fun he => ⟨fun hle => ?_, fun hlt => hlt.le⟩
        have hlt : x.1 < at' := hxat.lt_of_ne heq
        rcases mem_cons.1 ((hmem e).2 ⟨he, hle⟩) with rfl | hin
        · exact hlt
        · exact (hbelow e hin).trans hlt
  · exact Gives.pure (iterFrom_eq (Bool.eq_false_iff.2 hr) at')

end Seek

section Snapshot

variable {k : Bytes} {r e : Bytes × Bytes} {n : ℕ}

def visible (v : ViewEntries) (e : Bytes × Bytes) : Bool := v.lo ≤ e.1 && e.1 < v.hi && (v.rangeAt e.1).isNone

structure Bounded (v : ViewEntries) : Prop where
  hi : v.reverse = true → v.hi ≠ []
  ranges : v.reverse = true → ∀ k r, v.rangeAt k = some r → r.1 ≠ []

structure Snap (v : ViewEntries) (l : List (Bytes × Bytes)) (live : Bool) (R : List (Bytes × Bytes)) : Prop where
  suffix : l <:+ v.sought v.start
  rest : R = l.filter v.visible
  onEntry : live = true → ∃ e t, l = e :: t ∧ v.visible e = true
  ended : live = false → R = []

lemma rangeAt_spec (h : v.rangeAt k = some r) : r.1 ≤ k ∧ k < r.2 ∧ ∀ j, r.1 ≤ j → j < r.2 → v.rangeAt j ≠ none := by
  obtain ⟨o, ho, hr⟩ := bind_eq_some_iff.1 h
  obtain ⟨hmem, hlo, hhi⟩ := RangeSet.rangeAt_eq_some.1 hr
  refine ⟨hlo, hhi, fun j hj hj' hnone => ?_⟩
  have hsome : v.rangeAt j = some r := bind_eq_some_iff.2 ⟨o, ho, RangeSet.rangeAt_eq_some.2 ⟨hmem, hj, hj'⟩⟩
  rw [hsome] at hnone
  cases hnone

lemma visible_iff : v.visible e = true ↔ v.lo ≤ e.1 ∧ e.1 < v.hi ∧ v.rangeAt e.1 = none := by
  simp [visible, and_assoc]

lemma mem_start : v.reached v.start k = true ∧ v.pastEnd k = false ↔ v.lo ≤ k ∧ k < v.hi := by
  rw [reached, start, pastEnd]
  cases v.reverse with
  | false => simp
  | true => simp [and_comm]

lemma pastEnd_of_before {j : Bytes} (h : ¬ Before v.reverse k j) (hj : v.pastEnd j = true) : v.pastEnd k = true := by
  rw [pastEnd] at hj ⊢
  cases hr : v.reverse with
  | false =>
    rw [hr] at h hj
    simp only [Bool.false_eq_true, if_false, Bool.not_eq_true', decide_eq_false_iff_not, not_lt, Before.forward] at h hj ⊢
    exact hj.trans h
  | true =>
    rw [hr] at h hj
    simp only [if_true, decide_eq_true_eq, Before.backward, not_lt] at h hj ⊢
    exact h.trans_lt hj

lemma reached_of_visible {x : Bytes × Bytes} (hr : v.rangeAt e.1 = some r) (hx : v.visible x = true)
    (hb : ¬ Before v.reverse x.1 e.1) : v.reached (if v.reverse then r.1 else r.2) x.1 = true := by
  obtain ⟨hlo, hhi, hin⟩ := rangeAt_spec hr
  have hnone := (visible_iff.1 hx).2.2
  rw [reached]
  cases hrev : v.reverse with
  | false =>
    rw [hrev] at hb
    simp only [Before.forward, not_lt] at hb
    simp only [Bool.false_eq_true, if_false, Bool.not_eq_true', decide_eq_false_iff_not]
    exact fun hlt => hin x.1 (hlo.trans hb) hlt hnone
  | true =>
    rw [hrev] at hb
    simp only [Before.backward, not_lt] at hb
    simp only [if_true, decide_eq_true_eq]
    by_contra hle
    exact hin x.1 (not_lt.1 hle) (hb.trans_lt hhi) hnone

lemma not_reached_of_rangeAt (hr : v.rangeAt k = some r) : v.reached (if v.reverse then r.1 else r.2) k = false := by
  obtain ⟨hlo, hhi, -⟩ := rangeAt_spec hr
  rw [reached]
  cases v.reverse with
  | false => simpa using hhi
  | true => simpa using hlo

lemma gives_snapLoop (hv : v.Bounded) (b : Budget) {it : List (Bytes × Bytes)} (hs : it <:+ v.sought v.start)
    (hn : it.length < n) : Gives b (v.snapLoop b n it) (fun p => v.Snap p.1 p.2 (it.filter v.visible)) := by
  induction n generalizing it with
  | zero => exact absurd hn (Nat.not_lt_zero _)
  | succ n ih =>
    cases it with
    | nil => exact Gives.pure ⟨hs, rfl, by simp, fun _ => rfl⟩
    | cons e rest =>
      have hall : e :: rest <:+ v.all := hs.trans (v.sought_suffix _)
      refine (gives_charge b 1).bind fun _ _ => ?_
      by_cases hend : v.pastEnd e.1 = true
      · rw [if_pos hend]
        refine Gives.pure ⟨hs, rfl, by simp, fun _ => filter_eq_nil_iff.2 fun x hx hvis => ?_⟩
        have hpast := pastEnd_of_before ((mem_of_suffix hall).1 hx).2 hend
        obtain ⟨hlo, hhi, -⟩ := visible_iff.1 hvis
        have hin := (mem_start.2 ⟨hlo, hhi⟩).2
        rw [hpast] at hin
        cases hin
      · rw [if_neg hend]
        cases hr : v.rangeAt e.1 with
        | none =>
          have hstart := (mem_sought.1 (hs.subset mem_cons_self)).2
          have hin := mem_start.1 ⟨hstart, Bool.eq_false_iff.2 hend⟩
          exact Gives.pure ⟨hs, rfl, fun _ => ⟨e, rest, rfl, visible_iff.2 ⟨hin.1, hin.2, hr⟩⟩, by simp⟩
        | some r =>
          have hat : v.reverse = true → (if v.reverse then r.1 else r.2) ≠ [] := by
            intro hrev
            rw [if_pos hrev]
            exact hv.ranges hrev e.1 r hr
          refine (gives_snapSeek b hat).bind ?_
          rintro it' rfl
          have hgone : e ∉ v.sought (if v.reverse then r.1 else r.2) := by
            rw [mem_sought, not_reached_of_rangeAt hr]
            simp
          obtain ⟨hsuf, hlen⟩ := suffix_of_not_mem hall (v.sought_suffix _) mem_cons_self hgone
          have hrest : (v.sought (if v.reverse then r.1 else r.2)).filter v.visible = (e :: rest).filter v.visible := by
            refine Walk.eq_of_mem_iff ((v.all_walk.sublist (v.sought_suffix _).sublist).filter _)
              ((v.all_walk.sublist hall.sublist).filter _) fun x => ?_
            rw [mem_filter, mem_filter]
            refine and_congr_left fun hvis => ⟨fun hx => hsuf.subset hx, fun hx => ?_⟩
            obtain ⟨hx, hb⟩ := (mem_of_suffix hall).1 hx
            exact mem_sought.2 ⟨hx, reached_of_visible hr hvis hb⟩
          rw [← hrest]
          exact ih (hsuf.trans hs) (by omega)

lemma sought_length_le (v : ViewEntries) (at' : Bytes) : (v.sought at').length ≤ v.snap.entries.length := by
  have hall : v.all.length = v.snap.entries.length := by
    rw [all, directed]
    split_ifs <;> simp
  rw [← hall]
  exact (v.sought_suffix at').length_le

lemma gives_snapStep_start (hv : v.Bounded) (b : Budget) (hn : v.snap.entries.length < n) (pos : Position)
    (hpos : pos.iter = none) : Gives b (v.snapStep b n pos) (fun pos' => ∃ l live,
      pos' = { pos with iter := some l, snapLive := live } ∧ v.Snap l live ((v.sought v.start).filter v.visible)) := by
  have hat : v.reverse = true → v.start ≠ [] := by
    intro hr
    rw [start, if_pos hr]
    exact hv.hi hr
  rw [snapStep, hpos]
  refine (gives_snapSeek b hat).bind ?_
  rintro it rfl
  refine (gives_snapLoop hv b suffix_rfl ((v.sought_length_le _).trans_lt hn)).bind fun p hp => ?_
  exact Gives.pure ⟨p.1, p.2, rfl, hp⟩

lemma gives_snapStep_next (hv : v.Bounded) (b : Budget) (hn : v.snap.entries.length < n) {pos : Position}
    {l R : List (Bytes × Bytes)} (hpos : pos.iter = some l) (hs : v.Snap l true R) :
    Gives b (v.snapStep b n pos) (fun pos' => ∃ l' live,
      pos' = { pos with iter := some l', snapLive := live } ∧ v.Snap l' live R.tail) := by
  obtain ⟨e, t, rfl, he⟩ := hs.onEntry rfl
  have hsuf : t <:+ v.sought v.start := (suffix_cons e t).trans hs.suffix
  have htail : R.tail = t.filter v.visible := by rw [hs.rest, filter_cons_of_pos he, tail_cons]
  rw [snapStep, hpos]
  refine (gives_snapLoop hv b hsuf ((hsuf.length_le.trans (v.sought_length_le _)).trans_lt hn)).bind fun p hp => ?_
  exact Gives.pure ⟨p.1, p.2, rfl, htail ▸ hp⟩

end Snapshot

section Points

variable {q : List (Bytes × Option Bytes)} {pos : Position}

def pointsFrom (v : ViewEntries) : List (Bytes × Option Bytes) :=
  (directed v.reverse v.points).filter (fun p => v.reached v.start p.1)

structure Points (v : ViewEntries) (q : List (Bytes × Option Bytes)) (live : Bool) (P : List (Bytes × Option Bytes)) : Prop where
  suffix : q <:+ v.pointsFrom
  rest : P = q.filter (fun p => !v.pastEnd p.1)
  onEntry : live = true → ∃ p t, q = p :: t ∧ v.pastEnd p.1 = false
  ended : live = false → P = []

lemma points_sorted (v : ViewEntries) : v.points.Pairwise (fun a b => a.1 < b.1) := by
  rw [points]
  cases v.overlay with
  | none => exact .nil
  | some o => exact o.points.sorted

lemma pointsFrom_walk (v : ViewEntries) : Walk v.reverse v.pointsFrom :=
  (walk_directed v.reverse v.points_sorted).filter _

lemma pointsFrom_eq (v : ViewEntries) : v.pointsFrom = if v.reverse then v.points.reverse.dropWhile (fun p => v.hi ≤ p.1)
    else v.points.dropWhile (fun p => p.1 < v.lo) := by
  have hwalk := walk_directed v.reverse v.points_sorted
  cases hr : v.reverse with
  | false =>
    rw [if_neg (by simp), dropWhile_eq_filter v.points_sorted, pointsFrom, hr]
    · refine filter_congr fun p _ => ?_
      rw [reached, start, hr]
      rfl
    · intro x y hxy hy
      simp only [decide_eq_true_eq] at hy ⊢
      exact hxy.trans hy
  | true =>
    rw [hr] at hwalk
    rw [if_pos rfl, pointsFrom, hr]
    refine Eq.trans ?_ (dropWhile_eq_filter hwalk fun x y hxy hy => ?_).symm
    · refine filter_congr fun p _ => ?_
      rw [reached, start, hr, Bool.eq_iff_iff]
      simp
    · simp only [decide_eq_true_eq] at hy ⊢
      exact hy.trans (le_of_lt hxy)

lemma points_at (hs : q <:+ v.pointsFrom) :
    v.Points q (q.head?.any (fun p => !v.pastEnd p.1)) (q.filter (fun p => !v.pastEnd p.1)) := by
  cases q with
  | nil => exact ⟨hs, rfl, by simp, fun _ => rfl⟩
  | cons p t =>
    refine ⟨hs, rfl, fun h => ⟨p, t, rfl, by simpa using h⟩, fun h => filter_eq_nil_iff.2 fun x hx => ?_⟩
    have hp : v.pastEnd p.1 = true := by simpa using h
    have hwalk : Walk v.reverse (p :: t) := v.pointsFrom_walk.sublist hs.sublist
    have hpast : v.pastEnd x.1 = true := by
      refine pastEnd_of_before (fun hb => ?_) hp
      rcases mem_cons.1 hx with rfl | hx
      · exact Before.irrefl _ _ hb
      · exact hb.asymm ((pairwise_cons.1 hwalk).1 x hx)
    simp [hpast]

lemma gives_pointStep (b : Budget) (hs : q <:+ v.pointsFrom)
    (hq : (if pos.started then pos.point.tail else v.pointsFrom) = q) : Gives b (v.pointStep b pos) (fun pos' => ∃ live,
      pos' = { pos with point := q, pointLive := live } ∧ v.Points q live (q.filter (fun p => !v.pastEnd p.1))) := by
  rw [pointsFrom_eq] at hq
  simp only [pointStep, hq]
  have hat := points_at hs
  generalize q.head?.any (fun p => !v.pastEnd p.1) = live at hat
  cases live with
  | false => exact Gives.pure ⟨false, rfl, hat⟩
  | true => exact (gives_charge b 1).bind fun _ _ => Gives.pure ⟨true, rfl, hat⟩

lemma gives_pointStep_next (b : Budget) {P : List (Bytes × Option Bytes)} (hstarted : pos.started = true)
    (hp : v.Points pos.point true P) : Gives b (v.pointStep b pos) (fun pos' => ∃ q live,
      pos' = { pos with point := q, pointLive := live } ∧ v.Points q live P.tail) := by
  obtain ⟨p, t, hpt, hin⟩ := hp.onEntry rfl
  have htail : P.tail = t.filter (fun p => !v.pastEnd p.1) := by
    rw [hp.rest, hpt, filter_cons_of_pos (by simp [hin]), tail_cons]
  have hs : t <:+ v.pointsFrom := (suffix_cons p t).trans (hpt ▸ hp.suffix)
  refine (gives_pointStep b hs (by rw [hstarted, hpt]; rfl)).mono ?_
  rintro pos' ⟨live, hpos', hpoints⟩
  exact ⟨t, live, hpos', htail ▸ hpoints⟩

end Points

section Next

structure On (v : ViewEntries) (pos : Position) (R : List (Bytes × Bytes)) (P : List (Bytes × Option Bytes)) : Prop where
  started : pos.started = true
  snap : ∃ l, pos.iter = some l ∧ v.Snap l pos.snapLive R
  points : v.Points pos.point pos.pointLive P

def Between (v : ViewEntries) (pos : Position) (L : List (Bytes × Bytes)) : Prop :=
  ∃ R P, v.On pos R P ∧ (pos.snapPending = true → pos.snapLive = true) ∧ (pos.pointPending = true → pos.pointLive = true) ∧
    L = overlaid v.reverse (if pos.snapPending then R.tail else R) (if pos.pointPending then P.tail else P)

def Delivers (v : ViewEntries) (L : List (Bytes × Bytes)) (out : Option (Bytes × Bytes) × Position) : Prop :=
  match out.1 with
  | none => L = []
  | some e => ∃ L', L = e :: L' ∧ v.Between out.2 L'

variable {R : List (Bytes × Bytes)} {P : List (Bytes × Option Bytes)} {pos : Position}
variable {n rounds : ℕ} {L : List (Bytes × Bytes)}

section

variable (h : v.On pos R P)

include h

lemma On.snapHead : (if pos.snapLive then pos.iter.bind List.head? else none) = R.head? := by
  obtain ⟨l, hl, hs⟩ := h.snap
  cases hlive : pos.snapLive with
  | false => rw [hs.ended hlive]; rfl
  | true =>
    obtain ⟨e, t, rfl, he⟩ := hs.onEntry hlive
    rw [hl, hs.rest, filter_cons_of_pos he]
    rfl

lemma On.pointHead : (if pos.pointLive then pos.point.head? else none) = P.head? := by
  cases hlive : pos.pointLive with
  | false => rw [h.points.ended hlive]; rfl
  | true =>
    obtain ⟨p, t, hpt, hp⟩ := h.points.onEntry hlive
    rw [h.points.rest, hpt, filter_cons_of_pos (by simp [hp])]
    rfl

lemma On.snapLive (hne : R ≠ []) : pos.snapLive = true := by
  obtain ⟨l, hl, hs⟩ := h.snap
  by_contra hlive
  exact hne (hs.ended (Bool.eq_false_iff.2 hlive))

lemma On.pointLive (hne : P ≠ []) : pos.pointLive = true := by
  by_contra hlive
  exact hne (h.points.ended (Bool.eq_false_iff.2 hlive))

lemma On.snapStep (hv : v.Bounded) (b : Budget) (hn : v.snap.entries.length < n)
    (hlive : pos.snapLive = true) : Gives b (v.snapStep b n pos) (fun pos' => v.On pos' R.tail P ∧
      pos'.snapPending = pos.snapPending ∧ pos'.pointPending = pos.pointPending ∧ pos'.pointLive = pos.pointLive) := by
  obtain ⟨l, hl, hs⟩ := h.snap
  rw [hlive] at hs
  refine (gives_snapStep_next hv b hn hl hs).mono ?_
  rintro pos' ⟨l', live, rfl, hs'⟩
  exact ⟨⟨h.started, ⟨l', rfl, hs'⟩, h.points⟩, rfl, rfl, rfl⟩

lemma On.pointStep (b : Budget) (hlive : pos.pointLive = true) :
    Gives b (v.pointStep b pos) (fun pos' => v.On pos' R P.tail ∧
      pos'.snapPending = pos.snapPending ∧ pos'.pointPending = pos.pointPending) := by
  have hp := h.points
  rw [hlive] at hp
  refine (gives_pointStep_next b h.started hp).mono ?_
  rintro pos' ⟨q, live, rfl, hp'⟩
  exact ⟨⟨h.started, h.snap, hp'⟩, rfl, rfl⟩

omit h in
lemma gives_nextLoop (hv : v.Bounded) (b : Budget) (hr : v.snap.entries.length < rounds)
    (h : v.On pos R P) (hsnap : pos.snapPending = false) (hpoint : pos.pointPending = false) (hn : P.length < n) :
    Gives b (v.nextLoop b rounds n pos) (v.Delivers (overlaid v.reverse R P)) := by
  induction n generalizing pos R P with
  | zero => exact absurd hn (Nat.not_lt_zero _)
  | succ n ih =>
    rw [nextLoop, h.pointHead, h.snapHead]
    cases P with
    | nil =>
      cases R with
      | nil => exact Gives.pure (by rw [Delivers, overlaid])
      | cons e R =>
        refine Gives.pure ⟨R, by rw [overlaid], e :: R, [], ⟨h.started, h.snap, h.points⟩, fun _ => h.snapLive (by simp), ?_, ?_⟩
        · rw [hpoint]
          exact fun hf => by cases hf
        · rw [hpoint]
          exact (overlaid.eq_1 v.reverse R).symm
    | cons p P =>
      -- The overlay's entry decides its key: shown if it is a put, passed over if not.
      have hdecides : ∀ {pos : Position} {R' : List (Bytes × Bytes)} {next : Read (Option (Bytes × Bytes) × Position)},
          v.On pos R' (p :: P) → pos.snapPending = false → pos.pointPending = false →
          (∀ value, p.2 = some value → next = pure (some (p.1, value), { pos with pointPending := true })) →
          (p.2 = none → next = v.pointStep b pos >>= v.nextLoop b rounds n) →
          Gives b next (v.Delivers (shown p ++ overlaid v.reverse R' P)) := by
        intro pos R' next h hsnap hpoint hput hdel
        obtain ⟨k, value⟩ := p
        cases value with
        | some value =>
          rw [hput value rfl]
          refine Gives.pure ⟨overlaid v.reverse R' P, rfl, R', (k, some value) :: P, ⟨h.started, h.snap, h.points⟩, ?_,
            fun _ => h.pointLive (by simp), ?_⟩
          · rw [hsnap]
            exact fun hf => by cases hf
          · rw [hsnap]
            rfl
        | none =>
          rw [hdel rfl]
          refine (h.pointStep b (h.pointLive (by simp))).bind ?_
          rintro pos' ⟨h', hs', hp'⟩
          exact ih h' (hs'.trans hsnap) (hp'.trans hpoint) (by simpa using hn)
      cases R with
      | nil =>
        rw [overlaid]
        refine hdecides h hsnap hpoint (fun value hp => ?_) (fun hp => ?_)
        all_goals simp [hp]
      | cons e R =>
        simp only [List.head?_cons, Option.any_some, Option.all_some]
        rw [overlaid]
        by_cases hb : Before v.reverse p.1 e.1
        · have htie : ¬ p.1 = e.1 := hb.ne
          simp only [hb, htie, decide_false, decide_true, Bool.or_true, if_true, Bool.false_eq_true, if_false, pure_bind]
          refine hdecides h hsnap hpoint (fun value hp => ?_) (fun hp => ?_)
          all_goals simp [hp]
        · by_cases htie : p.1 = e.1
          · simp only [htie, decide_true, Bool.true_or, if_true, Before.irrefl, if_false]
            refine (h.snapStep hv b hr (h.snapLive (by simp))).bind ?_
            rintro pos' ⟨h', hs', hp', -⟩
            refine hdecides h' (hs'.trans hsnap) (hp'.trans hpoint) (fun value hp => ?_) (fun hp => ?_)
            all_goals simp [hp, htie]
          · simp only [hb, htie, decide_false, Bool.or_false, Bool.false_eq_true, if_false]
            refine Gives.pure ⟨_, rfl, e :: R, p :: P, ⟨h.started, h.snap, h.points⟩, fun _ => h.snapLive (by simp), ?_, ?_⟩
            · rw [hpoint]
              exact fun hf => by cases hf
            · rw [hpoint]
              rfl

lemma On.gives_loop (hv : v.Bounded) (b : Budget) (hr : v.snap.entries.length < rounds)
    (hp : v.points.length < rounds) :
    Gives b (v.nextLoop b rounds rounds { pos with snapPending := false, pointPending := false })
      (v.Delivers (overlaid v.reverse R P)) := by
  have hall : (directed v.reverse v.points).length = v.points.length := by
    rw [directed]
    split_ifs <;> simp
  have hlen : P.length ≤ v.points.length := by
    rw [h.points.rest, ← hall]
    exact (length_filter_le _ _).trans (h.points.suffix.length_le.trans (length_filter_le _ _))
  have hon : v.On { pos with snapPending := false, pointPending := false } R P := ⟨h.started, h.snap, h.points⟩
  exact gives_nextLoop hv b hr hon rfl rfl (hlen.trans_lt hp)

end

lemma gives_stepPending (hv : v.Bounded) (b : Budget) (hr : v.snap.entries.length < rounds) (hon : v.On pos R P)
    (hsnap : pos.snapPending = true → pos.snapLive = true) (hpoint : pos.pointPending = true → pos.pointLive = true) :
    Gives b (v.stepPending b rounds pos) (fun pos' =>
      v.On pos' (if pos.snapPending then R.tail else R) (if pos.pointPending then P.tail else P)) := by
  have hpoints : ∀ {pos : Position} {R P}, v.On pos R P → (pos.pointPending = true → pos.pointLive = true) →
      Gives b (if pos.pointPending then v.pointStep b pos else pure pos)
        (fun pos' => v.On pos' R (if pos.pointPending then P.tail else P)) := by
    intro pos R P hon hpoint
    split_ifs with hpending
    · exact (hon.pointStep b (hpoint hpending)).mono fun pos' hon' => hon'.1
    · exact Gives.pure hon
  rw [stepPending]
  by_cases hpending : pos.snapPending = true
  · rw [if_pos hpending, if_pos hpending]
    refine (hon.snapStep hv b hr (hsnap hpending)).bind ?_
    rintro pos' ⟨hon', -, hp', hl'⟩
    rw [← hp']
    exact hpoints hon' (by rw [hp', hl']; exact hpoint)
  · rw [if_neg hpending, if_neg hpending]
    exact hpoints hon hpoint

lemma gives_next (hv : v.Bounded) (b : Budget) (hr : v.snap.entries.length < rounds)
    (hp : v.points.length < rounds) (h : v.Between pos L) :
    Gives b (v.next b rounds pos) (v.Delivers L) := by
  obtain ⟨R, P, hon, hsnap, hpoint, rfl⟩ := h
  rw [next, if_pos hon.started]
  exact (gives_stepPending hv b hr hon hsnap hpoint).bind fun pos' hon' => hon'.gives_loop hv b hr hp

def delivered (v : ViewEntries) : List (Bytes × Bytes) :=
  overlaid v.reverse ((v.sought v.start).filter v.visible) (v.pointsFrom.filter (fun p => !v.pastEnd p.1))

lemma gives_open (hv : v.Bounded) (b : Budget) (hr : v.snap.entries.length < rounds) :
    Gives b (v.open' b rounds {}) (fun pos => v.On pos ((v.sought v.start).filter v.visible)
      (v.pointsFrom.filter (fun p => !v.pastEnd p.1))) := by
  refine (gives_snapStep_start hv b hr {} rfl).bind ?_
  rintro pos ⟨l, live, rfl, hs⟩
  cases ho : v.overlay with
  | none =>
    have hnone : v.pointsFrom = [] := by
      rw [pointsFrom, points, ho]
      cases v.reverse <;> rfl
    refine Gives.pure ⟨rfl, ⟨l, rfl, hs⟩, ?_⟩
    rw [hnone]
    exact ⟨by rw [hnone], rfl, fun hf => (by cases hf), fun _ => rfl⟩
  | some o =>
    refine (gives_pointStep b suffix_rfl rfl).bind ?_
    rintro pos ⟨live', rfl, hpoints⟩
    exact Gives.pure ⟨rfl, ⟨l, rfl, hs⟩, hpoints⟩

lemma gives_next_start (hv : v.Bounded) (b : Budget) (hr : v.snap.entries.length < rounds)
    (hp : v.points.length < rounds) : Gives b (v.next b rounds {}) (v.Delivers v.delivered) := by
  exact (gives_open hv b hr).bind fun pos hon => hon.gives_loop hv b hr hp

lemma gives_calls_next (hv : v.Bounded) (b : Budget) (hr : v.snap.entries.length < rounds)
    (hp : v.points.length < rounds) (n : ℕ) {pos : Position}
    (h : Gives b (v.next b rounds pos) (v.Delivers L)) : Gives b (v.calls b rounds n pos) (fun es => es = L.take n) := by
  induction n generalizing pos L with
  | zero => exact Gives.pure rfl
  | succ n ih =>
    refine h.bind ?_
    rintro ⟨_ | e, pos'⟩ hd
    · obtain rfl : L = [] := hd
      exact Gives.pure rfl
    · obtain ⟨L', rfl, hb⟩ := hd
      refine (ih (gives_next hv b hr hp hb)).bind ?_
      rintro es rfl
      exact Gives.pure rfl

theorem gives_calls (hv : v.Bounded) (b : Budget) (hr : v.snap.entries.length < rounds)
    (hp : v.points.length < rounds) (n : ℕ) : Gives b (v.calls b rounds n {}) (fun es => es = v.delivered.take n) :=
  gives_calls_next hv b hr hp n (gives_next_start hv b hr hp)

end Next

section Delivered

variable {p : Bytes × Option Bytes} {e : Bytes × Bytes} (snap : SortedMap Bytes Bytes)

lemma viewGet_eq (overlay : Option Overlay) (k : Bytes) :
    viewGet snap overlay k = (overlay.map (fun o => o.atop snap k)).getD (snap.get k) := by
  rw [viewGet]
  cases overlay with
  | none => rfl
  | some o =>
    rw [bind_some, map_some, getD_some, Overlay.atop]
    cases o.find k <;> rfl

lemma viewGet_new (overlay : Option Overlay) (lo hi : Bytes) (reverse : Bool) (k : Bytes) :
    viewGet snap (new snap overlay lo hi reverse).overlay k = viewGet snap overlay k := by
  rw [new, viewGet_eq, viewGet_eq]
  cases overlay with
  | none => rfl
  | some o =>
    cases he : o.empty with
    | false => rw [filter_some_pos (by simp [he])]
    | true =>
      rw [filter_some_neg (by simp [he])]
      exact (Overlay.atop_of_empty he snap k).symm

lemma mem_pointsIn : p ∈ v.pointsFrom.filter (fun p => !v.pastEnd p.1) ↔
    p ∈ v.points ∧ v.lo ≤ p.1 ∧ p.1 < v.hi := by
  rw [mem_filter, pointsFrom, mem_filter, mem_directed, Bool.not_eq_true', and_assoc, mem_start]

lemma mem_visible : e ∈ (v.sought v.start).filter v.visible ↔
    e ∈ v.snap.entries ∧ v.lo ≤ e.1 ∧ e.1 < v.hi ∧ v.rangeAt e.1 = none := by
  rw [mem_filter, mem_sought, all, mem_directed, visible_iff]
  constructor
  · rintro ⟨⟨he, -⟩, hvis⟩
    exact ⟨he, hvis⟩
  · rintro ⟨he, hlo, hhi, hnone⟩
    exact ⟨⟨he, (mem_start.2 ⟨hlo, hhi⟩).1⟩, hlo, hhi, hnone⟩

lemma mem_points : p ∈ v.points ↔ v.overlay.bind (fun o => o.points.get p.1) = some p.2 := by
  rw [points]
  cases v.overlay with
  | none => simp
  | some o => exact SortedMap.get_eq_some.symm

lemma mem_delivered : e ∈ v.delivered ↔ v.lo ≤ e.1 ∧ e.1 < v.hi ∧ viewGet v.snap v.overlay e.1 = some e.2 := by
  have hbase : Walk v.reverse ((v.sought v.start).filter v.visible) :=
    (v.all_walk.sublist (v.sought_suffix _).sublist).filter _
  have hget : e ∈ v.snap.entries ↔ v.snap.get e.1 = some e.2 := SortedMap.get_eq_some.symm
  rw [delivered, mem_overlaid hbase (v.pointsFrom_walk.filter _), mem_pointsIn, mem_visible, hget]
  simp only [mem_pointsIn, mem_points, rangeAt, viewGet_eq]
  cases v.overlay with
  | none =>
    simp only [Option.bind_none, reduceCtorEq, false_and, false_or, not_false_eq_true, implies_true, and_true, Option.map_none,
      Option.getD_none]
    exact ⟨fun ⟨he, hlo, hhi⟩ => ⟨hlo, hhi, he⟩, fun ⟨hlo, hhi, he⟩ => ⟨he, hlo, hhi⟩⟩
  | some o =>
    simp only [Option.bind_some, Option.map_some, Option.getD_some, Overlay.atop, Overlay.find]
    cases hp : o.points.get e.1 with
    | some w =>
      simp only [Option.some.injEq, Option.getD_some]
      constructor
      · rintro (⟨rfl, hlo, hhi⟩ | ⟨⟨-, hlo, hhi, -⟩, hno⟩)
        · exact ⟨hlo, hhi, rfl⟩
        · exact absurd ⟨rfl, hlo, hhi⟩ (hno w)
      · rintro ⟨hlo, hhi, rfl⟩
        exact .inl ⟨rfl, hlo, hhi⟩
    | none =>
      simp only [reduceCtorEq, false_and, false_or, not_false_eq_true, implies_true, and_true]
      by_cases hc : o.covered e.1 = true
      · have hr : o.rangeAt e.1 ≠ none := Option.isSome_iff_ne_none.1 hc
        simp [hc, hr]
      · have hr : o.rangeAt e.1 = none := Option.not_isSome_iff_eq_none.1 hc
        simp only [hc, hr, Bool.false_eq_true, if_false, Option.getD_none, and_true]
        exact ⟨fun ⟨he, hlo, hhi⟩ => ⟨hlo, hhi, he⟩, fun ⟨hlo, hhi, he⟩ => ⟨he, hlo, hhi⟩⟩

lemma delivered_walk (v : ViewEntries) : Walk v.reverse v.delivered :=
  overlaid_walk ((v.all_walk.sublist (v.sought_suffix _).sublist).filter _) (v.pointsFrom_walk.filter _)

lemma delivered_eq {n : SortedMap Bytes Bytes} (h : ∀ k, viewGet v.snap v.overlay k = n.get k) :
    v.delivered = directed v.reverse (n.range v.lo v.hi) := by
  have hrange : (n.range v.lo v.hi).Pairwise (fun a b => a.1 < b.1) := by
    rw [SortedMap.range_eq_filter]
    exact n.sorted.filter _
  refine v.delivered_walk.eq_of_mem_iff (walk_directed _ hrange) fun e => ?_
  rw [mem_delivered, mem_directed, SortedMap.mem_range, h, SortedMap.get_eq_some]
  exact ⟨fun ⟨hlo, hhi, he⟩ => ⟨he, hlo, hhi⟩, fun ⟨he, hlo, hhi⟩ => ⟨hlo, hhi, he⟩⟩

end Delivered

end ViewEntries

end Bytecask.Sql
