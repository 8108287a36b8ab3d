import Bytecask.PatchMap.Layers

/-! Every version of a patch map is the plain map that saw the same operations, and goes on being it. -/

namespace Bytecask.PatchMap

open List SortedMap

variable {κ ν δ : Type} [LinearOrder κ] {P : Policy ν δ}

section Chain

variable {heap : Heap κ ν δ} {runs : Option ℕ}

def Ordered (heap : Heap κ ν δ) : Prop := ∀ (i : ℕ) (r : Run κ ν δ), heap[i]? = some r → Sorted r.entries ∧ ∀ j ∈ r.prev, j < i

lemma chainFrom_congr (h : Ordered heap) {n m : ℕ} (hr : ∀ i ∈ runs, i < n ∧ i < m) :
    chainFrom heap n runs = chainFrom heap m runs := by
  induction n generalizing m runs with
  | zero =>
    cases runs with
    | none => cases m <;> rfl
    | some i => exact absurd (hr i rfl).1 (Nat.not_lt_zero i)
  | succ n ih =>
    cases runs with
    | none => cases m <;> rfl
    | some i =>
      obtain ⟨hn, hm⟩ := hr i rfl
      obtain ⟨m, rfl⟩ := Nat.exists_eq_succ_of_ne_zero (Nat.ne_zero_of_lt hm)
      rw [chainFrom, chainFrom]
      cases hi : heap[i]? with
      | none => rfl
      | some r =>
        refine congrArg _ (ih fun j hj => ?_)
        have hlt := (h i r hi).2 j hj
        omega

lemma chainFrom_append (extra : Heap κ ν δ) (h : Ordered heap) (n : ℕ) (hr : ∀ i ∈ runs, i < heap.length) :
    chainFrom (heap ++ extra) n runs = chainFrom heap n runs := by
  induction n generalizing runs with
  | zero => rfl
  | succ n ih =>
    cases runs with
    | none => rfl
    | some i =>
      rw [chainFrom, chainFrom, List.getElem?_append_left (hr i rfl)]
      cases hi : heap[i]? with
      | none => rfl
      | some r => exact congrArg _ (ih fun j hj => ((h i r hi).2 j hj).trans (hr i rfl))

lemma chain_append (h : Ordered heap) (extra : Heap κ ν δ) (hr : ∀ i ∈ runs, i < heap.length) :
    chain (heap ++ extra) runs = chain heap runs := by
  rw [chain, chainFrom_append extra h _ hr]
  refine chainFrom_congr h fun i hi => ⟨?_, hr i hi⟩
  rw [length_append]
  exact (hr i hi).trans_le (Nat.le_add_right _ _)

lemma chain_pushed (h : Ordered heap) (es : List (Entry κ ν δ)) (hr : ∀ i ∈ runs, i < heap.length) :
    chain (heap ++ [⟨es, runs⟩]) (some heap.length) = es :: chain heap runs := by
  have hnew : (heap ++ [(⟨es, runs⟩ : Run κ ν δ)])[heap.length]? = some ⟨es, runs⟩ := by simp
  rw [chain, length_append, length_singleton, chainFrom, hnew]
  dsimp only
  rw [chainFrom_append _ h _ hr]
  rfl

lemma Ordered.push (h : Ordered heap) {es : List (Entry κ ν δ)} (hs : Sorted es) (hr : ∀ i ∈ runs, i < heap.length) :
    Ordered (heap ++ [⟨es, runs⟩]) := by
  intro i r hi
  rcases lt_trichotomy i heap.length with hlt | rfl | hgt
  · rw [List.getElem?_append_left hlt] at hi
    exact h i r hi
  · rw [List.getElem?_append_right le_rfl, Nat.sub_self, List.getElem?_cons_zero] at hi
    cases hi
    exact ⟨hs, hr⟩
  · rw [List.getElem?_eq_none (by rw [length_append, length_singleton]; omega)] at hi
    cases hi

lemma sorted_of_chain (h : Ordered heap) : ∀ es ∈ chain heap runs, Sorted es := by
  have hfrom : ∀ n runs, ∀ es ∈ chainFrom heap n runs, Sorted es := by
    intro n
    induction n with
    | zero => nofun
    | succ n ih =>
      intro runs es hes
      cases runs with
      | none => cases hes
      | some i =>
        rw [chainFrom] at hes
        cases hi : heap[i]? with
        | none =>
          rw [hi] at hes
          cases hes
        | some r =>
          rw [hi] at hes
          rcases mem_cons.1 hes with rfl | hes
          · exact (h i r hi).1
          · exact ih _ es hes
  exact hfrom _ _

end Chain

/-- The layers of a version in a heap: their number, and the plain map they stand for with `pending` on top of them. -/
structure Stands (P : Policy ν δ) (maxDepth : ℕ) (heap : Heap κ ν δ) (v : Version κ ν) (pending : List (Entry κ ν δ))
    (m : SortedMap κ ν) : Prop where
  runs : ∀ i ∈ v.runs, i < heap.length
  depth : (chain heap v.runs).length = v.depth
  bounded : v.depth ≤ maxDepth
  sorted : Sorted pending
  value : ∀ k, effect P k ((chain heap v.runs).reverse.flatten ++ pending) (v.base.get k) = m.get k

section Stands

variable {maxDepth : ℕ} {heap : Heap κ ν δ} {v : Version κ ν} {pending : List (Entry κ ν δ)} {t : Transient κ ν δ} {m : SortedMap κ ν}

lemma Stands.grow (h : Stands P maxDepth heap v pending m) (ho : Ordered heap) (extra : Heap κ ν δ) :
    Stands P maxDepth (heap ++ extra) v pending m := by
  have hchain := chain_append ho extra h.runs
  refine ⟨fun i hi => ?_, ?_, h.bounded, h.sorted, ?_⟩
  · rw [length_append]
    exact (h.runs i hi).trans_le (Nat.le_add_right _ _)
  · rw [hchain]
    exact h.depth
  · rw [hchain]
    exact h.value

lemma Stands.get_eq (h : Stands P maxDepth heap v [] m) (ho : Ordered heap) (k : κ) : v.get P heap k = m.get k := by
  rw [Version.get, lookup_eq (sorted_of_chain ho), ← h.value, append_nil]

lemma Stands.all_eq (hP : P.Lawful) (h : Stands P maxDepth heap v [] m) : v.all P heap = m.entries := by
  let merged : SortedMap κ ν := ⟨v.all P heap, sorted_mergeInto v.base.sorted (sorted_collect _)⟩
  have hsame : merged = m := by
    refine SortedMap.ext fun k => Option.ext fun x => ?_
    rw [get_eq_some, ← h.value, append_nil]
    exact (mem_mergeInto v.base.sorted (sorted_collect _)).trans (by rw [effect_collect hP]; rfl)
  exact congrArg SortedMap.entries hsame

lemma Stands.draft_get_eq (h : Stands P maxDepth heap t.toVersion t.pending m) (ho : Ordered heap) (k : κ) : t.get P heap k = m.get k := by
  rw [Transient.get, lookup_eq, ← h.value, reverse_cons, flatten_append, flatten_singleton]
  intro es hes
  rcases mem_cons.1 hes with rfl | hes
  · exact h.sorted
  · exact sorted_of_chain ho es hes

lemma stands_wrapped (P : Policy ν δ) (maxDepth : ℕ) (heap : Heap κ ν δ) (base : SortedMap κ ν) :
    Stands P maxDepth heap { base } [] base := by
  have hchain : chain heap (none : Option ℕ) = [] := by
    rw [chain]
    cases heap.length <;> rfl
  refine ⟨nofun, ?_, Nat.zero_le _, .nil, fun k => ?_⟩
  · rw [hchain]
    rfl
  · rw [hchain]
    rfl

lemma Stands.record (hP : P.Lawful) (h : Stands P maxDepth heap t.toVersion t.pending m) (key : κ) (p : Patch ν δ) {m' : SortedMap κ ν}
    (hm : ∀ k, m'.get k = effect P k [(key, p)] (m.get k)) :
    Stands P maxDepth heap (t.record P key p).toVersion (t.record P key p).pending m' := by
  obtain ⟨hsorted, hsame, heffect⟩ := record_spec hP h.sorted key p
  rw [hsame]
  refine ⟨h.runs, h.depth, h.bounded, hsorted, fun k => ?_⟩
  rw [hm, ← h.value, effect_append, heffect, effect_append, effect_append]

lemma Stands.persistent (h : Stands P maxDepth heap t.toVersion t.pending m) (ho : Ordered heap) :
    ∃ extra, (t.persistent P maxDepth heap).1 = heap ++ extra ∧ Ordered (heap ++ extra) ∧
      Stands P maxDepth (heap ++ extra) (t.persistent P maxDepth heap).2 [] m := by
  rw [Transient.persistent]
  by_cases hnil : t.pending = []
  · rw [if_pos hnil]
    refine ⟨[], (append_nil _).symm, ?_, ?_⟩
    · rwa [append_nil]
    · rw [append_nil]
      exact hnil ▸ h
  · rw [if_neg hnil]
    by_cases hdepth : t.depth < maxDepth
    · have hchain := chain_pushed ho t.pending h.runs
      rw [if_pos hdepth]
      refine ⟨_, rfl, ho.push h.sorted h.runs, ⟨fun i hi => ?_, ?_, hdepth, .nil, fun k => ?_⟩⟩
      · cases hi
        simp
      · rw [hchain, length_cons, h.depth]
      · rw [hchain, reverse_cons, flatten_append, flatten_singleton, append_nil]
        exact h.value k
    · rw [if_neg hdepth]
      refine ⟨[], (append_nil _).symm, ?_, ?_⟩
      · rwa [append_nil]
      · rw [append_nil]
        refine (?_ : _ = m) ▸ stands_wrapped P _ heap _
        refine SortedMap.ext fun k => ?_
        rw [get_replay, flatten_append, flatten_singleton]
        exact h.value k

end Stands

structure FileStatsWords where
  liveBytes : UInt64 := 0
  totalBytes : UInt64 := 0
  minSequence : UInt64 := 0
  maxSequence : UInt64 := 0
  tombstoneBytes : UInt64 := 0
  markerBytes : UInt64 := 0
  changeMarkerBytes : UInt64 := 0
deriving DecidableEq

structure FileStatsDeltaWords where
  liveAdded : UInt64 := 0
  liveRemoved : UInt64 := 0
  totalAdded : UInt64 := 0
  tombstoneAdded : UInt64 := 0
  markerAdded : UInt64 := 0
  changeMarkerAdded : UInt64 := 0
  minSequence : UInt64 := 0
  maxSequence : UInt64 := 0
deriving DecidableEq

def fileStatsPolicy : Policy FileStatsWords FileStatsDeltaWords where
  apply fs d :=
    { liveBytes := fs.liveBytes + d.liveAdded - d.liveRemoved
      totalBytes := fs.totalBytes + d.totalAdded
      tombstoneBytes := fs.tombstoneBytes + d.tombstoneAdded
      markerBytes := fs.markerBytes + d.markerAdded
      changeMarkerBytes := fs.changeMarkerBytes + d.changeMarkerAdded
      minSequence := if fs.minSequence = 0 then d.minSequence else fs.minSequence
      maxSequence := max fs.maxSequence d.maxSequence }
  combine older d :=
    { liveAdded := older.liveAdded + d.liveAdded
      liveRemoved := older.liveRemoved + d.liveRemoved
      totalAdded := older.totalAdded + d.totalAdded
      tombstoneAdded := older.tombstoneAdded + d.tombstoneAdded
      markerAdded := older.markerAdded + d.markerAdded
      changeMarkerAdded := older.changeMarkerAdded + d.changeMarkerAdded
      minSequence := if older.minSequence = 0 then d.minSequence else older.minSequence
      maxSequence := max older.maxSequence d.maxSequence }

lemma fileStatsPolicy_lawful : fileStatsPolicy.Lawful := by
  intro v d₁ d₂
  have hlive : ∀ l a₁ a₂ r₁ r₂ : UInt64, l + (a₁ + a₂) - (r₁ + r₂) = l + a₁ - r₁ + a₂ - r₂ := by
    grind
  have hmin : ∀ m m₁ m₂ : UInt64, (if m = 0 then (if m₁ = 0 then m₂ else m₁) else m) =
      if (if m = 0 then m₁ else m) = 0 then m₂ else (if m = 0 then m₁ else m) := by
    intro m m₁ m₂
    by_cases hm : m = 0
    · rw [if_pos hm, if_pos hm]
    · rw [if_neg hm, if_neg hm, if_neg hm]
  have hmax : ∀ a b c : UInt64, max a (max b c) = max (max a b) c := by
    intro a b c
    have hdef : ∀ a b : UInt64, max a b = if a ≤ b then b else a := fun _ _ => rfl
    simp only [hdef]
    split_ifs <;> first | rfl | (simp only [UInt64.le_iff_toNat_le] at *; omega)
  simp only [fileStatsPolicy, hlive, hmin, hmax, UInt64.add_assoc]

section Run

variable {maxDepth : ℕ} {w : World κ ν δ}

structure WorldInv (P : Policy ν δ) (maxDepth : ℕ) (w : World κ ν δ) : Prop where
  ordered : Ordered w.heap
  versions : ∀ v m, (v, m) ∈ w.versions → Stands P maxDepth w.heap v [] m
  transients : ∀ t m, some (t, m) ∈ w.transients → Stands P maxDepth w.heap t.toVersion t.pending m

lemma WorldInv.write (h : WorldInv P maxDepth w) (j : ℕ) {f : Transient κ ν δ → Transient κ ν δ} {g : SortedMap κ ν → SortedMap κ ν}
    (hfg : ∀ t m, Stands P maxDepth w.heap t.toVersion t.pending m → Stands P maxDepth w.heap (f t).toVersion (f t).pending (g m)) :
    WorldInv P maxDepth (w.write j f g) := by
  refine ⟨h.ordered, h.versions, fun t m hm => ?_⟩
  obtain ⟨i, hi⟩ := mem_iff_getElem?.1 hm
  rw [World.write, List.getElem?_modify] at hi
  obtain ⟨d, hd, hf⟩ := Option.map_eq_some_iff.1 hi
  have hd := mem_of_getElem? hd
  split_ifs at hf
  · obtain ⟨⟨t₀, m₀⟩, rfl, hd'⟩ := Option.map_eq_some_iff.1 hf
    cases hd'
    exact hfg t₀ m₀ (h.transients t₀ m₀ hd)
  · rw [hf] at hd
    exact h.transients t m hd

lemma WorldInv.freeze (h : WorldInv P maxDepth w) (j : ℕ) : WorldInv P maxDepth (w.freeze P maxDepth j) ∧
    ∃ extra, (w.freeze P maxDepth j).heap = w.heap ++ extra ∧ ∀ x ∈ w.versions, x ∈ (w.freeze P maxDepth j).versions := by
  rw [World.freeze]
  cases hd : w.draft j with
  | none => exact ⟨h, [], (append_nil _).symm, fun x hx => hx⟩
  | some d =>
    obtain ⟨t, m⟩ := d
    have hmem : some (t, m) ∈ w.transients := by
      obtain ⟨x, hx, rfl⟩ := Option.bind_eq_some_iff.1 hd
      exact mem_of_getElem? hx
    obtain ⟨extra, hheap, hordered, hstands⟩ := (h.transients t m hmem).persistent h.ordered
    dsimp only
    rw [hheap]
    refine ⟨⟨hordered, fun v m' hv => ?_, fun t' m' ht' => ?_⟩, extra, rfl, fun x hx => mem_append_left _ hx⟩
    · rcases mem_append.1 hv with hv | hv
      · exact (h.versions v m' hv).grow h.ordered extra
      · cases mem_singleton.1 hv
        exact hstands
    · rcases mem_or_eq_of_mem_set ht' with ht' | ht'
      · exact (h.transients t' m' ht').grow h.ordered extra
      · cases ht'

lemma effect_single (key k : κ) (p : Patch ν δ) (o : Option ν) : effect P k [(key, p)] o = if k = key then act P p o else o := by
  by_cases hk : key = k
  · rw [effect_cons_eq (by exact hk), if_pos hk.symm, effect_nil]
  · rw [effect_cons_ne (by exact hk), if_neg (Ne.symm hk), effect_nil]

lemma WorldInv.step (hP : P.Lawful) (h : WorldInv P maxDepth w) (a : Action κ ν δ) :
    WorldInv P maxDepth ((machine P maxDepth).next w a) ∧ ∃ extra, ((machine P maxDepth).next w a).heap = w.heap ++ extra ∧
      ∀ x ∈ w.versions, x ∈ ((machine P maxDepth).next w a).versions := by
  have hsame : ∃ extra, w.heap = w.heap ++ extra ∧ ∀ x ∈ w.versions, x ∈ w.versions :=
    ⟨[], (append_nil _).symm, fun x hx => hx⟩
  cases a with
  | wrap base =>
    refine ⟨⟨h.ordered, fun v m hv => ?_, h.transients⟩, [], (append_nil _).symm, fun x hx => mem_append_left _ hx⟩
    rcases mem_append.1 hv with hv | hv
    · exact h.versions v m hv
    · cases mem_singleton.1 hv
      exact stands_wrapped P _ w.heap base
  | transient i =>
    dsimp only [machine]
    cases hi : w.versions[i]? with
    | none => exact ⟨h, hsame⟩
    | some x =>
      obtain ⟨v, m⟩ := x
      refine ⟨⟨h.ordered, h.versions, fun t m' ht => ?_⟩, hsame⟩
      rcases mem_append.1 ht with ht | ht
      · exact h.transients t m' ht
      · cases mem_singleton.1 ht
        exact h.versions v m (mem_of_getElem? hi)
  | set j key v =>
    have hw : WorldInv P maxDepth (w.write j (fun t => t.set P key v) (fun m => m.insert key v)) := by
      refine h.write j fun t m ht => ht.record hP key _ fun k => ?_
      rw [effect_single, get_insert, act]
    exact ⟨hw, hsame⟩
  | erase j key =>
    have hw : WorldInv P maxDepth (w.write j (fun t => t.erase P key) (fun m => m.erase key)) := by
      refine h.write j fun t m ht => ht.record hP key .erased fun k => ?_
      rw [effect_single, get_erase, act]
    exact ⟨hw, hsame⟩
  | patch j key d =>
    have hw : WorldInv P maxDepth (w.write j (fun t => t.patch P key d) (fun m => m.adjust key (fun v => P.apply v d))) := by
      refine h.write j fun t m ht => ht.record hP key _ fun k => ?_
      rw [effect_single, get_adjust, act]
      by_cases hk : k = key
      · rw [if_pos hk, if_pos hk, hk]
      · rw [if_neg hk, if_neg hk]
    exact ⟨hw, hsame⟩
  | persistent j => exact h.freeze j

lemma worldInv_of_reachable (hP : P.Lawful) (h : (machine P maxDepth).Reachable w) : WorldInv P maxDepth w :=
  h.invariant (fun _ h₀ => h₀ ▸ ⟨nofun, nofun, nofun⟩) fun _ a hw _ => (hw.step hP a).1

/-- Every version reads as the plain map that saw its operations, no chain is longer than the bound, and nothing done
later changes what a version reads. -/
theorem patch_map_is_map (hP : P.Lawful) (maxDepth : ℕ) {w : World κ ν δ} (h : (machine P maxDepth).Reachable w) :
    (∀ v m, (v, m) ∈ w.versions →
      (∀ k, v.get P w.heap k = m.get k) ∧ v.all P w.heap = m.entries ∧ v.depth ≤ maxDepth) ∧
    (∀ t m, some (t, m) ∈ w.transients → ∀ k, t.get P w.heap k = m.get k) ∧
    (∀ a v m, (v, m) ∈ w.versions →
      (v, m) ∈ ((machine P maxDepth).next w a).versions ∧
      (∀ k, v.get P ((machine P maxDepth).next w a).heap k = v.get P w.heap k) ∧
      v.all P ((machine P maxDepth).next w a).heap = v.all P w.heap) ∧
    fileStatsPolicy.Lawful := by
  have hinv := worldInv_of_reachable hP h
  refine ⟨fun v m hv => ?_, fun t m ht k => ?_, fun a v m hv => ?_, fileStatsPolicy_lawful⟩
  · have hstands := hinv.versions v m hv
    exact ⟨hstands.get_eq hinv.ordered, hstands.all_eq hP, hstands.bounded⟩
  · exact (hinv.transients t m ht).draft_get_eq hinv.ordered k
  · obtain ⟨hnext, -, -, hkeep⟩ := hinv.step hP a
    have hbefore := hinv.versions v m hv
    have hafter := hnext.versions v m (hkeep _ hv)
    refine ⟨hkeep _ hv, fun k => ?_, ?_⟩
    · rw [hafter.get_eq hnext.ordered, hbefore.get_eq hinv.ordered]
    · rw [hafter.all_eq hP, hbefore.all_eq hP]

def squashed : World ℕ FileStatsWords FileStatsDeltaWords :=
  [Action.wrap SortedMap.empty, .transient 0, .set 0 3 { totalBytes := 10 }, .patch 0 3 { totalAdded := 5 }, .persistent 0,
    .transient 1, .patch 1 3 { liveAdded := 2 }, .erase 1 4, .persistent 1].foldl (machine fileStatsPolicy 1).next {}

lemma squashed_reachable : (machine fileStatsPolicy 1).Reachable squashed := by
  refine .step _ (.step _ (.step _ (.step _ (.step _ (.step _ (.step _ (.step _ (.step _ (.start rfl) ?_) ?_) ?_) ?_) ?_) ?_) ?_) ?_) ?_ <;>
    trivial

theorem squashed_is_map : (∃ v m, squashed.versions[2]? = some (v, m) ∧ v.depth = 0 ∧
    m.get 3 = some { totalBytes := 15, liveBytes := 2 }) ∧
    ∀ v m, (v, m) ∈ squashed.versions →
      (∀ k, v.get fileStatsPolicy squashed.heap k = m.get k) ∧ v.all fileStatsPolicy squashed.heap = m.entries ∧ v.depth ≤ 1 :=
  ⟨⟨_, _, rfl, rfl, by decide +kernel⟩, (patch_map_is_map fileStatsPolicy_lawful 1 squashed_reachable).1⟩

end Run

end Bytecask.PatchMap
