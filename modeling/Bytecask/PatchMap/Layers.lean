import Bytecask.PatchMap.Model

/-! What the layers of a patch map do to a value: a read, a merge of all layers and a squash do the same. -/

namespace Bytecask.PatchMap

open List SortedMap

variable {κ ν δ : Type}

lemma mem_filterMap_emit {patches : List (Entry κ ν δ)} {k : κ} {v : ν} :
    (k, v) ∈ patches.filterMap emitPatchOnly ↔ (k, Patch.set v) ∈ patches := by
  rw [mem_filterMap]
  constructor
  · rintro ⟨⟨key, p⟩, hp, he⟩
    cases p with
    | set w =>
      cases he
      exact hp
    | erased | delta => cases he
  · exact fun h => ⟨_, h, rfl⟩

variable [LinearOrder κ] (P : Policy ν δ)

def act : Patch ν δ → Option ν → Option ν
  | .set v, _ => some v
  | .erased, _ => none
  | .delta d, o => o.map (fun v => P.apply v d)

def effect (key : κ) (entries : List (Entry κ ν δ)) (o : Option ν) : Option ν :=
  (entries.filter (fun e => e.1 = key)).foldl (fun o e => act P e.2 o) o

def Sorted (entries : List (Entry κ ν δ)) : Prop := entries.Pairwise (fun a b => a.1 < b.1)

variable {P} {key k : κ} {e : Entry κ ν δ} {es : List (Entry κ ν δ)} {o : Option ν}

lemma act_fold (hP : P.Lawful) (older newer : Patch ν δ) (o : Option ν) : act P (fold P older newer) o = act P newer (act P older o) := by
  cases newer with
  | set | erased => cases older <;> rfl
  | delta d =>
    cases older with
    | set v => rfl
    | erased => rfl
    | delta od =>
      cases o with
      | none => rfl
      | some v => exact congrArg some (hP v od d)

@[simp] lemma effect_nil : effect P k [] o = o := rfl

lemma effect_append (es fs : List (Entry κ ν δ)) : effect P k (es ++ fs) o = effect P k fs (effect P k es o) := by
  rw [effect, filter_append, foldl_append]
  rfl

lemma effect_cons_eq (h : e.1 = k) : effect P k (e :: es) o = effect P k es (act P e.2 o) := by
  rw [effect, filter_cons_of_pos (by simpa using h), foldl_cons]
  rfl

lemma effect_cons_ne (h : e.1 ≠ k) : effect P k (e :: es) o = effect P k es o := by
  rw [effect, filter_cons_of_neg (by simpa using h)]
  rfl

lemma effect_of_absent (h : ∀ e ∈ es, e.1 ≠ k) : effect P k es o = o := by
  rw [effect, filter_eq_nil_iff.2 fun e he => by simpa using h e he]
  rfl

section Find

lemma lowerBound_cons : lowerBound (e :: es) key = if e.1 < key then lowerBound es key + 1 else 0 := by
  rw [lowerBound, takeWhile_cons]
  by_cases h : e.1 < key
  · rw [if_pos (by simpa using h), if_pos h]
    rfl
  · rw [if_neg (by simpa using h), if_neg h]
    rfl

lemma findPatch_cons : findPatch (e :: es) key =
    if e.1 < key then findPatch es key else if e.1 = key then some e.2 else none := by
  rw [findPatch, lowerBound_cons]
  by_cases h : e.1 < key
  · rw [if_pos h, if_pos h, List.getElem?_cons_succ]
    rfl
  · rw [if_neg h, if_neg h, List.getElem?_cons_zero]
    rfl

lemma effect_eq_findPatch (hs : Sorted es) : effect P k es o = ((findPatch es k).map (fun p => act P p o)).getD o := by
  induction es with
  | nil => rfl
  | cons e es ih =>
    obtain ⟨he, hs⟩ := pairwise_cons.1 hs
    rw [findPatch_cons]
    by_cases hlt : e.1 < k
    · rw [if_pos hlt, effect_cons_ne hlt.ne, ih hs]
    · rw [if_neg hlt]
      by_cases heq : e.1 = k
      · rw [if_pos heq, effect_cons_eq heq, effect_of_absent fun x hx => (heq ▸ he x hx).ne']
        rfl
      · rw [if_neg heq, effect_cons_ne heq, effect_of_absent]
        · rfl
        · intro x hx
          exact ((lt_of_le_of_ne (not_lt.1 hlt) (Ne.symm heq)).trans (he x hx)).ne'

end Find

section Record

lemma foldAt_spec (hP : P.Lawful) {i : ℕ} (hs : Sorted es) (hi : es[i]? = some e) (hk : e.1 = key) (p : Patch ν δ) :
    Sorted (es.modify i (fun e => (e.1, fold P e.2 p))) ∧
      ∀ k o, effect P k (es.modify i (fun e => (e.1, fold P e.2 p))) o = effect P k (es ++ [(key, p)]) o := by
  induction es generalizing i with
  | nil => cases hi
  | cons x es ih =>
    obtain ⟨hx, hs'⟩ := pairwise_cons.1 hs
    cases i with
    | zero =>
      cases hi
      rw [modify_zero_cons]
      refine ⟨pairwise_cons.2 ⟨hx, hs'⟩, fun k o => ?_⟩
      rw [cons_append]
      by_cases hkey : e.1 = k
      · have habsent : ∀ y ∈ es, y.1 ≠ k := fun y hy => (hkey ▸ hx y hy).ne'
        rw [effect_cons_eq (by exact hkey), effect_cons_eq hkey, effect_append, effect_of_absent habsent, effect_of_absent habsent,
          effect_cons_eq (hk.symm.trans hkey), act_fold hP]
        rfl
      · rw [effect_cons_ne (by exact hkey), effect_cons_ne hkey, effect_append, effect_cons_ne (fun h => hkey (hk.trans h))]
        rfl
    | succ i =>
      obtain ⟨hsorted, heffect⟩ := ih hs' hi
      rw [modify_succ_cons]
      refine ⟨pairwise_cons.2 ⟨fun y hy => ?_, hsorted⟩, fun k o => ?_⟩
      · obtain ⟨j, hj⟩ := mem_iff_getElem?.1 hy
        rw [List.getElem?_modify] at hj
        obtain ⟨z, hz, rfl⟩ := Option.map_eq_some_iff.1 hj
        have hlt := hx z (mem_of_getElem? hz)
        split_ifs
        · exact hlt
        · exact hlt
      · rw [cons_append]
        by_cases hkey : x.1 = k
        · rw [effect_cons_eq hkey, effect_cons_eq hkey, heffect]
        · rw [effect_cons_ne hkey, effect_cons_ne hkey, heffect]

lemma insertAt_spec (hs : Sorted es) (hnone : es[lowerBound es key]?.any (fun e => e.1 = key) = false) (p : Patch ν δ) :
    Sorted (es.insertIdx (lowerBound es key) (key, p)) ∧
      ∀ k o, effect P k (es.insertIdx (lowerBound es key) (key, p)) o = effect P k (es ++ [(key, p)]) o := by
  induction es with
  | nil => exact ⟨pairwise_singleton _ _, fun _ _ => rfl⟩
  | cons x es ih =>
    obtain ⟨hx, hs'⟩ := pairwise_cons.1 hs
    rw [lowerBound_cons] at hnone ⊢
    by_cases hlt : x.1 < key
    · rw [if_pos hlt, List.getElem?_cons_succ] at hnone
      obtain ⟨hsorted, heffect⟩ := ih hs' hnone
      rw [if_pos hlt, insertIdx_succ_cons]
      refine ⟨pairwise_cons.2 ⟨fun y hy => ?_, hsorted⟩, fun k o => ?_⟩
      · rcases eq_or_mem_of_mem_insertIdx hy with rfl | hy
        · exact hlt
        · exact hx y hy
      · rw [cons_append]
        by_cases hkey : x.1 = k
        · rw [effect_cons_eq hkey, effect_cons_eq hkey, heffect]
        · rw [effect_cons_ne hkey, effect_cons_ne hkey, heffect]
    · rw [if_neg hlt, List.getElem?_cons_zero] at hnone
      have hgt : key < x.1 := lt_of_le_of_ne (not_lt.1 hlt) fun h => by simp [h] at hnone
      have hall : ∀ y ∈ x :: es, key < y.1 := by
        intro y hy
        rcases mem_cons.1 hy with rfl | hy
        · exact hgt
        · exact hgt.trans (hx y hy)
      rw [if_neg hlt, insertIdx_zero]
      refine ⟨pairwise_cons.2 ⟨hall, hs⟩, fun k o => ?_⟩
      rw [effect_append]
      by_cases hkey : key = k
      · have habsent : ∀ y ∈ x :: es, y.1 ≠ k := fun y hy => (hkey ▸ hall y hy).ne'
        rw [effect_cons_eq (by exact hkey), effect_of_absent habsent, effect_of_absent habsent, effect_cons_eq (by exact hkey)]
        rfl
      · rw [effect_cons_ne (by exact hkey), effect_cons_ne (e := (key, p)) hkey]
        rfl

lemma record_spec (hP : P.Lawful) {t : Transient κ ν δ} (hs : Sorted t.pending) (key : κ) (p : Patch ν δ) :
    Sorted (t.record P key p).pending ∧ (t.record P key p).toVersion = t.toVersion ∧
      ∀ k o, effect P k (t.record P key p).pending o = effect P k (t.pending ++ [(key, p)]) o := by
  have hat : ∀ i : ℕ, t.pending[i]?.any (fun e => decide (e.1 = key)) = true → ∃ e, t.pending[i]? = some e ∧ e.1 = key := by
    intro i hi
    cases he : t.pending[i]? with
    | none => simp [he] at hi
    | some e => exact ⟨e, rfl, by simpa [he] using hi⟩
  rw [Transient.record]
  by_cases hlast : t.pending[t.last]?.any (fun e => e.1 = key) = true
  · obtain ⟨e, he, hk⟩ := hat _ hlast
    obtain ⟨hsorted, heffect⟩ := foldAt_spec hP hs he hk p
    rw [if_pos hlast]
    exact ⟨hsorted, rfl, heffect⟩
  · rw [if_neg hlast]
    by_cases hfound : t.pending[lowerBound t.pending key]?.any (fun e => e.1 = key) = true
    · obtain ⟨e, he, hk⟩ := hat _ hfound
      obtain ⟨hsorted, heffect⟩ := foldAt_spec hP hs he hk p
      dsimp only
      rw [if_pos hfound]
      exact ⟨hsorted, rfl, heffect⟩
    · obtain ⟨hsorted, heffect⟩ := insertAt_spec (P := P) hs (Bool.eq_false_iff.2 hfound) p
      dsimp only
      rw [if_neg hfound]
      exact ⟨hsorted, rfl, heffect⟩

end Record

section Read

variable {layers : List (List (Entry κ ν δ))} {base : SortedMap κ ν}

lemma lookup_eq (hs : ∀ es ∈ layers, Sorted es) (key : κ) : lookup P base layers key = effect P key layers.reverse.flatten (base.get key) := by
  induction layers with
  | nil => exact Option.map_id'
  | cons es layers ih =>
    have ih := ih fun es hes => hs es (mem_cons_of_mem _ hes)
    rw [reverse_cons, flatten_append, flatten_singleton, effect_append, ← ih,
      effect_eq_findPatch (hs es mem_cons_self)]
    simp only [lookup, walk]
    cases findPatch es key with
    | none => rfl
    | some p =>
      cases p with
      | set v => rfl
      | erased => rfl
      | delta d =>
        simp only [foldr_cons, Option.map_some, Option.getD_some, act, Option.map_map, Function.comp_def]

lemma get_replay (es : List (Entry κ ν δ)) (base : SortedMap κ ν) (key : κ) :
    (es.foldl (replay P) base).get key = effect P key es (base.get key) := by
  induction es generalizing base with
  | nil => rfl
  | cons e es ih =>
    rw [foldl_cons, ih]
    by_cases hk : e.1 = key
    · rw [effect_cons_eq hk]
      rw [replay]
      cases e.2 with
      | set v => rw [get_insert, if_pos hk.symm, act]
      | erased => rw [get_erase, if_pos hk.symm, act]
      | delta d => rw [get_adjust, if_pos hk.symm, act, hk]
    · rw [effect_cons_ne hk]
      rw [replay]
      cases e.2 with
      | set v => rw [get_insert, if_neg (Ne.symm hk)]
      | erased => rw [get_erase, if_neg (Ne.symm hk)]
      | delta d => rw [get_adjust, if_neg (Ne.symm hk)]

end Read

section Collect

lemma keyLe_trans (a b c : Entry κ ν δ) (hab : decide (a.1 ≤ b.1) = true) (hbc : decide (b.1 ≤ c.1) = true) :
    decide (a.1 ≤ c.1) = true := by
  simp only [decide_eq_true_eq] at hab hbc ⊢
  exact hab.trans hbc

lemma keyLe_total (a b : Entry κ ν δ) : (decide (a.1 ≤ b.1) || decide (b.1 ≤ a.1)) = true := by
  simpa using le_total a.1 b.1

lemma effect_mergeSort (es : List (Entry κ ν δ)) (key : κ) (o : Option ν) :
    effect P key (es.mergeSort (fun a b => a.1 ≤ b.1)) o = effect P key es o := by
  have hsub : (es.filter (fun e => e.1 = key)).Sublist (es.mergeSort (fun a b => a.1 ≤ b.1)) := by
    refine sublist_mergeSort keyLe_trans keyLe_total ?_ filter_sublist
    refine pairwise_of_forall_mem_list fun a ha b hb => ?_
    have ha := (mem_filter.1 ha).2
    have hb := (mem_filter.1 hb).2
    simp only [decide_eq_true_eq] at ha hb ⊢
    exact (ha.trans hb.symm).le
  have hfilter := hsub.filter (fun e => decide (e.1 = key))
  rw [filter_filter, filter_congr (fun e _ => Bool.and_self _)] at hfilter
  rw [effect, effect, ← hfilter.eq_of_length ((mergeSort_perm es _).symm.filter _).length_eq]

lemma effect_collectEntry (hP : P.Lawful) (acc : List (Entry κ ν δ)) (e : Entry κ ν δ) (key : κ) (o : Option ν) :
    effect P key (collectEntry P acc e).reverse o = effect P key (acc.reverse ++ [e]) o := by
  cases acc with
  | nil => rfl
  | cons x rest =>
    obtain ⟨k, patch⟩ := x
    rw [collectEntry]
    split_ifs with hk
    · rw [reverse_cons, reverse_cons, append_assoc, effect_append, effect_append]
      by_cases hkey : k = key
      · rw [effect_cons_eq (by exact hkey), singleton_append, effect_cons_eq (by exact hkey), effect_cons_eq (hk.symm.trans hkey),
          act_fold hP]
      · rw [effect_cons_ne (by exact hkey), singleton_append, effect_cons_ne (by exact hkey),
          effect_cons_ne fun h => hkey (hk.trans h)]
    · rw [reverse_cons]

lemma effect_collect (hP : P.Lawful) (layers : List (List (Entry κ ν δ))) (key : κ) (o : Option ν) :
    effect P key (collect P layers) o = effect P key layers.flatten o := by
  have hfold : ∀ (es acc : List (Entry κ ν δ)) (o : Option ν),
      effect P key (es.foldl (collectEntry P) acc).reverse o = effect P key (acc.reverse ++ es) o := by
    intro es
    induction es with
    | nil =>
      intro acc o
      rw [foldl_nil, append_nil]
    | cons e es ih =>
      intro acc o
      rw [foldl_cons, ih, effect_append, effect_collectEntry hP, ← effect_append, append_assoc, singleton_append]
  rw [collect, hfold, reverse_nil, nil_append, effect_mergeSort]

lemma sorted_collect (layers : List (List (Entry κ ν δ))) : Sorted (collect P layers) := by
  have hfold : ∀ (es acc : List (Entry κ ν δ)), es.Pairwise (fun a b => a.1 ≤ b.1) → acc.Pairwise (fun a b => b.1 < a.1) →
      (∀ x ∈ acc.head?, ∀ e ∈ es, x.1 ≤ e.1) → (es.foldl (collectEntry P) acc).Pairwise (fun a b => b.1 < a.1) := by
    intro es
    induction es with
    | nil => exact fun acc _ hacc _ => hacc
    | cons e es ih =>
      intro acc hes hacc hle
      obtain ⟨he, hes⟩ := pairwise_cons.1 hes
      rw [foldl_cons]
      cases acc with
      | nil =>
        refine ih _ hes (pairwise_singleton _ _) fun x hx y hy => ?_
        cases hx
        exact he y hy
      | cons x rest =>
        obtain ⟨hx, hrest⟩ := pairwise_cons.1 hacc
        have hxe := hle x rfl e mem_cons_self
        rw [collectEntry]
        split_ifs with hk
        · refine ih _ hes (pairwise_cons.2 ⟨hx, hrest⟩) fun z hz y hy => ?_
          cases hz
          exact hk.le.trans (he y hy)
        · have hlt : x.1 < e.1 := lt_of_le_of_ne hxe hk
          refine ih _ hes (pairwise_cons.2 ⟨fun y hy => ?_, hacc⟩) fun z hz y hy => ?_
          · rcases mem_cons.1 hy with rfl | hy
            · exact hlt
            · exact (hx y hy).trans hlt
          · cases hz
            exact he y hy
  rw [Sorted, collect, pairwise_reverse]
  refine hfold _ _ ?_ .nil nofun
  exact (pairwise_mergeSort keyLe_trans keyLe_total _).imp fun h => by simpa using h

end Collect

section Merge

variable {base : List (κ × ν)} {patches : List (Entry κ ν δ)}

lemma key_of_mem_mergeInto {v : ν} (h : (k, v) ∈ mergeInto P base patches) : (∃ e ∈ base, e.1 = k) ∨ ∃ e ∈ patches, e.1 = k := by
  induction base generalizing patches with
  | nil => exact .inr ⟨_, mem_filterMap_emit.1 h, rfl⟩
  | cons b base ih =>
    obtain ⟨key, w⟩ := b
    have hhere : key = k → (∃ e ∈ (key, w) :: base, e.1 = k) ∨ ∃ e ∈ patches, e.1 = k :=
      fun hk => .inl ⟨_, mem_cons_self, hk⟩
    have hlater : ∀ rest, (∀ e ∈ rest, e ∈ patches) → (k, v) ∈ mergeInto P base rest →
        (∃ e ∈ (key, w) :: base, e.1 = k) ∨ ∃ e ∈ patches, e.1 = k := by
      intro rest hsub hm
      rcases ih hm with ⟨e, he, hk⟩ | ⟨e, he, hk⟩
      · exact .inl ⟨e, mem_cons_of_mem _ he, hk⟩
      · exact .inr ⟨e, hsub e he, hk⟩
    have hdrop : ∀ e ∈ patches.dropWhile (fun e => e.1 < key), e ∈ patches := fun e he => dropWhile_subset _ he
    rcases mem_append.1 h with h | h
    · exact .inr ⟨_, takeWhile_subset _ (mem_filterMap_emit.1 h), rfl⟩
    · cases hd : patches.dropWhile (fun e => e.1 < key) with
      | nil =>
        rw [hd] at h
        rcases mem_cons.1 h with h | h
        · exact hhere (Prod.mk.inj h).1.symm
        · exact hlater [] nofun h
      | cons e rest =>
        rw [hd] at h hdrop
        dsimp only at h
        split_ifs at h with hk
        · rcases mem_append.1 h with h | h
          · refine hhere ?_
            cases hp : e.2 <;> rw [hp, emitPatched] at h <;> simp at h
            · exact h.1.symm
            · exact h.1.symm
          · exact hlater rest (fun x hx => hdrop x (mem_cons_of_mem _ hx)) h
        · rcases mem_cons.1 h with h | h
          · exact hhere (Prod.mk.inj h).1.symm
          · exact hlater _ hdrop h

structure Placed (P : Policy ν δ) (key : κ) (v : ν) (base : List (κ × ν)) (patches : List (Entry κ ν δ)) (here : List (κ × ν))
    (above : List (Entry κ ν δ)) : Prop where
  eq : mergeInto P ((key, v) :: base) patches =
    (patches.takeWhile (fun e => e.1 < key)).filterMap emitPatchOnly ++ (here ++ mergeInto P base above)
  keys : ∀ x ∈ here, x.1 = key
  single : here.length ≤ 1
  value : ∀ w, (key, w) ∈ here ↔ effect P key patches (some v) = some w
  sorted : Sorted above
  bound : ∀ e ∈ above, key < e.1
  effect : ∀ k o, key < k → effect P k patches o = effect P k above o

lemma exists_placed (P : Policy ν δ) (key : κ) (v : ν) (base : List (κ × ν)) (hp : Sorted patches) :
    ∃ here above, Placed P key v base patches here above := by
  have hcut := takeWhile_append_dropWhile (p := fun e : Entry κ ν δ => decide (e.1 < key)) (l := patches)
  have hbelow : ∀ e ∈ patches.takeWhile (fun e => e.1 < key), e.1 < key := by
    intro e he
    simpa using mem_takeWhile_imp he
  have hskip : ∀ k o, key ≤ k → effect P k patches o = effect P k (patches.dropWhile (fun e => e.1 < key)) o := by
    intro k o hk
    rw [← hcut, effect_append, effect_of_absent (fun e he => ((hbelow e he).trans_le hk).ne), hcut]
  have hsorted : Sorted (patches.dropWhile (fun e => e.1 < key)) := hp.sublist (dropWhile_sublist _)
  cases hd : patches.dropWhile (fun e => e.1 < key) with
  | nil =>
    refine ⟨[(key, v)], [], ⟨?_, by simp, le_rfl, fun w => ?_, .nil, nofun, fun k o hk => ?_⟩⟩
    · rw [mergeInto, hd]
      rfl
    · rw [hskip key _ le_rfl, hd, effect_nil]
      simp [eq_comm]
    · rw [hskip k o hk.le, hd]
  | cons e rest =>
    rw [hd] at hsorted
    obtain ⟨he, hrest⟩ := pairwise_cons.1 hsorted
    have hle : key ≤ e.1 := by
      have hhead := List.head?_dropWhile_not (fun e : Entry κ ν δ => decide (e.1 < key)) patches
      rw [hd] at hhead
      simpa using hhead
    by_cases hk : e.1 = key
    · refine ⟨emitPatched P key v e.2, rest, ⟨?_, ?_, ?_, fun w => ?_, hrest, fun x hx => hk ▸ he x hx, fun k o hlt => ?_⟩⟩
      · rw [mergeInto, hd]
        dsimp only
        rw [if_pos hk]
      · intro x hx
        cases hp : e.2 <;> rw [hp, emitPatched] at hx <;> simp at hx
        · rw [hx]
        · rw [hx]
      · cases e.2 <;> simp [emitPatched]
      · rw [hskip key _ le_rfl, hd, effect_cons_eq hk, effect_of_absent fun x hx => (hk ▸ he x hx).ne']
        cases e.2 <;> simp [emitPatched, act, eq_comm]
      · rw [hskip k o hlt.le, hd, effect_cons_ne (hk ▸ hlt.ne)]
    · have hlt : key < e.1 := lt_of_le_of_ne hle (Ne.symm hk)
      have habove : ∀ x ∈ e :: rest, key < x.1 := by
        intro x hx
        rcases mem_cons.1 hx with rfl | hx
        · exact hlt
        · exact hlt.trans (he x hx)
      refine ⟨[(key, v)], e :: rest, ⟨?_, by simp, le_rfl, fun w => ?_, hsorted, habove, fun k o hk' => ?_⟩⟩
      · rw [mergeInto, hd]
        dsimp only
        rw [if_neg hk]
        rfl
      · rw [hskip key _ le_rfl, hd, effect_of_absent fun x hx => (habove x hx).ne']
        simp [eq_comm]
      · rw [hskip k o hk'.le, hd]

lemma pairwise_of_length_le_one {α : Type} {r : α → α → Prop} {l : List α} (h : l.length ≤ 1) : l.Pairwise r := by
  match l with
  | [] => exact .nil
  | [x] => exact pairwise_singleton r x
  | _ :: _ :: _ => simp at h

lemma sorted_filterMap_emit (hp : Sorted patches) : (patches.filterMap emitPatchOnly).Pairwise (fun a b => a.1 < b.1) := by
  refine List.Pairwise.filterMap _ (fun a b hab x hx y hy => ?_) hp
  obtain ⟨ka, pa⟩ := a
  obtain ⟨kb, pb⟩ := b
  cases pa <;> cases pb <;> cases hx <;> cases hy
  exact hab

lemma sorted_mergeInto (hb : base.Pairwise (fun a b => a.1 < b.1)) (hp : Sorted patches) :
    (mergeInto P base patches).Pairwise (fun a b => a.1 < b.1) := by
  induction base generalizing patches with
  | nil => exact sorted_filterMap_emit hp
  | cons b base ih =>
    obtain ⟨key, v⟩ := b
    obtain ⟨hkey, hb⟩ := pairwise_cons.1 hb
    obtain ⟨here, above, h⟩ := exists_placed P key v base hp
    have hafter : ∀ x ∈ mergeInto P base above, key < x.1 := by
      intro x hx
      rcases key_of_mem_mergeInto hx with ⟨e, he, hk⟩ | ⟨e, he, hk⟩
      · exact hk ▸ hkey e he
      · exact hk ▸ h.bound e he
    rw [h.eq]
    refine pairwise_append.2 ⟨sorted_filterMap_emit (hp.sublist (takeWhile_sublist _)), ?_, ?_⟩
    · refine pairwise_append.2 ⟨pairwise_of_length_le_one h.single, ih hb h.sorted, fun x hx y hy => ?_⟩
      rw [h.keys x hx]
      exact hafter y hy
    · intro x hx y hy
      have hlt : x.1 < key := by simpa using mem_takeWhile_imp (mem_filterMap_emit.1 hx)
      rcases mem_append.1 hy with hy | hy
      · rw [h.keys y hy]
        exact hlt
      · exact hlt.trans (hafter y hy)

lemma effect_none_iff (hp : Sorted patches) {v : ν} : effect P k patches none = some v ↔ (k, Patch.set v) ∈ patches := by
  induction patches with
  | nil => simp
  | cons e patches ih =>
    obtain ⟨he, hp'⟩ := pairwise_cons.1 hp
    obtain ⟨key, p⟩ := e
    by_cases hk : key = k
    · have habsent : ∀ x ∈ patches, x.1 ≠ k := fun x hx => (hk ▸ he x hx).ne'
      rw [effect_cons_eq (by exact hk), effect_of_absent habsent, mem_cons, or_iff_left fun h => habsent _ h rfl]
      cases p <;> simp [act, hk, eq_comm]
    · rw [effect_cons_ne (by exact hk), ih hp', mem_cons, or_iff_right fun h => hk (Prod.mk.inj h).1.symm]

lemma mem_mergeInto (hb : base.Pairwise (fun a b => a.1 < b.1)) (hp : Sorted patches) {v : ν} :
    (k, v) ∈ mergeInto P base patches ↔ effect P k patches (base.lookup k) = some v := by
  induction base generalizing patches with
  | nil => exact mem_filterMap_emit.trans (effect_none_iff hp).symm
  | cons b base ih =>
    obtain ⟨key, w⟩ := b
    obtain ⟨hkey, hb'⟩ := pairwise_cons.1 hb
    obtain ⟨here, above, h⟩ := exists_placed P key w base hp
    have hlookup : ((key, w) :: base).lookup k = if k = key then some w else base.lookup k := by
      rw [lookup_cons]
      by_cases hk : k = key
      · simp [hk]
      · rw [if_neg hk, beq_eq_false_iff_ne.2 hk]
    rw [h.eq, mem_append, mem_append, mem_filterMap_emit, ih hb' h.sorted, hlookup]
    have hnone : k ≤ key → base.lookup k = none := by
      intro hk
      refine (get_eq_none (m := ⟨base, hb'⟩)).2 fun u hu => ?_
      exact ((hkey _ hu).trans_le hk).false
    have hlater : k ≤ key → effect P k above none = none := by
      intro hk
      exact effect_of_absent fun e he => (hk.trans_lt (h.bound e he)).ne'
    rcases lt_trichotomy k key with hlt | rfl | hgt
    · have htake : (k, Patch.set v) ∈ patches.takeWhile (fun e => e.1 < key) ↔ (k, Patch.set v) ∈ patches := by
        rw [takeWhile_eq_filter hp fun a b hab hb => by simpa using hab.trans (by simpa using hb), mem_filter,
          and_iff_left (by simpa using hlt)]
      rw [if_neg hlt.ne, hnone hlt.le, hlater hlt.le, htake, effect_none_iff hp, or_iff_left]
      rintro (hm | hm)
      · exact hlt.ne (h.keys _ hm)
      · cases hm
    · rw [if_pos rfl, hnone le_rfl, hlater le_rfl, h.value, or_iff_right, or_iff_left nofun]
      intro hm
      have hlt := mem_takeWhile_imp hm
      simp at hlt
    · rw [if_neg hgt.ne', h.effect k _ hgt, or_iff_right, or_iff_right]
      · exact fun hm => hgt.ne' (h.keys _ hm)
      · intro hm
        have hlt : k < key := by simpa using mem_takeWhile_imp hm
        exact hlt.not_gt hgt

end Merge

end Bytecask.PatchMap
