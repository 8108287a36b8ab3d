import Bytecask.Lib.Except
import Bytecask.Recovery.Cursors

/-! The heap of a range merge hands out its keys in ascending order, each with every file's newest
entry for it. -/

namespace Bytecask.Recovery

open List

structure Lane (hi : Option Bytes) where
  fileId : FileId
  run : List HintEntry
  cursor : Cursor
  sorted : run.Pairwise (fun a b => a.key ≤ b.key)
  distinct : (run.map HintEntry.sequence).Nodup
  parked : Parked hi fileId run cursor

variable {hi : Option Bytes}
variable {k : Bytes} {e : HintEntry} {lanes lanes' : List (Lane hi)} (l : Lane hi)

def Sees (lanes : List (Lane hi)) (k : Bytes) (id : FileId) (e : HintEntry) : Prop :=
  ∃ l ∈ lanes, l.fileId = id ∧ NewestAt l.run k e

structure Group where
  key : Bytes
  first : Cursor
  others : List Cursor

def Group.found (g : Group) : List Cursor := g.first :: g.others

lemma newestAt_unique {run : List HintEntry} (hn : (run.map HintEntry.sequence).Nodup) {a b : HintEntry}
    (ha : NewestAt run k a) (hb : NewestAt run k b) : a = b :=
  ha.unique (fun _ hx _ hy h => inj_on_of_nodup_map hn hx.1 hy.1 h) hb

lemma newestAt_filter (p : Bytes → Bool) (run : List HintEntry) :
    NewestAt (run.filter (fun e => p e.key)) k e ↔ p k = true ∧ NewestAt run k e := by
  constructor
  · rintro ⟨⟨hm, rfl⟩, hmax⟩
    obtain ⟨hm, hp⟩ := mem_filter.1 hm
    refine ⟨hp, ⟨hm, rfl⟩, fun b hb => hmax b ⟨mem_filter.2 ⟨hb.1, ?_⟩, hb.2⟩⟩
    rw [hb.2]
    exact hp
  · rintro ⟨hp, ⟨hm, rfl⟩, hmax⟩
    exact ⟨⟨mem_filter.2 ⟨hm, hp⟩, rfl⟩, fun b hb => hmax b ⟨(mem_filter.1 hb.1).1, hb.2⟩⟩

lemma Lane.key_le (h : NewestAt l.run k e) : l.cursor.cur.key ≤ k :=
  h.1.2 ▸ l.parked.least e h.1.1

lemma Lane.load :
    ∃ oc, Recovery.load hi l.cursor.fileId l.cursor.lookahead l.cursor.stream = .ok oc ∧
      Opened hi l.fileId (l.run.filter (fun e => l.cursor.cur.key < e.key)) oc := by
  rw [l.parked.file]
  exact load_spec hi _ _ l.parked.noRange l.parked.rest
    (l.sorted.sublist filter_sublist)

def ahead (lanes : List (Lane hi)) : ℕ := (lanes.map (fun l => l.run.length)).sum

lemma Lane.filter_length_lt : (l.run.filter (fun e => l.cursor.cur.key < e.key)).length < l.run.length :=
  length_filter_lt_length_iff_exists.2 ⟨l.cursor.cur, l.parked.newest.1.1, by simp⟩

structure Source where
  fileId : FileId
  run : List HintEntry
  sorted : run.Pairwise (fun a b => a.key ≤ b.key)
  distinct : (run.map HintEntry.sequence).Nodup

lemma lanes_of_opened {sources : List Source} {opened : List (Option Cursor)}
    (h : List.Forall₂ (fun src oc => Opened hi src.fileId src.run oc) sources opened) :
    ∃ lanes : List (Lane hi), opened.reduceOption = lanes.map Lane.cursor ∧
      (lanes.map Lane.fileId).Sublist (sources.map Source.fileId) ∧
      ahead lanes ≤ (sources.map (fun src => src.run.length)).sum ∧
      ∀ k id e, belowHi hi k = true →
        (Sees lanes k id e ↔ ∃ src ∈ sources, src.fileId = id ∧ NewestAt src.run k e) := by
  induction h with
  | nil => exact ⟨[], rfl, Sublist.refl _, le_rfl, by simp [Sees]⟩
  | @cons src oc sources opened ho hs ih =>
    obtain ⟨lanes, h₁, h₂, h₃, h₄⟩ := ih
    cases oc with
    | none =>
      refine ⟨lanes, by rwa [reduceOption_cons_of_none], h₂.cons _, ?_, ?_⟩
      · simp only [map_cons, sum_cons]
        omega
      · intro k id e hk
        rw [h₄ k id e hk, exists_mem_cons_iff]
        refine (or_iff_right ?_).symm
        rintro ⟨-, hn⟩
        have hout := ho e hn.1.1
        rw [hn.1.2, hk] at hout
        cases hout
    | some c =>
      refine ⟨⟨src.fileId, src.run, c, src.sorted, src.distinct, ho⟩ :: lanes, ?_, h₂.cons_cons _, ?_, ?_⟩
      · rw [reduceOption_cons_of_some, h₁]
        rfl
      · simp only [ahead, map_cons, sum_cons] at h₃ ⊢
        omega
      · intro k id e hk
        rw [Sees, exists_mem_cons_iff, exists_mem_cons_iff]
        exact or_congr Iff.rfl (h₄ k id e hk)

def Lane.beyond (l : Lane hi) : Source where
  fileId := l.fileId
  run := l.run.filter (fun e => l.cursor.cur.key < e.key)
  sorted := l.sorted.sublist filter_sublist
  distinct := l.distinct.sublist (filter_sublist.map _)

lemma beyond_length (lanes : List (Lane hi)) :
    ((lanes.map Lane.beyond).map (fun src => src.run.length)).sum + lanes.length ≤ ahead lanes := by
  induction lanes with
  | nil => exact le_rfl
  | cons l lanes ih =>
    have hlt := l.filter_length_lt
    simp only [ahead, map_cons, sum_cons, length_cons, Lane.beyond] at ih ⊢
    omega

lemma loadAll (lanes : List (Lane hi)) :
    ∃ (loaded : List (Option Cursor)) (lanes' : List (Lane hi)),
      (lanes.map Lane.cursor).mapM (fun c => Recovery.load hi c.fileId c.lookahead c.stream) = .ok loaded ∧
      loaded.reduceOption = lanes'.map Lane.cursor ∧
      (lanes'.map Lane.fileId).Sublist (lanes.map Lane.fileId) ∧
      ahead lanes' + lanes.length ≤ ahead lanes ∧
      ∀ k id e, belowHi hi k = true → (Sees lanes' k id e ↔
        ∃ l ∈ lanes, l.fileId = id ∧ l.cursor.cur.key < k ∧ NewestAt l.run k e) := by
  obtain ⟨loaded, h₁, ho⟩ := mapM_ok_of_forall
    (R := fun (l : Lane hi) oc => Opened hi _ l.beyond.run oc) (l := lanes) (fun l _ => l.load)
  obtain ⟨lanes', h₂, h₃, h₄, h₅⟩ := lanes_of_opened (forall₂_map_left_iff.2 ho)
  refine ⟨loaded, lanes', by rw [mapM_map]; exact h₁, h₂, by rwa [map_map] at h₃, ?_, ?_⟩
  · have hb := beyond_length lanes
    omega
  · intro k id e hk
    rw [h₅ k id e hk]
    simp only [mem_map, exists_exists_and_eq_and]
    refine exists_congr fun l => and_congr Iff.rfl (and_congr Iff.rfl ?_)
    simpa [Lane.beyond] using newestAt_filter (fun k => decide (l.cursor.cur.key < k)) l.run (k := k) (e := e)

lemma leastKey_spec (c : Cursor) (heap : List Cursor) :
    (∃ x ∈ c :: heap, x.cur.key = leastKey c heap) ∧ ∀ x ∈ c :: heap, leastKey c heap ≤ x.cur.key := by
  have haux : ∀ (heap : List Cursor) (k : Bytes),
      (heap.foldl (fun k c => min k c.cur.key) k = k ∨
        ∃ x ∈ heap, x.cur.key = heap.foldl (fun k c => min k c.cur.key) k) ∧
      heap.foldl (fun k c => min k c.cur.key) k ≤ k ∧
      ∀ x ∈ heap, heap.foldl (fun k c => min k c.cur.key) k ≤ x.cur.key := by
    intro heap
    induction heap with
    | nil => exact fun k => ⟨.inl rfl, le_rfl, by simp⟩
    | cons x heap ih =>
      intro k
      obtain ⟨h₁, h₂, h₃⟩ := ih (min k _)
      refine ⟨?_, h₂.trans (min_le_left _ _), ?_⟩
      · rcases h₁ with h₁ | ⟨y, hy, h₁⟩
        · rcases min_choice k x.cur.key with hm | hm
          · exact .inl (by rw [foldl_cons, h₁, hm])
          · exact .inr ⟨x, mem_cons_self, by rw [foldl_cons, h₁, hm]⟩
        · exact .inr ⟨y, mem_cons_of_mem x hy, h₁⟩
      · intro y hy
        rcases mem_cons.1 hy with rfl | hy
        · exact h₂.trans (min_le_right _ _)
        · exact h₃ y hy
  obtain ⟨h₁, h₂, h₃⟩ := haux heap _
  refine ⟨?_, ?_⟩
  · rcases h₁ with h₁ | ⟨x, hx, h₁⟩
    · exact ⟨c, mem_cons_self, h₁.symm⟩
    · exact ⟨x, mem_cons_of_mem c hx, h₁⟩
  · intro x hx
    rcases mem_cons.1 hx with rfl | hx
    · exact h₂
    · exact h₃ x hx

lemma filter_cursor (p : Cursor → Bool) (lanes : List (Lane hi)) :
    (lanes.map Lane.cursor).filter p = (lanes.filter (fun l => p l.cursor)).map Lane.cursor :=
  filter_map

section Step

variable {key : Bytes} {lanes : List (Lane hi)} (hmin : ∀ l ∈ lanes, key ≤ l.cursor.cur.key)

include hmin

lemma here_sees (id : FileId) (e : HintEntry) :
    (∃ c ∈ (lanes.filter (fun l => l.cursor.cur.key = key)).map Lane.cursor, c.fileId = id ∧ c.cur = e) ↔
      Sees lanes key id e := by
  constructor
  · rintro ⟨c, hc, rfl, rfl⟩
    obtain ⟨l, hl, rfl⟩ := mem_map.1 hc
    obtain ⟨hl, hk⟩ := mem_filter.1 hl
    have hk : l.cursor.cur.key = key := by simpa using hk
    exact ⟨l, hl, l.parked.file.symm, hk ▸ l.parked.newest⟩
  · rintro ⟨l, hl, rfl, hn⟩
    have hk : l.cursor.cur.key = key := le_antisymm (l.key_le hn) (hmin l hl)
    refine ⟨l.cursor, mem_map_of_mem (mem_filter.2 ⟨hl, by simpa using hk⟩), l.parked.file, ?_⟩
    exact newestAt_unique l.distinct (hk ▸ l.parked.newest) hn

lemma next_sees {lanes' : List (Lane hi)}
    (h : ∀ k id e, belowHi hi k = true → (Sees lanes' k id e ↔
      ∃ l ∈ lanes.filter (fun l => l.cursor.cur.key = key), l.fileId = id ∧ l.cursor.cur.key < k ∧ NewestAt l.run k e))
    (k : Bytes) (id : FileId) (e : HintEntry) (hk : belowHi hi k = true) :
    Sees (lanes.filter (fun l => !decide (l.cursor.cur.key = key)) ++ lanes') k id e ↔
      key < k ∧ Sees lanes k id e := by
  constructor
  · rintro ⟨l, hl, hid, hn⟩
    rcases mem_append.1 hl with hl | hl
    · obtain ⟨hl, hne⟩ := mem_filter.1 hl
      have hne : l.cursor.cur.key ≠ key := by simpa using hne
      exact ⟨lt_of_lt_of_le (lt_of_le_of_ne (hmin l hl) hne.symm) (l.key_le hn), l, hl, hid, hn⟩
    · obtain ⟨m, hm, hid, hlt, hn⟩ := (h k id e hk).1 ⟨l, hl, hid, hn⟩
      obtain ⟨hm, hmk⟩ := mem_filter.1 hm
      have hmk : m.cursor.cur.key = key := by simpa using hmk
      exact ⟨hmk ▸ hlt, m, hm, hid, hn⟩
  · rintro ⟨hlt, l, hl, hid, hn⟩
    by_cases hlk : l.cursor.cur.key = key
    · obtain ⟨m, hm, hmid, hmn⟩ := (h k id e hk).2
        ⟨l, mem_filter.2 ⟨hl, by simpa using hlk⟩, hid, hlk ▸ hlt, hn⟩
      exact ⟨m, mem_append_right _ hm, hmid, hmn⟩
    · exact ⟨l, mem_append_left _ (mem_filter.2 ⟨hl, by simpa using hlk⟩), hid, hn⟩

end Step

lemma next_nodup (p : Lane hi → Bool) (hids : (lanes.map Lane.fileId).Nodup)
    (h : (lanes'.map Lane.fileId).Sublist ((lanes.filter p).map Lane.fileId)) :
    ((lanes.filter (fun l => !p l) ++ lanes').map Lane.fileId).Nodup := by
  have hperm : (lanes.filter (fun l => !p l) ++ lanes.filter p).Perm lanes := by
    simpa using filter_append_perm (fun l => !p l) lanes
  have hn : ((lanes.filter (fun l => !p l) ++ lanes.filter p).map Lane.fileId).Nodup :=
    (hperm.map _).nodup_iff.2 hids
  rw [map_append] at hn ⊢
  exact hn.sublist (h.append_left _)

lemma next_ahead (p : Lane hi → Bool) (h : ahead lanes' + (lanes.filter p).length ≤ ahead (lanes.filter p)) :
    ahead (lanes.filter (fun l => !p l) ++ lanes') + (lanes.filter p).length ≤ ahead lanes := by
  have hperm : (lanes.filter (fun l => !p l) ++ lanes.filter p).Perm lanes := by
    simpa using filter_append_perm (fun l => !p l) lanes
  have hsum := (hperm.map (fun l => l.run.length)).sum_eq
  simp only [ahead, map_append, sum_append] at h hsum ⊢
  omega

lemma mergeLoop_groups (rts : List RangeTombstone) (n : ℕ) (lanes : List (Lane hi))
    (hn : ahead lanes ≤ n) (hids : (lanes.map Lane.fileId).Nodup) :
    ∃ groups : List Group,
      (∀ out, mergeLoop rts hi n (lanes.map Lane.cursor) out =
        groups.foldlM (fun out g => mergeKey rts g.key g.first g.others out) out) ∧
      groups.Pairwise (fun a b => a.key < b.key) ∧
      (∀ g ∈ groups, belowHi hi g.key = true ∧ (g.found.map Cursor.fileId).Nodup ∧
        ∀ id e, (∃ c ∈ g.found, c.fileId = id ∧ c.cur = e) ↔ Sees lanes g.key id e) ∧
      ∀ k id e, belowHi hi k = true → Sees lanes k id e → ∃ g ∈ groups, g.key = k := by
  induction n generalizing lanes with
  | zero =>
    have hnil : lanes = [] := by
      cases lanes with
      | nil => rfl
      | cons l lanes =>
        have hlt := l.filter_length_lt
        simp only [ahead, map_cons, sum_cons] at hn
        omega
    subst hnil
    exact ⟨[], fun _ => rfl, List.Pairwise.nil, by simp, by simp [Sees]⟩
  | succ n ih =>
    cases lanes with
    | nil => exact ⟨[], fun _ => rfl, List.Pairwise.nil, by simp, by simp [Sees]⟩
    | cons l₀ ls =>
      obtain ⟨⟨x, hx, hxk⟩, hmin⟩ := leastKey_spec _ _
      have hmin : ∀ l ∈ l₀ :: ls, leastKey l₀.cursor (ls.map Lane.cursor) ≤ l.cursor.cur.key :=
        fun l hl => hmin _ (mem_map_of_mem hl)
      rw [← map_cons] at hx
      generalize hkey : leastKey l₀.cursor (ls.map Lane.cursor) = key at hxk hmin
      let p : Lane hi → Bool := fun l => l.cursor.cur.key = key
      obtain ⟨l₁, hl₁, rfl⟩ := mem_map.1 hx
      have hmem : l₁ ∈ (l₀ :: ls).filter p := mem_filter.2 ⟨hl₁, by simpa [p] using hxk⟩
      obtain ⟨first, others, hhere⟩ : ∃ first others, ((l₀ :: ls).filter p).map Lane.cursor = first :: others := by
        cases h : ((l₀ :: ls).filter p).map Lane.cursor with
        | nil =>
          rw [map_eq_nil_iff] at h
          rw [h] at hmem
          cases hmem
        | cons a as => exact ⟨a, as, rfl⟩
      obtain ⟨loaded, lanes', h₁, h₂, h₃, h₄, h₅⟩ := loadAll ((l₀ :: ls).filter p)
      have hpos : 0 < ((l₀ :: ls).filter p).length := length_pos_of_mem hmem
      have hahead := next_ahead p h₄
      have hloop : ∀ out, mergeLoop rts hi (n + 1) ((l₀ :: ls).map Lane.cursor) out =
          (mergeKey rts key first others out).bind (fun out =>
            mergeLoop rts hi n ((((l₀ :: ls).filter (fun l => !p l)) ++ lanes').map Lane.cursor) out) := by
        intro out
        have hpart : ((l₀ :: ls).map Lane.cursor).partition (fun c => c.cur.key = key) =
            (first :: others, ((l₀ :: ls).filter (fun l => !p l)).map Lane.cursor) := by
          rw [partition_eq_filter_filter, filter_cursor, filter_cursor]
          exact Prod.ext hhere rfl
        rw [map_cons] at hpart
        rw [hhere] at h₁
        simp only [map_cons, mergeLoop, hkey, hpart, h₁, bind, Except.bind, map_append, h₂]
      obtain ⟨groups, g₁, g₂, g₃, g₄⟩ := ih ((l₀ :: ls).filter (fun l => !p l) ++ lanes')
        (by omega) (next_nodup p hids h₃)
      have hsees := next_sees hmin h₅
      have hfound := here_sees hmin
      rw [hhere] at hfound
      have hbelow : belowHi hi key = true := hxk ▸ l₁.parked.below
      have hnodup : ((first :: others).map Cursor.fileId).Nodup := by
        have hfiles : ((l₀ :: ls).filter p).map (fun l => l.cursor.fileId) =
            ((l₀ :: ls).filter p).map Lane.fileId := map_congr_left (fun l _ => l.parked.file)
        rw [← hhere, map_map]
        exact hfiles ▸ hids.sublist (filter_sublist.map _)
      have hgt : ∀ g ∈ groups, key < g.key := by
        intro g hg
        obtain ⟨hb, -, hiff⟩ := g₃ g hg
        exact ((hsees g.key _ _ hb).1 ((hiff _ _).1 ⟨g.first, mem_cons_self, rfl, rfl⟩)).1
      refine ⟨⟨key, first, others⟩ :: groups, ?_, pairwise_cons.2 ⟨hgt, g₂⟩, ?_, ?_⟩
      · intro out
        rw [hloop, foldlM_cons]
        exact congrArg _ (funext g₁)
      · intro g hg
        rcases mem_cons.1 hg with rfl | hg
        · exact ⟨hbelow, hnodup, hfound⟩
        · obtain ⟨hb, hn, hiff⟩ := g₃ g hg
          refine ⟨hb, hn, fun id e => (hiff id e).trans ((hsees g.key id e hb).trans ?_)⟩
          exact and_iff_right (hgt g hg)
      · intro k id e hk hs
        have hle : key ≤ k := by
          obtain ⟨l, hl, -, hn⟩ := hs
          exact (hmin l hl).trans (l.key_le hn)
        rcases eq_or_lt_of_le hle with rfl | hlt
        · exact ⟨_, mem_cons_self, rfl⟩
        · obtain ⟨g, hg, hgk⟩ := g₄ k id e hk ((hsees k id e hk).2 ⟨hlt, hs⟩)
          exact ⟨g, mem_cons_of_mem _ hg, hgk⟩

end Bytecask.Recovery
