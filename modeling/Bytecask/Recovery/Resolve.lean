import Bytecask.Recovery.Merge

/-! What a merge decides about each key, from every file's newest entry for it. -/

namespace Bytecask.Recovery

open List

abbrev View := Bytes → FileId → HintEntry → Prop

namespace View

variable (V : View)

def Wins (k : Bytes) (id : FileId) (e : HintEntry) : Prop :=
  V k id e ∧ ∀ id' e', V k id' e' → e'.sequence ≤ e.sequence

def Keeps (rts : List RangeTombstone) (k : Bytes) (d : KeyDirEntry) : Prop :=
  ∃ id e, V.Wins k id e ∧ e.entryType = .put ∧ (∀ rt ∈ rts, rt.covers k = true → rt.seq ≤ e.sequence) ∧
    d = ⟨e.sequence, e.fileOffset, id, e.valueSize⟩

def OlderPut (k : Bytes) (seq : ℕ) (file : FileId) : Prop :=
  ∃ id e, V k id e ∧ e.entryType = .put ∧ e.sequence < seq ∧ id ≠ file

def PointNeeded (k : Bytes) (seq : ℕ) : Prop :=
  ∃ id e, V k id e ∧ e.entryType = .delete ∧ e.sequence = seq ∧ V.OlderPut k seq id

def Apart : Prop := ∀ k id e id' e', V k id e → V k id' e' → e.sequence = e'.sequence → id = id' ∧ e = e'

end View

variable {V : View}
variable {k : Bytes} {g : Group} {w : Cursor} {rts : List RangeTombstone} {out mid : RangeOut}

lemma View.Wins.unique (hV : V.Apart) {id id' : FileId} {e e' : HintEntry} (h : V.Wins k id e)
    (h' : V.Wins k id' e') : id = id' ∧ e = e' :=
  hV k id e id' e' h.1 h'.1 (le_antisymm (h'.2 id e h.1) (h.2 id' e' h'.1))

lemma kdeNewer_of_ne {a b : KeyDirEntry} (h : a.sequence ≠ b.sequence) :
    kdeNewer a b = .ok (decide (b.sequence < a.sequence)) := by
  rw [kdeNewer, if_pos h]

lemma pickWinner_spec (first : Cursor) (others : List Cursor)
    (h : ((first :: others).map (fun c => c.cur.sequence)).Nodup) :
    ∃ w ∈ first :: others, pickWinner first others = .ok w ∧
      ∀ c ∈ first :: others, c.cur.sequence ≤ w.cur.sequence := by
  induction others generalizing first with
  | nil => exact ⟨first, mem_cons_self, rfl, by simp⟩
  | cons c others ih =>
    simp only [map_cons, nodup_cons, mem_cons, not_or] at h
    obtain ⟨⟨hne, hf⟩, hc, hn⟩ := h
    set w := if first.cur.sequence < c.cur.sequence then c else first with hw
    have hstep : pickWinner first (c :: others) = pickWinner w others := by
      have hk : kdeNewer c.entry first.entry = .ok (decide (first.cur.sequence < c.cur.sequence)) :=
        kdeNewer_of_ne (Ne.symm hne)
      simp only [pickWinner, foldlM_cons, hk, bind, Except.bind, pure, Except.pure, decide_eq_true_eq, hw]
    have hw₁ : first.cur.sequence ≤ w.cur.sequence := by rw [hw]; split_ifs <;> omega
    have hw₂ : c.cur.sequence ≤ w.cur.sequence := by rw [hw]; split_ifs <;> omega
    have hwn : ((w :: others).map (fun c => c.cur.sequence)).Nodup := by
      rw [map_cons, nodup_cons]
      refine ⟨?_, hn⟩
      rw [hw]
      split_ifs
      · exact hc
      · exact hf
    obtain ⟨v, hv, h₁, h₂⟩ := ih w hwn
    refine ⟨v, ?_, hstep.trans h₁, ?_⟩
    · rcases mem_cons.1 hv with rfl | hv
      · rw [hw]
        split_ifs <;> simp
      · exact mem_cons_of_mem _ (mem_cons_of_mem _ hv)
    · intro x hx
      have hwv := h₂ w mem_cons_self
      rcases mem_cons.1 hx with rfl | hx
      · exact hw₁.trans hwv
      · rcases mem_cons.1 hx with rfl | hx
        · exact hw₂.trans hwv
        · exact h₂ x (mem_cons_of_mem _ hx)

structure Group.Shows (g : Group) (V : View) : Prop where
  files : (g.found.map Cursor.fileId).Nodup
  view : ∀ id e, (∃ c ∈ g.found, c.fileId = id ∧ c.cur = e) ↔ V g.key id e

lemma Group.Shows.sequences (h : g.Shows V) (hV : V.Apart) : (g.found.map (fun c => c.cur.sequence)).Nodup := by
  have hp := pairwise_map.1 h.files
  refine pairwise_map.2 (hp.imp_of_mem ?_)
  intro a b ha hb hne hs
  exact hne (hV g.key _ _ _ _ ((h.view _ _).1 ⟨a, ha, rfl, rfl⟩) ((h.view _ _).1 ⟨b, hb, rfl, rfl⟩) hs).1

lemma Group.Shows.olderPut (h : g.Shows V) (seq : ℕ) (file : FileId) :
    olderPutElsewhere g.found seq file = true ↔ V.OlderPut g.key seq file := by
  simp only [olderPutElsewhere, any_eq_true, Bool.and_eq_true, decide_eq_true_eq, bne_iff_ne]
  constructor
  · rintro ⟨c, hc, ⟨hp, hs⟩, hf⟩
    exact ⟨c.fileId, c.cur, (h.view _ _).1 ⟨c, hc, rfl, rfl⟩, hp, hs, hf⟩
  · rintro ⟨id, e, hv, hp, hs, hf⟩
    obtain ⟨c, hc, rfl, rfl⟩ := (h.view id e).2 hv
    exact ⟨c, hc, ⟨hp, hs⟩, hf⟩

lemma Group.Shows.winner (h : g.Shows V) (hV : V.Apart) :
    ∃ w, pickWinner g.first g.others = .ok w ∧ V.Wins g.key w.fileId w.cur := by
  obtain ⟨w, hw, hp, hmax⟩ := pickWinner_spec _ _ (h.sequences hV)
  refine ⟨w, hp, (h.view _ _).1 ⟨w, hw, rfl, rfl⟩, ?_⟩
  intro id e hv
  obtain ⟨c, hc, -, rfl⟩ := (h.view id e).2 hv
  exact hmax c hc

def RangeOut.liveOf (out : RangeOut) (id : FileId) : ℕ := (out.live.get id).getD 0

def bytesIn (id : FileId) (kept : List (Bytes × KeyDirEntry)) : ℕ :=
  (kept.map (fun e => if e.2.fileId = id then entrySize e.1.length e.2.valueSize else 0)).sum

def markedBy (groups : List Group) (rt : RangeTombstone) : RangeTombstone :=
  { rt with
    needed := rt.needed || groups.any (fun g => rt.covers g.key && olderPutElsewhere g.found rt.seq rt.fileId) }

structure Merged (V : View) (rts : List RangeTombstone) (groups : List Group) (out out' : RangeOut) : Prop where
  run : ∃ kept, out'.run = out.run ++ kept ∧ kept.Pairwise (fun a b => a.1 < b.1) ∧
    (∀ k d, (k, d) ∈ kept ↔ (∃ g ∈ groups, g.key = k) ∧ V.Keeps rts k d) ∧
    ∀ id, out'.liveOf id = out.liveOf id + bytesIn id kept
  needed : ∀ x, x ∈ out'.needed ↔ x ∈ out.needed ∨ ∃ g ∈ groups, V.PointNeeded g.key x
  ranges : out'.ranges = out.ranges.map (markedBy groups)

lemma mem_markNeeded (h : g.Shows V) (needed : List ℕ) (ranges : List RangeTombstone) (x : ℕ) :
    x ∈ (markNeeded g.key g.found needed ranges).1 ↔ x ∈ needed ∨ V.PointNeeded g.key x := by
  simp only [markNeeded, mem_append, mem_map, mem_filter, Bool.and_eq_true, decide_eq_true_eq]
  refine or_congr Iff.rfl ?_
  constructor
  · rintro ⟨c, ⟨hc, hd, ho⟩, rfl⟩
    exact ⟨c.fileId, c.cur, (h.view _ _).1 ⟨c, hc, rfl, rfl⟩, hd, rfl, (h.olderPut _ _).1 ho⟩
  · rintro ⟨id, e, hv, hd, rfl, ho⟩
    obtain ⟨c, hc, rfl, rfl⟩ := (h.view id e).2 hv
    exact ⟨c, ⟨hc, hd, (h.olderPut _ _).2 ho⟩, rfl⟩

lemma markNeeded_ranges (g : Group) (needed : List ℕ) (ranges : List RangeTombstone) :
    (markNeeded g.key g.found needed ranges).2 = ranges.map (markedBy [g]) := by
  refine map_congr_left (fun rt _ => ?_)
  obtain ⟨start, «end», seq, fileId, needed⟩ := rt
  cases needed with
  | true => simp [markedBy]
  | false => cases hc : RangeTombstone.covers ⟨start, «end», seq, fileId, false⟩ g.key <;> simp [markedBy, hc]

lemma keep_iff (hV : V.Apart) (rts : List RangeTombstone) (hw : V.Wins k w.fileId w.cur) :
    (decide (w.cur.entryType = .put) &&
      !rts.any (fun rt => decide (w.cur.sequence < rt.seq) && rt.covers k)) = true ↔ V.Keeps rts k w.entry := by
  simp only [Bool.and_eq_true, decide_eq_true_eq, Bool.not_eq_true', any_eq_false, not_and, Bool.not_eq_true]
  constructor
  · rintro ⟨hput, hr⟩
    refine ⟨w.fileId, w.cur, hw, hput, fun rt hrt hc => ?_, rfl⟩
    by_contra hlt
    rw [hr rt hrt (not_le.1 hlt)] at hc
    cases hc
  · rintro ⟨id, e, hw', hput, hr, -⟩
    obtain ⟨-, rfl⟩ := hw.unique hV hw'
    refine ⟨hput, fun rt hrt hlt => ?_⟩
    by_contra hc
    exact absurd (hr rt hrt (by simpa using hc)) (not_le.2 hlt)

lemma View.Wins.keeps_eq (hV : V.Apart) (hw : V.Wins k w.fileId w.cur) {d : KeyDirEntry} (h : V.Keeps rts k d) : d = w.entry := by
  obtain ⟨id, e, hw', -, -, rfl⟩ := h
  obtain ⟨hid, he⟩ := hw.unique hV hw'
  rw [← hid, ← he]
  rfl

lemma mergeKey_spec (hV : V.Apart) (rts : List RangeTombstone) (h : g.Shows V) (out : RangeOut)
    (hlast : ∀ e ∈ out.run, e.1 < g.key) :
    ∃ out', mergeKey rts g.key g.first g.others out = .ok out' ∧ Merged V rts [g] out out' := by
  obtain ⟨w, hp, hw⟩ := h.winner hV
  have hneeded : ∀ x, x ∈ (markNeeded g.key g.found out.needed out.ranges).1 ↔
      x ∈ out.needed ∨ ∃ g' ∈ [g], V.PointNeeded g'.key x := by simpa using mem_markNeeded h _ _
  have hranges := markNeeded_ranges g out.needed out.ranges
  by_cases hk : V.Keeps rts g.key w.entry
  · have hlt : out.run.getLast?.all (fun last => decide (last.1 < g.key)) = true := by
      cases hl : out.run.getLast? with
      | none => rfl
      | some e => simpa using hlast e (List.mem_of_getLast? hl)
    refine ⟨{ run := out.run ++ [(g.key, w.entry)]
              live := out.live.insert w.fileId
                ((out.live.get w.fileId).getD 0 + entrySize g.key.length w.cur.valueSize)
              needed := (markNeeded g.key _ _ out.ranges).1
              ranges := (markNeeded g.key _ out.needed _).2 }, ?_, ?_, hneeded, hranges⟩
    · rw [mergeKey, hp]
      simp only [bind, Except.bind, (keep_iff hV rts hw).2 hk, if_true, RangeOut.append, hlt]
      rfl
    · refine ⟨[(g.key, w.entry)], rfl, pairwise_singleton _ _, ?_, ?_⟩
      · intro k d
        simp only [mem_singleton, Prod.mk.injEq, exists_eq_left]
        constructor
        · rintro ⟨rfl, rfl⟩
          exact ⟨rfl, hk⟩
        · rintro ⟨rfl, hd⟩
          exact ⟨rfl, hw.keeps_eq hV hd⟩
      · intro id
        by_cases hid : w.fileId = id
        · subst hid
          simp [RangeOut.liveOf, bytesIn, Cursor.entry]
        · simp [RangeOut.liveOf, bytesIn, Cursor.entry, hid, SortedMap.get_insert_ne, Ne.symm]
  · refine ⟨{ out with
              needed := (markNeeded g.key _ _ out.ranges).1
              ranges := (markNeeded g.key _ out.needed _).2 }, ?_, ?_, hneeded, hranges⟩
    · rw [mergeKey, hp]
      have hkeep := (keep_iff hV rts hw).not.2 hk
      simp only [bind, Except.bind, hkeep]
      rfl
    · refine ⟨[], by simp, List.Pairwise.nil, ?_, by simp [bytesIn, RangeOut.liveOf]⟩
      intro k d
      simp only [not_mem_nil, mem_singleton, exists_eq_left, false_iff, not_and]
      rintro rfl hd
      exact hk (hw.keeps_eq hV hd ▸ hd)

lemma Merged.refl (rts : List RangeTombstone) (out : RangeOut) : Merged V rts [] out out where
  run := ⟨[], by simp, List.Pairwise.nil, by simp, by simp [bytesIn]⟩
  needed := by simp
  ranges := by
    have hid : markedBy [] = id := by
      funext rt
      simp [markedBy]
    rw [hid, map_id]

lemma Merged.cons {groups : List Group} {out' : RangeOut}
    (hlt : ∀ g' ∈ groups, g.key < g'.key) (h₁ : Merged V rts [g] out mid) (h₂ : Merged V rts groups mid out') :
    Merged V rts (g :: groups) out out' where
  run := by
    obtain ⟨kept₁, hr₁, hs₁, hm₁, hb₁⟩ := h₁.run
    obtain ⟨kept₂, hr₂, hs₂, hm₂, hb₂⟩ := h₂.run
    refine ⟨kept₁ ++ kept₂, by rw [hr₂, hr₁, append_assoc], ?_, ?_, ?_⟩
    · refine pairwise_append.2 ⟨hs₁, hs₂, ?_⟩
      rintro ⟨k, d⟩ ha ⟨k', d'⟩ hb
      obtain ⟨⟨g₁, hg₁, rfl⟩, -⟩ := (hm₁ k d).1 ha
      obtain ⟨⟨g₂, hg₂, rfl⟩, -⟩ := (hm₂ k' d').1 hb
      rw [mem_singleton.1 hg₁]
      exact hlt g₂ hg₂
    · intro k d
      rw [mem_append, hm₁, hm₂, ← or_and_right]
      simp
    · intro id
      rw [hb₂, hb₁, bytesIn, bytesIn, bytesIn, map_append, sum_append, Nat.add_assoc]
  needed := by
    intro x
    rw [h₂.needed, h₁.needed, or_assoc]
    simp
  ranges := by
    rw [h₂.ranges, h₁.ranges, map_map]
    simp [markedBy, RangeTombstone.covers, Bool.or_assoc]

lemma Merged.last_lt (h : Merged V rts [g] out mid) (hk : g.key < k) (hlast : ∀ e ∈ out.run, e.1 < k) : ∀ e ∈ mid.run, e.1 < k := by
  obtain ⟨kept, hr, -, hm, -⟩ := h.run
  rintro ⟨k', d⟩ he
  rcases mem_append.1 (hr ▸ he) with he | he
  · exact hlast _ he
  · obtain ⟨⟨g', hg', rfl⟩, -⟩ := (hm k' d).1 he
    rw [mem_singleton.1 hg']
    exact hk

lemma foldGroups (hV : V.Apart) (rts : List RangeTombstone) (groups : List Group) (out : RangeOut)
    (hs : groups.Pairwise (fun a b => a.key < b.key)) (hg : ∀ g ∈ groups, g.Shows V)
    (hlast : ∀ g ∈ groups, ∀ e ∈ out.run, e.1 < g.key) :
    ∃ out', groups.foldlM (fun out g => mergeKey rts g.key g.first g.others out) out = .ok out' ∧
      Merged V rts groups out out' := by
  induction groups generalizing out with
  | nil => exact ⟨out, rfl, Merged.refl rts out⟩
  | cons g groups ih =>
    obtain ⟨hlt, hs⟩ := pairwise_cons.1 hs
    obtain ⟨mid, hmid, hm⟩ := mergeKey_spec hV rts (hg g mem_cons_self) out (hlast g mem_cons_self)
    obtain ⟨out', hout, hm'⟩ := ih mid hs (fun g' hg' => hg g' (mem_cons_of_mem g hg'))
      (fun g' hg' => hm.last_lt (hlt g' hg') (hlast g' (mem_cons_of_mem g hg')))
    exact ⟨out', by rw [foldlM_cons, hmid]; exact hout, hm.cons hlt hm'⟩

end Bytecask.Recovery
