import Bytecask.Recovery.Resolve

/-! One range of the merge, and the ranges put together: no key falls between two of them. -/

namespace Bytecask.Recovery

open List RecoveredFile

variable {files : List RecoveredFile} {rf : RecoveredFile} {scanned : List FileRun} {tombstones : List RangeTombstone}
variable {lo k mid : Bytes} {hi : Option Bytes} {V : View} {groups : List Group}

def RecoveredFile.entries (rf : RecoveredFile) : List HintEntry := (rf.hint.map HintFile.entries).getD []

structure Recoverable (files : List RecoveredFile) : Prop where
  readable : ∀ rf ∈ files, rf.hint.isSome
  sorted : ∀ rf ∈ files, SortedHint rf.entries
  ids : (files.map fileId).Nodup
  distinct : ((files.flatMap RecoveredFile.entries).map HintEntry.sequence).Nodup

def viewOf (files : List RecoveredFile) : View :=
  fun k id e => ∃ rf ∈ files, rf.fileId = id ∧ NewestAt (dataOf rf.entries) k e

def ScannedRun (rf : RecoveredFile) (run : FileRun) : Prop :=
  ∃ h, rf.hint = some h ∧ Scanned rf h run

lemma Recoverable.distinct_data (h : Recoverable files) (hrf : rf ∈ files) : ((dataOf rf.entries).map HintEntry.sequence).Nodup :=
  h.distinct.sublist ((filter_sublist.trans (sublist_flatten_of_mem (mem_map_of_mem hrf))).map _)

lemma RecoveredFile.entries_of_hint {h : HintFile} (hh : rf.hint = some h) : rf.entries = h.entries := by
  rw [RecoveredFile.entries, hh]
  rfl

lemma openSources (hsorted : ∀ rf ∈ files, SortedHint rf.entries)
    (hdistinct : ∀ rf ∈ files, ((dataOf rf.entries).map HintEntry.sequence).Nodup)
    (hs : List.Forall₂ ScannedRun files scanned) (lo : Bytes) (hi : Option Bytes) :
    ∃ (opened : List (Option Cursor)) (sources : List Source),
      ((files.map RecoveredFile.fileId).zip scanned).mapM (fun r => openCursor lo hi r.1 r.2) = .ok opened ∧
      List.Forall₂ (fun src oc => Opened hi src.fileId src.run oc) sources opened ∧
      sources.map Source.fileId = files.map RecoveredFile.fileId ∧
      (sources.map (fun src => src.run.length)).sum ≤ (((files.map RecoveredFile.fileId).zip scanned).map
        (fun r => (r.2.hint.map (fun h => h.entries.length)).getD 0)).sum ∧
      ∀ k id e, (∃ src ∈ sources, src.fileId = id ∧ NewestAt src.run k e) ↔ lo ≤ k ∧ viewOf files k id e := by
  induction hs with
  | nil => exact ⟨[], [], rfl, Forall₂.nil, rfl, le_rfl, by simp [viewOf]⟩
  | @cons rf run files scanned hr hs ih =>
    obtain ⟨opened, sources, h₁, h₂, h₃, h₄, h₅⟩ := ih (fun x hx => hsorted x (mem_cons_of_mem rf hx))
      (fun x hx => hdistinct x (mem_cons_of_mem rf hx))
    obtain ⟨h, hh, hr⟩ := hr
    obtain ⟨oc, ho, hoc⟩ := openCursor_spec hr lo hi _
    rw [← RecoveredFile.entries_of_hint hh] at hoc
    let src : Source :=
      ⟨rf.fileId, (dataOf rf.entries).filter (fun e => lo ≤ e.key),
        (hsorted rf mem_cons_self).data_sorted.sublist filter_sublist,
        (hdistinct rf mem_cons_self).sublist (filter_sublist.map _)⟩
    refine ⟨oc :: opened, src :: sources, ?_, h₂.cons hoc, by rw [map_cons, h₃]; rfl, ?_, ?_⟩
    · rw [map_cons, zip_cons_cons, mapM_cons, ho, h₁]
      rfl
    · have hlen : src.run.length ≤ h.entries.length := by
        rw [← RecoveredFile.entries_of_hint hh]
        exact (filter_sublist.trans filter_sublist).length_le
      simp only [map_cons, zip_cons_cons, sum_cons, hr.hint, Option.map_some, Option.getD_some]
      omega
    · intro k id e
      have hsrc : NewestAt src.run k e ↔ lo ≤ k ∧ NewestAt (dataOf rf.entries) k e := by
        simpa using newestAt_filter (fun k => decide (lo ≤ k)) _ (k := k) (e := e)
      rw [exists_mem_cons_iff, h₅, hsrc, viewOf, viewOf, exists_mem_cons_iff,
        and_left_comm, ← and_or_left]

lemma openAll (hf : Recoverable files) (hs : List.Forall₂ ScannedRun files scanned) (lo : Bytes) (hi : Option Bytes) :
    ∃ (opened : List (Option Cursor)) (lanes : List (Lane hi)),
      ((files.map fileId).zip scanned).mapM (fun r => openCursor lo hi r.1 r.2) = .ok opened ∧
      opened.reduceOption = lanes.map Lane.cursor ∧
      (lanes.map Lane.fileId).Nodup ∧
      ahead lanes ≤ (((files.map fileId).zip scanned).map
        (fun r => (r.2.hint.map (fun h => h.entries.length)).getD 0)).sum ∧
      ∀ k id e, belowHi hi k = true → (Sees lanes k id e ↔ lo ≤ k ∧ viewOf files k id e) := by
  obtain ⟨opened, sources, h₁, h₂, h₃, h₄, h₅⟩ := openSources hf.sorted (fun rf hrf => hf.distinct_data hrf) hs lo hi
  obtain ⟨lanes, g₁, g₂, g₃, g₄⟩ := lanes_of_opened h₂
  refine ⟨opened, lanes, h₁, g₁, hf.ids.sublist (h₃ ▸ g₂), g₃.trans h₄, ?_⟩
  intro k id e hk
  rw [g₄ k id e hk, h₅]

lemma Recoverable.file_unique (h : Recoverable files) {rf' : RecoveredFile}
    (hrf : rf ∈ files) (hrf' : rf' ∈ files) {e e' : HintEntry} (he : e ∈ rf.entries) (he' : e' ∈ rf'.entries)
    (hseq : e.sequence = e'.sequence) : rf = rf' := by
  have hd := h.distinct
  rw [map_flatMap, nodup_flatMap] at hd
  have hsymm : Std.Symm (Function.onFun List.Disjoint fun rf : RecoveredFile => rf.entries.map HintEntry.sequence) :=
    ⟨fun _ _ hdis => hdis.symm⟩
  by_contra hne
  exact hd.2.forall hrf hrf' hne (mem_map_of_mem he) (hseq ▸ mem_map_of_mem he')

lemma Recoverable.apart (h : Recoverable files) : (viewOf files).Apart := by
  rintro k id e id' e' ⟨rf, hrf, rfl, hn⟩ ⟨rf', hrf', rfl, hn'⟩ hseq
  have he := (mem_filter.1 hn.1.1).1
  have he' := (mem_filter.1 hn'.1.1).1
  obtain rfl := h.file_unique hrf hrf' he he' hseq
  exact ⟨rfl, inj_on_of_nodup_map (h.distinct_data hrf) hn.1.1 hn'.1.1 hseq⟩

def InRange (lo : Bytes) (hi : Option Bytes) (k : Bytes) : Prop := lo ≤ k ∧ belowHi hi k = true

def View.Needs (V : View) (tombstones : List RangeTombstone) (k : Bytes) (seq : ℕ) : Prop :=
  V.PointNeeded k seq ∨ ∃ rt ∈ tombstones, rt.seq = seq ∧ rt.covers k = true ∧ V.OlderPut k seq rt.fileId

structure Resolved (V : View) (tombstones : List RangeTombstone) (lo : Bytes) (hi : Option Bytes)
    (run : List (Bytes × KeyDirEntry)) (live : FileId → ℕ) (needed : List ℕ) : Prop where
  sorted : run.Pairwise (fun a b => a.1 < b.1)
  mem : ∀ k d, (k, d) ∈ run ↔ InRange lo hi k ∧ V.Keeps tombstones k d
  live : ∀ id, live id = bytesIn id run
  needed : ∀ x, x ∈ needed ↔ ∃ k, InRange lo hi k ∧ V.Needs tombstones k x

def reaching (tombstones : List RangeTombstone) (lo : Bytes) (hi : Option Bytes) : List RangeTombstone :=
  tombstones.filter (fun rt => belowHi hi rt.start && (lo = [] || lo < rt.end))

lemma mem_reaching (hk : InRange lo hi k) {rt : RangeTombstone} (hrt : rt ∈ tombstones) (hc : rt.covers k = true) :
    rt ∈ reaching tombstones lo hi := by
  simp only [RangeTombstone.covers, Bool.and_eq_true, decide_eq_true_eq] at hc
  refine mem_filter.2 ⟨hrt, ?_⟩
  simp only [Bool.and_eq_true, Bool.or_eq_true, decide_eq_true_eq]
  exact ⟨belowHi_mono hc.1 hk.2, .inr (lt_of_le_of_lt hk.1 hc.2)⟩

lemma keeps_reaching (hk : InRange lo hi k) (d : KeyDirEntry) :
    V.Keeps (reaching tombstones lo hi) k d ↔ V.Keeps tombstones k d := by
  refine exists_congr fun id => exists_congr fun e => and_congr Iff.rfl (and_congr Iff.rfl (and_congr ?_ Iff.rfl))
  constructor
  · exact fun h rt hrt hc => h rt (mem_reaching hk hrt hc) hc
  · exact fun h rt hrt hc => h rt (mem_filter.1 hrt).1 hc

structure Grouped (V : View) (lo : Bytes) (hi : Option Bytes) (groups : List Group) : Prop where
  sorted : groups.Pairwise (fun a b => a.key < b.key)
  shows : ∀ g ∈ groups, g.Shows V
  inRange : ∀ g ∈ groups, InRange lo hi g.key
  complete : ∀ k id e, InRange lo hi k → V k id e → ∃ g ∈ groups, g.key = k

lemma mergeLoop_grouped (hf : Recoverable files)
    (hs : List.Forall₂ ScannedRun files scanned) (tombstones : List RangeTombstone) (lo : Bytes) (hi : Option Bytes) :
    ∃ groups : List Group, Grouped (viewOf files) lo hi groups ∧
      mergeRange ((files.map fileId).zip scanned) tombstones lo hi =
        groups.foldlM (fun out g => mergeKey (reaching tombstones lo hi) g.key g.first g.others out)
          { ranges := reaching tombstones lo hi } := by
  obtain ⟨opened, lanes, h₁, h₂, h₃, h₄, h₅⟩ := openAll hf hs lo hi
  obtain ⟨groups, g₁, g₂, g₃, g₄⟩ := mergeLoop_groups _ _ lanes h₄ h₃
  have hmerge : mergeRange ((files.map fileId).zip scanned) tombstones lo hi =
      mergeLoop (reaching tombstones lo hi) hi (((files.map fileId).zip scanned).map
        (fun r => (r.2.hint.map (fun h => h.entries.length)).getD 0)).sum (lanes.map Lane.cursor)
        { ranges := reaching tombstones lo hi } := by
    rw [mergeRange, h₁, ← h₂]
    rfl
  have hlo : ∀ g ∈ groups, lo ≤ g.key := by
    intro g hg
    obtain ⟨hb, -, hview⟩ := g₃ g hg
    exact ((h₅ g.key _ _ hb).1 ((hview _ _).1 ⟨g.first, mem_cons_self, rfl, rfl⟩)).1
  refine ⟨groups, ⟨g₂, ?_, ?_, ?_⟩, hmerge.trans (g₁ _)⟩
  · intro g hg
    obtain ⟨hb, hn, hview⟩ := g₃ g hg
    refine ⟨hn, fun id e => (hview id e).trans ((h₅ g.key id e hb).trans ?_)⟩
    exact and_iff_right (hlo g hg)
  · exact fun g hg => ⟨hlo g hg, (g₃ g hg).1⟩
  · exact fun k id e hk hv => g₄ k id e hk.2 ((h₅ k id e hk.2).2 ⟨hk.1, hv⟩)

def RangeOut.neededSeqs (out : RangeOut) : List ℕ :=
  out.needed ++ (out.ranges.filter RangeTombstone.needed).map RangeTombstone.seq

lemma mem_markedRanges (hnew : ∀ rt ∈ tombstones, rt.needed = false) (hg : ∀ g ∈ groups, g.Shows V) (x : ℕ) :
    x ∈ ((tombstones.map (markedBy groups)).filter RangeTombstone.needed).map RangeTombstone.seq ↔
      ∃ rt ∈ tombstones, rt.seq = x ∧ ∃ g ∈ groups, rt.covers g.key = true ∧ V.OlderPut g.key x rt.fileId := by
  simp only [mem_map, mem_filter]
  constructor
  · rintro ⟨_, ⟨⟨rt, hrt, rfl⟩, hn⟩, rfl⟩
    simp only [markedBy, hnew rt hrt, Bool.false_or, any_eq_true, Bool.and_eq_true] at hn
    obtain ⟨g, hgm, hc, ho⟩ := hn
    exact ⟨rt, hrt, rfl, g, hgm, hc, ((hg g hgm).olderPut _ _).1 ho⟩
  · rintro ⟨rt, hrt, rfl, g, hgm, hc, ho⟩
    refine ⟨markedBy groups rt, ⟨⟨rt, hrt, rfl⟩, ?_⟩, rfl⟩
    simp only [markedBy, Bool.or_eq_true, any_eq_true, Bool.and_eq_true]
    exact .inr ⟨g, hgm, hc, ((hg g hgm).olderPut _ _).2 ho⟩

lemma mem_neededSeqs (hnew : ∀ rt ∈ tombstones, rt.needed = false) (hg : Grouped V lo hi groups) {out : RangeOut}
    (hm : Merged V (reaching tombstones lo hi) groups { ranges := reaching tombstones lo hi } out) (x : ℕ) :
    x ∈ out.neededSeqs ↔ ∃ k, InRange lo hi k ∧ V.Needs tombstones k x := by
  have hnew' : ∀ rt ∈ reaching tombstones lo hi, rt.needed = false := fun rt hrt => hnew rt (mem_filter.1 hrt).1
  rw [RangeOut.neededSeqs, mem_append, hm.needed, hm.ranges, mem_markedRanges hnew' hg.shows]
  constructor
  · rintro ((h | ⟨g, hgm, hp⟩) | ⟨rt, hrt, hx, g, hgm, hc, ho⟩)
    · cases h
    · exact ⟨g.key, hg.inRange g hgm, .inl hp⟩
    · exact ⟨g.key, hg.inRange g hgm, .inr ⟨rt, (mem_filter.1 hrt).1, hx, hc, ho⟩⟩
  · rintro ⟨k, hk, hp | ⟨rt, hrt, hx, hc, ho⟩⟩
    · obtain ⟨id, e, hv, -⟩ := id hp
      obtain ⟨g, hgm, rfl⟩ := hg.complete k id e hk hv
      exact .inl (.inr ⟨g, hgm, hp⟩)
    · obtain ⟨id, e, hv, -⟩ := id ho
      obtain ⟨g, hgm, rfl⟩ := hg.complete k id e hk hv
      exact .inr ⟨rt, mem_reaching hk hrt hc, hx, g, hgm, hc, ho⟩

lemma mergeRange_spec (hf : Recoverable files) (hs : List.Forall₂ ScannedRun files scanned)
    (hnew : ∀ rt ∈ tombstones, rt.needed = false) (lo : Bytes) (hi : Option Bytes) :
    ∃ out, mergeRange ((files.map fileId).zip scanned) tombstones lo hi = .ok out ∧
      Resolved (viewOf files) tombstones lo hi out.run out.liveOf out.neededSeqs := by
  obtain ⟨groups, hg, hmerge⟩ := mergeLoop_grouped hf hs _ lo hi
  obtain ⟨out, hout, hm⟩ := foldGroups hf.apart _ groups
    { ranges := reaching _ lo hi } hg.sorted hg.shows (by simp)
  obtain ⟨kept, hrun, hsorted, hmem, hlive⟩ := hm.run
  subst hrun
  refine ⟨out, hmerge.trans hout, hsorted, ?_, ?_, mem_neededSeqs hnew hg hm⟩
  · intro k d
    rw [hmem]
    constructor
    · rintro ⟨⟨g, hgm, rfl⟩, hk⟩
      exact ⟨hg.inRange g hgm, (keeps_reaching (hg.inRange g hgm) d).1 hk⟩
    · rintro ⟨hr, hk⟩
      obtain ⟨id, e, hw, -⟩ := id hk
      exact ⟨hg.complete k id e hr hw.1, (keeps_reaching hr d).2 hk⟩
  · intro id
    rw [hlive]
    exact Nat.zero_add _

lemma inRange_split (hlo : lo ≤ mid) : InRange lo none k ↔ InRange lo (some mid) k ∨ InRange mid none k := by
  simp only [InRange, belowHi, Option.all_none, Option.all_some, and_true, decide_eq_true_eq]
  constructor
  · intro h
    rcases lt_or_ge k mid with hk | hk
    · exact .inl ⟨h, hk⟩
    · exact .inr hk
  · rintro (h | h)
    · exact h.1
    · exact hlo.trans h

lemma Resolved.append (hlo : lo ≤ mid)
    {run₁ run₂ : List (Bytes × KeyDirEntry)} {live₁ live₂ : FileId → ℕ} {needed₁ needed₂ : List ℕ}
    (h₁ : Resolved V tombstones lo (some mid) run₁ live₁ needed₁) (h₂ : Resolved V tombstones mid none run₂ live₂ needed₂) :
    Resolved V tombstones lo none (run₁ ++ run₂) (fun id => live₁ id + live₂ id) (needed₁ ++ needed₂) where
  sorted := by
    refine pairwise_append.2 ⟨h₁.sorted, h₂.sorted, ?_⟩
    rintro ⟨k, d⟩ hk ⟨k', d'⟩ hk'
    have hlt : k < mid := by simpa [belowHi] using ((h₁.mem k d).1 hk).1.2
    exact lt_of_lt_of_le hlt ((h₂.mem k' d').1 hk').1.1
  mem k d := by rw [mem_append, h₁.mem, h₂.mem, inRange_split hlo, or_and_right]
  live id := by
    simp only [h₁.live, h₂.live, bytesIn, map_append, sum_append]
  needed x := by
    rw [mem_append, h₁.needed, h₂.needed, ← exists_or]
    exact exists_congr fun k => by rw [inRange_split hlo, or_and_right]

lemma mergeRanges_spec (hf : Recoverable files) (hs : List.Forall₂ ScannedRun files scanned)
    (hnew : ∀ rt ∈ tombstones, rt.needed = false) (lo : Bytes) (cuts : List Bytes) (hc : (lo :: cuts).Pairwise (· ≤ ·)) :
    ∃ outs, ((lo :: cuts).zip (cuts.map some ++ [none])).mapM (fun r =>
        mergeRange ((files.map fileId).zip scanned) tombstones r.1 r.2) = .ok outs ∧
      Resolved (viewOf files) tombstones lo none (outs.flatMap RangeOut.run)
        (fun id => (outs.map (fun o => o.liveOf id)).sum) (outs.flatMap RangeOut.neededSeqs) := by
  induction cuts generalizing lo with
  | nil =>
    obtain ⟨out, hout, hr⟩ := mergeRange_spec hf hs hnew lo none
    refine ⟨[out], ?_, by simpa using hr⟩
    simp only [map_nil, nil_append, zip_cons_cons, zip_nil_left, mapM_cons, hout, mapM_nil]
    rfl
  | cons c cuts ih =>
    obtain ⟨hlo, hc⟩ := pairwise_cons.1 hc
    obtain ⟨out, hout, hr⟩ := mergeRange_spec hf hs hnew lo _
    obtain ⟨outs, houts, hrs⟩ := ih c hc
    refine ⟨out :: outs, ?_, by simpa using hr.append (hlo c mem_cons_self) hrs⟩
    rw [map_cons, cons_append, zip_cons_cons, mapM_cons, hout, houts]
    rfl

lemma pairwise_append_last {acc : List Bytes} (h : acc.Pairwise (· ≤ ·))
    (hk : acc.getLast?.all (fun last => last < k) = true) : (acc ++ [k]).Pairwise (· ≤ ·) := by
  refine pairwise_append.2 ⟨h, pairwise_singleton _ _, ?_⟩
  rintro x hx _ (_ | ⟨_, ⟨⟩⟩)
  rcases eq_nil_or_concat' acc with rfl | ⟨init, last, rfl⟩
  · cases hx
  · have hlast : last < k := by simpa using hk
    rcases mem_append.1 hx with hx | hx
    · exact ((pairwise_append.1 h).2.2 x hx last mem_cons_self).trans hlast.le
    · rw [mem_singleton.1 hx]
      exact hlast.le

lemma splitters_sorted (w : ℕ) (pool : List Bytes) : (splitters w pool).Pairwise (· ≤ ·) := by
  refine List.foldlRecOn (motive := fun acc : List Bytes => acc.Pairwise _) _ _ List.Pairwise.nil ?_
  intro acc hacc r _
  split
  · exact hacc
  · split_ifs with hk
    · exact pairwise_append_last hacc hk
    · exact hacc

end Bytecask.Recovery
