import Bytecask.Lib.Newest
import Bytecask.Recovery.Scan

/-! The cursors of a range merge: each is parked on the newest entry of its file's next key. -/

namespace Bytecask.Recovery

open List EntryType

variable {he : HintEntry} {es : List HintEntry} {run : FileRun} {rf : RecoveredFile} {h : HintFile}

def entriesAt (run : List HintEntry) (k : Bytes) : Set HintEntry := { e | e ∈ run ∧ e.key = k }

abbrev NewestAt (run : List HintEntry) (k : Bytes) (e : HintEntry) : Prop :=
  IsNewest HintEntry.sequence (entriesAt run k) e

lemma entriesAt_finite (run : List HintEntry) (k : Bytes) : (entriesAt run k).Finite :=
  run.finite_toSet.subset (fun _ he => he.1)

def NoRange (es : List HintEntry) : Prop := ∀ he ∈ es, he.entryType ≠ .rangeDel

structure Parked (hi : Option Bytes) (fileId : FileId) (run : List HintEntry) (c : Cursor) : Prop where
  file : c.fileId = fileId
  newest : NewestAt run c.cur.key c.cur
  least : ∀ e ∈ run, c.cur.key ≤ e.key
  below : belowHi hi c.cur.key = true
  rest : c.lookahead.toList ++ dataOf c.stream = run.filter (fun e => c.cur.key < e.key)
  noRange : NoRange c.stream

def Opened (hi : Option Bytes) (fileId : FileId) (run : List HintEntry) : Option Cursor → Prop
  | none => ∀ e ∈ run, belowHi hi e.key = false
  | some c => Parked hi fileId run c

lemma NoRange.of_cons (h : NoRange (he :: es)) : NoRange es :=
  fun x hx => h x (mem_cons_of_mem he hx)

lemma dataOf_cons_data (h : he.entryType.isData = true) : dataOf (he :: es) = he :: dataOf es := filter_cons_of_pos h

lemma dataOf_cons_skip (h : he.entryType.isData = false) : dataOf (he :: es) = dataOf es := filter_cons_of_neg (by simp [h])

lemma belowHi_mono {hi : Option Bytes} {a b : Bytes} (h : a ≤ b) (hb : belowHi hi b = true) : belowHi hi a = true := by
  cases hi with
  | none => rfl
  | some k =>
    simp only [belowHi, Option.all_some, decide_eq_true_eq] at hb ⊢
    exact lt_of_le_of_lt h hb

lemma nextData_spec (h : NoRange es) :
    (nextData es = .ok none ∧ dataOf es = []) ∨
      ∃ he rest, nextData es = .ok (some (he, rest)) ∧ dataOf es = he :: dataOf rest ∧ NoRange rest := by
  induction es with
  | nil => exact .inl ⟨rfl, rfl⟩
  | cons he es ih =>
    cases ht : he.entryType
    case rangeDel => exact absurd ht (h he mem_cons_self)
    case put | delete =>
      refine .inr ⟨he, es, ?_, dataOf_cons_data (by rw [ht]; rfl), h.of_cons⟩
      simp only [nextData, ht]
    all_goals
      have hn : nextData (he :: es) = nextData es := by simp only [nextData, ht]
      rw [hn, dataOf_cons_skip (by rw [ht]; rfl)]
      exact ih h.of_cons

lemma loadKey_spec (cur : HintEntry) (h : NoRange es)
    (hle : ∀ e ∈ dataOf es, cur.key ≤ e.key) (hs : (dataOf es).Pairwise (fun a b => a.key ≤ b.key)) :
    ∃ cur' ahead rest, loadKey cur es = .ok (cur', ahead, rest) ∧ cur'.key = cur.key ∧
      (cur' = cur ∨ cur' ∈ dataOf es) ∧ cur.sequence ≤ cur'.sequence ∧
      (∀ e ∈ dataOf es, e.key = cur.key → e.sequence ≤ cur'.sequence) ∧
      ahead.toList ++ dataOf rest = (dataOf es).filter (fun e => cur.key < e.key) ∧ NoRange rest := by
  induction es generalizing cur with
  | nil => exact ⟨cur, none, [], rfl, rfl, .inl rfl, le_rfl, by simp [dataOf], by simp [dataOf], by simp [NoRange]⟩
  | cons he es ih =>
    by_cases hd : he.entryType.isData = true
    · rw [dataOf_cons_data hd] at hle hs ⊢
      obtain ⟨hhe, hs'⟩ := pairwise_cons.1 hs
      have hge := hle he mem_cons_self
      rcases eq_or_lt_of_le hge with hk | hk
      · -- Another entry of the same key: the newer of the two goes on.
        have hstep : loadKey cur (he :: es) = loadKey (if cur.sequence < he.sequence then he else cur) es := by
          cases ht : he.entryType <;> simp_all [loadKey, isData]
        set c := if cur.sequence < he.sequence then he else cur with hc
        have hck : c.key = cur.key := by rw [hc]; split_ifs <;> simp [hk]
        have hc₁ : cur.sequence ≤ c.sequence := by rw [hc]; split_ifs <;> omega
        have hc₂ : he.sequence ≤ c.sequence := by rw [hc]; split_ifs <;> omega
        obtain ⟨cur', ahead, rest, h₁, h₂, h₃, h₄, h₅, h₆, h₇⟩ :=
          ih c h.of_cons (fun e hm => hck ▸ hk ▸ hhe e hm) hs'
        refine ⟨cur', ahead, rest, hstep.trans h₁, h₂.trans hck, ?_, hc₁.trans h₄, ?_, ?_, h₇⟩
        · rcases h₃ with rfl | h₃
          · rw [hc]
            split_ifs
            · exact .inr mem_cons_self
            · exact .inl rfl
          · exact .inr (mem_cons_of_mem he h₃)
        · intro e hm hek
          rcases mem_cons.1 hm with rfl | hm
          · exact hc₂.trans h₄
          · exact h₅ e hm (hek.trans hck.symm)
        · rw [h₆, hck, filter_cons_of_neg (by simp [hk])]
      · have hstep : loadKey cur (he :: es) = .ok (cur, some he, es) := by
          have h₁ : ¬ he.key < cur.key := hk.asymm
          cases ht : he.entryType <;> simp_all [loadKey, isData, hk.ne']
        refine ⟨cur, some he, es, hstep, rfl, .inl rfl, le_rfl, ?_, ?_, h.of_cons⟩
        · intro e hm hek
          rcases mem_cons.1 hm with rfl | hm
          · exact absurd hek hk.ne'
          · exact absurd hek (lt_of_lt_of_le hk (hhe e hm)).ne'
        · refine (filter_eq_self.2 ?_).symm
          intro e hm
          rcases mem_cons.1 hm with rfl | hm
          · simpa using hk
          · simpa using lt_of_lt_of_le hk (hhe e hm)
    · have hd' : he.entryType.isData = false := by simpa using hd
      have hr := h he mem_cons_self
      have hstep : loadKey cur (he :: es) = loadKey cur es := by
        cases ht : he.entryType <;> simp_all [loadKey, isData]
      rw [dataOf_cons_skip hd'] at hle hs ⊢
      rw [hstep]
      exact ih cur h.of_cons hle hs

lemma load_spec (hi : Option Bytes) (fileId : FileId) (ahead : Option HintEntry) {run : List HintEntry}
    (h : NoRange es) (hrun : ahead.toList ++ dataOf es = run) (hs : run.Pairwise (fun a b => a.key ≤ b.key)) :
    ∃ oc, load hi fileId ahead es = .ok oc ∧ Opened hi fileId run oc := by
  have hfirst : (run = [] ∧ load hi fileId ahead es = .ok none) ∨ ∃ he rest, run = he :: dataOf rest ∧ NoRange rest ∧
      load hi fileId ahead es = if belowHi hi he.key then
        (loadKey he rest).map (fun r => some ⟨fileId, r.1, r.2.1, r.2.2⟩) else .ok none := by
    cases ahead with
    | some he =>
      refine .inr ⟨he, es, by rw [← hrun]; rfl, h, ?_⟩
      simp only [load, bind, Except.bind]
      split_ifs
      · cases loadKey he es <;> rfl
      · rfl
    | none =>
      rcases nextData_spec h with ⟨hn, hd⟩ | ⟨he, rest, hn, hd, hr⟩
      · refine .inl ⟨by rw [← hrun, hd]; rfl, ?_⟩
        simp [load, hn, bind, Except.bind, pure, Except.pure]
      · refine .inr ⟨he, rest, by rw [← hrun, hd]; rfl, hr, ?_⟩
        simp only [load, hn, bind, Except.bind]
        split_ifs
        · cases loadKey he rest <;> rfl
        · rfl
  rcases hfirst with ⟨rfl, hl⟩ | ⟨he, rest, rfl, hr, hl⟩
  · exact ⟨none, hl, by simp [Opened]⟩
  · obtain ⟨hhe, hs'⟩ := pairwise_cons.1 hs
    cases hb : belowHi hi he.key with
    | false =>
      refine ⟨none, by rw [hl, hb]; rfl, fun e hm => ?_⟩
      by_contra hc
      have hle : he.key ≤ e.key := by
        rcases mem_cons.1 hm with rfl | hm
        · exact le_rfl
        · exact hhe e hm
      rw [belowHi_mono hle (by simpa using hc)] at hb
      cases hb
    | true =>
      obtain ⟨cur', ahead', rest', h₁, h₂, h₃, h₄, h₅, h₆, h₇⟩ := loadKey_spec he hr hhe hs'
      refine ⟨some ⟨fileId, cur', ahead', rest'⟩, by rw [hl, hb, h₁]; rfl, ?_⟩
      refine ⟨rfl, ⟨⟨?_, rfl⟩, ?_⟩, ?_, by rw [h₂]; exact hb, ?_, h₇⟩
      · rcases h₃ with rfl | h₃
        · exact mem_cons_self
        · exact mem_cons_of_mem he h₃
      · rintro e ⟨hm, hek⟩
        rcases mem_cons.1 hm with rfl | hm
        · exact h₄
        · exact h₅ e hm (hek.trans h₂)
      · intro e hm
        rw [h₂]
        rcases mem_cons.1 hm with rfl | hm
        · exact le_rfl
        · exact hhe e hm
      · rw [h₂, filter_cons_of_neg (by simp)]
        exact h₆

lemma skipBelow_spec (lo : Bytes) (h : NoRange es) (hs : (dataOf es).Pairwise (fun a b => a.key ≤ b.key)) :
    ∃ ahead rest, skipBelow lo es = .ok (ahead, rest) ∧ NoRange rest ∧
      ahead.toList ++ dataOf rest = (dataOf es).filter (fun e => lo ≤ e.key) := by
  induction es with
  | nil => exact ⟨none, [], rfl, by simp [NoRange], rfl⟩
  | cons he es ih =>
    by_cases hd : he.entryType.isData = true
    · rw [dataOf_cons_data hd] at hs ⊢
      obtain ⟨hhe, hs'⟩ := pairwise_cons.1 hs
      by_cases hk : he.key < lo
      · have hstep : skipBelow lo (he :: es) = skipBelow lo es := by
          cases ht : he.entryType <;> simp_all [skipBelow, isData]
        rw [hstep, filter_cons_of_neg (by simpa using hk)]
        exact ih h.of_cons hs'
      · have hstep : skipBelow lo (he :: es) = .ok (some he, es) := by
          cases ht : he.entryType <;> simp_all [skipBelow, isData]
        refine ⟨some he, es, hstep, h.of_cons, (filter_eq_self.2 ?_).symm⟩
        intro e hm
        rcases mem_cons.1 hm with rfl | hm
        · simpa using hk
        · simpa using (not_lt.1 hk).trans (hhe e hm)
    · have hd' : he.entryType.isData = false := by simpa using hd
      have hr := h he mem_cons_self
      have hstep : skipBelow lo (he :: es) = skipBelow lo es := by
        cases ht : he.entryType <;> simp_all [skipBelow, isData]
      rw [dataOf_cons_skip hd'] at hs ⊢
      rw [hstep]
      exact ih h.of_cons hs

lemma start_reaches (hr : Scanned rf h run) (lo : Bytes) :
    Reaches h ((if lo = [] then none else (run.fences.takeWhile (fun f => f.key < lo)).getLast?).map Fence.at
      |>.getD run.dataStart) lo := by
  split_ifs
  · exact hr.start lo
  · cases hl : (run.fences.takeWhile (fun f => f.key < lo)).getLast? with
    | none => exact hr.start lo
    | some f =>
      have hm := List.mem_of_getLast? hl
      exact hr.fences f ((takeWhile_sublist _).subset hm) lo (by simpa using mem_takeWhile_imp hm)

lemma openCursor_spec (hr : Scanned rf h run) (lo : Bytes) (hi : Option Bytes) (fileId : FileId) :
    ∃ oc, openCursor lo hi fileId run = .ok oc ∧
      Opened hi fileId ((dataOf h.entries).filter (fun e => lo ≤ e.key)) oc := by
  obtain ⟨es, ⟨sc, hseek, rfl⟩, hno, hs, hf⟩ := start_reaches hr lo
  have hstep : openCursor lo hi fileId run =
      if lo = [] then load hi fileId none sc.rest
      else (skipBelow lo sc.rest).bind (fun r => load hi fileId r.1 r.2) := by
    simp only [openCursor, hr.hint, HintFile.makeScanner, hseek]
    rfl
  by_cases hlo : lo = []
  · rw [hstep, if_pos hlo]
    refine load_spec hi fileId none hno ?_ ?_
    · rw [← hf, filter_eq_self.2]
      · rfl
      · intro e _
        simpa [hlo] using nil_le_bytes e.key
    · rw [← hf]
      exact hs.sublist filter_sublist
  · obtain ⟨ahead, rest, h₁, h₂, h₃⟩ := skipBelow_spec lo hno hs
    rw [hstep, if_neg hlo, h₁]
    refine load_spec hi fileId ahead h₂ (h₃.trans hf) ?_
    rw [← hf]
    exact hs.sublist filter_sublist

end Bytecask.Recovery
