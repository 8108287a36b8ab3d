import Bytecask.Changes.Slice
import Bytecask.Open.Recovered
import Bytecask.Vacuum.Steps

/-! The files of a process in the order of their sequences, and the units a reader of the changes has yet to see. -/

namespace Bytecask

open List Contents Function VacuumScan

open Changes (firstOf firstOf_mem)

section Units

variable {v : VacuumScan} {start : ℕ} {fs u w : List DataEntry}

lemma exists_unit_of_copies (v : VacuumScan) (start : ℕ) (h : Units fs) (hu : u ∈ unitsOf (v.copies (located start fs))) :
    ∃ w ∈ unitsOf fs, ∃ o, u = v.copies (located o w) := by
  induction h generalizing start with
  | nil => cases hu
  | @cons x es hx _ ih =>
    rw [located_append, copies_append] at hu
    rw [unitsOf_unit hx]
    rcases copies_unit v start hx with hnil | ⟨hunit, -⟩
    · rw [hnil, nil_append] at hu
      obtain ⟨w, hw, hrest⟩ := ih _ hu
      exact ⟨w, mem_cons_of_mem x hw, hrest⟩
    · rw [unitsOf_unit hunit] at hu
      rcases mem_cons.1 hu with rfl | hu
      · exact ⟨x, mem_cons_self, start, rfl⟩
      · obtain ⟨w, hw, hrest⟩ := ih _ hu
        exact ⟨w, mem_cons_of_mem x hw, hrest⟩

lemma copies_of_retained (v : VacuumScan) (start : ℕ) (h : ∀ e ∈ w, v.retainAfter < e.sequence) :
    v.copies (located start w) = w := by
  have hall : ∀ p ∈ located start w, v.keeps p = true := by
    intro p hp
    have hlt := h p.1 (mem_of_located (o := p.2) hp)
    cases ht : p.1.entryType <;> simp [VacuumScan.keeps, ht, hlt]
  rw [VacuumScan.copies, filter_eq_self.2 hall, located_map_fst]

lemma mem_units_copies (v : VacuumScan) (start : ℕ) (h : Units fs) (hw : w ∈ unitsOf fs)
    (hret : ∀ e ∈ w, v.retainAfter < e.sequence) : w ∈ unitsOf (v.copies (located start fs)) := by
  induction h generalizing start with
  | nil => cases hw
  | @cons x es hx _ ih =>
    rw [located_append, copies_append]
    rw [unitsOf_unit hx] at hw
    rcases mem_cons.1 hw with rfl | hw
    · rw [copies_of_retained v start hret, unitsOf_unit hx]
      exact mem_cons_self
    · rcases copies_unit v start hx with hnil | ⟨hunit, -⟩
      · rw [hnil]
        exact ih _ hw
      · rw [unitsOf_unit hunit]
        exact mem_cons_of_mem _ (ih _ hw)

lemma firstOf_le (hes : Written fs) (hfs : Units fs) (hu : u ∈ unitsOf fs) {e : DataEntry} (he : e ∈ u) :
    firstOf u ≤ e.sequence := by
  have hsub : u.Sublist fs := by
    have h := sublist_flatten_of_mem hu
    rwa [flatten_unitsOf hfs] at h
  exact (Changes.bounds_of_mem (hes.ascending.sublist hsub) he).1

lemma units_copies_iff (hw : Written fs) (h : Units fs) {f : ℕ} (hf : v.retainAfter ≤ f) :
    (u ∈ unitsOf (v.copies (located start fs)) ∧ f < firstOf u) ↔ (u ∈ unitsOf fs ∧ f < firstOf u) := by
  constructor
  · rintro ⟨hu, hlt⟩
    obtain ⟨w, hwm, o, rfl⟩ := exists_unit_of_copies v start h hu
    rcases copies_unit v o (isUnit_of_mem_unitsOf h w hwm) with hnil | ⟨-, hhead⟩
    · rw [hnil] at hlt
      cases hlt
    · have hfirst : firstOf (v.copies (located o w)) = firstOf w := by rw [firstOf, hhead, firstOf]
      rw [hfirst] at hlt
      have hall : ∀ e ∈ w, v.retainAfter < e.sequence :=
        fun e he => hf.trans_lt (hlt.trans_le (firstOf_le hw h hwm he))
      rw [copies_of_retained v o hall]
      exact ⟨hwm, hlt⟩
  · rintro ⟨hu, hlt⟩
    exact ⟨mem_units_copies v start h hu fun e he => hf.trans_lt (hlt.trans_le (firstOf_le hw h hu he)), hlt⟩

end Units

def Contents.Later (C : Contents) (f : ℕ) (u : List DataEntry) : Prop := ∃ id, u ∈ unitsOf (C id) ∧ f < firstOf u

structure Ordered (C : Contents) (s : EngineState) : Prop where
  apart : C.Apart
  latest : ∀ id, id ≠ s.activeFileId → ∀ e ∈ C id, ∀ e' ∈ C s.activeFileId, e.sequence < e'.sequence
  boundary : ∀ id, ∀ u ∈ unitsOf (C id),
    (∀ e ∈ u, e.sequence ≤ s.durableSeq) ∨ (∀ e ∈ u, s.durableSeq < e.sequence)
  durable : s.durableSeq < s.nextSeq
  fits : ∀ id, ∀ e ∈ C id, e.RecordFits

section Contents

variable {C : Contents} {s t : EngineState} {es u kept : List DataEntry} {f : ℕ} {old dest : FileId}

lemma mem_of_mem_unitsOf (h : Units es) (hu : u ∈ unitsOf es) {e : DataEntry} (he : e ∈ u) : e ∈ es := by
  rw [← flatten_unitsOf h]
  exact mem_flatten_of_mem hu he

lemma Contents.later_extend {a : FileId} (h : Units (C a)) :
    (C.extend a es).Later f u ↔ C.Later f u ∨ (u ∈ unitsOf es ∧ f < firstOf u) := by
  constructor
  · rintro ⟨id, hu, hlt⟩
    by_cases hid : id = a
    · rw [hid, extend_self, unitsOf_append h] at hu
      exact (mem_append.1 hu).imp (fun hu => ⟨a, hu, hlt⟩) fun hu => ⟨hu, hlt⟩
    · rw [extend_ne _ hid] at hu
      exact .inl ⟨id, hu, hlt⟩
  · rintro (⟨id, hu, hlt⟩ | ⟨hu, hlt⟩)
    · refine ⟨id, ?_, hlt⟩
      by_cases hid : id = a
      · rw [hid] at hu ⊢
        rw [extend_self, unitsOf_append h]
        exact mem_append_left _ hu
      · rwa [extend_ne _ hid]
    · refine ⟨a, ?_, hlt⟩
      rw [extend_self, unitsOf_append h]
      exact mem_append_right _ hu

lemma Contents.later_replace (hd : dest = old ∨ C dest = [])
    (h : (u ∈ unitsOf kept ∧ f < firstOf u) ↔ (u ∈ unitsOf (C old) ∧ f < firstOf u)) :
    (C.replace old dest kept).Later f u ↔ C.Later f u := by
  constructor
  · rintro ⟨j, hu, hlt⟩
    by_cases hjd : j = dest
    · rw [hjd, replace_dest] at hu
      exact ⟨old, h.1 ⟨hu, hlt⟩⟩
    · by_cases hjo : j = old
      · rw [replace, update_of_ne hjd, hjo, update_self] at hu
        cases hu
      · rw [replace_of_ne _ _ hjd hjo] at hu
        exact ⟨j, hu, hlt⟩
  · rintro ⟨j, hu, hlt⟩
    by_cases hjo : j = old
    · refine ⟨dest, ?_⟩
      rw [replace_dest]
      exact h.2 ⟨hjo ▸ hu, hlt⟩
    · refine ⟨j, ?_, hlt⟩
      have hjd : j ≠ dest := by
        rintro rfl
        rcases hd with hd | hd
        · exact hjo hd
        · rw [hd] at hu
          cases hu
      rwa [replace_of_ne _ _ hjd hjo]

lemma Ordered.advance (h : Ordered C s) (hm : Mirror C s) (ha : t.activeFileId = s.activeFileId ∨ C t.activeFileId = [])
    (hd : t.durableSeq = s.durableSeq ∨ t.durableSeq = s.nextSeq - 1) (hn : t.nextSeq = s.nextSeq) : Ordered C t where
  apart := h.apart
  latest id hid e he e' he' := by
    rcases ha with ha | ha
    · rw [ha] at hid he'
      exact h.latest id hid e he e' he'
    · rw [ha] at he'
      cases he'
  boundary id u hu := by
    rcases hd with hd | hd
    · rw [hd]
      exact h.boundary id u hu
    · refine .inl fun e he => ?_
      have := hm.below id e (mem_of_mem_unitsOf (hm.log.units id) hu he)
      omega
  durable := by
    have := h.durable
    omega
  fits := h.fits

lemma Ordered.extend (h : Ordered C s) (hm : Mirror C s) (hes : Appendable s es) (hfits : ∀ e ∈ es, e.RecordFits)
    (ha : t.activeFileId = s.activeFileId) (hd : t.durableSeq = s.durableSeq) (hn : s.nextSeq ≤ t.nextSeq) :
    Ordered (C.extend s.activeFileId es) t := by
  have hlatest : ∀ id, id ≠ s.activeFileId → ∀ e ∈ C.extend s.activeFileId es id,
      ∀ e' ∈ C.extend s.activeFileId es s.activeFileId, e.sequence < e'.sequence := by
    intro id hid e he e' he'
    rw [extend_ne _ hid] at he
    rw [extend_self] at he'
    rcases mem_append.1 he' with he' | he'
    · exact h.latest id hid e he e' he'
    · exact (hm.below id e he).trans_le (hes.fresh e' he')
  refine ⟨fun id id' hne => ?_, by rwa [ha], fun id u hu => ?_, ?_, fun id e he => ?_⟩
  · by_cases hid : id = s.activeFileId
    · rw [hid] at hne ⊢
      exact .inr fun e he e' he' => hlatest id' hne.symm e' he' e he
    · by_cases hid' : id' = s.activeFileId
      · rw [hid']
        exact .inl (hlatest id hid)
      · rw [extend_ne _ hid, extend_ne _ hid']
        exact h.apart id id' hne
  · rw [hd]
    by_cases hid : id = s.activeFileId
    · rw [hid, extend_self, unitsOf_append (hm.log.units _)] at hu
      rcases mem_append.1 hu with hu | hu
      · exact h.boundary _ u hu
      · exact .inr fun e he => h.durable.trans_le (hes.fresh e (mem_of_mem_unitsOf hes.units hu he))
    · rw [extend_ne _ hid] at hu
      exact h.boundary id u hu
  · rw [hd]
    exact h.durable.trans_le hn
  · rcases mem_extend.1 he with he | ⟨-, he⟩
    · exact h.fits id e he
    · exact hfits e he

lemma Ordered.replace (h : Ordered C s) (hsub : kept.Sublist (C old))
    (hunits : ∀ u ∈ unitsOf kept, ∃ w ∈ unitsOf (C old), ∀ e ∈ u, e ∈ w) (ho : old ≠ s.activeFileId)
    (hd : dest ≠ s.activeFileId) (ha : t.activeFileId = s.activeFileId) (hdur : t.durableSeq = s.durableSeq)
    (hn : t.nextSeq = s.nextSeq) : Ordered (C.replace old dest kept) t := by
  refine ⟨fun id id' hne => ?_, fun id hid e he e' he' => ?_, fun id u hu => ?_, by rw [hdur, hn]; exact h.durable,
    fun id e he => ?_⟩
  · by_cases hido : id = old ∧ id ≠ dest
    · left
      rw [Contents.replace, update_of_ne hido.2, hido.1, update_self]
      simp
    by_cases hido' : id' = old ∧ id' ≠ dest
    · left
      rw [Contents.replace, update_of_ne hido'.2, hido'.1, update_self]
      simp
    by_cases hid : id = dest
    · have hne' : old ≠ id' := by
        rintro rfl
        exact hido' ⟨rfl, hid ▸ hne.symm⟩
      rw [hid, replace_dest, replace_of_ne _ _ (hid ▸ hne.symm) hne'.symm]
      exact (h.apart old id' hne').imp (fun hlt e he => hlt e (hsub.subset he)) fun hlt e he => hlt e (hsub.subset he)
    · have hne' : id ≠ old := fun heq => hido ⟨heq, hid⟩
      rw [replace_of_ne _ _ hid hne']
      by_cases hid' : id' = dest
      · rw [hid', replace_dest]
        exact (h.apart id old hne').imp (fun hlt e he e' he' => hlt e he e' (hsub.subset he'))
          fun hlt e he e' he' => hlt e he e' (hsub.subset he')
      · rw [replace_of_ne _ _ hid' fun heq => hido' ⟨heq, hid'⟩]
        exact h.apart id id' hne
  · rw [ha] at hid he'
    rw [replace_of_ne _ _ hd.symm ho.symm] at he'
    rcases mem_replace.1 he with ⟨-, he⟩ | ⟨-, -, he⟩
    · exact h.latest old ho e (hsub.subset he) e' he'
    · exact h.latest id hid e he e' he'
  · rw [hdur]
    by_cases hid : id = dest
    · rw [hid, replace_dest] at hu
      obtain ⟨w, hw, hmem⟩ := hunits u hu
      exact (h.boundary old w hw).imp (fun hle e he => hle e (hmem e he)) fun hlt e he => hlt e (hmem e he)
    · by_cases hido : id = old
      · rw [Contents.replace, update_of_ne hid, hido, update_self] at hu
        cases hu
      · rw [replace_of_ne _ _ hid hido] at hu
        exact h.boundary id u hu
  · rcases mem_replace.1 he with ⟨-, he⟩ | ⟨-, -, he⟩
    · exact h.fits old e (hsub.subset he)
    · exact h.fits id e he

end Contents

inductive Move (f : ℕ) : Contents × EngineState → Contents × EngineState → Prop
  | advance {C : Contents} {s t : EngineState} : Mirror C s →
      (t.activeFileId = s.activeFileId ∨ C t.activeFileId = []) →
      (t.durableSeq = s.durableSeq ∨ t.durableSeq = s.nextSeq - 1) → t.nextSeq = s.nextSeq → Move f (C, s) (C, t)
  | extend {C : Contents} {s t : EngineState} {es : List DataEntry} : Mirror C s → Appendable s es →
      (∀ e ∈ es, e.RecordFits) → t.activeFileId = s.activeFileId → t.durableSeq = s.durableSeq →
      s.nextSeq ≤ t.nextSeq → Move f (C, s) (C.extend s.activeFileId es, t)
  | replace {C : Contents} {s t : EngineState} {old dest : FileId} {kept : List DataEntry} :
      kept.Sublist (C old) → (∀ u ∈ unitsOf kept, ∃ w ∈ unitsOf (C old), ∀ e ∈ u, e ∈ w) →
      (∀ u, (u ∈ unitsOf kept ∧ f < firstOf u) ↔ (u ∈ unitsOf (C old) ∧ f < firstOf u)) → (dest = old ∨ C dest = []) →
      old ≠ s.activeFileId → dest ≠ s.activeFileId → t.activeFileId = s.activeFileId → t.durableSeq = s.durableSeq →
      t.nextSeq = s.nextSeq → Move f (C, s) (C.replace old dest kept, t)

abbrev Moves (f : ℕ) : Contents × EngineState → Contents × EngineState → Prop := Relation.ReflTransGen (Move f)

structure Continues (f : ℕ) (a b : Contents × EngineState) : Prop where
  stays : ∀ u, a.1.Later f u → b.1.Later f u
  comes : ∀ u, b.1.Later f u → a.1.Later f u ∨ ∀ e ∈ u, a.2.nextSeq ≤ e.sequence
  durable : a.2.durableSeq ≤ b.2.durableSeq
  nextSeq : a.2.nextSeq ≤ b.2.nextSeq

section Moves

variable {f : ℕ} {a b c : Contents × EngineState}

lemma Move.ordered (h : Move f a b) (ho : Ordered a.1 a.2) : Ordered b.1 b.2 := by
  cases h with
  | advance hm ha hd hn => exact ho.advance hm ha hd hn
  | extend hm hes hfits ha hd hn => exact ho.extend hm hes hfits ha hd hn
  | replace hsub hunits _ _ hold hdest ha hd hn => exact ho.replace hsub hunits hold hdest ha hd hn

lemma Moves.ordered (h : Moves f a b) (ho : Ordered a.1 a.2) : Ordered b.1 b.2 := by
  induction h with
  | refl => exact ho
  | tail _ hbc ih => exact hbc.ordered ih

lemma Continues.refl (f : ℕ) (a : Contents × EngineState) : Continues f a a :=
  ⟨fun _ h => h, fun _ h => .inl h, le_rfl, le_rfl⟩

lemma Continues.trans (h : Continues f a b) (h' : Continues f b c) : Continues f a c where
  stays u hu := h'.stays u (h.stays u hu)
  comes u hu := by
    rcases h'.comes u hu with hu | hnew
    · exact h.comes u hu
    · exact .inr fun e he => h.nextSeq.trans (hnew e he)
  durable := h.durable.trans h'.durable
  nextSeq := h.nextSeq.trans h'.nextSeq

lemma Move.continues (h : Move f a b) (ho : Ordered a.1 a.2) : Continues f a b := by
  cases h with
  | advance hm ha hd hn =>
    refine ⟨fun _ hu => hu, fun _ hu => .inl hu, ?_, hn.ge⟩
    have := ho.durable
    simp only at this ⊢
    omega
  | @extend C s t es hm hes hfits ha hd hn =>
    have hunits := hm.log.units s.activeFileId
    refine ⟨fun u hu => (later_extend hunits).2 (.inl hu), fun u hu => ?_, hd.ge, hn⟩
    refine ((later_extend hunits).1 hu).imp_right fun hnew e he => ?_
    exact hes.fresh e (mem_of_mem_unitsOf hes.units hnew.1 he)
  | replace hsub hunits hlater hdest hold hne ha hd hn =>
    exact ⟨fun u hu => (later_replace hdest (hlater u)).2 hu,
      fun u hu => .inl ((later_replace hdest (hlater u)).1 hu), hd.ge, hn.ge⟩

lemma Moves.continues (h : Moves f a b) (ho : Ordered a.1 a.2) : Continues f a b := by
  induction h with
  | refl => exact .refl f a
  | tail hab hbc ih => exact ih.trans (hbc.continues (Moves.ordered hab ho))

end Moves

def VacuumPhase.Within (f : ℕ) : VacuumPhase → Prop
  | .choosing left => left.retainAfter ≤ f
  | .removing _ retainAfter _ => retainAfter ≤ f
  | .staged v _ left => v.retainAfter ≤ f ∧ left.retainAfter ≤ f
  | .placed v _ _ | .reserved v _ _ _ => v.retainAfter ≤ f
  | .idle | .unlinking _ => True

def Process.Action.Within (f : ℕ) : Process.Action → Prop
  | .begin _ retainAfter => retainAfter ≤ f
  | _ => True

namespace Process

variable {p : Process} {f : ℕ}
variable {q : Process}

def held (p : Process) : Contents × EngineState := (p.disk.contents p.state, p.state)

lemma within_next {a : Action} (h : p.vacuum.Within f) (ha : a.Within f) : (p.next a).vacuum.Within f := by
  cases a <;> simp only [next]
  case begin threshold retainAfter =>
    split
    · exact ha
    · exact h
  case choose =>
    split
    · trivial
    · next retainAfter stats id ids hv =>
      rw [hv] at h
      split_ifs
      · exact h
      · split
        · exact ⟨h, h⟩
        · trivial
    · exact h
  case place =>
    split
    · next v scan left hv =>
      rw [hv] at h
      split_ifs
      · exact h.2
      · exact h.1
      · exact h.1
    · exact h
  case reserve =>
    split
    · next v scan path hv =>
      rw [hv] at h
      exact h
    · exact h
  case commit =>
    split
    · trivial
    · trivial
    · exact h
  case unlink =>
    split
    · trivial
    · exact h
  case cancel =>
    split
    all_goals trivial
  all_goals exact h

lemma Sound.moves_of_eq (h : p.Sound) (hc : q.disk.contents q.state = p.disk.contents p.state)
    (ha : q.state.activeFileId = p.state.activeFileId ∨ q.disk.contents q.state q.state.activeFileId = [])
    (hd : q.state.durableSeq = p.state.durableSeq ∨ q.state.durableSeq = p.state.nextSeq - 1)
    (hn : q.state.nextSeq = p.state.nextSeq) : Moves f p.held q.held := by
  rw [hc] at ha
  rw [held, held, hc]
  exact .single (.advance h.stored.mirror ha hd hn)

lemma Sound.moves_settle (h : p.Sound) (ho : Ordered p.held.1 p.held.2) (decidedAt : ℕ) :
    Moves f p.held (p.settle decidedAt).held := by
  rw [Process.settle]
  split_ifs
  · refine h.moves_of_eq (Disk.contents_adjust_entries _ _ _ fun _ => rfl) (.inl rfl) (.inr ?_) rfl
    have : p.state.durableSeq < p.state.nextSeq := ho.durable
    exact max_eq_right (by omega)
  · exact .refl

lemma Sound.move_dropFile (h : p.Sound) {id : FileId} (hs : p.state.Sealed id) (hdisk : q.disk = p.disk)
    (hstate : q.state = p.state.dropFile id) (hle : ∀ e ∈ p.disk.contents p.state id, e.sequence ≤ f) :
    Move f p.held q.held := by
  have hunits := h.stored.mirror.log.units id
  rw [held, held, hdisk, hstate, Disk.contents_dropFile]
  refine .replace (nil_sublist _) (fun u hu => by cases hu) (fun u => ?_) (.inl rfl) hs.2 hs.2 rfl rfl rfl
  refine ⟨fun hu => (not_mem_nil hu.1).elim, fun ⟨hu, hlt⟩ => ?_⟩
  obtain ⟨e, he, hfirst⟩ := firstOf_mem (isUnit_of_mem_unitsOf hunits u hu)
  have := hle e (mem_of_mem_unitsOf hunits hu he)
  omega

lemma Sound.move_applyVacuum (h : p.Sound) {v : VacuumScan} {scan : VacuumScanResult}
    (hs : Scanning p.needed p.disk p.state v scan) {path : Path} (hl : Lone p.disk p.state path scan.copied) {dest : FileId}
    (hnone : p.state.files.get dest = none) (hdisk : q.disk = p.disk)
    (hstate : q.state = p.state.applyVacuum v.source scan path dest) (hret : v.retainAfter ≤ f) : Move f p.held q.held := by
  have hunits := h.stored.mirror.log.units v.source
  have hwritten := h.stored.mirror.log.written v.source
  have hne : dest ≠ v.source := by
    rintro rfl
    have hsome := hs.source.1
    rw [hnone] at hsome
    cases hsome
  have hempty : p.disk.contents p.state dest = [] := by
    rw [Disk.contents, hnone]
    rfl
  have hactive : dest ≠ p.state.activeFileId := by
    rintro rfl
    rw [h.stored.active] at hnone
    cases hnone
  have hcopied := hs.scanned.copied.copied
  have hrest := applyVacuum_rest p.state v.source scan path dest
  rw [held, held, hdisk, hstate, Disk.contents_applyVacuum hl hne]
  refine .replace ?_ ?_ ?_ (.inr hempty) hs.source.2 hactive (by rw [hrest]) (by rw [hrest]) (by rw [hrest])
  · rw [hcopied]
    exact copies_sublist v 0 _
  · intro u hu
    rw [hcopied] at hu
    obtain ⟨w, hw, o, rfl⟩ := exists_unit_of_copies v 0 hunits hu
    exact ⟨w, hw, fun e he => (copies_sublist v o w).subset he⟩
  · intro u
    rw [hcopied]
    exact units_copies_iff hwritten hunits hret

lemma Sound.moves_beside (h : p.Sound) (hb : p.Beside q) : Moves f p.held q.held := by
  cases hb with
  | same | phase => exact .refl
  | place v scan he => exact h.moves_of_eq (Disk.contents_place h.stored _) (.inl rfl) (.inl rfl) rfl
  | remove path he => exact h.moves_of_eq (p.disk.contents_remove (h.extra_unused he)) (.inl rfl) (.inl rfl) rfl

lemma Sound.moves (h : p.Sound) (ho : Ordered p.held.1 p.held.2) (hw : p.vacuum.Within f) (a : Action) (ha : p.Enabled a) :
    Moves f p.held (p.next a).held := by
  cases a with
  | write es =>
    obtain ⟨hes, hfits⟩ := ha
    have hflags := p.state.applyIngest_flags (p.disk.size p.state.activePath) hes
    have hc : (p.next (.write es)).disk.contents (p.next (.write es)).state =
        (p.disk.contents p.state).extend p.state.activeFileId es :=
      (Disk.contents_congr (p.state.applyIngest_files _ hes)).trans (h.stored.contents_append es)
    have hn : p.state.nextSeq ≤ (p.next (.write es)).state.nextSeq :=
      (Grows.counters_le h.stored (.append hes)).1
    rw [held, held, hc]
    exact .single (.extend h.stored.mirror hes hfits hflags.2.2.2.2 hflags.1 hn)
  | rotate =>
    refine h.moves_of_eq h.stored.contents_rotation (.inr ?_) (.inl rfl) rfl
    have hrot : (p.next .rotate).disk.contents (p.next .rotate).state = p.disk.contents p.state := h.stored.contents_rotation
    rw [hrot]
    change p.disk.contents p.state p.state.nextFileId = []
    rw [Disk.contents, h.stored.next_unused]
    rfl
  | sync =>
    refine h.moves_of_eq (Disk.contents_adjust_entries _ _ _ fun _ => rfl) (.inl rfl) (.inr ?_) rfl
    have : p.state.durableSeq < p.state.nextSeq := ho.durable
    exact max_eq_right (by omega)
  | setMode mode => exact h.moves_of_eq rfl (.inl rfl) (.inl rfl) rfl
  | reserve =>
    simp only [Process.next]
    split
    · exact h.moves_of_eq rfl (.inl rfl) (.inl rfl) rfl
    · exact .refl
  | commit =>
    simp only [Process.next]
    split
    · next id retainAfter decidedAt hv =>
      rw [hv] at hw
      have hq := h.settle decidedAt
      have hmoves := @Sound.moves_settle p f h ho decidedAt
      obtain ⟨hvq, -, -⟩ := p.settle_spec _
      generalize p.settle decidedAt = q at hq hvq hmoves
      obtain ⟨hs, -, hle⟩ : VacuumPhase.Sound q.needed q.disk q.state (.removing id retainAfter decidedAt) :=
        hv ▸ hvq ▸ hq.phase
      exact hmoves.tail (hq.move_dropFile hs rfl rfl fun e he => (hle e he).trans hw)
    · next v scan path dest hv =>
      rw [hv] at hw
      have hq := h.settle (v.snap.nextSeq - 1)
      have hmoves := @Sound.moves_settle p f h ho (v.snap.nextSeq - 1)
      obtain ⟨hvq, -, -⟩ := p.settle_spec _
      generalize p.settle (v.snap.nextSeq - 1) = q at hq hvq hmoves
      obtain ⟨hs, hl, -, hnone⟩ : VacuumPhase.Sound q.needed q.disk q.state (.reserved v scan path dest) :=
        hv ▸ hvq ▸ hq.phase
      exact hmoves.tail (hq.move_applyVacuum hs hl hnone rfl rfl hw)
    · exact .refl
  | begin | choose | place | unlink | cancel => exact h.moves_beside (p.next_beside rfl)

end Process

end Bytecask
