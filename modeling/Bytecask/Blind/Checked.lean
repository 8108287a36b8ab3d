import Bytecask.Blind.Transient
import Bytecask.Lib.Except

/-! Puts checked by the descents that apply them end as puts checked first. -/

namespace Bytecask.Blind

open List SortedMap Bool Function

open PatchMap (FileStatsWords FileStatsDeltaWords fileStatsPolicy fileStatsPolicy_lawful)

variable {ε : Type}

section Stats

variable {d : FileStatsDeltaWords}

abbrev Stats := SortedMap FileId FileStatsWords

variable (m : Stats) (a : UInt64) (i : FileId)

def patched (m : Stats) (id : FileId) (d : FileStatsDeltaWords) : Stats := m.adjust id (fun fs => fileStatsPolicy.apply fs d)

def released (m : Stats) (key : Bytes) : Option KeyDirHit → Stats
  | some hit => patched m hit.ref.fileId { liveRemoved := .ofNat (entrySize key.length hit.size) }
  | none => m

lemma max_zero_word : max a 0 = a := by
  have hdef : max a 0 = if a ≤ 0 then 0 else a := rfl
  rw [hdef]
  split_ifs with h
  · exact UInt64.le_antisymm (UInt64.zero_le) h
  · rfl

lemma zero_max_word : max 0 a = a := by
  have hdef : max 0 a = if 0 ≤ a then a else 0 := rfl
  rw [hdef, if_pos UInt64.zero_le]

lemma min_zero_word : (if a = 0 then 0 else a) = a := by
  split_ifs with h
  · exact h.symm
  · rfl

lemma apply_comm (hlo : d.minSequence = 0) (hhi : d.maxSequence = 0) (d' : FileStatsDeltaWords) (fs : FileStatsWords) :
    fileStatsPolicy.apply (fileStatsPolicy.apply fs d) d' = fileStatsPolicy.apply (fileStatsPolicy.apply fs d') d := by
  have hsum : ∀ x y z : UInt64, x + y + z = x + z + y := by grind
  have hlive : ∀ l a r a' r' : UInt64, l + a - r + a' - r' = l + a' - r' + a - r := by grind
  simp only [fileStatsPolicy, hlo, hhi, min_zero_word, max_zero_word, hlive, hsum]

lemma get_patched (k : FileId) (d : FileStatsDeltaWords) :
    (patched m i d).get k = (m.get k).map (fun fs => if k = i then fileStatsPolicy.apply fs d else fs) := by
  rw [patched, get_adjust]
  by_cases h : k = i
  · simp only [h, if_true]
  · simp only [if_neg h, Option.map_id_fun', id]

lemma patched_comm (j : FileId) (hlo : d.minSequence = 0) (hhi : d.maxSequence = 0)
    (d' : FileStatsDeltaWords) : patched (patched m i d) j d' = patched (patched m j d') i d := by
  refine SortedMap.ext fun k => ?_
  simp only [get_patched, Option.map_map]
  congr 1
  funext fs
  rw [Function.comp_apply, Function.comp_apply]
  by_cases hi : k = i
  · by_cases hj : k = j
    · rw [if_pos hi, if_pos hj, if_pos hj, if_pos hi, apply_comm hlo hhi]
    · rw [if_pos hi, if_neg hj, if_neg hj, if_pos hi]
  · rw [if_neg hi, if_neg hi]

lemma patched_patched (d d' : FileStatsDeltaWords) : patched (patched m i d) i d' = patched m i (fileStatsPolicy.combine d d') := by
  refine SortedMap.ext fun k => ?_
  simp only [get_patched, Option.map_map]
  congr 1
  funext fs
  by_cases hi : k = i
  · simp only [Function.comp_apply, hi, if_true, fileStatsPolicy_lawful fs d d']
  · simp only [Function.comp_apply, hi, if_false]

lemma patched_released (key : Bytes) (hit : Option KeyDirHit) (i : FileId) (d : FileStatsDeltaWords) :
    patched (released m key hit) i d = released (patched m i d) key hit := by
  cases hit with
  | none => rfl
  | some hit => exact patched_comm m _ i rfl rfl d

end Stats

/-- Every record the directory names can be read. -/
def KeyDirCtx.Covers (ctx : KeyDirCtx ε) (d : KeyDirTree) : Prop := ∀ key r, d.get key = some r → ∃ record, ctx.keyAt r = .ok record

namespace Transient

section Steps

def withPut (t : Transient ε) (key value : Bytes) (offset : ℕ) : Transient ε :=
  { t.notePending offset key value.length with keyDir := t.keyDir.insert key ⟨t.activeFileId, offset⟩ }

def Descents.put (c : Descents ε) (key value : Bytes) (offset : ℕ) (was : Option KeyDirHit) : Descents ε :=
  { c with
    t := (c.t.withPut key value offset).advance
    undo := ⟨key, c.t.newEntry offset value.length, was⟩ :: c.undo
    done := c.done + 1 }

/-- The puts of a plan as the descents take them: up to the end or to the first that is not where the snapshot has it. -/
inductive Descends (p : WritePlan ε) : List ((WriteOp × ℕ) × ℕ) → Descents ε → Descents ε → Prop
  | done (c : Descents ε) : Descends p [] c c
  | put {i offset key value rest c c'} (hk : c.t.keyDir.get key = (p.resolvedEntry i).map toBlindRef)
    (hrest : Descends p rest (c.put key value offset ((p.resolvedEntry i).map kdHit)) c') :
    Descends p (((.pointPut key value, i), offset) :: rest) c c'
  | moved {i offset key value rest c} : Descends p (((.pointPut key value, i), offset) :: rest) c
      { c with t := c.t.notePending offset key value.length, confirmed := false }
  | appeared {i offset key value rest c} (hit : KeyDirHit) (hk : c.t.keyDir.get key = some hit.ref) :
    Descends p (((.pointPut key value, i), offset) :: rest) c { c with
      t := c.t.withPut key value offset, undo := ⟨key, c.t.newEntry offset value.length, some hit⟩ :: c.undo, confirmed := false }

def Readable (t : Transient ε) : Prop := t.kdCtx.Covers t.keyDir

variable {p : WritePlan ε} {i offset : ℕ} {key value : Bytes} {c c' : Descents ε} {t : Transient ε}

lemma keyAt_notePending (t : Transient ε) (offset : ℕ) (key : Bytes) (n : ℕ) (r : BlindRef) :
    (t.notePending offset key n).kdCtx.keyAt r =
      if r = ⟨t.activeFileId, offset⟩ then .ok ⟨t.nextSeq, n, key⟩ else t.kdCtx.keyAt r := by
  by_cases hr : r = ⟨t.activeFileId, offset⟩
  · rw [if_pos hr, hr]
    simp only [KeyDirCtx.keyAt, kdCtx, notePending, update_self]
  · rw [if_neg hr]
    simp only [KeyDirCtx.keyAt, kdCtx, notePending, update_of_ne hr]

lemma Readable.noted (h : t.Readable) {r : BlindRef} (hr : t.keyDir.get key = some r) (offset n : ℕ) :
    ∃ record, (t.notePending offset key n).kdCtx.keyAt r = .ok record := by
  rw [keyAt_notePending]
  split_ifs
  · exact ⟨_, rfl⟩
  · exact h key r hr

/-- One put of the descents: the rest goes on behind it, it ends them, or its record cannot be read. -/
lemma checkedPuts_cons (p : WritePlan ε) (c : Descents ε) (key value : Bytes) (i offset : ℕ) (rest : List ((WriteOp × ℕ) × ℕ)) :
    (c.t.keyDir.get key = (p.resolvedEntry i).map toBlindRef ∧ checkedPuts p (((.pointPut key value, i), offset) :: rest) c =
      checkedPuts p rest (c.put key value offset ((p.resolvedEntry i).map kdHit))) ∨
    (∃ c', checkedPuts p (((.pointPut key value, i), offset) :: rest) c = .ok c' ∧
      Descends p (((.pointPut key value, i), offset) :: rest) c c') ∨
    ∃ r e, c.t.keyDir.get key = some r ∧ (c.t.notePending offset key value.length).kdCtx.keyAt r = .error e ∧
      checkedPuts p (((.pointPut key value, i), offset) :: rest) c = .error e := by
  cases hat : p.resolvedEntry i with
  | some at' =>
    by_cases hk : c.t.keyDir.get key = some (toBlindRef at')
    · refine .inl ⟨hk, ?_⟩
      simp only [checkedPuts, hat, kdPutAt, replaceAt, notePending, hk, if_true]
      rfl
    · refine .inr (.inl ⟨_, ?_, .moved⟩)
      simp only [checkedPuts, hat, kdPutAt, replaceAt, notePending, hk, if_false]
      rfl
  | none =>
    cases hk : c.t.keyDir.get key with
    | none =>
      refine .inl ⟨rfl, ?_⟩
      simp only [checkedPuts, hat, kdPut, notePending, hk]
      rfl
    | some r =>
      have hkey : (c.t.notePending offset key value.length).keyDir.get key = some r := hk
      cases hr : (c.t.notePending offset key value.length).kdCtx.keyAt r with
      | error e =>
        refine .inr (.inr ⟨r, e, rfl, hr, ?_⟩)
        simp only [checkedPuts, hat, kdPut, hkey, displaced, hr]
        rfl
      | ok record =>
        refine .inr (.inl ⟨_, ?_, .appeared ⟨r, record.valueSize⟩ hk⟩)
        simp only [checkedPuts, hat, kdPut, hkey, displaced, hr]
        rfl

lemma checkedPuts_descends {ops : List ((WriteOp × ℕ) × ℕ)} (hputs : ∀ w ∈ ops, w.1.1.isPointPut = true)
    (hc : checkedPuts p ops c = .ok c') : Descends p ops c c' := by
  induction ops generalizing c with
  | nil =>
    cases hc
    exact .done _
  | cons w ops ih =>
    obtain ⟨⟨op, i⟩, offset⟩ := w
    cases op with
    | pointDel | rangeDel => exact absurd (hputs _ mem_cons_self) false_ne_true
    | pointPut key value =>
      obtain ⟨hk, hnext⟩ | ⟨c'', hend, hd⟩ | ⟨r, e, -, -, hthrown⟩ := checkedPuts_cons p c key value i offset ops
      · exact .put hk (ih (fun w hw => hputs w (mem_cons_of_mem _ hw)) (hnext ▸ hc))
      · cases hend.symm.trans hc
        exact hd
      · cases hthrown.symm.trans hc

lemma Readable.withPut (h : t.Readable) (key value : Bytes) (offset : ℕ) : (t.withPut key value offset).Readable := by
  intro k r hr
  have hread : (t.withPut key value offset).kdCtx.keyAt r = _ := keyAt_notePending t offset key _ r
  rw [hread]
  split_ifs with hnew
  · exact ⟨_, rfl⟩
  · have hget : (t.keyDir.insert key ⟨t.activeFileId, offset⟩).get k = some r := hr
    by_cases hk : k = key
    · rw [hk, get_insert_self] at hget
      cases hget
      exact absurd rfl hnew
    · rw [get_insert_ne _ _ hk] at hget
      exact h k r hget

lemma checkedPuts_returns {ops : List ((WriteOp × ℕ) × ℕ)} (hputs : ∀ w ∈ ops, w.1.1.isPointPut = true) (ht : c.t.Readable) :
    ∃ c', checkedPuts p ops c = .ok c' := by
  induction ops generalizing c with
  | nil => exact ⟨c, rfl⟩
  | cons w ops ih =>
    obtain ⟨⟨op, i⟩, offset⟩ := w
    cases op with
    | pointDel | rangeDel => exact absurd (hputs _ mem_cons_self) false_ne_true
    | pointPut key value =>
      obtain ⟨-, hnext⟩ | ⟨c', hend, -⟩ | ⟨r, e, hr, hread, -⟩ := checkedPuts_cons p c key value i offset ops
      · rw [hnext]
        exact ih (fun w hw => hputs w (mem_cons_of_mem _ hw)) (ht.withPut key value offset)
      · exact ⟨c', hend⟩
      · obtain ⟨record, hok⟩ := ht.noted hr offset _
        cases hread.symm.trans hok

lemma applyPut_of_held (hk : t.keyDir.get key = (p.resolvedEntry i).map toBlindRef) (m : Stats) :
    applyPut p { t with fileStats := m } i key value offset =
      .ok { (t.withPut key value offset).advance with
        fileStats := patched (released m key ((p.resolvedEntry i).map kdHit)) t.activeFileId
          { liveAdded := .ofNat (entrySize key.length value.length)
            totalAdded := .ofNat (entrySize key.length value.length) } } := by
  cases hat : p.resolvedEntry i with
  | some at' =>
    rw [hat] at hk
    simp only [applyPut, hat, Option.bind_some, kdPutAt, replaceAt, notePending, hk, if_true, Option.map_some]
    rfl
  | none =>
    rw [hat] at hk
    simp only [applyPut, hat, Option.bind_none, kdPut, notePending, hk, displaced]
    rfl

lemma takeBack_put {d : KeyDirTree} {e : KeyDirEntry} {was : Option KeyDirHit} (h : d.get key = was.map KeyDirHit.ref) :
    takeBack (d.insert key (toBlindRef e)) ⟨key, e, was⟩ = some d := by
  cases was with
  | some hit =>
    simp only [takeBack, kdRestore, replaceAt, get_insert_self, if_true, insert_insert]
    rw [insert_of_get h]
  | none =>
    simp only [takeBack, kdRemove, eraseAt, get_insert_self, if_true, erase_insert]
    rw [erase_of_get_none h]

end Steps

section Undone

variable {p : WritePlan ε} {ops : List ((WriteOp × ℕ) × ℕ)} {c c' : Descents ε} {d₀ : KeyDirTree}

def Descents.LeadsTo (c : Descents ε) (d₀ : KeyDirTree) : Prop := c.undo.foldlM takeBack c.t.keyDir = some d₀

lemma Descents.LeadsTo.put (h : c.LeadsTo d₀) {key value : Bytes} {offset : ℕ} {was : Option KeyDirHit}
    (hk : c.t.keyDir.get key = was.map KeyDirHit.ref) :
    (⟨key, c.t.newEntry offset value.length, was⟩ :: c.undo).foldlM takeBack (c.t.keyDir.insert key ⟨c.t.activeFileId, offset⟩) =
      some d₀ := by
  have hstep : takeBack (c.t.keyDir.insert key ⟨c.t.activeFileId, offset⟩) ⟨key, c.t.newEntry offset value.length, was⟩ =
      some c.t.keyDir := takeBack_put (e := c.t.newEntry offset _) hk
  rw [foldlM_cons, hstep]
  exact h

lemma Descends.leadsTo (hd : Descends p ops c c') (h : c.LeadsTo d₀) : c'.LeadsTo d₀ := by
  induction hd with
  | done | moved => exact h
  | put hk hrest ih =>
    refine ih (h.put (hk.trans ?_))
    rw [Option.map_map]
    rfl
  | appeared hit hk => exact h.put hk

lemma dropPending_apply (id : FileId) (pending : PendingRecords) (offsets : List ℕ) (r : BlindRef) :
    dropPending id pending offsets r = if r.fileId = id ∧ r.offset ∈ offsets then none else pending r := by
  induction offsets generalizing pending with
  | nil => simp [dropPending]
  | cons o offsets ih =>
    have hfold : dropPending id pending (o :: offsets) = dropPending id (Function.update pending ⟨id, o⟩ none) offsets := rfl
    rw [hfold, ih, update_apply]
    obtain ⟨f, x⟩ := r
    by_cases hf : f = id <;> by_cases hx : x = o <;> by_cases hm : x ∈ offsets <;> simp [hf, hx, hm]

structure Descents.Within (c c' : Descents ε) (offsets : List ℕ) : Prop where
  files : c'.t.files = c.t.files
  fileStats : c'.t.fileStats = c.t.fileStats
  activeFileId : c'.t.activeFileId = c.t.activeFileId
  pending : ∀ r, c'.t.pending r ≠ c.t.pending r → r.fileId = c.t.activeFileId ∧ r.offset ∈ offsets.take (c'.done + 1 - c.done)
  advanced : c.done ≤ c'.done

lemma noted_within {key : Bytes} {offset n : ℕ} {offsets : List ℕ} {t : Transient ε} {r : BlindRef}
    (hr : (t.notePending offset key n).pending r ≠ t.pending r) {m : ℕ} (hm : 0 < m) :
    r.fileId = t.activeFileId ∧ r.offset ∈ (offset :: offsets).take m := by
  have heq : r = ⟨t.activeFileId, offset⟩ := by
    by_contra hne
    exact hr (update_of_ne hne _ _)
  obtain ⟨m, rfl⟩ := Nat.exists_eq_succ_of_ne_zero hm.ne'
  rw [heq]
  exact ⟨rfl, mem_cons_self⟩

lemma Descends.within (hd : Descends p ops c c') : c.Within c' (ops.map Prod.snd) := by
  induction hd with
  | done c => exact ⟨rfl, rfl, rfl, fun r hr => absurd rfl hr, le_rfl⟩
  | @put i offset key value rest c c' hk hrest hw =>
    have hadv : c.done + 1 ≤ c'.done := hw.advanced
    refine ⟨hw.files, hw.fileStats, hw.activeFileId, fun r hr => ?_, (Nat.le_succ _).trans hadv⟩
    by_cases hr' : c'.t.pending r = (c.t.notePending offset key value.length).pending r
    · exact noted_within (hr' ▸ hr) (by omega)
    · obtain ⟨hf, ho⟩ := hw.pending r hr'
      have hn : c'.done + 1 - c.done = c'.done + 1 - (c.done + 1) + 1 := by omega
      rw [hn]
      exact ⟨hf, mem_cons_of_mem _ ho⟩
  | moved | appeared =>
    exact ⟨rfl, rfl, rfl, fun r hr => noted_within hr (Nat.sub_pos_of_lt (Nat.lt_succ_self _)), le_rfl⟩

lemma abandon_eq {t : Transient ε} {puts : List ℕ} (hputs : ∀ w ∈ ops, w.1.1.isPointPut = true)
    (hat : ops.map Prod.snd <+: puts) (hfree : ∀ o ∈ puts, t.pending ⟨t.activeFileId, o⟩ = none) {first : ℕ}
    (hc : checkedPuts p ops { t := { t with nextSeq := first } } = .ok c') : abandon t.nextSeq puts c' = .abandoned t := by
  have hback : c'.LeadsTo t.keyDir := by
    refine (checkedPuts_descends hputs hc).leadsTo ?_
    rfl
  have hw := (checkedPuts_descends hputs hc).within
  have hpending : dropPending c'.t.activeFileId c'.t.pending (puts.take (c'.done + 1)) = t.pending := by
    funext r
    rw [dropPending_apply]
    have hact : c'.t.activeFileId = t.activeFileId := hw.activeFileId
    rw [hact]
    split_ifs with hr
    · obtain ⟨f, o⟩ := r
      have hf : f = t.activeFileId := hr.1
      rw [hf]
      exact (hfree o (mem_of_mem_take hr.2)).symm
    · by_contra hne
      obtain ⟨hf, ho⟩ := hw.pending r hne
      refine hr ⟨hf, ?_⟩
      obtain ⟨more, rfl⟩ := hat
      have hsub : (ops.map Prod.snd).take (c'.done + 1) <+: (ops.map Prod.snd ++ more).take (c'.done + 1) := by
        rw [take_append]
        exact prefix_append _ _
      exact hsub.subset ho
  rw [abandon, hback]
  simp only [hpending]
  have hfiles : c'.t.files = t.files := hw.files
  have hstats : c'.t.fileStats = t.fileStats := hw.fileStats
  have hact : c'.t.activeFileId = t.activeFileId := hw.activeFileId
  obtain ⟨⟨_, _, _, _, _, _⟩, _, _, _⟩ := c'
  cases hfiles
  cases hstats
  cases hact
  rfl

end Undone

section Confirmed

variable {p : WritePlan ε} {ops : List ((WriteOp × ℕ) × ℕ)} {c c' : Descents ε} {t₀ t : Transient ε} {σ : Bytes → Option KeyDirEntry}
variable {key value : Bytes} {offset : ℕ}

/-- A head some puts later. A key is as it was, or it was where the snapshot has it. -/
def Following (σ : Bytes → Option KeyDirEntry) (t₀ t : Transient ε) : Prop :=
  ∀ key, t.keyDir.get key = t₀.keyDir.get key ∨ t₀.keyDir.get key = (σ key).map toBlindRef

lemma Following.held (h : Following σ t₀ t) (hk : t.keyDir.get key = (σ key).map toBlindRef) :
    t₀.keyDir.get key = (σ key).map toBlindRef := by
  rcases h key with hsame | hheld
  · exact hsame ▸ hk
  · exact hheld

lemma Following.put (h : Following σ t₀ t) (hk : t.keyDir.get key = (σ key).map toBlindRef) :
    Following σ t₀ (t.withPut key value offset).advance := by
  intro k
  by_cases hkk : k = key
  · subst hkk
    exact .inr (h.held hk)
  · have hget : (t.withPut key value offset).advance.keyDir.get k = t.keyDir.get k := get_insert_ne _ _ hkk
    rw [hget]
    exact h k

def Held (σ : Bytes → Option KeyDirEntry) (t₀ : Transient ε) (w : (WriteOp × ℕ) × ℕ) : Prop :=
  ∀ key value, w.1.1 = .pointPut key value → t₀.keyDir.get key = (σ key).map toBlindRef

def Looked (p : WritePlan ε) (σ : Bytes → Option KeyDirEntry) (ops : List ((WriteOp × ℕ) × ℕ)) : Prop :=
  ∀ w ∈ ops, ∃ key value, w.1.1 = .pointPut key value ∧ p.resolvedEntry w.1.2 = σ key

def releasedAll (m : Stats) (undo : List Undo) : Stats := undo.foldl (fun m u => released m u.key u.was) m

lemma patched_releasedAll (m : Stats) (undo : List Undo) (i : FileId) (d : FileStatsDeltaWords) :
    patched (releasedAll m undo) i d = releasedAll (patched m i d) undo := by
  induction undo generalizing m with
  | nil => rfl
  | cons u undo ih =>
    have hcons : ∀ m, releasedAll m (u :: undo) = releasedAll (released m u.key u.was) undo := fun _ => rfl
    rw [hcons, hcons, ih, patched_released]

lemma release_eq (t : Transient ε) (key : Bytes) (hit : Option KeyDirHit) :
    t.release key hit = { t with fileStats := released t.fileStats key hit } := by
  cases hit <;> rfl

lemma foldl_release (t : Transient ε) (undo : List Undo) :
    undo.foldl (fun t u => t.release u.key u.was) t = { t with fileStats := releasedAll t.fileStats undo } := by
  induction undo generalizing t with
  | nil => rfl
  | cons u undo ih =>
    rw [foldl_cons, release_eq, ih]
    rfl

def liveDelta (n : ℕ) : FileStatsDeltaWords := { liveAdded := .ofNat n, totalAdded := .ofNat n }

lemma combine_liveDelta (a b : ℕ) : fileStatsPolicy.combine (liveDelta a) (liveDelta b) = liveDelta (a + b) := by
  have hmax : max (0 : UInt64) 0 = 0 := rfl
  simp only [fileStatsPolicy, liveDelta, UInt64.ofNat_add, UInt64.zero_add, hmax, if_true]

lemma patched_zero (m : Stats) (i : FileId) : patched m i (liveDelta 0) = m := by
  refine SortedMap.ext fun k => ?_
  have hzero : UInt64.ofNat 0 = 0 := rfl
  have hsame : ∀ fs, fileStatsPolicy.apply fs (liveDelta 0) = fs := by
    intro fs
    simp only [fileStatsPolicy, liveDelta, hzero, UInt64.add_zero, UInt64.sub_zero, min_zero_word, max_zero_word]
  rw [get_patched]
  simp only [hsame, ite_self, Option.map_id_fun', id]

def opBytes (ops : List ((WriteOp × ℕ) × ℕ)) : ℕ := (ops.map (fun w => w.1.1.bytes)).sum

lemma Looked.isPointPut (hlook : Looked p σ ops) : ∀ w ∈ ops, w.1.1.isPointPut = true := by
  intro w hw
  obtain ⟨key, value, hop, -⟩ := hlook w hw
  rw [hop]
  rfl

lemma Looked.head {i : ℕ} (hlook : Looked p σ (((.pointPut key value, i), offset) :: ops)) : p.resolvedEntry i = σ key := by
  obtain ⟨key, value, hop, hat⟩ := hlook _ mem_cons_self
  cases hop
  exact hat

lemma held_cons {i : ℕ} (h : t₀.keyDir.get key = (σ key).map toBlindRef) (hops : ∀ w ∈ ops, Held σ t₀ w) :
    ∀ w ∈ ((.pointPut key value, i), offset) :: ops, Held σ t₀ w := by
  intro w hw key' value' hw'
  rcases mem_cons.1 hw with rfl | hw
  · cases hw'
    exact h
  · exact hops w hw key' value' hw'

lemma Descends.applied (hd : Descends p ops c c') (hlook : Looked p σ ops) (hf : Following σ t₀ c.t)
    (hok : c'.confirmed = true) : (∀ w ∈ ops, Held σ t₀ w) ∧ ∃ new, c'.undo = new ++ c.undo ∧
      ∀ m, ops.foldlM (applyWrite p) { c.t with fileStats := m } =
        .ok { c'.t with fileStats := releasedAll (patched m c.t.activeFileId (liveDelta (opBytes ops))) new.reverse } := by
  induction hd with
  | done c =>
    refine ⟨nofun, [], rfl, fun m => ?_⟩
    rw [opBytes, map_nil, sum_nil, patched_zero]
    rfl
  | @put i offset key value rest c c' hk hrest ih =>
    have hk' : c.t.keyDir.get key = (σ key).map toBlindRef := hlook.head ▸ hk
    obtain ⟨hheld, new, hundo, hwrites⟩ := ih (fun w hw => hlook w (mem_cons_of_mem _ hw)) (hf.put hk') hok
    refine ⟨held_cons (hf.held hk') hheld, new ++ [⟨key, c.t.newEntry offset value.length, (p.resolvedEntry i).map kdHit⟩], ?_,
      fun m => ?_⟩
    · rw [hundo, append_assoc]
      rfl
    · have hfirst : applyWrite p { c.t with fileStats := m } ((.pointPut key value, i), offset) = _ := applyPut_of_held hk m
      rw [foldlM_cons, hfirst]
      refine (hwrites _).trans ?_
      have hbytes : opBytes (((.pointPut key value, i), offset) :: rest) = entrySize _ _ + opBytes rest := rfl
      have hact : (c.put key value offset ((p.resolvedEntry i).map kdHit)).t.activeFileId = c.t.activeFileId := rfl
      rw [hact, hbytes, ← combine_liveDelta, ← patched_patched, reverse_append]
      have hcons : ∀ m u (undo : List Undo), releasedAll m ([u].reverse ++ undo) = releasedAll (released m u.key u.was) undo :=
        fun _ _ _ => rfl
      rw [hcons, ← patched_released, ← patched_released]
      rfl
  | moved | appeared => cases hok

end Confirmed

section Validation

variable {p : WritePlan ε} {s : Snapshot ε} {t : Transient ε}
variable {i : ℕ} {key : Bytes}

lemma validatePreconditions_false (hs : p.snap = some s) : t.validatePreconditions p false =
    (t.validatePreconditions p true >>= fun r => (p.writes.zipIdx.forM (t.writeConflict p s)).map (fun _ => r)) := by
  simp only [validatePreconditions, hs, bind, Except.bind]
  cases p.guards.entries.foldlM (fun r g => (t.checkGuard p g.1 g.2).map (max r)) 0 with
  | error e => rfl
  | ok r =>
    dsimp only
    cases p.rangeGuards.foldlM (fun _ g => t.checkRangeGuard s g) r with
    | error e => rfl
    | ok r =>
      cases p.writes.zipIdx.forM (t.writeConflict p s) <;> rfl

lemma pointConflict_of_held {e : Option KeyDirEntry} (he : p.snapEntries[i]? = some e)
    (hk : t.keyDir.get key = e.map toBlindRef) : t.pointConflict p s i key = .ok () := by
  cases e with
  | some at' =>
    have hholds : kdHolds t.keyDir key at' = true := decide_eq_true hk
    simp only [pointConflict, WritePlan.snapshotEntry, he, reading, Except.mapError, bind, Except.bind, Option.any_some, hholds]
    rfl
  | none =>
    simp only [pointConflict, WritePlan.snapshotEntry, he, reading, Except.mapError, bind, Except.bind, Option.any_none, kdGet, hk]
    rfl

end Validation

section Plans

variable {p : WritePlan ε} {t : Transient ε} {offsets : List ℕ}

def Snapshot.entryOf (s : Snapshot ε) (key : Bytes) : Option KeyDirEntry := (kdGet s.keyDir key s.kdCtx).toOption.join

def LookedUp (p : WritePlan ε) (s : Snapshot ε) : Prop :=
  ∀ w ∈ p.writes.zipIdx, ∃ key value, w.1 = .pointPut key value ∧ p.snapEntries[w.2]? = some (Snapshot.entryOf s key)

lemma canApplyPutsChecked_spec (h : canApplyPutsChecked p = true) : ∃ s, p.snap = some s ∧ LookedUp p s := by
  simp only [canApplyPutsChecked, and_eq_true, not_eq_true', decide_eq_true_eq] at h
  obtain ⟨⟨⟨-, hne⟩, hlen⟩, hputs⟩ := h
  have hsnap : p.snapEntries ≠ [] := by
    intro hnil
    rw [hnil] at hlen
    rw [eq_nil_of_length_eq_zero hlen.symm] at hne
    cases hne
  obtain ⟨s, hs, hres⟩ := p.resolved.resolve_left hsnap
  refine ⟨s, hs, ?_⟩
  rintro ⟨op, i⟩ hw
  have hop : p.writes[i]? = some op := List.mk_mem_zipIdx_iff_getElem?.1 hw
  cases op with
  | pointDel | rangeDel => exact absurd (all_eq_true.1 hputs _ (mem_of_getElem? hop)) false_ne_true
  | pointPut key value =>
    obtain ⟨e, he, hread⟩ := List.getElem?_of_mapM_ok hres hop
    refine ⟨key, value, rfl, he.trans ?_⟩
    have hread : kdGet s.keyDir key s.kdCtx = .ok e := hread
    rw [Snapshot.entryOf, hread]
    rfl

lemma placed_fst (hlen : (t.prepareWrite p).length ≤ offsets.length) : (p.placed offsets).map Prod.fst = p.writes.zipIdx := by
  apply map_fst_zip
  rw [length_zipIdx]
  by_cases hm : p.multi = true
  · simp only [prepareWrite, hm, if_true, cons_append, length_cons, length_append, EngineState.opEntries_length,
      length_nil] at hlen
    rw [if_pos hm, length_tail]
    omega
  · rw [prepareWrite, if_neg hm, EngineState.opEntries_length] at hlen
    rw [if_neg hm]
    exact hlen

lemma map_snd_zip_front {α β : Type} (l : List α) (l' : List β) : (l.zip l').map Prod.snd <+: l' := by
  induction l generalizing l' with
  | nil => exact nil_prefix
  | cons a l ih =>
    cases l' with
    | nil => exact nil_prefix
    | cons b l' => exact (prefix_cons_inj b).2 (ih l')

end Plans

/-- A group as far as it is staged: the records not yet written lie in the active file, below the next offset. -/
structure Building (t : Transient ε) (runningOffset : ℕ) : Prop where
  pending : ∀ r, (t.pending r).isSome → r.fileId = t.activeFileId ∧ r.offset < runningOffset

section Checked

variable {p : WritePlan ε} {t u : Transient ε} {runningOffset : ℕ} {r : CheckedResult ε}
variable {s : Snapshot ε} {c : Descents ε} {new : List Undo} {offsets : List ℕ}

def firstSeq (t : Transient ε) (p : WritePlan ε) : ℕ := if p.multi then t.nextSeq + 1 else t.nextSeq

lemma start_eq (t : Transient ε) (p : WritePlan ε) : (if p.multi then t.advance else t) = { t with nextSeq := t.firstSeq p } := by
  by_cases hm : p.multi = true
  · rw [if_pos hm, firstSeq, if_pos hm]
    rfl
  · rw [if_neg hm, firstSeq, if_neg hm]

lemma Building.free (h : Building t runningOffset) (es : List DataEntry) {o : ℕ}
    (ho : o ∈ if p.multi then (offsetsFrom runningOffset es).tail else offsetsFrom runningOffset es) :
    t.pending ⟨t.activeFileId, o⟩ = none := by
  have hmem : o ∈ offsetsFrom runningOffset es := by
    split_ifs at ho
    · exact mem_of_mem_tail ho
    · exact ho
  obtain ⟨x, hx, rfl⟩ := mem_map.1 hmem
  have hle : runningOffset ≤ x.2 := located_start_le hx
  by_contra hne
  exact absurd (h.pending _ (Option.isSome_iff_ne_none.2 hne)).2 (not_lt.2 hle)

lemma offsetsFrom_length (start : ℕ) (es : List DataEntry) : (offsetsFrom start es).length = es.length := by
  rw [offsetsFrom, length_map, located_length]

lemma following_start (σ : Bytes → Option KeyDirEntry) (t : Transient ε) (n : ℕ) : Following σ t { t with nextSeq := n } :=
  fun _ => .inl rfl

lemma placed_looked (hspec : LookedUp p s) (offsets : List ℕ) : Looked p (Snapshot.entryOf s) (p.placed offsets) := by
  intro w hw
  obtain ⟨key, value, hop, he⟩ := hspec w.1 (of_mem_zip hw).1
  refine ⟨key, value, hop, ?_⟩
  rw [WritePlan.resolvedEntry, he]
  rfl

lemma applyPutsChecked_returns (hp : canApplyPutsChecked p = true) (ht : t.Readable) (offsets : List ℕ) :
    ∃ r, t.applyPutsChecked p offsets = .ok r := by
  obtain ⟨s, -, hspec⟩ := canApplyPutsChecked_spec hp
  obtain ⟨c, hc⟩ := checkedPuts_returns (c := { t := { t with nextSeq := t.firstSeq p } }) (placed_looked hspec _).isPointPut ht
  rw [applyPutsChecked, start_eq, hc]
  exact ⟨_, rfl⟩

lemma applyPutsChecked_undo (hp : canApplyPutsChecked p = true) (h : Building t runningOffset)
    (hr : t.applyPutsChecked p (offsetsFrom runningOffset (t.prepareWrite p)) = .ok r) :
    r ≠ .undoFault ∧ ∀ u, r = .abandoned u → u = t := by
  rw [applyPutsChecked, start_eq] at hr
  obtain ⟨c, hc, rfl⟩ := Except.of_map_ok hr
  obtain ⟨s, -, hspec⟩ := canApplyPutsChecked_spec hp
  rw [abandon_eq (placed_looked hspec _).isPointPut (map_snd_zip_front _ _) (fun o ho => h.free _ ho) hc]
  split_ifs
  · exact ⟨nofun, nofun⟩
  · refine ⟨nofun, fun u hu => ?_⟩
    cases hu
    rfl

def planDelta (p : WritePlan ε) (first last : ℕ) : FileStatsDeltaWords :=
  let putBytes := UInt64.ofNat (p.writes.map WriteOp.bytes).sum
  let markers := UInt64.ofNat (if p.multi then 2 * markerSize .bulkBegin else 0)
  { liveAdded := putBytes, totalAdded := putBytes + markers, markerAdded := markers,
    minSequence := .ofNat first, maxSequence := .ofNat last }

lemma settle_eq (hstats : c.t.fileStats = t.fileStats) (hundo : c.undo = new ++ []) : settle t p c = { c.t with
      nextSeq := if p.multi then c.t.nextSeq + 1 else c.t.nextSeq
      fileStats := releasedAll (patched t.fileStats t.activeFileId
        (planDelta p t.nextSeq ((if p.multi then c.t.nextSeq + 1 else c.t.nextSeq) - 1))) new.reverse } := by
  rw [settle, start_eq, foldl_release, hundo, append_nil, ← hstats]
  rfl

lemma applyWrites_eq (hact : c.t.activeFileId = t.activeFileId)
    (hbytes : opBytes (p.placed offsets) = (p.writes.map WriteOp.bytes).sum)
    (hwrites : ∀ m, (p.placed offsets).foldlM (applyWrite p) { t with nextSeq := t.firstSeq p, fileStats := m } =
      .ok { c.t with fileStats := releasedAll (patched m t.activeFileId (liveDelta (opBytes (p.placed offsets)))) new.reverse }) :
    t.applyWrites p offsets = .ok { c.t with
      nextSeq := if p.multi then c.t.nextSeq + 1 else c.t.nextSeq
      fileStats := releasedAll (patched t.fileStats t.activeFileId
        (planDelta p t.nextSeq ((if p.multi then c.t.nextSeq + 1 else c.t.nextSeq) - 1))) new.reverse } := by
  rw [hbytes] at hwrites
  by_cases hm : p.multi = true
  · let marker : FileStatsDeltaWords :=
      { totalAdded := .ofNat (markerSize .bulkBegin), markerAdded := .ofNat (markerSize .bulkBegin) }
    have hbegan : t.applyMarker = { t with
        nextSeq := t.firstSeq p, fileStats := patched t.fileStats t.activeFileId marker } := by
      rw [firstSeq, if_pos hm]
      rfl
    have hsum : ∀ x : UInt64, UInt64.ofNat (markerSize .bulkBegin) + (x + UInt64.ofNat (markerSize .bulkBegin)) =
        x + UInt64.ofNat (2 * markerSize .bulkBegin) := by
      rw [Nat.two_mul, UInt64.ofNat_add]
      grind
    have htwice : UInt64.ofNat (markerSize .bulkBegin) + UInt64.ofNat (markerSize .bulkBegin) =
        UInt64.ofNat (2 * markerSize .bulkBegin) := by
      rw [Nat.two_mul, UInt64.ofNat_add]
    have hfinal : patched (patched (releasedAll (patched (patched t.fileStats t.activeFileId marker) t.activeFileId
        (liveDelta (p.writes.map WriteOp.bytes).sum)) new.reverse) c.t.activeFileId marker) t.activeFileId
          { minSequence := .ofNat t.nextSeq, maxSequence := .ofNat (c.t.nextSeq + 1 - 1) } =
        releasedAll (patched t.fileStats t.activeFileId (planDelta p t.nextSeq (c.t.nextSeq + 1 - 1))) new.reverse := by
      rw [hact, patched_releasedAll, patched_releasedAll, patched_patched, patched_patched, patched_patched]
      simp only [fileStatsPolicy, marker, liveDelta, planDelta, if_pos hm, UInt64.add_zero, UInt64.zero_add, zero_max_word, if_true,
        hsum, htwice]
    simp only [applyWrites, if_pos hm, hbegan, hwrites, bind, Except.bind]
    exact congrArg (fun m => Except.ok { c.t with nextSeq := c.t.nextSeq + 1, fileStats := m }) hfinal
  · have hbegan : t = { t with nextSeq := t.firstSeq p, fileStats := t.fileStats } := by
      rw [firstSeq, if_neg hm]
    have hw := hwrites t.fileStats
    rw [← hbegan] at hw
    have hfinal : patched (releasedAll (patched t.fileStats t.activeFileId (liveDelta (p.writes.map WriteOp.bytes).sum)) new.reverse)
        t.activeFileId { minSequence := .ofNat t.nextSeq, maxSequence := .ofNat (c.t.nextSeq - 1) } =
        releasedAll (patched t.fileStats t.activeFileId (planDelta p t.nextSeq (c.t.nextSeq - 1))) new.reverse := by
      have hzero : UInt64.ofNat 0 = 0 := rfl
      rw [patched_releasedAll, patched_patched]
      simp only [fileStatsPolicy, liveDelta, planDelta, if_neg hm, hzero, UInt64.add_zero, zero_max_word, if_true]
    simp only [applyWrites, if_neg hm, hw, bind, Except.bind]
    exact congrArg (fun m => Except.ok { c.t with fileStats := m }) hfinal

lemma applyPutsChecked_applied (hspec : LookedUp p s)
    (hlen : (t.prepareWrite p).length ≤ offsets.length) (hr : t.applyPutsChecked p offsets = .ok (.applied u)) :
    p.writes.zipIdx.forM (t.writeConflict p s) = .ok () ∧ t.applyWrites p offsets = .ok u := by
  rw [applyPutsChecked, start_eq] at hr
  obtain ⟨c, hc, hr⟩ := Except.of_map_ok hr
  have hok : c.confirmed = true := by
    by_contra hno
    rw [if_neg hno, abandon] at hr
    cases hu : c.undo.foldlM takeBack c.t.keyDir <;> simp only [hu] at hr <;> cases hr
  rw [if_pos hok, CheckedResult.applied.injEq] at hr
  have hlook := placed_looked hspec offsets
  have hd := checkedPuts_descends hlook.isPointPut hc
  obtain ⟨hheld, new, hundo, hwrites⟩ := hd.applied hlook (following_start _ t _) hok
  have hfst := placed_fst (p := p) hlen
  refine ⟨forM_eq_ok_iff.2 fun w hw => ?_, ?_⟩
  · obtain ⟨key, value, hop, he⟩ := hspec w hw
    rw [← hfst] at hw
    obtain ⟨x, hx, rfl⟩ := mem_map.1 hw
    have hconf : t.pointConflict p s x.1.2 key = .ok () := pointConflict_of_held he (hheld x hx key value hop)
    rw [writeConflict, hop]
    exact hconf
  · have hact : c.t.activeFileId = t.activeFileId := hd.within.activeFileId
    have hstats : c.t.fileStats = t.fileStats := hd.within.fileStats
    have hbytes : opBytes (p.placed offsets) = (p.writes.map WriteOp.bytes).sum := by
      have hmap : (p.placed offsets).map (fun w => w.1.1.bytes) = ((p.placed offsets).map Prod.fst).map (fun w => w.1.bytes) := by
        rw [map_map]
        rfl
      rw [opBytes, hmap, hfst]
      have hops : p.writes.zipIdx.map (fun w => w.1.bytes) = (p.writes.zipIdx.map Prod.fst).map WriteOp.bytes := by
        rw [map_map]
        rfl
      rw [hops, zipIdx_map_fst]
    rw [← hr, settle_eq hstats hundo]
    exact applyWrites_eq hact hbytes hwrites

end Checked

end Transient

def checkedPass (t : Transient ε) (p : WritePlan ε) (offsets : List ℕ) : Except ε (Verdict ε) :=
  match t.validatePreconditions p true with
  | .error (.thrown e) => .error e
  | .error (.lost restsOn) => .ok (.lost restsOn)
  | .ok restsOn => applyChecked t p offsets restsOn

section Pass

variable {t : Transient ε} {p : WritePlan ε} {runningOffset : ℕ}

open Transient

lemma checkedPass_eq (h : Building t runningOffset) (hp : canApplyPutsChecked p = true)
    (hret : ∃ r, t.applyPutsChecked p (offsetsFrom runningOffset (t.prepareWrite p)) = .ok r) :
    checkedPass t p (offsetsFrom runningOffset (t.prepareWrite p)) = twoPasses t p (offsetsFrom runningOffset (t.prepareWrite p)) := by
  obtain ⟨s, hs, hspec⟩ := canApplyPutsChecked_spec hp
  have hlen : (t.prepareWrite p).length ≤ (offsetsFrom runningOffset (t.prepareWrite p)).length := (offsetsFrom_length _ _).ge
  have hfull := validatePreconditions_false (t := t) hs
  cases hv : t.validatePreconditions p true with
  | error e =>
    rw [hv] at hfull
    rw [checkedPass, twoPasses, hv, hfull]
    cases e <;> rfl
  | ok restsOn =>
    rw [hv] at hfull
    have hpass : checkedPass t p (offsetsFrom runningOffset (t.prepareWrite p)) =
        applyChecked t p (offsetsFrom runningOffset (t.prepareWrite p)) restsOn := by
      rw [checkedPass, hv]
    rw [hpass, applyChecked]
    obtain ⟨r, hr⟩ := hret
    obtain ⟨hfault, hback⟩ := applyPutsChecked_undo hp h hr
    rw [hr]
    cases r with
    | applied u =>
      obtain ⟨hforM, hwrites⟩ := applyPutsChecked_applied hspec hlen hr
      rw [hforM] at hfull
      rw [twoPasses, hfull, hwrites]
      rfl
    | abandoned u =>
      cases hback u rfl
      rfl
    | undoFault => exact absurd rfl hfault

lemma canApplyPutsChecked_last (hp : canApplyPutsChecked p = true) (t : Transient ε) : ∃ last, (t.prepareWrite p).getLast? = some last := by
  have hne : p.writes ≠ [] := by
    intro hnil
    simp [canApplyPutsChecked, hnil] at hp
  refine ⟨_, List.getLast?_eq_some_getLast (ne_nil_of_length_pos ?_)⟩
  rw [prepareWrite]
  split_ifs
  · exact Nat.succ_pos _
  · rw [EngineState.opEntries_length]
    exact length_pos_iff.2 hne

lemma writes_eq (twoPass : Bool) {restsOn : ℕ} (h : Building t runningOffset)
    (hv : t.validatePreconditions p (canApplyPutsChecked p && !twoPass) = .ok restsOn)
    (hret : canApplyPutsChecked p = true → ∃ r, t.applyPutsChecked p (offsetsFrom runningOffset (t.prepareWrite p)) = .ok r)
    (entries : List DataEntry) : (if canApplyPutsChecked p && !twoPass then
      (applyChecked t p (offsetsFrom runningOffset (t.prepareWrite p)) restsOn).map (Verdict.outcome entries)
    else (t.applyWrites p (offsetsFrom runningOffset (t.prepareWrite p))).map (.applied · entries)) =
      (twoPasses t p (offsetsFrom runningOffset (t.prepareWrite p))).map (Verdict.outcome entries) := by
  cases hc : canApplyPutsChecked p && !twoPass with
  | true =>
    rw [hc] at hv
    have hp := (Bool.and_eq_true_iff.1 hc).1
    rw [if_pos rfl, ← checkedPass_eq h hp (hret hp), checkedPass, hv]
  | false =>
    rw [hc] at hv
    rw [if_neg Bool.false_ne_true, twoPasses, hv]
    cases t.applyWrites p (offsetsFrom runningOffset (t.prepareWrite p)) <;> rfl

end Pass

end Bytecask.Blind
