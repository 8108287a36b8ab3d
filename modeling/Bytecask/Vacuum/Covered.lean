import Bytecask.Vacuum.Copy

/-! What a vacuum may leave out. Every dead Put has something newer over it that a vacuum does not drop while
the Put is there, so that no vacuum brings a Put back. -/

namespace Bytecask

open Contents

namespace Contents

variable {C : Contents} {old dest j : FileId} {es : List DataEntry} {e : DataEntry}

def replace (C : Contents) (old dest : FileId) (es : List DataEntry) : Contents :=
  Function.update (Function.update C old []) dest es

lemma mem_replace : e ∈ C.replace old dest es j ↔ (j = dest ∧ e ∈ es) ∨ (j ≠ dest ∧ j ≠ old ∧ e ∈ C j) := by
  by_cases hd : j = dest
  · subst hd
    simp [replace]
  · by_cases ho : j = old
    · subst ho
      simp [replace, hd]
    · simp [replace, hd, ho]

lemma replace_dest (C : Contents) (old dest : FileId) (es : List DataEntry) : C.replace old dest es dest = es :=
  Function.update_self _ _ _

lemma replace_of_ne (C : Contents) (es : List DataEntry) (hd : j ≠ dest) (ho : j ≠ old) : C.replace old dest es j = C j := by
  rw [replace, Function.update_of_ne hd, Function.update_of_ne ho]

lemma replace_all {P : List DataEntry → Prop} (hes : P es)
    (hnil : P []) (hC : ∀ j, P (C j)) (j : FileId) : P (C.replace old dest es j) := by
  by_cases hd : j = dest
  · rw [hd, replace_dest]
    exact hes
  · by_cases ho : j = old
    · rw [replace, Function.update_of_ne hd, ho, Function.update_self]
      exact hnil
    · rw [replace_of_ne C es hd ho]
      exact hC j

lemma exists_newest {n : ℕ} (hb : ∀ id, ∀ e ∈ C id, e.sequence < n) {k : Bytes} {id : FileId} (he : e ∈ C id) (ht : e.Touches k) :
    ∃ id' e', e' ∈ C id' ∧ e'.Touches k ∧ e.sequence ≤ e'.sequence ∧ C.Newest k e'.sequence := by
  induction hm : n - e.sequence using Nat.strongRecOn generalizing id e with
  | _ m ih =>
    by_cases hn : C.Newest k e.sequence
    · exact ⟨id, e, he, ht, le_rfl, hn⟩
    · simp only [Newest, not_forall, not_le] at hn
      obtain ⟨id', e', he', ht', hlt⟩ := hn
      have hbound := hb id' e' he'
      obtain ⟨j, x, hx, htx, hle, hnew⟩ := ih _ (by omega) he' ht' rfl
      exact ⟨j, x, hx, htx, hlt.le.trans hle, hnew⟩

end Contents

namespace Recovery.NeededTombstones

lemma droppable_eq_false {needed : NeededTombstones} {seq : ℕ} (h : needed.horizon < seq) : needed.droppable seq = false := by
  simp [droppable, not_le.2 h]

end Recovery.NeededTombstones

open Recovery (NeededTombstones)

/-- An entry over the Puts of `k` in the file `id` that stays as long as they do: the Put that `k` maps to, a
tombstone that may not be dropped, or an entry of their own file. -/
def Fixed (needed : NeededTombstones) (C : Contents) (id : FileId) (k : Bytes) (id' : FileId) (e : DataEntry) : Prop :=
  (e.entryType = .put ∧ C.Newest k e.sequence) ∨ (e.entryType ≠ .put ∧ needed.droppable e.sequence = false) ∨ id' = id

def Covered (needed : NeededTombstones) (C : Contents) : Prop :=
  ∀ id, ∀ p ∈ C id, p.entryType = .put → ¬ C.Newest p.key p.sequence →
    ∃ id' e, e ∈ C id' ∧ e.Touches p.key ∧ p.sequence < e.sequence ∧ Fixed needed C id p.key id' e

def Late (needed : NeededTombstones) (C : Contents) (k : Bytes) (seq : ℕ) : Prop :=
  ∃ id e, e ∈ C id ∧ e.Touches k ∧ seq < e.sequence ∧ needed.horizon < e.sequence

structure Keeps (needed : NeededTombstones) (C : Contents) (old : FileId) (kept : List DataEntry) : Prop where
  sublist : kept.Sublist (C old)
  units : Units kept
  live : ∀ p ∈ C old, p.entryType = .put → C.Newest p.key p.sequence → p ∈ kept
  tombstones : ∀ t ∈ C old, t.entryType ≠ .put → ∀ k, t.Touches k → needed.droppable t.sequence = false → t ∈ kept
  above : ∀ p ∈ kept, p.entryType = .put → ¬ C.Newest p.key p.sequence →
    (∀ e ∈ C old, p.sequence < e.sequence → e.Touches p.key → e ∈ kept) ∨ Late needed C p.key p.sequence
  markers : ∀ m ∈ C old, m.entryType = .changeMarker → m ∈ kept

section Late

variable {needed : NeededTombstones} {C : Contents} {n : ℕ} {k : Bytes} {seq : ℕ}

lemma Late.fixed (hb : ∀ id, ∀ e ∈ C id, e.sequence < n) (h : Late needed C k seq) :
    ∃ id e, e ∈ C id ∧ e.Touches k ∧ seq < e.sequence ∧ C.Newest k e.sequence ∧
      (e.entryType = .put ∨ (e.entryType ≠ .put ∧ needed.droppable e.sequence = false)) := by
  obtain ⟨id, e, he, ht, hlt, hlate⟩ := h
  obtain ⟨id', e', he', ht', hle, hnew⟩ := exists_newest hb he ht
  refine ⟨id', e', he', ht', hlt.trans_le hle, hnew, ?_⟩
  by_cases hput : e'.entryType = .put
  · exact .inl hput
  · exact .inr ⟨hput, NeededTombstones.droppable_eq_false (hlate.trans_le hle)⟩

lemma Late.covered (hb : ∀ id, ∀ e ∈ C id, e.sequence < n) (h : Late needed C k seq) (id : FileId) :
    ∃ id' e, e ∈ C id' ∧ e.Touches k ∧ seq < e.sequence ∧ Fixed needed C id k id' e := by
  obtain ⟨id', e, he, ht, hlt, hnew, hput | hkept⟩ := h.fixed hb
  · exact ⟨id', e, he, ht, hlt, .inl ⟨hput, hnew⟩⟩
  · exact ⟨id', e, he, ht, hlt, .inr (.inl hkept)⟩

end Late

section Append

variable {needed : NeededTombstones} {C : Contents} {n : ℕ} {a : FileId} {es : List DataEntry}
variable {k : Bytes} {seq : ℕ}

lemma Late.extend (h : Late needed C k seq) (a : FileId) (es : List DataEntry) : Late needed (C.extend a es) k seq := by
  obtain ⟨id, e, he, hrest⟩ := h
  exact ⟨id, e, mem_extend.2 (.inl he), hrest⟩

lemma late_or_newest (hnew : ∀ e ∈ es, needed.horizon < e.sequence)
    (h : ¬ (C.extend a es).Newest k seq) : ¬ C.Newest k seq ∨ Late needed (C.extend a es) k seq := by
  simp only [Newest, not_forall, not_le] at h
  obtain ⟨id, e, he, ht, hlt⟩ := h
  rcases mem_extend.1 he with hold | ⟨-, hadded⟩
  · exact .inl fun hn => absurd (hn id e hold ht) (not_le.2 hlt)
  · exact .inr ⟨id, e, he, ht, hlt, hnew e hadded⟩

lemma Covered.extend (h : Covered needed C) (hb : ∀ id, ∀ e ∈ C.extend a es id, e.sequence < n)
    (hnew : ∀ e ∈ es, needed.horizon < e.sequence) : Covered needed (C.extend a es) := by
  intro id p hp hput hdead
  rcases late_or_newest hnew hdead with hold | hlate
  · rcases mem_extend.1 hp with hp | ⟨-, hp⟩
    · obtain ⟨id', e, he, ht, hlt, hfix⟩ := h id p hp hput hold
      rcases hfix with ⟨heput, hnewest⟩ | hfix
      · by_cases hstill : (C.extend a es).Newest p.key e.sequence
        · exact ⟨id', e, mem_extend.2 (.inl he), ht, hlt, .inl ⟨heput, hstill⟩⟩
        · obtain hdied | ⟨j, x, hx, htx, hltx, hlate⟩ := late_or_newest hnew hstill
          · exact absurd hnewest hdied
          · exact Late.covered hb ⟨j, x, hx, htx, hlt.trans hltx, hlate⟩ id
      · exact ⟨id', e, mem_extend.2 (.inl he), ht, hlt, .inr hfix⟩
    · simp only [Newest, not_forall, not_le] at hdead
      obtain ⟨j, x, hx, htx, hltx⟩ := hdead
      exact Late.covered hb ⟨j, x, hx, htx, hltx, (hnew p hp).trans hltx⟩ id
  · exact hlate.covered hb id

lemma Keeps.extend {old : FileId} {kept : List DataEntry} (h : Keeps needed C old kept) (ha : old ≠ a)
    (hnew : ∀ e ∈ es, needed.horizon < e.sequence) : Keeps needed (C.extend a es) old kept := by
  have hold := extend_ne C ha es
  have hnewest : ∀ k seq, (C.extend a es).Newest k seq → C.Newest k seq :=
    fun k seq hn id e he => hn id e (mem_extend.2 (.inl he))
  refine ⟨hold ▸ h.sublist, h.units, ?_, ?_, ?_, ?_⟩
  · rw [hold]
    exact fun p hp hput hn => h.live p hp hput (hnewest _ _ hn)
  · rw [hold]
    exact h.tombstones
  · rw [hold]
    intro p hp hput hdead
    rcases late_or_newest hnew hdead with hdead | hlate
    · exact (h.above p hp hput hdead).imp_right fun hlate => hlate.extend a es
    · exact .inr hlate
  · rw [hold]
    exact h.markers

end Append

section Replace

variable {needed : NeededTombstones} {C : Contents} {n : ℕ} {old dest : FileId} {kept : List DataEntry}
variable {id j : FileId} {e p : DataEntry} {k : Bytes}

def movedTo (old dest id : FileId) : FileId := if id = old then dest else id

lemma Contents.mem_replace_of_mem (hd : dest = old ∨ C dest = []) (he : e ∈ C id)
    (hk : id = old → e ∈ kept) : e ∈ C.replace old dest kept (movedTo old dest id) := by
  rw [movedTo]
  split_ifs with hid
  · exact mem_replace.2 (.inl ⟨rfl, hk hid⟩)
  · refine mem_replace.2 (.inr ⟨?_, hid, he⟩)
    rintro rfl
    rcases hd with hd | hd
    · exact hid hd
    · rw [hd] at he
      cases he

section

variable (h : Keeps needed C old kept)

include h

lemma Keeps.mem_of_replace (he : e ∈ C.replace old dest kept j) :
    ∃ id, e ∈ C id ∧ movedTo old dest id = j ∧ (id = old → e ∈ kept) := by
  rcases mem_replace.1 he with ⟨rfl, hk⟩ | ⟨-, ho, hC⟩
  · exact ⟨old, h.sublist.subset hk, if_pos rfl, fun _ => hk⟩
  · exact ⟨j, hC, if_neg ho, fun hid => absurd hid ho⟩

lemma Keeps.newest_replace {seq : ℕ} (hn : C.Newest k seq) : (C.replace old dest kept).Newest k seq := by
  intro j e he ht
  obtain ⟨id, he, -⟩ := h.mem_of_replace he
  exact hn id e he ht

lemma Keeps.mem_of_fixed (he : e ∈ C id) (ht : e.Touches k) (hn : C.Newest k e.sequence)
    (hfix : e.entryType = .put ∨ (e.entryType ≠ .put ∧ needed.droppable e.sequence = false)) (hid : id = old) : e ∈ kept := by
  subst hid
  rcases hfix with hput | ⟨hput, hdrop⟩
  · have hkey : e.key = k := by simpa [DataEntry.Touches, hput] using ht
    exact h.live e he hput (hkey ▸ hn)
  · exact h.tombstones e he hput k ht hdrop

lemma Keeps.survivor (hcov : Covered needed C) (hb : ∀ id, ∀ e ∈ C id, e.sequence < n)
    (hd : dest = old ∨ C dest = []) (hp : p ∈ C.replace old dest kept j)
    (hput : p.entryType = .put) (hdead : ¬ C.Newest p.key p.sequence) :
    ∃ j' e, e ∈ C.replace old dest kept j' ∧ e.Touches p.key ∧ p.sequence < e.sequence ∧
      Fixed needed (C.replace old dest kept) j p.key j' e := by
  obtain ⟨id, hpC, hj, hpk⟩ := h.mem_of_replace hp
  -- The newest entry over a key overwritten since the open is no entry a vacuum drops.
  have hlate : Late needed C p.key p.sequence → ∃ j' e, e ∈ C.replace old dest kept j' ∧ e.Touches p.key ∧
      p.sequence < e.sequence ∧ Fixed needed (C.replace old dest kept) j p.key j' e := by
    intro hl
    obtain ⟨id', e, he, ht, hlt, hnew, hfix⟩ := hl.fixed hb
    refine ⟨_, e, mem_replace_of_mem hd he (h.mem_of_fixed he ht hnew hfix), ht, hlt, ?_⟩
    rcases hfix with hput | hkept
    · exact .inl ⟨hput, h.newest_replace hnew⟩
    · exact .inr (.inl hkept)
  obtain ⟨id', e, he, ht, hlt, hfix⟩ := hcov id p hpC hput hdead
  rcases hfix with ⟨heput, hnew⟩ | ⟨heput, hdrop⟩ | hsame
  · exact ⟨_, e, mem_replace_of_mem hd he (h.mem_of_fixed he ht hnew (.inl heput)), ht, hlt,
      .inl ⟨heput, h.newest_replace hnew⟩⟩
  · refine ⟨_, e, mem_replace_of_mem hd he ?_, ht, hlt, .inr (.inl ⟨heput, hdrop⟩)⟩
    rintro rfl
    exact h.tombstones e he heput p.key ht hdrop
  · by_cases hid : id = old
    · rcases h.above p (hpk hid) hput hdead with habove | hl
      · exact ⟨_, e, mem_replace_of_mem hd he (fun ho => habove e (ho ▸ he) hlt ht), ht, hlt,
          .inr (.inr (hsame ▸ hj))⟩
      · exact hlate hl
    · exact ⟨_, e, mem_replace_of_mem hd he (fun ho => absurd (hsame.symm.trans ho) hid), ht, hlt,
        .inr (.inr (hsame ▸ hj))⟩

lemma Keeps.newest_iff (hcov : Covered needed C) (hb : ∀ id, ∀ e ∈ C id, e.sequence < n)
    (hd : dest = old ∨ C dest = []) (hp : p ∈ C.replace old dest kept j)
    (hput : p.entryType = .put) : (C.replace old dest kept).Newest p.key p.sequence ↔ C.Newest p.key p.sequence := by
  refine ⟨fun hn => ?_, h.newest_replace⟩
  by_contra hdead
  obtain ⟨j', e, he, ht, hlt, -⟩ := h.survivor hcov hb hd hp hput hdead
  exact absurd (hn j' e he ht) (not_le.2 hlt)

end

lemma Covered.replace (hcov : Covered needed C) (h : Keeps needed C old kept) (hb : ∀ id, ∀ e ∈ C id, e.sequence < n)
    (hd : dest = old ∨ C dest = []) : Covered needed (C.replace old dest kept) := by
  intro j p hp hput hdead
  refine h.survivor hcov hb hd hp hput fun hn => hdead ?_
  exact h.newest_replace hn

lemma Contents.Log.replace (hl : C.Log) (h : Keeps needed C old kept) : (C.replace old dest kept).Log where
  written := replace_all ((hl.written old).of_sublist h.sublist) ⟨by simp, .nil, by simp⟩ hl.written
  units := replace_all h.units .nil hl.units
  apart j j' e he e' he' hseq := by
    obtain ⟨id, heC, rfl, -⟩ := h.mem_of_replace he
    obtain ⟨id', heC', rfl, -⟩ := h.mem_of_replace he'
    rw [hl.apart id id' e heC e' heC' hseq]

end Replace

end Bytecask
