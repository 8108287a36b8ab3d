import Bytecask.DataFile
import Bytecask.KeyDir

/-! The entries of every data file, and the key directory they stand for: a key maps to its newest
Put unless a newer Delete or range tombstone touches it. -/

namespace Bytecask

open List

abbrev Contents := FileId → List DataEntry

namespace Contents

variable {id j : FileId} (C : Contents)

def extend (C : Contents) (id : FileId) (es : List DataEntry) : Contents := Function.update C id (C id ++ es)

@[simp] lemma extend_self (id : FileId) (es : List DataEntry) : C.extend id es id = C id ++ es :=
  Function.update_self _ _ _

lemma extend_ne (h : j ≠ id) (es : List DataEntry) : C.extend id es j = C j :=
  Function.update_of_ne h _ _

@[simp] lemma extend_nil (id : FileId) : C.extend id [] = C := by
  rw [extend, append_nil, Function.update_eq_self]

@[simp] lemma extend_extend (id : FileId) (es fs : List DataEntry) :
    (C.extend id es).extend id fs = C.extend id (es ++ fs) := by
  rw [extend, extend_self, extend, Function.update_idem, append_assoc]
  rfl

lemma mem_extend {C : Contents} {es : List DataEntry} {e : DataEntry} : e ∈ C.extend id es j ↔ e ∈ C j ∨ (j = id ∧ e ∈ es) := by
  by_cases h : j = id
  · subst h
    simp
  · simp [extend_ne, h]

def RecordAt (C : Contents) (k : Bytes) (d : KeyDirEntry) : Prop :=
  ∃ v, (⟨d.sequence, .put, k, v⟩, d.fileOffset) ∈ located 0 (C d.fileId) ∧ v.length = d.valueSize

def Newest (C : Contents) (k : Bytes) (seq : ℕ) : Prop := ∀ id, ∀ e ∈ C id, e.Touches k → e.sequence ≤ seq

def Winning (C : Contents) (k : Bytes) (d : KeyDirEntry) : Prop := C.RecordAt k d ∧ C.Newest k d.sequence

end Contents

section Located

variable {start o : ℕ} {e : DataEntry} {es : List DataEntry}

lemma located_start_le (h : (e, o) ∈ located start es) : start ≤ o := by
  induction es generalizing start with
  | nil => cases h
  | cons x es ih =>
    rcases mem_cons.1 h with h | h
    · exact (Prod.mk.inj h).2.ge
    · exact (Nat.le_add_right _ _).trans (ih h)

lemma located_unique {e' : DataEntry} (h : (e, o) ∈ located start es) (h' : (e', o) ∈ located start es) : e = e' := by
  induction es generalizing start with
  | nil => cases h
  | cons x es ih =>
    have hx := x.size_pos
    rcases mem_cons.1 h with h | h <;> rcases mem_cons.1 h' with h' | h'
    · rw [(Prod.mk.inj h).1, (Prod.mk.inj h').1]
    · have hle := located_start_le h'
      have ho := (Prod.mk.inj h).2
      omega
    · have hle := located_start_le h
      have ho := (Prod.mk.inj h').2
      omega
    · exact ih h h'

lemma mem_of_located (h : (e, o) ∈ located start es) : e ∈ es := by
  rw [← located_map_fst start es]
  exact mem_map_of_mem h

lemma located_of_mem (h : e ∈ es) (start : ℕ) : ∃ o, (e, o) ∈ located start es := by
  rw [← located_map_fst start es] at h
  obtain ⟨p, hp, rfl⟩ := mem_map.1 h
  exact ⟨p.2, hp⟩

end Located

namespace Contents

variable {C : Contents}
variable {k : Bytes} {d : KeyDirEntry} {a : FileId} {e : DataEntry}

lemma RecordAt.unique {k' : Bytes} {d' : KeyDirEntry} (h : C.RecordAt k d) (h' : C.RecordAt k' d')
    (hs : d.SameRecord d') : d = d' := by
  obtain ⟨v, hv, hl⟩ := h
  obtain ⟨v', hv', hl'⟩ := h'
  rw [hs.1, hs.2] at hv
  have he := located_unique hv hv'
  rw [DataEntry.mk.injEq] at he
  cases d
  cases d'
  simp_all [KeyDirEntry.SameRecord]

lemma RecordAt.extend (h : C.RecordAt k d) (id : FileId) (es : List DataEntry) : (C.extend id es).RecordAt k d := by
  obtain ⟨v, hv, hl⟩ := h
  refine ⟨v, ?_, hl⟩
  by_cases hid : d.fileId = id
  · rw [hid, extend_self, located_append]
    exact mem_append_left _ (hid ▸ hv)
  · rwa [extend_ne C hid]

lemma RecordAt.mem (h : C.RecordAt k d) : ∃ v, ⟨d.sequence, .put, k, v⟩ ∈ C d.fileId := by
  obtain ⟨v, hv, -⟩ := h
  exact ⟨v, mem_of_located hv⟩

lemma recordAt_extend :
    (C.extend a [e]).RecordAt k d ↔ C.RecordAt k d ∨
      (e.entryType = .put ∧ e.key = k ∧ d = ⟨e.sequence, bytesOf (C a), a, e.value.length⟩) := by
  constructor
  · rintro ⟨v, hv, hl⟩
    by_cases hid : d.fileId = a
    · rw [hid, extend_self, located_append, mem_append] at hv
      rcases hv with hv | hv
      · exact .inl ⟨v, hid ▸ hv, hl⟩
      · simp only [located, Nat.zero_add, mem_singleton, Prod.mk.injEq] at hv
        obtain ⟨rfl, ho⟩ := hv
        cases d
        simp_all
    · rw [extend_ne C hid] at hv
      exact .inl ⟨v, hv, hl⟩
  · rintro (h | ⟨ht, rfl, rfl⟩)
    · exact h.extend a [e]
    · refine ⟨e.value, ?_, rfl⟩
      rw [extend_self, located_append, ← ht]
      exact mem_append_right _ (mem_singleton.2 (by rw [Nat.zero_add]))

lemma newest_extend {seq : ℕ} : (C.extend a [e]).Newest k seq ↔ C.Newest k seq ∧ (e.Touches k → e.sequence ≤ seq) := by
  simp only [Newest, mem_extend, mem_singleton]
  constructor
  · exact fun h => ⟨fun id x hx => h id x (.inl hx), h a e (.inr ⟨rfl, rfl⟩)⟩
  · rintro ⟨h, he⟩ id x (hx | ⟨-, rfl⟩)
    · exact h id x hx
    · exact he

lemma winning_extend (hnew : ∀ id, ∀ x ∈ C id, x.sequence < e.sequence) : (C.extend a [e]).Winning k d ↔
      if e.Touches k then e.entryType = .put ∧ d = ⟨e.sequence, bytesOf (C a), a, e.value.length⟩
      else C.Winning k d := by
  rw [Winning, recordAt_extend, newest_extend]
  split_ifs with ht
  · constructor
    · rintro ⟨h | h, -, hle⟩
      · obtain ⟨v, hv⟩ := h.mem
        exact absurd (hnew _ _ hv) (not_lt.2 (hle ht))
      · exact ⟨h.1, h.2.2⟩
    · rintro ⟨hp, rfl⟩
      have hk : e.key = k := by simpa [DataEntry.Touches, hp] using ht
      exact ⟨.inr ⟨hp, hk, rfl⟩, fun id x hx _ => (hnew id x hx).le, fun _ => le_rfl⟩
  · constructor
    · rintro ⟨h | h, hn, -⟩
      · exact ⟨h, hn⟩
      · exact absurd (by simpa [DataEntry.Touches, h.1] using h.2.1) ht
    · exact fun h => ⟨.inl h.1, h.2, fun h' => absurd h' ht⟩

end Contents

end Bytecask
