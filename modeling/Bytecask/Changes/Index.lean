import Bytecask.KeyDir

/-! The change index: a bounded cache of bookmarks into the data files, shared by all scans. Each function
here is one hold of its mutex. -/

namespace Bytecask.Changes

open List

def bookmarkSpacing : ℕ := 4096

structure Bookmark where
  sequence : ℕ
  offset : ℕ
deriving DecidableEq, Repr

structure BookmarkPlan where
  nextOffset : ℕ := 0
  spacing : ℕ := 0
  generation : ℕ := 0
deriving DecidableEq, Repr

structure Table where
  bookmarks : List Bookmark := []
  spacing : ℕ := bookmarkSpacing
  used : ℕ := 0
  generation : ℕ := 0
deriving DecidableEq, Repr

def everyOther {α : Type} : List α → List α
  | [] => []
  | [x] => [x]
  | x :: _ :: xs => x :: everyOther xs

namespace Table

def plan (t : Table) : BookmarkPlan where
  nextOffset := ((t.bookmarks.getLast?).map Bookmark.offset).getD 0 + t.spacing
  spacing := t.spacing
  generation := t.generation

def thin (t : Table) : Table := { t with bookmarks := everyOther t.bookmarks, spacing := 2 * t.spacing }

def push (maxBookmarks : ℕ) (t : Table) (b : Bookmark) : Table :=
  let floor := match t.bookmarks.getLast? with
    | none => t.spacing
    | some last => last.offset + t.spacing
  if b.offset < floor then t
  else
    let t := { t with bookmarks := t.bookmarks ++ [b] }
    if maxBookmarks ≤ t.bookmarks.length then t.thin else t

end Table

structure ChangeIndex where
  tables : SortedMap FileId Table := SortedMap.empty
  clock : ℕ := 0
  maxFiles : ℕ := 16
  maxBookmarks : ℕ := 16384
deriving DecidableEq

namespace ChangeIndex

def seek (ix : ChangeIndex) (id : FileId) (below : ℕ) : Option Bookmark × ChangeIndex :=
  match ix.tables.get id with
  | none => (none, ix)
  | some t =>
    ((t.bookmarks.takeWhile (fun b => b.sequence ≤ below)).getLast?,
      { ix with clock := ix.clock + 1, tables := ix.tables.insert id { t with used := ix.clock + 1 } })

def plan (ix : ChangeIndex) (id : FileId) : BookmarkPlan :=
  match ix.tables.get id with
  | none => ⟨bookmarkSpacing, bookmarkSpacing, 0⟩
  | some t => t.plan

def oldest (ix : ChangeIndex) : Option FileId := (ix.tables.entries.minOn? (fun e => e.2.used)).map Prod.fst

def evictOldest (ix : ChangeIndex) : ChangeIndex :=
  match ix.oldest with
  | none => ix
  | some id => { ix with tables := ix.tables.erase id }

def tableFor (ix : ChangeIndex) (id : FileId) (generation : ℕ) : Option (ChangeIndex × Table) :=
  match ix.tables.get id with
  | none =>
    if generation ≠ 0 then none
    else
      let ix := if ix.maxFiles ≤ ix.tables.entries.length then ix.evictOldest else ix
      some ({ ix with clock := ix.clock + 1 }, { generation := ix.clock + 1 })
  | some t => if t.generation ≠ generation then none else some (ix, t)

def extend (ix : ChangeIndex) (id : FileId) (generation : ℕ) (bookmarks : List Bookmark) :
    Option BookmarkPlan × ChangeIndex :=
  match ix.tableFor id generation with
  | none => (none, ix)
  | some (ix, t) =>
    let ix := { ix with clock := ix.clock + 1 }
    let t := bookmarks.foldl (Table.push ix.maxBookmarks) { t with used := ix.clock }
    -- Nothing accepted: no table.
    if t.bookmarks = [] then (none, { ix with tables := ix.tables.erase id })
    else (some t.plan, { ix with tables := ix.tables.insert id t })

def forget (ix : ChangeIndex) (id : FileId) : ChangeIndex := { ix with tables := ix.tables.erase id }

def clear (ix : ChangeIndex) : ChangeIndex := { ix with tables := SortedMap.empty }

end ChangeIndex

section Sound

variable {P : FileId → Bookmark → Prop} {ix : ChangeIndex} {id : FileId}
variable {Q : Bookmark → Prop} {t : Table} {b : Bookmark} {m : SortedMap FileId Table}

structure Table.Sound (P : Bookmark → Prop) (t : Table) : Prop where
  holds : ∀ b ∈ t.bookmarks, P b
  ascending : t.bookmarks.Pairwise (fun a b => a.offset < b.offset)
  spaced : 0 < t.spacing

def TablesSound (P : FileId → Bookmark → Prop) (tables : SortedMap FileId Table) : Prop :=
  ∀ id t, tables.get id = some t → t.Sound (P id)

def ChangeIndex.Sound (P : FileId → Bookmark → Prop) (ix : ChangeIndex) : Prop := TablesSound P ix.tables

lemma everyOther_sublist {α : Type} : (xs : List α) → (everyOther xs).Sublist xs
  | [] => Sublist.refl _
  | [_] => Sublist.refl _
  | x :: y :: xs => ((everyOther_sublist xs).cons y).cons_cons x

lemma Table.Sound.thin (h : t.Sound Q) : t.thin.Sound Q where
  holds b hb := h.holds b ((everyOther_sublist _).subset hb)
  ascending := h.ascending.sublist (everyOther_sublist _)
  spaced := by
    have := h.spaced
    simp only [Table.thin]
    omega

lemma Table.Sound.used {tick : ℕ} (h : t.Sound Q) : Table.Sound Q { t with used := tick } := ⟨h.holds, h.ascending, h.spaced⟩

lemma Table.Sound.append (h : t.Sound Q) (hb : Q b) (hlast : ∀ x, t.bookmarks.getLast? = some x → x.offset < b.offset) :
    Table.Sound Q { t with bookmarks := t.bookmarks ++ [b] } := by
  refine ⟨?_, ?_, h.spaced⟩
  · intro x hx
    rcases mem_append.1 hx with hx | hx
    · exact h.holds x hx
    · rw [mem_singleton.1 hx]
      exact hb
  · refine pairwise_append.2 ⟨h.ascending, pairwise_singleton _ _, fun x hx y hy => ?_⟩
    rw [mem_singleton.1 hy]
    cases hl : t.bookmarks.getLast? with
    | none =>
      rw [List.getLast?_eq_none_iff.1 hl] at hx
      cases hx
    | some last =>
      obtain ⟨front, hfront⟩ := List.getLast?_eq_some_iff.1 hl
      have hasc := h.ascending
      rw [hfront] at hx hasc
      rcases mem_append.1 hx with hx | hx
      · exact ((pairwise_append.1 hasc).2.2 x hx last (mem_singleton_self _)).trans (hlast last hl)
      · rw [mem_singleton.1 hx]
        exact hlast last hl

lemma Table.Sound.push (h : t.Sound Q) (hb : Q b) (n : ℕ) : (t.push n b).Sound Q := by
  have hspaced := h.spaced
  rw [Table.push]
  split_ifs with hfloor
  · exact h
  · have hgrown := h.append hb fun x hx => by
      simp only [hx] at hfloor
      omega
    simp only
    split_ifs
    · exact hgrown.thin
    · exact hgrown

lemma Table.Sound.foldl {n : ℕ} {bs : List Bookmark} (hbs : ∀ b ∈ bs, Q b)
    (h : t.Sound Q) : (bs.foldl (Table.push n) t).Sound Q := by
  induction bs generalizing t with
  | nil => exact h
  | cons b bs ih => exact ih (fun x hx => hbs x (mem_cons_of_mem b hx)) (h.push (hbs b mem_cons_self) n)

section Tables

variable {Q : FileId → Table → Prop} {m : SortedMap FileId Table}

lemma tables_erase (h : ∀ id t, m.get id = some t → Q id t) (id : FileId) : ∀ id' t, (m.erase id).get id' = some t → Q id' t := by
  intro id' t ht
  rw [SortedMap.get_erase] at ht
  split_ifs at ht
  exact h id' t ht

lemma tables_insert (h : ∀ id t, m.get id = some t → Q id t) {t : Table} (ht : Q id t) :
    ∀ id' t', (m.insert id t).get id' = some t' → Q id' t' := by
  intro id' t' ht'
  rw [SortedMap.get_insert] at ht'
  split_ifs at ht' with heq
  · subst heq
    rw [← Option.some.inj ht']
    exact ht
  · exact h id' t' ht'

end Tables

lemma TablesSound.erase (h : TablesSound P m) (id : FileId) : TablesSound P (m.erase id) :=
  tables_erase h id

lemma TablesSound.insert (h : TablesSound P m) (ht : t.Sound (P id)) : TablesSound P (m.insert id t) := tables_insert h ht

namespace ChangeIndex

section

variable (h : ix.Sound P)

include h

lemma Sound.seek (id : FileId) (below : ℕ) : (ix.seek id below).2.Sound P := by
  rw [ChangeIndex.seek]
  split
  · exact h
  · next t ht => exact TablesSound.insert h (h id t ht).used

lemma seek_spec {below : ℕ} {b : Bookmark} (hb : (ix.seek id below).1 = some b) : P id b ∧ b.sequence ≤ below := by
  rw [ChangeIndex.seek] at hb
  split at hb
  · cases hb
  · next t ht =>
    have hmem := List.mem_of_getLast? hb
    exact ⟨(h id t ht).holds b (takeWhile_subset _ hmem), by simpa using mem_takeWhile_imp hmem⟩

lemma Sound.evictOldest : ix.evictOldest.Sound P := by
  rw [ChangeIndex.evictOldest]
  split
  · exact h
  · exact TablesSound.erase h _

lemma Sound.tableFor {generation : ℕ} {ix' : ChangeIndex} {t : Table}
    (ht : ix.tableFor id generation = some (ix', t)) : ix'.Sound P ∧ t.Sound (P id) := by
  rw [ChangeIndex.tableFor] at ht
  split at ht
  · split_ifs at ht
    · cases ht
      exact ⟨h.evictOldest, by simp, List.Pairwise.nil, by simp [bookmarkSpacing]⟩
    · cases ht
      exact ⟨h, by simp, List.Pairwise.nil, by simp [bookmarkSpacing]⟩
  · next t' hget =>
    split_ifs at ht
    cases ht
    exact ⟨h, h id t hget⟩

lemma Sound.extend (generation : ℕ) {bs : List Bookmark} (hbs : ∀ b ∈ bs, P id b) : (ix.extend id generation bs).2.Sound P := by
  rw [ChangeIndex.extend]
  split
  · exact h
  · next ix' t ht =>
    obtain ⟨hix, hsound⟩ := h.tableFor ht
    simp only
    split_ifs
    · exact TablesSound.erase hix id
    · exact TablesSound.insert hix (Table.Sound.foldl hbs hsound.used)

lemma Sound.forget (id : FileId) : (ix.forget id).Sound P := TablesSound.erase h id

end

lemma sound_clear (ix : ChangeIndex) : ix.clear.Sound P := by
  intro id t ht
  cases ht

end ChangeIndex

end Sound

end Bytecask.Changes
