import Bytecask.Entry
import Bytecask.Lib.Heap

/-! A statement's sorters. The bytes they ask of its memory and the steps their reading is charged are granted here: a
refusal fails the statement. -/

namespace Bytecask.Sql

open List Heap

variable {η : Type}

/-- One entry, with what its payload's view said of the bytes. -/
structure SortEntry (η : Type) where
  key : Bytes
  payload : Bytes
  seq : ℕ
  held : η

def sortBefore (a b : SortEntry η) : Prop := if a.key ≠ b.key then a.key < b.key else a.seq < b.seq

instance (a b : SortEntry η) : Decidable (sortBefore a b) := inferInstanceAs (Decidable (ite _ _ _))

structure Sorter (η : Type) where
  keep : ℕ
  entries : List (SortEntry η) := []
  added : ℕ := 0
  sorted : Bool := false
  next : ℕ := 0

namespace Sorter

variable (A : Algorithms (@sortBefore η)) (s : Sorter η)

def add (key payload : Bytes) (held : η) : Option (Sorter η) :=
  if s.sorted then none
  else
    let e : SortEntry η := ⟨key, payload, s.added, held⟩
    let s := { s with added := s.added + 1 }
    if s.keep ≠ 0 ∧ s.entries.length = s.keep then
      -- among equal keys the earlier one stays
      if ∃ last ∈ s.entries.head?, last.key ≤ key then some s
      else some { s with entries := A.pushHeap ((A.popHeap s.entries).dropLast ++ [e]) }
    else if s.keep ≠ 0 then some { s with entries := A.pushHeap (s.entries ++ [e]) }
    else some { s with entries := s.entries ++ [e] }

def sortOnce : Sorter η := if s.sorted then s else { s with entries := A.sort s.entries, sorted := true }

def nth (n : ℤ) : Option (Bytes × η) × Sorter η :=
  if n < 0 ∨ s.entries.length ≤ n then (none, s)
  else
    let s := s.sortOnce A
    (s.entries[n.toNat]?.map fun e => (e.payload, e.held), s)

def nextEntry : Option (Bytes × η) × Sorter η :=
  let s := s.sortOnce A
  match s.entries[s.next]? with
  | none => (none, s)
  | some e => (some (e.payload, e.held), { s with next := s.next + 1 })

inductive Read where
  | nth (n : ℤ)
  | next
  deriving DecidableEq

def read : Read → Option (Bytes × η) × Sorter η
  | .nth n => s.nth A n
  | .next => s.nextEntry A

end Sorter

/-- Additions, numbered in their order. -/
def numbered (adds : List (Bytes × Bytes × η)) : List (SortEntry η) :=
  adds.mapIdx fun i x => ⟨x.1, x.2.1, i, x.2.2⟩

def SortEntry.rank (e : SortEntry η) : Bytes ×ₗ ℕ := toLex (e.key, e.seq)

lemma sortBefore_iff (a b : SortEntry η) : sortBefore a b ↔ a.rank < b.rank := by
  rw [sortBefore, SortEntry.rank, SortEntry.rank, Prod.Lex.toLex_lt_toLex]
  by_cases h : a.key = b.key
  · simp [h]
  · simp [h]

lemma numbered_append (adds : List (Bytes × Bytes × η)) (x : Bytes × Bytes × η) :
    numbered (adds ++ [x]) = numbered adds ++ [⟨x.1, x.2.1, adds.length, x.2.2⟩] := mapIdx_concat

lemma numbered_inj (adds : List (Bytes × Bytes × η)) :
    ∀ a ∈ numbered adds, ∀ b ∈ numbered adds, a.rank = b.rank → a = b := by
  intro a ha b hb h
  obtain ⟨i, hi, rfl⟩ := mem_mapIdx.1 ha
  obtain ⟨j, hj, rfl⟩ := mem_mapIdx.1 hb
  obtain ⟨-, hij⟩ := Prod.mk.inj (toLex.injective h)
  obtain rfl : i = j := hij
  rfl

lemma seq_lt_of_mem_numbered {adds : List (Bytes × Bytes × η)} {e : SortEntry η} (he : e ∈ numbered adds) :
    e.seq < adds.length := by
  obtain ⟨i, hi, rfl⟩ := mem_mapIdx.1 he
  exact hi

namespace Sorter

variable {A : Algorithms (@sortBefore η)} {keep : ℕ} {adds : List (Bytes × Bytes × η)} {s : Sorter η}

structure Holds (keep : ℕ) (adds : List (Bytes × Bytes × η)) (s : Sorter η) : Prop where
  keep_eq : s.keep = keep
  added : s.added = adds.length
  unsorted : s.sorted = false
  next : s.next = 0
  heap : keep ≠ 0 → IsHeap sortBefore s.entries
  least : Least SortEntry.rank keep (numbered adds) s.entries

lemma Holds.add (h : Holds keep adds s) (x : Bytes × Bytes × η) :
    ∃ s', s.add A x.1 x.2.1 x.2.2 = some s' ∧ Holds keep (adds ++ [x]) s' := by
  obtain ⟨rfl, hadded, hunsorted, hnext, hheap, hleast⟩ := h
  have hlen : s.added + 1 = (adds ++ [x]).length := by rw [hadded, length_append, length_singleton]
  have hnum := numbered_append adds x
  rw [← hadded] at hnum
  rw [Sorter.add, if_neg (by rw [hunsorted]; exact Bool.false_ne_true)]
  by_cases hfull : s.keep ≠ 0 ∧ s.entries.length = s.keep
  · rw [if_pos hfull]
    obtain ⟨last, rest, hs⟩ := exists_cons_of_length_pos (by omega : 0 < s.entries.length)
    have hheap := hheap hfull.1
    rw [hs] at hheap hleast hfull
    have hfront := hheap.front sortBefore_iff
    rw [hs, head?_cons]
    by_cases hkey : last.key ≤ x.1
    · rw [if_pos ⟨last, rfl, hkey⟩]
      refine ⟨_, rfl, rfl, hlen, hunsorted, hnext, fun _ => hheap, ?_⟩
      rw [hnum]
      apply hleast.refuse hfull
      -- whatever is kept is not behind the last, and the last was added before
      have hlast : last.rank ≤ toLex (x.1, s.added) := by
        have := seq_lt_of_mem_numbered (hleast.subset mem_cons_self)
        exact Prod.Lex.toLex_mono ⟨hkey, by omega⟩
      intro e he
      rcases mem_cons.1 he with rfl | he
      · exact hlast
      · exact (hfront e he).trans hlast
    · rw [if_neg (by rintro ⟨_, ⟨⟩, h⟩; exact hkey h)]
      obtain ⟨popped, hpop, hperm, hpopped⟩ := A.popHeap_spec last rest hheap
      obtain ⟨hpush, hpushed⟩ := A.pushHeap_spec popped ⟨x.1, x.2.1, s.added, x.2.2⟩ hpopped
      rw [hpop, dropLast_concat]
      refine ⟨_, rfl, rfl, hlen, hunsorted, hnext, fun _ => hpushed, ?_⟩
      rw [hnum]
      refine hleast.replace hfull hfront ?_ hperm hpush
      exact Prod.Lex.toLex_le_toLex.2 (.inl (not_le.1 hkey))
  · rw [if_neg hfull]
    by_cases h0 : s.keep ≠ 0
    · rw [if_pos h0]
      obtain ⟨hpush, hpushed⟩ := A.pushHeap_spec _ ⟨x.1, x.2.1, s.added, x.2.2⟩ (hheap h0)
      refine ⟨_, rfl, rfl, hlen, hunsorted, hnext, fun _ => hpushed, ?_⟩
      rw [hnum]
      exact hleast.room hfull hpush
    · rw [if_neg h0]
      refine ⟨_, rfl, rfl, hlen, hunsorted, hnext, fun h => absurd h h0, ?_⟩
      rw [hnum]
      exact hleast.room hfull (.refl _)

variable (A) in
def addAll (adds : List (Bytes × Bytes × η)) (s : Sorter η) : Option (Sorter η) :=
  adds.foldlM (fun s x => s.add A x.1 x.2.1 x.2.2) s

variable (A keep adds) in
lemma addAll_holds : ∃ s, addAll A adds { keep } = some s ∧ Holds keep adds s := by
  induction adds using reverseRecOn with
  | nil => exact ⟨_, rfl, rfl, rfl, rfl, rfl, fun _ => by intro i a ha; simp at ha, .nil⟩
  | append_singleton adds x ih =>
    obtain ⟨s, hs, h⟩ := ih
    obtain ⟨s', hs', h'⟩ := h.add x
    refine ⟨s', ?_, h'⟩
    rw [addAll, foldlM_append, ← addAll, hs]
    simpa using hs'

/-- A sorter whose `entries` in order are read, `next` times the next of them. -/
def Reads (A : Algorithms (@sortBefore η)) (entries : List (SortEntry η)) (next : ℕ) (s : Sorter η) : Prop :=
  s.sortOnce A = ⟨s.keep, entries, s.added, true, min next entries.length⟩ ∧ s.entries.length = entries.length

variable {entries : List (SortEntry η)} {next : ℕ}

lemma Holds.reads (h : Holds keep adds s) :
    Reads A (cut keep ((numbered adds).insertionSort fun a b => ¬ sortBefore b a)) 0 s := by
  rw [← h.least.sorted sortBefore_iff A (numbered_inj adds)]
  refine ⟨?_, (A.sort_spec _).1.length_eq.symm⟩
  rw [sortOnce, if_neg (by rw [h.unsorted]; exact Bool.false_ne_true), h.next, Nat.zero_min]

lemma Reads.nth (h : Reads A entries next s) (n : ℤ) :
    (s.nth A n).1 = (if n < 0 then none else entries[n.toNat]?.map fun e => (e.payload, e.held)) ∧
      Reads A entries next (s.nth A n).2 := by
  rw [Sorter.nth]
  by_cases hn : n < 0 ∨ s.entries.length ≤ n
  · rw [if_pos hn]
    refine ⟨?_, h⟩
    by_cases hneg : n < 0
    · rw [if_pos hneg]
    · have := h.2
      rw [if_neg hneg, getElem?_eq_none (by omega), Option.map_none]
  · rw [if_neg hn, if_neg (by omega), h.1]
    exact ⟨rfl, rfl, rfl⟩

lemma Reads.nextEntry (h : Reads A entries next s) :
    (s.nextEntry A).1 = (entries[next]?.map fun e => (e.payload, e.held)) ∧
      Reads A entries (next + 1) (s.nextEntry A).2 := by
  rw [Sorter.nextEntry, h.1]
  by_cases hn : next < entries.length
  · rw [min_eq_left hn.le, getElem?_eq_getElem hn]
    refine ⟨rfl, ?_, rfl⟩
    rw [min_eq_left hn]
    rfl
  · rw [min_eq_right (by omega), getElem?_eq_none (le_refl _), getElem?_eq_none (by omega)]
    refine ⟨rfl, ?_, rfl⟩
    rw [min_eq_right (by omega)]
    rfl

variable (A) in
def readAll (reads : List Read) (s : Sorter η) : Sorter η := reads.foldl (fun s r => (s.read A r).2) s

variable (A) in
lemma Reads.readAll (h : Reads A entries next s) (reads : List Read) :
    Reads A entries (next + reads.count .next) (readAll A reads s) := by
  induction reads generalizing s next with
  | nil => exact h
  | cons r reads ih =>
    cases r with
    | nth n => exact ih (h.nth n).2
    | next =>
      rw [count_cons_self, add_comm _ 1, ← add_assoc]
      exact ih h.nextEntry.2

/-- What is read is a sort of the additions by key and by their order, cut. -/
theorem sorter_cuts_sort (A : Algorithms (@sortBefore η)) (keep : ℕ) (adds : List (Bytes × Bytes × η)) :
    ∃ s, addAll A adds { keep } = some s ∧ ∃ read : List (Bytes × η),
      read = (cut keep ((numbered adds).insertionSort fun a b => ¬ sortBefore b a)).map (fun e => (e.payload, e.held)) ∧
      ∀ reads,
        (∀ n : ℤ, ((readAll A reads s).nth A n).1 = if n < 0 then none else read[n.toNat]?) ∧
        ((readAll A reads s).nextEntry A).1 = read[reads.count .next]? := by
  obtain ⟨s, hs, h⟩ := addAll_holds A keep adds
  refine ⟨s, hs, _, rfl, fun reads => ?_⟩
  have hreads := h.reads.readAll A reads
  rw [Nat.zero_add] at hreads
  simp only [getElem?_map]
  exact ⟨fun n => (hreads.nth n).1, hreads.nextEntry.1⟩

/-- Two of the three are kept: the first of the equal keys, and the one that came last. -/
theorem twoOfThree_cut :
    ∃ s, addAll (.bySorting sortBefore_iff) [([2], [1], ()), ([2], [2], ()), ([1], [3], ())] { keep := 2 } = some s ∧
      (s.nth (.bySorting sortBefore_iff) 1).1 = some ([1], ()) := by
  obtain ⟨s, hs, read, hread, h⟩ :=
    sorter_cuts_sort _ 2 [([2], [1], ()), ([2], [2], ()), ([1], [3], ())]
  refine ⟨s, hs, ((h []).1 1).trans ?_⟩
  rw [hread]
  decide +kernel

end Sorter

end Bytecask.Sql
