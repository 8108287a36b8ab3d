import Bytecask.Lib.Machine
import Bytecask.Tree.Bytes

/-! The slotted page of a keyed tree: a shared beginning, sorted slots that hold each key's head and
where its entry lies, a heap of entries that grows down from the end, and heads sampled as hints. -/

namespace Bytecask.Tree

open List

def alignUp (n a : ℕ) : ℕ := (n + a - 1) / a * a

def nodeBytes : ℕ := 1024
def maxKeyBytes : ℕ := 65535
def headerBytes : ℕ := 40
def hintCount : ℕ := 16
def hintMinCount : ℕ := 2 * (hintCount + 1)
def hintBytes : ℕ := hintCount * 4
def lenBytes : ℕ := 2
def slotBytes : ℕ := 8
def noLastPos : ℕ := 0xFFFF

structure Layout where
  valueSize : ℕ
  align : ℕ
  align_ge : 8 ≤ align

namespace Layout

def payloadSize (L : Layout) (leaf : Bool) : ℕ := if leaf then L.valueSize else 8

def entrySize (L : Layout) (leaf : Bool) (len : ℕ) : ℕ := alignUp (L.payloadSize leaf + lenBytes + len) L.align

end Layout

def slotsOffsetFor (shared : ℕ) : ℕ := alignUp (headerBytes + hintBytes + shared) slotBytes

structure HeapEntry (P : Type) where
  payload : P
  len : ℕ
  bytes : Bytes
deriving DecidableEq

namespace HeapEntry

variable {P : Type}

def write (payload : P) (suffix : Bytes) : HeapEntry P := ⟨payload, suffix.length % 2 ^ 16, suffix⟩

def suffix (e : HeapEntry P) : Bytes := e.bytes.take e.len

lemma suffix_write (payload : P) {suf : Bytes} (h : suf.length ≤ maxKeyBytes) : (write payload suf).suffix = suf := by
  have hlt : suf.length < 2 ^ 16 := Nat.lt_succ_of_le h
  rw [suffix, write, Nat.mod_eq_of_lt hlt, take_length]

end HeapEntry

def slotOf (head off : ℕ) : ℕ := head <<< 32 ||| off
def slotHead (slot : ℕ) : ℕ := slot >>> 32
def slotOff (slot : ℕ) : ℕ := slot &&& 0xFFFFFFFF

section Slot

variable {head off : ℕ}

lemma slotOf_eq (hoff : off < 2 ^ 32) : slotOf head off = 2 ^ 32 * head + off := by
  rw [slotOf, Nat.shiftLeft_eq, Nat.mul_comm, Nat.two_pow_add_eq_or_of_lt hoff]

lemma slotHead_slotOf (hoff : off < 2 ^ 32) : slotHead (slotOf head off) = head := by
  rw [slotHead, slotOf_eq hoff, Nat.shiftRight_eq_div_pow]
  omega

lemma slotOff_slotOf (hoff : off < 2 ^ 32) : slotOff (slotOf head off) = off := by
  have hmask : slotOff (slotOf head off) = slotOf head off % 2 ^ 32 := Nat.and_two_pow_sub_one_eq_mod _ 32
  rw [hmask, slotOf_eq hoff]
  omega

lemma lt_target_iff (slot head : ℕ) : slot < head <<< 32 ↔ slotHead slot < head := by
  rw [slotHead, Nat.shiftLeft_eq, Nat.shiftRight_eq_div_pow, Nat.div_lt_iff_lt_mul (by decide)]

end Slot

structure Node (P : Type) where
  isLeaf : Bool
  firstChild : Option P
  capacity : ℕ
  heapFloor : ℕ
  deadBytes : ℕ
  lastPos : ℕ
  shared : Bytes
  hints : List ℕ
  slots : List ℕ
  heap : List (ℕ × HeapEntry P)
deriving DecidableEq

structure Item (P : Type) where
  key : Bytes
  payload : P
deriving DecidableEq

structure Pos where
  idx : ℕ
  exact : Bool
deriving DecidableEq

namespace Node

variable {P : Type}

def count (n : Node P) : ℕ := n.slots.length

def allocate (minCapacity : ℕ) (leaf : Bool) (pre : Bytes) : Node P where
  isLeaf := leaf
  firstChild := none
  capacity := alignUp (max minCapacity (slotsOffsetFor pre.length)) 16 % 2 ^ 32
  heapFloor := 0
  deadBytes := 0
  lastPos := noLastPos
  shared := pre
  hints := List.replicate hintCount 0
  slots := []
  heap := []

def entry (n : Node P) (slot : ℕ) : Option (HeapEntry P) := n.heap.lookup (slotOff slot)

def suffixOf (n : Node P) (slot : ℕ) : Bytes := ((n.entry slot).map HeapEntry.suffix).getD []

def suffixes (n : Node P) : List Bytes := n.slots.map n.suffixOf

def keys (n : Node P) : List Bytes := n.suffixes.map (n.shared ++ ·)

def payload (n : Node P) (i : ℕ) : Option P := (n.slots[i]?.bind n.entry).map HeapEntry.payload

def child (n : Node P) (i : ℕ) : Option P := if i = 0 then n.firstChild else n.payload (i - 1)

def freeBytes (n : Node P) : ℕ := n.capacity - n.heapFloor - slotsOffsetFor n.shared.length - n.count * slotBytes

def updateHints (n : Node P) : Node P :=
  if n.count < hintMinCount then n
  else
    let dist := n.count / (hintCount + 1)
    { n with hints := (List.range hintCount).map fun i => slotHead (n.slots.getD ((i + 1) * dist) 0) }

def insertEntry (L : Layout) (n : Node P) (pos : ℕ) (suf : Bytes) (payload : P) : Node P :=
  let off := n.heapFloor + L.entrySize n.isLeaf suf.length
  updateHints
    { n with
      heapFloor := off % 2 ^ 32
      heap := (off, .write payload suf) :: n.heap
      slots := n.slots.insertIdx pos (slotOf (headOf suf) off)
      lastPos := if pos < noLastPos then pos else noLastPos }

def removeEntry (L : Layout) (n : Node P) (pos : ℕ) : Node P :=
  let size := ((n.slots[pos]?.bind n.entry).map fun e => L.entrySize n.isLeaf e.len).getD 0
  updateHints { n with deadBytes := n.deadBytes + size, slots := n.slots.eraseIdx pos }

def packItem (L : Layout) (shared : ℕ) (n : Node P) (it : Item P) : Node P :=
  let suf := it.key.drop shared
  let off := n.heapFloor + L.entrySize n.isLeaf suf.length
  { n with
    heapFloor := off % 2 ^ 32
    heap := (off, .write it.payload suf) :: n.heap
    slots := n.slots ++ [slotOf (headOf suf) off] }

def heapBytes (L : Layout) (leaf : Bool) (shared : ℕ) (items : List (Item P)) : ℕ :=
  (items.map fun it => L.entrySize leaf (it.key.length - shared)).sum

def packedSize (L : Layout) (leaf : Bool) (shared : ℕ) (items : List (Item P)) : ℕ :=
  slotsOffsetFor shared + items.length * slotBytes + heapBytes L leaf shared items

def pack (L : Layout) (leaf : Bool) (items : List (Item P)) (shared : ℕ) : Node P :=
  -- a node emptied down to its first child has no entry to take a beginning from
  let shared := if items.isEmpty then 0 else shared
  let pre := ((items.head?.map Item.key).getD []).take shared
  let n := allocate (max nodeBytes (packedSize L leaf shared items)) leaf pre
  updateHints (items.foldl (packItem L shared) n)

def items (n : Node P) : List (Item P) :=
  n.slots.filterMap fun s => (n.entry s).map fun e => ⟨n.shared ++ e.suffix, e.payload⟩

def rebuild (L : Layout) (trivial : Bool) (n : Node P) (shared : ℕ) : Node P :=
  if trivial ∧ shared = n.shared.length ∧ n.deadBytes = 0 then
    { (allocate n.capacity n.isLeaf n.shared : Node P) with
      slots := n.slots, heap := n.heap, heapFloor := n.heapFloor, firstChild := n.firstChild, lastPos := n.lastPos,
      hints := n.hints }
  else { pack L n.isLeaf n.items shared with firstChild := n.firstChild, lastPos := n.lastPos }

def run (n : Node P) (head : ℕ) : ℕ × ℕ :=
  if hintMinCount ≤ n.count then
    let k := n.hints.countP (· < head)
    let dist := n.count / (hintCount + 1)
    (if k = 0 then 0 else k * dist + 1, if k = hintCount then n.count else (k + 1) * dist + 1)
  else (0, n.count)

def scanHead (n : Node P) (head : ℕ) (suf : Bytes) : ℕ → List ℕ → Pos
  | pos, [] => ⟨pos, false⟩
  | pos, s :: slots =>
    if slotHead s = head then
      match compareBytes (n.suffixOf s) suf with
      | .lt => scanHead n head suf (pos + 1) slots
      | .eq => ⟨pos, true⟩
      | .gt => ⟨pos, false⟩
    else ⟨pos, false⟩

def search (n : Node P) (key : Bytes) : Pos :=
  let cpl := commonPrefixLength n.shared key
  if cpl < n.shared.length then
    if cpl = key.length ∨ key.getD cpl 0 < n.shared.getD cpl 0 then ⟨0, false⟩ else ⟨n.count, false⟩
  else
    let suf := key.drop n.shared.length
    let head := headOf suf
    let (lo, hi) := n.run head
    let pos := lo + ((n.slots.drop lo).take (hi - lo)).countP (· < head <<< 32)
    n.scanHead head suf pos (n.slots.drop pos)

def childIndex (n : Node P) (key : Bytes) : ℕ :=
  let p := n.search key
  if p.exact then p.idx + 1 else p.idx

end Node

inductive Op (P : Type) where
  | insertEntry (pos : ℕ) (suf : Bytes) (payload : P)
  | removeEntry (pos : ℕ)
  | pack (leaf : Bool) (items : List (Item P)) (shared : ℕ)
  | rebuild (shared : ℕ)

/-- Every key has the bytes that are cut off it and is legal, and the node's size fits its field. -/
structure Packable {P : Type} (L : Layout) (leaf : Bool) (items : List (Item P)) (shared : ℕ) : Prop where
  cut : ∀ it ∈ items, shared ≤ it.key.length
  legal : ∀ it ∈ items, it.key.length ≤ maxKeyBytes
  fits : alignUp (max nodeBytes (Node.packedSize L leaf shared items)) 16 < 2 ^ 32

def Op.Enabled {P : Type} (L : Layout) (n : Node P) : Op P → Prop
  | .insertEntry pos suf _ =>
    pos ≤ n.count ∧ n.shared.length + suf.length ≤ maxKeyBytes ∧ L.entrySize n.isLeaf suf.length + slotBytes ≤ n.freeBytes
  | .removeEntry pos => pos < n.count
  | .pack leaf items shared => Packable L leaf items shared
  | .rebuild shared => Packable L n.isLeaf n.items shared

def nodes {P : Type} (L : Layout) (trivial : Bool) : Machine (Node P) (Op P) where
  initial n := ∃ leaf items shared, Packable L leaf items shared ∧ n = Node.pack L leaf items shared
  Enabled := Op.Enabled L
  next n op := match op with
    | .insertEntry pos suf payload => n.insertEntry L pos suf payload
    | .removeEntry pos => n.removeEntry L pos
    | .pack leaf items shared => Node.pack L leaf items shared
    | .rebuild shared => n.rebuild L trivial shared

section Laid

variable {P : Type}

lemma le_alignUp (n : ℕ) {a : ℕ} (ha : 0 < a) : n ≤ alignUp n a := by
  have hdiv := Nat.div_add_mod (n + a - 1) a
  have hmod := Nat.mod_lt (n + a - 1) ha
  rw [alignUp, Nat.mul_comm]
  omega

lemma entrySize_pos (L : Layout) (leaf : Bool) (len : ℕ) : 0 < L.entrySize leaf len := by
  have hle := le_alignUp (L.payloadSize leaf + lenBytes + len) (Nat.lt_of_lt_of_le (by decide) L.align_ge)
  have hlen : lenBytes = 2 := rfl
  rw [Layout.entrySize]
  omega

def sample (slots : List ℕ) : List ℕ :=
  (List.range hintCount).map fun i => slotHead (slots.getD ((i + 1) * (slots.length / (hintCount + 1))) 0)

structure Placed (n : Node P) : Prop where
  capacity : n.capacity < 2 ^ 32
  floor : ∀ p ∈ n.heap, p.1 ≤ n.heapFloor
  slots : ∀ s ∈ n.slots, ∃ e, n.entry s = some e ∧ slotHead s = headOf e.suffix

structure Laid (n : Node P) : Prop extends Placed n where
  hints : hintMinCount ≤ n.count → n.hints = sample n.slots

lemma mem_of_lookup {α β : Type} [BEq α] [LawfulBEq α] {k : α} {v : β} {l : List (α × β)} (h : l.lookup k = some v) :
    (k, v) ∈ l := by
  obtain ⟨l₁, l₂, rfl, -⟩ := lookup_eq_some_iff.1 h
  simp

section Add

variable {n m : Node P} {off : ℕ} {suf : Bytes} {payload : P}

lemma Placed.entry_add (h : Placed n) (hoff : n.heapFloor < off) (hheap : m.heap = (off, .write payload suf) :: n.heap)
    {s : ℕ} (hs : s ∈ n.slots) : m.entry s = n.entry s := by
  obtain ⟨e, he, -⟩ := h.slots s hs
  have hle := h.floor _ (mem_of_lookup he)
  have hne : (slotOff s == off) = false := beq_eq_false_iff_ne.2 (by simp at hle; omega)
  rw [Node.entry, Node.entry, hheap, lookup_cons, hne]

lemma entry_added (hlt : off < 2 ^ 32) (hheap : m.heap = (off, .write payload suf) :: n.heap) :
    m.entry (slotOf (headOf suf) off) = some (.write payload suf) := by
  rw [Node.entry, slotOff_slotOf hlt, hheap, lookup_cons, beq_self_eq_true]

lemma Placed.add (h : Placed n) (hoff : n.heapFloor < off) (hlt : off < 2 ^ 32) (hsuf : suf.length ≤ maxKeyBytes)
    (hcap : m.capacity = n.capacity) (hheap : m.heap = (off, .write payload suf) :: n.heap)
    (hfloor : m.heapFloor = off % 2 ^ 32)
    (hslots : ∀ s ∈ m.slots, s = slotOf (headOf suf) off ∨ s ∈ n.slots) : Placed m := by
  refine ⟨hcap ▸ h.capacity, ?_, ?_⟩
  · intro p hp
    rw [hfloor, Nat.mod_eq_of_lt hlt]
    rw [hheap] at hp
    rcases mem_cons.1 hp with rfl | hp
    · exact le_rfl
    · exact (h.floor p hp).trans hoff.le
  · intro s hs
    rcases hslots s hs with rfl | hold
    · exact ⟨_, entry_added hlt hheap, by rw [slotHead_slotOf hlt, HeapEntry.suffix_write _ hsuf]⟩
    · rw [h.entry_add hoff hheap hold]
      exact h.slots s hold

end Add

lemma Placed.updateHints {n : Node P} (h : Placed n) : Laid n.updateHints := by
  rw [Node.updateHints]
  by_cases hc : n.count < hintMinCount
  · rw [if_pos hc]
    exact ⟨h, fun hge => absurd hc (not_lt.2 hge)⟩
  · rw [if_neg hc]
    exact ⟨⟨h.capacity, h.floor, h.slots⟩, fun _ => rfl⟩

section Steps

variable {L : Layout} {n : Node P} {leaf : Bool} {shared : ℕ}
variable {items : List (Item P)} {trivial : Bool}

lemma Laid.insertEntry (h : Laid n) {pos : ℕ} {suf : Bytes} (payload : P)
    (hsuf : n.shared.length + suf.length ≤ maxKeyBytes)
    (hroom : L.entrySize n.isLeaf suf.length + slotBytes ≤ n.freeBytes) : Laid (n.insertEntry L pos suf payload) := by
  have hpos := entrySize_pos L n.isLeaf suf.length
  have hcap := h.capacity
  have hoff : n.heapFloor + L.entrySize n.isLeaf suf.length < 2 ^ 32 := by
    rw [Node.freeBytes] at hroom
    omega
  have hlegal : suf.length ≤ maxKeyBytes := by omega
  apply Placed.updateHints
  refine @Placed.add P n _ _ suf _ h.toPlaced (Nat.lt_add_of_pos_right hpos) hoff hlegal rfl rfl rfl ?_
  intro s hs
  exact eq_or_mem_of_mem_insertIdx hs

lemma Laid.removeEntry (h : Laid n) (pos : ℕ) : Laid (n.removeEntry L pos) := by
  apply Placed.updateHints
  exact ⟨h.capacity, h.floor, fun s hs => h.slots s (mem_of_mem_eraseIdx hs)⟩

lemma Placed.foldl_packItem (h : Placed n) (items : List (Item P)) (hlegal : ∀ it ∈ items, it.key.length ≤ maxKeyBytes)
    (hfits : n.heapFloor + Node.heapBytes L n.isLeaf shared items < 2 ^ 32) :
    Placed (items.foldl (Node.packItem L shared) n) := by
  induction items generalizing n with
  | nil => exact h
  | cons it items ih =>
    have hpos := entrySize_pos L n.isLeaf (it.key.drop shared).length
    have hcut : (it.key.drop shared).length ≤ maxKeyBytes := by
      have := hlegal it mem_cons_self
      rw [length_drop]
      omega
    simp only [Node.heapBytes, map_cons, sum_cons, ← length_drop] at hfits
    have hoff : n.heapFloor + L.entrySize n.isLeaf (it.key.drop shared).length < 2 ^ 32 := by omega
    have hnext : Placed (Node.packItem L shared n it) := by
      refine @Placed.add P n _ _ _ _ h (Nat.lt_add_of_pos_right hpos) hoff hcut rfl rfl rfl ?_
      intro s hs
      rcases mem_append.1 hs with hs | hs
      · exact .inr hs
      · exact .inl (mem_singleton.1 hs)
    apply ih hnext (fun i hi => hlegal i (mem_cons_of_mem it hi))
    simp only [Node.packItem, Node.heapBytes, ← length_drop]
    omega

lemma Packable.heap_lt (h : Packable L leaf items shared) : Node.heapBytes L leaf shared items < 2 ^ 32 := by
  have hfits := h.fits
  have hle := le_alignUp (max nodeBytes (Node.packedSize L leaf shared items)) (show 0 < 16 by decide)
  have hmax := le_max_right nodeBytes (Node.packedSize L leaf shared items)
  rw [Node.packedSize] at hmax hle hfits
  omega

lemma placed_allocate (minCapacity : ℕ) (leaf : Bool) (pre : Bytes) : Placed (Node.allocate minCapacity leaf pre : Node P) :=
  ⟨Nat.mod_lt _ (by decide), fun _ h => (not_mem_nil h).elim, fun _ h => (not_mem_nil h).elim⟩

lemma Packable.laid (h : Packable L leaf items shared) : Laid (Node.pack L leaf items shared) := by
  apply Placed.updateHints
  apply (placed_allocate _ _ _).foldl_packItem items h.legal
  cases items with
  | nil => simp [Node.allocate, Node.heapBytes]
  | cons it items => simpa [Node.allocate] using h.heap_lt

lemma Laid.rebuild (h : Laid n) (trivial : Bool) (hp : Packable L n.isLeaf n.items shared) :
    Laid (n.rebuild L trivial shared) := by
  rw [Node.rebuild]
  split_ifs
  · exact ⟨⟨(@placed_allocate P _ n.isLeaf _).capacity, h.floor, h.slots⟩, h.hints⟩
  · exact ⟨⟨hp.laid.capacity, hp.laid.floor, hp.laid.slots⟩, hp.laid.hints⟩

lemma Laid.next (h : Laid n) (op : Op P) (he : op.Enabled L n) : Laid ((nodes L trivial).next n op) := by
  cases op with
  | insertEntry pos suf payload => exact h.insertEntry _ he.2.1 he.2.2
  | removeEntry pos => exact h.removeEntry pos
  | pack leaf items shared => exact Packable.laid he
  | rebuild shared => exact h.rebuild _ he

lemma laid_of_reachable (h : (nodes L trivial).Reachable n) : Laid n := by
  apply h.invariant
  · rintro _ ⟨leaf, items, shared, hp, rfl⟩
    exact hp.laid
  · intro n op hn he
    exact hn.next op he

end Steps

end Laid

end Bytecask.Tree
