import Bytecask.Blind.Transient
import Bytecask.Lib.Rank
import Bytecask.Tree.Crit

/-! A blind leaf: for each entry the bit that parts its key from the one before, a fingerprint, and where the
record with the key is. The keys themselves are read from the records. -/

namespace Bytecask.Tree

open Blind (BlindRef)

def indexSlots : ℕ := 15

structure LeafEntry where
  word : ℕ
  loc : ℕ
deriving DecidableEq

abbrev Arrays := List LeafEntry

def metaWord (critBit fp : ℕ) : ℕ := critBit <<< 12 % 2 ^ 32 ||| (fp &&& 0xFFF)

def locWord (fp : ℕ) (ref : BlindRef) : ℕ := ref.fileId <<< 44 % 2 ^ 64 ||| ref.offset <<< 12 ||| fp >>> 12

def refOf (l : ℕ) : BlindRef := ⟨(l >>> 44) % 2 ^ 32, (l >>> 12) % 2 ^ 32⟩

structure LeafPos where
  idx : ℕ := 0
  exact : Bool := false
  after : Bool := false
  j : ℕ := 0
deriving DecidableEq

structure IndexState where
  lo : ℕ → ℕ
  hi : ℕ → ℕ
  out : ℕ → ℕ

namespace Arrays

def entry (a : Arrays) (i : ℕ) : LeafEntry := a.getD i ⟨0, 0⟩

def critAt (a : Arrays) (i : ℕ) : ℕ := (a.entry i).word >>> 12

def keyAt (res : BlindRef → Bytes) (a : Arrays) (i : ℕ) : Bytes := res (refOf (a.entry i).loc)

def keys (res : BlindRef → Bytes) (a : Arrays) : List Bytes := a.map fun e => res (refOf e.loc)

def write (a : Arrays) (i critBit fp : ℕ) (ref : BlindRef) : Arrays := a.set i ⟨metaWord critBit fp, locWord fp ref⟩

def setCrit (a : Arrays) (i critBit : ℕ) : Arrays :=
  a.set i { a.entry i with word := critBit <<< 12 % 2 ^ 32 ||| ((a.entry i).word &&& 0xFFF) }

def openAt (a : Arrays) (i : ℕ) : Arrays := a.insertIdx i (a.entry i)

def root (a : Arrays) (lo hi : ℕ) : ℕ :=
  ((List.range' (lo + 2) (hi - (lo + 2))).foldl
    (fun (s : ℕ × ℕ) i => if a.critAt i < s.2 then (i, a.critAt i) else s) (lo + 1, a.critAt (lo + 1))).1

def indexStep (a : Arrays) (s : IndexState) (k : ℕ) : IndexState :=
  if s.hi k - s.lo k < 2 then { s with out := Function.update s.out k 0 }
  else
    let r := a.root (s.lo k) (s.hi k)
    let out := Function.update s.out k (r % 256)
    if 2 * k + 2 < indexSlots then
      { lo := Function.update (Function.update s.lo (2 * k + 1) (s.lo k)) (2 * k + 2) r
        hi := Function.update (Function.update s.hi (2 * k + 1) r) (2 * k + 2) (s.hi k)
        out := out }
    else { s with out := out }

def indexState (a : Arrays) (slots : ℕ) : IndexState :=
  (List.range slots).foldl a.indexStep ⟨fun _ => 0, Function.update (fun _ => 0) 0 a.length, fun _ => 0⟩

def computeIndex (a : Arrays) : List ℕ := (List.range indexSlots).map (a.indexState indexSlots).out

def descend (a : Arrays) (top : List ℕ) (q : Bytes) : ℕ → ℕ → ℕ → ℕ → ℕ × ℕ
  | 0, _, lo, hi => (lo, hi)
  | fuel + 1, k, lo, hi =>
    if k < indexSlots ∧ top.getD k 0 ≠ 0 then
      let r := top.getD k 0
      if bit q (a.critAt r) ≠ 0 then descend a top q fuel (2 * k + 2) r hi else descend a top q fuel (2 * k + 1) lo r
    else (lo, hi)

/-- One entry of the pass over a range: the entry reached, and the bit of the last left turn still in force. -/
def scanStep (a : Arrays) (q : Bytes) (s : ℕ × ℕ) (i : ℕ) : ℕ × ℕ :=
  let p := a.critAt i
  let bi := p >>> posShift
  let r := p &&& 15
  let byte := (q.getD (min bi (q.length - 1)) 0).val
  let enc := if bi < q.length then 0x100 ||| byte else 0
  let right := enc >>> (8 - r) &&& 1
  (if p < s.2 ∧ right ≠ 0 then i else s.1, if p < s.2 then p ||| (2 ^ 32 - right) % 2 ^ 32 else s.2)

def scan (a : Arrays) (q : Bytes) (lo hi : ℕ) : ℕ :=
  ((List.range' (lo + 1) (hi - (lo + 1))).foldl (a.scanStep q) (lo, noCrit)).1

def runLow (a : Arrays) (j : ℕ) : ℕ → ℕ
  | 0 => 0
  | i + 1 => if j < a.critAt (i + 1) then runLow a j i else i + 1

def runHigh (a : Arrays) (j : ℕ) : ℕ → ℕ → ℕ
  | 0, b => b
  | fuel + 1, b => if j < a.critAt b then runHigh a j fuel (b + 1) else b

def insertInto (a : Arrays) (p : LeafPos) (fpq : ℕ) (ref : BlindRef) : Arrays :=
  let opened := a.openAt p.idx
  if p.after then
    -- after the run: the next key differed from the run at a lower bit, which is also its bit against the new key
    opened.write p.idx p.j fpq ref
  else
    let inherited := if 0 < p.idx then opened.critAt (p.idx + 1) else 0
    let written := opened.write p.idx inherited fpq ref
    if p.idx + 1 ≤ a.length then written.setCrit (p.idx + 1) p.j else written

end Arrays

structure Leaf where
  arrays : Arrays
  top : List ℕ
  lastPos : ℕ
deriving DecidableEq

namespace Leaf

def candidate (n : Leaf) (q : Bytes) : ℕ :=
  let range := n.arrays.descend n.top q indexSlots 0 0 n.arrays.length
  n.arrays.scan q range.1 range.2

def position (res : BlindRef → Bytes) (n : Leaf) (q : Bytes) : LeafPos :=
  if n.arrays.length = 0 then {}
  else
    let c := n.candidate q
    let j := crit q (n.arrays.keyAt res c)
    if j = noCrit then { idx := c, exact := true }
    else
      let a := n.arrays.runLow j c
      let b := n.arrays.runHigh j (n.arrays.length - (c + 1)) (c + 1)
      if bit q j ≠ 0 then { idx := b, after := true, j := j } else { idx := a, j := j }

def buildIndex (n : Leaf) : Leaf := { n with top := n.arrays.computeIndex }

def removeAt (n : Leaf) (i : ℕ) : Leaf :=
  let arrays :=
    if 0 < i ∧ i + 1 < n.arrays.length then
      n.arrays.setCrit (i + 1) (min (n.arrays.critAt i) (n.arrays.critAt (i + 1)))
    else n.arrays
  buildIndex { n with arrays := arrays.eraseIdx i, lastPos := 0xFFFF }

end Leaf

end Bytecask.Tree
