import Bytecask.Lib.Machine
import Bytecask.Lib.SortedMap

/-! The patch map: a version is a base map and a chain of runs of patches, newest first. Runs are shared between
versions, so they stand in a heap that only grows, and a version names its newest run by its place there. -/

namespace Bytecask.PatchMap

structure Policy (ν δ : Type) where
  apply : ν → δ → ν
  combine : δ → δ → δ

def Policy.Lawful {ν δ : Type} (P : Policy ν δ) : Prop :=
  ∀ v d₁ d₂, P.apply v (P.combine d₁ d₂) = P.apply (P.apply v d₁) d₂

inductive Patch (ν δ : Type) where
  | set (v : ν)
  | erased
  | delta (d : δ)
deriving DecidableEq

abbrev Entry (κ ν δ : Type) := κ × Patch ν δ

variable {κ ν δ : Type} [LinearOrder κ] (P : Policy ν δ)

def fold : Patch ν δ → Patch ν δ → Patch ν δ
  | .set v, .delta d => .set (P.apply v d)
  | .delta od, .delta d => .delta (P.combine od d)
  | .erased, .delta _ => .erased
  | _, newer => newer

def lowerBound (entries : List (Entry κ ν δ)) (key : κ) : ℕ := (entries.takeWhile (fun e => e.1 < key)).length

def findPatch (entries : List (Entry κ ν δ)) (key : κ) : Option (Patch ν δ) :=
  entries[lowerBound entries key]?.bind (fun e => if e.1 = key then some e.2 else none)

structure Run (κ ν δ : Type) where
  entries : List (Entry κ ν δ)
  prev : Option ℕ

abbrev Heap (κ ν δ : Type) := List (Run κ ν δ)

/-- The runs from a place on, newest first. A run is older than those that name it, so the heap's length bounds the walk. -/
def chainFrom (heap : Heap κ ν δ) : (fuel : ℕ) → Option ℕ → List (List (Entry κ ν δ))
  | 0, _ => []
  | _ + 1, none => []
  | n + 1, some i =>
    match heap[i]? with
    | none => []
    | some r => r.entries :: chainFrom heap n r.prev

def chain (heap : Heap κ ν δ) (runs : Option ℕ) : List (List (Entry κ ν δ)) := chainFrom heap heap.length runs

def walk (key : κ) : List (List (Entry κ ν δ)) → List δ × Option (Patch ν δ)
  | [] => ([], none)
  | entries :: older =>
    match findPatch entries key with
    | none => walk key older
    | some (.delta d) => (d :: (walk key older).1, (walk key older).2)
    | some decided => ([], some decided)

def lookup (base : SortedMap κ ν) (layers : List (List (Entry κ ν δ))) (key : κ) : Option ν :=
  let (deltas, decided) := walk key layers
  let value :=
    match decided with
    | some (.set v) => some v
    | some _ => none
    | none => base.get key
  -- Applied oldest first.
  value.map (fun v => deltas.foldr (fun d v => P.apply v d) v)

def collectEntry (acc : List (Entry κ ν δ)) (e : Entry κ ν δ) : List (Entry κ ν δ) :=
  match acc with
  | [] => [e]
  | (key, patch) :: rest => if key = e.1 then (key, fold P patch e.2) :: rest else e :: acc

def collect (oldestFirst : List (List (Entry κ ν δ))) : List (Entry κ ν δ) :=
  ((oldestFirst.flatten.mergeSort (fun a b => a.1 ≤ b.1)).foldl (collectEntry P) []).reverse

def emitPatchOnly (e : Entry κ ν δ) : Option (κ × ν) :=
  match e.2 with
  | .set v => some (e.1, v)
  | _ => none

def emitPatched (key : κ) (v : ν) : Patch ν δ → List (κ × ν)
  | .set w => [(key, w)]
  | .delta d => [(key, P.apply v d)]
  | .erased => []

def mergeInto : List (κ × ν) → List (Entry κ ν δ) → List (κ × ν)
  | [], patches => patches.filterMap emitPatchOnly
  | (key, v) :: base, patches =>
    (patches.takeWhile (fun e => e.1 < key)).filterMap emitPatchOnly ++
      match patches.dropWhile (fun e => e.1 < key) with
      | [] => (key, v) :: mergeInto base []
      | e :: rest =>
        if e.1 = key then emitPatched P key v e.2 ++ mergeInto base rest
        else (key, v) :: mergeInto base (e :: rest)

structure Version (κ ν : Type) [LinearOrder κ] where
  base : SortedMap κ ν := SortedMap.empty
  runs : Option ℕ := none
  depth : ℕ := 0

structure Transient (κ ν δ : Type) [LinearOrder κ] extends Version κ ν where
  pending : List (Entry κ ν δ) := []
  last : ℕ := 0

namespace Version

def get (heap : Heap κ ν δ) (m : Version κ ν) (key : κ) : Option ν := lookup P m.base (chain heap m.runs) key

def all (heap : Heap κ ν δ) (m : Version κ ν) : List (κ × ν) :=
  mergeInto P m.base.entries (collect P (chain heap m.runs).reverse)

def transient (δ : Type) (m : Version κ ν) : Transient κ ν δ := { toVersion := m }

end Version

namespace Transient

def get (heap : Heap κ ν δ) (t : Transient κ ν δ) (key : κ) : Option ν := lookup P t.base (t.pending :: chain heap t.runs) key

def record (t : Transient κ ν δ) (key : κ) (p : Patch ν δ) : Transient κ ν δ :=
  let foldAt := fun i => t.pending.modify i (fun e => (e.1, fold P e.2 p))
  if t.pending[t.last]?.any (fun e => e.1 = key) then { t with pending := foldAt t.last }
  else
    let i := lowerBound t.pending key
    { t with
      pending := if t.pending[i]?.any (fun e => e.1 = key) then foldAt i else t.pending.insertIdx i (key, p)
      last := i }

def set (t : Transient κ ν δ) (key : κ) (v : ν) : Transient κ ν δ := t.record P key (.set v)

def erase (t : Transient κ ν δ) (key : κ) : Transient κ ν δ := t.record P key .erased

def patch (t : Transient κ ν δ) (key : κ) (d : δ) : Transient κ ν δ := t.record P key (.delta d)

end Transient

def replay (base : SortedMap κ ν) (e : Entry κ ν δ) : SortedMap κ ν :=
  match e.2 with
  | .set v => base.insert e.1 v
  | .delta d => base.adjust e.1 (fun v => P.apply v d)
  | .erased => base.erase e.1

/-- Freezes a transient: its patches become a run, or every run goes into the base when there are enough of them. -/
def Transient.persistent (maxDepth : ℕ) (heap : Heap κ ν δ) (t : Transient κ ν δ) : Heap κ ν δ × Version κ ν :=
  if t.pending = [] then (heap, t.toVersion)
  else if t.depth < maxDepth then
    (heap ++ [⟨t.pending, t.runs⟩], { base := t.base, runs := some heap.length, depth := t.depth + 1 })
  else (heap, { base := (((chain heap t.runs).reverse ++ [t.pending]).flatten).foldl (replay P) t.base })

/-- Versions and the transients being written, each beside the plain map that saw the same operations. -/
structure World (κ ν δ : Type) [LinearOrder κ] where
  heap : Heap κ ν δ := []
  versions : List (Version κ ν × SortedMap κ ν) := []
  transients : List (Option (Transient κ ν δ × SortedMap κ ν)) := []

inductive Action (κ ν δ : Type) [LinearOrder κ] where
  | wrap (base : SortedMap κ ν)
  | transient (i : ℕ)
  | set (j : ℕ) (key : κ) (v : ν)
  | erase (j : ℕ) (key : κ)
  | patch (j : ℕ) (key : κ) (d : δ)
  | persistent (j : ℕ)

namespace World

def draft (w : World κ ν δ) (j : ℕ) : Option (Transient κ ν δ × SortedMap κ ν) := w.transients[j]?.bind id

def write (w : World κ ν δ) (j : ℕ) (f : Transient κ ν δ → Transient κ ν δ) (g : SortedMap κ ν → SortedMap κ ν) : World κ ν δ :=
  { w with transients := w.transients.modify j (Option.map (fun d => (f d.1, g d.2))) }

def freeze (maxDepth : ℕ) (w : World κ ν δ) (j : ℕ) : World κ ν δ :=
  match w.draft j with
  | none => w
  | some (t, m) =>
    let (heap, v) := t.persistent P maxDepth w.heap
    { heap, versions := w.versions ++ [(v, m)], transients := w.transients.set j none }

end World

def machine (maxDepth : ℕ) : Machine (World κ ν δ) (Action κ ν δ) where
  initial w := w = {}
  Enabled _ _ := True
  next w
    | .wrap base => { w with versions := w.versions ++ [({ base }, base)] }
    | .transient i =>
      match w.versions[i]? with
      | none => w
      | some (v, m) => { w with transients := w.transients ++ [some (v.transient δ, m)] }
    | .set j key v => w.write j (fun t => t.set P key v) (fun m => m.insert key v)
    | .erase j key => w.write j (fun t => t.erase P key) (fun m => m.erase key)
    | .patch j key d => w.write j (fun t => t.patch P key d) (fun m => m.adjust key (fun v => P.apply v d))
    | .persistent j => w.freeze P maxDepth j

end Bytecask.PatchMap
