import Bytecask.Lib.Fallible
import Bytecask.Lib.Overlaid
import Bytecask.Sql.Overlay

/-! What a statement reads: its snapshot with the overlay of its transaction over it. -/

namespace Bytecask.Sql

inductive ReadError where
  | budget
  | canceled
  | emptyRange
  | unfinished
deriving DecidableEq

/-- The budget of an execution; `canceled n` is whether the check at the `n`th read finds it canceled or out of time. -/
structure Budget where
  maxReads : ℕ := 0
  canceled : ℕ → Bool := fun _ => false

abbrev Read := EStateM ReadError ℕ

def Budget.charge (b : Budget) (units : ℕ) : Read Unit := do
  let before ← get
  let reads := before + units
  set reads
  if b.maxReads ≠ 0 ∧ b.maxReads < reads then throw .budget
  if before / 64 ≠ reads / 64 ∧ b.canceled reads then throw .canceled

def iterFrom (m : SortedMap Bytes Bytes) (at' : Bytes) : List (Bytes × Bytes) := m.entries.dropWhile (fun e => e.1 < at')

def riterFrom (m : SortedMap Bytes Bytes) (at' : Bytes) : List (Bytes × Bytes) :=
  if at' = [] then m.entries.reverse else m.entries.reverse.dropWhile (fun e => at' < e.1)

def countKeys (m : SortedMap Bytes Bytes) (lo hi : Bytes) : Read ℕ :=
  if lo < hi then pure (m.range lo hi).length else throw .emptyRange

structure ViewEntries where
  snap : SortedMap Bytes Bytes
  overlay : Option Overlay
  lo : Bytes
  hi : Bytes
  reverse : Bool

structure Position where
  iter : Option (List (Bytes × Bytes)) := none
  point : List (Bytes × Option Bytes) := []
  started : Bool := false
  snapLive : Bool := false
  pointLive : Bool := false
  snapPending : Bool := false
  pointPending : Bool := false

namespace ViewEntries

def new (snap : SortedMap Bytes Bytes) (overlay : Option Overlay) (lo hi : Bytes) (reverse : Bool) : ViewEntries :=
  ⟨snap, overlay.filter (fun o => !o.empty), lo, hi, reverse⟩

def rangeAt (v : ViewEntries) (k : Bytes) : Option (Bytes × Bytes) := v.overlay.bind (fun o => o.rangeAt k)

def points (v : ViewEntries) : List (Bytes × Option Bytes) := (v.overlay.map (fun o => o.points.entries)).getD []

def start (v : ViewEntries) : Bytes := if v.reverse then v.hi else v.lo

def pastEnd (v : ViewEntries) (k : Bytes) : Bool := if v.reverse then k < v.lo else !(k < v.hi)

def snapSeek (v : ViewEntries) (b : Budget) (at' : Bytes) : Read (List (Bytes × Bytes)) :=
  if v.reverse then
    match riterFrom v.snap at' with
    | [] => pure []
    | e :: rest =>
      if e.1 = at' then do
        b.charge 1
        pure rest
      else pure (e :: rest)
  else pure (iterFrom v.snap at')

def snapLoop (v : ViewEntries) (b : Budget) : ℕ → List (Bytes × Bytes) → Read (List (Bytes × Bytes) × Bool)
  | 0, _ => throw .unfinished
  | _ + 1, [] => pure ([], false)
  | n + 1, e :: rest => do
    b.charge 1
    if v.pastEnd e.1 then pure (e :: rest, false)
    else
      match v.rangeAt e.1 with
      | none => pure (e :: rest, true)
      | some r => do
        let it ← v.snapSeek b (if v.reverse then r.1 else r.2)
        v.snapLoop b n it

def snapStep (v : ViewEntries) (b : Budget) (rounds : ℕ) (pos : Position) : Read Position := do
  let it ← match pos.iter with
    | none => v.snapSeek b v.start
    | some l => pure l.tail
  let (l, live) ← v.snapLoop b rounds it
  pure { pos with iter := some l, snapLive := live }

def pointStep (v : ViewEntries) (b : Budget) (pos : Position) : Read Position := do
  let point :=
    if pos.started then pos.point.tail
    else if v.reverse then v.points.reverse.dropWhile (fun p => v.hi ≤ p.1)
    else v.points.dropWhile (fun p => p.1 < v.lo)
  let live := point.head?.any (fun p => !v.pastEnd p.1)
  if live then b.charge 1
  pure { pos with point, pointLive := live }

def nextLoop (v : ViewEntries) (b : Budget) (rounds : ℕ) : ℕ → Position → Read (Option (Bytes × Bytes) × Position)
  | 0, _ => throw .unfinished
  | n + 1, pos =>
    match (if pos.pointLive then pos.point.head? else none), (if pos.snapLive then pos.iter.bind List.head? else none) with
    | none, none => pure (none, pos)
    | none, some e => pure (some e, { pos with snapPending := true })
    | some p, e =>
      let tie := e.any (fun e => p.1 = e.1)
      let pointFirst := e.all (fun e => Before v.reverse p.1 e.1)
      if tie || pointFirst then do
        let pos ← if tie then v.snapStep b rounds pos else pure pos
        match p.2 with
        | some value => pure (some (p.1, value), { pos with pointPending := true })
        | none => do
          let pos ← v.pointStep b pos
          v.nextLoop b rounds n pos
      else pure (e, { pos with snapPending := true })

def open' (v : ViewEntries) (b : Budget) (rounds : ℕ) (pos : Position) : Read Position := do
  let pos ← v.snapStep b rounds pos
  let pos ← if v.overlay.isSome then v.pointStep b pos else pure pos
  pure { pos with started := true }

def stepPending (v : ViewEntries) (b : Budget) (rounds : ℕ) (pos : Position) : Read Position := do
  let pos ← if pos.snapPending then v.snapStep b rounds pos else pure pos
  if pos.pointPending then v.pointStep b pos else pure pos

def next (v : ViewEntries) (b : Budget) (rounds : ℕ) (pos : Position) : Read (Option (Bytes × Bytes) × Position) := do
  let pos ← if pos.started then v.stepPending b rounds pos else v.open' b rounds pos
  v.nextLoop b rounds rounds { pos with snapPending := false, pointPending := false }

def calls (v : ViewEntries) (b : Budget) (rounds : ℕ) : ℕ → Position → Read (List (Bytes × Bytes))
  | 0, _ => pure []
  | n + 1, pos => do
    match ← v.next b rounds pos with
    | (none, _) => pure []
    | (some e, pos) => do
      let es ← v.calls b rounds n pos
      pure (e :: es)

end ViewEntries

def viewGet (snap : SortedMap Bytes Bytes) (overlay : Option Overlay) (key : Bytes) : Option Bytes :=
  match overlay.bind (fun o => o.find key) with
  | some hit => hit
  | none => snap.get key

def viewContains (snap : SortedMap Bytes Bytes) (overlay : Option Overlay) (key : Bytes) : Bool :=
  match overlay.bind (fun o => o.find key) with
  | some hit => hit.isSome
  | none => (snap.get key).isSome

def countedRanges (o : Overlay) (lo hi : Bytes) : List (Bytes × Bytes) :=
  ((o.rangeAt lo).toList ++ o.ranges.after lo).takeWhile (fun r => r.1 < hi)

def viewCount (snap : SortedMap Bytes Bytes) (o : Overlay) (b : Budget) (lo hi : Bytes) (limit : ℕ) : Read ℕ := do
  let n ← countKeys snap lo hi
  let n ← (countedRanges o lo hi).foldlM (fun (n : ℤ) r => do
    let a := max r.1 lo
    let z := min r.2 hi
    if !(a < z) then pure n
    else do
      b.charge 2
      let c ← countKeys snap a z
      pure (n - c)) (n : ℤ)
  let n ← (o.points.range lo hi).foldlM (fun (n : ℤ) p => do
    b.charge 1
    let inView := p.2.isSome
    let inSnapshot := !o.covered p.1 && (snap.get p.1).isSome
    pure (if inView && !inSnapshot then n + 1 else if !inView && inSnapshot then n - 1 else n)) n
  pure (min n.toNat limit)

def countRange (snap : SortedMap Bytes Bytes) (overlay : Option Overlay) (b : Budget) (lo hi : Bytes) (limit : ℕ) : Read ℕ := do
  b.charge 2
  if !(lo < hi) then pure 0
  else
    match overlay.filter (fun o => o.meets lo hi) with
    | none => do
      let n ← countKeys snap lo hi
      pure (min n limit)
    | some o => viewCount snap o b lo hi limit

end Bytecask.Sql
