import Bytecask.Lib.Machine
import Bytecask.Sql.Count
import Bytecask.Sql.KeyCodec

/-! A SQL transaction: its statements add their effects to an overlay that cursors may pin, and its commit is one
plan built from the overlay. -/

namespace Bytecask

open List

namespace Sql

def nsCatalog : Byte := 1

def nsRow : Byte := 2

def nsIndex : Byte := 3

def subTable : Byte := 2

def tableRecordKey (id : ℕ) : Bytes := nsCatalog :: subTable :: bigEndian 4 id

def keyPutPrefix (ns : Byte) (id : ℕ) : Bytes := ns :: bigEndian 4 id

inductive TableOrIndex where
  | table (id : ℕ)
  | index (id : ℕ)

def TableOrIndex.pre : TableOrIndex → Bytes
  | .table id => keyPutPrefix nsRow id
  | .index id => keyPutPrefix nsIndex id

def resolveRange (object : TableOrIndex) (lo hi : Bytes) : Bytes × Bytes :=
  (if lo = [] then object.pre else lo, if hi = [] then keySuccessor object.pre else hi)

/-- The range that `bc_del_range` pushes: none where a bound is no key of the table, and none for an empty range. -/
def delRange (table : ℕ) (lo hi : Bytes) : Option (Bytes × Bytes) :=
  let pre := (TableOrIndex.table table).pre
  let r := resolveRange (.table table) lo hi
  if ¬ pre <+: r.1 ∨ (¬ pre <+: r.2 ∧ r.2 ≠ keySuccessor pre) then none
  else if r.1 < r.2 then some r
  else none

def Effect.Pushed : Effect → Prop
  | .delRange lo hi _ => ∃ table lo' hi', Sql.delRange table lo' hi' = some (lo, hi)
  | .put _ _ | .del _ | .guardUnchanged _ | .guardRange _ _ | .guardUniqueRange _ _ | .guardPresent _ | .guardAbsent _ => True

structure Cursor where
  object : TableOrIndex
  lo : Bytes
  hi : Bytes
  reverse : Bool

def scanOpen (object : TableOrIndex) (lo hi : Bytes) (underLo reverse : Bool) : Cursor :=
  let lo := if lo = [] then object.pre else lo
  ⟨object, lo, if underLo then keySuccessor lo else hi, reverse⟩

/-- The bounds that `cursor_advance` opens the entries of a cursor with, inside the keys of its table or index. -/
def Cursor.bounds (c : Cursor) : Bytes × Bytes :=
  let stop := keySuccessor c.object.pre
  (if c.lo < c.object.pre then c.object.pre else c.lo, if c.hi ≠ [] ∧ c.hi < stop then c.hi else stop)

section Bounds

lemma TableOrIndex.pre_ne_nil (object : TableOrIndex) : object.pre ≠ [] := by
  cases object <;> exact cons_ne_nil _ _

lemma TableOrIndex.successor_ne_nil (object : TableOrIndex) : keySuccessor object.pre ≠ [] := by
  have hcons : ∀ b : Byte, b ≠ 0xFF → ∀ bs, keySuccessor (b :: bs) ≠ [] := by
    intro b hb bs
    rw [keySuccessor_cons, if_pos hb]
    split_ifs <;> exact cons_ne_nil _ _
  cases object with
  | table => exact hcons nsRow (by decide) _
  | index => exact hcons _ (by decide) _

lemma delRange_ne_nil {table : ℕ} {lo hi lo' hi' : Bytes} (h : delRange table lo' hi' = some (lo, hi)) : lo ≠ [] := by
  rw [delRange] at h
  split_ifs at h with hout
  have hlo : (resolveRange (.table table) lo' hi').1 = lo := congrArg _ (Option.some.inj h)
  have hpre := not_not.1 (not_or.1 hout).1
  rw [hlo] at hpre
  rintro rfl
  exact TableOrIndex.pre_ne_nil _ (prefix_nil.1 hpre)

lemma Cursor.bounds_ne_nil (c : Cursor) : c.bounds.2 ≠ [] := by
  have hstop : c.bounds.2 = if c.hi ≠ [] ∧ c.hi < keySuccessor c.object.pre then c.hi else keySuccessor c.object.pre := rfl
  rw [hstop]
  split_ifs with hhi
  · exact hhi.1
  · exact c.object.successor_ne_nil

end Bounds

def pointOp (p : Bytes × Option Bytes) : WriteOp :=
  match p.2 with
  | some value => .pointPut p.1 value
  | none => .pointDel p.1

def Overlay.writes (o : Overlay) : List WriteOp :=
  o.ranges.bounds.entries.map (fun r => .rangeDel r.1 r.2) ++ o.points.entries.map pointOp

def guardCounts (e : Effect) (finalWrites : Overlay) : Bool :=
  match e with
  | .guardUniqueRange lo _ => finalWrites.putsUnder lo
  | _ => true

def addGuard (p : Plan) : Effect → Option Plan
  | .guardUnchanged key => p.ensure key .mustBeUnchanged
  | .guardRange lo hi => p.ensureRangeUnchanged lo hi
  | .guardUniqueRange lo hi => p.ensureRangeUnchanged lo hi
  | .guardPresent key => p.ensure key .mustExist
  | .guardAbsent key => p.ensure key .mustBeAbsent
  | .put _ _ | .del _ | .delRange _ _ _ => some p

/-- What holds an overlay beside its transaction: a pin reads the transaction's snapshot, a hold its own. -/
structure Reader where
  view : ℕ
  snap : Option Store
deriving DecidableEq

structure Txn where
  heap : SortedMap ℕ Overlay := SortedMap.empty.insert 0 {}
  nextAddress : ℕ := 1
  overlay : ℕ := 0
  snap : Option Store := none
  guards : List Effect := []
  written : List ℕ := []
  statements : ℕ := 0
  aborted : Bool := false
  done : Bool := false
  attached : Bool := false
  readers : SortedMap ℕ Reader := SortedMap.empty
  nextHandle : ℕ := 0

inductive CommitResult where
  | committed (s : Store)
  | conflict
  | failed

namespace Txn

def current (t : Txn) : Overlay := (t.heap.get t.overlay).getD {}

def useCount (t : Txn) (address : ℕ) : ℕ :=
  (if t.overlay = address then 1 else 0) + (t.readers.entries.filter (fun r => r.2.view = address)).length

def makeShared (t : Txn) (o : Overlay) : Txn :=
  { t with heap := t.heap.insert t.nextAddress o, overlay := t.nextAddress, nextAddress := t.nextAddress + 1 }

def ownOverlay (t : Txn) : Txn := if 1 < t.useCount t.overlay then t.makeShared t.current else t

def addEffect (t : Txn) (e : Effect) : Txn :=
  if e.isWrite then { t with heap := t.heap.adjust t.overlay (fun o => o.record e) } else { t with guards := t.guards ++ [e] }

def addTable (written : List ℕ) (id : ℕ) : List ℕ := if id ∈ written then written else written ++ [id]

def add (t : Txn) (effects : List Effect) (tables : List ℕ) : Txn :=
  let t := { t with written := tables.foldl addTable t.written }
  let t := if effects.any Effect.isWrite then t.ownOverlay else t
  let t := effects.foldl addEffect t
  { t with statements := t.statements + 1 }

def abort (t : Txn) : Txn :=
  { t.makeShared {} with aborted := true, attached := false, snap := none, guards := [], written := [] }

def pinSnapshot (t : Txn) (now : Store) : Txn := { t with snap := some (t.snap.getD now) }

def addReader (t : Txn) (r : Reader) : Txn :=
  { t with readers := t.readers.insert t.nextHandle r, nextHandle := t.nextHandle + 1 }

inductive Action where
  | begin (now : Store)
  | add (effects : List Effect) (tables : List ℕ)
  | detach
  | pin (now : Store)
  | hold (handle : ℕ)
  | release (handle : ℕ)
  | repin
  | abort
  | commit

def Running (t : Txn) : Prop := t.aborted = false ∧ t.done = false

instance (t : Txn) : Decidable t.Running := inferInstanceAs (Decidable (_ ∧ _))

def Enabled (t : Txn) : Action → Prop
  | .begin _ => t.Running ∧ t.attached = false
  | .add effects _ => t.Running ∧ t.attached = true ∧ ∀ e ∈ effects, e.Pushed
  | .detach => t.attached = true
  | .pin _ => t.Running ∧ t.attached = false
  | .hold handle => t.Running ∧ t.snap.isSome ∧ (t.readers.get handle).any (fun r => r.snap.isNone)
  | .release handle => (t.readers.get handle).isSome
  | .repin => t.Running ∧ t.attached = false ∧ t.statements = 0 ∧ t.readers.entries.all (fun r => r.2.snap.isSome)
  | .abort => t.done = false
  | .commit => t.Running ∧ t.attached = false

def step (t : Txn) : Action → Txn
  | .begin now => { t.pinSnapshot now with attached := true }
  | .add effects tables => t.add effects tables
  | .detach => { t with attached := false }
  | .pin now => (t.pinSnapshot now).addReader ⟨t.overlay, none⟩
  | .hold handle => ((t.readers.get handle).map (fun r => t.addReader ⟨r.view, t.snap⟩)).getD t
  | .release handle => { t with readers := t.readers.erase handle }
  | .repin => { t with snap := none }
  | .abort => t.abort
  | .commit => { t with done := true, snap := none }

def machine : Machine Txn Action where
  initial t := t = {}
  Enabled := Enabled
  next := step

def buildPlan (t : Txn) : Option Plan := do
  let plan : Plan := { snap := t.snap, writes := t.current.writes }
  let plan ← (t.guards.filter (fun g => guardCounts g t.current)).foldlM addGuard plan
  t.written.foldlM (fun plan id => plan.ensure (tableRecordKey id) .mustBeUnchanged) plan

def commit (t : Txn) (s : Store) : CommitResult :=
  if t.current.empty && !t.guards.any (fun g => guardCounts g t.current) then .committed s
  else
    match t.buildPlan with
    | none => .failed
    | some plan =>
      match s.commit plan with
      | none => .conflict
      | some s' => .committed s'

end Txn

section Writes

variable {ps : List (Bytes × Option Bytes)} {k : Bytes}

lemma foldl_rangeDels (rs : List (Bytes × Bytes)) (k : Bytes) (v : Option Bytes) :
    (rs.map (fun r => WriteOp.rangeDel r.1 r.2)).foldl (fun v op => op.leaves k v) v =
      if ∃ r ∈ rs, r.1 ≤ k ∧ k < r.2 then none else v := by
  induction rs generalizing v with
  | nil => simp
  | cons r rs ih =>
    rw [map_cons, foldl_cons, ih, WriteOp.leaves]
    simp only [exists_mem_cons_iff]
    by_cases hr : r.1 ≤ k ∧ k < r.2
    · simp [hr]
    · simp only [hr, if_false, false_or]

lemma pointOp_leaves (p : Bytes × Option Bytes) (k : Bytes) (v : Option Bytes) :
    (pointOp p).leaves k v = if k = p.1 then p.2 else v := by
  obtain ⟨key, _ | value⟩ := p <;> rfl

lemma foldl_points_of_not_mem (h : ∀ w, (k, w) ∉ ps) (v : Option Bytes) :
    (ps.map pointOp).foldl (fun v op => op.leaves k v) v = v := by
  induction ps with
  | nil => rfl
  | cons p ps ih =>
    have hk : k ≠ p.1 := fun hk => h p.2 (by rw [hk]; exact mem_cons_self)
    rw [map_cons, foldl_cons, pointOp_leaves, if_neg hk]
    exact ih fun w hw => h w (mem_cons_of_mem p hw)

lemma foldl_points_of_mem (hps : ps.Pairwise (fun a b => a.1 < b.1))
    {w : Option Bytes} (h : (k, w) ∈ ps) (v : Option Bytes) : (ps.map pointOp).foldl (fun v op => op.leaves k v) v = w := by
  induction ps generalizing v with
  | nil => cases h
  | cons p ps ih =>
    obtain ⟨hp, hps⟩ := pairwise_cons.1 hps
    rw [map_cons, foldl_cons, pointOp_leaves]
    rcases mem_cons.1 h with rfl | h
    · rw [if_pos rfl]
      exact foldl_points_of_not_mem (fun w' hw' => (hp _ hw').ne rfl) w
    · exact ih hps h _

lemma Overlay.foldl_writes (o : Overlay) (k : Bytes) (v : Option Bytes) :
    o.writes.foldl (fun v op => op.leaves k v) v = (o.find k).getD v := by
  rw [Overlay.writes, foldl_append, foldl_rangeDels, Overlay.find]
  cases hp : o.points.get k with
  | some w => exact foldl_points_of_mem o.points.sorted (SortedMap.get_eq_some.1 hp) _
  | none =>
    rw [foldl_points_of_not_mem (SortedMap.get_eq_none.1 hp)]
    have hcov : (∃ r ∈ o.ranges.bounds.entries, r.1 ≤ k ∧ k < r.2) ↔ o.covered k = true := Overlay.covered_iff.symm
    simp only [hcov]
    split_ifs <;> rfl

lemma Overlay.find_of_touches {o : Overlay} {op : WriteOp} (hop : op ∈ o.writes) (hk : op.Touches k) :
    (o.find k).isSome = true := by
  rw [Overlay.find]
  cases hp : o.points.get k with
  | some w => rfl
  | none =>
    rw [Overlay.writes, mem_append, mem_map, mem_map] at hop
    rcases hop with ⟨r, hr, rfl⟩ | ⟨⟨key, w⟩, hr, rfl⟩
    · have hc : o.covered k = true := Overlay.covered_iff.2 ⟨r, hr, hk⟩
      simp [hc]
    · have hkey : k = key := by cases w <;> exact hk
      rw [hkey, SortedMap.get_eq_some.2 hr] at hp
      cases hp

end Writes

namespace Txn

section Plan

variable {t : Txn} {p q : Plan}

lemma ensureRange_keeps {lo hi : Bytes} (h : p.ensureRangeUnchanged lo hi = some q) : q.writes = p.writes ∧ q.snap = p.snap := by
  rw [Plan.ensureRangeUnchanged] at h
  split_ifs at h
  cases h
  exact ⟨rfl, rfl⟩

lemma addGuard_keeps {e : Effect} (h : addGuard p e = some q) : q.writes = p.writes ∧ q.snap = p.snap := by
  cases e with
  | put | del | delRange =>
    cases h
    exact ⟨rfl, rfl⟩
  | guardUnchanged | guardPresent | guardAbsent => exact Plan.ensure_keeps h
  | guardRange | guardUniqueRange => exact ensureRange_keeps h

lemma foldlM_keeps {α : Type} {f : Plan → α → Option Plan} (hf : ∀ p a q, f p a = some q → q.writes = p.writes ∧ q.snap = p.snap)
    (l : List α) {p q : Plan} (h : l.foldlM f p = some q) : q.writes = p.writes ∧ q.snap = p.snap := by
  induction l generalizing p with
  | nil =>
    cases h
    exact ⟨rfl, rfl⟩
  | cons a l ih =>
    obtain ⟨p', hp', hrest⟩ := Option.bind_eq_some_iff.1 h
    obtain ⟨hw, hs⟩ := ih hrest
    obtain ⟨hw', hs'⟩ := hf _ _ _ hp'
    exact ⟨hw.trans hw', hs.trans hs'⟩

lemma buildPlan_keeps (h : t.buildPlan = some p) : p.writes = t.current.writes ∧ p.snap = t.snap := by
  obtain ⟨p₁, h₁, h₂⟩ := Option.bind_eq_some_iff.1 h
  obtain ⟨hw, hs⟩ := foldlM_keeps (fun _ _ _ h => addGuard_keeps h) _ h₁
  obtain ⟨hw', hs'⟩ := foldlM_keeps (fun _ _ _ h => Plan.ensure_keeps h) _ h₂
  exact ⟨hw'.trans hw, hs'.trans hs⟩

lemma get_of_committed {s s' : Store} (h : t.commit s = .committed s') {op : WriteOp} {k : Bytes} (hop : op ∈ t.current.writes)
    (hk : op.Touches k) (m : SortedMap Bytes Bytes) : s'.get k = t.current.atop m k := by
  have hfind := Overlay.find_of_touches hop hk
  rw [commit] at h
  split_ifs at h with hempty
  · have hnone : t.current.empty = true := (Bool.and_eq_true_iff.1 hempty).1
    obtain ⟨hp, hr⟩ := Bool.and_eq_true_iff.1 hnone
    rw [Overlay.writes, List.isEmpty_iff.1 hp, List.isEmpty_iff.1 hr] at hop
    cases hop
  · cases hplan : t.buildPlan with
    | none =>
      rw [hplan] at h
      cases h
    | some plan =>
      rw [hplan] at h
      cases hc : s.commit plan with
      | none =>
        simp only [hc] at h
        cases h
      | some s₁ =>
        simp only [hc] at h
        cases h
        obtain ⟨-, rfl⟩ := Store.commit_eq_some.1 hc
        rw [Store.get_apply, (buildPlan_keeps hplan).1, Overlay.foldl_writes, Overlay.atop]
        obtain ⟨v, hv⟩ := Option.isSome_iff_exists.1 hfind
        rw [hv]
        rfl

end Plan

end Txn

end Sql

end Bytecask
