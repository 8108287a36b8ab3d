import Bytecask.Lib.Overlaid
import Bytecask.MariaDb.Keys
import Bytecask.Store

/-! `MariaDBTxn`: a transaction of the plugin buffers its writes over a snapshot and commits them as one plan. -/

namespace Bytecask.MariaDb

open List

inductive Op where
  | put (key val : Bytes) (guardAbsent : Bool)
  | del (key : Bytes)
deriving DecidableEq

def Op.key : Op → Bytes
  | .put key _ _ => key
  | .del key => key

def Op.value : Op → Option Bytes
  | .put _ val _ => some val
  | .del _ => none

inductive Probe where
  | absent
  | present
  | failed
deriving DecidableEq

inductive ErrKey where
  | primary
  | index (id : ℕ)
deriving DecidableEq

inductive HaError where
  | generic
  | foundDuppKey (errkey : Option ErrKey)
  | lockDeadlock
  | internalError
deriving DecidableEq

structure Server where
  store : Store := {}
  rowids : ℕ → ℕ := fun _ => 0
  rowCounts : ℕ → ℤ := fun _ => 0

structure MariaDBTxn where
  snap : Option Store := none
  ops : List Op := []
  lookup : SortedMap Bytes (Option Bytes) := SortedMap.empty
  rowCountDeltas : SortedMap ℕ ℤ := SortedMap.empty
  stmtOpsMark : ℕ := 0
  stmtRowCountDeltas : SortedMap ℕ ℤ := SortedMap.empty
  deferredInsert : Option ℕ := none
  registeredStmt : Bool := false
  registeredAll : Bool := false

structure MergeIterator where
  reverse : Bool
  bound : Bytes
  belongs : Bytes → Bool
  snap : List (Bytes × Bytes)
  buf : List (Bytes × Option Bytes)

namespace MergeIterator

def accepts (it : MergeIterator) (k : Bytes) : Bool := it.belongs k && (it.reverse || it.bound.isEmpty || decide (k < it.bound))

/-- `load_snap_current`: a key outside the walk's space ends the snapshot's side. -/
def snapCurrent (it : MergeIterator) : Option (Bytes × Bytes) := it.snap.head?.filter (fun e => it.accepts e.1)

def snapStep (it : MergeIterator) : MergeIterator := { it with snap := it.snap.tail }

def emitSnap (it : MergeIterator) : Option ((Bytes × Bytes) × MergeIterator) := it.snapCurrent.map (fun e => (e, it.snapStep))

def advanceLoop (it : MergeIterator) : List (Bytes × Option Bytes) → Option ((Bytes × Bytes) × MergeIterator)
  | [] => { it with buf := [] }.emitSnap
  | (k, v) :: buf =>
    if it.accepts k = false then { it with buf := (k, v) :: buf }.emitSnap
    else
      match it.snapCurrent with
      | none => v.elim (it.advanceLoop buf) (fun v => some ((k, v), { it with buf := buf }))
      | some e =>
        if k = e.1 then v.elim (it.snapStep.advanceLoop buf) (fun v => some ((k, v), { it.snapStep with buf := buf }))
        else if Before it.reverse k e.1 then v.elim (it.advanceLoop buf) (fun v => some ((k, v), { it with buf := buf }))
        else { it with buf := (k, v) :: buf }.emitSnap

def advance (it : MergeIterator) : Option ((Bytes × Bytes) × MergeIterator) := it.advanceLoop it.buf

end MergeIterator

/-- Where the buffer's side of a walk begins; `reverse_buffer_start` for a reverse one. -/
def seekFrom {ν : Type} (m : SortedMap Bytes ν) (reverse : Bool) (start : Bytes) : List (Bytes × ν) :=
  if reverse then (m.entries.filter (fun e => e.1 ≤ start)).reverse else m.entries.filter (fun e => start ≤ e.1)

namespace MariaDBTxn

/-- `begin_if_needed`; `multi` is a session outside autocommit or inside BEGIN. -/
def beginIfNeeded (t : MariaDBTxn) (s : Store) (multi : Bool) : MariaDBTxn :=
  let t := if multi then { t with snap := some (t.snap.getD s), registeredAll := true } else t
  if t.registeredStmt then t
  else { t with registeredStmt := true, stmtOpsMark := t.ops.length, stmtRowCountDeltas := t.rowCountDeltas }

def ensureSnapshot (t : MariaDBTxn) (s : Store) : MariaDBTxn :=
  if t.snap.isNone && t.deferredInsert.isNone then { t with snap := some s } else t

def buffer (t : MariaDBTxn) (op : Op) : MariaDBTxn := { t with lookup := t.lookup.insert op.key op.value, ops := t.ops ++ [op] }

def bufferPut (t : MariaDBTxn) (s : Store) (key val : Bytes) (guardAbsent : Bool) : MariaDBTxn :=
  (t.ensureSnapshot s).buffer (.put key val guardAbsent)

def bufferDel (t : MariaDBTxn) (s : Store) (key : Bytes) : MariaDBTxn := (t.ensureSnapshot s).buffer (.del key)

def bufferedKeyPresent (t : MariaDBTxn) (key : Bytes) : Bool := ((t.lookup.get key).map Option.isSome).getD false

def hasState (t : MariaDBTxn) : Bool := t.snap.isSome || !t.ops.isEmpty

def beginDeferredInsert (t : MariaDBTxn) (tableId : ℕ) : MariaDBTxn := { t with deferredInsert := some tableId }

def get (t : MariaDBTxn) (s : Store) (key : Bytes) : Option Bytes × MariaDBTxn :=
  match t.lookup.get key with
  | some v => (v, t)
  | none => (((t.ensureSnapshot s).snap.getD s).get key, t.ensureSnapshot s)

def keyExists (t : MariaDBTxn) (s : Store) (fails : Bool) (key : Bytes) : Probe × MariaDBTxn :=
  match t.lookup.get key with
  | some v => (if v.isSome then .present else .absent, t)
  | none =>
    let t := t.ensureSnapshot s
    (if fails then .failed else if ((t.snap.getD s).get key).isSome then .present else .absent, t)

def pinSnapshot (t : MariaDBTxn) (s : Store) : MariaDBTxn := { t with snap := some (t.snap.getD s) }

/-- Where an iterator of the engine begins; a reverse one takes an empty key for the last. -/
def engineFrom {ν : Type} (m : SortedMap Bytes ν) (reverse : Bool) (start : Bytes) : List (Bytes × ν) :=
  if reverse && start.isEmpty then m.entries.reverse else seekFrom m reverse start

def mergeFrom (t : MariaDBTxn) (s : Store) (reverse keysOnly : Bool) (start bound : Bytes) (belongs : Bytes → Bool) : MergeIterator where
  reverse := reverse
  bound := bound
  belongs := belongs
  snap := engineFrom ((t.snap.getD s).entries.map (fun r => if keysOnly then [] else r.value)) reverse start
  buf := seekFrom t.lookup reverse start

def iterPrefix (t : MariaDBTxn) (s : Store) (lo hi : Bytes) (tableId : ℕ) : MergeIterator :=
  t.mergeFrom s false false lo hi (fun k => keyBelongsToTable k tableId)

def riterPrefix (t : MariaDBTxn) (s : Store) (hi lo : Bytes) (tableId : ℕ) : MergeIterator :=
  t.mergeFrom s true false hi lo (fun k => keyBelongsToTable k tableId)

def iterIndexPrefix (t : MariaDBTxn) (s : Store) (lo hi : Bytes) (tableId indexId : ℕ) : MergeIterator :=
  t.mergeFrom s false true lo hi (fun k => keyBelongsToIndex k tableId indexId)

def riterIndexPrefix (t : MariaDBTxn) (s : Store) (hi lo : Bytes) (tableId indexId : ℕ) : MergeIterator :=
  t.mergeFrom s true true hi lo (fun k => keyBelongsToIndex k tableId indexId)

def indexPrefixExists (t : MariaDBTxn) (s : Store) (fails : Bool) (start hi : Bytes) (tableId indexId : ℕ) :
    Probe × Bytes × MariaDBTxn :=
  let t := t.pinSnapshot s
  if fails then (.failed, [], t)
  else
    match (t.iterIndexPrefix s start hi tableId indexId).advance with
    | none => (.absent, [], t)
    | some ((key, _), _) => if key.take start.length = start then (.present, key, t) else (.absent, [], t)

def lookupOf (ops : List Op) : SortedMap Bytes (Option Bytes) := ops.foldl (fun m op => m.insert op.key op.value) SortedMap.empty

def truncateOps (t : MariaDBTxn) (mark : ℕ) : MariaDBTxn :=
  { t with ops := t.ops.take mark, lookup := lookupOf (t.ops.take mark) }

def undoRowCount (saved : SortedMap ℕ ℤ) (counts : ℕ → ℤ) (e : ℕ × ℤ) : ℕ → ℤ :=
  Function.update counts e.1 (counts e.1 - (e.2 - (saved.get e.1).getD 0))

def restoreRowCountDeltas (t : MariaDBTxn) (g : Server) (saved : SortedMap ℕ ℤ) : Server × MariaDBTxn :=
  ({ g with rowCounts := t.rowCountDeltas.entries.foldl (undoRowCount saved) g.rowCounts }, { t with rowCountDeltas := saved })

def trackRowCountDelta (t : MariaDBTxn) (g : Server) (tableId : ℕ) (delta : ℤ) : Server × MariaDBTxn :=
  ({ g with rowCounts := Function.update g.rowCounts tableId (g.rowCounts tableId + delta) },
    { t with rowCountDeltas := t.rowCountDeltas.insert tableId ((t.rowCountDeltas.get tableId).getD 0 + delta) })

def addOp (p : Plan) : Op → Option Plan
  | .put key val guardAbsent =>
    (if guardAbsent then p.ensure key .mustBeAbsent else some p).map
      (fun p => { p with writes := p.writes ++ [.pointPut key val] })
  | .del key => some { p with writes := p.writes ++ [.pointDel key] }

def buildPlan (t : MariaDBTxn) : Option Plan := t.ops.foldlM addOp { snap := t.snap }

def guardedKey : Op → Option Bytes
  | .put key _ true => some key
  | _ => none

def reportDeferredDupKey (t : MariaDBTxn) (s : Store) (fails : Bytes → Bool) : HaError :=
  let guarded := t.ops.filterMap guardedKey
  match guarded.find? (fun k => !fails k && (s.get k).isSome) with
  | some dup => .foundDuppKey (if t.deferredInsert.any (keyBelongsToTable dup) then some .primary else none)
  | none => if guarded.any fails then .generic else .foundDuppKey none

def conflictError (t : MariaDBTxn) (s : Store) (fails : Bytes → Bool) : HaError :=
  if t.deferredInsert.isSome then t.reportDeferredDupKey s fails else .lockDeadlock

def abandon (t : MariaDBTxn) (g : Server) : Server × MariaDBTxn := ((t.restoreRowCountDeltas g SortedMap.empty).1, {})

def commit (t : MariaDBTxn) (g : Server) (all throws : Bool) (fails : Bytes → Bool) : Option HaError × Server × MariaDBTxn :=
  if !all && t.registeredAll then (none, g, { t with registeredStmt := false })
  else if t.ops.isEmpty then (none, g, {})
  else if throws then (some .internalError, t.abandon g)
  else
    match t.buildPlan with
    | none => (some .internalError, t.abandon g)
    | some plan =>
      match g.store.commit plan with
      | some store => (none, { g with store := store }, {})
      | none => (some (t.conflictError g.store fails), t.abandon g)

def rollback (t : MariaDBTxn) (g : Server) (all : Bool) : Server × MariaDBTxn :=
  if !all && t.registeredAll then
    let (g, t) := t.restoreRowCountDeltas g t.stmtRowCountDeltas
    (g, { t.truncateOps t.stmtOpsMark with deferredInsert := none, registeredStmt := false })
  else t.abandon g

def view (t : MariaDBTxn) (s : Store) (k : Bytes) : Option Bytes := (t.lookup.get k).getD ((t.snap.getD s).get k)

/-- A key that the snapshot or the buffer has an entry for. -/
def Holds (t : MariaDBTxn) (s : Store) (k : Bytes) : Prop := (t.lookup.get k).isSome = true ∨ ((t.snap.getD s).get k).isSome = true

end MariaDBTxn

section Merge

namespace MergeIterator

variable {it : MergeIterator}

def rest (it : MergeIterator) : List (Bytes × Bytes) :=
  overlaid it.reverse (it.snap.takeWhile (fun e => it.accepts e.1)) (it.buf.takeWhile (fun e => it.accepts e.1))

lemma takeWhile_of_current_none (h : it.snapCurrent = none) : it.snap.takeWhile (fun e => it.accepts e.1) = [] := by
  rw [snapCurrent] at h
  cases hs : it.snap with
  | nil => rfl
  | cons e snap =>
    rw [hs, List.head?_cons, Option.filter_eq_none_iff] at h
    exact takeWhile_cons_of_neg (h e rfl)

lemma takeWhile_of_current_some {e : Bytes × Bytes} (h : it.snapCurrent = some e) :
    it.snap.takeWhile (fun e => it.accepts e.1) = e :: it.snapStep.snap.takeWhile (fun e => it.accepts e.1) := by
  rw [snapCurrent] at h
  cases hs : it.snap with
  | nil =>
    rw [hs] at h
    cases h
  | cons e' snap =>
    rw [hs, List.head?_cons, Option.filter_eq_some_iff] at h
    obtain ⟨he, hacc⟩ := h
    cases he
    rw [snapStep, hs]
    exact takeWhile_cons_of_pos hacc

def Delivers (before : List (Bytes × Bytes)) : Option ((Bytes × Bytes) × MergeIterator) → Prop
  | none => before = []
  | some (e, it) => before = e :: it.rest

lemma emitSnap_delivers (h : it.buf.takeWhile (fun e => it.accepts e.1) = []) : Delivers it.rest it.emitSnap := by
  rw [emitSnap, rest, h]
  cases hc : it.snapCurrent with
  | none =>
    rw [takeWhile_of_current_none hc]
    simp [Delivers, overlaid]
  | some e =>
    rw [takeWhile_of_current_some hc]
    have hrest : it.snapStep.rest = it.snapStep.snap.takeWhile (fun e => it.accepts e.1) := by
      have hbuf : it.snapStep.buf.takeWhile (fun e => it.snapStep.accepts e.1) = [] := h
      rw [rest, hbuf, overlaid]
      rfl
    simp only [Option.map_some, Delivers, hrest, overlaid]

lemma elim_delivers {k : Bytes} {v : Option Bytes} {l : List (Bytes × Bytes)} {next : Option ((Bytes × Bytes) × MergeIterator)}
    (hit : it.rest = l) (hnext : Delivers l next) : Delivers (shown (k, v) ++ l) (v.elim next (fun v => some ((k, v), it))) := by
  cases v with
  | none => exact hnext
  | some v => exact hit ▸ rfl

lemma advanceLoop_delivers (it : MergeIterator) (buf : List (Bytes × Option Bytes)) :
    Delivers { it with buf := buf }.rest (it.advanceLoop buf) := by
  induction buf generalizing it with
  | nil => exact emitSnap_delivers rfl
  | cons p buf ih =>
    obtain ⟨k, v⟩ := p
    rw [advanceLoop]
    by_cases hk : it.accepts k = false
    · rw [if_pos hk]
      refine emitSnap_delivers (takeWhile_cons_of_neg ?_)
      exact Bool.not_eq_true _ ▸ hk
    · rw [if_neg hk]
      have hacc : it.accepts k = true := Bool.not_eq_false _ ▸ hk
      have hbuf : ((k, v) :: buf).takeWhile (fun e => it.accepts e.1) = (k, v) :: buf.takeWhile (fun e => it.accepts e.1) :=
        takeWhile_cons_of_pos hacc
      have hrest : { it with buf := (k, v) :: buf }.rest = overlaid _ (it.snap.takeWhile (fun e => it.accepts e.1))
          ((k, v) :: buf.takeWhile (fun e => it.accepts e.1)) := congrArg _ hbuf
      have hnext : Delivers (overlaid _ (it.snap.takeWhile (fun e => it.accepts e.1))
          (buf.takeWhile (fun e => it.accepts e.1))) _ := ih it
      rw [hrest]
      cases hc : it.snapCurrent with
      | none =>
        rw [takeWhile_of_current_none hc] at hnext ⊢
        rw [overlaid]
        exact elim_delivers (congrArg (fun l => overlaid _ l _) (takeWhile_of_current_none hc)) hnext
      | some e =>
        have hsnap := takeWhile_of_current_some hc
        rw [hsnap] at hnext ⊢
        rw [overlaid]
        dsimp only
        by_cases heq : k = e.1
        · rw [if_neg fun h : Before _ k e.1 => h.ne heq, if_pos heq, if_pos heq]
          exact elim_delivers rfl (ih _)
        · rw [if_neg heq, if_neg heq]
          by_cases hlt : Before it.reverse k e.1
          · rw [if_pos hlt, if_pos hlt]
            exact elim_delivers (congrArg (fun l => overlaid _ l _) hsnap) hnext
          · have hcur : { it with buf := (k, v) :: buf }.snapCurrent = some e := hc
            rw [if_neg hlt, if_neg hlt, emitSnap, hcur]
            exact congrArg (fun l => e :: overlaid _ _ l) hbuf.symm

lemma advance_delivers (it : MergeIterator) : Delivers it.rest it.advance := advanceLoop_delivers it it.buf

end MergeIterator

end Merge

section Walks

variable {t : MariaDBTxn} {s : Store} {k start bound pre : Bytes} {reverse keysOnly : Bool} {belongs : Bytes → Bool} {tableId indexId : ℕ}

/-- What a walk delivers: the keys inside, in its order, that `m` has a value for, and for a walk over entries those values. -/
structure MergeIterator.Lists (it : MergeIterator) (inside : Bytes → Prop) (m : Bytes → Option Bytes) (keysOnly : Bool) : Prop where
  sorted : Walk it.reverse it.rest
  keys : ∀ k, (∃ v, (k, v) ∈ it.rest) ↔ inside k ∧ (m k).isSome = true
  values : keysOnly = false → ∀ k v, (k, v) ∈ it.rest → m k = some v

lemma MergeIterator.advance_key (it : MergeIterator) : it.advance.map (fun p => p.1.1) = (it.rest.map Prod.fst).head? := by
  have hdeliver := it.advance_delivers
  cases hadv : it.advance with
  | none =>
    rw [hadv] at hdeliver
    rw [show it.rest = [] from hdeliver]
    rfl
  | some p =>
    rw [hadv] at hdeliver
    rw [show it.rest = p.1 :: p.2.rest from hdeliver]
    rfl

lemma MergeIterator.Lists.advance_eq {it it' : MergeIterator} {inside : Bytes → Prop} {m m' : Bytes → Option Bytes}
    (h : it.Lists inside m keysOnly) (h' : it'.Lists inside m' keysOnly) (hdir : it'.reverse = it.reverse)
    (heq : ∀ k, inside k → m' k = m k) : it'.advance.map (fun p => p.1.1) = it.advance.map (fun p => p.1.1) := by
  have hmem : ∀ k, k ∈ it'.rest.map Prod.fst ↔ k ∈ it.rest.map Prod.fst := by
    intro k
    simp only [mem_map, Prod.exists, exists_and_right, exists_eq_right, h.keys, h'.keys]
    exact and_congr_right fun hk => by rw [heq k hk]
  have hirrefl : Std.Irrefl (Before it.reverse : Bytes → Bytes → Prop) := ⟨Before.irrefl _⟩
  have hanti : Std.Antisymm (Before it.reverse : Bytes → Bytes → Prop) := ⟨fun _ _ hab hba => absurd hba hab.asymm⟩
  have hsorted := pairwise_map.2 h.sorted
  have hsorted' := pairwise_map.2 (hdir ▸ h'.sorted)
  rw [advance_key, advance_key, Pairwise.eq_of_mem_iff hsorted' hsorted hmem]

lemma le_append (xs ys : Bytes) : xs ≤ xs ++ ys :=
  not_lt.1 (show ¬ xs ++ ys < xs from le_append_left)

lemma prefix_of_between (p : Bytes) {y j : Bytes} (hlo : p ≤ j) (hhi : j ≤ p ++ y) : p <+: j := by
  induction p generalizing j with
  | nil => exact nil_prefix
  | cons a p ih =>
    cases j with
    | nil => exact absurd hlo (not_le.2 (nil_lt_cons _ _))
    | cons b j =>
      have hab : ¬ b < a := fun h => absurd hlo (not_le.2 (cons_lt_cons_iff.2 (.inl h)))
      have hba : ¬ a < b := fun h => absurd hhi (not_le.2 (cons_lt_cons_iff.2 (.inl h)))
      obtain rfl : a = b := le_antisymm (not_lt.1 hab) (not_lt.1 hba)
      have hlo' : p ≤ j := not_lt.1 fun h => absurd hlo (not_le.2 (cons_lt_cons_iff.2 (.inr ⟨rfl, h⟩)))
      have hhi' : j ≤ p ++ y := not_lt.1 fun h => absurd hhi (not_le.2 (cons_lt_cons_iff.2 (.inr ⟨rfl, h⟩)))
      exact cons_prefix_cons.2 ⟨rfl, ih hlo' hhi'⟩

def From (reverse : Bool) (start k : Bytes) : Prop := if reverse then k ≤ start else start ≤ k

lemma mem_seekFrom {ν : Type} {m : SortedMap Bytes ν} {v : ν} :
    (k, v) ∈ seekFrom m reverse start ↔ m.get k = some v ∧ From reverse start k := by
  rw [SortedMap.get_eq_some]
  cases reverse <;> simp [seekFrom, From]

lemma seekFrom_walk {ν : Type} (m : SortedMap Bytes ν) (reverse : Bool) (start : Bytes) : Walk reverse (seekFrom m reverse start) := by
  cases reverse
  · exact m.sorted.filter _
  · exact pairwise_reverse.2 (m.sorted.filter _)

-- the keys of an object are one piece of the order, so a walk that begins beside it ends with it
lemma takeWhile_seekFrom {ν : Type} (m : SortedMap Bytes ν) {p : Bytes → Bool}
    (hp : ∀ j k, (m.get j).isSome = true → From reverse start j → Before reverse j k → p k = true → p j = true) :
    (seekFrom m reverse start).takeWhile (fun e => p e.1) = (seekFrom m reverse start).filter (fun e => p e.1) := by
  have hwalk : (seekFrom m reverse start).Pairwise
      (fun a b => (m.get a.1).isSome = true ∧ From reverse start a.1 ∧ Before reverse a.1 b.1) := by
    refine (seekFrom_walk m reverse start).imp_of_mem fun ha _ hab => ?_
    obtain ⟨hget, hstart⟩ := mem_seekFrom.1 ha
    exact ⟨Option.isSome_of_eq_some hget, hstart, hab⟩
  exact takeWhile_eq_filter hwalk fun a b hab hb => hp a.1 b.1 hab.1 hab.2.1 hab.2.2 hb

section Merging

variable (hbel : ∀ k, belongs k = true ↔ pre <+: k) (hne : pre ≠ []) (hstart : pre ≤ start)
  (hbound : reverse = false → ∀ k, belongs k = true → k < bound)
  (hclear : reverse = true → ∀ j, t.Holds s j → pre ≤ j → j ≤ start → belongs j = true)

include hbound in
lemma accepts_mergeFrom (k : Bytes) : (t.mergeFrom s reverse keysOnly start bound belongs).accepts k = belongs k := by
  have hdef : (t.mergeFrom s reverse keysOnly start bound belongs).accepts k =
      (belongs k && (reverse || bound.isEmpty || decide (k < bound))) := rfl
  rw [hdef]
  cases hr : reverse with
  | true => simp
  | false =>
    cases hk : belongs k with
    | false => rfl
    | true => simp [hbound hr k hk]

include hbel hstart hclear

lemma belongs_of_before {j : Bytes} (hj : t.Holds s j) (hs : From reverse start j) (hjk : Before reverse j k)
    (hk : belongs k = true) : belongs j = true := by
  obtain ⟨z, rfl⟩ := (hbel k).1 hk
  cases hr : reverse with
  | false =>
    rw [hr] at hs hjk
    exact (hbel j).2 (prefix_of_between pre (hstart.trans hs) (le_of_lt hjk))
  | true =>
    rw [hr] at hs hjk
    exact hclear hr j hj ((le_append pre z).trans (le_of_lt hjk)) hs

include hne hbound

lemma lists_mergeFrom : (t.mergeFrom s reverse keysOnly start bound belongs).Lists
    (fun k => belongs k = true ∧ From reverse start k) (t.view s) keysOnly := by
  let base := (t.snap.getD s).entries.map (fun r => if keysOnly then [] else r.value)
  have hbase : ∀ k, (base.get k).isSome = ((t.snap.getD s).get k).isSome := by
    intro k
    rw [SortedMap.get_map, Option.isSome_map, Store.get, Option.isSome_map]
  have hseek : MariaDBTxn.engineFrom base reverse start = seekFrom base reverse start := by
    refine if_neg fun h => ?_
    rw [isEmpty_iff.1 (Bool.and_eq_true_iff.1 h).2] at hstart
    exact hne (le_antisymm hstart (not_lt.1 (not_lt_nil pre)))
  have hrest : (t.mergeFrom s reverse keysOnly start bound belongs).rest = overlaid reverse
      ((seekFrom base reverse start).filter (fun e => belongs e.1)) ((seekFrom t.lookup reverse start).filter (fun e => belongs e.1)) := by
    rw [← takeWhile_seekFrom base fun j k hj => belongs_of_before hbel hstart hclear (.inr (hbase j ▸ hj)), ← hseek,
      ← takeWhile_seekFrom _ fun j k hj => belongs_of_before hbel hstart hclear (.inl hj)]
    simp only [MergeIterator.rest, accepts_mergeFrom hbound]
    rfl
  have hwalk := (seekFrom_walk base reverse start).filter (fun e => belongs e.1)
  have hwalk' := (seekFrom_walk t.lookup reverse start).filter (fun e => belongs e.1)
  have hmem : ∀ k v, (k, v) ∈ (t.mergeFrom s reverse keysOnly start bound belongs).rest ↔
      (belongs k = true ∧ From reverse start k) ∧ (t.lookup.get k).getD (base.get k) = some v := by
    intro k v
    rw [hrest, mem_overlaid hwalk hwalk']
    simp only [mem_filter, mem_seekFrom]
    by_cases hk : belongs k = true ∧ From reverse start k
    · cases t.lookup.get k <;> simp [hk]
    · have hno : ∀ P : Prop, ¬ ((P ∧ From reverse start k) ∧ belongs k = true) := fun P h => hk ⟨h.2, h.1.2⟩
      simp only [hno, false_and, or_self, hk]
  refine ⟨?_, fun k => ?_, fun hkeys k v hkv => ?_⟩
  · rw [hrest]
    exact overlaid_walk hwalk hwalk'
  · simp only [hmem, exists_and_left, MariaDBTxn.view, ← Option.isSome_iff_exists]
    refine and_congr_right fun _ => ?_
    cases t.lookup.get k with
    | none => exact Bool.eq_iff_iff.1 (hbase k)
    | some v => exact Iff.rfl
  · have hv := ((hmem k v).1 hkv).2
    simpa [MariaDBTxn.view, Store.get, base, SortedMap.get_map, hkeys] using hv

end Merging

lemma belongsToTable_iff : keyBelongsToTable k tableId = true ↔ tableIdPrefix tableId <+: k := by
  rw [keyBelongsToTable, decide_eq_true_eq, prefix_iff_eq_take, tableIdPrefix_length, eq_comm]

lemma belongsToIndex_iff : keyBelongsToIndex k tableId indexId = true ↔ indexIdPrefix tableId indexId <+: k := by
  rw [keyBelongsToIndex, decide_eq_true_eq, prefix_iff_eq_take, indexIdPrefix_length, eq_comm]

lemma lists_iterIndexPrefix (hid : indexId + 1 < 256 ^ 2) (hstart : indexIdPrefix tableId indexId ≤ start) :
    (t.iterIndexPrefix s start (indexIdUpperBound tableId indexId) tableId indexId).Lists
      (fun k => keyBelongsToIndex k tableId indexId = true ∧ From false start k) (t.view s) true :=
  lists_mergeFrom (fun _ => belongsToIndex_iff) (cons_ne_nil _ _) hstart (fun _ _ => lt_indexIdUpperBound hid) nofun

end Walks

section Probes

variable {t : MariaDBTxn} {s : Store} {start : Bytes} {tableId indexId : ℕ}

lemma indexPrefixExists_spec (hid : indexId + 1 < 256 ^ 2) (hstart : keyBelongsToIndex start tableId indexId = true) {fails : Bool}
    {p : Probe} {hit : Bytes} {t' : MariaDBTxn}
    (h : t.indexPrefixExists s fails start (indexIdUpperBound tableId indexId) tableId indexId = (p, hit, t')) :
    t' = t.pinSnapshot s ∧ (p = .absent → ∀ z, t.view s (start ++ z) = none) ∧
      (p = .present → (∃ z, hit = start ++ z) ∧ (t.view s hit).isSome) := by
  have hlists := lists_iterIndexPrefix (t := t.pinSnapshot s) (s := s) hid (le_of_belongsToIndex hstart)
  have hmem := hlists.keys
  have hinside : ∀ z, keyBelongsToIndex (start ++ z) tableId indexId = true ∧ From false start (start ++ z) := by
    intro z
    refine ⟨?_, le_append start z⟩
    rw [eq_of_belongsToIndex hstart, append_assoc]
    exact belongsToIndex_append _ _ _
  have hdeliver := ((t.pinSnapshot s).iterIndexPrefix s start (indexIdUpperBound tableId indexId) tableId indexId).advance_delivers
  rw [MariaDBTxn.indexPrefixExists] at h
  cases fails with
  | true =>
    cases h
    exact ⟨rfl, nofun, nofun⟩
  | false =>
    rw [if_neg Bool.false_ne_true] at h
    cases hadv : ((t.pinSnapshot s).iterIndexPrefix s start (indexIdUpperBound tableId indexId) tableId indexId).advance with
    | none =>
      rw [hadv] at h hdeliver
      cases h
      refine ⟨rfl, fun _ z => ?_, nofun⟩
      by_contra hne
      obtain ⟨v, hv⟩ := (hmem _).2 ⟨hinside z, Option.isSome_iff_ne_none.2 hne⟩
      rw [show _ = [] from hdeliver] at hv
      cases hv
    | some e =>
      obtain ⟨⟨key, v⟩, it'⟩ := e
      rw [hadv] at h hdeliver
      have hrest : _ = (key, v) :: it'.rest := hdeliver
      have hkey := (hmem key).1 ⟨v, by rw [hrest]; exact mem_cons_self⟩
      dsimp only at h
      split_ifs at h with htake
      · cases h
        refine ⟨rfl, nofun, fun _ => ⟨⟨hit.drop start.length, ?_⟩, hkey.2⟩⟩
        calc hit = hit.take start.length ++ hit.drop start.length := (take_append_drop _ _).symm
          _ = start ++ hit.drop start.length := by rw [htake]
      · cases h
        refine ⟨rfl, fun _ z => ?_, nofun⟩
        by_contra hne
        obtain ⟨w, hw⟩ := (hmem _).2 ⟨hinside z, Option.isSome_iff_ne_none.2 hne⟩
        -- The walk is sorted, so the first key lies between the beginning and this entry.
        have hwalk := hlists.sorted
        rw [hrest] at hw hwalk
        have hle : key ≤ start ++ z := by
          rcases mem_cons.1 hw with heq | hw
          · exact (congrArg Prod.fst heq).ge
          · exact le_of_lt ((pairwise_cons.1 hwalk).1 _ hw)
        exact htake (prefix_iff_eq_take.1 (prefix_of_between start hkey.1.2 hle)).symm

lemma indexPrefixExists_congr {t' : MariaDBTxn} (hid : indexId + 1 < 256 ^ 2) (hstart : keyBelongsToIndex start tableId indexId = true)
    (hview : ∀ k, keyBelongsToIndex k tableId indexId = true → t'.view s k = t.view s k) (fails : Bool) :
    (t'.indexPrefixExists s fails start (indexIdUpperBound tableId indexId) tableId indexId).1 =
        (t.indexPrefixExists s fails start (indexIdUpperBound tableId indexId) tableId indexId).1 ∧
      (t'.indexPrefixExists s fails start (indexIdUpperBound tableId indexId) tableId indexId).2.1 =
        (t.indexPrefixExists s fails start (indexIdUpperBound tableId indexId) tableId indexId).2.1 := by
  have hlists := lists_iterIndexPrefix (t := t.pinSnapshot s) (s := s) hid (le_of_belongsToIndex hstart)
  have hlists' := lists_iterIndexPrefix (t := t'.pinSnapshot s) (s := s) hid (le_of_belongsToIndex hstart)
  have hkey := hlists.advance_eq hlists' rfl fun k hk => hview k hk.1
  rw [MariaDBTxn.indexPrefixExists, MariaDBTxn.indexPrefixExists]
  cases fails with
  | true => exact ⟨rfl, rfl⟩
  | false =>
    rcases hadv : ((t.pinSnapshot s).iterIndexPrefix s start (indexIdUpperBound tableId indexId) tableId indexId).advance with _ | p <;>
      rcases hadv' : ((t'.pinSnapshot s).iterIndexPrefix s start (indexIdUpperBound tableId indexId) tableId indexId).advance with _ | p' <;>
      rw [hadv, hadv'] at hkey
    · exact ⟨rfl, rfl⟩
    · cases hkey
    · cases hkey
    · have hsame : p'.1.1 = p.1.1 := Option.some.inj hkey
      dsimp only
      rw [hsame]
      split_ifs <;> exact ⟨rfl, rfl⟩

end Probes

end Bytecask.MariaDb
