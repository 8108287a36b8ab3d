import Bytecask.Lib.Machine
import Bytecask.MariaDb.Rows

/-! A connection's transaction: its calls, its statements and its end, with what its calls did so far as a history. -/

namespace Bytecask.MariaDb

open MariaDBTxn List

structure Session where
  txn : MariaDBTxn := {}
  changes : List Change := []
  stmtChanges : ℕ := 0

inductive Action where
  | begin (multi : Bool)
  | get
  | scan
  | writeRow (T : Table) (flags : StmtFlags) (fails : Bytes → Bool) (r : Row)
  | updateRow (T : Table) (fails : Bytes → Bool) (u : RowUpdate)
  | deleteRow (T : Table) (current : Bytes) (r : Row)
  | deleteAllRows (T : Table) (throws : Bool)
  | commit (all throws : Bool) (fails : Bytes → Bool)
  | rollback (all : Bool)

namespace Session

def record (x : Session) (e : Option HaError) (t : MariaDBTxn) (c : Change) : Session :=
  { x with txn := t, changes := if e.isNone then x.changes ++ [c] else x.changes }

def final (x : Session) (all : Bool) : Bool := all || !x.txn.registeredAll

def step (g : Server) (x : Session) : Action → Option HaError × Server × Session
  | .begin multi =>
    (none, g, { x with
      txn := x.txn.beginIfNeeded g.store multi
      stmtChanges := if x.txn.registeredStmt then x.stmtChanges else x.changes.length })
  | .get => (none, g, { x with txn := x.txn.ensureSnapshot g.store })
  | .scan => (none, g, { x with txn := x.txn.pinSnapshot g.store })
  | .writeRow T flags fails r =>
    let (e, g', t) := MariaDb.writeRow T flags fails r g x.txn
    (e, g', x.record e t (.row T none (some r) (allocRowid T g).1))
  | .updateRow T fails u =>
    let (e, t) := MariaDb.updateRow T g.store fails u x.txn
    (e, g, x.record e t (.row T (some u.old) (some u.new) (u.rowid T)))
  | .deleteRow T current r =>
    let (g', t) := MariaDb.deleteRow T current r g x.txn
    (none, g', x.record none t (.row T (some r) none (currentRowid T current r)))
  | .deleteAllRows T throws =>
    let (e, g') := MariaDb.deleteAllRows T throws g
    (e, g', x.record e x.txn (.deleteAll T))
  | .commit all throws fails =>
    let (e, g', t) := x.txn.commit g all throws fails
    (e, g', if x.final all then { txn := t } else { x with txn := t })
  | .rollback all =>
    let (g', t) := x.txn.rollback g all
    (none, g', if x.final all then { txn := t } else { x with txn := t, changes := x.changes.take x.stmtChanges })

/-- How the server calls the handler: inside a statement, on rows it has read, and in a plain INSERT only `write_row`. -/
def Enabled (tables : List Table) (g : Server) (x : Session) : Action → Prop
  | .begin multi => multi = true → x.txn.deferredInsert = none
  | .get => True
  | .scan => x.txn.deferredInsert = none
  | .writeRow T _ _ r =>
    x.txn.registeredStmt = true ∧ T ∈ tables ∧ r.length = T.fields ∧ (∀ id ∈ x.txn.deferredInsert, id = T.tableId) ∧
      (T.noPk = true → g.rowids T.tableId + 1 < 256 ^ 8)
  | .updateRow T _ u =>
    x.txn.registeredStmt = true ∧ T ∈ tables ∧ x.txn.deferredInsert = none ∧ x.txn.snap.isSome = true ∧ u.Good T (x.txn.view g.store)
  | .deleteRow T current r =>
    x.txn.registeredStmt = true ∧ T ∈ tables ∧ x.txn.deferredInsert = none ∧ x.txn.snap.isSome = true ∧
      RowRead T (x.txn.view g.store) current r
  | .deleteAllRows T _ => x.txn.registeredStmt = true ∧ T ∈ tables
  | .commit _ _ _ | .rollback _ => True

end Session

structure Does (T : Table) (old new : Option Row) (id : ℕ) (m : Bytes → Option Bytes) (ops : List Op) : Prop where
  read : ∀ r ∈ old, m (T.encodePk r id) = some (T.encodeRow r)
  leaves : ∀ k v, (∀ r ∈ old, k = T.encodePk r id → v = some (T.encodeRow r)) →
    leave ops k v = (Change.row T old new id).leaves k v
  untouched : ∀ k, (∀ op ∈ ops, op.key ≠ k) → T.imageOf old id k = T.imageOf new id k
  value : ∀ op ∈ ops, op.value = T.imageOf new id op.key
  entry : ∀ op ∈ ops, T.imageOf old id op.key ≠ none ∨ T.imageOf new id op.key ≠ none
  rowKey : ∀ op ∈ ops, ∃ op' ∈ ops, op'.key = T.rowKeyOf op.key

section Does

variable {T : Table} {m : Bytes → Option Bytes} {r : Row} {current : Bytes} {u : RowUpdate}

lemma Does.leave_eq {old new : Option Row} {id : ℕ} {ops : List Op} (h : Does T old new id m ops) (k : Bytes) :
    leave ops k (m k) = (Change.row T old new id).leaves k (m k) := by
  refine h.leaves k _ fun r hr hk => ?_
  rw [hk]
  exact h.read r hr

lemma does_insert (T : Table) (m : Bytes → Option Bytes) (r : Row) (id : ℕ) (defer : Bool) :
    Does T none (some r) id m (rowOps T defer r id) where
  read := nofun
  leaves k v _ := leave_rowOps T defer r id k v
  untouched k hk := by
    by_contra hne
    obtain ⟨op, hop, heq⟩ := touched_rowOps.2 (Ne.symm hne)
    exact hk op hop heq
  value op hop := rowOps_value hop
  entry op hop := .inr (touched_rowOps.1 ⟨op, hop, rfl⟩)
  rowKey op hop := by
    rw [Table.rowKeyOf_of_image (touched_rowOps.1 ⟨op, hop, rfl⟩)]
    exact touched_rowOps.2 (image_ne_none.2 (.inl rfl))

lemma does_delete (h : RowRead T m current r) : Does T (some r) none (currentRowid T current r) m (deleteOps T current r) where
  read r' hr := by
    cases hr
    exact h.spec.2.2
  leaves k v _ := leave_deleteOps h.spec.2.1 k v
  untouched k hk := by
    by_contra hne
    obtain ⟨op, hop, heq⟩ := (touched_deleteOps h.spec.2.1).2 hne
    exact hk op hop heq
  value op hop := deleteOps_value hop
  entry op hop := .inl ((touched_deleteOps h.spec.2.1).1 ⟨op, hop, rfl⟩)
  rowKey op hop := by
    rw [Table.rowKeyOf_of_image ((touched_deleteOps h.spec.2.1).1 ⟨op, hop, rfl⟩)]
    exact (touched_deleteOps h.spec.2.1).2 (image_ne_none.2 (.inl rfl))

lemma RowUpdate.Good.image_of_mem (h : u.Good T m) {op : Op} (hop : op ∈ updateOps T u) :
    T.image u.old (u.rowid T) op.key ≠ none ∨ T.image u.new (u.rowid T) op.key ≠ none := by
  rcases h.mem_updateOps.1 hop with ⟨ix, hix, -, rfl | rfl⟩ | rfl | ⟨-, rfl⟩
  · exact .inl (image_ne_none.2 (.inr ⟨ix, hix, rfl⟩))
  · exact .inr (image_ne_none.2 (.inr ⟨ix, hix, rfl⟩))
  · exact .inr (image_ne_none.2 (.inl h.newPk))
  · exact .inl (image_ne_none.2 (.inl h.oldPk))

lemma RowUpdate.Good.touched_newPk (h : u.Good T m) : ∃ op ∈ updateOps T u, op.key = u.newPk T :=
  ⟨_, h.mem_updateOps.2 (.inr (.inl rfl)), rfl⟩

lemma RowUpdate.Good.touched_oldPk (h : u.Good T m) : ∃ op ∈ updateOps T u, op.key = u.oldPk T := by
  by_cases heq : u.oldPk T = u.newPk T
  · rw [heq]
    exact h.touched_newPk
  · exact ⟨_, h.mem_updateOps.2 (.inr (.inr ⟨heq, rfl⟩)), rfl⟩

lemma does_update (h : u.Good T m) : Does T (some u.old) (some u.new) (u.rowid T) m (updateOps T u) where
  read r' hr := by
    cases hr
    exact h.read.spec.2.2
  leaves k v hv := h.leave_updateOps fun hk => hv u.old rfl (hk.trans h.oldPk)
  untouched k hk := by
    by_contra hne
    obtain ⟨op, hop, heq⟩ := h.touched_of_differ hne
    exact hk op hop heq
  value op hop := h.value_of_mem hop
  entry op hop := h.image_of_mem hop
  rowKey op hop := by
    rcases h.image_of_mem hop with hne | hne
    · rw [Table.rowKeyOf_of_image hne, ← h.oldPk]
      exact h.touched_oldPk
    · rw [Table.rowKeyOf_of_image hne, ← h.newPk]
      exact h.touched_newPk

end Does

def applied (cs : List Change) (k : Bytes) (v : Option Bytes) : Option Bytes := cs.foldl (fun v c => c.leaves k v) v

/-- A log of operations that calls have made over `base`; `P` holds of each call and what it saw. -/
inductive Built (P : (Bytes → Option Bytes) → Change → Prop) (base : Bytes → Option Bytes) : List Op → List Change → Prop
  | nil : Built P base [] []
  | snoc {ops new : List Op} {cs : List Change} {T : Table} {old r : Option Row} {id : ℕ} : Built P base ops cs →
      Does T old r id (fun k => leave ops k (base k)) new → P (fun k => leave ops k (base k)) (.row T old r id) →
      Built P base (ops ++ new) (cs ++ [.row T old r id])

section Built

variable {P : (Bytes → Option Bytes) → Change → Prop} {base : Bytes → Option Bytes} {ops : List Op} {cs : List Change} {k : Bytes}

lemma applied_snoc (cs : List Change) (c : Change) (k : Bytes) (v : Option Bytes) :
    applied (cs ++ [c]) k v = c.leaves k (applied cs k v) := foldl_append

lemma Built.leave_eq (h : Built P base ops cs) (k : Bytes) : leave ops k (base k) = applied cs k (base k) := by
  induction h with
  | nil => rfl
  | snoc _ hdoes _ ih =>
    rw [leave_append, applied_snoc, ← ih]
    exact hdoes.leave_eq k

lemma Built.untouched (h : Built P base ops cs) (hk : ∀ op ∈ ops, op.key ≠ k) (v : Option Bytes) : applied cs k v = v := by
  induction h with
  | nil => rfl
  | snoc _ hdoes _ ih =>
    rw [applied_snoc, ih fun op hop => hk op (mem_append_left _ hop), Change.leaves,
      if_pos (hdoes.untouched k fun op hop => hk op (mem_append_right _ hop))]

lemma Built.leave_of_agree (h : Built P base ops cs) {m : Bytes → Option Bytes} (hm : ∀ op ∈ ops, m op.key = base op.key)
    (k : Bytes) : leave ops k (m k) = applied cs k (m k) := by
  by_cases hk : ∃ op ∈ ops, op.key = k
  · obtain ⟨op, hop, rfl⟩ := hk
    rw [hm op hop]
    exact h.leave_eq _
  · have hno : ∀ op ∈ ops, op.key ≠ k := fun op hop heq => hk ⟨op, hop, heq⟩
    rw [leave_of_not_touched hno, h.untouched hno]

def Change.IsInsert : Change → Prop
  | .row _ old _ _ => old = none
  | .deleteAll _ => False

lemma Built.leave_of_inserts (h : Built P base ops cs) (hcs : ∀ c ∈ cs, c.IsInsert) (k : Bytes) (v : Option Bytes) :
    leave ops k v = applied cs k v := by
  induction h with
  | nil => rfl
  | @snoc ops new cs T old r id _ hdoes _ ih =>
    have hold : old = none := hcs _ (mem_append_right _ (mem_singleton_self _))
    rw [leave_append, applied_snoc, ih fun c hc => hcs c (mem_append_left _ hc)]
    exact hdoes.leaves k _ fun r hr => by rw [hold] at hr; cases hr

end Built

structure CallFacts (tables : List Table) (g : Server) (T : Table) (old new : Option Row) (id : ℕ) (m : Bytes → Option Bytes) : Prop where
  table : T ∈ tables
  read : ∀ r ∈ old, T.Fits r id ∧ m (T.encodePk r id) = some (T.encodeRow r)
  fits : ∀ r ∈ new, T.Fits r id
  place : ∀ r ∈ new, m (T.encodePk r id) = none ∨ (∃ r₀ ∈ old, T.encodePk r₀ id = T.encodePk r id) ∨
    (T.noPk = true ∧ id = g.rowids T.tableId + 1)
  own : T.imaging.Described m → ∀ ix ∈ T.indexes, ix.isUnique = true → Imaging.Distinct (T.Clash ix) m → OnlyOwn T m ix old new id

def Deferrable (tables : List Table) (id : ℕ) (T : Table) : Prop :=
  T ∈ tables ∧ T.tableId = id ∧ T.noPk = false ∧ T.hasUniqueSecondaryIndex = false

namespace Session

/-- A transaction's buffer is the log of its calls over its snapshot, and so is what its statement began with. A
deferred INSERT has no snapshot to log over, and guards every row it puts. -/
structure Sane (tables : List Table) (P : (Bytes → Option Bytes) → Change → Prop) (x : Session) : Prop where
  lookup : x.txn.lookup = lookupOf x.txn.ops
  mark : x.txn.stmtOpsMark ≤ x.txn.ops.length
  stmtChanges : x.stmtChanges ≤ x.changes.length
  multi : x.txn.registeredAll = true → x.txn.snap.isSome = true ∧ x.txn.deferredInsert = none
  fresh : x.txn.deferredInsert = none → x.txn.snap = none → x.txn.ops = [] ∧ x.changes = []
  built : x.txn.deferredInsert = none → ∀ sn ∈ x.txn.snap, Built P sn.get x.txn.ops x.changes ∧
    Built P sn.get (x.txn.ops.take x.txn.stmtOpsMark) (x.changes.take x.stmtChanges)
  deferred : ∀ id ∈ x.txn.deferredInsert, (∃ T, Deferrable tables id T) ∧ x.txn.snap = none ∧
    Built P (fun _ => none) x.txn.ops x.changes ∧
    ∀ c ∈ x.changes, ∃ T r, Deferrable tables id T ∧ c = .row T none (some r) 0 ∧
      .put (T.encodePk r 0) (T.encodeRow r) true ∈ x.txn.ops

variable {tables : List Table} {P : (Bytes → Option Bytes) → Change → Prop} {x : Session} {g : Server} {s : Store} {t : MariaDBTxn}
  {T : Table} {old new : Option Row} {id : ℕ} {ops : List Op} {flags : StmtFlags} {fails : Bytes → Bool} {r : Row} {current : Bytes}
  {u : RowUpdate}
variable {e : Option HaError} {all throws : Bool}

lemma Sane.empty (tables : List Table) (P : (Bytes → Option Bytes) → Change → Prop) : Sane tables P {} where
  lookup := rfl
  mark := le_rfl
  stmtChanges := le_rfl
  multi := nofun
  fresh _ _ := ⟨rfl, rfl⟩
  built _ := nofun
  deferred := nofun

lemma Sane.view_of_snap (h : x.Sane tables P) {sn : Store} (hsn : x.txn.snap = some sn) :
    x.txn.view s = fun k => leave x.txn.ops k (sn.get k) := by
  funext k
  rw [MariaDBTxn.view, hsn, h.lookup]
  exact getD_lookupOf _ _ _

lemma Sane.view_of_fresh (h : x.Sane tables P) (hd : x.txn.deferredInsert = none) (hsn : x.txn.snap = none) :
    x.txn.view s = s.get := by
  funext k
  rw [MariaDBTxn.view, hsn, h.lookup, (h.fresh hd hsn).1]
  rfl

lemma Sane.pin (h : x.Sane tables P) (hext : MariaDBTxn.Extends s [] x.txn t) (hblind : x.txn.deferredInsert ≠ none → t.snap = x.txn.snap) :
    Sane tables P { x with txn := t } := by
  have hops : t.ops = x.txn.ops := hext.ops.trans (append_nil _)
  refine ⟨?_, ?_, h.stmtChanges, ?_, ?_, ?_, ?_⟩
  · rw [hops]
    exact hext.lookup.trans h.lookup
  · rw [hops, hext.stmtOpsMark]
    exact h.mark
  · intro hall
    rw [hext.registeredAll] at hall
    rw [hext.isSome_mono (h.multi hall).1, hext.deferredInsert]
    exact h.multi hall
  · intro hd hsn
    rw [hext.deferredInsert] at hd
    rw [hops]
    rcases hext.snap with heq | ⟨-, hsome⟩
    · exact h.fresh hd (heq ▸ hsn)
    · rw [hsome] at hsn
      cases hsn
  · intro hd sn hsn
    rw [hext.deferredInsert] at hd
    rw [hops, hext.stmtOpsMark]
    rcases hext.snap with heq | ⟨hnone, hsome⟩
    · exact h.built hd sn (heq ▸ hsn)
    · obtain ⟨ho, hc⟩ := h.fresh hd hnone
      rw [ho, hc, take_nil, take_nil]
      exact ⟨.nil, .nil⟩
  · intro id hid
    rw [hext.deferredInsert] at hid
    rw [hops, hblind (Option.ne_none_iff_exists'.2 ⟨id, hid⟩)]
    exact h.deferred id hid

lemma Sane.call (h : x.Sane tables P) (hd : x.txn.deferredInsert = none) (hext : MariaDBTxn.Extends s ops x.txn t) (hne : ops ≠ [])
    (hdoes : Does T old new id (x.txn.view s) ops) (hP : P (x.txn.view s) (.row T old new id)) :
    Sane tables P { x with txn := t, changes := x.changes ++ [.row T old new id] } := by
  have hsome := hext.pinned hne hd
  refine ⟨?_, ?_, ?_, ?_, ?_, ?_, ?_⟩
  · rw [hext.ops, hext.lookup, h.lookup]
    exact foldl_append.symm
  · rw [hext.ops, hext.stmtOpsMark, length_append]
    exact h.mark.trans (Nat.le_add_right _ _)
  · rw [length_append]
    exact h.stmtChanges.trans (Nat.le_add_right _ _)
  · intro _
    rw [hext.deferredInsert]
    exact ⟨hsome, hd⟩
  · intro _ hsn
    rw [hsn] at hsome
    cases hsome
  · intro _ sn hsn
    rw [hext.ops, hext.stmtOpsMark, take_append_of_le_length h.mark, take_append_of_le_length h.stmtChanges]
    rcases hext.snap with heq | ⟨hnone, hs⟩
    · have hsn' : x.txn.snap = some sn := heq ▸ hsn
      rw [h.view_of_snap hsn'] at hdoes hP
      obtain ⟨hbuilt, hmark⟩ := h.built hd sn hsn'
      exact ⟨hbuilt.snoc hdoes hP, hmark⟩
    · obtain ⟨ho, hc⟩ := h.fresh hd hnone
      rw [h.view_of_fresh hd hnone] at hdoes hP
      have hsn' : s = sn := Option.some.inj (hs.symm.trans hsn)
      rw [ho, hc, take_nil, take_nil, ← hsn']
      exact ⟨Built.nil.snoc hdoes hP, .nil⟩
  · intro id hid
    rw [hext.deferredInsert, hd] at hid
    cases hid

lemma Sane.track (h : Sane tables P { x with txn := t }) (g : Server) (id : ℕ) (d : ℤ) :
    Sane tables P { x with txn := (t.trackRowCountDelta g id d).2 } :=
  ⟨h.lookup, h.mark, h.stmtChanges, h.multi, h.fresh, h.built, h.deferred⟩

lemma snap_of_not_hasState (h : t.hasState = false) : t.snap = none :=
  Option.isNone_iff_eq_none.1 (Option.isSome_eq_false_iff.1 (Bool.or_eq_false_iff.1 h).1)

lemma Sane.deferredCall (h : x.Sane tables P) {r : Row} (hT : Deferrable tables T.tableId T)
    (hstart : x.txn.deferredInsert = some T.tableId ∨ (x.txn.deferredInsert = none ∧ x.txn.hasState = false))
    (hext : MariaDBTxn.Extends s (rowOps T true r 0) (enterDeferred T true x.txn) t) (hblind : t.snap = x.txn.snap)
    (hP : P (fun k => leave x.txn.ops k none) (.row T none (some r) 0)) :
    Sane tables P { x with txn := t, changes := x.changes ++ [.row T none (some r) 0] } := by
  have hsame : (enterDeferred T true x.txn).ops = x.txn.ops ∧ (enterDeferred T true x.txn).lookup = x.txn.lookup ∧
      (enterDeferred T true x.txn).stmtOpsMark = x.txn.stmtOpsMark ∧
      (enterDeferred T true x.txn).registeredAll = x.txn.registeredAll ∧
      (enterDeferred T true x.txn).deferredInsert = some T.tableId := by
    rw [enterDeferred]
    rcases hstart with hd | ⟨hd, -⟩
    · simp [hd]
    · simp [hd, beginDeferredInsert]
  obtain ⟨hops, hlookup, hmark, hall, hdef⟩ := hsame
  have hbuilt : Built P (fun _ => none) x.txn.ops x.changes := by
    rcases hstart with hd | ⟨hd, hstate⟩
    · exact (h.deferred _ hd).2.2.1
    · obtain ⟨ho, hc⟩ := h.fresh hd (snap_of_not_hasState hstate)
      rw [ho, hc]
      exact .nil
  have hguarded : ∀ c ∈ x.changes, ∃ T' r', Deferrable tables T.tableId T' ∧ c = .row T' none (some r') 0 ∧
      .put (T'.encodePk r' 0) (T'.encodeRow r') true ∈ x.txn.ops := by
    rcases hstart with hd | ⟨hd, hstate⟩
    · exact (h.deferred _ hd).2.2.2
    · rw [(h.fresh hd (snap_of_not_hasState hstate)).2]
      simp
  have hsnap : t.snap = none := by
    rw [hblind]
    rcases hstart with hd | ⟨-, hstate⟩
    · exact (h.deferred _ hd).2.1
    · exact snap_of_not_hasState hstate
  have hnone : t.deferredInsert ≠ none := by
    rw [hext.deferredInsert, hdef]
    exact Option.some_ne_none _
  refine ⟨?_, ?_, ?_, ?_, fun hd => absurd hd hnone, fun hd => absurd hd hnone, ?_⟩
  · rw [hext.ops, hext.lookup, hops, hlookup, h.lookup]
    exact foldl_append.symm
  · rw [hext.ops, hext.stmtOpsMark, hmark, hops, length_append]
    exact h.mark.trans (Nat.le_add_right _ _)
  · rw [length_append]
    exact h.stmtChanges.trans (Nat.le_add_right _ _)
  · intro hreg
    rw [hext.registeredAll, hall] at hreg
    obtain ⟨hsome, hd⟩ := h.multi hreg
    rcases hstart with hd' | ⟨-, hstate⟩
    · rw [hd] at hd'
      cases hd'
    · rw [snap_of_not_hasState hstate] at hsome
      cases hsome
  · intro id hid
    rw [hext.deferredInsert, hdef] at hid
    cases hid
    rw [hext.ops, hops]
    refine ⟨⟨T, hT⟩, hsnap, hbuilt.snoc (does_insert T _ r 0 true) hP, fun c hc => ?_⟩
    rcases mem_append.1 hc with hc | hc
    · obtain ⟨T', r', hT', rfl, hop⟩ := hguarded c hc
      exact ⟨T', r', hT', rfl, mem_append_left _ hop⟩
    · rw [mem_singleton.1 hc]
      exact ⟨T, r, hT, rfl, mem_append_right _ mem_cons_self⟩

section Facts

variable {m : Bytes → Option Bytes}

lemma fits_allocRowid (hlen : r.length = T.fields) (hroom : T.noPk = true → g.rowids T.tableId + 1 < 256 ^ 8) :
    T.Fits r (allocRowid T g).1 := by
  refine ⟨hlen, ?_⟩
  rw [allocRowid]
  cases hno : T.noPk with
  | false => rfl
  | true => exact hroom hno

lemma allocRowid_of_pk (hno : T.noPk = false) (g : Server) : allocRowid T g = (0, g) := by
  rw [allocRowid, hno, if_neg Bool.false_ne_true]

lemma allocRowid_of_noPk (hno : T.noPk = true) (g : Server) : (allocRowid T g).1 = g.rowids T.tableId + 1 := by
  rw [allocRowid, hno, if_pos rfl]

lemma facts_write (hT : T ∈ tables) (hfits : T.Fits r (allocRowid T g).1) (hpass : Passed T s false r (allocRowid T g).1 t) :
    CallFacts tables g T none (some r) (allocRowid T g).1 (t.view s) where
  table := hT
  read := nofun
  fits r' hr := by
    cases hr
    exact hfits
  place r' hr := by
    cases hr
    cases hno : T.noPk with
    | false => exact .inl (hpass.primary hno)
    | true => exact .inr (.inr ⟨rfl, allocRowid_of_noPk hno g⟩)
  own _ ix hix hu _ := onlyOwn_insert hu (hpass.unique ix hix)

lemma Sane.buffered (h : x.Sane tables P) (k : Bytes) : leave x.txn.ops k none = (x.txn.lookup.get k).getD none := by
  rw [h.lookup]
  exact (getD_lookupOf _ _ _).symm

lemma Sane.facts_deferred (h : x.Sane tables P) (hT : Deferrable tables T.tableId T) (hlen : r.length = T.fields)
    (hpass : Passed T s true r 0 x.txn) : CallFacts tables g T none (some r) 0 (fun k => leave x.txn.ops k none) where
  table := hT.1
  read := nofun
  fits r' hr := by
    cases hr
    exact ⟨hlen, by rw [hT.2.2.1]; rfl⟩
  place r' hr := by
    cases hr
    have habsent := hpass.primary hT.2.2.1
    refine .inl ?_
    rw [h.buffered]
    rw [if_pos rfl, bufferedKeyPresent] at habsent
    cases hl : x.txn.lookup.get (T.encodePk r 0) with
    | none => rfl
    | some v =>
      rw [hl] at habsent
      exact Option.isNone_iff_eq_none.1 (Option.isSome_eq_false_iff.1 habsent)
  own _ ix hix hu _ := by
    have hno := any_eq_false.1 hT.2.2.2 ix hix
    exact absurd hu hno

lemma facts_update (hT : T ∈ tables) (hgood : u.Good T m)
    (hfree : ∀ ix ∈ T.indexes, u.changes T ix = true → Free T m (u.isSelf T ix) u.new ix)
    (hplace : u.oldPk T ≠ u.newPk T → m (u.newPk T) = none) : CallFacts tables g T (some u.old) (some u.new) (u.rowid T) m where
  table := hT
  read r hr := by
    cases hr
    exact ⟨hgood.read.spec.1, hgood.read.spec.2.2⟩
  fits r hr := by
    cases hr
    exact hgood.fits
  place r hr := by
    cases hr
    rw [hgood.oldPk, hgood.newPk] at hplace
    by_cases heq : T.encodePk u.old (u.rowid T) = T.encodePk u.new (u.rowid T)
    · exact .inr (.inl ⟨u.old, rfl, heq⟩)
    · exact .inl (hplace heq)
  own hdesc ix hix hu hdist := onlyOwn_update hdesc hdist hgood hix hu (hfree ix hix)

lemma facts_delete (hT : T ∈ tables) (hread : RowRead T m current r) :
    CallFacts tables g T (some r) none (currentRowid T current r) m where
  table := hT
  read r' hr := by
    cases hr
    exact ⟨hread.spec.1, hread.spec.2.2⟩
  fits := nofun
  place := nofun
  own _ _ _ _ _ := nofun

end Facts

def Provides (tables : List Table) (P : (Bytes → Option Bytes) → Change → Prop) (g : Server) (x : Session) : Prop :=
  ∀ T old new id m, CallFacts tables g T old new id m → (∀ k, (m k).isSome = true → (x.txn.view g.store k).isSome = true) →
    P m (.row T old new id)

lemma Sane.deferDup_cases (hids : (tables.map Table.tableId).Nodup) (h : x.Sane tables P) (hT : T ∈ tables)
    (hsame : ∀ id ∈ x.txn.deferredInsert, id = T.tableId) :
    (deferDup T x.txn flags = false ∧ x.txn.deferredInsert = none) ∨
      (deferDup T x.txn flags = true ∧ Deferrable tables T.tableId T ∧
        (x.txn.deferredInsert = some T.tableId ∨ (x.txn.deferredInsert = none ∧ x.txn.hasState = false))) := by
  cases hd : x.txn.deferredInsert with
  | some id =>
    obtain rfl := hsame id hd
    obtain ⟨T₀, hT₀⟩ := (h.deferred _ hd).1
    obtain rfl : T₀ = T := inj_on_of_nodup_map hids hT₀.1 hT hT₀.2.1
    refine .inr ⟨?_, hT₀, .inl rfl⟩
    rw [deferDup, hT₀.2.2.1, hd]
    rfl
  | none =>
    cases hdup : deferDup T x.txn flags with
    | false => exact .inl ⟨rfl, rfl⟩
    | true =>
      obtain ⟨hstate, hunique⟩ := deferDup_start hdup hd
      have hno : T.noPk = false := (Bool.not_eq_true' _).mp (Bool.and_eq_true_iff.1 hdup).1
      exact .inr ⟨rfl, ⟨hT, rfl, hno, hunique⟩, .inr ⟨rfl, hstate⟩⟩

lemma Sane.writeRow (hids : (tables.map Table.tableId).Nodup) (h : x.Sane tables P)
    (hen : x.Enabled tables g (.writeRow T flags fails r)) (hP : Provides tables P g x) {g' : Server}
    (hw : MariaDb.writeRow T flags fails r g x.txn = (e, g', t)) :
    Sane tables P (x.record e t (.row T none (some r) (allocRowid T g).1)) := by
  obtain ⟨-, hT, hlen, hsame, hroom⟩ := hen
  obtain ⟨hrefused, hdone⟩ := writeRow_spec hw
  cases e with
  | some e =>
    refine h.pin (hrefused rfl).2 fun hne => ?_
    rcases h.deferDup_cases hids hT hsame with ⟨-, hnone⟩ | ⟨hd, hdef, -⟩
    · exact absurd hnone hne
    · exact writeRow_snap hd hdef.2.2.2 hw
  | none =>
    obtain ⟨hpass, t₁, hext, htrack⟩ := hdone rfl
    have ht : t = (t₁.trackRowCountDelta (allocRowid T g).2 T.tableId 1).2 := congrArg Prod.snd htrack
    rw [ht]
    refine Sane.track (x := x.record none t₁ _) ?_ _ _ _
    rcases h.deferDup_cases hids hT hsame with ⟨hd, hnone⟩ | ⟨hd, hdef, hstart⟩
    · rw [hd] at hpass hext
      exact h.call hnone hext (cons_ne_nil _ _) (does_insert T _ r _ false)
        (hP _ _ _ _ _ (facts_write hT (fits_allocRowid hlen hroom) hpass) fun _ hk => hk)
    · have hsnap : t₁.snap = x.txn.snap := by
        have hsame := writeRow_snap hd hdef.2.2.2 hw
        rwa [ht] at hsame
      rw [hd, allocRowid_of_pk hdef.2.2.1] at hpass hext
      rw [allocRowid_of_pk hdef.2.2.1]
      refine h.deferredCall hdef hstart hext hsnap (hP _ _ _ _ _ (h.facts_deferred hdef hlen hpass) fun k hk => ?_)
      rw [h.buffered] at hk
      rw [MariaDBTxn.view]
      cases hl : x.txn.lookup.get k with
      | none =>
        rw [hl] at hk
        cases hk
      | some v =>
        rw [hl] at hk
        exact hk

lemma Sane.updateRow (h : x.Sane tables P) (hen : x.Enabled tables g (.updateRow T fails u)) (hP : Provides tables P g x)
    (hfirst : FailsFirst T g.store fails u x.txn) (hu : MariaDb.updateRow T g.store fails u x.txn = (e, t)) :
    Sane tables P (x.record e t (.row T (some u.old) (some u.new) (u.rowid T))) := by
  obtain ⟨-, hT, hd, -, hgood⟩ := hen
  have hbel : keyBelongsToTable (u.newPk T) T.tableId = true := hgood.newPk ▸ T.encodePk_belongs _ _
  cases e with
  | some e => exact h.pin (hfirst.extends hbel hu) fun hne => absurd hd hne
  | none =>
    obtain ⟨hext, hfree, hplace⟩ := updateRow_spec hbel hu
    obtain ⟨op, hop, -⟩ := hgood.touched_newPk
    exact h.call hd hext (ne_nil_of_mem hop) (does_update hgood)
      (hP _ _ _ _ _ (facts_update hT hgood hfree hplace) fun _ hk => hk)

lemma Sane.deleteRow (h : x.Sane tables P) (hen : x.Enabled tables g (.deleteRow T current r)) (hP : Provides tables P g x) :
    Sane tables P (x.record none (MariaDb.deleteRow T current r g x.txn).2 (.row T (some r) none (currentRowid T current r))) := by
  obtain ⟨-, hT, hd, -, hread⟩ := hen
  obtain ⟨t₁, hext, hdel⟩ := deleteRow_spec T _ r g x.txn
  rw [hdel]
  refine Sane.track (x := x.record none t₁ _) ?_ _ _ _
  exact h.call hd hext (append_ne_nil_of_right_ne_nil _ (cons_ne_nil _ _)) (does_delete hread)
    (hP _ _ _ _ _ (facts_delete hT hread) fun _ hk => hk)

/-- What the calls must keep to: a failing `update_row` fails first, and no call bypasses the transaction. -/
def Careful (g : Server) (x : Session) : Action → Prop
  | .updateRow T fails u => FailsFirst T g.store fails u x.txn
  | .deleteAllRows _ _ => False
  | _ => True

lemma Sane.mark_here (h : x.Sane tables P) : Sane tables P
    { x with
      txn := { x.txn with registeredStmt := true, stmtOpsMark := x.txn.ops.length, stmtRowCountDeltas := x.txn.rowCountDeltas }
      stmtChanges := x.changes.length } where
  lookup := h.lookup
  mark := le_rfl
  stmtChanges := le_rfl
  multi := h.multi
  fresh := h.fresh
  built hd sn hsn := by
    have hbuilt := (h.built hd sn hsn).1
    rw [take_length, take_length]
    exact ⟨hbuilt, hbuilt⟩
  deferred := h.deferred

lemma Sane.begin (h : x.Sane tables P) (multi : Bool) (hd : multi = true → x.txn.deferredInsert = none) (s : Store) :
    Sane tables P { x with
      txn := x.txn.beginIfNeeded s multi
      stmtChanges := if x.txn.registeredStmt then x.stmtChanges else x.changes.length } := by
  have hmulti : Sane tables P { x with
      txn := if multi then { x.txn with snap := some (x.txn.snap.getD s), registeredAll := true } else x.txn } := by
    cases multi with
    | false => exact h
    | true =>
      have hpin := h.pin (extends_pinSnapshot s x.txn) fun hne => absurd (hd rfl) hne
      exact ⟨hpin.lookup, hpin.mark, hpin.stmtChanges, fun _ => ⟨rfl, hd rfl⟩, hpin.fresh, hpin.built, hpin.deferred⟩
  cases hreg : x.txn.registeredStmt with
  | true => cases multi <;> simpa [beginIfNeeded, hreg] using hmulti
  | false =>
    have hmark := hmulti.mark_here
    cases multi <;> simpa [beginIfNeeded, hreg] using hmark

lemma step_commit_final (hfinal : x.final all = true) : (x.step g (.commit all throws fails)).2.2 = {} := by
  have hspec : all = true ∨ x.txn.registeredAll = false := by simpa [final] using hfinal
  have ht : (x.txn.commit g all throws fails).2.2 = {} := (commit_spec hspec rfl).1
  rw [Session.step]
  dsimp only
  rw [hfinal, if_pos rfl, ht]

lemma not_final (h : x.final all = false) : all = false ∧ x.txn.registeredAll = true := by
  simpa [final] using h

lemma step_commit_stmt (hfinal : x.final all = false) :
    x.step g (.commit all throws fails) = (none, g, { x with txn := { x.txn with registeredStmt := false } }) := by
  obtain ⟨rfl, hreg⟩ := not_final hfinal
  have hc : x.txn.commit g false throws fails = (none, g, { x.txn with registeredStmt := false }) := by
    rw [MariaDBTxn.commit, if_pos (by rw [hreg]; rfl)]
  rw [Session.step]
  simp only [hc, hfinal]
  rfl

lemma step_rollback_final (hfinal : x.final all = true) : x.step g (.rollback all) = (none, (x.txn.abandon g).1, {}) := by
  have hno : (!all && x.txn.registeredAll) = false := by
    cases all <;> simp_all [final]
  have hr : x.txn.rollback g all = x.txn.abandon g := by
    rw [MariaDBTxn.rollback, hno, if_neg Bool.false_ne_true]
  rw [Session.step]
  simp only [hr, hfinal]
  rfl

lemma step_rollback_stmt (hfinal : x.final all = false) :
    x.step g (.rollback all) = (none, (x.txn.restoreRowCountDeltas g x.txn.stmtRowCountDeltas).1,
      { x with
        txn := { x.txn with
          ops := x.txn.ops.take x.txn.stmtOpsMark, lookup := lookupOf (x.txn.ops.take x.txn.stmtOpsMark)
          rowCountDeltas := x.txn.stmtRowCountDeltas, deferredInsert := none, registeredStmt := false }
        changes := x.changes.take x.stmtChanges }) := by
  obtain ⟨rfl, hreg⟩ := not_final hfinal
  have hr : x.txn.rollback g false = ((x.txn.restoreRowCountDeltas g x.txn.stmtRowCountDeltas).1,
      { x.txn with
        ops := x.txn.ops.take x.txn.stmtOpsMark, lookup := lookupOf (x.txn.ops.take x.txn.stmtOpsMark)
        rowCountDeltas := x.txn.stmtRowCountDeltas, deferredInsert := none, registeredStmt := false }) := by
    rw [MariaDBTxn.rollback, if_pos (by rw [hreg]; rfl)]
    rfl
  rw [Session.step]
  simp only [hr, hfinal]
  rfl

lemma Sane.commit_stmt (h : x.Sane tables P) : Sane tables P { x with txn := { x.txn with registeredStmt := false } } :=
  ⟨h.lookup, h.mark, h.stmtChanges, h.multi, h.fresh, h.built, h.deferred⟩

lemma Sane.rollback_stmt (h : x.Sane tables P) (hreg : x.txn.registeredAll = true) : Sane tables P
    { x with
      txn := { x.txn with
        ops := x.txn.ops.take x.txn.stmtOpsMark, lookup := lookupOf (x.txn.ops.take x.txn.stmtOpsMark)
        rowCountDeltas := x.txn.stmtRowCountDeltas, deferredInsert := none, registeredStmt := false }
      changes := x.changes.take x.stmtChanges } where
  lookup := rfl
  mark := by
    rw [length_take_of_le h.mark]
  stmtChanges := by
    rw [length_take_of_le h.stmtChanges]
  multi _ := ⟨(h.multi hreg).1, rfl⟩
  fresh _ hsn := by
    have hsome := (h.multi hreg).1
    rw [show x.txn.snap = none from hsn] at hsome
    cases hsome
  built _ sn hsn := by
    have hmark := (h.built (h.multi hreg).2 sn hsn).2
    rw [take_take, take_take, Nat.min_self, Nat.min_self]
    exact ⟨hmark, hmark⟩
  deferred := nofun

lemma Sane.step (hids : (tables.map Table.tableId).Nodup) (h : x.Sane tables P) {a : Action} (hen : x.Enabled tables g a)
    (hcare : x.Careful g a) (hP : Provides tables P g x) : Sane tables P (x.step g a).2.2 := by
  cases a with
  | begin multi => exact h.begin multi hen _
  | get => exact h.pin (extends_ensureSnapshot _ x.txn) (ensureSnapshot_snap _)
  | scan => exact h.pin (extends_pinSnapshot _ x.txn) fun hne => absurd hen hne
  | writeRow T flags fails r => exact h.writeRow hids hen hP rfl
  | updateRow T fails u => exact h.updateRow hen hP hcare rfl
  | deleteRow T current r => exact h.deleteRow hen hP
  | deleteAllRows T throws => exact hcare.elim
  | commit all throws fails =>
    cases hfinal : x.final all with
    | true =>
      rw [step_commit_final hfinal]
      exact .empty tables P
    | false =>
      rw [step_commit_stmt hfinal]
      exact h.commit_stmt
  | rollback all =>
    cases hfinal : x.final all with
    | true =>
      rw [step_rollback_final hfinal]
      exact .empty tables P
    | false =>
      rw [step_rollback_stmt hfinal]
      exact h.rollback_stmt (not_final hfinal).2

end Session

end Bytecask.MariaDb
