import Bytecask.MariaDb.Session

/-! The indexes describe the rows in what a transaction sees, after every call. -/

namespace Bytecask.MariaDb

open MariaDBTxn List Table

def Numbered (tables : List Table) (rowids : ℕ → ℕ) (m : Bytes → Option Bytes) : Prop :=
  ∀ T ∈ tables, T.noPk = true → ∀ r id, T.Fits r id → (m (T.encodePk r id)).isSome = true → id ≤ rowids T.tableId

def Change.table : Change → Table
  | .row T _ _ _ => T
  | .deleteAll T => T

def Lawful (tables : List Table) (m : Bytes → Option Bytes) (c : Change) : Prop := c.table ∈ tables ∧ c.Fitting m

section Rows

variable {tables : List Table} {n n' : ℕ → ℕ} {m base : Bytes → Option Bytes} {T : Table} {old new : Option Row} {id : ℕ}
  {ops : List Op} {cs : List Change}

lemma Change.isSome_of_leaves {k : Bytes} {v : Option Bytes} (h : ((Change.row T old new id).leaves k v).isSome = true) :
    v.isSome = true ∨ (T.imageOf new id k).isSome = true := by
  rw [Change.leaves] at h
  split_ifs at h
  · exact .inl h
  · exact .inr h

lemma Numbered.mono (h : Numbered tables n m) (hle : ∀ i, n i ≤ n' i) : Numbered tables n' m :=
  fun T hT hno r id hfits hs => (h T hT hno r id hfits hs).trans (hle T.tableId)

lemma id_eq_of_image {r r' : Row} {id id' : ℕ} (hno : T.noPk = true) (hfits : T.Fits r id) (hfits' : T.Fits r' id')
    (h : (T.image r' id' (T.encodePk r id)).isSome = true) : id = id' := by
  rw [image_of_row (T.encodePk_belongs r id)] at h
  have hkey : T.encodePk r id = T.encodePk r' id' := by
    by_contra hne
    rw [if_neg hne] at h
    cases h
  have hnone : T.primaryKey = none := Option.isNone_iff_eq_none.1 hno
  have hid := hfits.2
  have hid' := hfits'.2
  rw [hno, if_pos rfl] at hid hid'
  have hsuffix := append_cancel_left hkey
  rw [pkSuffix, pkSuffix, hnone] at hsuffix
  exact bigEndian_inj hid hid' hsuffix

section

variable (hids : (tables.map tableId).Nodup)

include hids

lemma Numbered.row (h : Numbered tables n m) (hT : T ∈ tables)
    (hfits : ∀ r ∈ new, T.Fits r id) (hid : T.noPk = true → ∀ r ∈ new, id ≤ n T.tableId) :
    Numbered tables n (fun k => (Change.row T old new id).leaves k (m k)) := by
  intro T' hT' hno r id' hfits' hs
  rcases Change.isSome_of_leaves hs with hs | hs
  · exact h T' hT' hno r id' hfits' hs
  · cases new with
    | none => cases hs
    | some r' =>
      have howns : T.Owns (T'.encodePk r id') := owns_of_image (Option.isSome_iff_ne_none.1 hs)
      obtain rfl : T' = T :=
        inj_on_of_nodup_map hids hT' hT (Table.Owns.tableId_eq (.inl (T'.encodePk_belongs r id')) howns)
      rw [id_eq_of_image hno hfits' (hfits r' rfl) hs]
      exact hid hno r' rfl

lemma described_change (h : ∀ T ∈ tables, T.imaging.Described m)
    (hlaw : Lawful tables m (.row T old new id)) :
    ∀ T' ∈ tables, T'.imaging.Described (fun k => (Change.row T old new id).leaves k (m k)) := by
  intro T' hT'
  by_cases hsame : T'.tableId = T.tableId
  · obtain rfl : T' = T := inj_on_of_nodup_map hids hT' hlaw.1 hsame
    exact described_row (h T' hT') hlaw.2
  · exact described_of_other (h T' hT') hsame

lemma Built.described (h : Built (Lawful tables) base ops cs)
    (hbase : ∀ T ∈ tables, T.imaging.Described base) : ∀ T ∈ tables, T.imaging.Described (fun k => leave ops k (base k)) := by
  induction h with
  | nil => exact hbase
  | @snoc ops new cs T old r id _ hdoes hlaw ih =>
    have hchange := described_change hids ih hlaw
    intro T' hT'
    refine (hchange T' hT').congr fun k _ => ?_
    rw [leave_append]
    exact hdoes.leave_eq k

end

end Rows

def Action.IsCall : Action → Prop
  | .begin _ | .get | .scan | .writeRow _ _ _ _ | .updateRow _ _ _ | .deleteRow _ _ _ => True
  | .deleteAllRows _ _ | .commit _ _ _ | .rollback _ => False

namespace Session

def Buffered (tables : List Table) (g g' : Server) (x x' : Session) : Prop :=
  ∃ T old new id ops, T ∈ tables ∧ x'.changes = x.changes ++ [.row T old new id] ∧ x'.txn.ops = x.txn.ops ++ ops ∧
    x'.txn.lookup = ops.foldl (fun m op => m.insert op.key op.value) x.txn.lookup ∧ Does T old new id (x.txn.view g.store) ops ∧
    (∀ r ∈ new, T.Fits r id) ∧ (T.noPk = true → id ≤ g'.rowids T.tableId ∨ ∃ r₀ ∈ old, T.Fits r₀ id)

structure Effect (tables : List Table) (g : Server) (x : Session) (e : Option HaError) (g' : Server) (x' : Session) : Prop where
  store : g'.store = g.store
  rowids : ∀ i, g.rowids i ≤ g'.rowids i
  snap : x'.txn.snap = x.txn.snap ∨ (x.txn.snap = none ∧ x'.txn.snap = some g.store)
  buffer : (x'.txn.ops = x.txn.ops ∧ x'.txn.lookup = x.txn.lookup ∧ x'.changes = x.changes) ∨
    (e = none ∧ Buffered tables g g' x x')

variable {tables : List Table} {x : Session} {g g' : Server} {t : MariaDBTxn}
  {T : Table} {flags : StmtFlags} {fails : Bytes → Bool} {r : Row} {current : Bytes} {u : RowUpdate} {e : Option HaError}
  {old new : Option Row} {id : ℕ} {ops : List Op}
variable {x' : Session}

lemma effect_of_extends_nil (hext : MariaDBTxn.Extends g.store [] x.txn x'.txn) (hchanges : x'.changes = x.changes)
    (hstore : g'.store = g.store) (hrowids : ∀ i, g.rowids i ≤ g'.rowids i) : Effect tables g x e g' x' :=
  ⟨hstore, hrowids, hext.snap, .inl ⟨hext.ops.trans (append_nil _), hext.lookup, hchanges⟩⟩

lemma rowids_le_alloc (T : Table) (g : Server) (i : ℕ) : g.rowids i ≤ (allocRowid T g).2.rowids i := by
  rw [allocRowid]
  split_ifs
  · by_cases hi : i = T.tableId
    · rw [hi]
      simp
    · simp [Function.update_of_ne hi]
  · exact le_rfl

lemma alloc_le_rowids (hno : T.noPk = true) (g : Server) : (allocRowid T g).1 ≤ (allocRowid T g).2.rowids T.tableId := by
  rw [allocRowid, if_pos hno]
  simp

lemma enterDeferred_keeps (T : Table) (defer : Bool) (t : MariaDBTxn) : (enterDeferred T defer t).ops = t.ops ∧
    (enterDeferred T defer t).lookup = t.lookup ∧ (enterDeferred T defer t).snap = t.snap := by
  rw [enterDeferred]
  split_ifs <;> exact ⟨rfl, rfl, rfl⟩

lemma effect_writeRow (hen : x.Enabled tables g (.writeRow T flags fails r))
    (hw : MariaDb.writeRow T flags fails r g x.txn = (e, g', t)) :
    Effect tables g x e g' (x.record e t (.row T none (some r) (allocRowid T g).1)) := by
  obtain ⟨-, hT, hlen, -, hroom⟩ := hen
  obtain ⟨hrefused, hdone⟩ := writeRow_spec hw
  cases e with
  | some e =>
    obtain ⟨rfl, hext⟩ := hrefused rfl
    exact effect_of_extends_nil hext rfl (allocRowid_store T g) (rowids_le_alloc T g)
  | none =>
    obtain ⟨-, t₁, hext, htrack⟩ := hdone rfl
    cases htrack
    obtain ⟨hops, hlookup, hsnap⟩ := enterDeferred_keeps T _ x.txn
    refine ⟨allocRowid_store T g, rowids_le_alloc T g, ?_, .inr ⟨rfl, T, none, some r, _,
      rowOps T (deferDup T x.txn flags) r (allocRowid T g).1, hT, rfl, ?_, ?_, does_insert T _ r _ _, ?_, fun hno => .inl (alloc_le_rowids hno g)⟩⟩
    · rw [← hsnap]
      exact hext.snap
    · rw [← hops]
      exact hext.ops
    · rw [← hlookup]
      exact hext.lookup
    · intro r' hr
      cases hr
      exact fits_allocRowid hlen hroom

lemma effect_updateRow (hen : x.Enabled tables g (.updateRow T fails u)) (hfirst : FailsFirst T g.store fails u x.txn)
    (hu : MariaDb.updateRow T g.store fails u x.txn = (e, t)) :
    Effect tables g x e g (x.record e t (.row T (some u.old) (some u.new) (u.rowid T))) := by
  obtain ⟨-, hT, -, -, hgood⟩ := hen
  have hbel : keyBelongsToTable (u.newPk T) T.tableId = true := hgood.newPk ▸ T.encodePk_belongs _ _
  cases e with
  | some e => exact effect_of_extends_nil (hfirst.extends hbel hu) rfl rfl fun _ => le_rfl
  | none =>
    obtain ⟨hext, -, -⟩ := updateRow_spec hbel hu
    refine ⟨rfl, fun _ => le_rfl, hext.snap, .inr ⟨rfl, T, _, _, _, _, hT, rfl, hext.ops, hext.lookup, does_update hgood, ?_,
      fun _ => .inr ⟨u.old, rfl, hgood.read.spec.1⟩⟩⟩
    intro r hr
    cases hr
    exact hgood.fits

lemma effect_deleteRow (hen : x.Enabled tables g (.deleteRow T current r)) :
    Effect tables g x none (MariaDb.deleteRow T current r g x.txn).1
      (x.record none (MariaDb.deleteRow T current r g x.txn).2 (.row T (some r) none (currentRowid T current r))) := by
  obtain ⟨-, hT, -, -, hread⟩ := hen
  obtain ⟨t₁, hext, hdel⟩ := deleteRow_spec T _ r g x.txn
  rw [hdel]
  exact ⟨rfl, fun _ => le_rfl, hext.snap, .inr ⟨rfl, T, _, none, _, _, hT, rfl, hext.ops, hext.lookup, does_delete hread, nofun,
    fun _ => .inr ⟨r, rfl, hread.spec.1⟩⟩⟩

lemma beginIfNeeded_keeps (t : MariaDBTxn) (s : Store) (multi : Bool) : (t.beginIfNeeded s multi).ops = t.ops ∧
    (t.beginIfNeeded s multi).lookup = t.lookup ∧ ((t.beginIfNeeded s multi).snap = t.snap ∨
      (t.snap = none ∧ (t.beginIfNeeded s multi).snap = some s)) := by
  have hsnap := (extends_pinSnapshot s t).snap
  rw [beginIfNeeded]
  cases multi <;> cases hreg : t.registeredStmt <;> simp [hreg] <;> simpa [pinSnapshot] using hsnap

lemma step_effect {a : Action} (hen : x.Enabled tables g a) (hcare : x.Careful g a) (hcall : a.IsCall) :
    Effect tables g x (x.step g a).1 (x.step g a).2.1 (x.step g a).2.2 := by
  cases a with
  | begin multi =>
    obtain ⟨hops, hlookup, hsnap⟩ := beginIfNeeded_keeps x.txn _ multi
    exact ⟨rfl, fun _ => le_rfl, hsnap, .inl ⟨hops, hlookup, rfl⟩⟩
  | get => exact effect_of_extends_nil (extends_ensureSnapshot _ x.txn) rfl rfl fun _ => le_rfl
  | scan => exact effect_of_extends_nil (extends_pinSnapshot _ x.txn) rfl rfl fun _ => le_rfl
  | writeRow T flags fails r => exact effect_writeRow hen rfl
  | updateRow T fails u => exact effect_updateRow hen hcare rfl
  | deleteRow T current r => exact effect_deleteRow hen
  | deleteAllRows | commit | rollback => exact hcall.elim

lemma Effect.view_of_quiet (h : Effect tables g x e g' x') (hlookup : x'.txn.lookup = x.txn.lookup) (k : Bytes) :
    x'.txn.view g'.store k = x.txn.view g.store k := by
  rw [MariaDBTxn.view, MariaDBTxn.view, hlookup, h.store]
  rcases h.snap with hsnap | ⟨hnone, hsome⟩
  · rw [hsnap]
  · rw [hnone, hsome]
    rfl

lemma Effect.view_of_call (h : Effect tables g x e g' x')
    (hlookup : x'.txn.lookup = ops.foldl (fun m op => m.insert op.key op.value) x.txn.lookup)
    (hdoes : Does T old new id (x.txn.view g.store) ops) (k : Bytes) :
    x'.txn.view g'.store k = (Change.row T old new id).leaves k (x.txn.view g.store k) := by
  have hbase : x'.txn.snap.getD g'.store = x.txn.snap.getD g.store := by
    rw [h.store]
    rcases h.snap with hsnap | ⟨hnone, hsome⟩
    · rw [hsnap]
    · rw [hnone, hsome]
      rfl
  rw [← hdoes.leave_eq, MariaDBTxn.view, hlookup, hbase, getD_foldl_insert, MariaDBTxn.view]

lemma Effect.numbered (hids : (tables.map tableId).Nodup) (h : Effect tables g x e g' x')
    (hn : Numbered tables g.rowids (x.txn.view g.store)) : Numbered tables g'.rowids (x'.txn.view g'.store) := by
  have hmono := hn.mono h.rowids
  rcases h.buffer with ⟨-, hlookup, -⟩ | ⟨-, T, old, new, id, ops, hT, -, -, hlookup, hdoes, hfits, hid⟩
  · have hview : x'.txn.view g'.store = x.txn.view g.store := funext (h.view_of_quiet hlookup)
    rw [hview]
    exact hmono
  · have hview : x'.txn.view g'.store = fun k => (Change.row T old new id).leaves k (x.txn.view g.store k) :=
      funext (h.view_of_call hlookup hdoes)
    rw [hview]
    refine hmono.row hids hT hfits fun hno r hr => ?_
    rcases hid hno with hle | ⟨r₀, hr₀, hfits₀⟩
    · exact hle
    · refine hmono T hT hno r₀ id hfits₀ ?_
      rw [hdoes.read r₀ hr₀]
      rfl

lemma provides_lawful (hn : Numbered tables g.rowids (x.txn.view g.store)) : Provides tables (Lawful tables) g x := by
  intro T old new id m hfacts hsub
  refine ⟨hfacts.table, hfacts.read, fun r hr => ⟨hfacts.fits r hr, ?_⟩⟩
  rcases hfacts.place r hr with hfree | hsame | ⟨hno, hnew⟩
  · exact .inl hfree
  · exact .inr hsame
  · refine .inl (Option.not_isSome_iff_eq_none.1 fun hs => ?_)
    have hle := hn T hfacts.table hno r id (hfacts.fits r hr) (hsub _ hs)
    omega

end Session

def merged (t : MariaDBTxn) (k : Bytes) : Option Bytes := (t.lookup.get k).getD (t.snap.bind (fun s => s.get k))

/-- Every row key holds a record of the table, and the entries of every index are those of the rows. -/
def IndexesDescribe (T : Table) (m : Bytes → Option Bytes) : Prop :=
  (∀ k v, keyBelongsToTable k T.tableId = true → m k = some v → ∃ r id, T.Fits r id ∧ k = T.encodePk r id ∧ v = T.encodeRow r) ∧
    ∀ ix ∈ T.indexes, ∀ k v, keyBelongsToIndex k T.tableId ix.indexId = true →
      (m k = some v ↔ v = [] ∧ ∃ r id, T.Fits r id ∧ m (T.encodePk r id) = some (T.encodeRow r) ∧ k = T.encodeSecKey ix r id)

def KeepsBuffer (s : Server × Session) (a : Action) : Prop :=
  (s.2.step s.1 a).1.isSome = true → (s.2.step s.1 a).2.2.txn.ops = s.2.txn.ops ∧ (s.2.step s.1 a).2.2.txn.lookup = s.2.txn.lookup

def calls (tables : List Table) : Machine (Server × Session) Action where
  initial s := s.2 = {} ∧ (∀ T ∈ tables, IndexesDescribe T s.1.store.get) ∧ Numbered tables s.1.rowids s.1.store.get
  Enabled s a := a.IsCall ∧ s.2.Enabled tables s.1 a
  next s a := (s.2.step s.1 a).2

/-- The runs in which every `update_row` that fails does so before it has changed an index. -/
def carefulCalls (tables : List Table) : Machine (Server × Session) Action :=
  { calls tables with Enabled := fun s a => (calls tables).Enabled s a ∧ s.2.Careful s.1 a }

section Describe

variable {T : Table} {m : Bytes → Option Bytes}
variable {k : Bytes}

lemma exists_stored {p : T.Stored → Prop} :
    (∃ s, T.imaging.Holds m s ∧ p s) ↔ ∃ r id, ∃ h : T.Fits r id, m (T.encodePk r id) = some (T.encodeRow r) ∧ p ⟨(r, id), h⟩ := by
  constructor
  · rintro ⟨⟨⟨r, id⟩, hfits⟩, hholds, hp⟩
    exact ⟨r, id, hfits, hholds.trans (T.image_encodePk r id), hp⟩
  · rintro ⟨r, id, hfits, hm, hp⟩
    exact ⟨⟨(r, id), hfits⟩, hm.trans (T.image_encodePk r id).symm, hp⟩

lemma described_at_row (hk : keyBelongsToTable k T.tableId = true) (v : Bytes) :
    (m k = some v ↔ ∃ s, T.imaging.Holds m s ∧ T.imaging.image s k = some v) ↔
      (m k = some v → ∃ r id, T.Fits r id ∧ k = T.encodePk r id ∧ v = T.encodeRow r) := by
  have himage : ∀ s : T.Stored, T.imaging.image s k = some v ↔ k = T.encodePk s.1.1 s.1.2 ∧ T.encodeRow s.1.1 = v := by
    intro s
    change T.image s.1.1 s.1.2 k = some v ↔ _
    rw [image_of_row hk]
    split_ifs with h <;> simp [h]
  simp only [himage]
  constructor
  · intro h hm
    obtain ⟨⟨⟨r, id⟩, hfits⟩, -, hk, hv⟩ := h.1 hm
    exact ⟨r, id, hfits, hk, hv.symm⟩
  · intro h
    constructor
    · intro hm
      obtain ⟨r, id, hfits, hk, hv⟩ := h hm
      refine ⟨⟨(r, id), hfits⟩, ?_, hk, hv.symm⟩
      change m (T.encodePk r id) = T.image r id (T.encodePk r id)
      rw [T.image_encodePk, ← hk, hm, hv]
    · rintro ⟨⟨⟨r, id⟩, hfits⟩, hholds, hk, hv⟩
      rw [hk, ← hv]
      exact hholds.trans (T.image_encodePk r id)

lemma described_at_index {ix : IndexInfo} (hix : ix ∈ T.indexes)
    (hk : keyBelongsToIndex k T.tableId ix.indexId = true) (v : Bytes) :
    (∃ s, T.imaging.Holds m s ∧ T.imaging.image s k = some v) ↔
      v = [] ∧ ∃ r id, T.Fits r id ∧ m (T.encodePk r id) = some (T.encodeRow r) ∧ k = T.encodeSecKey ix r id := by
  have himage : ∀ s : T.Stored, T.imaging.image s k = some v ↔ v = [] ∧ k = T.encodeSecKey ix s.1.1 s.1.2 := by
    intro s
    change T.image s.1.1 s.1.2 k = some v ↔ _
    rw [image_of_index hix hk]
    split_ifs with h <;> simp [h, eq_comm]
  simp only [exists_stored, himage]
  constructor
  · rintro ⟨r, id, hfits, hm, hv, hk⟩
    exact ⟨hv, r, id, hfits, hm, hk⟩
  · rintro ⟨hv, r, id, hfits, hm, hk⟩
    exact ⟨r, id, hfits, hm, hv, hk⟩

lemma indexesDescribe_iff : IndexesDescribe T m ↔ T.imaging.Described m := by
  constructor
  · rintro ⟨hrows, hindexes⟩ k (hk | ⟨ix, hix, hk⟩) v
    · exact (described_at_row hk v).2 (hrows k v hk)
    · exact (hindexes ix hix k v hk).trans (described_at_index hix hk v).symm
  · intro h
    refine ⟨fun k v hk => (described_at_row hk v).1 (h k (.inl hk) v), fun ix hix k v hk => ?_⟩
    exact (h k (.inr ⟨ix, hix, hk⟩) v).trans (described_at_index hix hk v)

end Describe

structure CallsInv (tables : List Table) (s : Server × Session) : Prop where
  sane : s.2.Sane tables (Lawful tables)
  store : ∀ T ∈ tables, T.imaging.Described s.1.store.get
  snap : ∀ sn ∈ s.2.txn.snap, sn = s.1.store
  numbered : Numbered tables s.1.rowids (s.2.txn.view s.1.store)

section Run

variable {tables : List Table} {s : Server × Session}

lemma callsInv_of_reachable (hids : (tables.map tableId).Nodup) (h : (carefulCalls tables).Reachable s) : CallsInv tables s := by
  apply h.invariant
  · rintro ⟨g, x⟩ ⟨hx, hdesc, hnum⟩
    cases show x = {} from hx
    exact ⟨.empty _ _, fun T hT => indexesDescribe_iff.1 (hdesc T hT), nofun, hnum⟩
  · rintro ⟨g, x⟩ a hinv ⟨⟨hcall, hen⟩, hcare⟩
    have heffect := Session.step_effect hen hcare hcall
    refine ⟨hinv.sane.step hids hen hcare (Session.provides_lawful hinv.numbered), ?_, ?_, heffect.numbered hids hinv.numbered⟩
    · change ∀ T ∈ tables, T.imaging.Described (x.step g a).2.1.store.get
      rw [heffect.store]
      exact hinv.store
    · intro sn hsn
      change sn = (x.step g a).2.1.store
      rw [heffect.store]
      rcases heffect.snap with hsame | ⟨-, hsome⟩
      · exact hinv.snap sn (hsame ▸ hsn)
      · exact Option.some.inj (hsn.symm.trans hsome)

lemma CallsInv.described (hids : (tables.map tableId).Nodup) (h : CallsInv tables s) :
    ∀ T ∈ tables, T.imaging.Described (merged s.2.txn) := by
  have hmerged : merged s.2.txn = fun k => leave s.2.txn.ops k (s.2.txn.snap.bind (fun sn => sn.get k)) := by
    funext k
    rw [merged, h.sane.lookup]
    exact getD_lookupOf _ _ _
  rw [hmerged]
  cases hd : s.2.txn.deferredInsert with
  | some id =>
    obtain ⟨-, hsnap, hbuilt, -⟩ := h.sane.deferred id hd
    rw [hsnap]
    exact hbuilt.described hids fun T _ => T.imaging.described_none
  | none =>
    cases hsnap : s.2.txn.snap with
    | none =>
      rw [(h.sane.fresh hd hsnap).1]
      exact fun T _ => T.imaging.described_none
    | some sn =>
      refine (h.sane.built hd sn hsnap).1.described hids ?_
      rw [h.snap sn hsnap]
      exact h.store

end Run

section Sample

def encodeField : Option Bytes → Bytes
  | none => [0]
  | some bs => bs.flatMap (fun b => [1, b]) ++ [2]

def decodeFields : Bytes → Bytes → Row
  | _, 0 :: bs => none :: decodeFields [] bs
  | acc, 1 :: b :: bs => decodeFields (acc ++ [b]) bs
  | acc, 2 :: bs => some acc :: decodeFields [] bs
  | _, _ => []

lemma decodeFields_value (v acc bs : Bytes) :
    decodeFields acc (v.flatMap (fun b => [1, b]) ++ 2 :: bs) = some (acc ++ v) :: decodeFields [] bs := by
  induction v generalizing acc with
  | nil => simp [decodeFields]
  | cons b v ih =>
    have hstep : decodeFields acc ((b :: v).flatMap (fun b => [1, b]) ++ 2 :: bs) =
        decodeFields (acc ++ [b]) (v.flatMap (fun b => [1, b]) ++ 2 :: bs) := rfl
    rw [hstep, ih, append_assoc]
    rfl

lemma decodeFields_encode (r : Row) : decodeFields [] (r.flatMap encodeField) = r := by
  induction r with
  | nil => rfl
  | cons f r ih =>
    rw [flatMap_cons]
    cases f with
    | none => exact congrArg _ ih
    | some v =>
      rw [encodeField, append_assoc, singleton_append, decodeFields_value, ih, nil_append]

def samplePart (fieldnr : ℕ) : KeyPart where
  fieldnr := fieldnr
  nullable := true
  storedLength := 2
  encode v := v.elim [0, 0] (fun v => [1, v.headD 0])
  length_encode v := by cases v <;> rfl
  encode_null _ v := by simp

def sampleTable : Table where
  tableId := 1
  primaryKey := some [samplePart 0]
  indexes := [⟨1, true, [samplePart 1]⟩, ⟨2, true, [samplePart 2]⟩]
  fields := 3
  encodeRow r := r.flatMap encodeField
  decodeRow := decodeFields []
  decode_encode r _ := decodeFields_encode r
  tableId_lt := by decide
  indexId_lt := by decide
  indexIds := by decide

def sampleRow (a b c : Byte) : Row := [some [a], some [b], some [c]]

def sampleUpdate (a b c b' c' : Byte) : RowUpdate where
  current := sampleTable.encodePk (sampleRow a b c) 0
  old := sampleRow a b c
  new := sampleRow a b' c'
  writeSet := [0, 1, 2]

def eager : StmtFlags := ⟨true, false⟩

def insertSample (a b c : Byte) : Action := .writeRow sampleTable eager (fun _ => false) (sampleRow a b c)

def updateSample (a b c b' c' : Byte) : Action := .updateRow sampleTable (fun _ => false) (sampleUpdate a b c b' c')

variable {x : Session} {g : Server}

lemma enabled_insertSample (hreg : x.txn.registeredStmt = true) (hd : x.txn.deferredInsert = none) (a b c : Byte) :
    x.Enabled [sampleTable] g (insertSample a b c) := by
  refine ⟨hreg, mem_singleton_self _, rfl, fun id hid => ?_, nofun⟩
  rw [hd] at hid
  cases hid

lemma enabled_updateSample {a b c : Byte} (hreg : x.txn.registeredStmt = true) (hd : x.txn.deferredInsert = none)
    (hsnap : x.txn.snap.isSome = true)
    (hrow : x.txn.view g.store (sampleTable.encodePk (sampleRow a b c) 0) = some (sampleTable.encodeRow (sampleRow a b c)))
    (b' c' : Byte) : x.Enabled [sampleTable] g (updateSample a b c b' c') := by
  refine ⟨hreg, mem_singleton_self _, hd, hsnap, ⟨0, ⟨rfl, rfl⟩, rfl, hrow⟩, rfl, fun i hne => ?_⟩
  match i with
  | 0 | 1 | 2 => simp [sampleUpdate]
  | i + 3 => exact absurd rfl hne

def sampleStart : Server × Session := ({}, {})

def sampleBegun : Server × Session := (calls [sampleTable]).next sampleStart (.begin true)

def sampleFirst : Server × Session := (calls [sampleTable]).next sampleBegun (insertSample 1 1 1)

def sampleFilled : Server × Session := (calls [sampleTable]).next sampleFirst (insertSample 2 2 2)

lemma sampleFilled_reachable : (carefulCalls [sampleTable]).Reachable sampleFilled := by
  have hstart : (carefulCalls [sampleTable]).Reachable sampleStart := by
    refine .start ⟨rfl, fun T _ => indexesDescribe_iff.2 ?_, fun T _ _ r id _ hs => ?_⟩
    · exact T.imaging.described_none
    · cases hs
  have hbegun := hstart.step (Action.begin true) ⟨⟨trivial, fun _ => rfl⟩, trivial⟩
  have hfirst := hbegun.step (insertSample 1 1 1) ⟨⟨trivial, enabled_insertSample rfl rfl 1 1 1⟩, trivial⟩
  exact hfirst.step (insertSample 2 2 2) ⟨⟨trivial, enabled_insertSample rfl rfl 2 2 2⟩, trivial⟩

lemma sampleFilled_update (b' c' : Byte) : sampleFilled.2.Enabled [sampleTable] sampleFilled.1 (updateSample 1 1 1 b' c') :=
  enabled_updateSample rfl rfl rfl (by decide +kernel) b' c'

lemma reachable_of_careful {tables : List Table} {s : Server × Session} (h : (carefulCalls tables).Reachable s) :
    (calls tables).Reachable s := by
  induction h with
  | start hi => exact .start hi
  | step a _ ha ih => exact ih.step a ha.1

end Sample

section Settled

variable {tables : List Table} {s : Server × Session}

/-- In every run whose failing `update_row` calls fail first, what the transaction sees has the index entries of its rows
and no others, and a call that fails has buffered nothing. -/
theorem indexes_describe_rows (hids : (tables.map tableId).Nodup) (h : (carefulCalls tables).Reachable s) :
    (∀ T ∈ tables, IndexesDescribe T (merged s.2.txn)) ∧ ∀ a, (carefulCalls tables).Enabled s a → KeepsBuffer s a := by
  refine ⟨fun T hT => indexesDescribe_iff.2 ((callsInv_of_reachable hids h).described hids T hT), ?_⟩
  rintro a ⟨⟨hcall, hen⟩, hcare⟩ herror
  rcases (Session.step_effect hen hcare hcall).buffer with ⟨hops, hlookup, -⟩ | ⟨hnone, -⟩
  · exact ⟨hops, hlookup⟩
  · rw [hnone] at herror
    cases herror

theorem refusedThenDone_described :
    let s := (calls [sampleTable]).next ((calls [sampleTable]).next sampleFilled (updateSample 1 1 1 2 3)) (updateSample 1 1 1 3 3)
    (∀ T ∈ [sampleTable], IndexesDescribe T (merged s.2.txn)) ∧ ∀ a, (carefulCalls [sampleTable]).Enabled s a → KeepsBuffer s a := by
  refine indexes_describe_rows (by decide) ?_
  refine .step (updateSample 1 1 1 3 3) (.step (updateSample 1 1 1 2 3) sampleFilled_reachable
    ⟨⟨trivial, sampleFilled_update 2 3⟩, ?_⟩) ⟨⟨trivial, ?_⟩, ?_⟩
  · intro ix hix hpass
    have hfirst : sampleTable.indexes.find? ((sampleUpdate 1 1 1 2 3).changes sampleTable) = some ⟨1, true, [samplePart 1]⟩ := rfl
    cases hfirst.symm.trans hix
    exact absurd hpass (by decide +kernel)
  · exact enabled_updateSample rfl rfl rfl (by decide +kernel) 3 3
  · refine fun ix _ _ => ⟨fun jx hjx _ => ?_, fun hne => absurd rfl hne⟩
    rcases mem_pair.1 hjx with rfl | rfl <;> decide +kernel

/-- An `update_row` that changes the entry of one index and is refused at the next leaves the first change behind. -/
theorem refused_update_half_done : ∃ s a, (calls [sampleTable]).Reachable s ∧ (calls [sampleTable]).Enabled s a ∧
    (s.2.step s.1 a).1 = some (.foundDuppKey (some (.index 2))) ∧ (¬ KeepsBuffer s a) ∧
    ¬ IndexesDescribe sampleTable (merged (s.2.step s.1 a).2.2.txn) := by
  refine ⟨sampleFilled, updateSample 1 1 1 3 2, reachable_of_careful sampleFilled_reachable,
    ⟨trivial, sampleFilled_update 3 2⟩, by decide +kernel, fun hkeeps => ?_, fun hdesc => ?_⟩
  · have hops := (hkeeps (by decide +kernel)).1
    exact absurd hops (by decide +kernel)
  · -- The row is as it was, and its entry in the first index is gone.
    have hentry := (hdesc.2 ⟨1, true, [samplePart 1]⟩ mem_cons_self _ [] (sampleTable.encodeSecKey_belongs _ _ 0)).2
      ⟨rfl, sampleRow 1 1 1, 0, ⟨rfl, rfl⟩, by decide +kernel, rfl⟩
    exact absurd hentry (by decide +kernel)

end Settled

end Bytecask.MariaDb
