import Bytecask.MariaDb.Calls
import Bytecask.MariaDb.CountRange

/-! A transaction of the plugin is all or nothing: until it commits the engine is as without it, and what it reads is
its snapshot with its calls applied. -/

namespace Bytecask.MariaDb

open MariaDBTxn Session SortedMap

/-- One connection's transaction among others, with the server as it were had the transaction never run. -/
structure Running where
  server : Server
  session : Session := {}
  without : Server

structure Meanwhile where
  writes : List WriteOp
  counts : ℕ → ℤ
  numbers : ℕ → ℕ

def Server.meanwhile (g : Server) (o : Meanwhile) : Server where
  store := g.store.apply o.writes
  rowids i := g.rowids i + o.numbers i
  rowCounts i := g.rowCounts i + o.counts i

inductive Event where
  | own (a : Action)
  | others (o : Meanwhile)

def Session.Ends (x : Session) : Action → Prop
  | .commit all _ _ | .rollback all => x.final all = true
  | _ => False

def transaction (tables : List Table) : Machine Running Event where
  initial s := s.session = {} ∧ s.without = s.server ∧ s.server.store.Sound
  Enabled s
    | .own a => s.session.Enabled tables s.server a ∧ ¬ s.session.Ends a
    | .others _ => True
  next s
    | .own a => { s with server := (s.session.step s.server a).2.1, session := (s.session.step s.server a).2.2 }
    | .others o => { s with server := s.server.meanwhile o, without := s.without.meanwhile o }

/-- The runs in which no `delete_all_rows` bypasses the transaction and every failing `update_row` fails first. -/
def carefulTransaction (tables : List Table) : Machine Running Event :=
  { transaction tables with
    Enabled := fun s ev => (transaction tables).Enabled s ev ∧ ∀ a, ev = .own a → s.session.Careful s.server a }

section Counters

variable {tables : List Table} {g g' : Server} {x : Session} {t t₁ t' : MariaDBTxn} {T : Table}

/-- The counters move with the transaction's deltas, and what the statement saved of them stays or is saved anew. -/
structure Tracks (g : Server) (t : MariaDBTxn) (g' : Server) (t' : MariaDBTxn) : Prop where
  counts : ∀ id, g'.rowCounts id - g.rowCounts id = (t'.rowCountDeltas.get id).getD 0 - (t.rowCountDeltas.get id).getD 0
  kept : ∀ id, t'.rowCountDeltas.get id = none → t.rowCountDeltas.get id = none
  stmt : t'.stmtRowCountDeltas = t.stmtRowCountDeltas ∨ t'.stmtRowCountDeltas = t'.rowCountDeltas

lemma tracks_of_same (hg : g'.rowCounts = g.rowCounts) (ht : t'.rowCountDeltas = t.rowCountDeltas)
    (hs : t'.stmtRowCountDeltas = t.stmtRowCountDeltas) : Tracks g t g' t' :=
  ⟨fun id => by rw [hg, ht]; omega, fun id h => ht ▸ h, .inl hs⟩

lemma tracks_of_track (g : Server) (tableId : ℕ) (d : ℤ) :
    Tracks g t (t.trackRowCountDelta g tableId d).1 (t.trackRowCountDelta g tableId d).2 where
  counts id := by
    change Function.update g.rowCounts tableId (g.rowCounts tableId + d) id - g.rowCounts id =
      ((t.rowCountDeltas.insert tableId ((t.rowCountDeltas.get tableId).getD 0 + d)).get id).getD 0 - _
    by_cases hid : id = tableId
    · rw [hid, Function.update_self, get_insert_self, Option.getD_some]
      omega
    · rw [Function.update_of_ne hid, get_insert_ne _ _ hid]
      omega
  kept id h := by
    change (t.rowCountDeltas.insert tableId _).get id = none at h
    by_cases hid : id = tableId
    · rw [hid, get_insert_self] at h
      cases h
    · rwa [get_insert_ne _ _ hid] at h
  stmt := .inl rfl

lemma tracks_of_extends {new : List Op} (hext : MariaDBTxn.Extends g.store new t t') (hg : g'.rowCounts = g.rowCounts) : Tracks g t g' t' :=
  tracks_of_same hg hext.rowCountDeltas hext.stmtRowCountDeltas

lemma allocRowid_rowCounts (T : Table) (g : Server) : (allocRowid T g).2.rowCounts = g.rowCounts := by
  rw [allocRowid]
  split_ifs <;> rfl

lemma Tracks.congr (h : Tracks g t₁ g' t') (hd : t₁.rowCountDeltas = t.rowCountDeltas) (hs : t₁.stmtRowCountDeltas = t.stmtRowCountDeltas) :
    Tracks g t g' t' :=
  ⟨fun id => hd ▸ h.counts id, fun id => hd ▸ h.kept id, hs ▸ h.stmt⟩

lemma tracks_writeRow {flags : StmtFlags} {fails : Bytes → Bool} {r : Row} {e : Option HaError}
    (h : writeRow T flags fails r g t = (e, g', t')) : Tracks g t g' t' := by
  obtain ⟨hrefused, hdone⟩ := writeRow_spec h
  cases e with
  | some e =>
    obtain ⟨rfl, hext⟩ := hrefused rfl
    exact tracks_of_extends hext (allocRowid_rowCounts T g)
  | none =>
    obtain ⟨-, t₁, hext, htrack⟩ := hdone rfl
    have hentered : (enterDeferred T (deferDup T t flags) t).rowCountDeltas = t.rowCountDeltas ∧
        (enterDeferred T (deferDup T t flags) t).stmtRowCountDeltas = t.stmtRowCountDeltas := by
      rw [enterDeferred]
      split_ifs <;> exact ⟨rfl, rfl⟩
    have htracks := tracks_of_track (t := t₁) (allocRowid T g).2 T.tableId 1
    rw [← htrack] at htracks
    refine Tracks.congr ⟨fun id => ?_, htracks.kept, htracks.stmt⟩ (hext.rowCountDeltas.trans hentered.1)
      (hext.stmtRowCountDeltas.trans hentered.2)
    rw [← allocRowid_rowCounts T g]
    exact htracks.counts id

lemma tracks_begin (t : MariaDBTxn) (g : Server) (multi : Bool) : Tracks g t g (t.beginIfNeeded g.store multi) := by
  have hdeltas : (t.beginIfNeeded g.store multi).rowCountDeltas = t.rowCountDeltas ∧
      ((t.beginIfNeeded g.store multi).stmtRowCountDeltas = t.stmtRowCountDeltas ∨
        (t.beginIfNeeded g.store multi).stmtRowCountDeltas = t.rowCountDeltas) := by
    rw [beginIfNeeded]
    cases multi <;> cases hreg : t.registeredStmt <;> simp [hreg]
  refine ⟨fun id => ?_, fun id h => hdeltas.1 ▸ h, hdeltas.1.symm ▸ hdeltas.2⟩
  rw [hdeltas.1]
  omega

lemma tracks_step {a : Action} (hen : x.Enabled tables g a) (hcare : x.Careful g a) (hcall : a.IsCall) :
    Tracks g x.txn (x.step g a).2.1 (x.step g a).2.2.txn := by
  cases a with
  | begin multi => exact tracks_begin x.txn g multi
  | get => exact tracks_of_extends (extends_ensureSnapshot _ x.txn) rfl
  | scan => exact tracks_of_extends (extends_pinSnapshot _ x.txn) rfl
  | writeRow T flags fails r => exact tracks_writeRow rfl
  | updateRow T fails u =>
    obtain ⟨-, -, -, -, hgood⟩ := hen
    cases hu : MariaDb.updateRow T g.store fails u x.txn with
    | mk e t =>
      have ht : (x.step g (.updateRow T fails u)).2.2.txn = t := by
        rw [Session.step, hu]
        rfl
      have hbel : keyBelongsToTable (u.newPk T) T.tableId = true := hgood.newPk ▸ T.encodePk_belongs _ _
      rw [ht]
      cases e with
      | some e => exact tracks_of_extends (FailsFirst.extends hcare hbel hu) rfl
      | none => exact tracks_of_extends (updateRow_spec hbel hu).1 rfl
  | deleteRow T current r =>
    obtain ⟨t₁, hext, hdel⟩ := deleteRow_spec T _ r g x.txn
    have htracks := tracks_of_track (t := t₁) g T.tableId (-1)
    rw [← hdel] at htracks
    exact htracks.congr hext.rowCountDeltas hext.stmtRowCountDeltas
  | deleteAllRows | commit | rollback => exact hcall.elim

end Counters

/-- What the reads of a transaction give is `m`: point reads, walks over a table or an index in both directions from where the
handler begins them (in reverse, with no stray key between the object's keys and the beginning), and settled range counts. -/
structure ReadsAs (tables : List Table) (t : MariaDBTxn) (s : Store) (m : Bytes → Option Bytes) : Prop where
  get : ∀ k, (t.get s k).1 = m k
  table : ∀ T ∈ tables, ∀ start, tableIdPrefix T.tableId ≤ start →
    (t.iterPrefix s start (tableIdUpperBound T.tableId) T.tableId).Lists
        (fun k => keyBelongsToTable k T.tableId = true ∧ start ≤ k) m false ∧
      ((∀ j, t.Holds s j → tableIdPrefix T.tableId ≤ j → j ≤ start → keyBelongsToTable j T.tableId = true) →
        (t.riterPrefix s start (tableIdPrefix T.tableId) T.tableId).Lists
          (fun k => keyBelongsToTable k T.tableId = true ∧ k ≤ start) m false)
  index : ∀ T ∈ tables, ∀ ix ∈ T.indexes, ∀ start, indexIdPrefix T.tableId ix.indexId ≤ start →
    (t.iterIndexPrefix s start (indexIdUpperBound T.tableId ix.indexId) T.tableId ix.indexId).Lists
        (fun k => keyBelongsToIndex k T.tableId ix.indexId = true ∧ start ≤ k) m true ∧
      ((∀ j, t.Holds s j → indexIdPrefix T.tableId ix.indexId ≤ j → j ≤ start → keyBelongsToIndex j T.tableId ix.indexId = true) →
        (t.riterIndexPrefix s start (indexIdPrefix T.tableId ix.indexId) T.tableId ix.indexId).Lists
          (fun k => keyBelongsToIndex k T.tableId ix.indexId = true ∧ k ≤ start) m true)
  count : ∀ lo hi limit, Settled t s lo hi limit →
    (t.countRange s lo hi limit).1 = min limit {k | lo ≤ k ∧ k < hi ∧ (m k).isSome}.ncard

/-- What a transaction is promised, wherever it stands: the engine is as without it, it reads its calls over its
snapshot, an end without a commit leaves no trace, and a commit leaves its calls. -/
structure AllOrNothing (tables : List Table) (s : Running) : Prop where
  untouched : s.server.store = s.without.store
  reads : ReadsAs tables s.session.txn s.server.store
    fun k => applied s.session.changes k ((s.session.txn.snap.getD s.server.store).get k)
  rolledBack : ∀ all e g x, s.session.final all = true → s.session.step s.server (.rollback all) = (e, g, x) →
    g.store = s.without.store ∧ g.rowCounts = s.without.rowCounts
  refused : ∀ all throws fails e g x, s.session.final all = true → s.session.step s.server (.commit all throws fails) = (some e, g, x) →
    g.store = s.without.store ∧ g.rowCounts = s.without.rowCounts
  committed : ∀ all throws fails g x, s.session.final all = true → s.session.step s.server (.commit all throws fails) = (none, g, x) →
    ∀ k, g.store.get k = applied s.session.changes k (s.without.store.get k)

structure RunningInv (tables : List Table) (s : Running) : Prop where
  sane : s.session.Sane tables (fun _ _ => True)
  store : s.server.store = s.without.store
  sound : s.server.store.Sound
  snap : ∀ sn ∈ s.session.txn.snap, sn.Sound ∧ Store.Follows sn s.server.store
  counts : ∀ id, s.server.rowCounts id = s.without.rowCounts id + (s.session.txn.rowCountDeltas.get id).getD 0
  stmt : ∀ id, s.session.txn.rowCountDeltas.get id = none → s.session.txn.stmtRowCountDeltas.get id = none

section Run

variable {tables : List Table} {s : Running} {k : Bytes}
variable {P : (Bytes → Option Bytes) → Change → Prop} {x : Session} {all throws : Bool} {fails : Bytes → Bool}

lemma get_fst (t : MariaDBTxn) (s : Store) (k : Bytes) : (t.get s k).1 = t.view s k := by
  rw [MariaDBTxn.get, MariaDBTxn.view]
  cases t.lookup.get k with
  | some v => rfl
  | none =>
    rcases (extends_ensureSnapshot s t).snap with hsame | ⟨hnone, hsome⟩
    · change ((t.ensureSnapshot s).snap.getD s).get k = _
      rw [hsame]
      rfl
    · change ((t.ensureSnapshot s).snap.getD s).get k = _
      rw [hnone, hsome]
      rfl

lemma readsAs_view (tables : List Table) (t : MariaDBTxn) (s : Store) : ReadsAs tables t s (t.view s) where
  get := get_fst t s
  table T _ start hstart := by
    have hbel : ∀ k, keyBelongsToTable k T.tableId = true ↔ tableIdPrefix T.tableId <+: k := fun _ => belongsToTable_iff
    refine ⟨?_, fun hclear => ?_⟩
    · exact lists_mergeFrom hbel (List.cons_ne_nil _ _) hstart (fun _ _ => lt_tableIdUpperBound T.tableId_lt) nofun
    · exact lists_mergeFrom hbel (List.cons_ne_nil _ _) hstart nofun fun _ => hclear
  index T _ ix hix start hstart := by
    refine ⟨lists_iterIndexPrefix (T.indexId_lt ix hix) hstart, fun hclear => ?_⟩
    exact lists_mergeFrom (fun _ => belongsToIndex_iff) (List.cons_ne_nil _ _) hstart nofun fun _ => hclear
  count _ _ _ hsettled := hsettled.countRange

lemma Session.Sane.leave_eq (h : x.Sane tables P) {m : Bytes → Option Bytes}
    (hm : ∀ sn ∈ x.txn.snap, ∀ op ∈ x.txn.ops, m op.key = sn.get op.key) (k : Bytes) :
    leave x.txn.ops k (m k) = applied x.changes k (m k) := by
  cases hd : x.txn.deferredInsert with
  | some id =>
    obtain ⟨-, -, hbuilt, hinserts⟩ := h.deferred id hd
    refine hbuilt.leave_of_inserts (fun c hc => ?_) k _
    obtain ⟨T, r, -, rfl, -⟩ := hinserts c hc
    rfl
  | none =>
    cases hsnap : x.txn.snap with
    | none =>
      rw [(h.fresh hd hsnap).1, (h.fresh hd hsnap).2]
      rfl
    | some sn => exact (h.built hd sn hsnap).1.leave_of_agree (hm sn hsnap) k

lemma Session.Sane.view_eq (h : x.Sane tables P) (s : Store) (k : Bytes) :
    x.txn.view s k = applied x.changes k ((x.txn.snap.getD s).get k) := by
  rw [MariaDBTxn.view, h.lookup, getD_lookupOf]
  refine h.leave_eq (m := (x.txn.snap.getD s).get) (fun sn hsn op _ => ?_) k
  rw [show x.txn.snap = some sn from hsn]
  rfl

section

variable (h : RunningInv tables s)

include h

lemma runningInv_call {a : Action} (hids : (tables.map Table.tableId).Nodup)
    (hen : s.session.Enabled tables s.server a) (hcare : s.session.Careful s.server a) (hcall : a.IsCall) :
    RunningInv tables ((transaction tables).next s (.own a)) := by
  have heffect := step_effect hen hcare hcall
  have htracks := tracks_step hen hcare hcall
  refine ⟨h.sane.step hids hen hcare fun _ _ _ _ _ _ _ => trivial, heffect.store.trans h.store, ?_, ?_, ?_, ?_⟩
  · change (s.session.step s.server a).2.1.store.Sound
    rw [heffect.store]
    exact h.sound
  · intro sn hsn
    change sn.Sound ∧ Store.Follows sn (s.session.step s.server a).2.1.store
    rw [heffect.store]
    rcases heffect.snap with hsame | ⟨-, hsome⟩
    · exact h.snap sn (hsame ▸ hsn)
    · obtain rfl := Option.some.inj (hsome.symm.trans hsn)
      exact ⟨h.sound, .refl _⟩
  · intro id
    have hmoved := htracks.counts id
    have hbefore := h.counts id
    change (s.session.step s.server a).2.1.rowCounts id = s.without.rowCounts id +
      ((s.session.step s.server a).2.2.txn.rowCountDeltas.get id).getD 0
    omega
  · intro id hnone
    rcases htracks.stmt with hsame | hsaved
    · exact (congrArg (fun m => m.get id) hsame).trans (h.stmt id (htracks.kept id hnone))
    · exact (congrArg (fun m => m.get id) hsaved).trans hnone

lemma RunningInv.rolledBack (saved : SortedMap ℕ ℤ)
    (hsaved : ∀ id, s.session.txn.rowCountDeltas.get id = none → saved.get id = none) (id : ℕ) :
    (s.session.txn.restoreRowCountDeltas s.server saved).1.rowCounts id = s.without.rowCounts id + (saved.get id).getD 0 := by
  have hbefore := h.counts id
  have hrestored := restoreRowCountDeltas_spec (t := s.session.txn) s.server saved hsaved id
  omega

lemma runningInv_commit_stmt (hstmt : s.session.final all = false) :
    RunningInv tables ((transaction tables).next s (.own (.commit all throws fails))) := by
  change RunningInv tables { s with
    server := (s.session.step s.server (.commit all throws fails)).2.1
    session := (s.session.step s.server (.commit all throws fails)).2.2 }
  rw [step_commit_stmt hstmt]
  exact ⟨h.sane.commit_stmt, h.store, h.sound, h.snap, h.counts, h.stmt⟩

lemma runningInv_rollback_stmt (hstmt : s.session.final all = false) :
    RunningInv tables ((transaction tables).next s (.own (.rollback all))) := by
  change RunningInv tables { s with
    server := (s.session.step s.server (.rollback all)).2.1
    session := (s.session.step s.server (.rollback all)).2.2 }
  rw [step_rollback_stmt hstmt]
  exact ⟨h.sane.rollback_stmt (not_final hstmt).2, h.store, h.sound, h.snap, h.rolledBack _ h.stmt, fun _ hnone => hnone⟩

lemma runningInv_others (o : Meanwhile) : RunningInv tables ((transaction tables).next s (.others o)) := by
  refine ⟨h.sane, congrArg (fun st => Store.apply st _) h.store, h.sound.apply _, ?_, ?_, h.stmt⟩
  · intro sn hsn
    obtain ⟨hsound, hfollows⟩ := h.snap sn hsn
    exact ⟨hsound, hfollows.trans (Store.follows_apply _ _)⟩
  · intro id
    have hbefore := h.counts id
    change s.server.rowCounts id + o.counts id =
      s.without.rowCounts id + o.counts id + (s.session.txn.rowCountDeltas.get id).getD 0
    omega

omit h in
lemma runningInv_of_reachable (hids : (tables.map Table.tableId).Nodup) (h : (carefulTransaction tables).Reachable s) :
    RunningInv tables s := by
  apply h.invariant
  · rintro ⟨g, x, w⟩ ⟨hx, hw, hsound⟩
    cases show x = {} from hx
    cases show w = g from hw
    refine ⟨.empty _ _, rfl, hsound, nofun, fun id => ?_, fun _ _ => rfl⟩
    exact (Int.add_zero _).symm
  · rintro s (a | o) hinv ⟨hen, hcare⟩
    · obtain ⟨hen, hends⟩ := hen
      have hcare := hcare a rfl
      cases a with
      | begin | get | scan | writeRow | updateRow | deleteRow => exact runningInv_call hinv hids hen hcare trivial
      | deleteAllRows => exact hcare.elim
      | commit all throws fails => exact runningInv_commit_stmt hinv (Bool.eq_false_iff.2 hends)
      | rollback all => exact runningInv_rollback_stmt hinv (Bool.eq_false_iff.2 hends)
    · exact runningInv_others hinv o

lemma RunningInv.abandoned : (s.session.txn.abandon s.server).1.store = s.without.store ∧
    (s.session.txn.abandon s.server).1.rowCounts = s.without.rowCounts := by
  refine ⟨h.store, funext fun id => ?_⟩
  have hrestored := h.rolledBack SortedMap.empty (fun _ _ => rfl) id
  rw [get_empty, Option.getD_none, Int.add_zero] at hrestored
  exact hrestored

lemma RunningInv.applied_commit {st : Store} (happ : s.session.txn.Applied s.server.store st) (k : Bytes) :
    st.get k = applied s.session.changes k (s.without.store.get k) := by
  obtain ⟨p, hplan, hpass, rfl⟩ := happ
  obtain ⟨hsnap, hwrites, -⟩ := buildPlan_spec hplan
  rw [get_apply_write, ← h.store]
  refine h.sane.leave_eq (fun sn hsn op hop => ?_) k
  obtain ⟨hsound, hfollows⟩ := h.snap sn hsn
  have hversion := Store.version_of_passes hpass (hsnap.trans hsn) (hwrites ▸ List.mem_map_of_mem hop) (Op.write_touches.2 rfl)
  exact Store.get_eq_of_entries (hsound.eq_of_version hfollows hversion)

lemma RunningInv.commit {e : Option HaError} {g : Server}
    (hfinal : s.session.final all = true) (hc : s.session.step s.server (.commit all throws fails) = (e, g, x)) :
    (e.isSome = true → g.store = s.without.store ∧ g.rowCounts = s.without.rowCounts) ∧
      (e = none → ∀ k, g.store.get k = applied s.session.changes k (s.without.store.get k)) := by
  have hspec : all = true ∨ s.session.txn.registeredAll = false := by simpa [Session.final] using hfinal
  cases hcommit : s.session.txn.commit s.server all throws fails with
  | mk e' rest =>
    obtain ⟨g', t⟩ := rest
    rw [Session.step, hcommit] at hc
    cases hc
    obtain ⟨-, ⟨rfl, ⟨rfl, hops⟩ | ⟨st, happ, rfl⟩⟩ | ⟨herr, rfl⟩⟩ := commit_spec hspec hcommit
    · refine ⟨(by simp), fun _ k => ?_⟩
      have hleave := h.sane.leave_eq (m := s.without.store.get) (fun sn _ op hop => by rw [hops] at hop; cases hop) k
      rw [hops] at hleave
      rw [h.store]
      exact hleave
    · exact ⟨(by simp), fun _ => h.applied_commit happ⟩
    · refine ⟨fun _ => h.abandoned, fun hnone => ?_⟩
      rw [hnone] at herr
      cases herr

end

lemma reachable_own (h : (carefulTransaction tables).Reachable s) (a : Action) (hen : s.session.Enabled tables s.server a)
    (hends : ¬ s.session.Ends a) (hcare : s.session.Careful s.server a) :
    (carefulTransaction tables).Reachable ((carefulTransaction tables).next s (.own a)) :=
  h.step (Event.own a) ⟨⟨hen, hends⟩, fun a' ha => by cases ha; exact hcare⟩

/-- In every run that keeps to the condition, the transaction is all or nothing and reads its own writes. -/
theorem transaction_atomic (hids : (tables.map Table.tableId).Nodup) (h : (carefulTransaction tables).Reachable s) :
    AllOrNothing tables s := by
  have hinv := runningInv_of_reachable hids h
  refine ⟨hinv.store, ?_, ?_, ?_, ?_⟩
  · rw [← funext (hinv.sane.view_eq _)]
    exact readsAs_view tables _ _
  · intro all e g x hfinal hstep
    rw [step_rollback_final hfinal] at hstep
    cases hstep
    exact hinv.abandoned
  · intro all throws fails e g x hfinal hstep
    exact (hinv.commit hfinal hstep).1 rfl
  · intro all throws fails g x hfinal hstep
    exact (hinv.commit hfinal hstep).2 rfl

theorem rolledBackStatement_atomic :
    let M := carefulTransaction [sampleTable]
    let s₁ := M.next (M.next (M.next ⟨{}, {}, {}⟩ (.own (.begin true))) (.own (insertSample 1 1 1))) (.own (.commit false false fun _ => false))
    let s₂ := M.next (M.next s₁ (.own (.begin true))) (.own (insertSample 2 2 2))
    AllOrNothing [sampleTable] (M.next (M.next s₂ (.others ⟨[.pointPut [9] [9]], fun _ => 1, fun _ => 0⟩)) (.own (.rollback false))) := by
  refine transaction_atomic (by decide) ?_
  have hstart : (carefulTransaction [sampleTable]).Reachable ⟨{}, {}, {}⟩ := .start ⟨rfl, rfl, .empty⟩
  have hbegun := reachable_own hstart (.begin true) (fun _ => rfl) id trivial
  have hfirst := reachable_own hbegun _ (enabled_insertSample rfl rfl 1 1 1) id trivial
  have hdone := reachable_own hfirst (.commit false false fun _ => false) trivial nofun trivial
  have hbegun' := reachable_own hdone (.begin true) (fun _ => rfl) id trivial
  have hsecond := reachable_own hbegun' _ (enabled_insertSample rfl rfl 2 2 2) id trivial
  have hothers := hsecond.step (Event.others ⟨[.pointPut [9] [9]], fun _ => 1, fun _ => 0⟩) ⟨trivial, nofun⟩
  exact reachable_own hothers _ trivial nofun trivial

def sampleStored : Server where
  store := ({} : Store).apply ((rowOps sampleTable false (sampleRow 1 1 1) 0).map Op.write)
  rowCounts := fun _ => 1

lemma sampleStored_sound : sampleStored.store.Sound :=
  Store.Sound.empty.apply ((rowOps sampleTable false (sampleRow 1 1 1) 0).map Op.write)

/-- `delete_all_rows` empties the engine at once, whatever becomes of the transaction, and is not seen through its snapshot. -/
theorem deleteAllRows_bypasses : ∃ s k, (transaction [sampleTable]).Reachable s ∧
    s.without.store.get k = some (sampleTable.encodeRow (sampleRow 1 1 1)) ∧
    s.server.store.get k = none ∧ (s.session.txn.get s.server.store k).1 = some (sampleTable.encodeRow (sampleRow 1 1 1)) ∧
    (s.session.step s.server (.rollback true)).2.1.store.get k = none ∧ ¬ AllOrNothing [sampleTable] s := by
  have hstart : (transaction [sampleTable]).Reachable ⟨sampleStored, {}, sampleStored⟩ :=
    .start ⟨rfl, rfl, sampleStored_sound⟩
  have hbegun := hstart.step (Event.own (.begin true)) ⟨fun _ => rfl, id⟩
  have hdeleted := hbegun.step (Event.own (.deleteAllRows _ false)) ⟨⟨rfl, List.mem_singleton_self _⟩, id⟩
  refine ⟨_, sampleTable.encodePk (sampleRow 1 1 1) 0, hdeleted, by decide +kernel, by decide +kernel, by decide +kernel,
    by decide +kernel, fun h => ?_⟩
  have hget := congrArg (fun st => st.get (sampleTable.encodePk (sampleRow 1 1 1) 0)) h.untouched
  exact absurd hget (by decide +kernel)

end Run

end Bytecask.MariaDb
