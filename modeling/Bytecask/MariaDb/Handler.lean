import Bytecask.MariaDb.Buffer

/-! The calls of the handler that change rows. -/

namespace Bytecask.MariaDb

open MariaDBTxn List

/-- What `write_row` reads of the statement: `INSERT IGNORE` and the like want each row's verdict at once, and a plain
autocommit INSERT into a table without triggers may leave it to the commit. -/
structure StmtFlags where
  dupcheckEager : Bool
  allowsDeferredDupcheck : Bool
deriving DecidableEq

def Table.hasUniqueSecondaryIndex (T : Table) : Bool := T.indexes.any IndexInfo.isUnique

def readBe64 (bs : Bytes) : ℕ := readLittleEndian (bs.take 8).reverse

def currentPk (T : Table) (current : Bytes) (r : Row) : Bytes := if current.isEmpty then T.encodePk r 0 else current

def currentRowid (T : Table) (current : Bytes) (r : Row) : ℕ :=
  if T.noPk && decide (13 ≤ (currentPk T current r).length) then readBe64 ((currentPk T current r).drop 5) else 0

section Checks

variable (T : Table) (s : Store) (fails : Bytes → Bool)

def checkUnique (isSelf : Bytes → Bool) (r : Row) (ix : IndexInfo) (t : MariaDBTxn) : Option HaError × MariaDBTxn :=
  if !ix.isUnique || ix.hasNull r then (none, t)
  else
    let start := T.encodeUniqueSecKey ix r
    match t.indexPrefixExists s (fails start) start (indexIdUpperBound T.tableId ix.indexId) T.tableId ix.indexId with
    | (.failed, _, t) => (some .generic, t)
    | (.present, hit, t) => (if isSelf hit then none else some (.foundDuppKey (some (.index ix.indexId))), t)
    | (.absent, _, t) => (none, t)

def checkUniques (r : Row) : List IndexInfo → MariaDBTxn → Option HaError × MariaDBTxn
  | [], t => (none, t)
  | ix :: ixs, t =>
    match checkUnique T s fails (fun _ => false) r ix t with
    | (some e, t) => (some e, t)
    | (none, t) => checkUniques r ixs t

def checkProbe (errkey : Option ErrKey) : Probe × MariaDBTxn → Option HaError × MariaDBTxn
  | (.failed, t) => (some .generic, t)
  | (.present, t) => (some (.foundDuppKey errkey), t)
  | (.absent, t) => (none, t)

end Checks

section WriteRow

variable (T : Table)

def deferDup (t : MariaDBTxn) (flags : StmtFlags) : Bool :=
  !T.noPk && (t.deferredInsert.isSome ||
    (!t.hasState && !flags.dupcheckEager && !T.hasUniqueSecondaryIndex && flags.allowsDeferredDupcheck))

def bufferedProbe (t : MariaDBTxn) (key : Bytes) : Probe × MariaDBTxn :=
  (if t.bufferedKeyPresent key then .present else .absent, t)

def checkPk (s : Store) (fails : Bytes → Bool) (defer : Bool) (key : Bytes) (t : MariaDBTxn) : Option HaError × MariaDBTxn :=
  if T.noPk then (none, t)
  else checkProbe (some .primary) (if defer then bufferedProbe t key else t.keyExists s (fails key) key)

def enterDeferred (defer : Bool) (t : MariaDBTxn) : MariaDBTxn :=
  if defer && t.deferredInsert.isNone then t.beginDeferredInsert T.tableId else t

def bufferRow (s : Store) (defer : Bool) (r : Row) (rowid : ℕ) (t : MariaDBTxn) : MariaDBTxn :=
  T.indexes.foldl (fun t ix => t.bufferPut s (T.encodeSecKey ix r rowid) [] false)
    (t.bufferPut s (T.encodePk r rowid) (T.encodeRow r) defer)

def checkRow (s : Store) (fails : Bytes → Bool) (defer : Bool) (r : Row) (rowid : ℕ) (t : MariaDBTxn) : Option HaError × MariaDBTxn :=
  match checkPk T s fails defer (T.encodePk r rowid) t with
  | (some e, t) => (some e, t)
  | (none, t) => checkUniques T s fails r T.indexes (enterDeferred T defer t)

def allocRowid (g : Server) : ℕ × Server :=
  if T.noPk then
    (g.rowids T.tableId + 1, { g with rowids := Function.update g.rowids T.tableId (g.rowids T.tableId + 1) })
  else (0, g)

def writeRow (flags : StmtFlags) (fails : Bytes → Bool) (r : Row) (g : Server) (t : MariaDBTxn) :
    Option HaError × Server × MariaDBTxn :=
  let (rowid, g) := allocRowid T g
  let defer := deferDup T t flags
  match checkRow T g.store fails defer r rowid t with
  | (some e, t) => (some e, g, t)
  | (none, t) => (none, (bufferRow T g.store defer r rowid t).trackRowCountDelta g T.tableId 1)

end WriteRow

section UpdateRow

/-- The arguments of `update_row`, with the handler's `current_row_key_` and the table's write set. -/
structure RowUpdate where
  current : Bytes
  old : Row
  new : Row
  writeSet : List ℕ

namespace RowUpdate

variable (T : Table) (u : RowUpdate)

def oldPk : Bytes := currentPk T u.current u.old

def rowid : ℕ := currentRowid T u.current u.old

def newPk : Bytes := if T.noPk then u.oldPk T else T.encodePk u.new 0

def pkChanging : Bool := !T.noPk && decide (u.oldPk T ≠ u.newPk T)

def indexInWriteSet (ix : IndexInfo) : Bool := ix.parts.any (fun p => decide (p.fieldnr ∈ u.writeSet))

def oldSecKey (ix : IndexInfo) : Bytes := T.encodeSecKey ix u.old (u.rowid T)

def newSecKey (ix : IndexInfo) : Bytes := T.encodeSecKey ix u.new (u.rowid T)

def isSelf (ix : IndexInfo) (hit : Bytes) : Bool :=
  let pkBytes := (u.oldPk T).drop 5
  decide (7 + storedLength ix.parts + pkBytes.length ≤ hit.length) &&
    decide ((hit.drop (7 + storedLength ix.parts)).take pkBytes.length = pkBytes)

def changes (ix : IndexInfo) : Bool :=
  (u.pkChanging T || u.indexInWriteSet ix) && decide (u.oldSecKey T ix ≠ u.newSecKey T ix)

end RowUpdate

variable (T : Table) (s : Store) (fails : Bytes → Bool) (u : RowUpdate)

def updateIndex (ix : IndexInfo) (t : MariaDBTxn) : Option HaError × MariaDBTxn :=
  if u.changes T ix then
    match checkUnique T s fails (u.isSelf T ix) u.new ix t with
    | (some e, t) => (some e, t)
    | (none, t) => (none, (t.bufferDel s (u.oldSecKey T ix)).bufferPut s (u.newSecKey T ix) [] false)
  else (none, t)

def updateIndexes : List IndexInfo → MariaDBTxn → Option HaError × MariaDBTxn
  | [], t => (none, t)
  | ix :: ixs, t =>
    match updateIndex T s fails u ix t with
    | (some e, t) => (some e, t)
    | (none, t) => updateIndexes ixs t

def updatePk (t : MariaDBTxn) : Option HaError × MariaDBTxn :=
  if u.oldPk T = u.newPk T then (none, t.bufferPut s (u.newPk T) (T.encodeRow u.new) false)
  else
    match checkProbe none (t.keyExists s (fails (u.newPk T)) (u.newPk T)) with
    | (some e, t) => (some e, t)
    | (none, t) => (none, (t.bufferDel s (u.oldPk T)).bufferPut s (u.newPk T) (T.encodeRow u.new) false)

def updateRow (t : MariaDBTxn) : Option HaError × MariaDBTxn :=
  match updateIndexes T s fails u T.indexes t with
  | (some e, t) => (some e, t)
  | (none, t) => updatePk T s fails u t

end UpdateRow

section DeleteRow

variable (T : Table)

def deleteRow (current : Bytes) (r : Row) (g : Server) (t : MariaDBTxn) : Server × MariaDBTxn :=
  let t := T.indexes.foldl (fun t ix => t.bufferDel g.store (T.encodeSecKey ix r (currentRowid T current r))) t
  (t.bufferDel g.store (currentPk T current r)).trackRowCountDelta g T.tableId (-1)

/-- `delete_all_rows`: a plan of its own, applied to the engine at once. -/
def deleteAllPlan : Plan where
  writes := .rangeDel (tableIdPrefix T.tableId) (tableIdUpperBound T.tableId) ::
    T.indexes.map (fun ix => .rangeDel (indexIdPrefix T.tableId ix.indexId) (indexIdUpperBound T.tableId ix.indexId))

def deleteAllRows (throws : Bool) (g : Server) : Option HaError × Server :=
  if throws then (some .generic, g)
  else
    (none,
      { store := (g.store.commit (deleteAllPlan T)).getD g.store
        rowids := if T.noPk then Function.update g.rowids T.tableId 0 else g.rowids
        rowCounts := Function.update g.rowCounts T.tableId 0 })

end DeleteRow

section CheckSpecs

variable {T : Table} {s : Store} {fails : Bytes → Bool} {r : Row} {ix : IndexInfo} {t t' : MariaDBTxn} {e : Option HaError}

def Free (T : Table) (m : Bytes → Option Bytes) (isSelf : Bytes → Bool) (r : Row) (ix : IndexInfo) : Prop :=
  ix.isUnique = true → ix.hasNull r = false →
    (∀ z, m (T.encodeUniqueSecKey ix r ++ z) = none) ∨
      ∃ z, isSelf (T.encodeUniqueSecKey ix r ++ z) = true ∧ (m (T.encodeUniqueSecKey ix r ++ z)).isSome = true

lemma checkUnique_spec {isSelf : Bytes → Bool} (hix : ix ∈ T.indexes) (h : checkUnique T s fails isSelf r ix t = (e, t')) :
    MariaDBTxn.Extends s [] t t' ∧ (e = none → Free T (t.view s) isSelf r ix) := by
  rw [checkUnique] at h
  split_ifs at h with hskip
  · cases h
    refine ⟨.refl s t, fun _ hu hn => ?_⟩
    rw [hu, hn] at hskip
    cases hskip
  · have hstart : keyBelongsToIndex (T.encodeUniqueSecKey ix r) T.tableId ix.indexId = true := belongsToIndex_append _ _ _
    cases hp : t.indexPrefixExists s (fails (T.encodeUniqueSecKey ix r)) _
        (indexIdUpperBound _ _) _ _ with
    | mk p rest =>
      obtain ⟨hit, t₁⟩ := rest
      obtain ⟨rfl, habsent, hpresent⟩ := indexPrefixExists_spec (T.indexId_lt ix hix) hstart hp
      simp only [hp] at h
      cases p with
      | failed =>
        cases h
        exact ⟨extends_pinSnapshot s t, nofun⟩
      | absent =>
        cases h
        exact ⟨extends_pinSnapshot s t, fun _ _ _ => .inl (habsent rfl)⟩
      | present =>
        cases h
        refine ⟨extends_pinSnapshot s t, fun hnone _ _ => .inr ?_⟩
        obtain ⟨⟨z, rfl⟩, hsome⟩ := hpresent rfl
        refine ⟨z, ?_, hsome⟩
        by_contra hself
        rw [if_neg hself] at hnone
        cases hnone

lemma checkUnique_congr {isSelf : Bytes → Bool} (hix : ix ∈ T.indexes)
    (hview : ∀ k, keyBelongsToIndex k T.tableId ix.indexId = true → t'.view s k = t.view s k) :
    (checkUnique T s fails isSelf r ix t').1 = (checkUnique T s fails isSelf r ix t).1 := by
  rw [checkUnique, checkUnique]
  split_ifs
  · rfl
  · have hstart : keyBelongsToIndex (T.encodeUniqueSecKey ix r) T.tableId ix.indexId = true := belongsToIndex_append _ _ _
    obtain ⟨hprobe, hhit⟩ := indexPrefixExists_congr (T.indexId_lt ix hix) hstart hview _
    dsimp only
    rcases hp : t.indexPrefixExists s _ _
      (indexIdUpperBound _ _) _ _ with ⟨p, hit, u⟩
    rcases hp' : t'.indexPrefixExists s _ _
      (indexIdUpperBound _ _) _ _ with ⟨p', hit', u'⟩
    rw [hp, hp'] at hprobe hhit
    obtain rfl : p' = p := hprobe
    obtain rfl : hit' = hit := hhit
    cases p' <;> rfl

lemma checkUniques_spec {ixs : List IndexInfo} (hixs : ixs ⊆ T.indexes) (h : checkUniques T s fails r ixs t = (e, t')) :
    MariaDBTxn.Extends s [] t t' ∧ (e = none → ∀ ix ∈ ixs, Free T (t.view s) (fun _ => false) r ix) := by
  induction ixs generalizing t with
  | nil =>
    cases h
    exact ⟨.refl s _, fun _ => nofun⟩
  | cons ix ixs ih =>
    rw [checkUniques] at h
    cases hc : checkUnique T s fails (fun _ => false) r ix t with
    | mk e₁ t₁ =>
      obtain ⟨hext, hfree⟩ := checkUnique_spec (hixs mem_cons_self) hc
      rw [hc] at h
      cases e₁ with
      | some e₁ =>
        cases h
        exact ⟨hext, nofun⟩
      | none =>
        obtain ⟨hext', hfree'⟩ := ih (List.Subset.trans (subset_cons_self _ _) hixs) h
        refine ⟨hext.trans hext', fun he ix' hix' => ?_⟩
        rcases mem_cons.1 hix' with rfl | hix'
        · exact hfree rfl
        · have hview : t₁.view s = t.view s := funext hext.view
          exact hview ▸ hfree' he ix' hix'

lemma checkProbe_keyExists {errkey : Option ErrKey} {b : Bool} {key : Bytes}
    (h : checkProbe errkey (t.keyExists s b key) = (e, t')) : MariaDBTxn.Extends s [] t t' ∧ (e = none → t.view s key = none) := by
  cases hk : t.keyExists s b key with
  | mk p t₁ =>
    obtain ⟨hext, habsent, -⟩ := keyExists_spec hk
    rw [hk] at h
    cases p with
    | failed | present =>
      cases h
      exact ⟨hext, nofun⟩
    | absent =>
      cases h
      exact ⟨hext, fun _ => habsent rfl⟩

end CheckSpecs

section WriteSpec

variable {T : Table} {s : Store} {fails : Bytes → Bool} {r : Row} {t t' : MariaDBTxn} {e : Option HaError} {g g' : Server}
  {flags : StmtFlags} {defer : Bool} {rowid : ℕ}

def rowOps (T : Table) (defer : Bool) (r : Row) (rowid : ℕ) : List Op :=
  .put (T.encodePk r rowid) (T.encodeRow r) defer :: T.indexes.map (fun ix => .put (T.encodeSecKey ix r rowid) [] false)

lemma extends_foldl {α : Type} {f : MariaDBTxn → α → MariaDBTxn} {op : α → Op} (hf : ∀ t a, MariaDBTxn.Extends s [op a] t (f t a))
    (l : List α) (t : MariaDBTxn) : MariaDBTxn.Extends s (l.map op) t (l.foldl f t) := by
  induction l generalizing t with
  | nil => exact .refl s t
  | cons a l ih => exact (hf t a).trans (ih _)

lemma extends_bufferRow (T : Table) (s : Store) (defer : Bool) (r : Row) (rowid : ℕ) (t : MariaDBTxn) :
    MariaDBTxn.Extends s (rowOps T defer r rowid) t (bufferRow T s defer r rowid t) :=
  (extends_bufferPut s t _ _ defer).trans
    (extends_foldl (fun t ix => extends_bufferPut s t (T.encodeSecKey ix r rowid) [] false) T.indexes _)

lemma checkPk_spec {key : Bytes} (h : checkPk T s fails defer key t = (e, t')) : MariaDBTxn.Extends s [] t t' ∧ (defer = true → t' = t) ∧
    (e = none → T.noPk = false → if defer then t.bufferedKeyPresent key = false else t.view s key = none) := by
  rw [checkPk] at h
  cases hpk : T.noPk with
  | true =>
    rw [hpk, if_pos rfl] at h
    cases h
    exact ⟨.refl s _, fun _ => rfl, nofun⟩
  | false =>
    rw [hpk, if_neg Bool.false_ne_true] at h
    cases defer with
    | false =>
      obtain ⟨hext, habsent⟩ := checkProbe_keyExists h
      exact ⟨hext, nofun, fun he _ => habsent he⟩
    | true =>
      rw [if_pos rfl, bufferedProbe] at h
      cases hb : t.bufferedKeyPresent key with
      | true =>
        rw [hb] at h
        cases h
        exact ⟨.refl s _, fun _ => rfl, nofun⟩
      | false =>
        rw [hb] at h
        cases h
        exact ⟨.refl s _, fun _ => rfl, fun _ _ => rfl⟩

structure Passed (T : Table) (s : Store) (defer : Bool) (r : Row) (rowid : ℕ) (t : MariaDBTxn) : Prop where
  primary : T.noPk = false → if defer then t.bufferedKeyPresent (T.encodePk r rowid) = false else t.view s (T.encodePk r rowid) = none
  unique : ∀ ix ∈ T.indexes, Free T (t.view s) (fun _ => false) r ix

lemma view_enterDeferred (T : Table) (defer : Bool) (t : MariaDBTxn) : (enterDeferred T defer t).view s = t.view s := by
  rw [enterDeferred]
  split_ifs <;> rfl

lemma checkUniques_of_none (hnone : T.hasUniqueSecondaryIndex = false) {ixs : List IndexInfo} (hixs : ixs ⊆ T.indexes) :
    checkUniques T s fails r ixs t = (none, t) := by
  induction ixs with
  | nil => rfl
  | cons ix ixs ih =>
    have hix : ix.isUnique = false := Bool.eq_false_iff.2 (any_eq_false.1 hnone ix (hixs mem_cons_self))
    rw [checkUniques, checkUnique, hix, Bool.not_false, Bool.true_or, if_pos rfl]
    exact ih (List.Subset.trans (subset_cons_self _ _) hixs)

lemma checkRow_spec (hdefer : defer = true → t.deferredInsert = none → T.hasUniqueSecondaryIndex = false)
    (h : checkRow T s fails defer r rowid t = (e, t')) :
    (e.isSome = true → MariaDBTxn.Extends s [] t t') ∧
      (e = none → MariaDBTxn.Extends s [] (enterDeferred T defer t) t' ∧ Passed T s defer r rowid t) := by
  rw [checkRow] at h
  cases hpk : checkPk T s fails defer (T.encodePk r rowid) t with
  | mk e₁ t₁ =>
    obtain ⟨hext, hsame, hprimary⟩ := checkPk_spec hpk
    have henter : MariaDBTxn.Extends s [] (enterDeferred T defer t) (enterDeferred T defer t₁) := by
      cases defer with
      | false => exact hext
      | true => exact hsame rfl ▸ .refl s _
    rw [hpk] at h
    cases e₁ with
    | some e₁ =>
      cases h
      exact ⟨fun _ => hext, nofun⟩
    | none =>
      obtain ⟨hext', hfree⟩ := checkUniques_spec (List.Subset.refl _) h
      refine ⟨fun he => ?_, fun he => ⟨henter.trans hext', hprimary rfl, fun ix hix => ?_⟩⟩
      · -- A table whose insert has just become a deferred one has no unique index to refuse it.
        by_cases hentered : enterDeferred T defer t = t
        · rw [hentered] at henter
          exact henter.trans hext'
        · have hboth : defer = true ∧ t.deferredInsert = none := by
            by_contra hno
            refine hentered (if_neg fun hand => hno ?_)
            exact ⟨(Bool.and_eq_true_iff.1 hand).1, Option.isNone_iff_eq_none.1 (Bool.and_eq_true_iff.1 hand).2⟩
          dsimp only at h
          rw [checkUniques_of_none (hdefer hboth.1 hboth.2) (List.Subset.refl _)] at h
          cases h
          cases he
      · have hview : (enterDeferred T defer t₁).view s = t.view s := (view_enterDeferred T defer t₁).trans (funext hext.view)
        exact hview ▸ hfree he ix hix

lemma deferDup_start (h : deferDup T t flags = true) (hd : t.deferredInsert = none) :
    t.hasState = false ∧ T.hasUniqueSecondaryIndex = false := by
  rw [deferDup, hd] at h
  simp only [Option.isSome_none, Bool.false_or, Bool.and_eq_true, Bool.not_eq_true'] at h
  exact ⟨h.2.1.1.1, h.2.1.2⟩

lemma deferDup_unique (h : deferDup T t flags = true) (hd : t.deferredInsert = none) : T.hasUniqueSecondaryIndex = false :=
  (deferDup_start h hd).2

lemma allocRowid_store (T : Table) (g : Server) : (allocRowid T g).2.store = g.store := by
  rw [allocRowid]
  split_ifs <;> rfl

lemma writeRow_spec (h : writeRow T flags fails r g t = (e, g', t')) :
    (e.isSome = true → g' = (allocRowid T g).2 ∧ MariaDBTxn.Extends g.store [] t t') ∧
    (e = none → Passed T g.store (deferDup T t flags) r (allocRowid T g).1 t ∧
      ∃ t₁, MariaDBTxn.Extends g.store (rowOps T (deferDup T t flags) r (allocRowid T g).1) (enterDeferred T (deferDup T t flags) t) t₁ ∧
        (g', t') = t₁.trackRowCountDelta (allocRowid T g).2 T.tableId 1) := by
  rw [writeRow] at h
  dsimp only at h
  rw [allocRowid_store] at h
  cases hc : checkRow T g.store fails (deferDup T t flags) r (allocRowid T g).1 t with
  | mk e₁ t₁ =>
    obtain ⟨hext, hpass⟩ := checkRow_spec deferDup_unique hc
    rw [hc] at h
    cases e₁ with
    | some e₁ =>
      cases h
      exact ⟨fun _ => ⟨rfl, hext rfl⟩, nofun⟩
    | none =>
      obtain ⟨hdef, hpassed⟩ := hpass rfl
      cases h
      exact ⟨nofun, fun _ => ⟨hpassed, _, hdef.trans (extends_bufferRow T _ _ r _ t₁), rfl⟩⟩

lemma bufferPut_blind (hd : t.deferredInsert ≠ none) (key val : Bytes) (guardAbsent : Bool) :
    (t.bufferPut s key val guardAbsent).snap = t.snap ∧ (t.bufferPut s key val guardAbsent).deferredInsert ≠ none := by
  rw [(extends_bufferPut s t key val _).deferredInsert]
  exact ⟨ensureSnapshot_snap s hd, hd⟩

lemma bufferRow_blind (hd : t.deferredInsert ≠ none) : (bufferRow T s defer r rowid t).snap = t.snap := by
  obtain ⟨hsnap, hne⟩ := bufferPut_blind (s := s) hd _ _ defer
  rw [bufferRow, ← hsnap]
  generalize t.bufferPut s (T.encodePk r rowid) (T.encodeRow r) defer = t₁ at hne
  induction T.indexes generalizing t₁ with
  | nil => rfl
  | cons ix ixs ih =>
    obtain ⟨hsnap', hne'⟩ := bufferPut_blind (s := s) hne _ [] false
    rw [foldl_cons, ih _ hne', hsnap']

lemma writeRow_snap (hdefer : deferDup T t flags = true) (hunique : T.hasUniqueSecondaryIndex = false)
    (h : writeRow T flags fails r g t = (e, g', t')) : t'.snap = t.snap := by
  have hentered : (enterDeferred T true t).snap = t.snap ∧ (enterDeferred T true t).deferredInsert ≠ none := by
    rw [enterDeferred]
    cases hd : t.deferredInsert <;> simp [hd, beginDeferredInsert]
  rw [writeRow, hdefer] at h
  dsimp only at h
  rw [checkRow] at h
  cases hpk : checkPk T (allocRowid T g).2.store fails true (T.encodePk r (allocRowid T g).1) t with
  | mk e₁ t₁ =>
    obtain rfl : t₁ = t := (checkPk_spec hpk).2.1 rfl
    rw [hpk] at h
    cases e₁ with
    | some e₁ =>
      cases h
      rfl
    | none =>
      dsimp only at h
      rw [checkUniques_of_none hunique (List.Subset.refl _)] at h
      cases h
      exact (bufferRow_blind hentered.2).trans hentered.1

end WriteSpec

section UpdateSpec

variable {T : Table} {s : Store} {fails : Bytes → Bool} {u : RowUpdate} {t t' : MariaDBTxn} {e : Option HaError} {ix : IndexInfo}
  {ixs : List IndexInfo}

def indexOps (T : Table) (u : RowUpdate) (ixs : List IndexInfo) : List Op :=
  (ixs.filter (u.changes T)).flatMap (fun ix => [.del (u.oldSecKey T ix), .put (u.newSecKey T ix) [] false])

def pkOps (T : Table) (u : RowUpdate) : List Op :=
  if u.oldPk T = u.newPk T then [.put (u.newPk T) (T.encodeRow u.new) false]
  else [.del (u.oldPk T), .put (u.newPk T) (T.encodeRow u.new) false]

lemma Free.congr {m m' : Bytes → Option Bytes} {isSelf : Bytes → Bool} {r : Row} (h : Free T m isSelf r ix)
    (heq : ∀ k, keyBelongsToIndex k T.tableId ix.indexId = true → m' k = m k) : Free T m' isSelf r ix := by
  have hkey : ∀ z, m' (T.encodeUniqueSecKey ix r ++ z) = m (T.encodeUniqueSecKey ix r ++ z) := by
    intro z
    refine heq _ ?_
    exact belongsToIndex_append _ _ _
  intro hu hn
  refine (h hu hn).imp (fun hno z => (hkey z).trans (hno z)) ?_
  rintro ⟨z, hself, hsome⟩
  exact ⟨z, hself, (hkey z).symm ▸ hsome⟩

lemma updateIndex_spec (hix : ix ∈ T.indexes) (h : updateIndex T s fails u ix t = (none, t')) :
    MariaDBTxn.Extends s (indexOps T u [ix]) t t' ∧ (u.changes T ix = true → Free T (t.view s) (u.isSelf T ix) u.new ix) := by
  rw [updateIndex] at h
  rw [indexOps]
  cases hc : u.changes T ix with
  | false =>
    rw [hc, if_neg Bool.false_ne_true] at h
    cases h
    rw [filter_cons_of_neg (by rw [hc]; exact Bool.false_ne_true)]
    exact ⟨.refl s _, nofun⟩
  | true =>
    rw [hc, if_pos rfl] at h
    rw [filter_cons_of_pos hc]
    cases hcheck : checkUnique T s fails (u.isSelf T ix) u.new ix t with
    | mk e₁ t₁ =>
      obtain ⟨hext, hfree⟩ := checkUnique_spec hix hcheck
      rw [hcheck] at h
      cases e₁ with
      | some e₁ => cases h
      | none =>
        cases h
        exact ⟨hext.trans ((extends_bufferDel s t₁ _).trans (extends_bufferPut s _ _ [] false)), fun _ => hfree rfl⟩

lemma indexOps_cons (T : Table) (u : RowUpdate) (ix : IndexInfo) (ixs : List IndexInfo) :
    indexOps T u (ix :: ixs) = indexOps T u [ix] ++ indexOps T u ixs := by
  rw [indexOps, indexOps, indexOps, ← flatMap_append, ← filter_append]
  rfl

lemma indexOps_belong {op : Op} (hop : op ∈ indexOps T u ixs) :
    ∃ ix ∈ ixs, keyBelongsToIndex op.key T.tableId ix.indexId = true := by
  obtain ⟨ix, hix, hop⟩ := mem_flatMap.1 hop
  refine ⟨ix, (mem_filter.1 hix).1, ?_⟩
  rcases mem_pair.1 hop with rfl | rfl
  · exact T.encodeSecKey_belongs ix u.old _
  · exact T.encodeSecKey_belongs ix u.new _

-- the change of one index is not seen in another
lemma view_other_index {jx : IndexInfo} (hix : ix ∈ T.indexes) (hjx : jx ∈ T.indexes) (hne : ix ≠ jx)
    (hext : MariaDBTxn.Extends s (indexOps T u [ix]) t t') {k : Bytes} (hk : keyBelongsToIndex k T.tableId jx.indexId = true) :
    t'.view s k = t.view s k := by
  rw [hext.view, leave_of_not_touched]
  intro op hop heq
  obtain ⟨ix', hix', hbel⟩ := indexOps_belong hop
  rw [mem_singleton] at hix'
  rw [hix', heq] at hbel
  exact hne (Table.index_eq_of_belongs hix hjx hbel hk)

lemma updateIndexes_spec (hixs : ixs ⊆ T.indexes) (hids : (ixs.map IndexInfo.indexId).Nodup)
    (h : updateIndexes T s fails u ixs t = (none, t')) :
    MariaDBTxn.Extends s (indexOps T u ixs) t t' ∧ ∀ ix ∈ ixs, u.changes T ix = true → Free T (t.view s) (u.isSelf T ix) u.new ix := by
  induction ixs generalizing t with
  | nil =>
    cases h
    exact ⟨.refl s _, nofun⟩
  | cons ix ixs ih =>
    rw [updateIndexes] at h
    obtain ⟨hno, hids⟩ := nodup_cons.1 hids
    have hix := hixs mem_cons_self
    have hsub := List.Subset.trans (subset_cons_self ix ixs) hixs
    cases hc : updateIndex T s fails u ix t with
    | mk e₁ t₁ =>
      rw [hc] at h
      cases e₁ with
      | some e₁ => cases h
      | none =>
        obtain ⟨hext, hfree⟩ := updateIndex_spec hix hc
        obtain ⟨hext', hfree'⟩ := ih hsub hids h
        rw [indexOps_cons]
        refine ⟨hext.trans hext', fun jx hjx hchanges => ?_⟩
        rcases mem_cons.1 hjx with rfl | hjx
        · exact hfree hchanges
        · have hne : ix ≠ jx := fun heq => hno (heq ▸ mem_map_of_mem hjx)
          exact (hfree' jx hjx hchanges).congr fun k hk => (view_other_index hix (hsub hjx) hne hext hk).symm

lemma updatePk_spec (h : updatePk T s fails u t = (none, t')) :
    MariaDBTxn.Extends s (pkOps T u) t t' ∧ (u.oldPk T ≠ u.newPk T → t.view s (u.newPk T) = none) := by
  rw [updatePk] at h
  rw [pkOps]
  by_cases hpk : u.oldPk T = u.newPk T
  · rw [if_pos hpk] at h ⊢
    cases h
    exact ⟨extends_bufferPut s t _ _ false, fun hne => absurd hpk hne⟩
  · rw [if_neg hpk] at h ⊢
    cases hcheck : checkProbe none _ with
    | mk e₁ t₁ =>
      obtain ⟨hext, habsent⟩ := checkProbe_keyExists hcheck
      rw [hcheck] at h
      cases e₁ with
      | some e₁ => cases h
      | none =>
        cases h
        exact ⟨hext.trans ((extends_bufferDel s t₁ _).trans (extends_bufferPut s _ _ _ false)), fun _ => habsent rfl⟩

lemma not_touched_newPk (hnew : keyBelongsToTable (u.newPk T) T.tableId = true) : ∀ op ∈ indexOps T u ixs, op.key ≠ u.newPk T := by
  intro op hop heq
  obtain ⟨ix, -, hbel⟩ := indexOps_belong hop
  rw [heq, not_both_belong hnew] at hbel
  cases hbel

def updateOps (T : Table) (u : RowUpdate) : List Op := indexOps T u T.indexes ++ pkOps T u

lemma updateRow_spec (hnew : keyBelongsToTable (u.newPk T) T.tableId = true) (h : updateRow T s fails u t = (none, t')) :
    MariaDBTxn.Extends s (updateOps T u) t t' ∧ (∀ ix ∈ T.indexes, u.changes T ix = true → Free T (t.view s) (u.isSelf T ix) u.new ix) ∧
      (u.oldPk T ≠ u.newPk T → t.view s (u.newPk T) = none) := by
  rw [updateRow] at h
  cases hix : updateIndexes T s fails u T.indexes t with
  | mk e₁ t₁ =>
    rw [hix] at h
    cases e₁ with
    | some e₁ => cases h
    | none =>
      obtain ⟨hext, hfree⟩ := updateIndexes_spec (List.Subset.refl _) T.indexIds hix
      obtain ⟨hext', habsent⟩ := updatePk_spec h
      refine ⟨hext.trans hext', hfree, fun hne => ?_⟩
      rw [← habsent hne, hext.view, leave_of_not_touched (not_touched_newPk hnew)]

/-- On the state before the call: if the check of the first index whose entry changes lets the row pass, so do the checks of the
other indexes whose entries change and the probe for a moved primary key, which come after that change. -/
def FailsFirst (T : Table) (s : Store) (fails : Bytes → Bool) (u : RowUpdate) (t : MariaDBTxn) : Prop :=
  ∀ ix, T.indexes.find? (u.changes T) = some ix → (checkUnique T s fails (u.isSelf T ix) u.new ix t).1 = none →
    (∀ jx ∈ T.indexes, u.changes T jx = true → (checkUnique T s fails (u.isSelf T jx) u.new jx t).1 = none) ∧
      (u.oldPk T ≠ u.newPk T → (t.keyExists s (fails (u.newPk T)) (u.newPk T)).1 = .absent)

lemma updateIndexes_passes (hixs : ixs ⊆ T.indexes) (hids : (ixs.map IndexInfo.indexId).Nodup)
    (hpass : ∀ jx ∈ ixs, u.changes T jx = true → (checkUnique T s fails (u.isSelf T jx) u.new jx t).1 = none) :
    (updateIndexes T s fails u ixs t).1 = none := by
  induction ixs generalizing t with
  | nil => rfl
  | cons ix ixs ih =>
    obtain ⟨hno, hids⟩ := nodup_cons.1 hids
    have hix := hixs mem_cons_self
    have hsub := List.Subset.trans (subset_cons_self ix ixs) hixs
    have hnone : (updateIndex T s fails u ix t).1 = none := by
      rw [updateIndex]
      split_ifs with hchanges
      · have hcheck := hpass ix mem_cons_self hchanges
        cases hc : checkUnique T s fails _ u.new ix t with
        | mk e₁ t₁ =>
          rw [hc] at hcheck
          cases hcheck
          rfl
      · rfl
    rw [updateIndexes]
    cases hc : updateIndex T s fails u ix t with
    | mk e₁ t₁ =>
      rw [hc] at hnone
      cases hnone
      obtain ⟨hext, -⟩ := updateIndex_spec hix hc
      refine ih hsub hids fun jx hjx hchanges => ?_
      have hne : ix ≠ jx := fun heq => hno (heq ▸ mem_map_of_mem hjx)
      rw [checkUnique_congr (hsub hjx) fun k hk => view_other_index hix (hsub hjx) hne hext hk]
      exact hpass jx (mem_cons_of_mem ix hjx) hchanges

lemma updateRow_passes (hnew : keyBelongsToTable (u.newPk T) T.tableId = true)
    (hpass : ∀ jx ∈ T.indexes, u.changes T jx = true → (checkUnique T s fails (u.isSelf T jx) u.new jx t).1 = none)
    (hplace : u.oldPk T ≠ u.newPk T → (t.keyExists s (fails (u.newPk T)) (u.newPk T)).1 = .absent) :
    (updateRow T s fails u t).1 = none := by
  have hnone := updateIndexes_passes (List.Subset.refl _) T.indexIds hpass
  rw [updateRow]
  cases hix : updateIndexes T s fails u T.indexes t with
  | mk e₁ t₁ =>
    rw [hix] at hnone
    cases hnone
    obtain ⟨hext, -⟩ := updateIndexes_spec (List.Subset.refl _) T.indexIds hix
    dsimp only
    rw [updatePk]
    split_ifs with hpk
    · rfl
    · have hprobe := hext.keyExists (not_touched_newPk hnew) (fails (u.newPk T))
      rw [hplace hpk] at hprobe
      cases hk : t₁.keyExists s _ _ with
      | mk p t₂ =>
        rw [hk] at hprobe
        cases hprobe
        rfl

lemma updateIndexes_fails (hixs : ixs ⊆ T.indexes)
    (hfirst : ∀ ix, ixs.find? (u.changes T) = some ix → (checkUnique T s fails (u.isSelf T ix) u.new ix t).1.isSome = true)
    (h : updateIndexes T s fails u ixs t = (e, t')) : MariaDBTxn.Extends s [] t t' ∧ (e = none → t' = t) := by
  induction ixs with
  | nil =>
    cases h
    exact ⟨.refl s _, fun _ => rfl⟩
  | cons ix ixs ih =>
    rw [updateIndexes, updateIndex] at h
    cases hc : u.changes T ix with
    | false =>
      rw [hc, if_neg Bool.false_ne_true] at h
      refine ih (List.Subset.trans (subset_cons_self ix ixs) hixs) (fun jx hjx => hfirst jx ?_) h
      rw [List.find?_cons_of_neg (by rw [hc]; exact Bool.false_ne_true)]
      exact hjx
    | true =>
      have hrefused := hfirst ix (List.find?_cons_of_pos hc)
      rw [hc, if_pos rfl] at h
      cases hcheck : checkUnique T s fails (u.isSelf T ix) u.new ix t with
      | mk e₁ t₁ =>
        obtain ⟨hext, -⟩ := checkUnique_spec (hixs mem_cons_self) hcheck
        rw [hcheck] at h hrefused
        cases e₁ with
        | none => cases hrefused
        | some e₁ =>
          cases h
          exact ⟨hext, nofun⟩

lemma FailsFirst.extends (hfirst : FailsFirst T s fails u t) (hnew : keyBelongsToTable (u.newPk T) T.tableId = true) {err : HaError}
    (h : updateRow T s fails u t = (some err, t')) : MariaDBTxn.Extends s [] t t' := by
  by_cases hpasses : ∃ ix, T.indexes.find? (u.changes T) = some ix ∧ (checkUnique T s fails (u.isSelf T ix) u.new ix t).1 = none
  · obtain ⟨ix, hix, hpass⟩ := hpasses
    obtain ⟨hall, hplace⟩ := hfirst ix hix hpass
    have hnone := updateRow_passes hnew hall hplace
    rw [h] at hnone
    cases hnone
  · have hfirst : ∀ ix, T.indexes.find? (u.changes T) = some ix → (checkUnique T s fails (u.isSelf T ix) u.new ix t).1.isSome = true :=
      fun ix hix => Option.isSome_iff_ne_none.2 fun hnone => hpasses ⟨ix, hix, hnone⟩
    rw [updateRow] at h
    cases hix : updateIndexes T s fails u _ t with
    | mk e₁ t₁ =>
      obtain ⟨hext, hsame⟩ := updateIndexes_fails (List.Subset.refl _) hfirst hix
      rw [hix] at h
      cases e₁ with
      | some e₁ =>
        cases h
        exact hext
      | none =>
        cases hsame rfl
        dsimp only at h
        rw [updatePk] at h
        split_ifs at h with hpk
        · cases h
        · cases hcheck : checkProbe none _ with
          | mk e₂ t₂ =>
            obtain ⟨hext₂, -⟩ := checkProbe_keyExists hcheck
            rw [hcheck] at h
            cases e₂ with
            | none => cases h
            | some e₂ =>
              cases h
              exact hext₂

end UpdateSpec

section DeleteSpec

variable {T : Table} {current : Bytes} {r : Row}

def deleteOps (T : Table) (current : Bytes) (r : Row) : List Op :=
  T.indexes.map (fun ix => .del (T.encodeSecKey ix r (currentRowid T current r))) ++ [.del (currentPk T current r)]

lemma deleteRow_spec (T : Table) (current : Bytes) (r : Row) (g : Server) (t : MariaDBTxn) :
    ∃ t₁, MariaDBTxn.Extends g.store (deleteOps T current r) t t₁ ∧ deleteRow T current r g t = t₁.trackRowCountDelta g T.tableId (-1) :=
  ⟨_, (extends_foldl (fun t ix => extends_bufferDel g.store t (T.encodeSecKey ix r (currentRowid T current r))) T.indexes t).trans
    (extends_bufferDel g.store _ (currentPk T current r)), rfl⟩

end DeleteSpec

end Bytecask.MariaDb
