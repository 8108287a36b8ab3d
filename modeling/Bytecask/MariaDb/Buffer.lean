import Bytecask.MariaDb.Txn

/-! What the calls of a transaction do to its buffer, and what its end does to the engine and the counters. -/

namespace Bytecask.MariaDb

open List SortedMap

namespace Op

def leaves (op : Op) (k : Bytes) (v : Option Bytes) : Option Bytes := if k = op.key then op.value else v

def write : Op → WriteOp
  | .put key val _ => .pointPut key val
  | .del key => .pointDel key

lemma write_leaves (op : Op) (k : Bytes) (v : Option Bytes) : op.write.leaves k v = op.leaves k v := by
  cases op <;> rfl

lemma write_touches {op : Op} {k : Bytes} : op.write.Touches k ↔ k = op.key := by
  cases op <;> rfl

end Op

def leave (ops : List Op) (k : Bytes) (v : Option Bytes) : Option Bytes := ops.foldl (fun v op => op.leaves k v) v

section Leave

variable {ops : List Op} {k : Bytes}

lemma leave_append (ops ops' : List Op) (k : Bytes) (v : Option Bytes) : leave (ops ++ ops') k v = leave ops' k (leave ops k v) :=
  foldl_append

lemma leave_of_not_touched (h : ∀ op ∈ ops, op.key ≠ k) (v : Option Bytes) : leave ops k v = v := by
  induction ops generalizing v with
  | nil => rfl
  | cons op ops ih =>
    have hop : op.leaves k v = v := if_neg fun hk => h op mem_cons_self hk.symm
    rw [leave, foldl_cons, hop]
    exact ih (fun op hop => h op (mem_cons_of_mem _ hop)) v

lemma leave_of_touched (h : ∃ op ∈ ops, op.key = k) (v w : Option Bytes) : leave ops k v = leave ops k w := by
  induction ops generalizing v w with
  | nil => exact absurd h (by simp)
  | cons op ops ih =>
    rw [leave, foldl_cons, leave, foldl_cons]
    by_cases hop : k = op.key
    · rw [Op.leaves, if_pos hop, Op.leaves, if_pos hop]
    · obtain ⟨op', hop', hk⟩ := h
      rcases mem_cons.1 hop' with rfl | hop'
      · exact absurd hk.symm hop
      · exact ih ⟨op', hop', hk⟩ _ _

lemma getD_foldl_insert (ops : List Op) (m : SortedMap Bytes (Option Bytes)) (k : Bytes) (v : Option Bytes) :
    ((ops.foldl (fun m op => m.insert op.key op.value) m).get k).getD v = leave ops k ((m.get k).getD v) := by
  induction ops generalizing m with
  | nil => rfl
  | cons op ops ih =>
    rw [foldl_cons, ih, leave, leave, foldl_cons, Op.leaves]
    by_cases hk : k = op.key
    · rw [if_pos hk, hk, get_insert_self]
      rfl
    · rw [if_neg hk, get_insert_ne _ _ hk]

lemma get_foldl_insert_of_not_touched (h : ∀ op ∈ ops, op.key ≠ k) (m : SortedMap Bytes (Option Bytes)) :
    (ops.foldl (fun m op => m.insert op.key op.value) m).get k = m.get k := by
  induction ops generalizing m with
  | nil => rfl
  | cons op ops ih =>
    rw [foldl_cons, ih fun op' hop' => h op' (mem_cons_of_mem op hop'), get_insert_ne _ _ (h op mem_cons_self).symm]

lemma getD_lookupOf (ops : List Op) (k : Bytes) (v : Option Bytes) : ((MariaDBTxn.lookupOf ops).get k).getD v = leave ops k v :=
  getD_foldl_insert ops SortedMap.empty k v

lemma get_apply_write (s : Store) (ops : List Op) (k : Bytes) : (s.apply (ops.map Op.write)).get k = leave ops k (s.get k) := by
  rw [Store.get_apply, foldl_map, leave]
  simp only [Op.write_leaves]

end Leave

namespace MariaDBTxn

variable {s : Store} {t t' t'' : MariaDBTxn} {new new' : List Op} {k key val : Bytes}

def book (t : MariaDBTxn) : SortedMap ℕ ℤ × ℕ × SortedMap ℕ ℤ × Option ℕ × Bool × Bool :=
  (t.rowCountDeltas, t.stmtOpsMark, t.stmtRowCountDeltas, t.deferredInsert, t.registeredStmt, t.registeredAll)

structure Extends (s : Store) (new : List Op) (t t' : MariaDBTxn) : Prop where
  snap : t'.snap = t.snap ∨ (t.snap = none ∧ t'.snap = some s)
  ops : t'.ops = t.ops ++ new
  lookup : t'.lookup = new.foldl (fun m op => m.insert op.key op.value) t.lookup
  book : t'.book = t.book
  pinned : new ≠ [] → t.deferredInsert = none → t'.snap.isSome = true

namespace Extends

lemma refl (s : Store) (t : MariaDBTxn) : Extends s [] t t := ⟨.inl rfl, (append_nil _).symm, rfl, rfl, fun h => absurd rfl h⟩

section

variable (h : Extends s new t t')

include h

lemma deferredInsert : t'.deferredInsert = t.deferredInsert := congrArg (fun b => b.2.2.2.1) h.book

lemma stmtOpsMark : t'.stmtOpsMark = t.stmtOpsMark := congrArg (fun b => b.2.1) h.book

lemma registeredAll : t'.registeredAll = t.registeredAll := congrArg (fun b => b.2.2.2.2.2) h.book

lemma rowCountDeltas : t'.rowCountDeltas = t.rowCountDeltas := congrArg (fun b => b.1) h.book

lemma stmtRowCountDeltas : t'.stmtRowCountDeltas = t.stmtRowCountDeltas :=
  congrArg (fun b => b.2.2.1) h.book

lemma snap_trans (h' : Extends s new' t' t'') : t''.snap = t.snap ∨ (t.snap = none ∧ t''.snap = some s) := by
  rcases h'.snap with heq | ⟨hnone, hsome⟩
  · rw [heq]
    exact h.snap
  · rcases h.snap with heq | ⟨-, hs⟩
    · exact .inr ⟨heq ▸ hnone, hsome⟩
    · rw [hs] at hnone
      cases hnone

lemma isSome_mono (hs : t.snap.isSome = true) : t'.snap = t.snap := by
  rcases h.snap with heq | ⟨hnone, -⟩
  · exact heq
  · rw [hnone] at hs
    cases hs

lemma trans (h' : Extends s new' t' t'') : Extends s (new ++ new') t t'' where
  snap := h.snap_trans h'
  ops := by rw [h'.ops, h.ops, append_assoc]
  lookup := by rw [h'.lookup, h.lookup, foldl_append]
  book := h'.book.trans h.book
  pinned hne hd := by
    cases hnew : new with
    | nil => exact h'.pinned (by simpa [hnew] using hne) (h.deferredInsert.trans hd)
    | cons op ops =>
      have hs := h.pinned (by simp [hnew]) hd
      rw [h'.isSome_mono hs]
      exact hs

lemma base : t'.snap.getD s = t.snap.getD s := by
  rcases h.snap with heq | ⟨hnone, hsome⟩
  · rw [heq]
  · rw [hnone, hsome]
    rfl

lemma view (k : Bytes) : t'.view s k = leave new k (t.view s k) := by
  rw [MariaDBTxn.view, h.lookup, h.base, getD_foldl_insert, MariaDBTxn.view]

end

end Extends

lemma extends_ensureSnapshot (s : Store) (t : MariaDBTxn) : Extends s [] t (t.ensureSnapshot s) := by
  rw [ensureSnapshot]
  split_ifs with h
  · have hnone : t.snap = none := Option.isNone_iff_eq_none.1 (Bool.and_eq_true_iff.1 h).1
    exact ⟨.inr ⟨hnone, rfl⟩, (append_nil _).symm, rfl, rfl, fun h => absurd rfl h⟩
  · exact .refl s t

lemma ensureSnapshot_snap (s : Store) (hd : t.deferredInsert ≠ none) : (t.ensureSnapshot s).snap = t.snap := by
  rw [ensureSnapshot, if_neg]
  intro h
  exact hd (Option.isNone_iff_eq_none.1 (Bool.and_eq_true_iff.1 h).2)

lemma extends_pinSnapshot (s : Store) (t : MariaDBTxn) : Extends s [] t (t.pinSnapshot s) := by
  refine ⟨?_, (append_nil _).symm, rfl, rfl, fun h => absurd rfl h⟩
  cases hs : t.snap with
  | none => exact .inr ⟨rfl, by rw [pinSnapshot, hs]; rfl⟩
  | some u => exact .inl (by rw [pinSnapshot, hs]; rfl)

lemma extends_buffer (s : Store) (t : MariaDBTxn) (op : Op) : Extends s [op] t ((t.ensureSnapshot s).buffer op) := by
  have hsnap := extends_ensureSnapshot s t
  refine ⟨hsnap.snap, ?_, ?_, hsnap.book, fun _ hd => ?_⟩
  · rw [buffer, hsnap.ops, append_nil]
  · rw [buffer, hsnap.lookup]
    rfl
  · change (t.ensureSnapshot s).snap.isSome = true
    rw [ensureSnapshot, hd]
    cases hs : t.snap <;> simp [hs]

lemma extends_bufferPut (s : Store) (t : MariaDBTxn) (key val : Bytes) (guardAbsent : Bool) :
    Extends s [.put key val guardAbsent] t (t.bufferPut s key val guardAbsent) := extends_buffer s t _

lemma extends_bufferDel (s : Store) (t : MariaDBTxn) (key : Bytes) : Extends s [.del key] t (t.bufferDel s key) := extends_buffer s t _

lemma keyExists_spec {fails : Bool} {p : Probe} (h : t.keyExists s fails key = (p, t')) :
    Extends s [] t t' ∧ (p = .absent → t.view s key = none) ∧ (p = .present → (t.view s key).isSome = true) := by
  rw [keyExists] at h
  rw [view]
  cases hl : t.lookup.get key with
  | some v =>
    rw [hl] at h
    cases h
    refine ⟨.refl s t, ?_⟩
    cases v <;> simp
  | none =>
    rw [hl] at h
    cases h
    have hbase := (extends_ensureSnapshot s t).base
    refine ⟨extends_ensureSnapshot s t, ?_⟩
    rw [hbase]
    cases fails <;> cases (t.snap.getD s).get key <;> simp

lemma Extends.keyExists (h : Extends s new t t') (hkey : ∀ op ∈ new, op.key ≠ key) (fails : Bool) :
    (t'.keyExists s fails key).1 = (t.keyExists s fails key).1 := by
  rw [MariaDBTxn.keyExists, MariaDBTxn.keyExists, h.lookup, get_foldl_insert_of_not_touched hkey]
  cases t.lookup.get key with
  | some v => rfl
  | none =>
    dsimp only
    rw [(extends_ensureSnapshot s t').base, (extends_ensureSnapshot s t).base, h.base]


section Plan

variable {p q : Plan} {op : Op} {ops : List Op}

lemma addOp_spec (h : addOp p op = some q) : q.snap = p.snap ∧ q.writes = p.writes ++ [op.write] ∧ p.guards ⊆ q.guards ∧
    ∀ key, guardedKey op = some key → (key, .mustBeAbsent) ∈ q.guards := by
  cases op with
  | del key =>
    cases h
    exact ⟨rfl, rfl, List.Subset.refl _, nofun⟩
  | put key val guardAbsent =>
    obtain ⟨p', hp', rfl⟩ := Option.map_eq_some_iff.1 h
    cases guardAbsent with
    | false =>
      cases hp'
      exact ⟨rfl, rfl, List.Subset.refl _, nofun⟩
    | true =>
      obtain ⟨hw, hs⟩ := Plan.ensure_keeps hp'
      obtain ⟨hsub, hmem⟩ := Plan.ensure_guards hp'
      refine ⟨hs, by rw [hw]; rfl, hsub, fun key' hkey => ?_⟩
      cases hkey
      exact hmem

lemma foldlM_addOp (h : ops.foldlM addOp p = some q) : q.snap = p.snap ∧ q.writes = p.writes ++ ops.map Op.write ∧
    p.guards ⊆ q.guards ∧ ∀ op ∈ ops, ∀ key, guardedKey op = some key → (key, .mustBeAbsent) ∈ q.guards := by
  induction ops generalizing p with
  | nil =>
    cases h
    exact ⟨rfl, (append_nil _).symm, List.Subset.refl _, nofun⟩
  | cons op ops ih =>
    obtain ⟨p', hp', hrest⟩ := Option.bind_eq_some_iff.1 h
    obtain ⟨hs, hw, hsub, hg⟩ := addOp_spec hp'
    obtain ⟨hs', hw', hsub', hg'⟩ := ih hrest
    refine ⟨hs'.trans hs, by rw [hw', hw, append_assoc]; rfl, List.Subset.trans hsub hsub', fun op' hop' key hkey => ?_⟩
    rcases mem_cons.1 hop' with rfl | hop'
    · exact hsub' (hg key hkey)
    · exact hg' op' hop' key hkey

lemma buildPlan_spec (h : t.buildPlan = some p) : p.snap = t.snap ∧ p.writes = t.ops.map Op.write ∧
    ∀ op ∈ t.ops, ∀ key, guardedKey op = some key → (key, .mustBeAbsent) ∈ p.guards := by
  obtain ⟨hs, hw, -, hg⟩ := foldlM_addOp h
  exact ⟨hs, hw, hg⟩

end Plan

section End

variable {g g' : Server} {all throws : Bool} {fails : Bytes → Bool} {e : Option HaError}
variable {saved : SortedMap ℕ ℤ} {l : List (ℕ × ℤ)} {id : ℕ}

def Applied (t : MariaDBTxn) (s s' : Store) : Prop :=
  ∃ p : Plan, t.buildPlan = some p ∧ s.passes p = true ∧ s' = s.apply (t.ops.map Op.write)

lemma commit_spec (hfinal : all = true ∨ t.registeredAll = false) (h : t.commit g all throws fails = (e, g', t')) :
    t' = {} ∧ ((e = none ∧ (g' = g ∧ t.ops = [] ∨ ∃ s', t.Applied g.store s' ∧ g' = { g with store := s' })) ∨
      (e.isSome = true ∧ g' = (t.abandon g).1)) := by
  have hno : (!all && t.registeredAll) = false := by
    rcases hfinal with h | h <;> simp [h]
  rw [commit, hno, if_neg Bool.false_ne_true] at h
  split_ifs at h with hops hthrow
  · cases h
    exact ⟨rfl, .inl ⟨rfl, .inl ⟨rfl, List.isEmpty_iff.1 hops⟩⟩⟩
  · cases h
    exact ⟨rfl, .inr ⟨rfl, rfl⟩⟩
  · cases hplan : t.buildPlan with
    | none =>
      rw [hplan] at h
      cases h
      exact ⟨rfl, .inr ⟨rfl, rfl⟩⟩
    | some p =>
      rw [hplan] at h
      cases hc : g.store.commit p with
      | none =>
        simp only [hc] at h
        cases h
        exact ⟨rfl, .inr ⟨rfl, rfl⟩⟩
      | some s' =>
        simp only [hc] at h
        cases h
        obtain ⟨hpass, rfl⟩ := Store.commit_eq_some.1 hc
        refine ⟨rfl, .inl ⟨rfl, .inr ⟨_, ⟨p, hplan, hpass, ?_⟩, rfl⟩⟩⟩
        rw [(buildPlan_spec hplan).2.1]

lemma foldl_undo_of_not_mem (h : ∀ e ∈ l, e.1 ≠ id) (counts : ℕ → ℤ) : l.foldl (undoRowCount saved) counts id = counts id := by
  induction l generalizing counts with
  | nil => rfl
  | cons e l ih =>
    rw [foldl_cons, ih fun e he => h e (mem_cons_of_mem _ he), undoRowCount,
      Function.update_of_ne (h e mem_cons_self).symm]

lemma foldl_undo_of_mem (hl : l.Pairwise (fun a b => a.1 < b.1)) {d : ℤ} (h : (id, d) ∈ l) (counts : ℕ → ℤ) :
    l.foldl (undoRowCount saved) counts id = counts id - (d - (saved.get id).getD 0) := by
  induction l generalizing counts with
  | nil => cases h
  | cons e l ih =>
    obtain ⟨he, hl⟩ := pairwise_cons.1 hl
    rw [foldl_cons]
    rcases mem_cons.1 h with rfl | h
    · rw [foldl_undo_of_not_mem fun e' he' => (he e' he').ne', undoRowCount, Function.update_self]
    · rw [ih hl h, undoRowCount, Function.update_of_ne (he _ h).ne']

lemma restoreRowCountDeltas_spec (g : Server) (saved : SortedMap ℕ ℤ) (h : ∀ id, t.rowCountDeltas.get id = none → saved.get id = none) (id : ℕ) :
    (t.restoreRowCountDeltas g saved).1.rowCounts id =
      g.rowCounts id - ((t.rowCountDeltas.get id).getD 0 - (saved.get id).getD 0) := by
  rw [restoreRowCountDeltas]
  cases hd : t.rowCountDeltas.get id with
  | none =>
    have hno : ∀ e ∈ t.rowCountDeltas.entries, e.1 ≠ id := fun e he heq => get_eq_none.1 hd e.2 (heq ▸ he)
    have hkeep : t.rowCountDeltas.entries.foldl (undoRowCount saved) g.rowCounts id = g.rowCounts id := foldl_undo_of_not_mem hno _
    simp [h id hd, hkeep]
  | some d => exact foldl_undo_of_mem t.rowCountDeltas.sorted (get_eq_some.1 hd) _

end End

end MariaDBTxn

end Bytecask.MariaDb
