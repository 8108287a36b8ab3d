import Bytecask.MariaDb.Handler

/-! What the calls mean: a call puts one row in the place of another, or of none, with all its index entries. -/

namespace Bytecask.MariaDb

open List Option Table

inductive Change where
  | row (T : Table) (old new : Option Row) (rowid : ℕ)
  | deleteAll (T : Table)

instance (T : Table) (k : Bytes) : Decidable (T.Owns k) := inferInstanceAs (Decidable (_ ∨ _))

def Table.imageOf (T : Table) (r : Option Row) (id : ℕ) (k : Bytes) : Option Bytes := r.bind (fun r => T.image r id k)

def Change.leaves : Change → Bytes → Option Bytes → Option Bytes
  | .row T old new id, k, v => if T.imageOf old id k = T.imageOf new id k then v else T.imageOf new id k
  | .deleteAll T, k, v => if T.Owns k then none else v

def RowRead (T : Table) (m : Bytes → Option Bytes) (current : Bytes) (r : Row) : Prop :=
  ∃ id, T.Fits r id ∧ currentPk T current r = T.encodePk r id ∧ m (T.encodePk r id) = some (T.encodeRow r)

def RowUpdate.WriteSetCovers (u : RowUpdate) : Prop := ∀ i, u.old.field i ≠ u.new.field i → i ∈ u.writeSet

section Leave

variable {ops : List Op} {k : Bytes} {f : Bytes → Option Bytes}

lemma leave_of_values (h : ∀ op ∈ ops, op.value = f op.key) (v : Option Bytes) [Decidable (∃ op ∈ ops, op.key = k)] :
    leave ops k v = if ∃ op ∈ ops, op.key = k then f k else v := by
  split_ifs with htouched
  · induction ops generalizing v with
    | nil => exact absurd htouched (by simp)
    | cons op ops ih =>
      rw [leave, foldl_cons]
      by_cases hrest : ∃ op ∈ ops, op.key = k
      · exact ih (fun op hop => h op (mem_cons_of_mem _ hop)) _ hrest
      · have hop : op.key = k := by
          obtain ⟨op', hop', hk⟩ := htouched
          rcases mem_cons.1 hop' with rfl | hop'
          · exact hk
          · exact absurd ⟨op', hop', hk⟩ hrest
        have hleft : leave ops k (op.leaves k v) = op.leaves k v :=
          leave_of_not_touched (fun op hop hk => hrest ⟨op, hop, hk⟩) _
        rw [leave] at hleft
        rw [hleft, Op.leaves, if_pos hop.symm, h op mem_cons_self, hop]
  · exact leave_of_not_touched (fun op hop hk => htouched ⟨op, hop, hk⟩) v

end Leave

section Ops

variable {T : Table} {r : Row} {id : ℕ} {k : Bytes} {defer : Bool}

lemma image_ne_none : T.image r id k ≠ none ↔ k = T.encodePk r id ∨ ∃ ix ∈ T.indexes, k = T.encodeSecKey ix r id := by
  rw [Table.image]
  split_ifs with hpk hsec
  · simp [hpk]
  · simp [hsec]
  · simp [hpk, hsec]

@[simp] lemma imageOf_none (T : Table) (id : ℕ) (k : Bytes) : T.imageOf none id k = none := rfl

@[simp] lemma imageOf_some (T : Table) (r : Row) (id : ℕ) (k : Bytes) : T.imageOf (some r) id k = T.image r id k := rfl

variable {ops : List Op} {old new : Option Row} {v : Option Bytes}

lemma leave_eq_leaves (hvalue : ∀ op ∈ ops, op.value = T.imageOf new id op.key)
    (hdiffer : T.imageOf old id k ≠ T.imageOf new id k → ∃ op ∈ ops, op.key = k)
    (htouched : (∃ op ∈ ops, op.key = k) → T.imageOf old id k = T.imageOf new id k → v = T.imageOf new id k) :
    leave ops k v = (Change.row T old new id).leaves k v := by
  rw [leave_of_values hvalue, Change.leaves]
  by_cases hsame : T.imageOf old id k = T.imageOf new id k
  · rw [if_pos hsame]
    split_ifs with h
    · exact (htouched h hsame).symm
    · rfl
  · rw [if_pos (hdiffer hsame), if_neg hsame]

lemma rowOps_value {op : Op} (h : op ∈ rowOps T defer r id) : op.value = T.image r id op.key := by
  rcases mem_cons.1 h with rfl | h
  · exact (T.image_encodePk r id).symm
  · obtain ⟨ix, hix, rfl⟩ := mem_map.1 h
    exact (image_encodeSecKey hix r id).symm

lemma touched_rowOps : (∃ op ∈ rowOps T defer r id, op.key = k) ↔ T.image r id k ≠ none := by
  rw [image_ne_none, rowOps, exists_mem_cons_iff]
  refine or_congr eq_comm ⟨?_, ?_⟩
  · rintro ⟨op, hop, rfl⟩
    obtain ⟨ix, hix, rfl⟩ := mem_map.1 hop
    exact ⟨ix, hix, rfl⟩
  · rintro ⟨ix, hix, rfl⟩
    exact ⟨_, mem_map_of_mem hix, rfl⟩

lemma leave_rowOps (T : Table) (defer : Bool) (r : Row) (id : ℕ) (k : Bytes) (v : Option Bytes) :
    leave (rowOps T defer r id) k v = (Change.row T none (some r) id).leaves k v := by
  refine leave_eq_leaves (fun op hop => rowOps_value hop) (fun hne => touched_rowOps.2 (Ne.symm hne)) fun ht hsame => ?_
  exact absurd hsame.symm (touched_rowOps.1 ht)

variable {current : Bytes}

lemma touched_deleteOps (hpk : currentPk T current r = T.encodePk r (currentRowid T current r)) :
    (∃ op ∈ deleteOps T current r, op.key = k) ↔ T.image r (currentRowid T current r) k ≠ none := by
  rw [image_ne_none, deleteOps, hpk]
  constructor
  · rintro ⟨op, hop, rfl⟩
    rcases mem_append.1 hop with hop | hop
    · obtain ⟨ix, hix, rfl⟩ := mem_map.1 hop
      exact .inr ⟨ix, hix, rfl⟩
    · rw [mem_singleton.1 hop]
      exact .inl rfl
  · rintro (rfl | ⟨ix, hix, rfl⟩)
    · exact ⟨_, mem_append_right _ (mem_singleton_self _), rfl⟩
    · exact ⟨_, mem_append_left _ (mem_map_of_mem hix), rfl⟩

lemma deleteOps_value {op : Op} (h : op ∈ deleteOps T current r) : op.value = none := by
  rcases mem_append.1 h with h | h
  · obtain ⟨ix, -, rfl⟩ := mem_map.1 h
    rfl
  · rw [mem_singleton.1 h]
    rfl

lemma leave_deleteOps (hpk : currentPk T current r = T.encodePk r (currentRowid T current r)) (k : Bytes) (v : Option Bytes) :
    leave (deleteOps T current r) k v = (Change.row T (some r) none (currentRowid T current r)).leaves k v := by
  refine leave_eq_leaves (fun op hop => deleteOps_value hop) (touched_deleteOps hpk).2 fun ht hsame => ?_
  exact absurd hsame ((touched_deleteOps hpk).1 ht)

end Ops

section Read

variable {T : Table} {m : Bytes → Option Bytes} {current : Bytes} {r : Row}

lemma readBe64_bigEndian {n : ℕ} (h : n < 256 ^ 8) : readBe64 (bigEndian 8 n) = n := by
  rw [readBe64, take_of_length_le (by simp), bigEndian, reverse_reverse, readLittleEndian_littleEndian,
    Nat.mod_eq_of_lt h]

lemma RowRead.spec (h : RowRead T m current r) : T.Fits r (currentRowid T current r) ∧
    currentPk T current r = T.encodePk r (currentRowid T current r) ∧
    m (T.encodePk r (currentRowid T current r)) = some (T.encodeRow r) := by
  obtain ⟨id, hfits, hpk, hm⟩ := h
  have hid : currentRowid T current r = id := by
    have hbound := hfits.2
    rw [currentRowid, hpk]
    cases hno : T.noPk with
    | false =>
      rw [hno, if_neg Bool.false_ne_true] at hbound
      exact hbound.symm
    | true =>
      rw [hno, if_pos rfl] at hbound
      have hnone : T.primaryKey = none := isNone_iff_eq_none.1 hno
      have hkey : T.encodePk r id = tableIdPrefix T.tableId ++ bigEndian 8 id := by
        rw [encodePk, pkSuffix, hnone]
      rw [hkey, drop_left' (tableIdPrefix_length _), readBe64_bigEndian hbound]
      simp
  rw [hid]
  exact ⟨hfits, hpk, hm⟩

end Read

section Update

variable {T : Table} {u : RowUpdate} {k : Bytes} {v : Option Bytes} {m : Bytes → Option Bytes}
variable {r r' : Row} {id id' : ℕ} {ix : IndexInfo} {op : Op}

structure RowUpdate.Good (T : Table) (m : Bytes → Option Bytes) (u : RowUpdate) : Prop where
  read : RowRead T m u.current u.old
  fields : u.new.length = T.fields
  writeSet : u.WriteSetCovers

section

variable (h : u.Good T m)

include h

lemma RowUpdate.Good.fits : T.Fits u.new (u.rowid T) := ⟨h.fields, h.read.spec.1.2⟩

lemma RowUpdate.Good.oldPk : u.oldPk T = T.encodePk u.old (u.rowid T) := h.read.spec.2.1

lemma RowUpdate.Good.newPk : u.newPk T = T.encodePk u.new (u.rowid T) := by
  have hbound := h.read.spec.1.2
  rw [RowUpdate.newPk]
  cases hno : T.noPk with
  | true =>
    have hnone : T.primaryKey = none := Option.isNone_iff_eq_none.1 hno
    rw [if_pos rfl, h.oldPk, Table.encodePk, Table.encodePk, Table.pkSuffix, Table.pkSuffix, hnone]
  | false =>
    rw [hno, if_neg Bool.false_ne_true] at hbound
    rw [if_neg Bool.false_ne_true, RowUpdate.rowid, hbound]

omit h in
lemma image_of_row (hk : keyBelongsToTable k T.tableId = true) :
    T.image r id k = if k = T.encodePk r id then some (T.encodeRow r) else none := by
  rw [Table.image]
  refine if_congr Iff.rfl rfl (if_neg ?_)
  rintro ⟨ix, -, rfl⟩
  have hsec := T.encodeSecKey_belongs ix r id
  rw [not_both_belong hk] at hsec
  cases hsec

omit h in
lemma image_of_index (hix : ix ∈ T.indexes) (hk : keyBelongsToIndex k T.tableId ix.indexId = true) :
    T.image r id k = if k = T.encodeSecKey ix r id then some [] else none := by
  have hpk : k ≠ T.encodePk r id := by
    rintro rfl
    rw [not_both_belong (T.encodePk_belongs r id)] at hk
    cases hk
  have hsec : (∃ jx ∈ T.indexes, k = T.encodeSecKey jx r id) ↔ k = T.encodeSecKey ix r id := by
    constructor
    · rintro ⟨jx, hjx, rfl⟩
      rw [index_eq_of_belongs hix hjx hk (T.encodeSecKey_belongs jx r id)]
    · exact fun h => ⟨ix, hix, h⟩
  rw [Table.image, if_neg hpk]
  exact if_congr hsec rfl rfl

omit h in
lemma image_encodePk_of_ne (h : T.encodePk r id ≠ T.encodePk r' id') : T.image r' id' (T.encodePk r id) = none := by
  rw [image_of_row (T.encodePk_belongs r id), if_neg h]

omit h in
lemma image_encodeSecKey_of_ne (hix : ix ∈ T.indexes)
    (h : T.encodeSecKey ix r id ≠ T.encodeSecKey ix r' id') : T.image r' id' (T.encodeSecKey ix r id) = none := by
  rw [image_of_index hix (T.encodeSecKey_belongs ix r id), if_neg h]

lemma RowUpdate.Good.changes_iff (ix : IndexInfo) : u.changes T ix = true ↔ u.oldSecKey T ix ≠ u.newSecKey T ix := by
  rw [RowUpdate.changes, Bool.and_eq_true_iff, decide_eq_true_eq, and_iff_right_iff_imp]
  intro hne
  by_contra hno
  rw [Bool.not_eq_true, Bool.or_eq_false_iff] at hno
  refine hne ?_
  have hparts : encodeKeyParts ix.parts u.old = encodeKeyParts ix.parts u.new := by
    refine flatMap_congr fun p hp => congrArg _ ?_
    by_contra hfield
    have hin := any_eq_false.1 hno.2 p hp
    exact hin (decide_eq_true (h.writeSet _ hfield))
  have hsuffix : T.pkSuffix u.old (u.rowid T) = T.pkSuffix u.new (u.rowid T) := by
    have hpk : u.oldPk T = u.newPk T := by
      rcases Bool.and_eq_false_iff.1 hno.1 with hpk | hpk
      · rw [RowUpdate.newPk, if_pos ((Bool.not_eq_false' _).mp hpk)]
      · exact not_not.1 (of_decide_eq_false hpk)
    rw [h.oldPk, h.newPk] at hpk
    exact append_cancel_left hpk
  rw [RowUpdate.oldSecKey, RowUpdate.newSecKey, encodeSecKey, encodeSecKey, encodeUniqueSecKey,
    encodeUniqueSecKey, hparts, hsuffix]

lemma RowUpdate.Good.mem_updateOps : op ∈ updateOps T u ↔
    (∃ ix ∈ T.indexes, u.oldSecKey T ix ≠ u.newSecKey T ix ∧ (op = .del (u.oldSecKey T ix) ∨ op = .put (u.newSecKey T ix) [] false)) ∨
      (op = .put (u.newPk T) (T.encodeRow u.new) false) ∨ (u.oldPk T ≠ u.newPk T ∧ op = .del (u.oldPk T)) := by
  rw [updateOps, mem_append, indexOps, mem_flatMap]
  refine or_congr (exists_congr fun ix => ?_) ?_
  · rw [mem_filter, h.changes_iff, mem_pair, and_assoc]
  · rw [pkOps]
    split_ifs with hpk
    · simp [hpk]
    · simp [hpk, or_comm]

lemma RowUpdate.Good.value_of_mem (hop : op ∈ updateOps T u) : op.value = T.image u.new (u.rowid T) op.key := by
  rcases h.mem_updateOps.1 hop with ⟨ix, hix, hne, rfl | rfl⟩ | rfl | ⟨hne, rfl⟩
  · exact (image_encodeSecKey_of_ne hix hne).symm
  · exact (image_encodeSecKey hix u.new _).symm
  · rw [Op.key, h.newPk]
    exact (T.image_encodePk u.new _).symm
  · rw [h.oldPk, h.newPk] at hne
    rw [Op.key, h.oldPk]
    exact (image_encodePk_of_ne hne).symm

lemma RowUpdate.Good.touched_of_differ (hne : T.image u.old (u.rowid T) k ≠ T.image u.new (u.rowid T) k) :
    ∃ op ∈ updateOps T u, op.key = k := by
  simp only [h.mem_updateOps]
  by_cases hnew : T.image u.new (u.rowid T) k = none
  · rw [hnew] at hne
    rcases image_ne_none.1 hne with rfl | ⟨ix, hix, rfl⟩
    · refine ⟨.del _, .inr (.inr ⟨fun heq => ?_, rfl⟩), h.oldPk⟩
      rw [h.oldPk, h.newPk] at heq
      rw [heq, T.image_encodePk] at hnew
      cases hnew
    · refine ⟨.del _, .inl ⟨ix, hix, fun heq => ?_, .inl rfl⟩, rfl⟩
      have hsome := image_encodeSecKey hix u.new (u.rowid T)
      rw [← RowUpdate.newSecKey, ← heq, RowUpdate.oldSecKey, hnew] at hsome
      cases hsome
  · rcases image_ne_none.1 hnew with rfl | ⟨ix, hix, rfl⟩
    · exact ⟨_, .inr (.inl rfl), h.newPk⟩
    · refine ⟨.put _ [] false, .inl ⟨ix, hix, fun heq => ?_, .inr rfl⟩, rfl⟩
      rw [image_encodeSecKey hix, ← RowUpdate.newSecKey, ← heq, RowUpdate.oldSecKey, image_encodeSecKey hix] at hne
      exact hne rfl

lemma RowUpdate.Good.differ_of_touched (hop : op ∈ updateOps T u)
    (hsame : T.image u.old (u.rowid T) op.key = T.image u.new (u.rowid T) op.key) : op.key = u.oldPk T := by
  rcases h.mem_updateOps.1 hop with ⟨ix, hix, hne, rfl | rfl⟩ | rfl | ⟨hne, rfl⟩
  · have hsome := (image_encodeSecKey hix u.old _).symm.trans (hsame.trans (image_encodeSecKey_of_ne hix hne))
    cases hsome
  · have hsome := (image_encodeSecKey hix u.new _).symm.trans (hsame.symm.trans (image_encodeSecKey_of_ne hix hne.symm))
    cases hsome
  · by_contra hne
    rw [Op.key, h.newPk, h.oldPk] at hne
    rw [Op.key, h.newPk, T.image_encodePk, image_encodePk_of_ne hne] at hsame
    cases hsame
  · rfl

lemma RowUpdate.Good.leave_updateOps (hv : k = u.oldPk T → v = some (T.encodeRow u.old)) :
    leave (updateOps T u) k v = (Change.row T (some u.old) (some u.new) (u.rowid T)).leaves k v := by
  refine leave_eq_leaves (fun op hop => h.value_of_mem hop) h.touched_of_differ ?_
  rintro ⟨op, hop, rfl⟩ hsame
  have hkey := h.differ_of_touched hop hsame
  rw [hv hkey, ← hsame, hkey, h.oldPk]
  exact (T.image_encodePk u.old _).symm

end

end Update

def Table.Clash (T : Table) (ix : IndexInfo) (k k' : Bytes) : Prop :=
  ∃ r id r' id', k = T.encodeSecKey ix r id ∧ k' = T.encodeSecKey ix r' id' ∧
    T.encodeUniqueSecKey ix r = T.encodeUniqueSecKey ix r' ∧ ix.hasNull r = false ∧ ix.hasNull r' = false

def Change.Fitting (m : Bytes → Option Bytes) : Change → Prop
  | .row T old new id =>
    (∀ r ∈ old, T.Fits r id ∧ m (T.encodePk r id) = some (T.encodeRow r)) ∧
      ∀ r ∈ new, T.Fits r id ∧ (m (T.encodePk r id) = none ∨ ∃ r₀ ∈ old, T.encodePk r₀ id = T.encodePk r id)
  | .deleteAll _ => True

section Preserve

variable {T T' : Table} {ix : IndexInfo} {m : Bytes → Option Bytes} {old new : Option Row} {id : ℕ} {k k' : Bytes} {r r' : Row}

def Table.stored? (T : Table) (r : Option Row) (id : ℕ) (h : ∀ r₀ ∈ r, T.Fits r₀ id) : Option T.Stored :=
  r.pmap (fun r h => ⟨(r, id), h⟩) h

lemma imageOf_stored (h : ∀ r₀ ∈ old, T.Fits r₀ id) : T.imaging.imageOf (T.stored? old id h) = T.imageOf old id := by
  cases old <;> rfl

lemma mem_stored {h : ∀ r₀ ∈ old, T.Fits r₀ id} {s : T.Stored} (hs : s ∈ T.stored? old id h) : s.1.1 ∈ old ∧ s.1.2 = id := by
  obtain ⟨r, -, hr, rfl⟩ := pmap_eq_some_iff.1 hs
  exact ⟨hr, rfl⟩

lemma imageOf_of_not_owned (hk : ¬ T.Owns k) (r : Option Row) (id : ℕ) : T.imageOf r id k = none := by
  cases r with
  | none => rfl
  | some r => exact not_not.1 fun hne => hk (owns_of_image hne)

lemma Change.leaves_of_not_owned (hk : ¬ T.Owns k) (v : Option Bytes) : (Change.row T old new id).leaves k v = v := by
  rw [Change.leaves, imageOf_of_not_owned hk, imageOf_of_not_owned hk, if_pos rfl]

lemma described_row (h : T.imaging.Described m) (hfit : (Change.row T old new id).Fitting m) :
    T.imaging.Described (fun k => (Change.row T old new id).leaves k (m k)) := by
  obtain ⟨hold, hnew⟩ := hfit
  have hreplace := h.replace (T.stored? old id fun r hr => (hold r hr).1) (T.stored? new id fun r hr => (hnew r hr).1) ?_ ?_
  · rw [imageOf_stored, imageOf_stored] at hreplace
    exact hreplace
  · rintro ⟨⟨r, i⟩, hs⟩ hr
    obtain ⟨hmem, rfl⟩ := mem_stored hr
    exact (hold r hmem).2.trans (T.image_encodePk r _).symm
  · rintro ⟨⟨r, i⟩, hs⟩ hr
    obtain ⟨hmem, rfl⟩ := mem_stored hr
    refine (hnew r hmem).2.imp id ?_
    rintro ⟨r₀, hr₀, hkey⟩
    exact ⟨⟨(r₀, _), (hold r₀ hr₀).1⟩, pmap_eq_some_iff.2 ⟨r₀, (hold r₀ hr₀).1, hr₀, rfl⟩, hkey⟩

lemma described_of_other (h : T'.imaging.Described m) (hne : T'.tableId ≠ T.tableId) :
    T'.imaging.Described (fun k => (Change.row T old new id).leaves k (m k)) :=
  h.congr fun _ hk => Change.leaves_of_not_owned (fun hk' => hne (hk.tableId_eq hk')) _

section Unique

variable {id' : ℕ} {u : RowUpdate}

lemma exists_row_of_entry (h : T.imaging.Described m) (hix : ix ∈ T.indexes) (hk : keyBelongsToIndex k T.tableId ix.indexId = true)
    (hs : (m k).isSome = true) :
    ∃ r id, T.Fits r id ∧ m (T.encodePk r id) = some (T.encodeRow r) ∧ k = T.encodeSecKey ix r id := by
  obtain ⟨v, hv⟩ := isSome_iff_exists.1 hs
  obtain ⟨⟨⟨r, id⟩, hfits⟩, hr, himage⟩ := (h k (.inr ⟨ix, hix, hk⟩) v).1 hv
  refine ⟨r, id, hfits, hr.trans (T.image_encodePk r id), ?_⟩
  by_contra hne
  have hnone : T.image r id k = none := (image_of_index hix hk).trans (if_neg hne)
  exact some_ne_none v (himage.symm.trans hnone)

lemma Table.Clash.symm (h : T.Clash ix k k') : T.Clash ix k' k := by
  obtain ⟨r, id, r', id', hk, hk', heq, hn, hn'⟩ := h
  exact ⟨r', id', r, id, hk', hk, heq.symm, hn', hn⟩

lemma unique_eq_of_secKey (h : T.encodeSecKey ix r id = T.encodeSecKey ix r' id') :
    T.encodeUniqueSecKey ix r = T.encodeUniqueSecKey ix r' :=
  (append_inj h (by rw [T.encodeUniqueSecKey_length, T.encodeUniqueSecKey_length])).1

lemma hasNull_eq_of_unique (h : T.encodeUniqueSecKey ix r = T.encodeUniqueSecKey ix r') : ix.hasNull r = ix.hasNull r' :=
  anyNull_eq_of_encode (append_cancel_left h)

lemma Table.Clash.spec (h : T.Clash ix (T.encodeSecKey ix r id) k') : ix.hasNull r = false ∧ ∃ z, k' = T.encodeUniqueSecKey ix r ++ z := by
  obtain ⟨r₁, id₁, r', id', hk, rfl, heq, hn, -⟩ := h
  have hsame := unique_eq_of_secKey hk
  exact ⟨(hasNull_eq_of_unique hsame).trans hn, T.pkSuffix r' id', by rw [encodeSecKey, hsame, heq]⟩

lemma clash_of_unique (h : T.encodeUniqueSecKey ix r = T.encodeUniqueSecKey ix r') (hn : ix.hasNull r = false) :
    T.Clash ix (T.encodeSecKey ix r id) (T.encodeSecKey ix r' id') :=
  ⟨r, id, r', id', rfl, rfl, h, hn, (hasNull_eq_of_unique h).symm.trans hn⟩

lemma Table.Clash.belongs (h : T.Clash ix k k') : keyBelongsToIndex k T.tableId ix.indexId = true := by
  obtain ⟨r, id, -, -, rfl, -⟩ := h
  exact T.encodeSecKey_belongs ix r id

lemma distinct_image (hix : ix ∈ T.indexes) (r : Option Row) (id : ℕ) : Imaging.Distinct (T.Clash ix) (T.imageOf r id) := by
  have hkey : ∀ k, keyBelongsToIndex k T.tableId ix.indexId = true → (T.imageOf r id k).isSome = true →
      ∃ r₀ ∈ r, k = T.encodeSecKey ix r₀ id := by
    intro k hk hs
    cases r with
    | none => cases hs
    | some r =>
      rw [imageOf_some, image_of_index hix hk] at hs
      split_ifs at hs with heq
      · exact ⟨r, rfl, heq⟩
      · cases hs
  intro k k' hc hs hs'
  obtain ⟨r₁, hr₁, rfl⟩ := hkey k hc.belongs hs
  obtain ⟨r₂, hr₂, rfl⟩ := hkey k' hc.symm.belongs hs'
  rw [mem_unique hr₁ hr₂]

def OnlyOwn (T : Table) (m : Bytes → Option Bytes) (ix : IndexInfo) (old new : Option Row) (id : ℕ) : Prop :=
  ∀ r ∈ new, ix.hasNull r = false → (∀ r₀ ∈ old, T.encodeSecKey ix r₀ id ≠ T.encodeSecKey ix r id) →
    ∀ z, (m (T.encodeUniqueSecKey ix r ++ z)).isSome = true → ∃ r₀ ∈ old, T.encodeUniqueSecKey ix r ++ z = T.encodeSecKey ix r₀ id

lemma distinct_row (hix : ix ∈ T.indexes) (h : Imaging.Distinct (T.Clash ix) m) (hown : OnlyOwn T m ix old new id) :
    Imaging.Distinct (T.Clash ix) (fun k => (Change.row T old new id).leaves k (m k)) := by
  refine h.replace (fun k k' hc => hc.symm) (distinct_image hix new id) fun k k' hc hn hne hs => ?_
  cases new with
  | none => cases hn
  | some r =>
    rw [imageOf_some, image_of_index hix hc.belongs] at hn hne
    split_ifs at hn hne with hk
    · subst hk
      obtain ⟨hnull, z, rfl⟩ := hc.spec
      have hdiffer : ∀ r₀ ∈ old, T.encodeSecKey ix r₀ id ≠ T.encodeSecKey ix r id := by
        rintro r₀ rfl heq
        rw [imageOf_some, ← heq, image_encodeSecKey hix] at hne
        exact hne rfl
      obtain ⟨r₀, rfl, heq⟩ := hown r rfl hnull hdiffer z hs
      rw [imageOf_some, heq, image_encodeSecKey hix]
      rfl
    · cases hn

lemma onlyOwn_insert (hu : ix.isUnique = true) (hfree : Free T m (fun _ => false) r ix) : OnlyOwn T m ix none (some r) id := by
  intro r₁ hr hnull _ z hs
  cases hr
  rcases hfree hu hnull with hnone | ⟨_, hself, -⟩
  · rw [hnone] at hs
    cases hs
  · cases hself

lemma eq_oldSecKey_of_isSelf (h : T.imaging.Described m) (hu : u.Good T m) (hix : ix ∈ T.indexes)
    (hk : keyBelongsToIndex k T.tableId ix.indexId = true) (hs : (m k).isSome = true) (hself : u.isSelf T ix k = true) :
    k = u.oldSecKey T ix := by
  obtain ⟨r, id, hfits, hr, rfl⟩ := exists_row_of_entry h hix hk hs
  obtain ⟨hfits', hpk, hold⟩ := hu.read.spec
  have hbytes : (u.oldPk T).drop 5 = T.pkSuffix u.old (u.rowid T) := by
    rw [hu.oldPk, encodePk, drop_left' (tableIdPrefix_length _)]
  have hsuffix : T.pkSuffix r id = T.pkSuffix u.old (u.rowid T) := by
    have htake := of_decide_eq_true (Bool.and_eq_true_iff.1 hself).2
    rw [hbytes, encodeSecKey, drop_left' (T.encodeUniqueSecKey_length ix r), T.pkSuffix_length,
      take_of_length_le (T.pkSuffix_length r id).le] at htake
    exact htake
  have hkey : T.encodePk r id = T.encodePk u.old (u.rowid T) := congrArg _ hsuffix
  have hrow : T.encodeRow r = T.encodeRow u.old := by
    rw [hkey] at hr
    exact Option.some.inj (hr.symm.trans hold)
  obtain ⟨rfl, rfl⟩ := hfits.ext hfits' hkey hrow
  rfl

lemma onlyOwn_update (h : T.imaging.Described m) (hd : Imaging.Distinct (T.Clash ix) m) (hgood : u.Good T m)
    (hix : ix ∈ T.indexes) (hu : ix.isUnique = true) (hfree : u.changes T ix = true → Free T m (u.isSelf T ix) u.new ix) :
    OnlyOwn T m ix (some u.old) (some u.new) (u.rowid T) := by
  intro r₁ hr hnull hdiffer z hs
  cases hr
  have hbel : ∀ z, keyBelongsToIndex (T.encodeUniqueSecKey ix u.new ++ z) T.tableId ix.indexId = true := by
    intro z
    exact belongsToIndex_append _ _ _
  have hunique : ∀ {z r id}, T.encodeUniqueSecKey ix u.new ++ z = T.encodeSecKey ix r id →
      T.encodeUniqueSecKey ix u.new = T.encodeUniqueSecKey ix r := by
    intro z r id heq
    exact (append_inj heq (by rw [T.encodeUniqueSecKey_length, T.encodeUniqueSecKey_length])).1
  rcases hfree ((hgood.changes_iff ix).2 (hdiffer u.old rfl)) hu hnull with hnone | ⟨z₀, hself, hsome⟩
  · rw [hnone] at hs
    cases hs
  · -- The entry found is the old row's, and no other entry has these columns.
    have hown := eq_oldSecKey_of_isSelf h hgood hix (hbel z₀) hsome hself
    obtain ⟨r, id, -, -, hz⟩ := exists_row_of_entry h hix (hbel z) hs
    have hclash : T.Clash ix (T.encodeUniqueSecKey ix u.new ++ z) (T.encodeUniqueSecKey ix u.new ++ z₀) := by
      rw [hz, hown]
      exact clash_of_unique ((hunique hz).symm.trans (hunique hown)) ((hasNull_eq_of_unique (hunique hz)).symm.trans hnull)
    exact ⟨u.old, rfl, (hd _ _ hclash hs hsome).trans hown⟩

end Unique

end Preserve

end Bytecask.MariaDb
