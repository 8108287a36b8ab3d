import Bytecask.MariaDb.Calls

/-! Unique indexes and primary keys when any number of transactions run and commit. -/

namespace Bytecask.MariaDb

open MariaDBTxn List Imaging Option Session Store Table

def Strict (tables : List Table) (m : Bytes → Option Bytes) (c : Change) : Prop :=
  Lawful tables m c ∧
    match c with
    | .row T old new id => T.imaging.Described m → ∀ ix ∈ T.indexes, ix.isUnique = true →
        Distinct (T.Clash ix) m → OnlyOwn T m ix old new id
    | .deleteAll _ => True

def Change.adds (k : Bytes) : Change → Bool
  | .row T old new id => (T.imageOf new id k).isSome && (T.imageOf old id k).isNone
  | .deleteAll _ => false

def Change.removes (k : Bytes) : Change → Bool
  | .row T old new id => (T.imageOf old id k).isSome && (T.imageOf new id k).isNone
  | .deleteAll _ => false

def occupied (k : Bytes) (b : Bool) (cs : List Change) : Option Bool :=
  cs.foldlM (fun b c =>
    if c.adds k then (if b then none else some true) else if c.removes k then (if b then some false else none) else some b) b

section Built

variable {tables : List Table} {P : (Bytes → Option Bytes) → Change → Prop} {base m : Bytes → Option Bytes} {ops : List Op}
  {cs : List Change} {T : Table} {ix : IndexInfo} {k : Bytes} {old new : Option Row} {id : ℕ}
variable {op : Op}

lemma Built.imp {Q : (Bytes → Option Bytes) → Change → Prop} (h : Built P base ops cs) (hPQ : ∀ m c, P m c → Q m c) :
    Built Q base ops cs := by
  induction h with
  | nil => exact .nil
  | snoc _ hdoes hp ih => exact ih.snoc hdoes (hPQ _ _ hp)

lemma Does.owns (h : Does T old new id m ops) (hop : op ∈ ops) : T.Owns op.key := by
  by_contra hno
  rcases h.entry op hop with hne | hne
  · exact hne (imageOf_of_not_owned hno _ _)
  · exact hne (imageOf_of_not_owned hno _ _)

lemma Built.exists_change (h : Built P base ops cs) (hop : op ∈ ops) : ∃ T old new id, .row T old new id ∈ cs ∧
    (T.imageOf old id op.key ≠ none ∨ T.imageOf new id op.key ≠ none) := by
  induction h with
  | nil => cases hop
  | snoc _ hdoes _ ih =>
    rcases mem_append.1 hop with hop | hop
    · obtain ⟨T, old, new, id, hc, hentry⟩ := ih hop
      exact ⟨T, old, new, id, mem_append_left _ hc, hentry⟩
    · exact ⟨_, _, _, _, mem_append_right _ (mem_singleton_self _), hdoes.entry op hop⟩

lemma Built.rowKey (hids : (tables.map tableId).Nodup) (h : Built (Lawful tables) base ops cs) (hT : T ∈ tables)
    (hop : op ∈ ops) (howns : T.Owns op.key) : ∃ op' ∈ ops, op'.key = T.rowKeyOf op.key := by
  induction h with
  | nil => cases hop
  | @snoc ops new cs T' old r id _ hdoes hlaw ih =>
    rcases mem_append.1 hop with hop | hop
    · obtain ⟨op', hop', hkey⟩ := ih hop
      exact ⟨op', mem_append_left _ hop', hkey⟩
    · obtain rfl : T = T' := inj_on_of_nodup_map hids hT hlaw.1 (howns.tableId_eq (hdoes.owns hop))
      obtain ⟨op', hop', hkey⟩ := hdoes.rowKey op hop
      exact ⟨op', mem_append_right _ hop', hkey⟩

lemma Table.Clash.owns {k' : Bytes} (hix : ix ∈ T.indexes) (h : T.Clash ix k k') : T.Owns k := .inr ⟨ix, hix, h.belongs⟩

lemma distinct_of_other {T' : Table} (hix : ix ∈ T'.indexes) (h : Distinct (T'.Clash ix) m) (hne : T'.tableId ≠ T.tableId) :
    Distinct (T'.Clash ix) (fun k => (Change.row T old new id).leaves k (m k)) := by
  have hkeep : ∀ k, T'.Owns k → (Change.row T old new id).leaves k (m k) = m k :=
    fun k hk => Change.leaves_of_not_owned (fun hk' => hne (hk.tableId_eq hk')) _
  exact h.congr fun k k' hc => ⟨hkeep k (hc.owns hix), hkeep k' (hc.symm.owns hix)⟩

lemma Built.distinct (hids : (tables.map tableId).Nodup) (h : Built (Strict tables) base ops cs)
    (hdesc : ∀ T ∈ tables, T.imaging.Described base) (hT : T ∈ tables) (hix : ix ∈ T.indexes) (hu : ix.isUnique = true)
    (hdist : Distinct (T.Clash ix) base) : Distinct (T.Clash ix) (fun k => leave ops k (base k)) := by
  induction h with
  | nil => exact hdist
  | @snoc ops new cs T' old r id hbuilt hdoes hstrict ih =>
    have hchange : (fun k => leave (ops ++ new) k (base k)) =
        fun k => (Change.row T' old r id).leaves k (leave ops k (base k)) := by
      funext k
      rw [leave_append]
      exact hdoes.leave_eq k
    rw [hchange]
    by_cases hsame : T.tableId = T'.tableId
    · obtain rfl : T = T' := inj_on_of_nodup_map hids hT hstrict.1.1 hsame
      have hview := (hbuilt.imp fun _ _ h => h.1).described hids hdesc T hT
      exact distinct_row hix ih (hstrict.2 hview ix hix hu ih)
    · exact distinct_of_other hix ih hsame

end Built

section Occupied

variable {tables : List Table} {base m : Bytes → Option Bytes} {ops : List Op} {cs cs' : List Change} {T : Table} {k : Bytes}
  {old new : Option Row} {id : ℕ} {b : Bool}
variable {t : ℕ}

lemma occupied_append (k : Bytes) (b : Bool) (cs cs' : List Change) :
    occupied k b (cs ++ cs') = (occupied k b cs).bind (fun b => occupied k b cs') := foldlM_append

lemma occupied_singleton (k : Bytes) (b : Bool) (c : Change) : occupied k b [c] =
    if c.adds k then (if b then none else some true) else if c.removes k then (if b then some false else none) else some b := by
  rw [occupied, foldlM_cons]
  simp

lemma occupied_of_same (h : T.imageOf old id k = T.imageOf new id k) : occupied k b [.row T old new id] = some b := by
  rw [occupied_singleton, Change.adds, Change.removes, h]
  cases T.imageOf new id k <;> simp

section

variable (hk : keyBelongsToTable k t = true)

include hk

lemma eq_rowKey_of_image {r : Row} (h : T.image r id k ≠ none) : k = T.encodePk r id := by
  rcases image_ne_none.1 h with heq | ⟨ix, -, rfl⟩
  · exact heq
  · have hsec := T.encodeSecKey_belongs ix r id
    rw [not_both_belong hk] at hsec
    cases hsec

lemma occupied_of_fitting (hfit : (Change.row T old new id).Fitting m) :
    occupied k (m k).isSome [.row T old new id] = some ((Change.row T old new id).leaves k (m k)).isSome := by
  by_cases hsame : T.imageOf old id k = T.imageOf new id k
  · rw [occupied_of_same hsame, Change.leaves, if_pos hsame]
  · obtain ⟨hold, hnew⟩ := hfit
    rw [occupied_singleton, Change.adds, Change.removes, Change.leaves, if_neg hsame]
    have hthere : T.imageOf old id k ≠ none → (m k).isSome = true := by
      intro hne
      cases old with
      | none => exact absurd rfl hne
      | some r₀ =>
        rw [eq_rowKey_of_image hk hne, (hold r₀ rfl).2]
        rfl
    have hfree : T.imageOf old id k = none → T.imageOf new id k ≠ none → m k = none := by
      intro hnone hne
      cases new with
      | none => exact absurd rfl hne
      | some r =>
        have hkey := eq_rowKey_of_image hk hne
        rcases (hnew r rfl).2 with habsent | ⟨r₀, rfl, hplace⟩
        · rw [hkey]
          exact habsent
        · rw [imageOf_some, hkey, ← hplace, T.image_encodePk] at hnone
          cases hnone
    cases ho : T.imageOf old id k with
    | none =>
      cases hn : T.imageOf new id k with
      | none => exact absurd (ho.trans hn.symm) hsame
      | some w => simp [hfree ho (by rw [hn]; exact some_ne_none w)]
    | some v =>
      have hsome := hthere (by rw [ho]; exact some_ne_none v)
      cases hn : T.imageOf new id k <;> simp [hsome]

lemma Built.occupied_eq (h : Built (Lawful tables) base ops cs) :
    occupied k (base k).isSome cs = some (leave ops k (base k)).isSome := by
  induction h with
  | nil => rfl
  | snoc _ hdoes hlaw ih =>
    rw [occupied_append, ih, bind_some, leave_append, hdoes.leave_eq]
    exact occupied_of_fitting hk hlaw.2

omit hk in
lemma Built.occupied_of_untouched {P : (Bytes → Option Bytes) → Change → Prop} (h : Built P base ops cs) (hk : ∀ op ∈ ops, op.key ≠ k) (b : Bool) :
    occupied k b cs = some b := by
  induction h with
  | nil => rfl
  | snoc _ hdoes _ ih =>
    rw [occupied_append, ih fun op hop => hk op (mem_append_left _ hop), bind_some]
    exact occupied_of_same (hdoes.untouched k fun op hop => hk op (mem_append_right _ hop))

lemma Built.occupied_of_agree (h : Built (Lawful tables) base ops cs)
    (hm : ∀ op ∈ ops, op.key = k → m k = base k) : occupied k (m k).isSome cs = some (leave ops k (m k)).isSome := by
  by_cases htouched : ∃ op ∈ ops, op.key = k
  · obtain ⟨op, hop, heq⟩ := htouched
    rw [hm op hop heq]
    exact h.occupied_eq hk
  · have hno : ∀ op ∈ ops, op.key ≠ k := fun op hop heq => htouched ⟨op, hop, heq⟩
    rw [h.occupied_of_untouched hno, leave_of_not_touched hno]

end

lemma occupied_stays {b : Bool} (h : occupied k true cs = some b) (hno : ∀ c ∈ cs, c.removes k = false) : b = true := by
  induction cs with
  | nil => exact (Option.some.inj h).symm
  | cons c cs ih =>
    rw [← singleton_append, occupied_append, occupied_singleton, hno c mem_cons_self] at h
    cases hadds : c.adds k with
    | true =>
      rw [hadds] at h
      cases h
    | false =>
      rw [hadds] at h
      exact ih h fun c hc => hno c (mem_cons_of_mem _ hc)

lemma exists_removes_between {pre mid post : List Change} {c c' : Change} {b b' : Bool}
    (h : occupied k b (pre ++ c :: (mid ++ c' :: post)) = some b') (hc : c.adds k = true) (hc' : c'.adds k = true) :
    ∃ d ∈ mid, d.removes k = true := by
  by_contra hno
  have hkept : ∀ d ∈ mid, d.removes k = false := fun d hd => Bool.eq_false_iff.2 fun hr => hno ⟨d, hd, hr⟩
  rw [occupied_append] at h
  obtain ⟨b₁, -, h⟩ := bind_eq_some_iff.1 h
  rw [← singleton_append, occupied_append, occupied_singleton, hc, if_pos rfl] at h
  obtain ⟨b₂, hadded, h⟩ := bind_eq_some_iff.1 h
  obtain rfl : b₂ = true := by
    cases b₁ with
    | true => cases hadded
    | false => exact (Option.some.inj hadded).symm
  rw [occupied_append] at h
  obtain ⟨b₃, hmid, h⟩ := bind_eq_some_iff.1 h
  obtain rfl := occupied_stays hmid hkept
  rw [← singleton_append, occupied_append, occupied_singleton, hc', if_pos rfl, if_pos rfl] at h
  cases h

end Occupied

structure World where
  server : Server
  sessions : ℕ → Session := fun _ => {}
  history : List Change := []

/-- The entries of unique indexes in the engine that clash with one the commit puts were there in its snapshot. -/
def Session.SeesClashes (tables : List Table) (g : Server) (x : Session) : Prop :=
  ∀ T ∈ tables, ∀ ix ∈ T.indexes, ix.isUnique = true → ∀ k k', (x.txn.lookup.get k).join.isSome = true → T.Clash ix k k' →
    (g.store.get k').isSome = true → ∀ sn ∈ x.txn.snap, (sn.get k').isSome = true

structure Solid (tables : List Table) (rowids : ℕ → ℕ) (s : Store) : Prop where
  sound : s.Sound
  described : ∀ T ∈ tables, T.imaging.Described s.get
  distinct : ∀ T ∈ tables, ∀ ix ∈ T.indexes, ix.isUnique = true → Distinct (T.Clash ix) s.get
  numbered : Numbered tables rowids s.get

def world (tables : List Table) : Machine World (ℕ × Action) where
  initial w := Solid tables w.server.rowids w.server.store ∧ (∀ i, w.sessions i = {}) ∧ w.history = []
  Enabled w ia := (w.sessions ia.1).Enabled tables w.server ia.2 ∧ ∀ T throws, ia.2 ≠ .deleteAllRows T throws
  next w ia :=
    let x := w.sessions ia.1
    let (e, g, x') := x.step w.server ia.2
    { server := g
      sessions := Function.update w.sessions ia.1 x'
      history := match ia.2 with
        | .commit all _ _ => if x.final all && e.isNone then w.history ++ x.changes else w.history
        | _ => w.history }

/-- The runs in which failing updates fail first, and no transaction commits an entry of a unique index that clashes
with one committed since its snapshot. -/
def carefulWorld (tables : List Table) : Machine World (ℕ × Action) :=
  { world tables with
    Enabled := fun w ia => (world tables).Enabled w ia ∧ (w.sessions ia.1).Careful w.server ia.2 ∧
      ∀ all throws fails, ia.2 = .commit all throws fails → (w.sessions ia.1).final all = true →
        (w.sessions ia.1).SeesClashes tables w.server }

def NumberedOps (tables : List Table) (rowids : ℕ → ℕ) (ops : List Op) : Prop :=
  ∀ op ∈ ops, op.value.isSome = true → ∀ T ∈ tables, T.noPk = true → ∀ r id, T.Fits r id → op.key = T.encodePk r id →
    id ≤ rowids T.tableId

structure SessionInv (tables : List Table) (g : Server) (x : Session) : Prop where
  sane : x.Sane tables (Strict tables)
  ops : NumberedOps tables g.rowids x.txn.ops
  snap : ∀ sn ∈ x.txn.snap, Solid tables g.rowids sn ∧ Follows sn g.store

structure WorldInv (tables : List Table) (w : World) : Prop where
  solid : Solid tables w.server.rowids w.server.store
  sessions : ∀ i, SessionInv tables w.server (w.sessions i)
  history : ∀ T ∈ tables, ∀ k, keyBelongsToTable k T.tableId = true → ∃ b, occupied k b w.history = some (w.server.store.get k).isSome
  known : ∀ c ∈ w.history, c.table ∈ tables

section Sessions

variable {tables : List Table} {g g' : Server} {x : Session} {n n' : ℕ → ℕ} {st : Store} {ops : List Op} {k : Bytes}

lemma Solid.mono (h : Solid tables n st) (hle : ∀ i, n i ≤ n' i) : Solid tables n' st :=
  ⟨h.sound, h.described, h.distinct, h.numbered.mono hle⟩

lemma NumberedOps.mono (h : NumberedOps tables n ops) (hle : ∀ i, n i ≤ n' i) : NumberedOps tables n' ops :=
  fun op hop hs T hT hno r id hfits hk => (h op hop hs T hT hno r id hfits hk).trans (hle T.tableId)

lemma SessionInv.mono (h : SessionInv tables g x) (hfollows : Follows g.store g'.store) (hle : ∀ i, g.rowids i ≤ g'.rowids i) :
    SessionInv tables g' x :=
  ⟨h.sane, h.ops.mono hle, fun sn hsn => ⟨(h.snap sn hsn).1.mono hle, (h.snap sn hsn).2.trans hfollows⟩⟩

lemma SessionInv.empty (tables : List Table) (g : Server) : SessionInv tables g {} := ⟨.empty _ _, nofun, nofun⟩

lemma exists_put_of_leave {v : Option Bytes} (h : (leave ops k v).isSome = true) :
    v.isSome = true ∨ ∃ op ∈ ops, op.key = k ∧ op.value.isSome = true := by
  induction ops generalizing v with
  | nil => exact .inl h
  | cons op ops ih =>
    rw [leave, foldl_cons] at h
    rcases ih h with hs | ⟨op', hop', hput⟩
    · rw [Op.leaves] at hs
      split_ifs at hs with hk
      · exact .inr ⟨op, mem_cons_self, hk.symm, hs⟩
      · exact .inl hs
    · exact .inr ⟨op', mem_cons_of_mem _ hop', hput⟩

lemma Numbered.leave {base : Bytes → Option Bytes} (h : Numbered tables n base) (hops : NumberedOps tables n ops) :
    Numbered tables n (fun k => leave ops k (base k)) := by
  intro T hT hno r id hfits hs
  rcases exists_put_of_leave hs with hs | ⟨op, hop, hk, hput⟩
  · exact h T hT hno r id hfits hs
  · exact hops op hop hput T hT hno r id hfits hk

lemma SessionInv.numbered_view (h : SessionInv tables g x) (hsolid : Solid tables g.rowids g.store) :
    Numbered tables g.rowids (x.txn.view g.store) := by
  have hbase : Numbered tables g.rowids (x.txn.snap.getD g.store).get := by
    cases hsnap : x.txn.snap with
    | none => exact hsolid.numbered
    | some sn => exact (h.snap sn hsnap).1.numbered
  have hview : x.txn.view g.store = fun k => MariaDb.leave x.txn.ops k ((x.txn.snap.getD g.store).get k) := by
    funext k
    rw [MariaDBTxn.view, h.sane.lookup]
    exact getD_lookupOf _ _ _
  rw [hview]
  exact hbase.leave h.ops

lemma provides_strict (h : Numbered tables g.rowids (x.txn.view g.store)) : Provides tables (Strict tables) g x :=
  fun T old new id m hfacts hsub => ⟨provides_lawful h T old new id m hfacts hsub, hfacts.own⟩

lemma sessionInv_call (hids : (tables.map tableId).Nodup) (h : SessionInv tables g x) (hsolid : Solid tables g.rowids g.store)
    {a : Action} (hen : x.Enabled tables g a) (hcare : x.Careful g a) (hcall : a.IsCall) :
    SessionInv tables (x.step g a).2.1 (x.step g a).2.2 := by
  have hview := h.numbered_view hsolid
  have heffect := step_effect hen hcare hcall
  refine ⟨h.sane.step hids hen hcare (provides_strict hview), ?_, ?_⟩
  · rcases heffect.buffer with ⟨hops, -, -⟩ | ⟨-, T, old, new, id, ops, hT, -, hops, -, hdoes, hfits, hid⟩
    · rw [hops]
      exact h.ops.mono heffect.rowids
    · rw [hops]
      intro op hop hput T' hT' hno r id' hfits' hk
      rcases mem_append.1 hop with hop | hop
      · exact h.ops.mono heffect.rowids op hop hput T' hT' hno r id' hfits' hk
      · obtain rfl : T' = T := by
          refine inj_on_of_nodup_map hids hT' hT (Table.Owns.tableId_eq (.inl ?_) (hdoes.owns hop))
          rw [hk]
          exact T'.encodePk_belongs r id'
        rw [hdoes.value op hop, hk] at hput
        cases new with
        | none => cases hput
        | some r' =>
          rw [id_eq_of_image hno hfits' (hfits r' rfl) hput]
          rcases hid hno with hle | ⟨r₀, hr₀, hfits₀⟩
          · exact hle
          · refine (hview T' hT' hno r₀ id hfits₀ ?_).trans (heffect.rowids _)
            rw [hdoes.read r₀ hr₀]
            rfl
  · intro sn hsn
    rw [heffect.store]
    rcases heffect.snap with hsame | ⟨-, hsome⟩
    · obtain ⟨hs, hf⟩ := h.snap sn (hsame ▸ hsn)
      exact ⟨hs.mono heffect.rowids, hf⟩
    · obtain rfl := Option.some.inj (hsome.symm.trans hsn)
      exact ⟨hsolid.mono heffect.rowids, .refl _⟩

end Sessions

section Commit

variable {tables : List Table} {g : Server} {x : Session} {st : Store} {T : Table} {ix : IndexInfo} {k : Bytes}
variable {m base : Bytes → Option Bytes} {op : Op}

lemma Table.rowKeyOf_belongs (h : T.Owns k) : keyBelongsToTable (T.rowKeyOf k) T.tableId = true := by
  rcases h with hk | ⟨ix, hix, hk⟩
  · rw [rowKeyOf_of_row hk]
    exact hk
  · rw [rowKeyOf_of_index hix hk]
    exact belongsToTable_append _ _

structure Over (tables : List Table) (x : Session) (m base : Bytes → Option Bytes) : Prop where
  built : Built (Strict tables) base x.txn.ops x.changes
  described : ∀ T ∈ tables, T.imaging.Described base
  agree : ∀ op ∈ x.txn.ops, ∀ T ∈ tables, keyBelongsToTable op.key T.tableId = true → m op.key = base op.key

lemma agree_deferred (h : SessionInv tables g x) {id : ℕ} (hd : x.txn.deferredInsert = some id)
    (happ : x.txn.Applied g.store st) : Over tables x g.store.get (fun _ => none) := by
  obtain ⟨-, -, hbuilt, hinserts⟩ := h.sane.deferred id hd
  refine ⟨hbuilt, fun T _ => T.imaging.described_none, fun op hop T hT hk => ?_⟩
  obtain ⟨p, hplan, hpass, -⟩ := happ
  obtain ⟨T₀, old, new, i, hc, hentry⟩ := hbuilt.exists_change hop
  obtain ⟨T', r, -, hrow, hput⟩ := hinserts _ hc
  cases hrow
  have hkey : op.key = T₀.encodePk r 0 := eq_rowKey_of_image hk (hentry.resolve_left fun hne => hne rfl)
  have hguard := (buildPlan_spec hplan).2.2 _ hput _ rfl
  have habsent := holds_of_passes hpass hguard
  rw [hkey]
  exact isNone_iff_eq_none.1 habsent

lemma exists_over (h : SessionInv tables g x) (happ : x.txn.Applied g.store st) : ∃ base, Over tables x g.store.get base := by
  cases hd : x.txn.deferredInsert with
  | some id => exact ⟨_, agree_deferred h hd happ⟩
  | none =>
    cases hsnap : x.txn.snap with
    | none =>
      obtain ⟨hops, hchanges⟩ := h.sane.fresh hd hsnap
      refine ⟨fun _ => none, ?_, fun T _ => T.imaging.described_none, fun op hop => ?_⟩
      · rw [hops, hchanges]
        exact .nil
      · rw [hops] at hop
        cases hop
    | some sn =>
      obtain ⟨hsolid, hfollows⟩ := h.snap sn hsnap
      obtain ⟨p, hplan, hpass, -⟩ := happ
      obtain ⟨hps, hwrites, -⟩ := buildPlan_spec hplan
      refine ⟨sn.get, (h.sane.built hd sn hsnap).1, hsolid.described, fun op hop T _ _ => ?_⟩
      have hversion := version_of_passes hpass (hps.trans hsnap) (hwrites ▸ mem_map_of_mem hop) (Op.write_touches.2 rfl)
      exact get_eq_of_entries (hsolid.sound.eq_of_version hfollows hversion)

section

variable (hids : (tables.map tableId).Nodup)

include hids

lemma Over.eq_of_group (h : Over tables x m base) (hT : T ∈ tables)
    (hm : T.imaging.Described m) (hop : op ∈ x.txn.ops) (howns : T.Owns op.key) (hk : T.Owns k)
    (hsame : T.rowKeyOf k = T.rowKeyOf op.key) : m k = base k := by
  obtain ⟨op', hop', hkey⟩ := (h.built.imp fun _ _ h => h.1).rowKey hids hT hop howns
  have hbel := rowKeyOf_belongs howns
  have hagree := h.agree op' hop' T hT (hkey ▸ hbel)
  rw [hkey] at hagree
  exact hm.eq_of_owner (h.described T hT) hagree (.inl hbel) (rowKeyOf_of_row hbel) hk hsame

lemma Over.described_leave (h : Over tables x m base)
    (hT : T ∈ tables) (hm : T.imaging.Described m) : T.imaging.Described (fun k => leave x.txn.ops k (m k)) := by
  refine described_of_groups fun key => ?_
  by_cases htouched : ∃ op ∈ x.txn.ops, T.Owns op.key ∧ T.rowKeyOf op.key = key
  · obtain ⟨op, hop, howns, hkey⟩ := htouched
    refine ⟨_, (h.built.imp fun _ _ h => h.1).described hids h.described T hT, fun k hk ho => ?_⟩
    rw [h.eq_of_group hids hT hm hop howns hk (Eq.trans ho hkey.symm)]
  · refine ⟨m, hm, fun k hk ho => leave_of_not_touched (fun op hop heq => htouched ⟨op, hop, ?_, ?_⟩) _⟩
    · rw [heq]
      exact hk
    · rw [heq]
      exact ho

omit hids in
lemma isSome_buffered (h : x.Sane tables (Strict tables)) (htouched : ∃ op ∈ x.txn.ops, op.key = k) {v : Option Bytes}
    (hs : (leave x.txn.ops k v).isSome = true) : (x.txn.lookup.get k).join.isSome = true := by
  rw [leave_of_touched htouched v none, h.buffered] at hs
  cases hl : x.txn.lookup.get k with
  | none =>
    rw [hl] at hs
    cases hs
  | some w =>
    rw [hl] at hs
    exact hs

lemma exists_snap_of_touched (h : SessionInv tables g x) (hT : T ∈ tables)
    (hix : ix ∈ T.indexes) (hu : ix.isUnique = true) (hop : op ∈ x.txn.ops) (howns : T.Owns op.key) :
    x.txn.deferredInsert = none ∧ x.txn.snap.isSome = true := by
  cases hd : x.txn.deferredInsert with
  | some id =>
    obtain ⟨-, -, hbuilt, hinserts⟩ := h.sane.deferred id hd
    obtain ⟨T₀, old, new, i, hc, hentry⟩ := hbuilt.exists_change hop
    obtain ⟨T', r, hdef, hrow, -⟩ := hinserts _ hc
    cases hrow
    have howns₀ : T₀.Owns op.key := owns_of_image (hentry.resolve_left fun hne => hne rfl)
    obtain rfl : T = T₀ := inj_on_of_nodup_map hids hT hdef.1 (howns.tableId_eq howns₀)
    exact absurd hu (any_eq_false.1 hdef.2.2.2 ix hix)
  | none =>
    refine ⟨rfl, ?_⟩
    cases hsnap : x.txn.snap with
    | some sn => rfl
    | none =>
      rw [(h.sane.fresh hd hsnap).1] at hop
      cases hop

lemma distinct_commit (h : SessionInv tables g x) (hsolid : Solid tables g.rowids g.store)
    (hsees : x.SeesClashes tables g) (hT : T ∈ tables) (hix : ix ∈ T.indexes) (hu : ix.isUnique = true) :
    Distinct (T.Clash ix) (fun k => leave x.txn.ops k (g.store.get k)) := by
  -- A key that the commit writes shows what the transaction saw; a key that clashes with it was in the snapshot.
  have htouched : ∀ k k', T.Clash ix k k' → (∃ op ∈ x.txn.ops, op.key = k) → (leave x.txn.ops k (g.store.get k)).isSome = true →
      (leave x.txn.ops k' (g.store.get k')).isSome = true → k = k' := by
    intro k k' hc hk hs hs'
    obtain ⟨op, hop, hkey⟩ := hk
    obtain ⟨hd, hsome⟩ := exists_snap_of_touched hids h hT hix hu hop (hkey ▸ hc.owns hix)
    obtain ⟨sn, hsnap⟩ := isSome_iff_exists.1 hsome
    obtain ⟨hsn, -⟩ := h.snap sn hsnap
    have hview := (h.sane.built hd sn hsnap).1.distinct hids hsn.described hT hix hu (hsn.distinct T hT ix hix hu)
    refine hview k k' hc ?_ ?_ <;> dsimp only
    · rw [leave_of_touched ⟨op, hop, hkey⟩ _ _]
      exact hs
    · by_cases hk' : ∃ op ∈ x.txn.ops, op.key = k'
      · rw [leave_of_touched hk' _ _]
        exact hs'
      · have hno : ∀ op ∈ x.txn.ops, op.key ≠ k' := fun op hop heq => hk' ⟨op, hop, heq⟩
        rw [leave_of_not_touched hno] at hs'
        rw [leave_of_not_touched hno]
        exact hsees T hT ix hix hu k k' (isSome_buffered h.sane ⟨op, hop, hkey⟩ hs) hc hs' sn hsnap
  intro k k' hc hs hs'
  dsimp only at hs hs'
  by_cases hk : ∃ op ∈ x.txn.ops, op.key = k
  · exact htouched k k' hc hk hs hs'
  · by_cases hk' : ∃ op ∈ x.txn.ops, op.key = k'
    · exact (htouched k' k hc.symm hk' hs' hs).symm
    · rw [leave_of_not_touched fun op hop heq => hk ⟨op, hop, heq⟩] at hs
      rw [leave_of_not_touched fun op hop heq => hk' ⟨op, hop, heq⟩] at hs'
      exact hsolid.distinct T hT ix hix hu k k' hc hs hs'

lemma Solid.commit (h : SessionInv tables g x) (hsolid : Solid tables g.rowids g.store)
    (hsees : x.SeesClashes tables g) (happ : x.txn.Applied g.store st) : Solid tables g.rowids st ∧ Follows g.store st := by
  obtain ⟨base, hover⟩ := exists_over h happ
  obtain ⟨p, -, -, rfl⟩ := happ
  have hget : (g.store.apply (x.txn.ops.map Op.write)).get = fun k => leave x.txn.ops k (g.store.get k) := funext (get_apply_write _ _)
  refine ⟨⟨hsolid.sound.apply _, ?_, ?_, ?_⟩, follows_apply _ _⟩
  · intro T hT
    rw [hget]
    exact hover.described_leave hids hT (hsolid.described T hT)
  · intro T hT ix hix hu
    rw [hget]
    exact distinct_commit hids h hsolid hsees hT hix hu
  · rw [hget]
    exact hsolid.numbered.leave h.ops

end

lemma occupied_commit (h : SessionInv tables g x) (happ : x.txn.Applied g.store st) (hT : T ∈ tables)
    (hk : keyBelongsToTable k T.tableId = true) : occupied k (g.store.get k).isSome x.changes = some (st.get k).isSome := by
  obtain ⟨base, hover⟩ := exists_over h happ
  obtain ⟨p, -, -, rfl⟩ := happ
  rw [get_apply_write]
  refine (hover.built.imp fun _ _ h => h.1).occupied_of_agree hk fun op hop heq => ?_
  rw [← heq]
  exact hover.agree op hop T hT (heq ▸ hk)

end Commit

lemma Session.Sane.exists_built {tables : List Table} {P : (Bytes → Option Bytes) → Change → Prop} {x : Session} (h : x.Sane tables P) :
    ∃ base, Built P base x.txn.ops x.changes := by
  cases hd : x.txn.deferredInsert with
  | some id => exact ⟨_, (h.deferred id hd).2.2.1⟩
  | none =>
    cases hsnap : x.txn.snap with
    | none =>
      rw [(h.fresh hd hsnap).1, (h.fresh hd hsnap).2]
      exact ⟨fun _ => none, .nil⟩
    | some sn => exact ⟨_, (h.built hd sn hsnap).1⟩

section Run

variable {tables : List Table} {w : World} {i : ℕ} {a : Action}
variable {g : Server} {x : Session}

lemma sessions_update (h : WorldInv tables w) (hx : SessionInv tables g x)
    (hfollows : Follows w.server.store g.store) (hle : ∀ j, w.server.rowids j ≤ g.rowids j) (i j : ℕ) :
    SessionInv tables g (Function.update w.sessions i x j) := by
  by_cases hj : j = i
  · rw [hj, Function.update_self]
    exact hx
  · rw [Function.update_of_ne hj]
    exact (h.sessions j).mono hfollows hle

lemma WorldInv.quiet (h : WorldInv tables w) (hx : SessionInv tables g x) (hstore : g.store = w.server.store)
    (hle : ∀ j, w.server.rowids j ≤ g.rowids j) (i : ℕ) : WorldInv tables ⟨g, Function.update w.sessions i x, w.history⟩ where
  solid := hstore ▸ h.solid.mono hle
  sessions := sessions_update h hx (hstore ▸ .refl _) hle i
  history := hstore ▸ h.history
  known := h.known

lemma worldInv_call (hids : (tables.map tableId).Nodup) (h : WorldInv tables w)
    (hen : (w.sessions i).Enabled tables w.server a) (hcare : (w.sessions i).Careful w.server a) (hcall : a.IsCall) :
    WorldInv tables ((world tables).next w (i, a)) := by
  have heffect := step_effect hen hcare hcall
  have hquiet := h.quiet (sessionInv_call hids (h.sessions i) h.solid hen hcare hcall) heffect.store heffect.rowids i
  cases a with
  | begin | get | scan | writeRow | updateRow | deleteRow => exact hquiet
  | deleteAllRows | commit | rollback => exact hcall.elim

lemma worldInv_rollback (h : WorldInv tables w) (all : Bool) : WorldInv tables ((world tables).next w (i, .rollback all)) := by
  have hinv := h.sessions i
  change WorldInv tables ⟨((w.sessions i).step w.server (.rollback all)).2.1,
    Function.update w.sessions i ((w.sessions i).step w.server (.rollback all)).2.2, w.history⟩
  cases hfinal : (w.sessions i).final all with
  | true =>
    rw [step_rollback_final hfinal]
    refine h.quiet ?_ ?_ ?_ i
    · exact .empty _ _
    · rfl
    · exact fun _ => le_rfl
  | false =>
    rw [step_rollback_stmt hfinal]
    refine h.quiet ?_ ?_ ?_ i
    · exact ⟨hinv.sane.rollback_stmt (not_final hfinal).2, fun op hop => hinv.ops op (mem_of_mem_take hop), hinv.snap⟩
    · rfl
    · exact fun _ => le_rfl

lemma Built.table_mem {base : Bytes → Option Bytes} {ops : List Op} {cs : List Change} (h : Built (Strict tables) base ops cs) :
    ∀ c ∈ cs, c.table ∈ tables := by
  induction h with
  | nil => exact nofun
  | snoc _ _ hstrict ih =>
    intro c hc
    rcases mem_append.1 hc with hc | hc
    · exact ih c hc
    · rw [mem_singleton.1 hc]
      exact hstrict.1.1

lemma WorldInv.known_append (h : WorldInv tables w) (i : ℕ) : ∀ c ∈ w.history ++ (w.sessions i).changes, c.table ∈ tables := by
  obtain ⟨base, hbuilt⟩ := (h.sessions i).sane.exists_built
  intro c hc
  rcases mem_append.1 hc with hc | hc
  · exact h.known c hc
  · exact hbuilt.table_mem c hc

lemma worldInv_commit (hids : (tables.map tableId).Nodup) (h : WorldInv tables w) {all throws : Bool} {fails : Bytes → Bool}
    (hsees : (w.sessions i).final all = true → (w.sessions i).SeesClashes tables w.server) :
    WorldInv tables ((world tables).next w (i, .commit all throws fails)) := by
  have hinv := h.sessions i
  change WorldInv tables ⟨((w.sessions i).step w.server (.commit all throws fails)).2.1,
    Function.update w.sessions i ((w.sessions i).step w.server (.commit all throws fails)).2.2,
    if (w.sessions i).final all && ((w.sessions i).step w.server (.commit all throws fails)).1.isNone then
      w.history ++ (w.sessions i).changes else w.history⟩
  cases hfinal : (w.sessions i).final all with
  | false =>
    rw [step_commit_stmt hfinal, Bool.false_and, if_neg Bool.false_ne_true]
    refine h.quiet ?_ ?_ ?_ i
    · exact ⟨hinv.sane.commit_stmt, hinv.ops, hinv.snap⟩
    · rfl
    · exact fun _ => le_rfl
  | true =>
    have hspec : all = true ∨ (w.sessions i).txn.registeredAll = false := by simpa [Session.final] using hfinal
    cases hc : (w.sessions i).txn.commit w.server all throws fails with
    | mk e rest =>
      obtain ⟨g, t⟩ := rest
      have hstep : (w.sessions i).step w.server (.commit all throws fails) = (e, g, { txn := t }) := by
        rw [Session.step, hc, hfinal]
        rfl
      rw [hstep, Bool.true_and]
      obtain ⟨rfl, ⟨rfl, ⟨rfl, hops⟩ | ⟨st, happ, rfl⟩⟩ | ⟨herr, rfl⟩⟩ := commit_spec hspec hc
      · rw [isNone_none, if_pos rfl]
        have hquiet := h.quiet (.empty _ _) rfl (fun _ => le_rfl) i
        refine ⟨hquiet.solid, hquiet.sessions, fun T hT k hk => ?_, h.known_append i⟩
        obtain ⟨b, hb⟩ := h.history T hT k hk
        obtain ⟨base, hbuilt⟩ := hinv.sane.exists_built
        rw [hops] at hbuilt
        refine ⟨b, ?_⟩
        rw [occupied_append, hb]
        exact hbuilt.occupied_of_untouched (by simp) _
      · rw [isNone_none, if_pos rfl]
        obtain ⟨hsolid, hfollows⟩ := h.solid.commit hids hinv (hsees hfinal) happ
        refine ⟨hsolid, sessions_update (g := { w.server with store := st }) h (.empty _ _) hfollows (fun _ => le_rfl) i,
          fun T hT k hk => ?_, h.known_append i⟩
        obtain ⟨b, hb⟩ := h.history T hT k hk
        refine ⟨b, ?_⟩
        rw [occupied_append, hb]
        exact occupied_commit hinv happ hT hk
      · have hsome : e.isNone = false := isNone_eq_false_iff.2 herr
        rw [hsome, if_neg Bool.false_ne_true]
        refine h.quiet ?_ ?_ ?_ i
        · exact .empty _ _
        · rfl
        · exact fun _ => le_rfl

lemma worldInv_of_reachable (hids : (tables.map tableId).Nodup) (h : (carefulWorld tables).Reachable w) : WorldInv tables w := by
  apply h.invariant
  · rintro w ⟨hsolid, hsessions, hhistory⟩
    refine ⟨hsolid, fun i => ?_, fun T _ k _ => ?_, fun c hc => ?_⟩
    · rw [hsessions]
      exact .empty _ _
    · rw [hhistory]
      exact ⟨_, rfl⟩
    · rw [hhistory] at hc
      cases hc
  · rintro w ⟨i, a⟩ hinv ⟨⟨hen, hno⟩, hcare, hsees⟩
    cases a with
    | begin | get | scan | writeRow | updateRow | deleteRow => exact worldInv_call hids hinv hen hcare trivial
    | deleteAllRows => exact hcare.elim
    | commit all throws fails => exact worldInv_commit hids hinv (hsees all throws fails rfl)
    | rollback all => exact worldInv_rollback hinv all

/-- Two inserts of one primary key in the history have between them a delete of that key, or an update that moves
its row to another. -/
def DeletedBetween (history : List Change) : Prop :=
  ∀ pre mid post T r id r' id', history = pre ++ .row T none (some r) id :: (mid ++ .row T none (some r') id' :: post) →
    T.encodePk r id = T.encodePk r' id' →
    ∃ r₀ new i, .row T (some r₀) new i ∈ mid ∧ T.encodePk r₀ i = T.encodePk r id ∧ ∀ r₁ ∈ new, T.encodePk r₁ i ≠ T.encodePk r id

lemma adds_insert (T : Table) (r : Row) (id : ℕ) : (Change.row T none (some r) id).adds (T.encodePk r id) = true := by
  simp [Change.adds]

lemma exists_of_removes {t : ℕ} {c : Change} {k : Bytes} (hk : keyBelongsToTable k t = true) (h : c.removes k = true) :
    ∃ T r₀ new id, c = .row T (some r₀) new id ∧ T.encodePk r₀ id = k ∧ ∀ r₁ ∈ new, T.encodePk r₁ id ≠ k := by
  cases c with
  | deleteAll T => cases h
  | row T old new id =>
    obtain ⟨hold, hnew⟩ := Bool.and_eq_true_iff.1 h
    cases old with
    | none => cases hold
    | some r₀ =>
      refine ⟨T, r₀, new, id, rfl, (eq_rowKey_of_image hk (isSome_iff_ne_none.1 hold)).symm, ?_⟩
      rintro r₁ rfl heq
      rw [imageOf_some, ← heq, T.image_encodePk] at hnew
      cases hnew

end Run

section Settled

variable {tables : List Table} {w : World}

/-- In every run that keeps to the condition, no unique index of the engine ever has two entries with the same columns,
and no primary key is inserted twice without a delete between. -/
theorem unique_indexes_hold (hids : (tables.map tableId).Nodup) (h : (carefulWorld tables).Reachable w) :
    (∀ T ∈ tables, ∀ ix ∈ T.indexes, ix.isUnique = true → Distinct (T.Clash ix) w.server.store.get) ∧
      DeletedBetween w.history := by
  have hinv := worldInv_of_reachable hids h
  refine ⟨hinv.solid.distinct, fun pre mid post T r id r' id' hhistory hkey => ?_⟩
  have hT : T ∈ tables := by
    refine hinv.known (.row T none (some r) id) ?_
    rw [hhistory]
    exact mem_append_right _ mem_cons_self
  have hk := T.encodePk_belongs r id
  obtain ⟨b, hb⟩ := hinv.history T hT _ hk
  rw [hhistory] at hb
  obtain ⟨c, hc, hremoves⟩ := exists_removes_between hb (adds_insert T r id) (hkey ▸ adds_insert T r' id')
  obtain ⟨T', r₀, new, i, rfl, hold, hnew⟩ := exists_of_removes hk hremoves
  have hT' : T' ∈ tables := by
    refine hinv.known (.row T' (some r₀) new i) ?_
    rw [hhistory]
    exact mem_append_right _ (mem_cons_of_mem _ (mem_append_left _ hc))
  obtain rfl : T = T' := by
    refine inj_on_of_nodup_map hids hT hT' (Table.Owns.tableId_eq (.inl hk) (.inl ?_))
    rw [← hold]
    exact T'.encodePk_belongs r₀ i
  exact ⟨r₀, new, i, hc, hold, hnew⟩

end Settled

section Sample

def sampleWorld : World := ⟨{}, fun _ => {}, []⟩

lemma solid_empty (tables : List Table) : Solid tables (fun _ => 0) {} where
  sound := .empty
  described T _ := T.imaging.described_none
  distinct _ _ _ _ _ _ _ _ hs := nomatch hs
  numbered _ _ _ _ _ _ hs := nomatch hs

def commitSample : Action := .commit true false (fun _ => false)

def runWorld (w : World) (as : List (ℕ × Action)) : World := as.foldl (world [sampleTable]).next w

lemma reachable_step {w : World} (h : (carefulWorld [sampleTable]).Reachable w) (i : ℕ) (a : Action)
    (hen : (w.sessions i).Enabled [sampleTable] w.server a) (hno : ∀ T throws, a ≠ .deleteAllRows T throws)
    (hcare : (w.sessions i).Careful w.server a) (hsees : ∀ sn ∈ (w.sessions i).txn.snap, sn = w.server.store) :
    (carefulWorld [sampleTable]).Reachable ((world [sampleTable]).next w (i, a)) := by
  refine h.step _ ⟨⟨hen, hno⟩, hcare, fun _ _ _ _ _ T _ ix _ _ k k' _ _ hs sn hsn => ?_⟩
  rw [hsees sn hsn]
  exact hs

theorem twoInserts_unique :
    let w := runWorld sampleWorld [(0, .begin true), (0, insertSample 1 1 1), (0, commitSample), (1, .begin true), (1, insertSample 2 2 2),
      (1, commitSample)]
    (∀ T ∈ [sampleTable], ∀ ix ∈ T.indexes, ix.isUnique = true → Distinct (T.Clash ix) w.server.store.get) ∧
      DeletedBetween w.history := by
  refine unique_indexes_hold (by decide) ?_
  have hstart : (carefulWorld [sampleTable]).Reachable sampleWorld := .start ⟨solid_empty _, fun _ => rfl, rfl⟩
  have hbegun := reachable_step hstart 0 (.begin true) (fun _ => rfl) nofun trivial nofun
  have hput := reachable_step hbegun 0 _ (enabled_insertSample rfl rfl 1 1 1) nofun trivial fun sn hsn => by cases hsn; rfl
  have hdone := reachable_step hput 0 commitSample trivial nofun trivial fun sn hsn => by cases hsn; rfl
  have hbegun' := reachable_step hdone 1 (.begin true) (fun _ => rfl) nofun trivial nofun
  have hput' := reachable_step hbegun' 1 _ (enabled_insertSample rfl rfl 2 2 2) nofun trivial fun sn hsn => by cases hsn; rfl
  exact reachable_step hput' 1 _ trivial nofun trivial fun sn hsn => by cases hsn; rfl

/-- Two transactions that run at once insert rows with the same unique column and different primary keys: both commit. -/
theorem racing_inserts_both_commit :
    let w := runWorld sampleWorld [(0, .begin true), (1, .begin true), (0, insertSample 1 1 1), (1, insertSample 2 1 2), (0, commitSample),
      (1, commitSample)]
    (world [sampleTable]).Reachable w ∧ w.history.length = 2 ∧
      ¬ Distinct (sampleTable.Clash ⟨1, true, [samplePart 1]⟩) w.server.store.get := by
  refine ⟨?_, by decide +kernel, fun hdistinct => ?_⟩
  · have hstart : (world [sampleTable]).Reachable sampleWorld := .start ⟨solid_empty _, fun _ => rfl, rfl⟩
    have hbegun := hstart.step (0, Action.begin true) ⟨fun _ => rfl, nofun⟩
    have hbegun' := hbegun.step (1, Action.begin true) ⟨fun _ => rfl, nofun⟩
    have hput := hbegun'.step (0, insertSample 1 1 1) ⟨enabled_insertSample rfl rfl 1 1 1, nofun⟩
    have hput' := hput.step (1, insertSample 2 1 2) ⟨enabled_insertSample rfl rfl 2 1 2, nofun⟩
    have hdone := hput'.step (0, commitSample) ⟨trivial, nofun⟩
    exact hdone.step _ ⟨trivial, nofun⟩
  · have hclash : sampleTable.Clash ⟨1, true, [samplePart 1]⟩ (sampleTable.encodeSecKey ⟨1, true, [samplePart 1]⟩ (sampleRow 1 1 1) 0)
        (sampleTable.encodeSecKey ⟨1, true, [samplePart 1]⟩ (sampleRow 2 1 2) 0) := clash_of_unique rfl rfl
    have hsame := hdistinct _ _ hclash (by decide +kernel) (by decide +kernel)
    exact absurd hsame (by decide)

end Sample

end Bytecask.MariaDb
