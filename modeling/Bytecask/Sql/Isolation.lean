import Bytecask.Sql.Transaction

/-! What a transaction reads: its snapshot with the effects of its statements, and through a pin those up to the pin. -/

namespace Bytecask.Sql.Txn

open SortedMap List Overlay ViewEntries

structure Sane (t : Txn) : Prop where
  overlay : t.overlay < t.nextAddress
  heap : ∀ a, a < t.nextAddress → (t.heap.get a).isSome = true
  readers : ∀ h r, t.readers.get h = some r → r.view < t.nextAddress ∧ h < t.nextHandle

def Action.effects : Action → List Effect
  | .add effects _ => effects
  | .begin _ | .detach | .pin _ | .hold _ | .release _ | .repin | .abort | .commit => []

def effectsOf (as : List Action) : List Effect := as.flatMap Action.effects

variable {t : Txn} {a : Action} {h : ℕ} {r : Reader}

lemma sane_start : Sane {} where
  overlay := Nat.zero_lt_one
  heap a ha := by
    obtain rfl : a = 0 := Nat.lt_one_iff.1 ha
    rfl
  readers _ _ hr := by cases hr

section Overlays

lemma Sane.makeShared (hs : t.Sane) (o : Overlay) : (t.makeShared o).Sane where
  overlay := Nat.lt_succ_self _
  heap a ha := by
    rw [Txn.makeShared, get_insert]
    split_ifs with hk
    · rfl
    · exact hs.heap a (lt_of_le_of_ne (Nat.lt_succ_iff.1 ha) hk)
  readers h r hr := ⟨(hs.readers h r hr).1.trans (Nat.lt_succ_self _), (hs.readers h r hr).2⟩

lemma makeShared_get (t : Txn) (o : Overlay) {x : ℕ} (hx : x < t.nextAddress) : (t.makeShared o).heap.get x = t.heap.get x :=
  get_insert_ne _ _ hx.ne

lemma makeShared_current (t : Txn) (o : Overlay) : (t.makeShared o).current = o := by
  rw [current, makeShared, get_insert_self]
  rfl

lemma ownOverlay_current (t : Txn) : t.ownOverlay.current = t.current := by
  rw [ownOverlay]
  split_ifs
  · exact makeShared_current _ _
  · rfl

lemma Sane.ownOverlay (hs : t.Sane) : t.ownOverlay.Sane := by
  rw [Txn.ownOverlay]
  split_ifs
  · exact hs.makeShared _
  · exact hs

lemma ownOverlay_readers (t : Txn) : t.ownOverlay.readers = t.readers := by
  rw [ownOverlay]
  split_ifs <;> rfl

lemma ownOverlay_get (t : Txn) {x : ℕ} (hx : x < t.nextAddress) : t.ownOverlay.heap.get x = t.heap.get x := by
  rw [ownOverlay]
  split_ifs
  · exact t.makeShared_get _ hx
  · rfl

lemma Sane.owned (hs : t.Sane) (hr : t.readers.get h = some r) : t.ownOverlay.overlay ≠ r.view := by
  rw [Txn.ownOverlay]
  split_ifs with hc
  · exact (hs.readers h r hr).1.ne'
  · intro heq
    have hmem : (h, r) ∈ t.readers.entries.filter (fun q => q.2.view = t.overlay) := by
      simpa [heq] using get_eq_some.1 hr
    have hpos := length_pos_of_mem hmem
    rw [useCount, if_pos rfl] at hc
    omega

end Overlays

section Effects

lemma addEffect_frame (t : Txn) (e : Effect) : (t.addEffect e).overlay = t.overlay ∧
    (t.addEffect e).nextAddress = t.nextAddress ∧ (t.addEffect e).readers = t.readers ∧
    (t.addEffect e).nextHandle = t.nextHandle ∧ (t.addEffect e).aborted = t.aborted := by
  rw [addEffect]
  split_ifs <;> exact ⟨rfl, rfl, rfl, rfl, rfl⟩

lemma addEffect_get (t : Txn) (e : Effect) {x : ℕ} (hx : x ≠ t.overlay) : (t.addEffect e).heap.get x = t.heap.get x := by
  rw [addEffect]
  split_ifs
  · rw [get_adjust, if_neg hx]
  · rfl

lemma addEffect_heap (t : Txn) (e : Effect) (x : ℕ) : ((t.addEffect e).heap.get x).isSome = (t.heap.get x).isSome := by
  rw [addEffect]
  split_ifs
  · rw [get_adjust]
    split_ifs with hx
    · rw [Option.isSome_map, hx]
    · rfl
  · rfl

lemma record_of_guard {e : Effect} (he : ¬ e.isWrite = true) (o : Overlay) : o.record e = o := by
  cases e with
  | put | del | delRange => exact absurd rfl he
  | guardUnchanged | guardRange | guardUniqueRange | guardPresent | guardAbsent => rfl

lemma addEffect_current (t : Txn) (e : Effect) (hheap : (t.heap.get t.overlay).isSome = true) :
    (t.addEffect e).current = t.current.record e := by
  rw [current, (t.addEffect_frame e).1, addEffect]
  split_ifs with he
  · obtain ⟨o, ho⟩ := Option.isSome_iff_exists.1 hheap
    rw [get_adjust, if_pos rfl, ho, current, ho]
    rfl
  · exact (record_of_guard he _).symm

lemma foldl_addEffect (es : List Effect) (t : Txn) (hheap : (t.heap.get t.overlay).isSome = true) :
    (es.foldl addEffect t).current = t.current.recordAll es ∧ (es.foldl addEffect t).overlay = t.overlay ∧
      (es.foldl addEffect t).nextAddress = t.nextAddress ∧ (es.foldl addEffect t).readers = t.readers ∧
      (es.foldl addEffect t).nextHandle = t.nextHandle ∧ (es.foldl addEffect t).aborted = t.aborted ∧
      (∀ x, x ≠ t.overlay → (es.foldl addEffect t).heap.get x = t.heap.get x) ∧
      ∀ x, ((es.foldl addEffect t).heap.get x).isSome = (t.heap.get x).isSome := by
  induction es generalizing t with
  | nil => exact ⟨rfl, rfl, rfl, rfl, rfl, rfl, fun _ _ => rfl, fun _ => rfl⟩
  | cons e es ih =>
    obtain ⟨f₁, f₂, f₃, f₄, f₅⟩ := t.addEffect_frame e
    obtain ⟨h₁, h₂, h₃, h₄, h₅, h₆, h₇, h₈⟩ := ih _ (by rw [f₁, addEffect_heap]; exact hheap)
    rw [foldl_cons]
    refine ⟨?_, h₂.trans f₁, h₃.trans f₂, h₄.trans f₃, h₅.trans f₄, h₆.trans f₅, fun x hx => ?_, fun x => ?_⟩
    · rw [h₁, t.addEffect_current e hheap]
      rfl
    · rw [h₇ x (f₁ ▸ hx), t.addEffect_get e hx]
    · rw [h₈, addEffect_heap]

end Effects

section Step

lemma foldl_guards {es : List Effect} (h : ¬ es.any Effect.isWrite = true) (t : Txn) : (es.foldl addEffect t).heap = t.heap := by
  induction es generalizing t with
  | nil => rfl
  | cons e es ih =>
    rw [any_cons, Bool.or_eq_true, not_or] at h
    rw [foldl_cons, ih h.2, addEffect, if_neg h.1]

structure Adds (t u : Txn) (es : List Effect) : Prop where
  sane : u.Sane
  current : u.current = t.current.recordAll es
  readers : u.readers = t.readers
  nextHandle : u.nextHandle = t.nextHandle
  aborted : u.aborted = t.aborted
  kept : ∀ h r, t.readers.get h = some r → u.heap.get r.view = t.heap.get r.view

section

variable (hs : t.Sane)

include hs

lemma Sane.foldl_addEffect (es : List Effect) : (es.foldl addEffect t).Sane := by
  obtain ⟨-, h₂, h₃, h₄, h₅, -, -, h₈⟩ := Txn.foldl_addEffect es t (hs.heap _ hs.overlay)
  refine ⟨by rw [h₂, h₃]; exact hs.overlay, fun x hx => ?_, fun h r hr => ?_⟩
  · rw [h₈]
    exact hs.heap x (h₃ ▸ hx)
  · rw [h₃, h₅]
    exact hs.readers h r (h₄ ▸ hr)

lemma Sane.add (es : List Effect) (tables : List ℕ) : Adds t (t.add es tables) es := by
  let w : Txn := { t with written := tables.foldl addTable t.written }
  have hw : w.Sane := ⟨hs.overlay, hs.heap, hs.readers⟩
  by_cases hany : es.any Effect.isWrite = true
  · have hadd : t.add es tables =
        { es.foldl addEffect w.ownOverlay with statements := (es.foldl addEffect w.ownOverlay).statements + 1 } := by
      rw [Txn.add]
      simp only [hany, if_true]
      rfl
    have hown := hw.ownOverlay
    obtain ⟨h₁, -, -, h₄, h₅, h₆, h₇, -⟩ := Txn.foldl_addEffect es _ (hown.heap _ hown.overlay)
    have hsane := hown.foldl_addEffect es
    have hframe : w.ownOverlay.nextHandle = t.nextHandle ∧ w.ownOverlay.aborted = t.aborted := by
      rw [Txn.ownOverlay]
      split_ifs <;> exact ⟨rfl, rfl⟩
    rw [hadd]
    refine ⟨⟨hsane.overlay, hsane.heap, hsane.readers⟩, ?_, h₄.trans w.ownOverlay_readers, h₅.trans hframe.1, h₆.trans hframe.2,
      fun h r hr => ?_⟩
    · exact h₁.trans (congrArg (fun o => o.recordAll es) w.ownOverlay_current)
    · exact (h₇ r.view (hw.owned hr).symm).trans (w.ownOverlay_get (hs.readers h r hr).1)
  · have hadd : t.add es tables = { es.foldl addEffect w with statements := (es.foldl addEffect w).statements + 1 } := by
      rw [Txn.add]
      simp only [hany, if_false, Bool.false_eq_true]
      rfl
    obtain ⟨h₁, -, -, h₄, h₅, h₆, -, -⟩ := Txn.foldl_addEffect es w (hw.heap _ hw.overlay)
    have hsane := hw.foldl_addEffect es
    rw [hadd]
    refine ⟨⟨hsane.overlay, hsane.heap, hsane.readers⟩, h₁, h₄, h₅, h₆, fun h r hr => ?_⟩
    exact congrArg (fun m : SortedMap ℕ _ => m.get r.view) (foldl_guards hany w)

lemma Sane.addReader (hr : r.view < t.nextAddress) : (t.addReader r).Sane where
  overlay := hs.overlay
  heap := hs.heap
  readers h q hq := by
    rw [Txn.addReader, get_insert] at hq
    split_ifs at hq with hk
    · cases hq
      exact ⟨hr, hk ▸ Nat.lt_succ_self _⟩
    · exact ⟨(hs.readers h q hq).1, (hs.readers h q hq).2.trans (Nat.lt_succ_self _)⟩

lemma Sane.step (a : Action) : (t.step a).Sane := by
  cases a with
  | begin | detach | repin | commit => exact ⟨hs.overlay, hs.heap, hs.readers⟩
  | add es tables => exact (hs.add es tables).sane
  | pin now =>
    have hp : (t.pinSnapshot now).Sane := ⟨hs.overlay, hs.heap, hs.readers⟩
    exact hp.addReader hs.overlay
  | hold handle =>
    rw [Txn.step]
    cases hr : t.readers.get handle with
    | none => exact hs
    | some r => exact hs.addReader (hs.readers handle r hr).1
  | release handle =>
    refine ⟨hs.overlay, hs.heap, fun h r hr => ?_⟩
    rw [Txn.step, get_erase] at hr
    split_ifs at hr
    exact hs.readers h r hr
  | abort =>
    have hm := hs.makeShared {}
    exact ⟨hm.overlay, hm.heap, hm.readers⟩

lemma Sane.step_view (a : Action) (hr : t.readers.get h = some r) : (t.step a).heap.get r.view = t.heap.get r.view := by
  cases a with
  | begin | detach | repin | commit | pin | release => rfl
  | add es tables => exact (hs.add es tables).kept h r hr
  | hold handle =>
    rw [Txn.step]
    cases t.readers.get handle <;> rfl
  | abort => exact t.makeShared_get {} (hs.readers h r hr).1

lemma Sane.step_reader (a : Action) (hh : h < t.nextHandle) :
    h < (t.step a).nextHandle ∧ ((t.step a).readers.get h = t.readers.get h ∨ (t.step a).readers.get h = none) := by
  have hadd : ∀ r, (t.readers.insert t.nextHandle r).get h = t.readers.get h := fun r => get_insert_ne _ _ hh.ne
  cases a with
  | begin | detach | repin | commit | abort => exact ⟨hh, .inl rfl⟩
  | add es tables =>
    have had := hs.add es tables
    exact ⟨had.nextHandle ▸ hh, .inl (congrArg (fun m : SortedMap ℕ Reader => m.get h) had.readers)⟩
  | pin now => exact ⟨hh.trans (Nat.lt_succ_self _), .inl (hadd _)⟩
  | hold handle =>
    rw [Txn.step]
    cases t.readers.get handle with
    | none => exact ⟨hh, .inl rfl⟩
    | some r => exact ⟨hh.trans (Nat.lt_succ_self _), .inl (hadd _)⟩
  | release handle =>
    refine ⟨hh, ?_⟩
    rw [Txn.step, get_erase]
    split_ifs
    · exact .inr rfl
    · exact .inl rfl

lemma Sane.step_current (a : Action) (hlive : (t.step a).aborted = false) :
    t.aborted = false ∧ (t.step a).current = t.current.recordAll a.effects := by
  cases a with
  | begin | detach | repin | commit | pin | release => exact ⟨hlive, rfl⟩
  | add es tables => exact ⟨(hs.add es tables).aborted ▸ hlive, (hs.add es tables).current⟩
  | hold handle =>
    rw [Txn.step] at hlive ⊢
    cases hr : t.readers.get handle with
    | none | some =>
      rw [hr] at hlive
      exact ⟨hlive, rfl⟩
  | abort => cases hlive

end

end Step

section Run

variable {u : Txn} {as : List Action}

lemma Sane.path (hs : t.Sane) (hp : machine.Path t as u) : u.Sane := by
  induction hp with
  | nil => exact hs
  | cons a _ _ ih => exact ih (hs.step a)

lemma Sane.path_current (hs : t.Sane) (hp : machine.Path t as u) (hlive : u.aborted = false) :
    t.aborted = false ∧ u.current = t.current.recordAll (effectsOf as) := by
  induction hp with
  | nil => exact ⟨hlive, rfl⟩
  | @cons s _ a as _ _ ih =>
    obtain ⟨hmid, hcur⟩ := ih (hs.step a) hlive
    obtain ⟨hold, hstep⟩ := hs.step_current a hmid
    have hsplit : s.current.recordAll (effectsOf (a :: as)) = (s.current.recordAll a.effects).recordAll (effectsOf as) := by
      exact foldl_append
    rw [hsplit, ← hstep]
    exact ⟨hold, hcur⟩

lemma Sane.path_gone (hs : t.Sane) (hp : machine.Path t as u) (hh : h < t.nextHandle) (hr : t.readers.get h = none) :
    u.readers.get h = none := by
  induction hp with
  | nil => exact hr
  | cons a _ _ ih =>
    obtain ⟨hh', hr'⟩ := hs.step_reader a hh
    exact ih (hs.step a) hh' (hr'.elim (fun h => h.trans hr) id)

lemma Sane.path_view (hs : t.Sane) (hp : machine.Path t as u) (hr : t.readers.get h = some r) {r' : Reader}
    (hr' : u.readers.get h = some r') : r' = r ∧ u.heap.get r.view = t.heap.get r.view := by
  induction hp with
  | nil =>
    rw [hr] at hr'
    exact ⟨(Option.some.inj hr').symm, rfl⟩
  | cons a _ hp ih =>
    obtain ⟨hh, hkeep⟩ := hs.step_reader a (hs.readers h r hr).2
    rcases hkeep with hkeep | hgone
    · obtain ⟨heq, hview⟩ := ih (hs.step a) (hkeep.trans hr) hr'
      exact ⟨heq, hview.trans (hs.step_view a hr)⟩
    · rw [(hs.step a).path_gone hp hh hgone] at hr'
      cases hr'

end Run

section View

lemma mem_ranges_recordAll {k : Bytes} (es : List Effect) (o : Overlay) (hk : k ∈ (o.recordAll es).ranges) :
    k ∈ o.ranges ∨ ∃ lo hi h, .delRange lo hi h ∈ es ∧ lo ≤ k ∧ k < hi := by
  induction es generalizing o with
  | nil => exact .inl hk
  | cons e es ih =>
    rcases ih (o.record e) hk with hk | ⟨lo, hi, h, hmem, hin⟩
    · cases e with
      | delRange lo hi h =>
        rcases (RangeSet.mem_add h).1 hk with hk | hin
        · exact .inl hk
        · exact .inr ⟨lo, hi, h, mem_cons_self, hin⟩
      | put | del | guardUnchanged | guardRange | guardUniqueRange | guardPresent | guardAbsent => exact .inl hk
    · exact .inr ⟨lo, hi, h, mem_cons_of_mem _ hmem, hin⟩

lemma pushed_effectsOf {u : Txn} {as : List Action} (hp : machine.Path t as u) : ∀ e ∈ effectsOf as, e.Pushed := by
  induction hp with
  | nil => exact fun _ he => absurd he not_mem_nil
  | cons a ha _ ih =>
    intro e he
    rw [effectsOf, flatMap_cons, mem_append] at he
    rcases he with he | he
    · cases a with
      | add effects tables => exact ha.2.2 e he
      | begin | detach | pin | hold | release | repin | abort | commit => exact absurd he not_mem_nil
    · exact ih e he

lemma bounded_new {m : SortedMap Bytes Bytes} {es : List Effect} {lo hi : Bytes} {reverse : Bool}
    (hes : ∀ e ∈ es, e.Pushed) (hhi : reverse = true → hi ≠ []) :
    (ViewEntries.new m (some (recordAll {} es)) lo hi reverse).Bounded where
  hi hr := hhi hr
  ranges hr k r hat := by
    obtain ⟨o, ho, hat⟩ := Option.bind_eq_some_iff.1 hat
    have hfilter : (some (recordAll {} es)).filter (fun o => !o.empty) = some o := ho
    obtain rfl := Option.some.inj (Option.filter_eq_some_iff.1 hfilter).1
    obtain ⟨hmem, -⟩ := RangeSet.rangeAt_eq_some.1 hat
    have hlt := RangeSet.nonempty _ r hmem
    rintro hnil
    rw [hnil] at hlt
    have hin : ([] : Bytes) ∈ (recordAll {} es).ranges := ⟨r, hmem, le_of_eq hnil, hlt⟩
    rcases mem_ranges_recordAll es {} hin with ⟨q, hq, -⟩ | ⟨lo', hi', hlt', he, hle, -⟩
    · cases hq
    · obtain ⟨table, lo₀, hi₀, hpush⟩ := hes _ he
      exact delRange_ne_nil hpush (le_antisymm hle (nil_le_bytes lo'))

lemma viewContains_eq (m : SortedMap Bytes Bytes) (o : Option Overlay) (k : Bytes) :
    viewContains m o k = (viewGet m o k).isSome := by
  rw [viewContains, viewGet]
  cases o.bind (fun o => o.find k) <;> rfl

theorem transaction_view {as : List Action} {t : Txn} (hp : machine.Path {} as t) (hlive : t.aborted = false)
    (m : SortedMap Bytes Bytes) :
    (∀ k, viewGet m (some t.current) k = (applied m (effectsOf as)).get k) ∧
    (∀ k, viewContains m (some t.current) k = ((applied m (effectsOf as)).get k).isSome) ∧
    (∀ b lo hi limit, lo < hi → Gives b (viewCount m t.current b lo hi limit)
      (fun c => c = min ((applied m (effectsOf as)).range lo hi).length limit)) ∧
    (∀ b lo hi limit, Gives b (countRange m (some t.current) b lo hi limit)
      (fun c => c = min ((applied m (effectsOf as)).range lo hi).length limit)) ∧
    (∀ b lo hi reverse rounds n,
      (reverse = true → ∃ c : Cursor, c.bounds = (lo, hi)) →
      m.entries.length < rounds → t.current.points.entries.length < rounds →
      Gives b ((ViewEntries.new m (some t.current) lo hi reverse).calls b rounds n {})
        (fun es => es = (directed reverse ((applied m (effectsOf as)).range lo hi)).take n)) ∧
    (t.current.ranges.bounds.entries.Pairwise (fun r r' => r.2 < r'.1) ∧ ∀ r ∈ t.current.ranges.bounds.entries, r.1 < r.2) ∧
    (∀ bs u h r r', machine.Path t bs u → t.readers.get h = some r → u.readers.get h = some r' →
      r' = r ∧ u.heap.get r.view = t.heap.get r.view) ∧
    ∀ s s', t.commit s = .committed s' → ∀ op ∈ t.current.writes, ∀ k, op.Touches k →
      s'.get k = (applied m (effectsOf as)).get k := by
  have hcur : t.current = recordAll {} (effectsOf as) := (sane_start.path_current hp hlive).2
  have hover : ∀ k, t.current.atop m k = (applied m (effectsOf as)).get k := by
    rw [hcur]
    exact atop_effects m _
  have hget : ∀ k, viewGet m (some t.current) k = (applied m (effectsOf as)).get k := by
    intro k
    rw [viewGet_eq]
    exact hover k
  refine ⟨hget, fun k => ?_, fun b lo hi limit hlt => gives_viewCount hover b hlt limit,
    fun b lo hi limit => gives_countRange hget b lo hi limit, fun b lo hi reverse rounds n hcursor hr hpoints => ?_,
    ⟨t.current.ranges.bounds.sorted.imp_of_mem fun hr hr' hlt => t.current.ranges.apart _ hr _ hr' hlt, t.current.ranges.nonempty⟩,
    fun bs u h r r' hpath hr hr' => (sane_start.path hp).path_view hpath hr hr', fun s s' hc op hop k hk => ?_⟩
  · rw [viewContains_eq, hget]
  · have hbounded : (ViewEntries.new m (some t.current) lo hi reverse).Bounded := by
      rw [hcur]
      refine bounded_new (pushed_effectsOf hp) fun hreverse => ?_
      obtain ⟨c, hc⟩ := hcursor hreverse
      have hne := c.bounds_ne_nil
      rwa [hc] at hne
    have hlen : (ViewEntries.new m (some t.current) lo hi reverse).points.length < rounds := by
      rw [ViewEntries.points, ViewEntries.new, Option.filter_some]
      split_ifs
      · exact hpoints
      · exact (Nat.zero_le _).trans_lt hpoints
    have heq := delivered_eq (v := ViewEntries.new m _ lo hi _) fun k => by
      rw [ViewEntries.new, ← hget]
      exact viewGet_new m _ lo hi reverse k
    refine (gives_calls hbounded b hr hlen n).mono fun es hes => ?_
    rw [hes, heq]
    rfl
  · rw [get_of_committed hc hop hk m]
    exact hover k

/-- A snapshot with two rows of a table, a statement that deletes a range over the first and puts a key back into it,
and a cursor pinned after it. -/
def rowKey (b : Byte) : Bytes := keyPutPrefix nsRow 1 ++ [b]

def twoRows : SortedMap Bytes Bytes := (SortedMap.empty.insert (rowKey 3) [30]).insert (rowKey 7) [70]

def someEffects : List Effect := [.put (rowKey 4) [40], .delRange (rowKey 2) (rowKey 5) (by decide), .put (rowKey 3) [31]]

def pinned : Txn := ((({} : Txn).step (.begin {})).step (.add someEffects [1])).step .detach |>.step (.pin {})

def pinnedRun : List Action := [.begin {}, .add someEffects [1], .detach, .pin {}]

def added : Txn := (pinned.step (.begin {})).step (.add [.del (rowKey 3)] [1])

def wholeTable : Cursor := scanOpen (.table 1) [] [] false true

theorem pinned_view :
    Gives {} ((ViewEntries.new twoRows (some pinned.current) wholeTable.bounds.1 wholeTable.bounds.2 true).calls {} 5 5 {})
      (fun es => es = [(rowKey 7, [70]), (rowKey 3, [31])]) ∧
    Gives {} (viewCount twoRows pinned.current {} (rowKey 1) (rowKey 9) 7) (fun c => c = 2) ∧
    added.heap.get 0 = pinned.heap.get 0 ∧
    ∀ s s', pinned.commit s = .committed s' → s'.get (rowKey 3) = some [31] := by
  have hpushed : ∀ e ∈ someEffects, e.Pushed := by
    simp only [someEffects, forall_mem_cons]
    exact ⟨trivial, ⟨1, rowKey 2, rowKey 5, by decide⟩, trivial, fun _ he => absurd he not_mem_nil⟩
  have hpath : machine.Path {} pinnedRun pinned :=
    .cons _ ⟨⟨rfl, rfl⟩, rfl⟩ (.cons _ ⟨⟨rfl, rfl⟩, rfl, hpushed⟩ (.cons _ rfl (.cons _ ⟨⟨rfl, rfl⟩, rfl⟩ (.nil _))))
  have hdel : ∀ e ∈ [Effect.del (rowKey 3)], e.Pushed := forall_mem_singleton.2 trivial
  have hlater : machine.Path pinned [.begin {}, .add [.del (rowKey 3)] [1]] added :=
    .cons _ ⟨⟨rfl, rfl⟩, rfl⟩ (.cons _ ⟨⟨rfl, rfl⟩, rfl, hdel⟩ (.nil _))
  obtain ⟨-, -, hcount, -, hscan, -, hpins, hcommit⟩ := transaction_view hpath rfl twoRows
  refine ⟨?_, ?_, ?_, fun s s' hc => ?_⟩
  · exact hscan {} _ _ true 5 5 (fun _ => ⟨wholeTable, rfl⟩) (by decide) (by decide)
  · exact hcount {} _ _ 7 (by decide)
  · exact (hpins _ added 0 ⟨0, none⟩ ⟨0, none⟩ hlater (by decide) (by decide)).2
  · exact hcommit s s' hc (.pointPut _ [31]) (by decide) _ rfl

end View

end Bytecask.Sql.Txn
