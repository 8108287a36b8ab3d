import Bytecask.Tree.Place
import Bytecask.Tree.Search

/-! Cursors over one version of a tree: steps, seeks and the count of the entries between two of them. -/

namespace Bytecask.Tree

open List

open Blind (BlindRef)

/-- What the trees ask of their leaves. The blind tree and the keyed one share everything above them. -/
structure LeafKind (Λ : Type) where
  keys : Λ → List Bytes
  position : Λ → Bytes → ℕ
  Sound : Λ → Prop
  ascending : ∀ {n}, Sound n → (keys n).Pairwise (· < ·)
  position_eq : ∀ {n}, Sound n → ∀ q, position n q = (keys n).countP (· < q)

/-- The nodes of one height; a leaf with its address. -/
def Page (Λ : Type) : ℕ → Type
  | 0 => ℕ × Λ
  | h + 1 => Node (Page Λ h)

structure Frame (Λ : Type) where
  height : ℕ
  node : Node (Page Λ height)
  idx : ℕ

/-- A stack that is not empty: the leaf on top, and the frames below it. -/
structure Cursor (Λ : Type) where
  leaf : ℕ × Λ
  idx : ℕ
  above : List (Frame Λ)

namespace LeafKind

variable {Λ : Type} (K : LeafKind Λ)

abbrev count (l : ℕ × Λ) : ℕ := (K.keys l.2).length

-- A child is never null; where it were, there is no stack.
def descendLeftmost : (h : ℕ) → Page Λ h → List (Frame Λ) → Option (Cursor Λ)
  | 0, l, above => some ⟨l, 0, above⟩
  | h + 1, n, above => (Node.child n 0).bind fun c => descendLeftmost h c (⟨h, n, 0⟩ :: above)

def descendRightmost : (h : ℕ) → Page Λ h → List (Frame Λ) → Option (Cursor Λ)
  | 0, l, above => some ⟨l, K.count l - 1, above⟩
  | h + 1, n, above => (Node.child n (Node.count n)).bind fun c => descendRightmost h c (⟨h, n, Node.count n⟩ :: above)

def nextLeaf : List (Frame Λ) → Option (Cursor Λ)
  | [] => none
  | f :: fs =>
    if f.idx < f.node.count then
      (f.node.child (f.idx + 1)).bind fun c => descendLeftmost f.height c ({ f with idx := f.idx + 1 } :: fs)
    else nextLeaf fs

def previousLeaf : List (Frame Λ) → Option (Cursor Λ)
  | [] => none
  | f :: fs =>
    if 0 < f.idx then
      (f.node.child (f.idx - 1)).bind fun c => K.descendRightmost f.height c ({ f with idx := f.idx - 1 } :: fs)
    else previousLeaf fs

def advance (c : Cursor Λ) : Option (Cursor Λ) :=
  if c.idx + 1 < K.count c.leaf then some { c with idx := c.idx + 1 } else nextLeaf c.above

def next (o : Option (Cursor Λ)) : Option (Cursor Λ) := o.bind K.advance

def retreat {h : ℕ} (root : Option (Page Λ h)) : Option (Cursor Λ) → Option (Cursor Λ)
  | none => root.bind fun r => K.descendRightmost h r []
  | some c => if 0 < c.idx then some { c with idx := c.idx - 1 } else K.previousLeaf c.above

def seek (q : Bytes) : (h : ℕ) → Page Λ h → List (Frame Λ) → Option (Cursor Λ)
  | 0, l, above =>
    if K.count l = 0 then none
    -- Past this leaf: from its last entry on.
    else if K.position l.2 q = K.count l then K.advance ⟨l, K.count l - 1, above⟩
    else some ⟨l, K.position l.2 q, above⟩
  | h + 1, n, above =>
    (Node.child n (Node.childIndex n q)).bind fun c => seek q h c (⟨h, n, Node.childIndex n q⟩ :: above)

/-- The loop of `count_entries` with `n` entries counted; `none` when the fuel runs out. -/
def countLoop (stop : Option (Cursor Λ)) (limit : ℕ) : ℕ → ℕ → Cursor Λ → Option ℕ
  | 0, _, _ => none
  | fuel + 1, n, c =>
    if stop.map (fun t => t.leaf.1) = some c.leaf.1 then some (min (n + (stop.elim 0 Cursor.idx - c.idx)) limit)
    else
      let n := n + (K.count c.leaf - c.idx)
      if limit ≤ n then some limit
      else
        match nextLeaf c.above with
        | none => some n
        | some c => countLoop stop limit fuel n c

def countEntries (start stop : Option (Cursor Λ)) (limit fuel : ℕ) : Option ℕ :=
  start.elim (some 0) (K.countLoop stop limit fuel 0)

end LeafKind

/-- `operator==`: the leaf's address and the place in it. -/
def Same {Λ : Type} : Option (Cursor Λ) → Option (Cursor Λ) → Prop
  | none, none => True
  | some c, some t => c.leaf.1 = t.leaf.1 ∧ c.idx = t.idx
  | _, _ => False

def leaves {Λ : Type} : (h : ℕ) → Page Λ h → List (ℕ × Λ)
  | 0, l => [l]
  | h + 1, n => (List.range (Node.count n + 1)).flatMap fun i => (Node.child n i).elim [] (leaves h)

namespace LeafKind

variable {Λ : Type} (K : LeafKind Λ)

def keysOf (ls : List (ℕ × Λ)) : List Bytes := ls.flatMap fun l => K.keys l.2

/-- What `validate_node` asks of a node: no leaf is empty, and every key lies between the separators about its child. -/
def Valid : (h : ℕ) → Page Λ h → Prop
  | 0, l => K.Sound l.2 ∧ K.keys l.2 ≠ []
  | h + 1, n => Laid n ∧ (Node.keys n).Pairwise (· < ·) ∧ ∀ i ≤ Node.count n, ∃ c, Node.child n i = some c ∧ Valid h c ∧
      ∀ k ∈ K.keysOf (leaves h c), k ∈ Node.interval n i

end LeafKind

inductive Under {Λ : Type} {H : ℕ} (r : Page Λ H) : List (Frame Λ) → (h : ℕ) → Page Λ h → Prop
  | root : Under r [] H r
  | child {f : Frame Λ} {fs : List (Frame Λ)} {c : Page Λ f.height} (hle : f.idx ≤ f.node.count)
    (hc : f.node.child f.idx = some c) (hu : Under r fs (f.height + 1) f.node) : Under r (f :: fs) f.height c

def Cursor.Sits {Λ : Type} (K : LeafKind Λ) {H : ℕ} (r : Page Λ H) (c : Cursor Λ) : Prop :=
  c.idx < K.count c.leaf ∧ Under r c.above 0 c.leaf

/-- A version of a tree: every leaf at one depth and at an address of its own. -/
structure Version {Λ : Type} (K : LeafKind Λ) where
  height : ℕ
  root : Option (Page Λ height)
  valid : ∀ r ∈ root, K.Valid height r
  apart : ∀ r ∈ root, ((leaves height r).map Prod.fst).Nodup

namespace Version

variable {Λ : Type} {K : LeafKind Λ} (v : Version K)

def leaves : List (ℕ × Λ) := v.root.elim [] (Tree.leaves v.height)

def At (o : Option (Cursor Λ)) : Prop := ∀ c ∈ o, ∃ r ∈ v.root, c.Sits K r

def lowerBound (q : Bytes) : Option (Cursor Λ) := v.root.bind fun r => K.seek q v.height r []

end Version

section Pages

variable {Λ : Type} {K : LeafKind Λ} {H h : ℕ} {r : Page Λ H} {p : Page Λ h} {fs : List (Frame Λ)}

def Frame.leavesAt (f : Frame Λ) (i : ℕ) : List (ℕ × Λ) := (f.node.child i).elim [] (leaves f.height)

def left : List (Frame Λ) → List (ℕ × Λ)
  | [] => []
  | f :: fs => left fs ++ (List.range f.idx).flatMap f.leavesAt

def right : List (Frame Λ) → List (ℕ × Λ)
  | [] => []
  | f :: fs => (List.range' (f.idx + 1) (f.node.count - f.idx)).flatMap f.leavesAt ++ right fs

lemma Frame.leaves_split (f : Frame Λ) {c : Page Λ f.height} (hle : f.idx ≤ f.node.count) (hc : f.node.child f.idx = some c) :
    leaves (f.height + 1) f.node = (List.range f.idx).flatMap f.leavesAt ++
      (leaves f.height c ++ (List.range' (f.idx + 1) (f.node.count - f.idx)).flatMap f.leavesAt) := by
  have hrange : List.range (f.node.count + 1) = List.range f.idx ++ f.idx :: List.range' (f.idx + 1) (f.node.count - f.idx) := by
    have hsum : f.node.count + 1 = f.idx + (f.node.count - f.idx + 1) := by omega
    rw [hsum, range_add, ← range'_succ, range'_eq_map_range]
  have hat : f.leavesAt f.idx = leaves f.height c := by rw [leavesAt, hc, Option.elim_some]
  have hdef : leaves (f.height + 1) f.node = (List.range (f.node.count + 1)).flatMap f.leavesAt := rfl
  rw [hdef, hrange, flatMap_append, flatMap_cons, hat]

lemma Under.leaves_eq (hu : Under r fs h p) : leaves H r = left fs ++ (leaves h p ++ right fs) := by
  induction hu with
  | root => simp [left, right]
  | @child f fs c hle hc hu ih => rw [ih, f.leaves_split hle hc, left, right]; simp only [append_assoc]

lemma Under.valid (hu : Under r fs h p) (hv : K.Valid H r) : K.Valid h p := by
  induction hu with
  | root => exact hv
  | @child f fs c hle hc hu ih =>
    obtain ⟨c', hc', hvc, -⟩ := ih.2.2 f.idx hle
    cases hc.symm.trans hc'
    exact hvc

lemma descendLeftmost_spec (hv : K.Valid h p) (hu : Under r fs h p) : ∃ c, LeafKind.descendLeftmost h p fs = some c ∧
    Under r c.above 0 c.leaf ∧ c.idx = 0 ∧ c.leaf :: right c.above = leaves h p ++ right fs := by
  induction h generalizing fs with
  | zero => exact ⟨⟨p, 0, fs⟩, rfl, hu, rfl, rfl⟩
  | succ h ih =>
    obtain ⟨c, hc, hvc, -⟩ := hv.2.2 0 (Nat.zero_le _)
    obtain ⟨d, hd, hud, hidx, hl⟩ := ih hvc (Under.child (f := ⟨h, p, 0⟩) (Nat.zero_le _) hc hu)
    refine ⟨d, ?_, hud, hidx, hl.trans ?_⟩
    · rw [LeafKind.descendLeftmost, hc]
      exact hd
    · rw [Frame.leaves_split ⟨h, p, 0⟩ (Nat.zero_le _) hc]
      simp [right]

lemma descendRightmost_spec (hv : K.Valid h p) (hu : Under r fs h p) : ∃ c, K.descendRightmost h p fs = some c ∧
    Under r c.above 0 c.leaf ∧ c.idx + 1 = K.count c.leaf ∧ left c.above ++ [c.leaf] = left fs ++ leaves h p := by
  induction h generalizing fs with
  | zero =>
    have hpos : 0 < K.count p := length_pos_iff.2 hv.2
    exact ⟨⟨p, K.count p - 1, fs⟩, rfl, hu, Nat.sub_add_cancel hpos, rfl⟩
  | succ h ih =>
    obtain ⟨c, hc, hvc, -⟩ := hv.2.2 _ le_rfl
    obtain ⟨d, hd, hud, hidx, hl⟩ := ih hvc (Under.child (f := ⟨h, p, Node.count p⟩) le_rfl hc hu)
    refine ⟨d, ?_, hud, hidx, hl.trans ?_⟩
    · rw [LeafKind.descendRightmost, hc]
      exact hd
    · rw [Frame.leaves_split ⟨h, p, Node.count p⟩ le_rfl hc, left, Nat.sub_self, range'_zero, append_assoc]
      simp

lemma nextLeaf_spec (hv : K.Valid H r) (hu : Under r fs h p) : (LeafKind.nextLeaf fs = none ∧ right fs = []) ∨
    ∃ c, LeafKind.nextLeaf fs = some c ∧ Under r c.above 0 c.leaf ∧ c.idx = 0 ∧ c.leaf :: right c.above = right fs := by
  induction hu with
  | root => exact .inl ⟨rfl, rfl⟩
  | @child f fs c hle hc hu ih =>
    by_cases hlt : f.idx < f.node.count
    · obtain ⟨c', hc', hvc, -⟩ := (hu.valid hv).2.2 _ hlt
      obtain ⟨d, hd, hud, hidx, hl⟩ := descendLeftmost_spec hvc (Under.child (f := { f with idx := f.idx + 1 }) hlt hc' hu)
      refine .inr ⟨d, ?_, hud, hidx, hl.trans ?_⟩
      · rw [LeafKind.nextLeaf, if_pos hlt, hc']
        exact hd
      · obtain ⟨m, hm⟩ : ∃ m, f.node.count - f.idx = m + 1 := ⟨f.node.count - (f.idx + 1), by omega⟩
        have hat : f.leavesAt (f.idx + 1) = leaves _ c' := by rw [Frame.leavesAt, hc', Option.elim_some]
        have hm' : f.node.count - (f.idx + 1) = m := by omega
        rw [right, right, hm, range'_succ, flatMap_cons, hat, append_assoc]
        simp only [hm']
        rfl
    · have hzero : f.node.count - f.idx = 0 := by omega
      rw [LeafKind.nextLeaf, if_neg hlt, right, hzero]
      exact ih

lemma previousLeaf_spec (hv : K.Valid H r) (hu : Under r fs h p) : (K.previousLeaf fs = none ∧ left fs = []) ∨
    ∃ c, K.previousLeaf fs = some c ∧ Under r c.above 0 c.leaf ∧ c.idx + 1 = K.count c.leaf ∧ left c.above ++ [c.leaf] = left fs := by
  induction hu with
  | root => exact .inl ⟨rfl, rfl⟩
  | @child f fs c hle hc hu ih =>
    by_cases hpos : 0 < f.idx
    · obtain ⟨c', hc', hvc, -⟩ := (hu.valid hv).2.2 (f.idx - 1) (by omega)
      obtain ⟨d, hd, hud, hidx, hl⟩ := descendRightmost_spec hvc
        (Under.child (f := { f with idx := f.idx - 1 }) (by show f.idx - 1 ≤ f.node.count; omega) hc' hu)
      refine .inr ⟨d, ?_, hud, hidx, hl.trans ?_⟩
      · rw [LeafKind.previousLeaf, if_pos hpos, hc']
        exact hd
      · obtain ⟨m, hm⟩ : ∃ m, f.idx = m + 1 := ⟨f.idx - 1, by omega⟩
        have hat : f.leavesAt (f.idx - 1) = leaves _ c' := by rw [Frame.leavesAt, hc', Option.elim_some]
        have hrange : List.range f.idx = List.range (f.idx - 1) ++ [f.idx - 1] := by
          rw [hm, range_succ, Nat.add_sub_cancel]
        rw [left, left, hrange, flatMap_append, flatMap_singleton, hat, append_assoc]
        rfl
    · have hzero : f.idx = 0 := by omega
      rw [LeafKind.previousLeaf, if_neg hpos, left, hzero, range_zero, flatMap_nil, append_nil]
      exact ih

end Pages

section Counting

variable {Λ : Type} {K : LeafKind Λ} {H : ℕ} {r : Page Λ H} {c d t : Cursor Λ}

lemma keysOf_append (ls ms : List (ℕ × Λ)) : K.keysOf (ls ++ ms) = K.keysOf ls ++ K.keysOf ms := flatMap_append

lemma keysOf_length_past (ms : List (ℕ × Λ)) (l : ℕ × Λ) (ls : List (ℕ × Λ)) :
    (K.keysOf (ms ++ l :: ls)).length = (K.keysOf ms).length + (K.count l + (K.keysOf ls).length) := by
  rw [keysOf_append, length_append, LeafKind.keysOf, LeafKind.keysOf, flatMap_cons, length_append]
  rfl

def Cursor.behind (K : LeafKind Λ) (c : Cursor Λ) : List Bytes := K.keysOf (left c.above) ++ (K.keys c.leaf.2).take c.idx

def Cursor.ahead (K : LeafKind Λ) (c : Cursor Λ) : List Bytes := (K.keys c.leaf.2).drop c.idx ++ K.keysOf (right c.above)

lemma Under.keys_eq (hu : Under r c.above 0 c.leaf) : K.keysOf (leaves H r) = c.behind K ++ c.ahead K := by
  rw [hu.leaves_eq, keysOf_append, keysOf_append, Cursor.behind, Cursor.ahead, append_assoc,
    ← append_assoc (List.take _ _), take_append_drop]
  exact congrArg (fun ks => K.keysOf _ ++ (ks ++ K.keysOf _)) (append_nil _)

lemma Cursor.ahead_length : (c.ahead K).length = K.count c.leaf - c.idx + (K.keysOf (right c.above)).length := by
  rw [Cursor.ahead, length_append, length_drop]

lemma nextLeaf_eq (hv : K.Valid H r) (hu : Under r c.above 0 c.leaf) (hidx : c.idx = K.count c.leaf) :
    (LeafKind.nextLeaf c.above = none ∧ c.ahead K = []) ∨ ∃ d, LeafKind.nextLeaf c.above = some d ∧ d.Sits K r ∧
      (right d.above).length < (right c.above).length ∧ d.behind K = c.behind K ∧ d.ahead K = c.ahead K := by
  have hahead : c.ahead K = K.keysOf (right c.above) := by
    rw [Cursor.ahead, hidx, drop_length, nil_append]
  rcases nextLeaf_spec hv hu with ⟨hnone, hnil⟩ | ⟨d, hd, hud, hzero, hl⟩
  · exact .inl ⟨hnone, by rw [hahead, hnil]; rfl⟩
  · have hpos : 0 < K.count d.leaf := length_pos_iff.2 (hud.valid hv).2
    have hahead' : d.ahead K = c.ahead K := by rw [hahead, Cursor.ahead, hzero, ← hl]; rfl
    have hkeys := (hud.keys_eq (K := K)).symm.trans hu.keys_eq
    rw [hahead'] at hkeys
    refine .inr ⟨d, hd, ⟨hzero ▸ hpos, hud⟩, ?_, append_cancel_right hkeys, hahead'⟩
    rw [← hl]
    exact Nat.lt_succ_self _

lemma advance_spec (hv : K.Valid H r) (h : c.Sits K r) : (K.advance c = none ∧ (c.ahead K).length = 1) ∨
    ∃ d, K.advance c = some d ∧ d.Sits K r ∧ (c.ahead K).length = (d.ahead K).length + 1 := by
  obtain ⟨hlt, hu⟩ := h
  have hstep : (c.ahead K).length = (Cursor.ahead K { c with idx := c.idx + 1 }).length + 1 := by
    simp only [Cursor.ahead_length]
    omega
  rw [hstep]
  by_cases hin : c.idx + 1 < K.count c.leaf
  · exact .inr ⟨{ c with idx := c.idx + 1 }, by rw [LeafKind.advance, if_pos hin], ⟨hin, hu⟩, rfl⟩
  · rw [LeafKind.advance, if_neg hin]
    rcases nextLeaf_eq (c := { c with idx := c.idx + 1 }) hv hu (by show c.idx + 1 = K.count c.leaf; omega) with
      ⟨hnone, hnil⟩ | ⟨d, hd, hds, -, -, hahead⟩
    · exact .inl ⟨hnone, by rw [hnil]; rfl⟩
    · exact .inr ⟨d, hd, hds, by rw [hahead]⟩

def restOf (K : LeafKind Λ) (o : Option (Cursor Λ)) : ℕ := o.elim 0 fun c => (c.ahead K).length

lemma Cursor.Sits.ahead_pos (h : c.Sits K r) : 0 < (c.ahead K).length := by
  have := h.1
  rw [Cursor.ahead_length]
  omega

/-- Two cursors of one tree are in one leaf, or the leaf of one is among those to the right of the other. -/
lemma Cursor.Sits.places (hn : ((leaves H r).map Prod.fst).Nodup) (hc : c.Sits K r) (ht : t.Sits K r) :
    (c.leaf = t.leaf ∧ right c.above = right t.above) ∨
      (c.leaf.1 ≠ t.leaf.1 ∧ ((∃ m, right c.above = m ++ t.leaf :: right t.above) ∨
        ∃ m, right t.above = m ++ c.leaf :: right c.above)) := by
  have hcl := hc.2.leaves_eq
  have htl := ht.2.leaves_eq
  have hcn := hcl ▸ hn
  have htn := htl ▸ hn
  rw [hcl] at htl
  simp only [leaves, singleton_append, map_append, map_cons] at hcn htn htl
  have hapart : ∀ {ls ms : List (ℕ × Λ)} {a b : ℕ × Λ}, (ls.map Prod.fst ++ a.1 :: ms.map Prod.fst).Nodup → b ∈ ms → a.1 ≠ b.1 := by
    intro ls ms a b hnd hb heq
    exact (nodup_cons.1 (nodup_append.1 hnd).2.1).1 (heq ▸ mem_map_of_mem hb)
  rcases append_eq_append_iff.1 htl with ⟨m, -, hm⟩ | ⟨m, -, hm⟩ <;> cases m with
  | nil =>
    rw [nil_append, List.cons.injEq] at hm
    first
    | exact .inl hm
    | exact .inl ⟨hm.1.symm, hm.2.symm⟩
  | cons x m =>
    rw [cons_append, List.cons.injEq] at hm
    first
    | exact .inr ⟨hapart hcn (hm.2 ▸ mem_append_right m mem_cons_self), .inl ⟨m, hm.2⟩⟩
    | exact .inr ⟨(hapart htn (hm.2 ▸ mem_append_right m mem_cons_self)).symm, .inr ⟨m, hm.2⟩⟩

lemma countLoop_spec (hv : K.Valid H r) (hn : ((leaves H r).map Prod.fst).Nodup) {stop : Option (Cursor Λ)}
    (hstop : ∀ t ∈ stop, t.Sits K r) (limit : ℕ) {fuel : ℕ} (n : ℕ) (hc : c.Sits K r) (hle : restOf K stop ≤ (c.ahead K).length)
    (hfuel : (right c.above).length < fuel) :
    K.countLoop stop limit fuel n c = some (min limit (n + ((c.ahead K).length - restOf K stop))) := by
  induction fuel generalizing c n with
  | zero => omega
  | succ fuel ih =>
    have hidx := hc.1
    have hahead := c.ahead_length (K := K)
    rw [LeafKind.countLoop]
    by_cases hend : stop.map (fun t => t.leaf.1) = some c.leaf.1
    · obtain ⟨t, rfl, hleaf⟩ := Option.map_eq_some_iff.1 hend
      rcases hc.places hn (hstop t rfl) with ⟨hsame, hright⟩ | ⟨hne, -⟩
      · have hrest : (c.ahead K).length - (t.ahead K).length = t.idx - c.idx := by
          have := (hstop t rfl).1
          rw [hahead, Cursor.ahead_length, hright, hsame]
          omega
        rw [if_pos hend, min_comm]
        exact congrArg (fun m => some (min limit _)) hrest.symm
      · exact absurd hleaf.symm hne
    · -- Where the count ends lies past this leaf.
      have hpast : restOf K stop ≤ (K.keysOf (right c.above)).length := by
        cases stop with
        | none => exact Nat.zero_le _
        | some t =>
          have hidx' := (hstop t rfl).1
          have hle' : (t.ahead K).length ≤ (c.ahead K).length := hle
          show (t.ahead K).length ≤ _
          rw [Cursor.ahead_length] at hle' ⊢
          rcases hc.places hn (hstop t rfl) with ⟨hsame, -⟩ | ⟨-, ⟨m, hm⟩ | ⟨m, hm⟩⟩
          · exact absurd (by rw [hsame]; rfl) hend
          · rw [hm, keysOf_length_past]
            omega
          · rw [hm, keysOf_length_past] at hle'
            omega
      rw [if_neg hend]
      by_cases hlim : limit ≤ n + (K.count c.leaf - c.idx)
      · simp only [if_pos hlim]
        rw [min_eq_left (by omega)]
      · simp only [if_neg hlim]
        have hrest : (Cursor.ahead K { c with idx := K.count c.leaf }).length = (K.keysOf (right c.above)).length := by
          rw [Cursor.ahead, drop_length, nil_append]
        rcases nextLeaf_eq (c := { c with idx := K.count c.leaf }) hv hc.2 rfl with ⟨hnone, hnil⟩ | ⟨d, hd, hds, hlen, -, hda⟩
        · rw [hnil] at hrest
          have hzero : 0 = (K.keysOf _).length := hrest
          rw [hnone, min_eq_right (by omega)]
          simp only [Option.some.injEq]
          omega
        · rw [← hda] at hrest
          rw [hd]
          refine (ih _ hds (hrest ▸ hpast) (lt_of_lt_of_le hlen (Nat.lt_succ_iff.1 hfuel))).trans ?_
          congr 2
          omega

end Counting

section Steps

variable {Λ : Type} {K : LeafKind Λ} {v : Version K} {start stop : Option (Cursor Λ)}

lemma next_spec (h : v.At start) : v.At (K.next start) ∧ restOf K (K.next start) = restOf K start - 1 := by
  cases start with
  | none => exact ⟨nofun, rfl⟩
  | some c =>
    obtain ⟨r, hr, hs⟩ := h c rfl
    have hdef : K.next (some c) = K.advance c := rfl
    rcases advance_spec (v.valid r hr) hs with ⟨hnone, hrest⟩ | ⟨d, hd, hds, hrest⟩
    · rw [hdef, hnone]
      exact ⟨nofun, by show 0 = (c.ahead K).length - 1; rw [hrest]⟩
    · rw [hdef, hd]
      refine ⟨fun e he => ?_, by show (d.ahead K).length = (c.ahead K).length - 1; rw [hrest]; rfl⟩
      cases he
      exact ⟨r, hr, hds⟩

lemma next_iterate_spec (h : v.At start) (k : ℕ) : v.At (K.next^[k] start) ∧ restOf K (K.next^[k] start) = restOf K start - k := by
  induction k with
  | zero => exact ⟨h, rfl⟩
  | succ k ih =>
    rw [Function.iterate_succ_apply']
    obtain ⟨hat, hrest⟩ := next_spec ih.1
    exact ⟨hat, by rw [hrest, ih.2]; omega⟩

lemma Cursor.Sits.rest_lt {c t : Cursor Λ} {H : ℕ} {r : Page Λ H} {m : List (ℕ × Λ)} (hc : c.Sits K r)
    (h : right c.above = m ++ t.leaf :: right t.above) : (t.ahead K).length < (c.ahead K).length := by
  have hidx := hc.1
  rw [Cursor.ahead_length, Cursor.ahead_length, h, keysOf_length_past]
  omega

-- Of one tree's places each has another number of entries ahead of it.
lemma same_iff (hs : v.At start) (ht : v.At stop) : Same start stop ↔ restOf K start = restOf K stop := by
  cases start with
  | none => cases stop with
    | none => exact iff_of_true trivial rfl
    | some t =>
      obtain ⟨r, -, ht⟩ := ht t rfl
      exact iff_of_false id ht.ahead_pos.ne
  | some c => cases stop with
    | none =>
      obtain ⟨r, -, hc⟩ := hs c rfl
      exact iff_of_false id hc.ahead_pos.ne'
    | some t =>
      obtain ⟨r, hr, hc⟩ := hs c rfl
      obtain ⟨r', hr', ht⟩ := ht t rfl
      cases Option.mem_unique hr hr'
      show c.leaf.1 = t.leaf.1 ∧ c.idx = t.idx ↔ (c.ahead K).length = (t.ahead K).length
      rcases hc.places (v.apart r hr) ht with ⟨hleaf, hright⟩ | ⟨hne, ⟨m, hm⟩ | ⟨m, hm⟩⟩
      · have hidx := hc.1
        have hidx' := ht.1
        rw [Cursor.ahead_length, Cursor.ahead_length, hright]
        rw [hleaf] at hidx ⊢
        omega
      · exact iff_of_false (fun h => hne h.1) (hc.rest_lt hm).ne'
      · exact iff_of_false (fun h => hne h.1) (ht.rest_lt hm).ne

lemma same_iterate_iff (hs : v.At start) (ht : v.At stop) (k : ℕ) :
    Same (K.next^[k] start) stop ↔ restOf K start - k = restOf K stop := by
  obtain ⟨hat, hrest⟩ := next_iterate_spec hs k
  rw [same_iff hat ht, hrest]

end Steps

section Seeking

variable {Λ : Type} {K : LeafKind Λ} {H h : ℕ} {r : Page Λ H} {p : Page Λ h} {fs : List (Frame Λ)} {c d : Cursor Λ} {q : Bytes}

def Cursor.key (K : LeafKind Λ) (c : Cursor Λ) : Option Bytes := (K.keys c.leaf.2)[c.idx]?

lemma lt_of_childIndex_lt {P : Type} {n : Node P} (hl : Laid n) (hs : n.keys.Pairwise (· < ·)) {a b : Bytes}
    (hlt : n.childIndex a < n.childIndex b) : a < b := by
  have hin : n.childIndex a < n.keys.length := hlt.trans_le (length_keys n ▸ childIndex_le hl hs b)
  exact (not_le.1 (mt (lt_childIndex_iff hl hs a hin).2 (lt_irrefl _))).trans_le ((lt_childIndex_iff hl hs b hin).1 hlt)

lemma Frame.childIndex_of_mem {f : Frame Λ} (hv : K.Valid (f.height + 1) f.node) {js : List ℕ} (hjs : ∀ j ∈ js, j ≤ f.node.count)
    {k : Bytes} (hk : k ∈ K.keysOf (js.flatMap f.leavesAt)) : f.node.childIndex k ∈ js := by
  obtain ⟨l, hl, hkl⟩ := mem_flatMap.1 hk
  obtain ⟨j, hj, hlj⟩ := mem_flatMap.1 hl
  obtain ⟨c, hc, -, hin⟩ := hv.2.2 j (hjs j hj)
  rw [leavesAt, hc] at hlj
  rwa [← (mem_interval_iff hv.1 hv.2.1 k (hjs j hj)).1 (hin k (mem_flatMap.2 ⟨l, hlj, hkl⟩))]

lemma LeafKind.Valid.ascending (hv : K.Valid h p) : (K.keysOf (leaves h p)).Pairwise (· < ·) := by
  induction h with
  | zero =>
    have hkeys : K.keysOf (leaves 0 p) = K.keys p.2 := append_nil _
    rw [hkeys]
    exact K.ascending hv.1
  | succ h ih =>
    have hdef : leaves (h + 1) p = (List.range (Node.count p + 1)).flatMap (Frame.leavesAt ⟨h, p, 0⟩) := rfl
    rw [hdef, LeafKind.keysOf, flatMap_assoc, pairwise_flatMap]
    have hone : ∀ j < Node.count p + 1, ∀ k ∈ K.keysOf (Frame.leavesAt ⟨h, p, 0⟩ j), Node.childIndex p k = j := by
      intro j hj k hk
      have hmem : Node.childIndex p k ∈ [j] := Frame.childIndex_of_mem (f := ⟨h, p, 0⟩) hv (by simpa using Nat.lt_succ_iff.1 hj)
        (by rwa [flatMap_singleton])
      exact mem_singleton.1 hmem
    constructor
    · intro j hj
      obtain ⟨c, hc, hvc, -⟩ := hv.2.2 j (Nat.lt_succ_iff.1 (mem_range.1 hj))
      have hat : Frame.leavesAt ⟨h, p, 0⟩ j = leaves h c := by rw [Frame.leavesAt, hc, Option.elim_some]
      rw [hat]
      exact ih hvc
    · refine pairwise_lt_range.imp_of_mem fun hi hj hij x hx y hy => ?_
      apply lt_of_childIndex_lt hv.1 hv.2.1
      rwa [hone _ (mem_range.1 hi) x hx, hone _ (mem_range.1 hj) y hy]

lemma leaf_split {n : Λ} (hn : K.Sound n) (q : Bytes) :
    (∀ k ∈ (K.keys n).take (K.position n q), k < q) ∧ ∀ k ∈ (K.keys n).drop (K.position n q), q ≤ k := by
  have hrank := fun i hi => @lt_countP_iff _ (fun k => decide (k < q)) _ _ (K.ascending hn)
    (fun a b hab hb => decide_eq_true (hab.trans (of_decide_eq_true hb))) i hi
  rw [K.position_eq hn]
  constructor
  · intro k hk
    obtain ⟨i, hi, rfl⟩ := mem_take_iff_getElem.1 hk
    exact of_decide_eq_true ((hrank i (by omega)).1 (by omega))
  · intro k hk
    obtain ⟨i, hi, rfl⟩ := mem_drop_iff_getElem.1 hk
    refine not_lt.1 fun hlt => ?_
    have := (hrank _ (by omega)).2 (decide_eq_true hlt)
    omega

lemma seek_spec (hv : K.Valid H r) (hu : Under r fs h p) (hleft : ∀ k ∈ K.keysOf (left fs), k < q)
    (hright : ∀ k ∈ K.keysOf (right fs), q ≤ k) :
    (K.seek q h p fs = none ∧ ∀ k ∈ K.keysOf (leaves H r), k < q) ∨
      ∃ c, K.seek q h p fs = some c ∧ c.Sits K r ∧ (∀ k ∈ c.behind K, k < q) ∧ ∀ k ∈ c.ahead K, q ≤ k := by
  have hvp := hu.valid hv
  induction h generalizing fs with
  | zero =>
    have hpos : 0 < K.count p := length_pos_iff.2 hvp.2
    have hle : K.position p.2 q ≤ K.count p := K.position_eq hvp.1 q ▸ countP_le_length
    obtain ⟨hbelow, habove⟩ := leaf_split hvp.1 q
    have hbehind : ∀ k ∈ Cursor.behind K ⟨p, K.position p.2 q, fs⟩, k < q :=
      fun k hk => (mem_append.1 hk).elim (hleft k) (hbelow k)
    have hahead : ∀ k ∈ Cursor.ahead K ⟨p, K.position p.2 q, fs⟩, q ≤ k :=
      fun k hk => (mem_append.1 hk).elim (habove k) (hright k)
    rw [LeafKind.seek, if_neg hpos.ne']
    by_cases hend : K.position p.2 q = K.count p
    · have hlast : ¬ K.count p - 1 + 1 < K.count p := by omega
      rw [if_pos hend, LeafKind.advance, if_neg hlast]
      rcases nextLeaf_eq (c := ⟨p, K.position p.2 q, fs⟩) hv hu hend with ⟨hnone, hnil⟩ | ⟨d, hd, hds, -, hb, ha⟩
      · refine .inl ⟨hnone, ?_⟩
        rw [Under.keys_eq (c := ⟨p, K.position p.2 q, fs⟩) hu, hnil, append_nil]
        exact hbehind
      · exact .inr ⟨d, hd, hds, hb ▸ hbehind, ha ▸ hahead⟩
    · rw [if_neg hend]
      exact .inr ⟨_, rfl, ⟨lt_of_le_of_ne hle hend, hu⟩, hbehind, hahead⟩
  | succ h ih =>
    have hle := childIndex_le hvp.1 hvp.2.1 q
    obtain ⟨c, hc, hvc, -⟩ := hvp.2.2 _ hle
    rw [LeafKind.seek, hc]
    refine ih (Under.child (f := ⟨h, p, Node.childIndex p q⟩) hle hc hu) ?_ ?_ hvc
    · intro k hk
      rw [left, keysOf_append] at hk
      refine (mem_append.1 hk).elim (hleft k) fun hk => lt_of_childIndex_lt hvp.1 hvp.2.1 ?_
      exact mem_range.1 (Frame.childIndex_of_mem (f := ⟨h, p, Node.childIndex p q⟩) hvp
        (fun j hj => (mem_range.1 hj).le.trans hle) hk)
    · intro k hk
      rw [right, keysOf_append] at hk
      refine (mem_append.1 hk).elim (fun hk => (lt_of_childIndex_lt hvp.1 hvp.2.1 ?_).le) (hright k)
      have hmem := Frame.childIndex_of_mem (f := ⟨h, p, Node.childIndex p q⟩) hvp
        (fun j hj => by have := mem_range'_1.1 hj; omega) hk
      exact (mem_range'_1.1 hmem).1

lemma Cursor.behind_snoc (hidx : d.idx < K.count d.leaf) : ∃ k, d.key K = some k ∧
    d.behind K ++ [k] = K.keysOf (left d.above) ++ (K.keys d.leaf.2).take (d.idx + 1) := by
  refine ⟨_, List.getElem?_eq_getElem hidx, ?_⟩
  rw [Cursor.behind, append_assoc, take_append_getElem]

lemma Cursor.behind_last (hidx : d.idx + 1 = K.count d.leaf) : ∃ k, d.key K = some k ∧
    d.behind K ++ [k] = K.keysOf (left d.above ++ [d.leaf]) := by
  obtain ⟨k, hk, hb⟩ := d.behind_snoc (K := K) (by omega)
  rw [take_of_length_le hidx.ge] at hb
  refine ⟨k, hk, hb.trans ?_⟩
  rw [keysOf_append]
  exact congrArg _ (append_nil _).symm

lemma retreat_spec (root : Option (Page Λ H)) (hv : K.Valid H r) (h : c.Sits K r) :
    (K.retreat root (some c) = none ∧ c.behind K = []) ∨
      ∃ d k, K.retreat root (some c) = some d ∧ d.Sits K r ∧ d.key K = some k ∧ d.behind K ++ [k] = c.behind K := by
  obtain ⟨hlt, hu⟩ := h
  by_cases hpos : 0 < c.idx
  · have hidx : c.idx - 1 < K.count c.leaf := by omega
    obtain ⟨k, hk, hb⟩ := Cursor.behind_snoc (d := { c with idx := c.idx - 1 }) hidx
    refine .inr ⟨{ c with idx := c.idx - 1 }, k, by rw [LeafKind.retreat, if_pos hpos], ⟨hidx, hu⟩, hk, hb.trans ?_⟩
    simp only [Nat.sub_add_cancel hpos]
    rfl
  · have hzero : c.behind K = K.keysOf (left c.above) := by
      rw [Cursor.behind, Nat.eq_zero_of_not_pos hpos, take_zero, append_nil]
    rw [LeafKind.retreat, if_neg hpos, hzero]
    rcases previousLeaf_spec hv hu with ⟨hnone, hnil⟩ | ⟨d, hd, hud, hidx, hl⟩
    · exact .inl ⟨hnone, by rw [hnil]; rfl⟩
    · obtain ⟨k, hk, hb⟩ := d.behind_last hidx
      exact .inr ⟨d, k, hd, ⟨by omega, hud⟩, hk, hl ▸ hb⟩

lemma greatest_below {all front back : List Bytes} {k : Bytes} (hs : all.Pairwise (· < ·)) (heq : all = front ++ [k] ++ back)
    (hbelow : ∀ x ∈ front ++ [k], x < q) (habove : ∀ x ∈ back, q ≤ x) : k < q ∧ ∀ x ∈ all, x < q → x ≤ k := by
  refine ⟨hbelow k (by simp), fun x hx hlt => ?_⟩
  rw [heq, append_assoc] at hs hx
  rcases mem_append.1 hx with hx | hx
  · exact (pairwise_append.1 hs).2.2 x hx k (by simp) |>.le
  · rcases mem_append.1 hx with hx | hx
    · exact (mem_singleton.1 hx).le
    · exact absurd (habove x hx) (not_le.2 hlt)

end Seeking

namespace Version

variable {Λ : Type} {K : LeafKind Λ} (v : Version K)

def keys : List Bytes := K.keysOf v.leaves

/-- How many entries come before a cursor in the tree's order; before the end, all of them. -/
def place (o : Option (Cursor Λ)) : ℕ := o.elim v.keys.length fun c => (c.behind K).length

lemma at_lowerBound (q : Bytes) : v.At (v.lowerBound q) := by
  rw [lowerBound]
  cases hroot : v.root with
  | none => exact nofun
  | some r =>
    rcases seek_spec (q := q) (v.valid r hroot) .root nofun nofun with ⟨hnone, -⟩ | ⟨c, hc, hsits, -, -⟩
    · rw [Option.bind_some, hnone]
      exact nofun
    · rw [Option.bind_some, hc]
      rintro _ ⟨⟩
      exact ⟨r, hroot, hsits⟩

lemma stepsBack (q : Bytes) : (K.retreat v.root (v.lowerBound q) = none ∧ ∀ k ∈ v.keys, ¬ k < q) ∨
    ∃ c k, K.retreat v.root (v.lowerBound q) = some c ∧ v.At (some c) ∧ c.key K = some k ∧ k < q ∧ ∀ x ∈ v.keys, x < q → x ≤ k := by
  rw [keys, leaves, lowerBound]
  cases hroot : v.root with
  | none => exact .inl ⟨rfl, nofun⟩
  | some r =>
    have hv := v.valid r hroot
    have hs := hv.ascending
    rw [Option.bind_some, Option.elim_some]
    have hat : ∀ {d : Cursor Λ}, d.Sits K r → v.At (some d) := by
      intro d hd e he
      cases he
      exact ⟨r, hroot, hd⟩
    rcases seek_spec (q := q) hv .root nofun nofun with ⟨hnone, hall⟩ | ⟨c, hc, hsits, hbelow, habove⟩
    · obtain ⟨d, hd, hud, hidx, hl⟩ := descendRightmost_spec hv .root
      obtain ⟨k, hk, hb⟩ := d.behind_last hidx
      have hkeys : K.keysOf (Tree.leaves _ r) = d.behind K ++ [k] ++ [] := by
        rw [hb, hl, append_nil]
        rfl
      rw [hnone]
      refine .inr ⟨d, k, hd, hat ⟨by omega, hud⟩, hk, greatest_below hs hkeys ?_ nofun⟩
      rw [hkeys, append_nil] at hall
      exact hall
    · rw [hc]
      have hkeys := hsits.2.keys_eq (K := K)
      rcases retreat_spec _ hv hsits with ⟨hnone, hnil⟩ | ⟨d, k, hd, hds, hk, hb⟩
      · refine .inl ⟨hnone, fun k hk => not_lt.2 (habove k ?_)⟩
        rwa [hkeys, hnil] at hk
      · rw [← hb] at hbelow hkeys
        exact .inr ⟨d, k, hd, hat hds, hk, greatest_below hs hkeys hbelow habove⟩

variable {v} {start stop : Option (Cursor Λ)}

lemma At.place_add_rest (h : v.At start) : v.place start + restOf K start = v.keys.length := by
  cases start with
  | none => rfl
  | some c =>
    obtain ⟨r, hr, hc⟩ := h c rfl
    rw [keys, leaves, Option.mem_def.1 hr, Option.elim_some, hc.2.keys_eq, length_append]
    rfl

lemma At.place_le (h : v.At start) : v.place start ≤ v.place none := (Nat.le_add_right _ _).trans_eq h.place_add_rest

lemma countEntries_eq (hs : v.At start) (ht : v.At stop) (hle : restOf K stop ≤ restOf K start) (limit : ℕ) {fuel : ℕ}
    (hfuel : v.leaves.length < fuel) :
    K.countEntries start stop limit fuel = some (min limit (restOf K start - restOf K stop)) := by
  cases start with
  | none =>
    have hzero : restOf K none - restOf K stop = 0 := Nat.zero_sub _
    rw [hzero, Nat.min_zero]
    rfl
  | some c =>
    obtain ⟨r, hr, hc⟩ := hs c rfl
    have hright : (right c.above).length < fuel := by
      refine lt_of_le_of_lt ?_ hfuel
      rw [leaves, Option.mem_def.1 hr, Option.elim_some, hc.2.leaves_eq, length_append, length_append]
      omega
    have hstop : ∀ t ∈ stop, t.Sits K r := by
      intro t htm
      obtain ⟨r', hr', hsits⟩ := ht t htm
      cases Option.mem_unique hr hr'
      exact hsits
    refine (countLoop_spec (v.valid r hr) (v.apart r hr) hstop limit 0 hc hle hright).trans ?_
    rw [Nat.zero_add]
    rfl

end Version

def keyedLeaves (V : Type) : LeafKind (Node V) where
  keys := Node.keys
  position n q := (n.search q).idx
  Sound n := Laid n ∧ n.keys.Pairwise (· < ·)
  ascending h := h.2
  position_eq h q := (search_isLowerBound h.1 h.2 q).1

def blindLeaves (res : BlindRef → Bytes) : LeafKind Leaf where
  keys n := n.arrays.keys res
  position n q := (n.position res q).idx
  Sound n := n.Sound res
  ascending h := h.ascending
  position_eq {n} h q := by
    rcases h.position_cases q with ⟨c, hc, rfl, hpos⟩ | ⟨-, hp⟩
    · have hrank := fun i hi => @lt_countP_iff _ (fun k => decide (k < n.arrays.keyAt res c)) (n.arrays.keys res) _ h.ascending
        (fun a b hab hb => decide_eq_true (hab.trans (of_decide_eq_true hb))) i hi
      rw [← @Arrays.length_keys res] at hc
      rw [hpos]
      refine le_antisymm (not_lt.1 fun hlt => ?_) (not_lt.1 fun hlt => ?_)
      · refine lt_irrefl _ ((hrank _ (hlt.trans hc)).2 (decide_eq_true ?_))
        rw [Arrays.keys_getElem]
        exact Arrays.keyAt_lt h.ascending hlt (@Arrays.length_keys res _ ▸ hc)
      · have := of_decide_eq_true ((hrank c hc).1 hlt)
        rw [Arrays.keys_getElem] at this
        exact lt_irrefl _ this
    · exact hp.idx_eq h

def Version.ofLeaf {Λ : Type} {K : LeafKind Λ} (l : ℕ × Λ) (hs : K.Sound l.2) (hne : K.keys l.2 ≠ []) : Version K where
  height := 0
  root := some l
  valid := by
    rintro _ ⟨⟩
    exact ⟨hs, hne⟩
  apart := by
    rintro _ ⟨⟩
    exact nodup_singleton _

def oneLeaf : Version (blindLeaves Leaf.sampleKey) := .ofLeaf (1, Leaf.sampleLeaf) Leaf.sampleLeaf_sound (by decide +kernel)

def smallLeaf (a b : Fin 256) : Node ℕ := Node.pack sampleLayout true [⟨[a], 0⟩, ⟨[b], 1⟩] 0

def smallRoot : Node (ℕ × Node ℕ) :=
  { Node.pack sampleLayout false [⟨[5], (2, smallLeaf 6 8)⟩] 0 with firstChild := some (1, smallLeaf 2 4) }

lemma smallLeaf_valid {a b : Fin 256} (h : (smallLeaf a b).keys.Pairwise (· < ·)) (hne : (smallLeaf a b).keys ≠ []) (at' : ℕ) :
    (keyedLeaves ℕ).Valid 0 (at', smallLeaf a b) := by
  have hfits : alignUp (max nodeBytes (Node.packedSize sampleLayout true 0 [⟨[0], 0⟩, ⟨[0], (1 : ℕ)⟩])) 16 < 2 ^ 32 := by decide
  have hp : Packable sampleLayout true [⟨[a], 0⟩, ⟨[b], (1 : ℕ)⟩] 0 := ⟨by simp, by simp [maxKeyBytes], hfits⟩
  exact ⟨⟨hp.laid, h⟩, hne⟩

def smallTree : Version (keyedLeaves ℕ) where
  height := 1
  root := some smallRoot
  valid := by
    rintro _ ⟨⟩
    have hp : Packable sampleLayout false [⟨[5], ((2, smallLeaf 6 8) : ℕ × Node ℕ)⟩] 0 :=
      ⟨by decide +kernel, by decide +kernel, by decide +kernel⟩
    have hl : Laid smallRoot := ⟨⟨hp.laid.capacity, hp.laid.floor, hp.laid.slots⟩, hp.laid.hints⟩
    have hs : smallRoot.keys.Pairwise (· < ·) := by decide +kernel
    have hin : ∀ (i : ℕ) (hi : i ≤ smallRoot.count) (ks : List Bytes), (∀ k ∈ ks, i = smallRoot.childIndex k) →
        ∀ k ∈ ks, k ∈ smallRoot.interval i := fun i hi ks hks k hk => (mem_interval_iff hl hs k hi).2 (hks k hk)
    refine ⟨hl, hs, fun i hi => ?_⟩
    have hi' : i ≤ 1 := hi
    interval_cases i
    · exact ⟨(1, smallLeaf 2 4), rfl, smallLeaf_valid (by decide +kernel) (by decide +kernel) 1, hin 0 hi _ (by decide +kernel)⟩
    · exact ⟨(2, smallLeaf 6 8), rfl, smallLeaf_valid (by decide +kernel) (by decide +kernel) 2, hin 1 hi _ (by decide +kernel)⟩
  apart := by
    rintro _ ⟨⟩
    decide +kernel

/-- From a cursor to one that is not before it there is a number of steps, and counting gives that number, up to the limit; the
step back from a lower bound is on the greatest key below it, or the end if there is none. Blind and keyed trees are alike in it. -/
theorem cursors_exact {Λ : Type} {K : LeafKind Λ} (v : Version K) (start stop : Option (Cursor Λ)) (hs : v.At start)
    (ht : v.At stop) (hle : v.place start ≤ v.place stop) (q : Bytes) :
    (∃ k, Same (K.next^[k] start) stop ∧ (∀ j < k, ¬ Same (K.next^[j] start) stop) ∧
      ∀ limit fuel, v.leaves.length < fuel → K.countEntries start stop limit fuel = some (min limit k)) ∧
    ((K.retreat v.root (v.lowerBound q) = none ∧ ∀ k ∈ v.keys, ¬ k < q) ∨
      ∃ c k, K.retreat v.root (v.lowerBound q) = some c ∧ v.At (some c) ∧ c.key K = some k ∧ k < q ∧ ∀ x ∈ v.keys, x < q → x ≤ k) := by
  have hrest : restOf K stop ≤ restOf K start := by
    have hstart := hs.place_add_rest
    have hstop := ht.place_add_rest
    omega
  refine ⟨⟨restOf K start - restOf K stop, (same_iterate_iff hs ht _).2 (by omega), fun j hj => ?_, fun limit fuel hfuel => ?_⟩,
    v.stepsBack q⟩
  · rw [same_iterate_iff hs ht]
    omega
  · exact Version.countEntries_eq hs ht hrest limit hfuel

theorem smallTrees_exact : (∃ k, Same ((keyedLeaves ℕ).next^[k] (smallTree.lowerBound [3])) none ∧
      (keyedLeaves ℕ).countEntries (smallTree.lowerBound [3]) none 10 3 = some (min 10 k)) ∧
    ∃ k, Same ((blindLeaves Leaf.sampleKey).next^[k] (oneLeaf.lowerBound [97, 0])) none ∧
      (blindLeaves Leaf.sampleKey).countEntries (oneLeaf.lowerBound [97, 0]) none 2 2 = some (min 2 k) := by
  obtain ⟨⟨k, hk, -, hcount⟩, -⟩ := cursors_exact _ _ none (smallTree.at_lowerBound _) nofun
    (smallTree.at_lowerBound _).place_le [3]
  obtain ⟨⟨k', hk', -, hcount'⟩, -⟩ := cursors_exact _ _ none (oneLeaf.at_lowerBound _) nofun
    (oneLeaf.at_lowerBound _).place_le []
  exact ⟨⟨k, hk, hcount 10 3 (by decide +kernel)⟩, k', hk', hcount' 2 2 (by decide +kernel)⟩

end Bytecask.Tree
