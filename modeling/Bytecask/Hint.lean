import Bytecask.DataFile

/-! Hint files: what a data file's hint holds, and the scanner over its frames. -/

namespace Bytecask

open List

structure HintEntry where
  sequence : ℕ
  entryType : EntryType
  fileOffset : ℕ
  key : Bytes
  valueSize : ℕ
  endKey : Bytes := []
  markerId : MarkerId := 0
deriving DecidableEq, Repr

def hintHeaderSize : ℕ := 23

def HintEntry.size (he : HintEntry) : ℕ :=
  hintHeaderSize + he.key.length +
    match he.entryType with
    | .rangeDel => 2 + he.endKey.length
    | .changeMarker => changeMarkerIdBytes
    | _ => 0

/-- What `flush_hints_for` appends for a committed entry. -/
def HintEntry.ofEntry (e : DataEntry) (offset : ℕ) : HintEntry :=
  match e.entryType with
  | .bulkBegin | .bulkEnd => ⟨e.sequence, e.entryType, offset, [], 0, [], 0⟩
  | .changeMarker => ⟨e.sequence, .changeMarker, offset, [], changeMarkerIdBytes, [], decodeMarkerId e.value⟩
  | .rangeDel => ⟨e.sequence, .rangeDel, offset, e.key, e.value.length, e.value, 0⟩
  | .put | .delete => ⟨e.sequence, e.entryType, offset, e.key, e.value.length, [], 0⟩

def EntryType.isData : EntryType → Bool
  | .put | .delete => true
  | .bulkBegin | .bulkEnd | .rangeDel | .changeMarker => false

def HintEntry.Before (a b : HintEntry) : Prop :=
  a.key < b.key ∨ (a.key = b.key ∧ b.sequence ≤ a.sequence)

instance (a b : HintEntry) : Decidable (a.Before b) := inferInstanceAs (Decidable (_ ∨ _))

def flushHintsFor (file : DataFile) : Option (List HintEntry) :=
  let scan := scanCommitted file
  if scan.damaged then none
  else
    let hints := scan.yielded.map (fun e => HintEntry.ofEntry e.1 e.2)
    some (hints.filter (fun he => !he.entryType.isData) ++
      (hints.filter (fun he => he.entryType.isData)).insertionSort HintEntry.Before)

structure HintFile where
  frames : List (List HintEntry)
deriving DecidableEq, Repr

def HintFile.entries (h : HintFile) : List HintEntry := h.frames.flatten

structure Position where
  frame : ℕ
  offset : ℕ
deriving DecidableEq, Repr

def Position.le (p q : Position) : Prop := p.frame < q.frame ∨ (p.frame = q.frame ∧ p.offset ≤ q.offset)

instance (p q : Position) : Decidable (p.le q) := inferInstanceAs (Decidable (_ ∨ _))

structure Scanner where
  frames : List (List HintEntry)
  frame : List HintEntry := []
  frameAt : ℕ := 0
  nextFrame : ℕ := 0
  pos : ℕ := 0

def HintFile.makeScanner (h : HintFile) : Scanner := { frames := h.frames }

namespace Scanner

variable {frames : List (List HintEntry)} {i : ℕ} {f : List HintEntry} (sc : Scanner)

def loadFrame (sc : Scanner) (i : ℕ) : Scanner :=
  match sc.frames[i]? with
  | none => { sc with frame := [], frameAt := i, nextFrame := sc.frames.length, pos := 0 }
  | some f => { sc with frame := f, frameAt := i, nextFrame := i + 1, pos := 0 }

def fill (sc : Scanner) : ℕ → Scanner
  | 0 => sc
  | n + 1 =>
    match sc.frame with
    | [] => if sc.nextFrame < sc.frames.length then (sc.loadFrame sc.nextFrame).fill n else sc
    | _ :: _ => sc

def pop (sc : Scanner) : Option HintEntry × Scanner :=
  match sc.frame with
  | [] => (none, sc)
  | he :: rest => (some he, { sc with frame := rest, pos := sc.pos + he.size })

def next (sc : Scanner) : Option HintEntry × Scanner := (sc.fill (sc.frames.length - sc.nextFrame)).pop

def position (sc : Scanner) : Position :=
  if sc.frame = [] ∧ sc.nextFrame < sc.frames.length then ⟨sc.nextFrame, 0⟩ else ⟨sc.frameAt, sc.pos⟩

/-- The entries from byte `n` of a decoded frame on; `none` when no entry starts or ends there. -/
def dropBytes : List HintEntry → ℕ → Option (List HintEntry)
  | [], n => if n = 0 then some [] else none
  | he :: rest, n => if n = 0 then some (he :: rest) else if he.size ≤ n then dropBytes rest (n - he.size) else none

def seek (sc : Scanner) (p : Position) : Option Scanner :=
  let sc := sc.loadFrame p.frame
  (dropBytes sc.frame p.offset).map (fun frame => { sc with frame, pos := p.offset })

def rest (sc : Scanner) : List HintEntry := sc.frame ++ (sc.frames.drop sc.nextFrame).flatten

def drain : ℕ → Scanner → List (Position × HintEntry) × Scanner
  | 0, sc => ([], sc)
  | n + 1, sc =>
    match sc.next with
    | (none, sc') => ([], sc')
    | (some he, sc') => ((sc.position, he) :: (drain n sc').1, (drain n sc').2)

def Valid (sc : Scanner) : Prop :=
  (sc.frame = [] ∧ sc.frameAt = 0 ∧ sc.nextFrame = 0 ∧ sc.pos = 0) ∨
    ∃ before, sc.frames[sc.frameAt]? = some (before ++ sc.frame) ∧ sc.nextFrame = sc.frameAt + 1 ∧
      sc.pos = (before.map HintEntry.size).sum

def Marks (frames : List (List HintEntry)) (p : Position) (es : List HintEntry) : Prop :=
  ∃ sc, seek { frames } p = some sc ∧ sc.rest = es

lemma rest_makeScanner (h : HintFile) : h.makeScanner.rest = h.entries := rfl

lemma valid_makeScanner (h : HintFile) : h.makeScanner.Valid := .inl ⟨rfl, rfl, rfl, rfl⟩

@[simp] lemma dropBytes_zero (es : List HintEntry) : dropBytes es 0 = some es := by
  cases es <;> rfl

lemma dropBytes_append (before es : List HintEntry) :
    dropBytes (before ++ es) (before.map HintEntry.size).sum = some es := by
  induction before with
  | nil => simp
  | cons he before ih =>
    have hpos : 0 < he.size := by
      simp only [HintEntry.size, hintHeaderSize]
      omega
    have hne : he.size + (before.map HintEntry.size).sum ≠ 0 := by omega
    simp only [cons_append, map_cons, sum_cons, dropBytes, if_neg hne]
    simpa using ih

lemma drop_flatten (h : frames[i]? = some f) : (frames.drop i).flatten = f ++ (frames.drop (i + 1)).flatten := by
  obtain ⟨hi, rfl⟩ := List.getElem?_eq_some_iff.1 h
  rw [drop_eq_getElem_cons, flatten_cons]

lemma loadFrame_of_some {sc : Scanner} (h : sc.frames[i]? = some f) :
    sc.loadFrame i = { sc with frame := f, frameAt := i, nextFrame := i + 1, pos := 0 } := by
  simp [loadFrame, h]

lemma loadFrame_spec {sc : Scanner} (h : i < sc.frames.length) :
    (sc.loadFrame i).Valid ∧ (sc.loadFrame i).frames = sc.frames ∧ (sc.loadFrame i).nextFrame = i + 1 ∧
      (sc.loadFrame i).rest = (sc.frames.drop i).flatten := by
  have hg : sc.frames[i]? = some sc.frames[i] := List.getElem?_eq_getElem h
  rw [loadFrame_of_some hg]
  exact ⟨.inr ⟨[], by simp, rfl, rfl⟩, rfl, rfl, (drop_flatten hg).symm⟩

lemma rest_of_done {sc : Scanner} (hf : sc.frame = []) (h : sc.frames.length ≤ sc.nextFrame) : sc.rest = [] := by
  simp [rest, hf, drop_of_length_le h]

lemma fill_spec (hv : sc.Valid) (n : ℕ) :
    (sc.fill n).Valid ∧ (sc.fill n).frames = sc.frames ∧ (sc.fill n).rest = sc.rest ∧
      (sc.frames.length - sc.nextFrame ≤ n → (sc.fill n).frame = [] → sc.rest = []) := by
  induction n generalizing sc with
  | zero => exact ⟨hv, rfl, rfl, fun hn hf => rest_of_done hf (by omega)⟩
  | succ n ih =>
    simp only [fill]
    split
    next hf =>
      split
      next hlt =>
        obtain ⟨l₁, l₂, l₃, l₄⟩ := loadFrame_spec hlt
        obtain ⟨h₁, h₂, h₃, h₄⟩ := ih _ l₁
        have hr : (sc.loadFrame sc.nextFrame).rest = sc.rest := by rw [l₄, rest, hf, nil_append]
        refine ⟨h₁, h₂.trans l₂, h₃.trans hr, fun hn he => ?_⟩
        rw [← hr]
        exact h₄ (by rw [l₂, l₃]; omega) he
      next hge => exact ⟨hv, rfl, rfl, fun _ _ => rest_of_done hf (by omega)⟩
    next he rest hf =>
      refine ⟨hv, rfl, rfl, fun _ hnil => ?_⟩
      rw [hf] at hnil
      cases hnil

lemma pop_spec (hv : sc.Valid) (hd : sc.frame = [] → sc.rest = []) :
    sc.pop.1 = sc.rest.head? ∧ sc.pop.2.rest = sc.rest.tail ∧ sc.pop.2.Valid ∧ sc.pop.2.frames = sc.frames := by
  unfold pop
  split
  next hf =>
    rw [hd hf]
    exact ⟨rfl, rfl, hv, rfl⟩
  next he es hf =>
    have hr : sc.rest = he :: (es ++ (sc.frames.drop sc.nextFrame).flatten) := by
      rw [rest, hf, cons_append]
    refine ⟨by rw [hr]; rfl, by rw [hr]; rfl, ?_, rfl⟩
    rcases hv with ⟨hnil, -⟩ | ⟨before, hb, hn, hp⟩
    · rw [hf] at hnil
      cases hnil
    · refine .inr ⟨before ++ [he], ?_, hn, ?_⟩
      · rw [hb, hf]
        simp
      · simp [hp]

lemma next_spec (hv : sc.Valid) :
    sc.next.1 = sc.rest.head? ∧ sc.next.2.rest = sc.rest.tail ∧ sc.next.2.Valid ∧
      sc.next.2.frames = sc.frames := by
  obtain ⟨h₁, h₂, h₃, h₄⟩ := fill_spec sc hv _
  obtain ⟨p₁, p₂, p₃, p₄⟩ := pop_spec _ h₁ (fun hf => h₃.trans (h₄ le_rfl hf))
  rw [h₃] at p₁ p₂
  exact ⟨p₁, p₂, p₃, p₄.trans h₂⟩

lemma marks_frame {before es : List HintEntry} (h : frames[i]? = some (before ++ es)) :
    Marks frames ⟨i, (before.map HintEntry.size).sum⟩ (es ++ (frames.drop (i + 1)).flatten) := by
  have hd := dropBytes_append before es
  refine ⟨⟨frames, es, i, i + 1, (before.map HintEntry.size).sum⟩, ?_, rfl⟩
  rw [seek, @loadFrame_of_some i _ ⟨frames, [], 0, 0, 0⟩ h]
  simp [hd]

lemma marks_position (hv : sc.Valid) : Marks sc.frames sc.position sc.rest := by
  unfold position
  split
  next h =>
    obtain ⟨hf, hlt⟩ := h
    have hg : sc.frames[sc.nextFrame]? = some ([] ++ sc.frames[sc.nextFrame]) := by simp
    have hr : sc.rest = sc.frames[sc.nextFrame] ++ (sc.frames.drop (sc.nextFrame + 1)).flatten := by
      rw [rest, hf, nil_append, drop_flatten hg, nil_append]
    rw [hr]
    exact marks_frame hg
  next h =>
    rcases hv with ⟨hf, ha, hn, hp⟩ | ⟨before, hb, hn, hp⟩
    · have hlen : sc.frames = [] := by
        rw [hf, hn] at h
        simpa using h
      exact ⟨⟨sc.frames, [], 0, 0, 0⟩, by simp [seek, loadFrame, hlen, ha, hp], by simp [rest, hlen, hf]⟩
    · rw [hp, rest, hn]
      exact marks_frame hb

lemma drain_spec (hv : sc.Valid) (n : ℕ) (hn : sc.rest.length ≤ n) :
    (sc.drain n).1.map Prod.snd = sc.rest ∧ Marks sc.frames (sc.drain n).2.position [] ∧
      ∀ before p he after, (sc.drain n).1 = before ++ (p, he) :: after →
        Marks sc.frames p (he :: after.map Prod.snd) := by
  induction n generalizing sc with
  | zero =>
    have hnil : sc.rest = [] := length_eq_zero_iff.1 (by omega)
    refine ⟨by simp [drain, hnil], ?_, ?_⟩
    · have hm := marks_position sc hv
      rwa [hnil] at hm
    · intro before p he after h
      simp [drain] at h
  | succ n ih =>
    obtain ⟨h₁, h₂, h₃, h₄⟩ := next_spec sc hv
    cases hr : sc.rest with
    | nil =>
      have hd : sc.drain (n + 1) = ([], sc.next.2) := by
        rw [drain]
        rw [hr] at h₁
        split
        next heq => rw [heq]
        next heq => rw [heq] at h₁; cases h₁
      rw [hd]
      refine ⟨rfl, ?_, ?_⟩
      · have hm := marks_position _ h₃
        rwa [h₂, hr, h₄] at hm
      · intro before p he after h
        simp at h
    | cons e es =>
      have hd : sc.drain (n + 1) = ((sc.position, e) :: (sc.next.2.drain n).1, (sc.next.2.drain n).2) := by
        rw [drain]
        rw [hr] at h₁
        split
        next heq => rw [heq] at h₁; cases h₁
        next he sc' heq =>
          rw [heq] at h₁ ⊢
          obtain rfl : he = e := by simpa using h₁
          rfl
      rw [hr, tail_cons] at h₂
      have hlen : sc.next.2.rest.length ≤ n := by
        rw [h₂]
        rw [hr] at hn
        simpa using hn
      obtain ⟨i₁, i₂, i₃⟩ := ih _ h₃ hlen
      rw [h₄] at i₂ i₃
      rw [hd]
      refine ⟨by simp [i₁, h₂], i₂, ?_⟩
      intro before p he after h
      cases before with
      | nil =>
        obtain ⟨⟨rfl, rfl⟩, rfl⟩ : (sc.position = p ∧ e = he) ∧ (sc.next.2.drain n).1 = after := by
          simpa using h
        rw [i₁, h₂, ← hr]
        exact marks_position sc hv
      | cons x before => exact i₃ before p he after (by simpa using (List.cons.inj h).2)

end Scanner

end Bytecask
