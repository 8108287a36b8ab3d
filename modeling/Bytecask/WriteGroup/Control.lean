import Bytecask.WriteGroup.Model

/-! Who runs a batch, and who wakes the committer for the queue it was handed. -/

namespace Bytecask.WriteGroup

variable {ω : Type}

inductive Owner (ω : Type) where
  | writer (w : ω)
  | committer

def Phase.hasBatch : Phase ω → Bool
  | .running _ | .ran _ => true
  | _ => false

def Committer.hasBatch : Committer ω → Bool
  | .running _ | .ran _ | .releasing _ true => true
  | _ => false

def HasBatch (s : State ω) : Owner ω → Prop
  | .writer w => (s.writer w).hasBatch = true
  | .committer => s.committer.hasBatch = true

def nextHolder (s : State ω) (holder : Option (Owner ω)) : Action ω → Option (Owner ω)
  | .submit w => if s.running then holder else some (.writer w)
  | .finish _ => none
  | .gate =>
    match s.committer with
    | .releasing [] true => holder
    | _ => if s.handOver then some .committer else holder
  | .committerFinish => if s.queue = [] then none else holder
  | _ => holder

def OwesNotify (s : State ω) : Prop := ∃ w batch, s.writer w = .owesNotify batch

/-- Who may take the queue, and who wakes the committer for it; `holder` is the thread with a batch. -/
structure Control (holder : Option (Owner ω)) (s : State ω) : Prop where
  batch : ∀ o, HasBatch s o ↔ holder = some o
  handed : s.handOver = true → holder = none
  running : s.running = (holder.isSome || s.handOver)
  queued : s.queue ≠ [] → s.running = true
  sleeping : s.sleeping = true ↔ s.committer = .waiting ∨ s.committer = .woken
  owed : s.committer = .waiting → s.handOver = true → OwesNotify s

def State.enqueue [DecidableEq ω] (s : State ω) (w : ω) : State ω :=
  { s with
    queue := s.queue ++ [(w, s.submitted w)]
    queued := s.queued ++ [(w, s.submitted w)]
    submitted := Function.update s.submitted w (s.submitted w + 1) }

/-- What an action does, branch by branch, where `Control` holds. -/
inductive Step [DecidableEq ω] (s : State ω) : Action ω → State ω → Prop
  | wait {w} : s.writer w = .outside → s.running = true → Step s (.submit w) ((s.enqueue w).setWriter w .waiting)
  | inline {w} : s.writer w = .outside → s.running = false → Step s (.submit w)
      { (s.enqueue w).setWriter w (.running (s.queue ++ [(w, s.submitted w)])) with running := true, queue := [] }
  | execute {w batch} : s.writer w = .running batch →
      Step s (.execute w) { s.setWriter w (.ran batch) with executed := s.executed ++ batch }
  | owe {w batch} : s.writer w = .ran batch → s.queue ≠ [] →
      Step s (.finish w) { s.setWriter w (.owesNotify batch) with handOver := true }
  | handOver {w batch} : s.writer w = .ran batch → s.queue ≠ [] → s.sleeping = false →
      Step s (.finish w) { s.setWriter w (.releasing (s.others w batch)) with handOver := true }
  | stop {w batch} : s.writer w = .ran batch → s.queue = [] →
      Step s (.finish w) { s.setWriter w (.releasing (s.others w batch)) with running := false }
  | notify {w batch} : s.writer w = .owesNotify batch →
      Step s (.notify w) (s.setWriter w (.releasing (s.others w batch))).wake
  | release {w slot rest} : s.writer w = .releasing (slot :: rest) →
      Step s (.release w) { s.setWriter w (.releasing rest) with released := slot :: s.released }
  | leave {w} : Enabled s (.leave w) → Step s (.leave w) (s.setWriter w .outside)
  | spin : s.committer = .top ∨ s.committer = .releasing [] false → s.handOver = false →
      Step s .gate { s with committer := .spun }
  | sleep : s.committer = .spun ∨ s.committer = .woken → s.handOver = false → Step s .gate s.sleep
  | take : Enabled s .gate → s.handOver = true ∨ s.committer = .releasing [] true →
      Step s .gate { s with handOver := false, sleeping := false }.take
  | spuriousWake : Step s .spuriousWake s.wake
  | committerExecute {batch} : s.committer = .running batch →
      Step s .committerExecute { s with committer := .ran batch, executed := s.executed ++ batch }
  | committerMore {batch} : s.committer = .ran batch → s.queue ≠ [] →
      Step s .committerFinish { s with committer := .releasing batch true }
  | committerStop {batch} : s.committer = .ran batch → s.queue = [] →
      Step s .committerFinish { s with committer := .releasing batch false, running := false }
  | committerRelease {slot rest more} : s.committer = .releasing (slot :: rest) more →
      Step s .committerRelease { s with committer := .releasing rest more, released := slot :: s.released }

section Control

variable {s t : State ω} {holder : Option (Owner ω)} {w : ω}

lemma Control.start : Control none ({} : State ω) where
  batch o := by cases o <;> simp [HasBatch, Phase.hasBatch, Committer.hasBatch]
  handed h := by cases h
  running := rfl
  queued h := absurd rfl h
  sleeping := by simp
  owed h := by cases h

lemma Control.hold (h : Control holder s) {o : Owner ω} (hb : HasBatch s o) : holder = some o ∧ s.handOver = false := by
  have ho := (h.batch o).1 hb
  refine ⟨ho, Bool.eq_false_iff.2 fun hh => ?_⟩
  rw [h.handed hh] at ho
  cases ho

lemma Control.free (h : Control holder s) (hr : s.running = false) : holder = none ∧ s.handOver = false := by
  have hfree := h.running
  rw [hr, eq_comm, Bool.or_eq_false_iff] at hfree
  exact ⟨Option.not_isSome_iff_eq_none.1 (by simp [hfree.1]), hfree.2⟩

lemma Control.handedTo (h : Control holder s) (hh : s.handOver = true ∨ s.committer = .releasing [] true) :
    (holder = none ∨ holder = some .committer) ∧ nextHolder s holder .gate = some .committer := by
  have hcommitter : s.committer = .releasing [] true → holder = some .committer :=
    fun hc => (h.batch .committer).1 (by rw [HasBatch, hc]; rfl)
  refine ⟨hh.imp h.handed hcommitter, ?_⟩
  rw [nextHolder]
  split
  · next hc => exact hcommitter hc
  · next hne => rw [if_pos (hh.resolve_right hne)]

lemma Control.take (h : Control holder s) (hh : s.handOver = true ∨ s.committer = .releasing [] true) :
    Control (some .committer) { s with handOver := false, sleeping := false }.take := by
  refine ⟨fun o => ?_, nofun, ?_, fun hq => absurd rfl hq, by simp [State.take], nofun⟩
  · cases o with
    | committer => simp [HasBatch, State.take, Committer.hasBatch]
    | writer v =>
      have hv := h.batch (.writer v)
      rcases (h.handedTo hh).1 with rfl | rfl <;> simpa [HasBatch, State.take] using hv
  · rcases hh with hh | hc
    · simp [State.take, h.running, hh]
    · simp [State.take, h.running, h.hold (o := .committer) (by rw [HasBatch, hc]; rfl)]

variable [DecidableEq ω]
variable {p : Phase ω} {batch : List (Slot ω)}

lemma setWriter_writer (v : ω) : (s.setWriter w p).writer v = if v = w then p else s.writer v := by
  simp [State.setWriter, Function.update_apply]

lemma Control.keep (h : Control holder s) (hp : p.hasBatch = (s.writer w).hasBatch)
    (howes : s.committer = .waiting → ∀ batch, s.writer w ≠ .owesNotify batch) :
    Control holder (s.setWriter w p) where
  batch o := by
    rw [← h.batch]
    cases o with
    | writer v =>
      simp only [HasBatch, setWriter_writer]
      split_ifs with hv
      · rw [hv, hp]
      · rfl
    | committer => rfl
  handed := h.handed
  running := h.running
  queued := h.queued
  sleeping := h.sleeping
  owed hc hh := by
    obtain ⟨v, batch, hv⟩ := h.owed hc hh
    have hne : v ≠ w := by
      rintro rfl
      exact howes hc batch hv
    exact ⟨v, batch, by rw [setWriter_writer, if_neg hne, hv]⟩

lemma Control.gate (h : Control holder s) (ha : Enabled s .gate) : Step s .gate (next s .gate) := by
  have hawake : s.committer ≠ .waiting → s.committer ≠ .woken → s.sleeping = false :=
    fun hne hne' => Bool.eq_false_iff.2 fun hs => (h.sleeping.1 hs).elim hne hne'
  have ht := Step.take ha
  have hgate : ∀ b idle, b = false → (s.handOver = false → Step s .gate idle) →
      Step s .gate ({ s with sleeping := b }.takeIfHanded idle) := by
    rintro _ idle rfl hidle
    rw [State.takeIfHanded]
    split_ifs with hh
    · exact ht (.inl hh)
    · exact hidle (by simpa using hh)
  rcases ha with hc | hc | hc | ⟨more, hc⟩
  · simp only [next, hc]
    exact hgate _ _ (hawake (by simp [hc]) (by simp [hc])) (.spin (.inl hc))
  · simp only [next, hc]
    exact hgate _ _ (hawake (by simp [hc]) (by simp [hc])) (.sleep (.inl hc))
  · simp only [next, hc]
    exact hgate _ _ rfl (.sleep (.inr hc))
  · have hs := hawake (by simp [hc]) (by simp [hc])
    cases more with
    | false =>
      simp only [next, hc]
      exact hgate _ _ hs (.spin (.inr hc))
    | true =>
      have hnot := (h.hold (o := .committer) (by rw [HasBatch, hc]; rfl)).2
      simp only [next, hc]
      have heq : { s with handOver := false, sleeping := false } = s := by
        cases s
        simp_all
      simpa only [heq] using ht (.inr hc)

lemma Control.step_of_enabled (h : Control holder s) {a : Action ω} (ha : Enabled s a) : Step s a (next s a) := by
  cases a with
  | submit w =>
    simp only [next, State.submit]
    split_ifs with hr
    · exact .wait ha hr
    · exact .inline ha (by simpa using hr)
  | execute w =>
    obtain ⟨batch, hw⟩ := ha
    simpa only [next, hw] using Step.execute hw
  | finish w =>
    obtain ⟨batch, hw⟩ := ha
    simp only [next, hw, State.finish]
    split_ifs with hq hs
    · exact .owe hw hq
    · exact .handOver hw hq (by simpa using hs)
    · exact .stop hw (not_not.1 hq)
  | notify w =>
    obtain ⟨batch, hw⟩ := ha
    simpa only [next, hw] using Step.notify hw
  | release w =>
    obtain ⟨slot, rest, hw⟩ := ha
    simpa only [next, hw] using Step.release hw
  | leave w => exact .leave ha
  | gate => exact h.gate ha
  | spuriousWake => exact .spuriousWake
  | committerExecute =>
    obtain ⟨batch, hc⟩ := ha
    simpa only [next, hc] using Step.committerExecute hc
  | committerFinish =>
    obtain ⟨batch, hc⟩ := ha
    simp only [next, hc]
    split_ifs with hq
    · exact .committerMore hc hq
    · exact .committerStop hc (not_not.1 hq)
  | committerRelease =>
    obtain ⟨slot, rest, more, hc⟩ := ha
    simpa only [next, hc] using Step.committerRelease hc

omit [DecidableEq ω] in
lemma Control.moveCommitter (h : Control holder s) {c : Committer ω} (hc : c.hasBatch = s.committer.hasBatch)
    (hs : (c = .waiting ∨ c = .woken) ↔ (s.committer = .waiting ∨ s.committer = .woken)) (hw : c ≠ .waiting) :
    Control holder { s with committer := c } where
  batch o := by
    rw [← h.batch o]
    cases o with
    | writer v => rfl
    | committer => simp [HasBatch, hc]
  handed := h.handed
  running := h.running
  queued := h.queued
  sleeping := h.sleeping.trans hs.symm
  owed hc' := absurd hc' hw

omit [DecidableEq ω] in
lemma Control.wake (h : Control holder s) : Control holder s.wake := by
  rw [State.wake]
  split
  · next hc => exact h.moveCommitter (by rw [hc]; rfl) (by simp [hc]) (by simp)
  · next hne => exact h.moveCommitter rfl Iff.rfl hne

/-- The thread that may have the batch moves: it has one after, or nobody has. -/
lemma Control.moved (h : Control holder s) (hh : holder = none ∨ holder = some (.writer w)) (o : Owner ω) :
    HasBatch (s.setWriter w p) o ↔ (if p.hasBatch then some (.writer w) else none) = some o := by
  have ho := h.batch o
  cases o with
  | committer =>
    have hne : holder ≠ some .committer := by rcases hh with rfl | rfl <;> simp
    simp only [hne, iff_false] at ho
    exact iff_of_false ho (by split_ifs <;> simp)
  | writer v =>
    by_cases hv : v = w
    · cases hp : p.hasBatch <;> simp [HasBatch, hv, hp]
    · have hne : holder ≠ some (.writer v) := by rcases hh with rfl | rfl <;> simp [Ne.symm hv]
      simp only [hne, iff_false, HasBatch] at ho
      cases p.hasBatch <;> simp [HasBatch, hv, Ne.symm, ho]

omit [DecidableEq ω] in
lemma Control.record (h : Control holder s) (submitted : ω → ℕ) (released queued executed : List (Slot ω)) :
    Control holder { s with submitted, released, queued, executed } :=
  ⟨h.batch, h.handed, h.running, h.queued, h.sleeping, h.owed⟩

lemma Control.step (h : Control holder s) {a : Action ω} (hst : Step s a t) : Control (nextHolder s holder a) t := by
  cases hst with
  | wait hw hr =>
    have hk := h.keep (p := .waiting) (by rw [hw]; rfl) (by simp [hw])
    rw [nextHolder, if_pos hr]
    exact ⟨hk.batch, h.handed, h.running, fun _ => hr, h.sleeping, hk.owed⟩
  | inline hw hr =>
    obtain ⟨rfl, hnot⟩ := h.free hr
    rw [nextHolder, if_neg (by simp [hr])]
    exact ⟨h.moved (p := .running _) (.inl rfl), fun hh => absurd (hnot.symm.trans hh) Bool.false_ne_true, rfl,
      fun hq => absurd rfl hq, h.sleeping, fun _ hh => absurd (hnot.symm.trans hh) Bool.false_ne_true⟩
  | @execute w batch hw => exact (h.keep (p := .ran batch) (by rw [hw]; rfl) (by simp [hw])).record _ _ _ _
  | @owe w batch hw hq =>
    obtain ⟨rfl, -⟩ := h.hold (o := .writer w) (by rw [HasBatch, hw]; rfl)
    exact ⟨h.moved (p := .owesNotify batch) (.inr rfl), fun _ => rfl, h.running, h.queued, h.sleeping,
      fun _ _ => ⟨w, batch, by simp⟩⟩
  | @handOver w batch hw hq hs =>
    obtain ⟨rfl, -⟩ := h.hold (o := .writer w) (by rw [HasBatch, hw]; rfl)
    refine ⟨h.moved (p := .releasing _) (.inr rfl), fun _ => rfl, h.running, h.queued, h.sleeping, fun hc => ?_⟩
    exact absurd (hs.symm.trans (h.sleeping.2 (.inl hc))) Bool.false_ne_true
  | @stop w batch hw hq =>
    obtain ⟨rfl, hnot⟩ := h.hold (o := .writer w) (by rw [HasBatch, hw]; rfl)
    exact ⟨h.moved (p := .releasing _) (.inr rfl), fun _ => rfl, hnot.symm, fun hne => absurd hq hne, h.sleeping,
      fun _ hh => absurd (hnot.symm.trans hh) Bool.false_ne_true⟩
  | @notify w batch hw =>
    have hawake : s.wake.committer ≠ .waiting := by
      simp only [State.wake]
      split <;> simp_all
    exact h.wake.keep (w := w) (by rw [show s.wake.writer w = _ from hw]; rfl) (fun hc => absurd hc hawake)
  | @release w slot rest hw =>
    exact (h.keep (p := .releasing rest) (by rw [hw]; rfl) (by simp [hw])).record _ _ _ _
  | leave ha =>
    refine h.keep ?_ ?_
    · rcases ha with hw | ⟨hw, -⟩ <;> rw [hw] <;> rfl
    · rcases ha with hw | ⟨hw, -⟩ <;> simp [hw]
  | spin hc hh =>
    have hn : nextHolder s holder .gate = holder := by rcases hc with hc | hc <;> simp [nextHolder, hc, hh]
    rw [hn]
    rcases hc with hc | hc <;> exact h.moveCommitter (by rw [hc]; rfl) (by simp [hc]) (by simp)
  | sleep hc hh =>
    have hb : s.committer.hasBatch = false := by rcases hc with hc | hc <;> rw [hc] <;> rfl
    have hn : nextHolder s holder .gate = holder := by rcases hc with hc | hc <;> simp [nextHolder, hc, hh]
    rw [hn]
    refine ⟨fun o => ?_, h.handed, h.running, h.queued, by simp [State.sleep],
      fun _ hh' => absurd (hh.symm.trans hh') Bool.false_ne_true⟩
    rw [← h.batch]
    cases o with
    | writer v => rfl
    | committer => exact iff_of_false nofun (by simp [HasBatch, hb])
  | take ha hh =>
    rw [(h.handedTo hh).2]
    exact h.take hh
  | spuriousWake => exact h.wake
  | @committerExecute batch hc =>
    exact (h.moveCommitter (c := .ran batch) (by rw [hc]; rfl) (by simp [hc]) (by simp)).record _ _ _ _
  | committerMore hc hq =>
    rw [nextHolder, if_neg hq]
    exact h.moveCommitter (by rw [hc]; rfl) (by simp [hc]) (by simp)
  | committerStop hc hq =>
    obtain ⟨rfl, hnot⟩ := h.hold (o := .committer) (by rw [HasBatch, hc]; rfl)
    rw [nextHolder, if_pos hq]
    refine ⟨fun o => ?_, fun _ => rfl, hnot.symm, fun hne => absurd hq hne, by simp [h.sleeping, hc], nofun⟩
    cases o with
    | writer v => simpa [HasBatch] using h.batch (.writer v)
    | committer => simp [HasBatch, Committer.hasBatch]
  | @committerRelease slot rest more hc =>
    exact (h.moveCommitter (c := .releasing rest more) (by rw [hc]; cases more <;> rfl) (by simp [hc]) (by simp)).record _ _ _ _

end Control

end Bytecask.WriteGroup
