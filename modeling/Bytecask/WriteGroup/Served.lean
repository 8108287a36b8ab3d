import Bytecask.WriteGroup.Log

/-! Where each slot is until its submit returns. -/

namespace Bytecask.WriteGroup

open List

variable {ω : Type}

def Phase.carried : Phase ω → List (Slot ω)
  | .running batch | .ran batch | .owesNotify batch | .releasing batch => batch
  | _ => []

def Committer.carried : Committer ω → List (Slot ω)
  | .running batch | .ran batch | .releasing batch _ => batch
  | _ => []

def State.carried (s : State ω) : Owner ω → List (Slot ω)
  | .writer w => (s.writer w).carried
  | .committer => s.committer.carried

def Phase.done : Phase ω → List (Slot ω)
  | .ran batch | .owesNotify batch | .releasing batch => batch
  | _ => []

def Committer.done : Committer ω → List (Slot ω)
  | .ran batch | .releasing batch _ => batch
  | _ => []

def State.done (s : State ω) : Owner ω → List (Slot ω)
  | .writer w => (s.writer w).done
  | .committer => s.committer.done

def Pending (s : State ω) (slot : Slot ω) : Prop :=
  slot ∈ s.released ∨ slot ∈ s.queue ∨ ∃ o, slot ∈ s.carried o

def Returned (s : State ω) (slot : Slot ω) : Prop :=
  slot.2 + 1 < s.submitted slot.1 ∨ slot.2 + 1 = s.submitted slot.1 ∧ s.writer slot.1 = .outside

structure Slots (s : State ω) : Prop where
  done : ∀ o, s.done o ⊆ s.executed
  released : s.released ⊆ s.executed
  inline : ∀ w, s.writer w ≠ .outside → s.writer w ≠ .waiting → s.own w ∈ (s.writer w).unexecuted ++ s.executed
  waiting : ∀ w, s.writer w = .waiting → Pending s (s.own w)
  returned : ∀ slot, Returned s slot → slot ∈ s.executed

section Slots

variable [DecidableEq ω] {s t : State ω} {a : Action ω}
variable {w : ω} {slot : Slot ω} {holder : Option (Owner ω)}

def Action.actor : Action ω → Option ω
  | .submit w | .execute w | .finish w | .notify w | .release w | .leave w => some w
  | _ => none

lemma writer_of_other (hst : Step s a t) (hw : a.actor ≠ some w) : t.writer w = s.writer w ∧ t.submitted w = s.submitted w := by
  have hne : ∀ v, a.actor = some v → w ≠ v := fun v hv h => hw (h ▸ hv)
  cases hst <;> first | exact ⟨rfl, rfl⟩ | simp [State.enqueue, State.wake, hne _ rfl]

lemma executed_mono (hst : Step s a t) : s.executed ⊆ t.executed := by
  cases hst <;> simp [State.enqueue, State.take, State.sleep, State.wake]

omit [DecidableEq ω] in
lemma done_wake : s.wake.committer.done = s.committer.done := by
  simp only [State.wake]
  split
  · next hc => rw [hc]; rfl
  · rfl

omit [DecidableEq ω] in
lemma carried_wake : s.wake.committer.carried = s.committer.carried := by
  simp only [State.wake]
  split
  · next hc => rw [hc]; rfl
  · rfl

lemma released_cases (hst : Step s a t) :
    t.released = s.released ∨ ∃ o, ∃ slot ∈ s.done o, t.released = slot :: s.released := by
  cases hst with
  | @release w slot rest hw => exact .inr ⟨.writer w, slot, by simp [State.done, hw, Phase.done], rfl⟩
  | @committerRelease slot rest more hc => exact .inr ⟨.committer, slot, by simp [State.done, hc, Committer.done], rfl⟩
  | _ => exact .inl rfl

/-- Nothing is done but what was, or is executed now. -/
lemma done_step (hst : Step s a t) (o : Owner ω) : t.done o ⊆ s.done o ++ t.executed := by
  cases o with
  | committer =>
    cases hst with
    | notify | spuriousWake => simp [State.done, done_wake]
    | committerExecute hc => simp [State.done, Committer.done]
    | committerMore hc | committerStop hc | committerRelease hc => simp [State.done, Committer.done, hc]
    | _ => simp [State.done, State.sleep, State.take, State.enqueue, Committer.done]
  | writer v =>
    by_cases hv : a.actor = some v
    · cases hst <;> simp only [Action.actor, Option.some.injEq, reduceCtorEq] at hv <;> subst hv
      case execute hw => simp [State.done, Phase.done]
      case owe hw _ => simp [State.done, Phase.done, hw]
      case handOver hw _ _ | stop hw _ | notify hw =>
        intro slot hs
        simp only [State.done, State.wake, State.setWriter_writer, Function.update_self, Phase.done, State.mem_others] at hs
        simp [State.done, Phase.done, hw, hs]
      case release hw => simp [State.done, Phase.done, hw]
      all_goals simp [State.done, Phase.done]
    · rw [State.done, (writer_of_other hst hv).1]
      exact subset_append_left _ _

lemma released_mono (hst : Step s a t) : s.released ⊆ t.released := by
  rcases released_cases hst with h | ⟨o, slot, -, h⟩ <;> simp [h]

/-- A slot that is pending stays so until its own writer moves. -/
lemma Pending.step (h : Pending s slot) (hst : Step s a t) (hw : a.actor ≠ some slot.1) : Pending t slot := by
  rcases h with hr | hq | ⟨o, ho⟩
  · exact .inl (released_mono hst hr)
  · cases hst with
    | @inline w => exact .inr (.inr ⟨.writer w, by simp [State.carried, Phase.carried, hq]⟩)
    | take => exact .inr (.inr ⟨.committer, hq⟩)
    | wait => exact .inr (.inl (by simp [State.enqueue, hq]))
    | _ => exact .inr (.inl hq)
  · have hcarried : slot ∈ t.carried o → Pending t slot := fun hc => .inr (.inr ⟨o, hc⟩)
    cases o with
    | committer =>
      cases hst with
      | notify | spuriousWake => exact hcarried (by rwa [State.carried, carried_wake])
      | spin hc | sleep hc => rcases hc with hc | hc <;> simp [State.carried, Committer.carried, hc] at ho
      | take hc => rcases hc with hc | hc | hc | ⟨more, hc⟩ <;> simp [State.carried, Committer.carried, hc] at ho
      | committerExecute hc | committerMore hc | committerStop hc =>
        rw [State.carried, hc] at ho
        exact hcarried ho
      | committerRelease hc =>
        rw [State.carried, hc] at ho
        rcases mem_cons.1 ho with rfl | ho
        · exact .inl mem_cons_self
        · exact hcarried ho
      | _ => exact hcarried ho
    | writer v =>
      by_cases hv : a.actor = some v
      · have hne : slot ≠ s.own v := fun heq => hw (by rw [hv, heq]; rfl)
        rw [State.carried] at ho hcarried
        cases hst <;> simp only [Action.actor, Option.some.injEq, reduceCtorEq] at hv <;> subst hv
        case wait hout _ | inline hout _ => simp [hout, Phase.carried] at ho
        case _ hv | owe hv _ =>
          rw [hv] at ho
          exact hcarried (by simpa [Phase.carried] using ho)
        case _ hv _ _ | stop hv _ | notify hv =>
          rw [hv] at ho
          exact hcarried (by simpa [State.wake, Phase.carried, State.mem_others] using ⟨ho, hne⟩)
        case _ hv =>
          rw [hv] at ho
          rcases mem_cons.1 ho with rfl | ho
          · exact .inl mem_cons_self
          · exact hcarried (by simpa [Phase.carried] using ho)
        case leave ha => rcases ha with hv | ⟨hv, -⟩ <;> simp [hv, Phase.carried] at ho
      · exact hcarried (by rwa [State.carried, (writer_of_other hst hv).1])

lemma Slots.inline_step (h : Slots s) (hst : Step s a t) (hv : a.actor = some w) (hout : t.writer w ≠ .outside)
    (hwait : t.writer w ≠ .waiting) : t.own w ∈ (t.writer w).unexecuted ++ t.executed := by
  have hown := h.inline w
  cases hst <;> simp only [Action.actor, Option.some.injEq, reduceCtorEq] at hv <;> subst hv
  case wait => simp at hwait
  case inline => simp [State.own, State.enqueue, Phase.unexecuted]
  case leave => simp at hout
  case execute hw =>
    rw [hw] at hown
    simpa [Phase.unexecuted, State.own, or_comm] using hown
  case owe hw _ | handOver hw _ _ | stop hw _ | notify hw | release hw =>
    rw [hw] at hown
    simpa [Phase.unexecuted, State.own, State.wake] using hown

lemma waiting_step (hst : Step s a t) (hv : a.actor = some w) (hwait : t.writer w = .waiting) : Pending t (t.own w) := by
  cases hst <;> simp only [Action.actor, Option.some.injEq, reduceCtorEq] at hv <;> subst hv
  case wait => exact .inr (.inl (by simp [State.own, State.enqueue]))
  all_goals simp [State.wake] at hwait

omit [DecidableEq ω] in
lemma Slots.returned_leave (h : Slots s) (ha : Enabled s (.leave w)) : s.own w ∈ s.executed := by
  rcases ha with hw | ⟨-, hr⟩
  · have hown := h.inline w (by simp [hw]) (by simp [hw])
    rwa [hw] at hown
  · exact h.released hr

lemma Slots.returned_step (h : Slots s) (hst : Step s a t) (hv : a.actor = some w) {k : ℕ} (hk : Returned t (w, k)) :
    (w, k) ∈ t.executed := by
  have hm := executed_mono hst
  rw [Returned] at hk
  cases hst <;> simp only [Action.actor, Option.some.injEq, reduceCtorEq] at hv <;> subst hv
  case wait hw _ | inline hw _ =>
    refine hm (h.returned _ ?_)
    simp only [State.setWriter, State.enqueue, Function.update_self, reduceCtorEq, and_false, or_false] at hk
    simp only [Returned, hw, and_true]
    omega
  case leave w ha =>
    rcases hk with hk | ⟨hk, -⟩
    · exact h.returned _ (.inl hk)
    · have hown : (w, k) = s.own w := by simp [State.own, ← show k + 1 = s.submitted w from hk]
      rw [hown]
      exact h.returned_leave ha
  all_goals exact hm (h.returned _ (.inl (by simpa [State.wake] using hk)))

lemma Slots.step (h : Slots s) (hst : Step s a t) : Slots t where
  done o := by
    intro slot hs
    rcases mem_append.1 (done_step hst o hs) with hs | hs
    · exact executed_mono hst (h.done o hs)
    · exact hs
  released := by
    have hr := List.Subset.trans h.released (executed_mono hst)
    rcases released_cases hst with heq | ⟨o, slot, hs, heq⟩ <;> rw [heq]
    · exact hr
    · exact cons_subset.2 ⟨executed_mono hst (h.done o hs), hr⟩
  inline v := by
    by_cases hv : a.actor = some v
    · exact h.inline_step hst hv
    · obtain ⟨hw, hn⟩ := writer_of_other hst hv
      intro hout hwait
      rw [hw] at hout hwait
      have hown := h.inline v hout hwait
      simp only [State.own, hw, hn, mem_append] at hown ⊢
      exact hown.imp_right (executed_mono hst ·)
  waiting v := by
    by_cases hv : a.actor = some v
    · exact waiting_step hst hv
    · obtain ⟨hw, hn⟩ := writer_of_other hst hv
      intro hwait
      rw [hw] at hwait
      have hp := (h.waiting v hwait).step hst hv
      simpa only [State.own, hn] using hp
  returned slot := by
    obtain ⟨v, k⟩ := slot
    by_cases hv : a.actor = some v
    · exact h.returned_step hst hv
    · obtain ⟨hw, hn⟩ := writer_of_other hst hv
      intro hk
      simp only [Returned, hw, hn] at hk
      exact executed_mono hst (h.returned _ hk)

omit [DecidableEq ω] in
lemma Slots.start : Slots ({} : State ω) where
  done o := by cases o <;> simp [State.done, Phase.done, Committer.done]
  released := by simp
  inline w hw := absurd rfl hw
  waiting w hw := by cases hw
  returned slot hr := by simp [Returned] at hr

def Action.Internal : Action ω → Prop
  | .submit _ | .spuriousWake => False
  | _ => True

omit [DecidableEq ω] in
lemma writer_enabled (hout : s.writer w ≠ .outside) (hwait : s.writer w ≠ .waiting) : ∃ a : Action ω, a.Internal ∧ Enabled s a := by
  match hw : s.writer w with
  | .outside => exact absurd hw hout
  | .waiting => exact absurd hw hwait
  | .running batch => exact ⟨.execute w, trivial, batch, hw⟩
  | .ran batch => exact ⟨.finish w, trivial, batch, hw⟩
  | .owesNotify batch => exact ⟨.notify w, trivial, batch, hw⟩
  | .releasing [] => exact ⟨.leave w, trivial, .inl hw⟩
  | .releasing (slot :: rest) => exact ⟨.release w, trivial, slot, rest, hw⟩

omit [DecidableEq ω] in
lemma committer_enabled (hwait : s.committer ≠ .waiting) : ∃ a : Action ω, a.Internal ∧ Enabled s a := by
  match hc : s.committer with
  | .waiting => exact absurd hc hwait
  | .top => exact ⟨.gate, trivial, .inl hc⟩
  | .spun => exact ⟨.gate, trivial, .inr (.inl hc)⟩
  | .woken => exact ⟨.gate, trivial, .inr (.inr (.inl hc))⟩
  | .running batch => exact ⟨.committerExecute, trivial, batch, hc⟩
  | .ran batch => exact ⟨.committerFinish, trivial, batch, hc⟩
  | .releasing [] more => exact ⟨.gate, trivial, .inr (.inr (.inr ⟨more, hc⟩))⟩
  | .releasing (slot :: rest) more => exact ⟨.committerRelease, trivial, slot, rest, more, hc⟩

omit [DecidableEq ω] in
lemma carried_enabled {o : Owner ω} (h : slot ∈ s.carried o) : ∃ a : Action ω, a.Internal ∧ Enabled s a := by
  cases o with
  | writer w =>
    apply writer_enabled (w := w) <;>
    · intro hw
      simp [State.carried, hw, Phase.carried] at h
  | committer =>
    apply committer_enabled
    intro hc
    simp [State.carried, hc, Committer.carried] at h

omit [DecidableEq ω] in
lemma Control.attended (h : Control holder s) (hq : s.queue ≠ []) :
    (∃ o, HasBatch s o) ∨ s.handOver = true ∧ (s.committer ≠ .waiting ∨ OwesNotify s) := by
  have hrun := h.running
  rw [h.queued hq, eq_comm, Bool.or_eq_true] at hrun
  rcases hrun with hb | hh
  · obtain ⟨o, ho⟩ := Option.isSome_iff_exists.1 hb
    exact .inl ⟨o, (h.batch o).2 ho⟩
  · by_cases hc : s.committer = .waiting
    · exact .inr ⟨hh, .inr (h.owed hc hh)⟩
    · exact .inr ⟨hh, .inl hc⟩

omit [DecidableEq ω] in
lemma attended_enabled (h : (∃ o, HasBatch s o) ∨ s.handOver = true ∧ (s.committer ≠ .waiting ∨ OwesNotify s)) :
    ∃ a : Action ω, a.Internal ∧ Enabled s a := by
  rcases h with ⟨o, ho⟩ | ⟨-, hc | ⟨w, batch, hw⟩⟩
  · cases o with
    | writer w =>
      apply writer_enabled (w := w) <;>
      · intro hw
        simp [HasBatch, hw, Phase.hasBatch] at ho
    | committer =>
      apply committer_enabled
      intro hc
      simp [HasBatch, hc, Committer.hasBatch] at ho
  · exact committer_enabled hc
  · exact ⟨.notify w, trivial, batch, hw⟩

omit [DecidableEq ω] in
lemma Slots.progress (h : Slots s) (hc : Control holder s)
    (hw : s.writer w ≠ .outside) : ∃ a : Action ω, a.Internal ∧ Enabled s a := by
  by_cases hwait : s.writer w = .waiting
  · rcases h.waiting w hwait with hr | hq | ⟨o, ho⟩
    · exact ⟨.leave w, trivial, .inr ⟨hwait, hr⟩⟩
    · exact attended_enabled (hc.attended (ne_nil_of_mem hq))
    · exact carried_enabled ho
  · exact writer_enabled hw hwait

lemma reachable_invariant (h : (machine ω).Reachable s) : ∃ holder, Control holder s ∧ Log holder s ∧ Slots s := by
  refine Machine.Reachable.invariant (I := fun s => ∃ holder, Control holder s ∧ Log holder s ∧ Slots s) h ?_ ?_
  · rintro _ rfl
    exact ⟨none, Control.start, ⟨rfl, nodup_nil, by simp⟩, Slots.start⟩
  · rintro t a ⟨holder, hc, hl, hs⟩ ha
    have hst := hc.step_of_enabled ha
    exact ⟨nextHolder t holder a, hc.step hst, hl.step hc hst, hs.step hst⟩

/-- The group loses no slot: one batch at a time, a queue that always has someone to run it, every slot run
once, in the order of the queue and before its submit returns, and no deadlock. -/
theorem slots_served (h : (machine ω).Reachable s) :
    (∀ o o', HasBatch s o → HasBatch s o' → o = o') ∧
    (s.queue ≠ [] → s.running = true ∧
      ((∃ o, HasBatch s o) ∨ s.handOver = true ∧ (s.committer ≠ .waiting ∨ OwesNotify s))) ∧
    ((∀ slot, slot ∈ s.queued ↔ slot.2 < s.submitted slot.1) ∧ s.queued.Nodup ∧
      (∃ taken, s.executed ++ taken ++ s.queue = s.queued) ∧ ∀ slot, Returned s slot → slot ∈ s.executed) ∧
    ∀ w, s.writer w ≠ .outside → ∃ a : Action ω, a.Internal ∧ Enabled s a := by
  obtain ⟨holder, hc, hl, hs⟩ := reachable_invariant h
  refine ⟨fun o o' ho ho' => ?_, fun hq => ⟨hc.queued hq, hc.attended hq⟩,
    ⟨hl.below, hl.nodup, ⟨_, hl.order⟩, hs.returned⟩, fun w => hs.progress hc⟩
  have heq := ((hc.batch o).1 ho).symm.trans ((hc.batch o').1 ho')
  exact Option.some.inj heq

def handedOver : State (Fin 2) :=
  next (next (next (next (next (next {} .gate) .gate) (.submit 0)) (.submit 1)) (.execute 0)) (.finish 0)

theorem handedOver_served : (machine (Fin 2)).Reachable handedOver ∧ handedOver.queue = [(1, 0)] ∧
    handedOver.committer = .waiting ∧ ((∃ o, HasBatch handedOver o) ∨
      handedOver.handOver = true ∧ (handedOver.committer ≠ .waiting ∨ OwesNotify handedOver)) := by
  have hr : (machine (Fin 2)).Reachable handedOver := by
    have h₀ : (machine (Fin 2)).Reachable {} := .start rfl
    have h₁ := h₀.step Action.gate (.inl rfl)
    have h₂ := h₁.step Action.gate (.inr (.inl rfl))
    have h₃ := h₂.step (Action.submit 0) rfl
    have h₄ := h₃.step (Action.submit 1) rfl
    have h₅ := h₄.step (Action.execute 0) ⟨_, rfl⟩
    exact h₅.step (Action.finish 0) ⟨_, rfl⟩
  have hq : handedOver.queue = [(1, 0)] := rfl
  exact ⟨hr, hq, rfl, ((slots_served hr).2.1 (by simp [hq])).2⟩

end Slots

end Bytecask.WriteGroup
