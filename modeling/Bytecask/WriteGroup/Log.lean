import Bytecask.WriteGroup.Control

/-! The order in which the executor runs the slots. -/

namespace Bytecask.WriteGroup

variable {ω : Type}

def Phase.unexecuted : Phase ω → List (Slot ω)
  | .running batch => batch
  | _ => []

def Committer.unexecuted : Committer ω → List (Slot ω)
  | .running batch => batch
  | _ => []

def unexecuted (s : State ω) : Option (Owner ω) → List (Slot ω)
  | some (.writer w) => (s.writer w).unexecuted
  | some .committer => s.committer.unexecuted
  | none => []

structure Log (holder : Option (Owner ω)) (s : State ω) : Prop where
  order : s.executed ++ unexecuted s holder ++ s.queue = s.queued
  nodup : s.queued.Nodup
  below : ∀ slot, slot ∈ s.queued ↔ slot.2 < s.submitted slot.1

section Log

variable {s t : State ω} {holder holder' : Option (Owner ω)}

lemma unexecuted_congr (hw : ∀ w, (t.writer w).unexecuted = (s.writer w).unexecuted)
    (hc : t.committer.unexecuted = s.committer.unexecuted) : unexecuted t holder = unexecuted s holder := by
  match holder with
  | none => rfl
  | some (.writer v) => exact hw v
  | some .committer => exact hc

lemma unexecuted_wake : s.wake.committer.unexecuted = s.committer.unexecuted := by
  simp only [State.wake]
  split
  · next hc => rw [hc]; rfl
  · rfl

lemma Log.keep (h : Log holder s) (hu : unexecuted t holder' = unexecuted s holder) (hqueue : t.queue = s.queue)
    (hqueued : t.queued = s.queued) (he : t.executed = s.executed) (hs : t.submitted = s.submitted) : Log holder' t where
  order := by
    rw [hu, hqueue, hqueued, he]
    exact h.order
  nodup := hqueued ▸ h.nodup
  below := by
    rw [hqueued, hs]
    exact h.below

variable [DecidableEq ω]

lemma setWriter_unexecuted {w : ω} {p : Phase ω} (hp : p.unexecuted = (s.writer w).unexecuted) (v : ω) :
    ((s.setWriter w p).writer v).unexecuted = (s.writer v).unexecuted := by
  rw [setWriter_writer]
  split_ifs with hv
  · rw [hv, hp]
  · rfl

lemma Log.enqueue (h : Log holder s) (w : ω) : (s.enqueue w).queued.Nodup ∧
    ∀ slot, slot ∈ (s.enqueue w).queued ↔ slot.2 < (s.enqueue w).submitted slot.1 := by
  have hfresh : (w, s.submitted w) ∉ s.queued := fun hm => lt_irrefl _ ((h.below _).1 hm)
  refine ⟨?_, ?_⟩
  · show (s.queued ++ [(w, s.submitted w)]).Nodup
    rw [← List.concat_eq_append]
    exact h.nodup.concat hfresh
  · rintro ⟨v, k⟩
    simp only [State.enqueue]
    rw [List.mem_append, List.mem_singleton, h.below]
    by_cases hv : v = w
    · subst hv
      simp only [Prod.mk.injEq, true_and, Function.update_self]
      omega
    · simp [hv]

lemma Log.step (hc : Control holder s) (h : Log holder s) {a : Action ω} (hst : Step s a t) :
    Log (nextHolder s holder a) t := by
  have ho := h.order
  cases hst with
  | @wait w hw hr =>
    obtain ⟨hnodup, hbelow⟩ := h.enqueue w
    refine ⟨?_, hnodup, hbelow⟩
    have hu : unexecuted ((s.enqueue w).setWriter w .waiting) holder = unexecuted s holder :=
      unexecuted_congr (setWriter_unexecuted (congrArg Phase.unexecuted hw).symm) rfl
    rw [nextHolder, if_pos hr, hu]
    simp [State.enqueue, ← ho]
  | @inline w hw hr =>
    obtain ⟨hnodup, hbelow⟩ := h.enqueue w
    obtain ⟨rfl, -⟩ := hc.free hr
    refine ⟨?_, hnodup, hbelow⟩
    simp [nextHolder, hr, unexecuted, Phase.unexecuted, State.enqueue, ← ho]
  | @execute w batch hw =>
    obtain ⟨rfl, -⟩ := hc.hold (o := .writer w) (by rw [HasBatch, hw]; rfl)
    refine ⟨?_, h.nodup, h.below⟩
    simpa [nextHolder, unexecuted, hw, Phase.unexecuted] using ho
  | @owe w batch hw | @handOver w batch hw | @stop w batch hw =>
    obtain ⟨rfl, -⟩ := hc.hold (o := .writer w) (by rw [HasBatch, hw]; rfl)
    exact h.keep (by simp [unexecuted, hw, Phase.unexecuted, nextHolder]) rfl rfl rfl rfl
  | notify hw =>
    exact h.keep (unexecuted_congr (setWriter_unexecuted (by rw [hw]; rfl)) unexecuted_wake) rfl rfl rfl rfl
  | release hw => exact h.keep (unexecuted_congr (setWriter_unexecuted (by rw [hw]; rfl)) rfl) rfl rfl rfl rfl
  | leave ha =>
    refine h.keep (unexecuted_congr (setWriter_unexecuted ?_) rfl) rfl rfl rfl rfl
    rcases ha with hw | ⟨hw, -⟩ <;> rw [hw] <;> rfl
  | spin hg hh | sleep hg hh =>
    have hn : nextHolder s holder .gate = holder := by rcases hg with hg | hg <;> simp [nextHolder, hg, hh]
    rw [hn]
    refine h.keep (unexecuted_congr (fun _ => rfl) ?_) rfl rfl rfl rfl
    rcases hg with hg | hg <;> rw [hg] <;> rfl
  | take ha hh =>
    obtain ⟨hholder, hn⟩ := hc.handedTo hh
    have hu : unexecuted s holder = [] := by
      rcases hholder with rfl | rfl
      · rfl
      · rcases ha with hg | hg | hg | ⟨more, hg⟩ <;> simp [unexecuted, hg, Committer.unexecuted]
    rw [hu, List.append_nil] at ho
    refine ⟨?_, h.nodup, h.below⟩
    simpa [hn, unexecuted, State.take, Committer.unexecuted] using ho
  | spuriousWake => exact h.keep (unexecuted_congr (fun _ => rfl) unexecuted_wake) rfl rfl rfl rfl
  | committerExecute hg =>
    obtain ⟨rfl, -⟩ := hc.hold (o := .committer) (by rw [HasBatch, hg]; rfl)
    refine ⟨?_, h.nodup, h.below⟩
    simpa [nextHolder, unexecuted, hg, Committer.unexecuted] using ho
  | committerMore hg hq =>
    rw [nextHolder, if_neg hq]
    exact h.keep (unexecuted_congr (fun _ => rfl) (by rw [hg]; rfl)) rfl rfl rfl rfl
  | committerStop hg hq =>
    obtain ⟨rfl, -⟩ := hc.hold (o := .committer) (by rw [HasBatch, hg]; rfl)
    exact h.keep (by simp [nextHolder, hq, unexecuted, hg, Committer.unexecuted]) rfl rfl rfl rfl
  | committerRelease hg => exact h.keep (unexecuted_congr (fun _ => rfl) (by rw [hg]; rfl)) rfl rfl rfl rfl

end Log

end Bytecask.WriteGroup
