import Bytecask.Changes.Served

/-! A scan whose caller reads on comes to its end. -/

namespace Bytecask.Changes

namespace Scan

def asked (sc : Scan) : EngineState × ℕ × ℕ × ℕ := (sc.state, sc.fromSequence, sc.maxBytes, sc.steps)

variable (sc : Scan) (ix : ChangeIndex) (crc : Crc) (read : FileId → Bytes)

lemma handOver_asked : (sc.handOver ix).1.asked = sc.asked := by
  obtain ⟨plan, laying, pending, h⟩ := @handOver_sameWalk ix sc
  rw [h]
  rfl

lemma startUnit_asked (e : DataEntry) (offset : ℕ) : (sc.startUnit e offset ix).1.asked = sc.asked := by
  rw [startUnit]
  split_ifs
  · rfl
  · simp only
    split_ifs
    · rw [layBookmark]
      split_ifs
      · rfl
      · rfl
      · simp only
        split_ifs
        · exact handOver_asked _ ix
        · rfl
    · rfl

lemma readEntry_asked (e : DataEntry) (offset : ℕ) (rest : List (DataEntry × ℕ)) :
    (sc.readEntry e offset rest ix).1.asked = sc.asked := by
  have hstart := sc.startUnit_asked ix e offset
  rw [readEntry]
  generalize sc.startUnit e offset ix = r at hstart
  obtain ⟨sc₁, ix₁⟩ := r
  simp only
  split_ifs
  · exact hstart
  · exact (handOver_asked _ ix₁).trans hstart
  · rw [give]
    split_ifs
    · exact (handOver_asked _ ix₁).trans hstart
    · exact hstart

lemma nextFile_asked : (sc.nextFile ix).1.asked = sc.asked := by
  rw [nextFile]
  split
  · exact handOver_asked _ ix
  · exact sc.handOver_asked ix

lemma proceed_asked : (sc.proceed crc read ix).1.asked = sc.asked := by
  rw [proceed]
  split
  · split
    · exact sc.readEntry_asked ix _ _ _
    · split_ifs
      · rfl
      · exact sc.nextFile_asked ix
  · rw [openFile]
    split_ifs
    · simp only
      split_ifs <;> rfl
    · rfl
  · rw [seek]
    split
    · rfl
    · split_ifs <;> rfl
  all_goals rfl

lemma advance_asked : sc.advance.asked = sc.asked := by
  rw [advance]
  split_ifs <;> rfl

def turns : ℕ := 2 * sc.steps + if sc.phase = .paused then 0 else 1

end Scan

section ReadOn

variable {crc : Crc} {L : ChangeLog} {κ : Type} [DecidableEq κ]
variable {sys : System κ} {k : κ} {sc : Scan}

lemma readOn_turns (h : (machine crc L κ).Reachable sys) (hk : sys.scans k = some sc)
    (n : ℕ) : ∃ sc', (sys.readOn crc (L.bytes crc) k n).scans k = some sc' ∧ sc'.state = sc.state ∧
      sc'.fromSequence = sc.fromSequence ∧ sc'.maxBytes = sc.maxBytes ∧
      (sc'.phase = .ended ∨ sc.turns + n ≤ sc'.turns) := by
  induction n generalizing sys sc with
  | zero => exact ⟨sc, hk, rfl, rfl, rfl, .inr le_rfl⟩
  | succ n ih =>
    rw [System.readOn]
    simp only [hk]
    split_ifs with hend hpaused
    · exact ⟨sc, hk, rfl, rfl, rfl, .inl hend⟩
    · have hnext : (sys.next crc (L.bytes crc) (.advance k)).scans k = some sc.advance := by
        simp [System.next, hk, System.setScan]
      have hreach := h.step (.advance k : Action κ) ⟨sc, hk, hpaused⟩
      obtain ⟨sc', hk', hs, hf, hm, hturns⟩ := ih hreach hnext
      have hasked := sc.advance_asked
      simp only [Scan.asked, Prod.mk.injEq] at hasked
      refine ⟨sc', hk', hs.trans hasked.1, hf.trans hasked.2.1, hm.trans hasked.2.2.1, hturns.imp_right fun hle => ?_⟩
      have hphase : sc.advance.phase ≠ .paused := by
        rw [Scan.advance]
        split_ifs <;> simp
      have hturn : sc.advance.turns = sc.turns + 1 := by
        simp only [Scan.turns, hasked.2.2.2, hpaused, if_neg hphase, if_true]
      omega
    · have hnext : (sys.next crc (L.bytes crc) (.step k)).scans k = some (sc.step crc (L.bytes crc) sys.index).1 := by
        simp [System.next, hk, System.setScan]
      have hreach := h.step (.step k : Action κ) ⟨sc, hk, hpaused, hend⟩
      obtain ⟨sc', hk', hs, hf, hm, hturns⟩ := ih hreach hnext
      have hasked := Scan.proceed_asked { sc with steps := sc.steps + 1 } sys.index crc (L.bytes crc)
      simp only [Scan.asked, Prod.mk.injEq] at hasked
      refine ⟨sc', hk', hs.trans hasked.1, hf.trans hasked.2.1, hm.trans hasked.2.2.1, hturns.imp_right fun hle => ?_⟩
      have hsteps : (sc.step crc (L.bytes crc) sys.index).1.steps = sc.steps + 1 := hasked.2.2.2
      have hturn : sc.turns + 1 ≤ (sc.step crc (L.bytes crc) sys.index).1.turns := by
        simp only [Scan.turns, hsteps, if_neg hpaused]
        omega
      omega

lemma readOn_ends (h : (machine crc L κ).Reachable sys) (hk : sys.scans k = some sc) :
    ∃ n sc', (sys.readOn crc (L.bytes crc) k n).scans k = some sc' ∧ sc'.phase = .ended ∧ sc'.state = sc.state ∧
      sc'.fromSequence = sc.fromSequence ∧ sc'.maxBytes = sc.maxBytes := by
  obtain ⟨sc', hk', hs, hf, hm, hend | hturns⟩ :=
    readOn_turns h hk (2 * Scan.allowance L sc.state sc.fromSequence sc.maxBytes + 2)
  · exact ⟨_, sc', hk', hend, hs, hf, hm⟩
  · have hbudget := ((reachable_sound (reachable_readOn h k _)).scans k sc' hk').walks.budget
    rw [hs, hf, hm] at hbudget
    have hle : sc'.turns ≤ 2 * sc'.steps + 1 := by
      rw [Scan.turns]
      split_ifs <;> omega
    omega

end ReadOn

end Bytecask.Changes
