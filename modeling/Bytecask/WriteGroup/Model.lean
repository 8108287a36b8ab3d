import Bytecask.Lib.Machine

/-! The write group: writers queue their slots, the one that finds no batch running runs the queue
itself, and what queued meanwhile goes to the committer. Each action is one hold of the queue's mutex,
one notify, the executor's run or the release of one slot. -/

namespace Bytecask.WriteGroup

variable {ω : Type}

abbrev Slot (ω : Type) := ω × ℕ

inductive Phase (ω : Type) where
  | outside
  | waiting
  | running (batch : List (Slot ω))
  | ran (batch : List (Slot ω))
  | owesNotify (batch : List (Slot ω))
  | releasing (rest : List (Slot ω))

/-- Where the committer is in `committer_loop`; `more` is what it read of the queue with the lock. -/
inductive Committer (ω : Type) where
  | top
  | spun
  | waiting
  | woken
  | running (batch : List (Slot ω))
  | ran (batch : List (Slot ω))
  | releasing (rest : List (Slot ω)) (more : Bool)

/-- The last two fields record what happened: the slots in the order they were queued, and those the
executor has run. -/
structure State (ω : Type) where
  queue : List (Slot ω) := []
  running : Bool := false
  handOver : Bool := false
  sleeping : Bool := false
  writer : ω → Phase ω := fun _ => .outside
  committer : Committer ω := .top
  submitted : ω → ℕ := fun _ => 0
  released : List (Slot ω) := []
  queued : List (Slot ω) := []
  executed : List (Slot ω) := []

inductive Action (ω : Type) where
  | submit (w : ω)
  | execute (w : ω)
  | finish (w : ω)
  | notify (w : ω)
  | release (w : ω)
  | leave (w : ω)
  | gate
  | spuriousWake
  | committerExecute
  | committerFinish
  | committerRelease

namespace State

def own (s : State ω) (w : ω) : Slot ω := (w, s.submitted w - 1)

def take (s : State ω) : State ω := { s with queue := [], committer := .running s.queue }

def takeIfHanded (s : State ω) (idle : State ω) : State ω :=
  if s.handOver then { s with handOver := false }.take else idle

def sleep (s : State ω) : State ω := { s with sleeping := true, committer := .waiting }

/-- A wake-up reaches the committer only inside `wait()`. -/
def wake (s : State ω) : State ω :=
  { s with committer := match s.committer with
      | .waiting => .woken
      | c => c }

end State

def Enabled (s : State ω) : Action ω → Prop
  | .submit w => s.writer w = .outside
  | .execute w => ∃ batch, s.writer w = .running batch
  | .finish w => ∃ batch, s.writer w = .ran batch
  | .notify w => ∃ batch, s.writer w = .owesNotify batch
  | .release w => ∃ slot rest, s.writer w = .releasing (slot :: rest)
  | .leave w => s.writer w = .releasing [] ∨ (s.writer w = .waiting ∧ s.own w ∈ s.released)
  | .gate => s.committer = .top ∨ s.committer = .spun ∨ s.committer = .woken ∨ ∃ more, s.committer = .releasing [] more
  | .spuriousWake => s.committer = .waiting
  | .committerExecute => ∃ batch, s.committer = .running batch
  | .committerFinish => ∃ batch, s.committer = .ran batch
  | .committerRelease => ∃ slot rest more, s.committer = .releasing (slot :: rest) more

section Next

variable [DecidableEq ω]

namespace State

@[simps] def setWriter (s : State ω) (w : ω) (p : Phase ω) : State ω := { s with writer := Function.update s.writer w p }

def submit (s : State ω) (w : ω) : State ω :=
  let slot := (w, s.submitted w)
  let t := { s with
    queue := s.queue ++ [slot]
    queued := s.queued ++ [slot]
    submitted := Function.update s.submitted w (s.submitted w + 1) }
  if s.running then t.setWriter w .waiting
  else { t.setWriter w (.running t.queue) with running := true, queue := [] }

def others (s : State ω) (w : ω) (batch : List (Slot ω)) : List (Slot ω) := batch.filter (· ≠ s.own w)

lemma mem_others {s : State ω} {w : ω} {batch : List (Slot ω)} {slot : Slot ω} :
    slot ∈ s.others w batch ↔ slot ∈ batch ∧ slot ≠ s.own w := by
  simp [others]

def finish (s : State ω) (w : ω) (batch : List (Slot ω)) : State ω :=
  if s.queue ≠ [] then
    { s.setWriter w (if s.sleeping then .owesNotify batch else .releasing (s.others w batch)) with
      handOver := true }
  else { s.setWriter w (.releasing (s.others w batch)) with running := false }

end State

def next (s : State ω) : Action ω → State ω
  | .submit w => s.submit w
  | .execute w =>
    match s.writer w with
    | .running batch => { s.setWriter w (.ran batch) with executed := s.executed ++ batch }
    | _ => s
  | .finish w =>
    match s.writer w with
    | .ran batch => s.finish w batch
    | _ => s
  | .notify w =>
    match s.writer w with
    | .owesNotify batch => (s.setWriter w (.releasing (s.others w batch))).wake
    | _ => s
  | .release w =>
    match s.writer w with
    | .releasing (slot :: rest) => { s.setWriter w (.releasing rest) with released := slot :: s.released }
    | _ => s
  | .leave w => s.setWriter w .outside
  | .gate =>
    match s.committer with
    | .top => s.takeIfHanded { s with committer := .spun }
    | .spun => s.takeIfHanded s.sleep
    | .woken => { s with sleeping := false }.takeIfHanded s.sleep
    | .releasing [] true => s.take
    | .releasing [] false => s.takeIfHanded { s with committer := .spun }
    | _ => s
  | .spuriousWake => s.wake
  | .committerExecute =>
    match s.committer with
    | .running batch => { s with committer := .ran batch, executed := s.executed ++ batch }
    | _ => s
  | .committerFinish =>
    match s.committer with
    | .ran batch =>
      if s.queue ≠ [] then { s with committer := .releasing batch true }
      else { s with committer := .releasing batch false, running := false }
    | _ => s
  | .committerRelease =>
    match s.committer with
    | .releasing (slot :: rest) more => { s with committer := .releasing rest more, released := slot :: s.released }
    | _ => s

def machine (ω : Type) [DecidableEq ω] : Machine (State ω) (Action ω) where
  initial s := s = {}
  Enabled := Enabled
  next := next

end Next

end Bytecask.WriteGroup
