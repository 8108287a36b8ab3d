import Bytecask.Lib.Machine

/-! The flush role: the writers that wait for their entries to be published flush them in turn, and barrier operations
take the role before they publish. Each step is one atomic operation, one hold of `durable_mu_` or one notify. -/

namespace Bytecask.Flush

structure View where
  nextSeq : ℕ := 1
  durableSeq : ℕ := 0
  syncRequestedSeq : ℕ := 0
  degraded : Bool := false
deriving DecidableEq, Repr

structure Shared where
  head : View := {}
  state : View := {}
  flushInFlight : Bool := false
  flushError : Bool := false
  writeFault : Bool := false
  writeMu : Bool := false
deriving DecidableEq, Repr

namespace Shared

def refused (sh : Shared) (s : View) : Bool := s.degraded || sh.writeFault

/-- `store_state` with its checks: a state that goes back is not published, and degrades the one there is. -/
def storeState (sh : Shared) (old new : View) : Shared :=
  if new.nextSeq < old.nextSeq ∨ new.durableSeq < old.durableSeq ∨ new.durableSeq < new.syncRequestedSeq then
    { sh with state := { sh.state with degraded := true } }
  else { sh with state := new }

end Shared

def View.wakes (old new : View) : Bool :=
  old.durableSeq < new.durableSeq || old.nextSeq < new.nextSeq || (new.degraded && !old.degraded) ||
    new.nextSeq < old.nextSeq || new.durableSeq < old.durableSeq || new.durableSeq < new.syncRequestedSeq

inductive Refuse where
  | fault
  | publish
  | notify
deriving DecidableEq, Repr

inductive Pending where
  | loadHead
  | loadState (head : View)
  | sync (head published : View)
  | publish (head published : View) (synced : Bool)
  | notify
  | failed (published : View)
  | degrade (published : View)
  | threw
  | refuse (r : Refuse) (threw : Bool)
  | ended (threw : Bool)
deriving DecidableEq, Repr

inductive Writer where
  | check
  | loaded (published : View)
  | error (refusing : Bool)
  | take
  | park
  | parked
  | woken
  | flush (f : Pending)
  | release
  | notify
deriving DecidableEq, Repr

/-- Where a thread is that runs under `write_mu_`: a group of writes, or a barrier operation. -/
inductive Operation where
  | lock
  | held
  | refuse (r : Refuse)
  | take
  | park
  | parked
  | woken
  | flush (f : Pending)
  | body
  | bodyNotify
  | bodyRefuse (r : Refuse)
  | resetHead
  | release
  | notify
deriving DecidableEq, Repr

inductive Thread where
  | idle
  | writer (target : ℕ) (sync : Bool) (pc : Writer)
  | operation (pc : Operation)
  | returned
deriving DecidableEq, Repr

/-- How a step that may go wrong ends: an fdatasync or an allocation that fails, or a flush that throws. -/
inductive Outcome where
  | ok
  | fails
  | throws
deriving DecidableEq, Repr

structure Slot (ω : Type) where
  writer : ω
  entries : ℕ
  sync : Bool

inductive Choice (ω : Type) where
  | go (o : Outcome)
  | append (slots : List (Slot ω))
  | quiesce
  | refuse
  | unlock
  | publish (s : View)
  | dropHead
  | clearErrors
  | leave

variable {ω : Type}

section Steps

variable (sh : Shared)

def refuseStep (o : Outcome) : Refuse → Shared × Bool × Option Refuse
  | .fault => ({ sh with writeFault := true }, false, some .publish)
  | .publish =>
    -- No memory to publish it: the flag alone refuses.
    (if o = .ok then { sh with state := { sh.state with degraded := true } } else sh, false, some .notify)
  | .notify => (sh, true, none)

def flushStep (o : Outcome) : Pending → Shared × Bool × Pending
  | .loadHead => (sh, false, .loadState sh.head)
  | .loadState head =>
    if o = .throws then (sh, false, .threw)
    else if sh.refused sh.state then (sh, false, .ended false)
    else if sh.state.durableSeq < head.syncRequestedSeq then (sh, false, .sync head sh.state)
    else if head.nextSeq ≤ sh.state.nextSeq then (sh, false, .ended false)
    else (sh, false, .publish head sh.state false)
  | .sync head published =>
    match o with
    | .ok => (sh, false, .publish head published true)
    | .fails => (sh, false, .failed published)
    | .throws => (sh, false, .threw)
  | .publish head published synced =>
    let pub := { head with durableSeq := if synced then head.nextSeq - 1 else published.durableSeq }
    if o = .throws then (sh, false, .threw)
    else (sh.storeState published pub, false, if View.wakes published pub then .notify else .ended false)
  | .notify => (sh, true, .ended false)
  | .failed published => ({ sh with flushError := true }, false, .degrade published)
  | .degrade published =>
    (if o = .ok then { sh with state := { published with degraded := true } } else sh, false, .refuse .fault false)
  | .threw => ({ sh with flushError := true }, false, .refuse .fault true)
  | .refuse r threw =>
    let (sh, wakes, r) := refuseStep sh o r
    (sh, wakes, r.elim (.ended threw) (fun r => .refuse r threw))
  | .ended threw => (sh, false, .ended threw)

def covered (s : View) (target : ℕ) (sync : Bool) : Bool :=
  if sync then decide (target ≤ s.durableSeq) else decide (target < s.nextSeq)

def mayGoOn (target : ℕ) (sync : Bool) : Bool := !sh.flushInFlight || sh.flushError || covered sh.state target sync

def writerStep (target : ℕ) (sync : Bool) (o : Outcome) : Writer → Option (Shared × Bool × Thread)
  | .check => some (sh, false, if covered sh.state target sync then .returned else .writer target sync (.loaded sh.state))
  | .loaded published => some (sh, false, .writer target sync (.error (sh.refused published)))
  | .error refusing => some (sh, false, if sh.flushError || refusing then .returned else .writer target sync .take)
  | .take => some ({ sh with flushInFlight := true }, false, .writer target sync (if sh.flushInFlight then .park else .flush .loadHead))
  | .park | .woken => some (sh, false, .writer target sync (if mayGoOn sh target sync then .check else .parked))
  | .parked => none
  | .flush (.ended _) => some (sh, false, .writer target sync .release)
  | .flush f =>
    let (sh, wakes, f) := flushStep sh o f
    some (sh, wakes, .writer target sync (.flush f))
  | .release => some ({ sh with flushInFlight := false }, false, .writer target sync .notify)
  | .notify => some (sh, true, .writer target sync .check)

def operationStep : Operation → Choice ω → Option (Shared × Bool × Thread)
  | .lock, .go _ => if sh.writeMu then none else some ({ sh with writeMu := true }, false, .operation .held)
  | .held, .quiesce => some (sh, false, .operation .take)
  | .held, .refuse => some (sh, false, .operation (.refuse .fault))
  | .held, .unlock => some ({ sh with writeMu := false }, false, .returned)
  | .refuse r, .go o =>
    let (sh, wakes, r) := refuseStep sh o r
    some (sh, wakes, .operation (r.elim .held .refuse))
  | .take, .go _ => some ({ sh with flushInFlight := true }, false, .operation (if sh.flushInFlight then .park else .flush .loadHead))
  | .park, .go _ | .woken, .go _ => some (sh, false, .operation (if sh.flushInFlight then .parked else .take))
  | .flush (.ended threw), .go _ => some (sh, false, .operation (if threw then .release else .body))
  | .flush f, .go o =>
    let (sh, wakes, f) := flushStep sh o f
    some (sh, wakes, .operation (.flush f))
  | .body, .publish s => some ({ sh with state := s }, false, .operation .bodyNotify)
  | .body, .dropHead => some ({ sh with head := sh.state }, false, .operation .body)
  | .body, .clearErrors => some ({ sh with flushError := false, writeFault := false }, false, .operation .body)
  | .body, .refuse => some (sh, false, .operation (.bodyRefuse .fault))
  | .body, .leave => some (sh, false, .operation .resetHead)
  | .bodyNotify, .go _ => some (sh, true, .operation .body)
  | .bodyRefuse r, .go o =>
    let (sh, wakes, r) := refuseStep sh o r
    some (sh, wakes, .operation (r.elim .body .bodyRefuse))
  | .resetHead, .go _ => some ({ sh with head := sh.state }, false, .operation .release)
  | .release, .go _ => some ({ sh with flushInFlight := false }, false, .operation .notify)
  | .notify, .go _ => some (sh, true, .operation .held)
  | _, _ => none

end Steps

def threadStep (sh : Shared) : Thread → Choice ω → Option (Shared × Bool × Thread)
  | .idle, .go _ => some (sh, false, .operation .lock)
  | .writer target sync pc, .go o => writerStep sh target sync o pc
  | .operation pc, c => operationStep sh pc c
  | _, _ => none

def Thread.wake : Thread → Thread
  | .writer target sync .parked => .writer target sync .woken
  | .operation .parked => .operation .woken
  | th => th

structure State (ω : Type) where
  shared : Shared := {}
  threads : ω → Thread := fun _ => .idle

section Append

variable (sh : Shared)

def totalEntries (slots : List (Slot ω)) : ℕ := (slots.map Slot.entries).sum

def appendHead (slots : List (Slot ω)) : View :=
  let next := sh.head.nextSeq + totalEntries slots
  { sh.head with
    nextSeq := next
    syncRequestedSeq := if slots.any Slot.sync then max sh.head.syncRequestedSeq (next - 1) else sh.head.syncRequestedSeq }

/-- The threads of a group's slots, `next` being the first's sequence: each waits for its last entry; one that
appended nothing waits for the head's last sequence if that is not durable and it is to be synced. -/
def slotThreads (last : ℕ) : ℕ → List (Slot ω) → List (ω × Thread)
  | _, [] => []
  | next, slot :: slots =>
    (slot.writer,
      if 0 < slot.entries then .writer (next + slot.entries - 1) slot.sync .check
      else if slot.sync && decide (sh.state.durableSeq < last) then .writer last true .check
      else .returned) :: slotThreads last (next + slot.entries) slots

end Append

section Next

variable [DecidableEq ω]

def State.append (s : State ω) (slots : List (Slot ω)) : State ω :=
  let head := appendHead s.shared slots
  let started := slotThreads s.shared (head.nextSeq - 1) s.shared.head.nextSeq slots
  { shared := { s.shared with head := head }
    threads := fun v => (started.lookup v).getD (s.threads v) }

def State.step (s : State ω) (i : ω) : Choice ω → Option (State ω)
  | .append slots =>
    if s.threads i = .operation .held ∧ ∀ slot ∈ slots, s.threads slot.writer = .idle then some (s.append slots) else none
  | c => (threadStep s.shared (s.threads i) c).map (fun r =>
      { shared := r.1
        threads := Function.update (if r.2.1 then fun v => (s.threads v).wake else s.threads) i r.2.2 })

def machine (ω : Type) [DecidableEq ω] : Machine (State ω) (ω × Choice ω) where
  initial s := (∀ i, s.threads i = .idle) ∧ ∃ v, s.shared = { head := v, state := v }
  Enabled s a := (s.step a.1 a.2).isSome = true
  next s a := (s.step a.1 a.2).getD s

end Next

end Bytecask.Flush
