import Bytecask.Lib.Token
import Bytecask.Flush.Model

/-! Nobody waits for the flush role for ever: a thread in `wait()` has a holder of the role to wait for, or a wake that
is owed to it, and some thread can always go on. -/

namespace Bytecask.Flush

open Function Thread

variable {ω : Type}

namespace Thread

variable (th : Thread)

def holdsRole : Thread → Bool
  | .writer _ _ (.flush _) | .writer _ _ .release => true
  | .operation pc =>
    match pc with
    | .flush _ | .body | .bodyNotify | .bodyRefuse _ | .resetHead | .release => true
    | _ => false
  | _ => false

def holdsMutex : Thread → Bool
  | .operation .lock => false
  | .operation _ => true
  | _ => false

def isParked : Thread → Bool
  | .writer _ _ .parked | .operation .parked => true
  | _ => false

def released : Thread → Bool
  | .writer _ _ .notify | .operation .notify => true
  | _ => false

def owesWake : Thread → Bool
  | .writer _ _ (.flush .notify) | .writer _ _ (.flush (.refuse .notify _)) | .writer _ _ .notify => true
  | .operation pc =>
    match pc with
    | .refuse .notify | .flush .notify | .flush (.refuse .notify _) | .bodyNotify | .bodyRefuse .notify | .notify => true
    | _ => false
  | _ => false

def unreturned : Thread → Bool
  | .idle | .returned => false
  | _ => true

@[simp] lemma holdsRole_wake : th.wake.holdsRole = th.holdsRole := by
  unfold wake
  split <;> rfl

@[simp] lemma holdsMutex_wake : th.wake.holdsMutex = th.holdsMutex := by
  unfold wake
  split <;> rfl

@[simp] lemma isParked_wake : th.wake.isParked = false := by
  unfold wake
  split
  · rfl
  · rfl
  · rename_i hwriter hoperation
    rw [isParked.eq_def]
    split
    · exact absurd rfl (hwriter _ _)
    · exact absurd rfl hoperation
    · rfl

lemma owesWake_of_released {th : Thread} (h : th.released = true) : th.owesWake = true := by
  unfold released at h
  split at h
  · rfl
  · rfl
  · cases h

end Thread

section Steps

variable {sh sh' : Shared} {th th' : Thread} {c : Choice ω} {wakes : Bool} {o : Outcome}

lemma refuseStep_keeps (sh : Shared) (o : Outcome) (r : Refuse) :
    (refuseStep sh o r).1.flushInFlight = sh.flushInFlight ∧ (refuseStep sh o r).1.writeMu = sh.writeMu := by
  cases r with
  | fault | notify => exact ⟨rfl, rfl⟩
  | publish =>
    rw [refuseStep]
    split_ifs <;> exact ⟨rfl, rfl⟩

lemma storeState_keeps (sh : Shared) (old new : View) :
    (sh.storeState old new).flushInFlight = sh.flushInFlight ∧ (sh.storeState old new).writeMu = sh.writeMu := by
  rw [Shared.storeState]
  split_ifs <;> exact ⟨rfl, rfl⟩

lemma flushStep_keeps (sh : Shared) (o : Outcome) (f : Pending) :
    (flushStep sh o f).1.flushInFlight = sh.flushInFlight ∧ (flushStep sh o f).1.writeMu = sh.writeMu := by
  cases f with
  | loadHead | notify | failed | threw | ended => exact ⟨rfl, rfl⟩
  | loadState | degrade =>
    rw [flushStep]
    split_ifs <;> exact ⟨rfl, rfl⟩
  | sync head published => cases o <;> exact ⟨rfl, rfl⟩
  | publish head published synced =>
    rw [flushStep]
    by_cases ho : o = .throws
    · rw [if_pos ho]
      exact ⟨rfl, rfl⟩
    · rw [if_neg ho]
      exact storeState_keeps _ _ _
  | refuse r threw => exact refuseStep_keeps sh o r

/-- What a step does to the role: it leaves it, takes it when it is free, or gives it up and owes the notify. -/
def RoleMove (sh sh' : Shared) (th th' : Thread) (wakes : Bool) : Prop :=
  (sh'.flushInFlight = sh.flushInFlight ∧ th'.holdsRole = th.holdsRole) ∨
    (sh.flushInFlight = false ∧ sh'.flushInFlight = true ∧ th'.holdsRole = true) ∨
    (sh'.flushInFlight = false ∧ th.holdsRole = true ∧ th'.holdsRole = false ∧ th'.released = true ∧ wakes = false)

def MutexMove (sh sh' : Shared) (th th' : Thread) : Prop :=
  (sh'.writeMu = sh.writeMu ∧ th'.holdsMutex = th.holdsMutex) ∨
    (sh.writeMu = false ∧ sh'.writeMu = true ∧ th'.holdsMutex = true) ∨
    (sh'.writeMu = false ∧ th.holdsMutex = true ∧ th'.holdsMutex = false)

structure StepSpec (sh sh' : Shared) (th th' : Thread) (wakes : Bool) : Prop where
  role : RoleMove sh sh' th th' wakes
  mutex : MutexMove sh sh' th th'
  parked : th'.isParked = true → sh'.flushInFlight = true ∧ wakes = false
  released : th.released = true → wakes = true

lemma spec_plain (hrole : sh'.flushInFlight = sh.flushInFlight) (hmutex : sh'.writeMu = sh.writeMu) (hr : th'.holdsRole = th.holdsRole)
    (hm : th'.holdsMutex = th.holdsMutex) (hp : th'.isParked = false) (hrel : th.released = true → wakes = true) :
    StepSpec sh sh' th th' wakes :=
  ⟨.inl ⟨hrole, hr⟩, .inl ⟨hmutex, hm⟩, fun h => absurd h (Bool.eq_false_iff.1 hp), hrel⟩

variable {target : ℕ} {sync : Bool}

lemma writerStep_spec {pc : Writer} (h : writerStep sh target sync o pc = some (sh', wakes, th')) :
    StepSpec sh sh' (.writer target sync pc) th' wakes := by
  cases pc with
  | check | error =>
    cases h
    refine spec_plain rfl rfl ?_ ?_ ?_ nofun <;> split_ifs <;> rfl
  | loaded published =>
    cases h
    exact spec_plain rfl rfl rfl rfl rfl nofun
  | take =>
    cases h
    cases hf : sh.flushInFlight with
    | true => exact spec_plain hf.symm rfl rfl rfl rfl nofun
    | false => exact ⟨.inr (.inl ⟨hf, rfl, rfl⟩), .inl ⟨rfl, rfl⟩, nofun, nofun⟩
  | park | woken =>
    cases h
    refine ⟨.inl ⟨rfl, ?_⟩, .inl ⟨rfl, ?_⟩, fun hp => ⟨?_, rfl⟩, nofun⟩
    · split_ifs <;> rfl
    · split_ifs <;> rfl
    · cases hm : mayGoOn sh target sync with
      | true =>
        rw [hm] at hp
        cases hp
      | false =>
        rw [mayGoOn] at hm
        cases hf : sh.flushInFlight with
        | true => rfl
        | false =>
          rw [hf] at hm
          cases hm
  | parked => cases h
  | flush f =>
    obtain ⟨hrole, hmutex⟩ := flushStep_keeps sh o f
    cases f with
    | ended threw =>
      cases h
      exact spec_plain rfl rfl rfl rfl rfl nofun
    | _ =>
      cases h
      exact spec_plain hrole hmutex rfl rfl rfl nofun
  | release =>
    cases h
    exact ⟨.inr (.inr ⟨rfl, rfl, rfl, rfl, rfl⟩), .inl ⟨rfl, rfl⟩, nofun, nofun⟩
  | notify =>
    cases h
    exact spec_plain rfl rfl rfl rfl rfl fun _ => rfl

lemma operationStep_spec {pc : Operation} (h : operationStep sh pc c = some (sh', wakes, th')) :
    StepSpec sh sh' (.operation pc) th' wakes := by
  cases pc with
  | lock =>
    cases c with
    | go =>
      cases hm : sh.writeMu with
      | true => simp [operationStep, hm] at h
      | false =>
        simp only [operationStep, hm] at h
        cases h
        exact ⟨.inl ⟨rfl, rfl⟩, .inr (.inl ⟨hm, rfl, rfl⟩), nofun, nofun⟩
    | _ => cases h
  | held =>
    cases c with
    | quiesce | refuse =>
      cases h
      exact spec_plain rfl rfl rfl rfl rfl nofun
    | unlock =>
      cases h
      exact ⟨.inl ⟨rfl, rfl⟩, .inr (.inr ⟨rfl, rfl, rfl⟩), nofun, nofun⟩
    | _ => cases h
  | refuse r | bodyRefuse r =>
    cases c with
    | go o =>
      obtain ⟨hrole, hmutex⟩ := refuseStep_keeps sh o r
      cases h
      cases r <;> exact spec_plain hrole hmutex rfl rfl rfl nofun
    | _ => cases h
  | take =>
    cases c with
    | go =>
      cases h
      cases hf : sh.flushInFlight with
      | true => exact spec_plain hf.symm rfl rfl rfl rfl nofun
      | false => exact ⟨.inr (.inl ⟨hf, rfl, rfl⟩), .inl ⟨rfl, rfl⟩, nofun, nofun⟩
    | _ => cases h
  | park | woken =>
    cases c with
    | go =>
      cases h
      cases hf : sh.flushInFlight with
      | true => exact ⟨.inl ⟨rfl, rfl⟩, .inl ⟨rfl, rfl⟩, fun _ => ⟨hf, rfl⟩, nofun⟩
      | false => exact spec_plain rfl rfl rfl rfl rfl nofun
    | _ => cases h
  | parked => cases c <;> cases h
  | flush f =>
    cases c with
    | go o =>
      obtain ⟨hrole, hmutex⟩ := flushStep_keeps sh o f
      cases f with
      | ended threw =>
        cases h
        cases threw <;> exact spec_plain rfl rfl rfl rfl rfl nofun
      | _ =>
        cases h
        exact spec_plain hrole hmutex rfl rfl rfl nofun
    | _ => cases f <;> cases h
  | body =>
    cases c with
    | publish | dropHead | clearErrors | refuse | leave =>
      cases h
      exact spec_plain rfl rfl rfl rfl rfl nofun
    | _ => cases h
  | bodyNotify | resetHead =>
    cases c with
    | go =>
      cases h
      exact spec_plain rfl rfl rfl rfl rfl nofun
    | _ => cases h
  | release =>
    cases c with
    | go =>
      cases h
      exact ⟨.inr (.inr ⟨rfl, rfl, rfl, rfl, rfl⟩), .inl ⟨rfl, rfl⟩, nofun, nofun⟩
    | _ => cases h
  | notify =>
    cases c with
    | go =>
      cases h
      exact spec_plain rfl rfl rfl rfl rfl fun _ => rfl
    | _ => cases h

lemma threadStep_spec (h : threadStep sh th c = some (sh', wakes, th')) : StepSpec sh sh' th th' wakes := by
  cases th with
  | idle =>
    cases c with
    | go =>
      cases h
      exact spec_plain rfl rfl rfl rfl rfl nofun
    | _ => cases h
  | writer target sync pc =>
    cases c with
    | go => exact writerStep_spec h
    | _ => cases h
  | operation pc => exact operationStep_spec h
  | returned => cases c <;> cases h

lemma threadStep_enabled (sh : Shared) (hbegun : th.unreturned = true) (hparked : th.isParked = false)
    (hlock : th = .operation .lock → sh.writeMu = false) :
    ∃ c : Choice ω, (∀ slots, c ≠ .append slots) ∧ (threadStep sh th c).isSome = true := by
  cases th with
  | idle | returned => cases hbegun
  | writer target sync pc =>
    refine ⟨.go .ok, nofun, ?_⟩
    cases pc with
    | parked => cases hparked
    | flush f => cases f <;> rfl
    | _ => rfl
  | operation pc =>
    cases pc with
    | lock =>
      refine ⟨.go .ok, nofun, ?_⟩
      simp [threadStep, operationStep, hlock]
    | held => exact ⟨.unlock, nofun, rfl⟩
    | body => exact ⟨.leave, nofun, rfl⟩
    | parked => cases hparked
    | flush f => exact ⟨.go .ok, nofun, by cases f <;> rfl⟩
    | _ => exact ⟨.go .ok, nofun, rfl⟩

end Steps

/-- The role and the mutex have one holder each while their flags are set, and who is in `wait()` is waiting for a
holder of the role or for the notify of one that has given it up. -/
structure Inv (s : State ω) : Prop where
  role : Exclusive s.shared.flushInFlight (fun i => (s.threads i).holdsRole)
  mutex : Exclusive s.shared.writeMu (fun i => (s.threads i).holdsMutex)
  parked : ∀ i, (s.threads i).isParked = true →
    (∃ j, (s.threads j).holdsRole = true) ∨ ∃ j, (s.threads j).released = true

section Run

variable {s : State ω}

lemma inv_initial (hidle : ∀ i, s.threads i = .idle) (hshared : ∃ v, s.shared = { head := v, state := v }) : Inv s := by
  obtain ⟨v, hv⟩ := hshared
  refine ⟨?_, ?_, fun i hi => ?_⟩
  · simp only [hidle, hv]
    exact .none
  · simp only [hidle, hv]
    exact .none
  · rw [hidle] at hi
    cases hi

lemma slotThreads_quiet (sh : Shared) (last next : ℕ) (slots : List (Slot ω)) :
    ∀ p ∈ slotThreads sh last next slots, p.2.holdsRole = false ∧ p.2.holdsMutex = false ∧ p.2.isParked = false := by
  induction slots generalizing next with
  | nil => nofun
  | cons slot slots ih =>
    intro p hp
    rcases List.mem_cons.1 hp with rfl | hp
    · dsimp only
      split_ifs <;> exact ⟨rfl, rfl, rfl⟩
    · exact ih _ p hp

lemma slotThreads_writers (sh : Shared) (last next : ℕ) (slots : List (Slot ω)) :
    (slotThreads sh last next slots).map Prod.fst = slots.map Slot.writer := by
  induction slots generalizing next with
  | nil => rfl
  | cons slot slots ih => rw [slotThreads, List.map_cons, List.map_cons, ih]

variable [DecidableEq ω]
variable {i : ω} {slots : List (Slot ω)} (threads : ω → Thread)

def stepped (threads : ω → Thread) (i : ω) (wakes : Bool) (th : Thread) : ω → Thread :=
  Function.update (if wakes then fun v => (threads v).wake else threads) i th

lemma stepped_self (i : ω) (wakes : Bool) (th : Thread) : stepped threads i wakes th i = th :=
  update_self ..

lemma stepped_of_ne {v : ω} (hv : v ≠ i) (wakes : Bool) (th : Thread) :
    stepped threads i wakes th v = if wakes then (threads v).wake else threads v := by
  rw [stepped, update_of_ne hv]
  cases wakes <;> rfl

lemma holdsRole_stepped (i : ω) (wakes : Bool) (th : Thread) :
    (fun v => (stepped threads i wakes th v).holdsRole) = Function.update (fun v => (threads v).holdsRole) i th.holdsRole := by
  funext v
  by_cases hv : v = i
  · rw [hv, stepped_self, update_self]
  · rw [stepped_of_ne _ hv, update_of_ne hv]
    cases wakes <;> simp

lemma holdsMutex_stepped (i : ω) (wakes : Bool) (th : Thread) :
    (fun v => (stepped threads i wakes th v).holdsMutex) = Function.update (fun v => (threads v).holdsMutex) i th.holdsMutex := by
  funext v
  by_cases hv : v = i
  · rw [hv, stepped_self, update_self]
  · rw [stepped_of_ne _ hv, update_of_ne hv]
    cases wakes <;> simp

lemma Inv.stepped (h : Inv s) {sh : Shared} {wakes : Bool} {th : Thread}
    (hspec : StepSpec s.shared sh (s.threads i) th wakes) : Inv ⟨sh, stepped s.threads i wakes th⟩ := by
  have hrole : Exclusive sh.flushInFlight (fun v => (Flush.stepped s.threads i wakes th v).holdsRole) := by
    rw [holdsRole_stepped]
    refine h.role.step i ?_
    rcases hspec.role with hkeep | htake | ⟨hoff, hheld, hgave, -⟩
    · exact .inl hkeep
    · exact .inr (.inl htake)
    · exact .inr (.inr ⟨hoff, hheld, hgave⟩)
  have hmutex : Exclusive sh.writeMu (fun v => (Flush.stepped s.threads i wakes th v).holdsMutex) := by
    rw [holdsMutex_stepped]
    exact h.mutex.step i hspec.mutex
  have hself := stepped_self s.threads i wakes th
  refine ⟨hrole, hmutex, fun v hv => ?_⟩
  dsimp only at hv ⊢
  by_cases hvi : v = i
  · -- The thread itself goes to sleep only while the role is taken.
    rw [hvi, hself] at hv
    exact .inl (hrole.set.1 (hspec.parked hv).1)
  · rw [stepped_of_ne _ hvi] at hv
    cases wakes with
    | true =>
      rw [if_pos rfl, isParked_wake] at hv
      cases hv
    | false =>
      have hother : ∀ j, j ≠ i → Flush.stepped _ i false th j = s.threads j :=
        fun j hj => (stepped_of_ne _ hj false th).trans (if_neg Bool.false_ne_true)
      rcases h.parked v hv with ⟨j, hj⟩ | ⟨j, hj⟩
      · by_cases hji : j = i
        · rw [hji] at hj
          rcases hspec.role with ⟨-, hkeep⟩ | ⟨-, -, hheld⟩ | ⟨-, -, -, hrel, -⟩
          · exact .inl ⟨i, by rw [hself, hkeep, hj]⟩
          · exact .inl ⟨i, by rw [hself, hheld]⟩
          · exact .inr ⟨i, by rw [hself, hrel]⟩
        · exact .inl ⟨j, by rw [hother j hji, hj]⟩
      · have hji : j ≠ i := by
          rintro rfl
          have hwakes := hspec.released hj
          cases hwakes
        exact .inr ⟨j, by rw [hother j hji, hj]⟩

lemma append_threads (hidle : ∀ slot ∈ slots, s.threads slot.writer = .idle) (v : ω) :
    (s.append slots).threads v = s.threads v ∨ s.threads v = .idle ∧ ((s.append slots).threads v).holdsRole = false ∧
      ((s.append slots).threads v).holdsMutex = false ∧ ((s.append slots).threads v).isParked = false := by
  dsimp only [State.append]
  set started := slotThreads s.shared ((appendHead s.shared slots).nextSeq - 1) s.shared.head.nextSeq slots with hstarted
  cases hv : started.lookup v with
  | none => exact .inl rfl
  | some th =>
    have hmem : (v, th) ∈ started := by
      obtain ⟨l₁, l₂, hl, -⟩ := List.lookup_eq_some_iff.1 hv
      rw [hl]
      exact List.mem_append_right _ List.mem_cons_self
    have hwriter : v ∈ slots.map Slot.writer := by
      rw [← slotThreads_writers]
      exact List.mem_map.2 ⟨(v, th), hmem, rfl⟩
    obtain ⟨slot, hslot, rfl⟩ := List.mem_map.1 hwriter
    exact .inr ⟨hidle slot hslot, slotThreads_quiet _ _ _ _ _ hmem⟩

lemma Inv.append (h : Inv s) (hidle : ∀ slot ∈ slots, s.threads slot.writer = .idle) : Inv (s.append slots) := by
  have hthreads := append_threads hidle
  have hrole : (fun v => ((s.append slots).threads v).holdsRole) = fun v => (s.threads v).holdsRole := by
    funext v
    rcases hthreads v with hv | ⟨hi, hv, -⟩
    · rw [hv]
    · rw [hv, hi]
      rfl
  have hmutex : (fun v => ((s.append slots).threads v).holdsMutex) = fun v => (s.threads v).holdsMutex := by
    funext v
    rcases hthreads v with hv | ⟨hi, -, hv, -⟩
    · rw [hv]
    · rw [hv, hi]
      rfl
  refine ⟨?_, ?_, fun v hv => ?_⟩
  · rw [hrole]
    exact h.role
  · rw [hmutex]
    exact h.mutex
  · rcases hthreads v with hsame | ⟨-, -, -, hquiet⟩
    · rw [hsame] at hv
      rcases h.parked v hv with ⟨j, hj⟩ | ⟨j, hj⟩
      · exact .inl ⟨j, (congrFun hrole j).trans hj⟩
      · refine .inr ⟨j, ?_⟩
        rcases hthreads j with hsame' | ⟨hi, -⟩
        · rw [hsame', hj]
        · rw [hi] at hj
          cases hj
    · rw [hquiet] at hv
      cases hv

lemma Inv.step (h : Inv s) {c : Choice ω} {s' : State ω} (hs : s.step i c = some s') : Inv s' := by
  by_cases happend : ∃ slots, c = .append slots
  · obtain ⟨slots, rfl⟩ := happend
    rw [State.step] at hs
    split_ifs at hs with hgroup
    cases hs
    exact h.append hgroup.2
  · have hplain : s.step i c = (threadStep s.shared (s.threads i) c).map (fun r => ⟨r.1, Flush.stepped s.threads i r.2.1 r.2.2⟩) := by
      cases c with
      | append slots => exact absurd ⟨slots, rfl⟩ happend
      | _ => rfl
    rw [hplain] at hs
    obtain ⟨⟨sh, wakes, th⟩, hth, rfl⟩ := Option.map_eq_some_iff.1 hs
    exact h.stepped (threadStep_spec hth)

lemma inv_of_reachable (h : (machine ω).Reachable s) : Inv s := by
  refine h.invariant (fun s hs => inv_initial hs.1 hs.2) fun s a hs ha => ?_
  obtain ⟨s', hs'⟩ := Option.isSome_iff_exists.1 ha
  change Inv ((s.step a.1 a.2).getD s)
  rw [hs']
  exact hs.step hs'

lemma step_enabled (hbegun : (s.threads i).unreturned = true) (hparked : (s.threads i).isParked = false)
    (hlock : s.threads i = .operation .lock → s.shared.writeMu = false) : ∃ c, (s.step i c).isSome = true := by
  obtain ⟨c, hc, hen⟩ := threadStep_enabled (ω := ω) _ hbegun hparked hlock
  refine ⟨c, ?_⟩
  cases c with
  | append slots => exact absurd rfl (hc slots)
  | _ =>
    rw [State.step, Option.isSome_map]
    · exact hen
    · exact nofun

lemma enabled_of_role {j : ω} (hj : (s.threads j).holdsRole = true ∨ (s.threads j).released = true) :
    (s.threads j).unreturned = true ∧ ∃ c, (s.step j c).isSome = true := by
  have hfacts : (s.threads j).unreturned = true ∧ (s.threads j).isParked = false ∧ s.threads j ≠ .operation .lock := by
    cases hth : s.threads j with
    | idle | returned => simp [hth, holdsRole, Thread.released] at hj
    | writer target sync pc => cases pc <;> simp_all [holdsRole, Thread.released, Thread.unreturned, isParked]
    | operation pc => cases pc <;> simp_all [holdsRole, Thread.released, Thread.unreturned, isParked]
  exact ⟨hfacts.1, step_enabled hfacts.1 hfacts.2.1 fun h => absurd h hfacts.2.2⟩

lemma Inv.enabled_of_parked (h : Inv s) (hi : (s.threads i).isParked = true) :
    ∃ j, (s.threads j).unreturned = true ∧ ∃ c, (s.step j c).isSome = true := by
  rcases h.parked i hi with ⟨j, hj⟩ | ⟨j, hj⟩
  · exact ⟨j, enabled_of_role (.inl hj)⟩
  · exact ⟨j, enabled_of_role (.inr hj)⟩

lemma Inv.progress (h : Inv s) (hi : (s.threads i).unreturned = true) :
    ∃ j, (s.threads j).unreturned = true ∧ ∃ c, (s.step j c).isSome = true := by
  cases hparked : (s.threads i).isParked with
  | true => exact h.enabled_of_parked hparked
  | false =>
    by_cases hlock : s.threads i = .operation .lock → s.shared.writeMu = false
    · exact ⟨i, hi, step_enabled hi hparked hlock⟩
    · -- It waits for the mutex: then the holder of the mutex goes on, or waits for the role itself.
      obtain ⟨-, hmu⟩ := Classical.not_imp.1 hlock
      obtain ⟨j, hj⟩ := h.mutex.set.1 (Bool.of_not_eq_false hmu)
      have hfacts : (s.threads j).unreturned = true ∧ s.threads j ≠ .operation .lock := by
        cases hth : s.threads j <;> simp_all [holdsMutex, Thread.unreturned]
        rintro rfl
        simp at hj
      cases hjp : (s.threads j).isParked with
      | true => exact h.enabled_of_parked hjp
      | false => exact ⟨j, hfacts.1, step_enabled hfacts.1 hjp fun hl => absurd hl hfacts.2⟩

/-- The role is taken exactly while one thread holds it, no writer sleeps without a reason, and while someone has not
returned, someone who has not returned can go on. -/
theorem role_never_stuck (h : (machine ω).Reachable s) :
    (s.shared.flushInFlight = true ↔ ∃ i, (s.threads i).holdsRole = true) ∧
    (∀ i j, (s.threads i).holdsRole = true → (s.threads j).holdsRole = true → i = j) ∧
    (∀ i target sync, s.threads i = .writer target sync .parked → covered s.shared.state target sync = false →
      (∃ j, (s.threads j).holdsRole = true) ∨ (∃ j, (s.threads j).owesWake = true) ∨ s.shared.flushError = true ∨
        s.shared.refused s.shared.state = true) ∧
    ((∃ i, (s.threads i).unreturned = true) →
      ∃ i c, (s.threads i).unreturned = true ∧ (machine ω).Enabled s (i, c)) := by
  have hinv := inv_of_reachable h
  refine ⟨hinv.role.set, hinv.role.unique, fun i target sync hi _ => ?_, ?_⟩
  · rcases hinv.parked i (by rw [hi]; rfl) with hj | ⟨j, hj⟩
    · exact .inl hj
    · exact .inr (.inl ⟨j, owesWake_of_released hj⟩)
  · rintro ⟨i, hi⟩
    obtain ⟨j, hj, c, hc⟩ := hinv.progress hi
    exact ⟨j, c, hj, hc⟩

end Run

def waitingRun : List (Fin 3 × Choice (Fin 3)) :=
  [(0, .go .ok), (0, .go .ok), (0, .append [⟨1, 1, true⟩, ⟨2, 1, true⟩]), (1, .go .ok), (1, .go .ok), (1, .go .ok), (1, .go .ok),
    (2, .go .ok), (2, .go .ok), (2, .go .ok), (2, .go .ok), (2, .go .ok)]

def waiting : State (Fin 3) := waitingRun.foldl (machine (Fin 3)).next {}

lemma waiting_reachable : (machine (Fin 3)).Reachable waiting := by
  have hpath : (machine (Fin 3)).Path {} waitingRun waiting := by
    repeat refine Machine.Path.cons _ (by rfl) ?_
    exact Machine.Path.nil _
  exact hpath.reachable (.start ⟨fun _ => rfl, _, rfl⟩)

theorem waiting_not_stuck : waiting.threads 2 = .writer 2 true .parked ∧ covered waiting.shared.state 2 true = false ∧
    ((∃ j, (waiting.threads j).holdsRole = true) ∨ (∃ j, (waiting.threads j).owesWake = true) ∨ waiting.shared.flushError = true ∨
      waiting.shared.refused waiting.shared.state = true) ∧
    ∃ i c, (waiting.threads i).unreturned = true ∧ (machine (Fin 3)).Enabled waiting (i, c) := by
  have hparked : waiting.threads 2 = .writer 2 true .parked := rfl
  obtain ⟨-, -, hwait, hgo⟩ := role_never_stuck waiting_reachable
  exact ⟨hparked, rfl, hwait 2 2 true hparked rfl, hgo ⟨2, rfl⟩⟩

end Bytecask.Flush
