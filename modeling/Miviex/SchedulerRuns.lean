import Miviex.Runs
import Miviex.SchedulerInvariant

/-! Runs of the scheduler: any interleaving of its operations after the idle process has been
created. The kernel runs with interrupts off outside the idle loop, so an operation is one step.
-/
namespace Miviex.Scheduler
open List Option
open LinkedQueue

structure Chosen (s t : Scheduler) (next : Addr) : Prop where
  live : next ∈ s.allProcs
  ready : (s.procs next).state = .ready
  minimal : ∀ r ∈ s.allProcs, (s.procs r).state = .ready → (s.procs next).priority ≤ (s.procs r).priority
  current : t.current = some next
  all : t.allProcs = s.allProcs
  priority : ∀ p, (t.procs p).priority = (s.procs p).priority
  state : ∀ p, (t.procs p).state = if p = next then .running
    else if s.current = some p ∧ (s.procs p).state = .running then .ready else (s.procs p).state

variable {s t : Scheduler} {lists : Nat → List Addr} {idle p : Addr}

theorem requeueSpec {next} (prev) (rep : Represents s (fun x => x = next) lists)
    (live : ∀ c, prev = some c → c ∈ s.allProcs) (bounded : ∀ p ∈ s.allProcs, (s.procs p).priority < numSchedQueues)
    (waiting : (s.procs next).state = .ready) :
    Queued (s.requeue prev) (fun x => x = next) ∧ (s.requeue prev).allProcs = s.allProcs ∧
    (∀ p, ((s.requeue prev).procs p).priority = (s.procs p).priority) ∧ ∀ p, ((s.requeue prev).procs p).state =
    if prev = some p ∧ (s.procs p).state = .running then .ready else (s.procs p).state := by
  unfold requeue
  cases prev with
  | none => exact ⟨⟨lists,rep⟩,rfl,fun _ => rfl,fun p => by simp⟩
  | some c =>
  dsimp only
  split
  · rename_i runs
    have apart : c ≠ next := by rintro rfl; rw [waiting] at runs; contradiction
    let marked := s.modify c (fun x => {x with state := .ready, ticksLeft := x.quantum})
    have atC : (marked.procs c).state = .ready ∧ (marked.procs c).priority = (s.procs c).priority := by
      simp [marked,modify]
    have markedRep : Represents marked (fun x => x = next ∨ x = c) lists :=
      representsModify rep rfl rfl rfl (by simp [runs]) (fun x h => by simp [h])
    have pushed := representsPush markedRep (.inr rfl) (live c rfl) atC.1
      (by rw [atC.2]; exact bounded c (live c rfl))
    have frame := pushFrame marked c
    have hole : (fun x => (x = next ∨ x = c) ∧ x ≠ c) = (fun x => x = next) := by
      funext x
      by_cases h : x = c
      · subst x; simp [apart]
      · simp [h]
    rw [hole] at pushed
    refine ⟨⟨_,pushed⟩,frame.all,fun p => ?_,fun p => ?_⟩
    · rw [frame.priority]
      by_cases same : p = c
      · subst p; exact atC.2
      · simp [marked,modify,same]
    rw [frame.state]
    by_cases same : p = c
    · subst p; simp [atC.1,runs]
    · simp [marked,modify,same,Ne.symm same]
  rename_i still
  refine ⟨⟨lists,rep⟩,rfl,fun _ => rfl,fun p => ?_⟩
  by_cases same : c = p
  · subst p; simp [still]
  · simp [same]

theorem yieldCases (queued : Queued s (fun _ => False)) (live : ∀ c, s.current = some c → c ∈ s.allProcs)
    (bounded : ∀ p ∈ s.allProcs, (s.procs p).priority < numSchedQueues) :
    (s.schedulerYield = s ∧ ∀ p ∈ s.allProcs, (s.procs p).state ≠ .ready) ∨
    ∃ next, Chosen s s.schedulerYield next ∧ Queued s.schedulerYield (fun _ => False) := by
  obtain ⟨lists,rep⟩ := queued
  cases picked : s.pickNext with
  | mk found popped =>
  cases found with
  | none =>
    obtain ⟨same,empty⟩ := pickNextNone rep picked
    refine .inl ⟨by simp [schedulerYield,picked,same],fun p inside ready => ?_⟩
    have bound := bounded p inside
    have member : p ∈ lists (s.procs p).priority := (rep.members _ bound p).mpr ⟨inside,ready,rfl,fun h => h⟩
    rw [empty _ bound] at member
    cases member
  | some next =>
  obtain ⟨q,bound,rest,shape,lower,frame,poppedRep⟩ := pickNextSome rep picked
  have member := (rep.members q bound next).mp (by rw [shape]; exact mem_cons_self)
  have holes : (fun x => False ∨ x = next) = (fun x => x = next) := by funext x; simp
  rw [holes] at poppedRep
  obtain ⟨requeued,all,priorities,states⟩ := requeueSpec s.current poppedRep
    (fun c h => by rw [frame.all]; exact live c h)
    (fun p h => by rw [frame.priority]; rw [frame.all] at h; exact bounded p h)
    (by rw [frame.state]; exact member.2.1)
  have result : s.schedulerYield = {(popped.requeue s.current).modify next
      (fun x => {x with state := .running}) with current := some next} := by
    simp only [schedulerYield,picked]
  refine .inr ⟨next,⟨member.1,member.2.1,?_,by rw [result],?_,?_,?_⟩,?_⟩
  · intro r inside ready
    rw [member.2.2.1]
    by_contra below
    have inList := (rep.members _ (bounded r inside) r).mpr ⟨inside,ready,rfl,fun h => h⟩
    rw [lower _ (Nat.lt_of_not_le below)] at inList
    cases inList
  · rw [result]; exact all.trans frame.all
  · intro p
    rw [result]
    have same := (priorities p).trans (frame.priority p)
    by_cases h : p = next
    · subst p; simpa [modify] using same
    · simpa [modify,h] using same
  · intro p
    rw [result]
    have same := states p
    rw [frame.state] at same
    by_cases h : p = next
    · subst p; simp [modify]
    · simpa [modify,h] using same
  obtain ⟨lists',rep'⟩ := requeued
  have running : Represents ((popped.requeue s.current).modify next
      (fun x => {x with state := .running})) (fun _ => False) lists' :=
    representsModify rep' rfl rfl rfl (by simp) (fun x h => by simp [h])
  rw [result]
  exact ⟨lists',running.queues,running.members⟩

/- With the idle process awake there is always somebody to run, so a process that
is not RUNNING never gets the CPU back from here. -/
theorem yieldConsistent (settled : Settled idle s) : Consistent idle s.schedulerYield := by
  rcases yieldCases settled.queued settled.currentLive settled.bounded with ⟨same,none⟩ | ⟨next,chosen,queued⟩
  · rw [same]
    refine ⟨settled,fun c atCurrent => ?_⟩
    have runs : (s.procs idle).state = .running := settled.idleAwake.resolve_left (none idle settled.idleLive)
    have atIdle := settled.running idle settled.idleLive runs
    cases Option.some.inj (atCurrent.symm.trans atIdle)
    exact runs
  refine ⟨⟨queued,?_,?_,?_,?_,?_,?_,?_⟩,?_⟩
  · intro p inside; rw [chosen.all] at inside; rw [chosen.priority]; exact settled.bounded p inside
  · rw [chosen.all]; exact settled.distinct
  · intro c atCurrent
    rw [chosen.current] at atCurrent
    cases Option.some.inj atCurrent
    rw [chosen.all]; exact chosen.live
  · intro p inside runs
    rw [chosen.state] at runs
    rw [chosen.current]
    split at runs
    · rename_i same; rw [same]
    split at runs
    · contradiction
    rename_i other
    rw [chosen.all] at inside
    exact absurd ⟨settled.running p inside runs,runs⟩ other
  · rw [chosen.all]; exact settled.idleLive
  · rw [chosen.state]
    split
    · exact .inr rfl
    split
    · exact .inl rfl
    · exact settled.idleAwake
  · rw [chosen.priority]; exact settled.idleLast
  intro c atCurrent
  rw [chosen.current] at atCurrent
  cases Option.some.inj atCurrent
  rw [chosen.state]; simp

def enroll (s : Scheduler) (p : Addr) (x : Process) : Scheduler :=
  {s with procs := Function.update s.procs p x, allProcs := p::s.allProcs, nextPid := s.nextPid + 1}

variable {x : Process} {place : Option Addr}

theorem enrollRepresents (rep : Represents s (fun _ => False) lists) (fresh : p ∉ s.allProcs) :
    Represents (s.enroll p x) (fun y => y = p) lists := by
  have outside : ∀ q < numSchedQueues, p ∉ lists q := fun q h inside => fresh ((rep.members q h p).mp inside).1
  constructor
  · intro q h
    refine queueCongr ?_ ?_ (rep.queues q h)
    · intro y inside
      have yp : y ≠ p := fun e => outside q h (e ▸ inside)
      simp [enroll,yp]
    intro y inside
    have yp : y ≠ p := fun e => outside q h (e ▸ inside)
    simp [enroll,yp]
  intro q h y
  by_cases same : y = p
  · subst y; simp [outside q h]
  · simp [enroll,same,rep.members q h y]

theorem allocEnrolls {priority} (allocated : s.processAlloc place priority = some (p,t)) :
    place = some p ∧ ∃ x, t = s.enroll p x ∧ x.state = .ready ∧ x.priority < numSchedQueues := by
  unfold processAlloc at allocated
  cases place with
  | none => simp at allocated
  | some a =>
    obtain ⟨rfl,rfl⟩ := allocated
    refine ⟨rfl,_,rfl,rfl,?_⟩
    change (if priority ≥ numSchedQueues then numSchedQueues - 1 else priority) < numSchedQueues
    split
    · decide
    · omega

theorem enrollModify (s : Scheduler) (p x) (f : Process → Process) : (s.enroll p x).modify p f = s.enroll p (f x) := by
  simp [enroll,modify]

def inherit (s : Scheduler) (p : Addr) : Scheduler :=
  match s.processFind (s.procs p).ppid with
  | none => s
  | some parent => s.modify parent (fun y => {y with
      childTicks := y.childTicks + (s.procs p).cpuTicks + (s.procs p).childTicks})

theorem reapEq (s : Scheduler) (p) : s.processReap p = {s.inherit p with allProcs := (s.inherit p).allProcs.erase p} := rfl

theorem inheritFrame (s : Scheduler) (p) : Frame s (s.inherit p) := by
  unfold inherit
  split
  · exact ⟨fun _ => rfl,fun _ => rfl,rfl,rfl⟩
  rename_i parent _
  constructor
  · intro x; by_cases h : x = parent <;> simp [modify,h]
  · intro x; by_cases h : x = parent <;> simp [modify,h]
  · rfl
  · rfl

theorem inheritRepresents {hole} (rep : Represents s hole lists) (p) : Represents (s.inherit p) hole lists := by
  unfold inherit
  split
  · exact rep
  · exact representsModify rep rfl rfl rfl Iff.rfl (fun _ _ => Iff.rfl)

inductive Event where
  | create (place : Option Addr) (priority : Nat)
  | createUser (place : Option Addr) (priority : Nat)
  | start
  | yield
  | tick
  | sleepOn (chan : Option Addr)
  | wake (p : Addr)
  | wakeup (chan : Option Addr)
  | send (p : Addr) (sig : Nat)
  | signals (sigact : Nat → SigAction) (pending blocked : BitVec 64)
  | fork (place : Option Addr) (cloned : Bool)
  | exit (status : Int) (released : List (Option Addr))
  | reap (p : Addr)

def unused (s : Scheduler) : Option Addr → Bool
  | none => true
  | some p => !s.allProcs.contains p

/- Refused: an allocation of memory in use, a call with no current process, sleep or
exit of the idle process, the exit of init (a kernel panic) and reaping the living.
`signals` stands for the calls that rewrite the caller's own signal state. -/
def step (idle : Addr) (s : Scheduler) : Event → Option Scheduler
  | .create place priority =>
    if s.unused place then some (s.processCreate place priority).2 else none
  | .createUser place priority =>
    if s.unused place then some (s.processCreateUser place priority).2 else none
  | .start => if s.current = none then some s.start else none
  | .yield => if s.current.isSome then some s.schedulerYield else none
  | .tick => some s.schedulerTick
  | .sleepOn chan => match s.current with
    | none => none
    | some c => if c = idle then none else some (s.sleepOn chan)
  | .wake p => if p ∈ s.allProcs then some (s.processWake p) else none
  | .wakeup chan => some (s.wakeup chan)
  | .send p sig => if p ∈ s.allProcs then some (s.signalSend (some p) sig) else none
  | .signals sigact pending blocked => s.current.map (fun c =>
      s.modify c (fun x => {x with sigact := sigact, sigPending := pending, sigBlocked := blocked}))
  | .fork place cloned => match s.current with
    | none => none
    | some c =>
      if (s.procs c).isUser && s.unused place then some (s.processFork place cloned).2 else none
  | .exit status released => match s.current with
    | none => none
    | some c =>
      if c = idle ∨ (s.procs c).pid = 1 then none else some (s.schedulerExit status released)
  | .reap p =>
    if p ∈ s.allProcs ∧ (s.procs p).state = .terminated then some (s.processReap p) else none

def boot (idle : Addr) : Scheduler := (init.processCreate (some idle) prioIdle).2

theorem unusedFresh (h : s.unused (some p) = true) : p ∉ s.allProcs := by
  simpa [unused] using h

theorem bootConsistent (idle) : Consistent idle (boot idle) := by
  have rep : Represents init (fun _ => False) (fun _ => []) := ⟨fun _ _ => emptyQueue _ _,fun q _ p => by simp [init]⟩
  let x : Process := blank 0 prioIdle
  have shape : boot idle = (init.enroll idle x).queuePushBack idle := rfl
  have atIdle : (init.enroll idle x).procs idle = x := by simp [enroll]
  have pushed := representsPush (enrollRepresents (x := x) rep (p := idle) (by simp [init])) rfl
    mem_cons_self (by rw [atIdle]; rfl) (by rw [atIdle]; decide)
  have empty : (fun y : Addr => y = idle ∧ y ≠ idle) = (fun _ => False) := by funext y; simp
  rw [empty] at pushed
  have frame := pushFrame (init.enroll idle x) idle
  have all : (boot idle).allProcs = [idle] := by rw [shape,frame.all]; rfl
  have current : (boot idle).current = none := by rw [shape,frame.current]; rfl
  refine ⟨⟨shape ▸ ⟨_,pushed⟩,?_,?_,?_,?_,?_,?_,?_⟩,?_⟩
  · intro p inside
    cases mem_singleton.mp inside
    rw [shape,frame.priority,atIdle]; decide
  · rw [all]; exact nodup_singleton idle
  · intro c h; rw [current] at h; contradiction
  · intro p inside runs
    cases mem_singleton.mp inside
    rw [shape,frame.state,atIdle] at runs
    contradiction
  · rw [all]; exact mem_singleton_self idle
  · rw [shape,frame.state,atIdle]; exact .inl rfl
  · rw [shape,frame.priority,atIdle]; rfl
  · intro c h; rw [current] at h; contradiction

inductive ForkEnds (s : Scheduler) : Option Addr → Option Addr × Scheduler → Prop where
  | nothing (place : Option Addr) : ForkEnds s place (none,s)
  | failed {p : Addr} {x : Process} (ready : x.state = .ready) : ForkEnds s (some p) (none,(s.enroll p x).processReap p)
  | born {p : Addr} {x : Process} (ready : x.state = .ready) (bound : x.priority < numSchedQueues) :
      ForkEnds s (some p) (some p,(s.enroll p x).queuePushBack p)

theorem forkEnds (s : Scheduler) (place cloned) : ForkEnds s place (s.processFork place cloned) := by
  unfold processFork
  split
  · exact .nothing place
  split
  · exact .nothing place
  rename_i allocated
  obtain ⟨rfl,x,rfl,ready,bound⟩ := allocEnrolls allocated
  dsimp only
  split
  · rw [enrollModify]
    exact .born ready bound
  · exact .failed ready

theorem startEq (stopped : s.current = none) : s.start = s.schedulerYield := by
  unfold start schedulerYield
  cases s.pickNext with
  | mk found popped => cases found <;> simp [stopped,requeue]

inductive Steps (idle : Addr) (s : Scheduler) : Event → Scheduler → Prop where
  | create {place priority} (fresh : s.unused place = true) :
      Steps idle s (.create place priority) (s.processCreate place priority).2
  | createUser {place priority} (fresh : s.unused place = true) :
      Steps idle s (.createUser place priority) (s.processCreateUser place priority).2
  | start (stopped : s.current = none) : Steps idle s .start s.schedulerYield
  | yield : Steps idle s .yield s.schedulerYield
  | tick : Steps idle s .tick s.schedulerTick
  | sleepOn {c chan} (atCurrent : s.current = some c) (notIdle : c ≠ idle) :
      Steps idle s (.sleepOn chan) (s.sleepOn chan)
  | wake {p : Addr} (live : p ∈ s.allProcs) : Steps idle s (.wake p) (s.processWake p)
  | wakeup {chan} : Steps idle s (.wakeup chan) (s.wakeup chan)
  | send {p sig} (live : p ∈ s.allProcs) : Steps idle s (.send p sig) (s.signalSend (some p) sig)
  | signals {c sigact pending blocked} (atCurrent : s.current = some c) :
      Steps idle s (.signals sigact pending blocked)
        (s.modify c (fun x => {x with sigact := sigact, sigPending := pending, sigBlocked := blocked}))
  | fork {c place cloned} (atCurrent : s.current = some c) (fresh : s.unused place = true) :
      Steps idle s (.fork place cloned) (s.processFork place cloned).2
  | exit {c status released} (atCurrent : s.current = some c) (notIdle : c ≠ idle)
      (notInit : (s.procs c).pid ≠ 1) : Steps idle s (.exit status released) (s.schedulerExit status released)
  | reap {p : Addr} (dead : (s.procs p).state = .terminated) : Steps idle s (.reap p) (s.processReap p)

theorem stepSteps {e} (taken : step idle s e = some t) : Steps idle s e t := by
  cases e with
  | create place priority =>
    obtain ⟨guard,⟨⟩⟩ := ite_none_right_eq_some.mp taken
    exact .create guard
  | createUser place priority =>
    obtain ⟨guard,⟨⟩⟩ := ite_none_right_eq_some.mp taken
    exact .createUser guard
  | start =>
    obtain ⟨stopped,⟨⟩⟩ := ite_none_right_eq_some.mp taken
    rw [startEq stopped]
    exact .start stopped
  | yield =>
    obtain ⟨_,⟨⟩⟩ := ite_none_right_eq_some.mp taken
    exact .yield
  | tick =>
    cases Option.some.inj taken
    exact .tick
  | wake p =>
    obtain ⟨guard,⟨⟩⟩ := ite_none_right_eq_some.mp taken
    exact .wake guard
  | wakeup chan =>
    cases Option.some.inj taken
    exact .wakeup
  | send p sig =>
    obtain ⟨guard,⟨⟩⟩ := ite_none_right_eq_some.mp taken
    exact .send guard
  | reap p =>
    obtain ⟨guard,⟨⟩⟩ := ite_none_right_eq_some.mp taken
    exact .reap guard.2
  | sleepOn chan =>
    cases atCurrent : s.current with
    | none => simp [step,atCurrent] at taken
    | some c =>
      simp only [step,atCurrent,ite_none_left_eq_some,Option.some.injEq] at taken
      obtain ⟨notIdle,rfl⟩ := taken
      exact .sleepOn atCurrent notIdle
  | signals sigact pending blocked =>
    cases atCurrent : s.current with
    | none => simp [step,atCurrent] at taken
    | some c =>
      simp only [step,atCurrent,map_some,Option.some.injEq] at taken
      subst taken
      exact .signals atCurrent
  | fork place cloned =>
    cases atCurrent : s.current with
    | none => simp [step,atCurrent] at taken
    | some c =>
      simp only [step,atCurrent,Bool.and_eq_true,ite_none_right_eq_some,Option.some.injEq] at taken
      obtain ⟨⟨_,fresh⟩,rfl⟩ := taken
      exact .fork atCurrent fresh
  | exit status released =>
    cases atCurrent : s.current with
    | none => simp [step,atCurrent] at taken
    | some c =>
      simp only [step,atCurrent,not_or,ite_none_left_eq_some,Option.some.injEq] at taken
      obtain ⟨⟨notIdle,notInit⟩,rfl⟩ := taken
      exact .exit atCurrent notIdle notInit

section

variable (consistent : Consistent idle s)
include consistent

theorem enrollConsistent (fresh : p ∉ s.allProcs) (ready : x.state = .ready)
    (bound : x.priority < numSchedQueues) : Consistent idle ((s.enroll p x).queuePushBack p) := by
  obtain ⟨lists,rep⟩ := consistent.queued
  have atP : (s.enroll p x).procs p = x := by simp [enroll]
  have elsewhere y (inside : y ∈ s.allProcs) : (s.enroll p x).procs y = s.procs y := by
    have yp : y ≠ p := fun e => fresh (e ▸ inside)
    simp [enroll,yp]
  have pushed := representsPush (enrollRepresents (x := x) rep fresh) rfl mem_cons_self
    (by rw [atP]; exact ready) (by rw [atP]; exact bound)
  have empty : (fun y : Addr => y = p ∧ y ≠ p) = (fun _ => False) := by funext y; simp
  rw [empty] at pushed
  have frame := pushFrame (s.enroll p x) p
  have idleSame := elsewhere idle consistent.idleLive
  refine ⟨⟨⟨_,pushed⟩,?_,?_,?_,?_,?_,?_,?_⟩,?_⟩
  · intro y inside
    rw [frame.all] at inside
    rw [frame.priority]
    rcases mem_cons.mp inside with same | old
    · subst y; rw [atP]; exact bound
    · rw [elsewhere y old]; exact consistent.bounded y old
  · rw [frame.all]; exact nodup_cons.mpr ⟨fresh,consistent.distinct⟩
  · intro c atCurrent
    rw [frame.current] at atCurrent
    rw [frame.all]
    exact mem_cons_of_mem p (consistent.currentLive c atCurrent)
  · intro y inside runs
    rw [frame.all] at inside
    rw [frame.state] at runs
    rw [frame.current]
    rcases mem_cons.mp inside with same | old
    · subst y; rw [atP,ready] at runs; contradiction
    · rw [elsewhere y old] at runs; exact consistent.running y old runs
  · rw [frame.all]; exact mem_cons_of_mem p consistent.idleLive
  · rw [frame.state,idleSame]; exact consistent.idleAwake
  · rw [frame.priority,idleSame]; exact consistent.idleLast
  intro c atCurrent
  rw [frame.current] at atCurrent
  rw [frame.state,elsewhere c (consistent.currentLive c atCurrent)]
  exact consistent.currentRuns c atCurrent

theorem eraseConsistent {hole} (rep : Represents t hole lists)
    (only : ∀ x, hole x → x = p) (absent : ∀ q < numSchedQueues, p ∉ lists q)
    (states : ∀ x ∈ s.allProcs, x ≠ p → (t.procs x).state = (s.procs x).state)
    (priorities : ∀ x ∈ s.allProcs, x ≠ p → (t.procs x).priority = (s.procs x).priority)
    (members : ∀ x, x ∈ t.allProcs.erase p ↔ x ∈ s.allProcs ∧ x ≠ p)
    (unique : (t.allProcs.erase p).Nodup) (current : t.current = s.current)
    (gone : s.current ≠ some p) (notIdle : idle ≠ p) : Consistent idle {t with allProcs := t.allProcs.erase p} := by
  refine ⟨⟨⟨lists,rep.queues,?_⟩,?_,unique,?_,?_,?_,?_,?_⟩,?_⟩
  · intro q h x
    rw [rep.members q h x]
    by_cases same : x = p
    · subst x
      have out := absent q h
      rw [rep.members q h] at out
      constructor
      · exact fun inside => absurd inside out
      · intro inside; exact absurd rfl ((members p).mp inside.1).2
    have free : ¬ hole x := fun h => same (only x h)
    have live : x ∈ t.allProcs ↔ x ∈ t.allProcs.erase p := by rw [mem_erase_of_ne same]
    simp [free,live]
  · intro x inside
    obtain ⟨old,ne⟩ := (members x).mp inside
    rw [priorities x old ne]; exact consistent.bounded x old
  · intro c atCurrent
    have old : s.current = some c := current ▸ atCurrent
    exact (members c).mpr ⟨consistent.currentLive c old,fun e => gone (e ▸ old)⟩
  · intro x inside runs
    obtain ⟨old,ne⟩ := (members x).mp inside
    rw [states x old ne] at runs
    exact current ▸ consistent.running x old runs
  · exact (members idle).mpr ⟨consistent.idleLive,notIdle⟩
  · rw [states idle consistent.idleLive notIdle]; exact consistent.idleAwake
  · rw [priorities idle consistent.idleLive notIdle]; exact consistent.idleLast
  intro c atCurrent
  have old : s.current = some c := current ▸ atCurrent
  rw [states c (consistent.currentLive c old) (fun e => gone (e ▸ old))]
  exact consistent.currentRuns c old

theorem reapConsistent
    (dead : (s.procs p).state = .terminated) : Consistent idle (s.processReap p) := by
  obtain ⟨lists,rep⟩ := consistent.queued
  have frame := inheritFrame s p
  rw [reapEq]
  refine eraseConsistent consistent (inheritRepresents rep p) (fun _ h => h.elim) ?_
    (fun x _ _ => frame.state x) (fun x _ _ => frame.priority x) ?_ ?_ frame.current ?_ ?_
  · intro q h inside
    have ready := ((rep.members q h p).mp inside).2.1
    rw [dead] at ready
    contradiction
  · intro x
    rw [frame.all,consistent.distinct.mem_erase_iff]
    exact And.comm
  · rw [frame.all]; exact consistent.distinct.erase p
  · intro atCurrent
    have runs := consistent.currentRuns p atCurrent
    rw [dead] at runs
    contradiction
  rintro rfl
  rcases consistent.idleAwake with h | h <;> rw [dead] at h <;> contradiction

theorem forkFailed (fresh : p ∉ s.allProcs) :
    Consistent idle ((s.enroll p x).processReap p) := by
  obtain ⟨lists,rep⟩ := consistent.queued
  have enrolled := enrollRepresents (x := x) rep fresh
  have frame := inheritFrame (s.enroll p x) p
  have other y (h : y ≠ p) : (s.enroll p x).procs y = s.procs y := by simp [enroll,h]
  have all : ((s.enroll p x).inherit p).allProcs.erase p = s.allProcs := by rw [frame.all]; simp [enroll]
  rw [reapEq]
  refine eraseConsistent consistent (inheritRepresents enrolled p) (fun _ h => h) ?_ ?_ ?_ ?_ ?_ frame.current ?_ ?_
  · intro q h inside
    exact ((enrolled.members q h p).mp inside).2.2.2 rfl
  · intro y _ ne; rw [frame.state,other y ne]
  · intro y _ ne; rw [frame.priority,other y ne]
  · intro y
    rw [all]
    exact ⟨fun inside => ⟨inside,fun e => fresh (e ▸ inside)⟩,fun h => h.1⟩
  · rw [all]; exact consistent.distinct
  · exact fun atCurrent => fresh (consistent.currentLive p atCurrent)
  · exact fun e => fresh (e ▸ consistent.idleLive)

theorem createConsistent (priority) (fresh : s.unused place = true) :
    Consistent idle (s.processCreate place priority).2 ∧ Consistent idle (s.processCreateUser place priority).2 := by
  unfold processCreate processCreateUser
  cases allocated : s.processAlloc place priority with
  | none => exact ⟨consistent,consistent⟩
  | some pair =>
    obtain ⟨p,t⟩ := pair
    obtain ⟨rfl,x,rfl,ready,bound⟩ := allocEnrolls allocated
    have new := unusedFresh fresh
    dsimp only
    rw [enrollModify]
    exact ⟨enrollConsistent consistent new ready bound,enrollConsistent consistent new ready bound⟩

theorem forkConsistent (cloned) (fresh : s.unused place = true) :
    Consistent idle (s.processFork place cloned).2 := by
  have ends := forkEnds s place cloned
  generalize s.processFork place cloned = result at ends ⊢
  cases ends with
  | nothing => exact consistent
  | failed => exact forkFailed consistent (unusedFresh fresh)
  | born ready bound => exact enrollConsistent consistent (unusedFresh fresh) ready bound

theorem tickConsistent : Consistent idle s.schedulerTick := by
  unfold schedulerTick
  cases s.current with
  | none => exact consistent
  | some c =>
    have aged : Consistent idle (s.age c) := harmlessConsistent (harmlessModify rfl rfl rfl rfl) consistent
    dsimp only
    split
    · exact yieldConsistent aged.toSettled
    · exact aged

theorem sleepSettled {c} (atCurrent : s.current = some c) (notIdle : c ≠ idle) (chan) :
    Settled idle (s.block c chan) :=
  settledStop consistent.toSettled (by rw [consistent.currentRuns c atCurrent]; decide) notIdle rfl rfl rfl (.inl rfl)

theorem stepConsistent {e} (taken : step idle s e = some t) : Consistent idle t := by
  cases stepSteps taken with
  | create fresh => exact (createConsistent consistent _ fresh).1
  | createUser fresh => exact (createConsistent consistent _ fresh).2
  | start | yield => exact yieldConsistent consistent.toSettled
  | tick => exact tickConsistent consistent
  | sleepOn atCurrent notIdle =>
    simp only [sleepOn,atCurrent]
    exact yieldConsistent (sleepSettled consistent atCurrent notIdle _)
  | wake live => exact harmlessConsistent (processWakeHarmless live) consistent
  | wakeup => exact harmlessConsistent (wakeupHarmless idle s _) consistent
  | send live =>
    refine harmlessConsistent (signalSendHarmless _ ?_) consistent
    intro x same
    cases same
    exact live
  | signals atCurrent => exact harmlessConsistent (harmlessModify rfl rfl rfl rfl) consistent
  | fork atCurrent fresh => exact forkConsistent consistent _ fresh
  | exit atCurrent notIdle notInit =>
    simp only [schedulerExit,atCurrent]
    exact yieldConsistent (terminateSettled consistent atCurrent notIdle _ _).1
  | reap dead => exact reapConsistent consistent dead

end

theorem runConsistent {events} (reached : Runs.run (step idle) (boot idle) events = some s) : Consistent idle s :=
  Runs.runInvariant (fun _ _ _ consistent taken => stepConsistent consistent taken) (bootConsistent idle) reached

end Miviex.Scheduler
