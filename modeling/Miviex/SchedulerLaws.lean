import Miviex.SchedulerRuns

/-! The ready queues in every run, and the priority law at every return of
`schedulerYield`. -/
namespace Miviex.Scheduler
open LinkedQueue

/- Each queue is a well-formed doubly linked list of exactly the READY processes of
its priority. -/
structure ReadyQueues (s : Scheduler) (lists : Nat → List Addr) : Prop where
  linked : ∀ q < numSchedQueues, Queue (fun p => (s.procs p).next) (fun p => (s.procs p).prev)
    (s.readyHead q) (s.readyTail q) (lists q)
  once : ∀ p ∈ s.allProcs, (s.procs p).state = .ready → (s.procs p).priority < numSchedQueues ∧
    ∀ q < numSchedQueues, (lists q).count p = if q = (s.procs p).priority then 1 else 0
  only : ∀ q < numSchedQueues, ∀ p ∈ lists q, p ∈ s.allProcs ∧ (s.procs p).state = .ready

def OneRunning (s : Scheduler) : Prop :=
  ∃ c ∈ s.allProcs, s.current = some c ∧ ∀ p ∈ s.allProcs, (s.procs p).state = .running ↔ p = c

variable {idle : Addr} {s t : Scheduler}

theorem consistentQueues (consistent : Consistent idle s) : ∃ lists, ReadyQueues s lists := by
  obtain ⟨lists,rep⟩ := consistent.queued
  refine ⟨lists,rep.queues,?_,?_⟩
  · intro p live ready
    have bound := consistent.bounded p live
    refine ⟨bound,fun q h => ?_⟩
    split
    · rename_i same
      have member : p ∈ lists q := (rep.members q h p).mpr ⟨live,ready,same.symm,fun h => h⟩
      exact List.count_eq_one_of_mem (rep.queues q h).distinct member
    rename_i other
    refine List.count_eq_zero.mpr (fun member => ?_)
    exact other ((rep.members q h p).mp member).2.2.1.symm
  intro q h p member
  have facts := (rep.members q h p).mp member
  exact ⟨facts.1,facts.2.1⟩

theorem settledPicks (settled : Settled idle s) (notIdle : s.current ≠ some idle) : s.pickNext.1 ≠ none := by
  intro stuck
  obtain ⟨lists,rep⟩ := settled.queued
  have empty := (pickNextNone rep (t := s.pickNext.2) (by rw [← stuck])).2
  have asleep : (s.procs idle).state = .ready :=
    settled.idleAwake.resolve_right (fun runs => notIdle (settled.running idle settled.idleLive runs))
  have bound := settled.bounded idle settled.idleLive
  have member := (rep.members _ bound idle).mpr ⟨settled.idleLive,asleep,rfl,fun h => h⟩
  rw [empty _ bound] at member
  cases member

theorem yieldKeepsCurrent (started : s.current ≠ none) : s.schedulerYield.current ≠ none := by
  unfold schedulerYield
  cases picked : s.pickNext with
  | mk found popped =>
  cases found with
  | none =>
    have same : popped.current = s.current := by
      unfold pickNext at picked
      split at picked
      · have frame := popFrame s (by assumption)
        rw [picked] at frame
        exact frame.current
      · cases picked; rfl
    simpa [same] using started
  | some next => simp

theorem calmKeepsCurrent (harmless : Harmless idle s t)
    (settled : Settled idle s) (started : s.current ≠ none) : t.current ≠ none := by
  rw [(harmless settled).2.current]; exact started

theorem enrolledKeepsCurrent {place priority p}
    (allocated : s.processAlloc place priority = some (p,t)) : t.current = s.current := by
  obtain ⟨_,x,rfl,_⟩ := allocEnrolls allocated
  rfl

section

variable (consistent : Consistent idle s)
include consistent

theorem stepKeepsCurrent {e}
    (taken : step idle s e = some t) (started : s.current ≠ none) : t.current ≠ none := by
  have settled := consistent.toSettled
  cases stepSteps taken with
  | @create place priority fresh =>
    unfold processCreate
    cases allocated : s.processAlloc place priority with
    | none => exact started
    | some pair =>
      rw [(pushFrame _ pair.1).current,enrolledKeepsCurrent allocated]
      exact started
  | @createUser place priority fresh =>
    unfold processCreateUser
    cases allocated : s.processAlloc place priority with
    | none => exact started
    | some pair =>
      rw [(pushFrame _ pair.1).current]
      exact enrolledKeepsCurrent allocated ▸ started
  | start stopped => exact absurd stopped started
  | yield => exact yieldKeepsCurrent started
  | tick =>
    unfold schedulerTick
    cases atCurrent : s.current with
    | none => exact absurd atCurrent started
    | some c =>
      have aged : (s.age c).current ≠ none := started
      dsimp only
      split
      · exact yieldKeepsCurrent aged
      · exact aged
  | @sleepOn c chan atCurrent notIdle =>
    simp only [sleepOn,atCurrent]
    exact yieldKeepsCurrent (s := s.block c chan) started
  | wake live => exact calmKeepsCurrent (processWakeHarmless live) settled started
  | wakeup => exact calmKeepsCurrent (wakeupHarmless idle s _) settled started
  | send live =>
    refine calmKeepsCurrent (signalSendHarmless _ (fun x same => ?_)) settled started
    cases same
    exact live
  | signals atCurrent => exact started
  | @fork c place cloned atCurrent fresh =>
    have ends := forkEnds s place cloned
    generalize s.processFork place cloned = result at ends ⊢
    cases ends with
    | nothing => exact started
    | @failed p x =>
      change ((s.enroll p x).inherit p).current ≠ none
      rw [(inheritFrame (s.enroll p x) p).current]
      exact started
    | @born p x =>
      rw [(pushFrame (s.enroll p x) p).current]
      exact started
  | @exit c status released atCurrent notIdle notInit =>
    simp only [schedulerExit,atCurrent]
    have dying := (terminateSettled consistent atCurrent notIdle status released).1
    rcases yieldCases dying.queued dying.currentLive dying.bounded with ⟨same,none⟩ | ⟨next,chosen,_⟩
    · rw [same,dying.running idle dying.idleLive (dying.idleAwake.resolve_left (none idle dying.idleLive))]
      simp
    · rw [chosen.current]; simp
  | @reap p dead =>
    change (s.inherit p).current ≠ none
    rw [(inheritFrame s p).current]
    exact started

theorem startRuns (taken : step idle s .start = some t) : t.current ≠ none := by
  simp only [step,Option.ite_none_right_eq_some,Option.some.injEq] at taken
  obtain ⟨stopped,rfl⟩ := taken
  rw [startEq stopped]
  rcases yieldCases consistent.queued consistent.currentLive consistent.bounded with ⟨_,none⟩ | ⟨next,chosen,_⟩
  · have runs := consistent.idleAwake.resolve_left (none idle consistent.idleLive)
    rw [consistent.running idle consistent.idleLive runs] at stopped
    contradiction
  · rw [chosen.current]; simp

theorem runStarted {events} (reached : Runs.run (step idle) s events = some t)
    (started : s.current ≠ none ∨ Event.start ∈ events) : t.current ≠ none := by
  induction events generalizing s with
  | nil => cases reached; simpa using started
  | cons e rest ih =>
  simp only [Runs.run,Option.bind_eq_some_iff] at reached
  obtain ⟨next,taken,tail⟩ := reached
  refine ih (stepConsistent consistent taken) tail ?_
  rcases started with running | member
  · exact .inl (stepKeepsCurrent consistent taken running)
  rcases List.mem_cons.mp member with same | later
  · subst same; exact .inl (startRuns consistent taken)
  · exact .inr later

end

/- In every run: the queues, and nobody RUNNING but the current process; once
`scheduler_start` has run there is one, it is not asleep, and a process other than idle
that gives up the CPU always finds a successor. -/
theorem readyQueuesInEveryRun {idle : Addr} {s : Scheduler} {events : List Event}
    (reached : Runs.run (step idle) (boot idle) events = some s) : (∃ lists, ReadyQueues s lists) ∧
    (∀ p ∈ s.allProcs, (s.procs p).state = .running ↔ s.current = some p) ∧ (Event.start ∈ events → OneRunning s) ∧
    (∀ c, s.current = some c → c ≠ idle → s.pickNext.1 ≠ none ∧ ∀ chan, (s.block c chan).pickNext.1 ≠ none ∧
    ∀ d, (s.sleepOn chan).current = some d → ((s.sleepOn chan).procs d).state = .running) := by
  have consistent := runConsistent reached
  have iff p (live : p ∈ s.allProcs) : (s.procs p).state = .running ↔ s.current = some p :=
    ⟨consistent.running p live,consistent.currentRuns p⟩
  refine ⟨consistentQueues consistent,iff,fun started => ?_,fun c atCurrent notIdle => ?_⟩
  · have some := runStarted (bootConsistent idle) reached (.inr started)
    cases atCurrent : s.current with
    | none => exact absurd atCurrent some
    | some c =>
      refine ⟨c,consistent.currentLive c atCurrent,atCurrent,fun p live => ?_⟩
      rw [iff p live,atCurrent,Option.some.injEq]
      exact eq_comm
  have other : s.current ≠ some idle := by rw [atCurrent]; exact fun same => notIdle (Option.some.inj same)
  refine ⟨settledPicks consistent.toSettled other,fun chan => ?_⟩
  have asleep := sleepSettled consistent atCurrent notIdle chan
  refine ⟨settledPicks asleep other,fun d atNext => ?_⟩
  have woken : Consistent idle (s.sleepOn chan) := by simp only [sleepOn,atCurrent]; exact yieldConsistent asleep
  exact woken.currentRuns d atNext

theorem readyQueuesAfterStart : ∃ s, Runs.run (step 0) (boot 0) [.createUser (some 1) prioUser,.start,.sleepOn none] = some s ∧
    OneRunning s ∧ s.current = some 0 := by
  have reached : Runs.run (step 0) (boot 0) [.createUser (some 1) prioUser,.start,.sleepOn none] = some _ := rfl
  exact ⟨_,reached,(readyQueuesInEveryRun reached).2.2.1 (by simp),rfl⟩

theorem nobodyRunsAtBoot : Runs.run (step 0) (boot 0) [] = some (boot 0) ∧ ¬ OneRunning (boot 0) := by
  refine ⟨rfl,?_⟩
  rintro ⟨c,_,atCurrent,_⟩
  have stopped : (boot 0).current = none := rfl
  cases atCurrent

def StrictPriority (s : Scheduler) : Prop :=
  ∀ c ∈ s.allProcs, (s.procs c).state = .running →
    ∀ r ∈ s.allProcs, (s.procs r).state = .ready → (s.procs c).priority ≤ (s.procs r).priority

def Outranks (s : Scheduler) (c : Addr) : Prop :=
  (∃ r ∈ s.allProcs, (s.procs r).state = .ready) ∧
    ∀ r ∈ s.allProcs, (s.procs r).state = .ready → (s.procs c).priority < (s.procs r).priority

def Yields (s : Scheduler) : Event → Prop
  | .yield | .sleepOn _ | .exit _ _ => True
  | .tick => ∃ c, s.current = some c ∧ (s.procs c).ticksLeft ≤ 1
  | _ => False

/- The process giving up the CPU is still runnable and outranks all that wait. -/
def Displaces (s : Scheduler) (e : Event) : Prop :=
  ∃ c, s.current = some c ∧ (e = .yield ∨ e = .tick ∧ (s.procs c).ticksLeft ≤ 1) ∧ s.Outranks c

theorem yieldStrict (settled : Settled idle s) : StrictPriority s.schedulerYield ↔
    ¬ ∃ c, s.current = some c ∧ (s.procs c).state = .running ∧ s.Outranks c := by
  rcases yieldCases settled.queued settled.currentLive settled.bounded with ⟨same,none⟩ | ⟨next,chosen,_⟩
  · rw [same]
    constructor
    · rintro _ ⟨c,_,_,⟨r,live,ready⟩,_⟩
      exact none r live ready
    intro _ c _ _ r live ready
    exact absurd ready (none r live)
  constructor
  · rintro strict ⟨c,atCurrent,runs,_,lower⟩
    have live := settled.currentLive c atCurrent
    have apart : c ≠ next := by
      rintro rfl
      rw [chosen.ready] at runs
      contradiction
    have below := lower next chosen.live chosen.ready
    have above := strict next (by rw [chosen.all]; exact chosen.live) (by rw [chosen.state]; simp)
      c (by rw [chosen.all]; exact live) (by rw [chosen.state]; simp [apart,atCurrent,runs])
    rw [chosen.priority,chosen.priority] at above
    omega
  intro ranked c live runs r inside ready
  rw [chosen.all] at live inside
  rw [chosen.state] at runs ready
  rw [chosen.priority,chosen.priority]
  have atNext : c = next := by
    by_contra other
    rw [if_neg other] at runs
    split at runs
    · contradiction
    rename_i displaced
    exact displaced ⟨settled.running c live runs,runs⟩
  subst atNext
  split at ready
  · contradiction
  split at ready
  · rename_i outgoing
    by_contra above
    refine ranked ⟨r,outgoing.1,outgoing.2,⟨c,chosen.live,chosen.ready⟩,fun w waits idleW => ?_⟩
    have least := chosen.minimal w waits idleW
    omega
  · exact chosen.minimal r inside ready

theorem yieldStrictStopped {c} (settled : Settled idle s)
    (atCurrent : s.current = some c) (stopped : (s.procs c).state ≠ .running) : StrictPriority s.schedulerYield := by
  refine (yieldStrict settled).mpr ?_
  rintro ⟨d,atD,runs,_⟩
  cases Option.some.inj (atCurrent.symm.trans atD)
  exact stopped runs

theorem ageOutranks (c d) : (s.age c).Outranks d ↔ s.Outranks d := by
  have same p : ((s.age c).procs p).state = (s.procs p).state ∧ ((s.age c).procs p).priority = (s.procs p).priority := by
    by_cases h : p = c <;> simp [age,modify,h]
  simp only [Outranks,same]
  exact Iff.rfl

theorem stepStrict {e} (consistent : Consistent idle s)
    (taken : step idle s e = some t) (yields : Yields s e) : StrictPriority t ↔ ¬ Displaces s e := by
  cases stepSteps taken with
  | yield =>
    rw [yieldStrict consistent.toSettled]
    refine not_congr (exists_congr (fun c => ?_))
    constructor
    · rintro ⟨atCurrent,_,ranks⟩; exact ⟨atCurrent,.inl rfl,ranks⟩
    · rintro ⟨atCurrent,_,ranks⟩; exact ⟨atCurrent,consistent.currentRuns c atCurrent,ranks⟩
  | tick =>
    obtain ⟨c,atCurrent,last⟩ := yields
    have aged : Consistent idle (s.age c) := harmlessConsistent (harmlessModify rfl rfl rfl rfl) consistent
    have expired : ((s.age c).procs c).ticksLeft = 0 := by
      simp only [age,modify,Function.update_self]
      omega
    simp only [schedulerTick,atCurrent,expired,if_true]
    rw [yieldStrict aged.toSettled]
    refine not_congr (exists_congr (fun d => ?_))
    rw [ageOutranks]
    constructor
    · rintro ⟨atD,_,ranks⟩
      cases Option.some.inj (atCurrent.symm.trans atD)
      exact ⟨atCurrent,.inr ⟨rfl,last⟩,ranks⟩
    · rintro ⟨atD,_,ranks⟩; exact ⟨atD,aged.currentRuns d atD,ranks⟩
  | @sleepOn c chan atCurrent notIdle =>
    simp only [sleepOn,atCurrent]
    have asleep : ((s.block c chan).procs c).state ≠ .running := by simp [block,modify]
    refine iff_of_true (yieldStrictStopped (sleepSettled consistent atCurrent notIdle chan) atCurrent asleep) ?_
    simp [Displaces]
  | @exit c status released atCurrent notIdle notInit =>
    simp only [schedulerExit,atCurrent]
    obtain ⟨settled,still,dead⟩ := terminateSettled consistent atCurrent notIdle status released
    refine iff_of_true (yieldStrictStopped settled still (by rw [dead]; decide)) ?_
    simp [Displaces]
  | create | createUser | start | wake | wakeup | send | signals | fork | reap => exact yields.elim

/- In every run the law holds at each return of `scheduler_yield` exactly when no step
switches away from a runnable process that outranks all that wait. -/
theorem strictPriorityAtEveryYield (idle : Addr) (events : List Event) :
    (∀ m ∈ Runs.moves (step idle) (boot idle) events, Yields m.1 m.2 → ∀ t, step idle m.1 m.2 = some t → StrictPriority t) ↔
    ∀ m ∈ Runs.moves (step idle) (boot idle) events, ¬ Displaces m.1 m.2 := by
  have reached : ∀ m ∈ Runs.moves (step idle) (boot idle) events, Consistent idle m.1 ∧ ∃ t, step idle m.1 m.2 = some t :=
    Runs.movesInvariant (fun _ _ _ consistent taken => stepConsistent consistent taken) (bootConsistent idle)
  refine forall₂_congr (fun m member => ?_)
  obtain ⟨consistent,t,taken⟩ := reached m member
  constructor
  · intro strict displaced
    have yields : Yields m.1 m.2 := by
      obtain ⟨c,atCurrent,how | ⟨how,last⟩,_⟩ := displaced
      · rw [how]; exact trivial
      · rw [how]; exact ⟨c,atCurrent,last⟩
    exact (stepStrict consistent taken yields).mp (strict yields t taken) displaced
  intro kept yields u step
  exact (stepStrict consistent step yields).mpr kept

theorem idleDisplacesUser : ∃ s, Runs.run (step 0) (boot 0) (.createUser (some 1) prioUser::.start::List.replicate 10 .tick)
    = some s ∧ s.current = some 0 ∧ (s.procs 0).state = .running ∧
    (s.procs 1).state = .ready ∧ (s.procs 1).priority < (s.procs 0).priority ∧ ¬ StrictPriority s := by
  refine ⟨_,rfl,by decide,by decide,by decide,by decide,fun strict => ?_⟩
  exact absurd (strict 0 (by decide) (by decide) 1 (by decide) (by decide)) (by decide)

end Miviex.Scheduler
