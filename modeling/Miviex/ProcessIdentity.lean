import Mathlib.Data.List.Find
import Miviex.Jobs

/-! Who a process is, apart from where it stands in the queues. Scheduling, sleeping, waking and
signals leave it alone. -/
namespace Miviex

open List

structure Identity where
  pid : UInt32
  ppid : UInt32
  pgid : UInt32
  sid : UInt32
  exitStatus : Int
  sigact : Nat → SigAction
  isUser : Bool
  dead : Bool

def Process.identity (x : Process) : Identity :=
  ⟨x.pid,x.ppid,x.pgid,x.sid,x.exitStatus,x.sigact,x.isUser,x.state == .terminated⟩

namespace Scheduler

def who (s : Scheduler) (p : Addr) : Identity := (s.procs p).identity

structure Same (s t : Scheduler) : Prop where
  all : t.allProcs = s.allProcs
  next : t.nextPid = s.nextPid
  who : ∀ p, t.who p = s.who p

variable {s t u : Scheduler} {p me : Addr}

theorem Same.refl (s) : Same s s := ⟨rfl,rfl,fun _ => rfl⟩

theorem Same.trans (first : Same s t) (second : Same t u) : Same s u :=
  ⟨second.all.trans first.all,second.next.trans first.next,fun p => (second.who p).trans (first.who p)⟩

theorem modifyWho (s : Scheduler) (p) (f : Process → Process) (x) :
    (s.modify p f).who x = if x = p then (f (s.procs p)).identity else s.who x := by
  unfold who modify
  split
  · rename_i same; subst same; simp
  · rename_i other; simp [other]

theorem Same.modify {f} (keeps : (f (s.procs p)).identity = s.who p) : Same s (s.modify p f) := by
  refine ⟨rfl,rfl,fun x => ?_⟩
  rw [modifyWho]
  split
  · rename_i same; subst same; exact keeps
  · rfl

theorem Relinks.same (relinks : Relinks s t) : Same s t := by
  refine ⟨relinks.all,relinks.nextPid,fun p => ?_⟩
  obtain ⟨_,_,same⟩ := relinks.procs p
  unfold Scheduler.who
  rw [same]
  rfl

theorem requeueSame (s : Scheduler) (prev) : Same s (s.requeue prev) := by
  unfold requeue
  cases prev with
  | none => exact Same.refl s
  | some c =>
  dsimp only
  split
  · rename_i runs
    have marked : Same s (s.modify c (fun x => {x with state := .ready, ticksLeft := x.quantum})) := by
      apply Same.modify
      simp [Process.identity,who,runs]
    exact marked.trans (pushRelinks _ c).same
  · exact Same.refl s

variable {idle init : Addr}

theorem yieldSame (settled : Settled idle s) : Same s s.schedulerYield := by
  obtain ⟨lists,rep⟩ := settled.queued
  unfold schedulerYield
  have picked := (pickRelinks s).same
  cases choice : s.pickNext with
  | mk found popped =>
  rw [choice] at picked
  cases found with
  | none => exact picked
  | some next =>
  obtain ⟨q,bound,rest,shape,_⟩ := pickNextSome rep choice
  have ready := ((rep.members q bound next).mp (by rw [shape]; exact mem_cons_self)).2.1
  have moved := picked.trans (requeueSame popped s.current)
  have alive : ((popped.requeue s.current).who next).dead = false := by
    rw [moved.who]
    simp [who,Process.identity,ready]
  have runs : Same (popped.requeue s.current)
      ((popped.requeue s.current).modify next (fun x => {x with state := .running})) := by
    apply Same.modify
    simp only [who,Process.identity] at alive ⊢
    rw [alive]
    rfl
  have final := moved.trans runs
  exact ⟨final.all,final.next,final.who⟩

theorem unblockSame (asleep : (s.procs p).state = .blocked) : Same s (s.unblock p) := by
  have marked : Same s (s.modify p (fun x => {x with waitChan := none, state := .ready})) := by
    apply Same.modify
    simp [Process.identity,who,asleep]
  exact marked.trans (pushRelinks _ p).same

theorem processWakeSame (s : Scheduler) (p) : Same s (s.processWake p) := by
  unfold processWake
  split
  · exact unblockSame (by assumption)
  · exact Same.refl s

theorem sameFold {α : Type} {f} (each : ∀ s x, Same s (f s x)) (xs : List α) (s) : Same s (xs.foldl f s) := by
  induction xs generalizing s with
  | nil => exact Same.refl s
  | cons x rest ih => exact (each s x).trans (ih (f s x))

theorem wakeupSame (s : Scheduler) (chan) : Same s (s.wakeup chan) := by
  refine sameFold (fun t p => ?_) s.allProcs s
  unfold wakeupOne
  split
  · rename_i asleep; exact unblockSame asleep.1
  · exact Same.refl t

theorem signalSendSame (s : Scheduler) (p sig) : Same s (s.signalSend p sig) := by
  unfold signalSend
  cases p with
  | none => exact Same.refl s
  | some p =>
  dsimp only
  split
  · exact Same.refl s
  have pended : Same s (s.pend p sig) := Same.modify rfl
  split
  · exact pended.trans (processWakeSame _ p)
  · exact pended

structure Member (s : Scheduler) (pgrp : UInt32) (p : Addr) : Prop where
  live : p ∈ s.allProcs
  user : (s.who p).isUser = true
  group : (s.who p).pgid = pgrp
  awake : (s.who p).dead = false

theorem signalSendPgrpSame (s : Scheduler) (pgrp sig) :
    Same s (s.signalSendPgrp pgrp sig).2 ∧ ∀ p ∈ (s.signalSendPgrp pgrp sig).1, Member s pgrp p := by
  refine foldlRecOn s.allProcs (signalMember pgrp sig) (b := ([],s))
    (motive := fun sent => Same s sent.2 ∧ ∀ p ∈ sent.1, Member s pgrp p)
    ⟨Same.refl s,fun p here => absurd here not_mem_nil⟩ ?_
  rintro ⟨reached,t⟩ ⟨same,members⟩ p live
  unfold signalMember
  dsimp only
  split
  swap
  · exact ⟨same,members⟩
  rename_i member
  refine ⟨same.trans (signalSendSame t (some p) sig),fun q here => ?_⟩
  rcases mem_append.mp here with old | new
  · exact members q old
  cases mem_singleton.mp new
  have identity := same.who p
  refine ⟨live,?_,?_,?_⟩
  · rw [← identity]; exact member.1
  · rw [← identity]; exact member.2.1
  · rw [← identity]; simpa [who,Process.identity] using member.2.2

theorem notifySame (s : Scheduler) (parent) : Same s ((s.signalSend parent sigChld).wakeup parent) :=
  (signalSendSame s parent sigChld).trans (wakeupSame (s.signalSend parent sigChld) parent)

def orphan (pid : UInt32) (x : Identity) : Identity := if x.ppid = pid then {x with ppid := 1} else x

theorem orphanTwice (pid x) : orphan pid (orphan pid x) = orphan pid x := by
  unfold orphan
  by_cases child : x.ppid = pid
  · simp [child]
  · simp [child]

structure Adopted (me : Addr) (list : List Addr) (s t : Scheduler) : Prop where
  all : t.allProcs = s.allProcs
  next : t.nextPid = s.nextPid
  who : ∀ x, t.who x = if x ∈ list ∧ x ≠ me then orphan (s.who me).pid (s.who x) else s.who x

theorem adoptOneAdopted (s me init p) : Adopted me [p] s (adoptOne me (some init) s p) := by
  unfold adoptOne
  split
  · rename_i child
    have moved : Adopted me [p] s (s.modify p (fun x => {x with ppid := 1})) := by
      refine ⟨rfl,rfl,fun x => ?_⟩
      rw [modifyWho]
      by_cases same : x = p
      · subst same
        have atMe : (s.who x).ppid = (s.who me).pid := child.1
        simp [child.2.1,orphan,atMe,Process.identity]
        simp [who,Process.identity]
      · simp [same]
    dsimp only
    split
    · have told := notifySame (s.modify p (fun x => {x with ppid := 1})) (some init)
      exact ⟨told.all.trans moved.all,told.next.trans moved.next,fun x => (told.who x).trans (moved.who x)⟩
    · exact moved
  rename_i notChild
  refine ⟨rfl,rfl,fun x => ?_⟩
  split
  · rename_i here
    have same : x = p := mem_singleton.mp here.1
    have differ : (s.who x).ppid ≠ (s.who me).pid := by
      intro equal
      rw [same] at equal here
      exact notChild ⟨equal,here.2,rfl⟩
    rw [orphan,if_neg differ]
  · rfl

theorem adoptAdopted (me init) (list : List Addr) (s) : Adopted me list s (list.foldl (adoptOne me (some init)) s) := by
  induction list generalizing s with
  | nil => exact ⟨rfl,rfl,fun x => by simp⟩
  | cons p rest ih =>
  have first := adoptOneAdopted s me init p
  have later := ih (adoptOne me (some init) s p)
  refine ⟨later.all.trans first.all,later.next.trans first.next,fun x => ?_⟩
  have atMe : ((adoptOne me (some init) s p).who me).pid = (s.who me).pid := by
    rw [first.who]
    simp
  simp only [foldl_cons]
  rw [later.who,atMe,first.who]
  by_cases mine : x = me
  · simp [mine]
  by_cases same : x = p
  · subst same
    simp [mine,orphanTwice]
  · simp [same,mine]

theorem findSame (all : t.allProcs = s.allProcs) (pids : ∀ p ∈ s.allProcs, (t.who p).pid = (s.who p).pid)
    (pid) : t.processFind pid = s.processFind pid := by
  unfold processFind
  rw [all]
  refine List.find?_congr (fun p live => ?_)
  have same : (t.procs p).pid = (s.procs p).pid := pids p live
  rw [same]

def disinherits (s : Scheduler) (me init : Addr) : Bool :=
  match s.processFind (s.who me).ppid with
  | none => false
  | some parent => parent ≠ init && ignoresChildren (s.procs parent)

structure Exited (me init : Addr) (status : Int) (s t : Scheduler) : Prop where
  all : t.allProcs = s.allProcs
  next : t.nextPid = s.nextPid
  self : t.who me = {s.who me with
    ppid := if s.disinherits me init then 1 else (s.who me).ppid, exitStatus := status, isUser := false, dead := true}
  other : ∀ x ∈ s.allProcs, x ≠ me → t.who x = orphan (s.who me).pid (s.who x)

theorem disinheritWho (s : Scheduler) (me init : Addr) :
    let left := (s.disinherit me (some init) (s.processFind (s.procs me).ppid)).2
    left.allProcs = s.allProcs ∧ left.nextPid = s.nextPid ∧ ∀ x, left.who x =
      if x = me ∧ s.disinherits me init then {s.who me with ppid := 1} else s.who x := by
  have asked : s.processFind (s.who me).ppid = s.processFind (s.procs me).ppid := rfl
  unfold disinherit disinherits
  rw [asked]
  cases s.processFind (s.procs me).ppid with
  | none => exact ⟨rfl,rfl,fun x => by simp⟩
  | some parent =>
  dsimp only
  by_cases gives : parent ≠ init ∧ ignoresChildren (s.procs parent) = true
  · have woken := wakeupSame s (some parent)
    rw [if_pos ⟨by simpa using gives.1,rfl,gives.2⟩]
    refine ⟨woken.all,woken.next,fun x => ?_⟩
    rw [modifyWho]
    by_cases same : x = me
    · subst same
      have identity := woken.who x
      simp only [who,Process.identity,Identity.mk.injEq] at identity
      simp [gives,who,Process.identity,identity]
    · simp [same,woken.who]
  have stays : ¬ (some parent ≠ some init ∧ (some init).isSome ∧ ignoresChildren (s.procs parent) = true) := by
    simpa using gives
  rw [if_neg stays]
  refine ⟨rfl,rfl,fun x => ?_⟩
  rw [if_neg]
  rintro ⟨_,both⟩
  exact gives (by simpa using both)

theorem terminateExited (found : s.processFind 1 = some init)
    (status : Int) (released : List (Option Addr)) : Exited me init status s (s.terminate me status released) := by
  unfold terminate
  dsimp only
  rw [found]
  have closing := sameFold (f := wakeup) wakeupSame released s
  generalize released.foldl wakeup s = closed at closing ⊢
  have opened : ∀ x, (closed.modify me (fun x => {x with isUser := false})).who x =
      if x = me then {s.who me with isUser := false} else s.who x := by
    intro x
    rw [modifyWho]
    split
    · rw [← closing.who]; rfl
    · exact closing.who x
  have openedAll : (closed.modify me (fun x => {x with isUser := false})).allProcs = s.allProcs := closing.all
  have openedNext : (closed.modify me (fun x => {x with isUser := false})).nextPid = s.nextPid := closing.next
  generalize closed.modify me (fun x => {x with isUser := false}) = kernel at opened openedAll openedNext ⊢
  have adopted := adoptAdopted me init kernel.allProcs kernel
  generalize kernel.allProcs.foldl (adoptOne me (some init)) kernel = orphaned at adopted ⊢
  have atMe : orphaned.who me = {s.who me with isUser := false} := by
    rw [adopted.who]
    simp [opened]
  have elsewhere x (here : x ∈ s.allProcs) (other : x ≠ me) : orphaned.who x = orphan (s.who me).pid (s.who x) := by
    rw [adopted.who,openedAll,if_pos ⟨here,other⟩,opened,opened,if_pos rfl,if_neg other]
  have orphanedAll : orphaned.allProcs = s.allProcs := adopted.all.trans openedAll
  have decided : orphaned.disinherits me init = s.disinherits me init := by
    have pids p (here : p ∈ s.allProcs) : (orphaned.who p).pid = (s.who p).pid := by
      by_cases same : p = me
      · rw [same,atMe]
      rw [elsewhere p here same,orphan]
      split <;> rfl
    have actions p (here : p ∈ s.allProcs) : (orphaned.procs p).sigact = (s.procs p).sigact := by
      have same : (orphaned.who p).sigact = (s.who p).sigact := by
        by_cases same : p = me
        · rw [same,atMe]
        rw [elsewhere p here same,orphan]
        split <;> rfl
      exact same
    have asked : (orphaned.who me).ppid = (s.who me).ppid := by rw [atMe]
    unfold disinherits
    rw [asked,findSame orphanedAll pids]
    cases parent : s.processFind (s.who me).ppid with
    | none => rfl
    | some q =>
      have table := actions q (processFindLive parent)
      simp only [ignoresChildren,Process.action,table]
  obtain ⟨leftAll,leftNext,leftWho⟩ := disinheritWho orphaned me init
  generalize orphaned.disinherit me (some init) (orphaned.processFind (orphaned.procs me).ppid) = pair
    at leftAll leftNext leftWho ⊢
  obtain ⟨parent,left⟩ := pair
  have told := notifySame (left.modify me (fun x => {x with exitStatus := status, state := .terminated})) parent
  refine ⟨told.all.trans (leftAll.trans orphanedAll),told.next.trans (leftNext.trans (adopted.next.trans openedNext)),?_,?_⟩
  · rw [told.who,modifyWho,if_pos rfl]
    have identity := leftWho me
    rw [decided,atMe] at identity
    cases answer : s.disinherits me init with
    | true =>
      simp only [answer,and_self,if_true] at identity
      simp only [who,Process.identity,Identity.mk.injEq] at identity ⊢
      simp [identity]
    | false =>
      simp only [answer,Bool.false_eq_true,and_false,if_false] at identity
      simp only [who,Process.identity,Identity.mk.injEq] at identity ⊢
      simp [identity]
  intro x here other
  rw [told.who,modifyWho,if_neg other,leftWho,if_neg (fun h => other h.1)]
  exact elsewhere x here other

theorem reapWho (s : Scheduler) (p) : (s.processReap p).allProcs = s.allProcs.erase p ∧
    (s.processReap p).nextPid = s.nextPid ∧ ∀ x, (s.processReap p).who x = s.who x := by
  have inherited : Same s (s.inherit p) := by
    unfold inherit
    split
    · exact Same.refl s
    · exact Same.modify rfl
  exact ⟨congrArg (List.erase · p) inherited.all,inherited.next,inherited.who⟩

structure Restyled (s t : Scheduler) : Prop where
  all : t.allProcs = s.allProcs
  next : t.nextPid = s.nextPid
  who : ∀ p, t.who p = {s.who p with sigact := (t.who p).sigact}

theorem Same.restyled (same : Same s t) : Restyled s t := ⟨same.all,same.next,fun p => by rw [same.who p]⟩

theorem Restyled.modify {f} (keeps : (f (s.procs p)).identity = {s.who p with sigact := (f (s.procs p)).sigact}) :
    Restyled s (s.modify p f) := by
  refine ⟨rfl,rfl,fun x => ?_⟩
  rw [modifyWho]
  split
  · rename_i same; subst same; exact keeps
  · rfl

/- `rt_sigaction` writes the action, and drops a pending signal that it discards. -/
theorem sigactionWrites {P : Scheduler → Prop} (me sig act oact size) (same : P s)
    (stored : ∀ k : (Nat → SigAction) → Nat → SigAction, P (s.modify me (fun x => {x with sigact := k x.sigact})))
    (dropped : ∀ t (k : BitVec 64 → BitVec 64), P t → P (t.modify me (fun x => {x with sigPending := k x.sigPending}))) :
    P (s.sysRtSigaction me sig act oact size).2 := by
  unfold sysRtSigaction
  split
  · exact same
  split
  · exact same
  split
  · exact same
  rcases act with _ | _ | k
  · exact same
  · exact same
  have written := stored (fun old => Function.update old (sig.toNat-1) {k with mask := k.mask &&& ~~~unblockable})
  dsimp only
  split
  · exact dropped _ (· &&& ~~~sigBit sig.toNat) written
  · exact written

theorem sigactionRestyled (s : Scheduler) (me sig act oact size) : Restyled s (s.sysRtSigaction me sig act oact size).2 := by
  refine sigactionWrites me sig act oact size (Same.refl s).restyled (fun _ => Restyled.modify rfl) (fun t k styled => ?_)
  have dropped : Same t (t.modify me (fun x => {x with sigPending := k x.sigPending})) := Same.modify rfl
  exact ⟨styled.all,styled.next,fun p => by rw [dropped.who]; exact styled.who p⟩

/- What the scheduler events of a run do: somebody exits, or nobody changes but for the
signal actions of the current process. -/
inductive Routine (idle init : Addr) (s : Scheduler) : Event → Scheduler → Prop where
  | quiet {e t} (restyled : Restyled s t)
      (other : ∀ status released, e ≠ .exit status released) : Routine idle init s e t
  | exit {me status released t}
      (atCurrent : s.current = some me) (notIdle : me ≠ idle) (notInit : (s.who me).pid ≠ 1)
      (exited : Exited me init status s t) : Routine idle init s (.exit status released) t

section

variable (consistent : Consistent idle s)
include consistent

theorem sleepSame (atCurrent : s.current = some me)
    (notIdle : me ≠ idle) (chan) : Same s (s.sleepOn chan) := by
  have blocked : Same s (s.block me chan) := by
    apply Same.modify
    simp [Process.identity,who,consistent.currentRuns me atCurrent]
  simp only [sleepOn,atCurrent]
  exact blocked.trans (yieldSame (sleepSettled consistent atCurrent notIdle chan))

theorem tickSame : Same s s.schedulerTick := by
  unfold schedulerTick
  cases s.current with
  | none => exact Same.refl s
  | some c =>
    have aged : Same s (s.age c) := Same.modify rfl
    have settled : Consistent idle (s.age c) := harmlessConsistent (harmlessModify rfl rfl rfl rfl) consistent
    dsimp only
    split
    · exact aged.trans (yieldSame settled.toSettled)
    · exact aged

theorem exitExited (atCurrent : s.current = some me)
    (notIdle : me ≠ idle) (found : s.processFind 1 = some init) (status released) :
    Exited me init status s (s.schedulerExit status released) := by
  have ended : Exited me init status s (s.terminate me status released) := terminateExited found status released
  have settled := (terminateSettled consistent atCurrent notIdle status released).1
  have switched := yieldSame settled
  simp only [schedulerExit,atCurrent]
  refine ⟨switched.all.trans ended.all,switched.next.trans ended.next,?_,?_⟩
  · rw [switched.who]; exact ended.self
  intro x here other
  rw [switched.who]; exact ended.other x here other

theorem stepRoutine {e}
    (found : s.processFind 1 = some init) (ordinary : Jobs.ordinary e = true)
    (taken : step idle s e = some t) : Routine idle init s e t := by
  have quiet : Same s t → (∀ status released, e ≠ .exit status released) → Routine idle init s e t :=
    fun same other => .quiet same.restyled other
  cases stepSteps taken with
  | create | createUser | start | fork | reap => cases ordinary
  | yield => exact quiet (yieldSame consistent.toSettled) nofun
  | tick => exact quiet (tickSame consistent) nofun
  | sleepOn atCurrent notIdle => exact quiet (sleepSame consistent atCurrent notIdle _) nofun
  | wake live => exact quiet (processWakeSame s _) nofun
  | wakeup => exact quiet (wakeupSame s _) nofun
  | send live => exact quiet (signalSendSame s (some _) _) nofun
  | signals atCurrent => exact .quiet (Restyled.modify rfl) nofun
  | exit atCurrent notIdle notInit =>
    exact .exit atCurrent notIdle notInit (exitExited consistent atCurrent notIdle found _ _)

end

def child (pid : UInt32) (parent : Identity) : Identity :=
  ⟨pid,parent.pid,parent.pgid,parent.sid,0,parent.sigact,true,false⟩

inductive Forked (me : Addr) (s : Scheduler) : Option Addr → Option Addr → Scheduler → Prop where
  | born {p : Addr} {t : Scheduler} (fresh : p ∉ s.allProcs) (all : t.allProcs = p::s.allProcs)
      (next : t.nextPid = s.nextPid+1) (self : t.who p = child s.nextPid (s.who me))
      (other : ∀ x ∈ s.allProcs, t.who x = s.who x) : Forked me s (some p) (some p) t
  | failed {p : Addr} {t : Scheduler} (all : t.allProcs = s.allProcs) (next : t.nextPid = s.nextPid+1)
      (other : ∀ x ∈ s.allProcs, t.who x = s.who x) : Forked me s (some p) none t
  | refused : Forked me s none none s

theorem forkForked {c} (atCurrent : s.current = some c) {place} (cloned)
    (fresh : s.unused place = true) (live : c ∈ s.allProcs) :
    Forked c s place (s.processFork place cloned).1 (s.processFork place cloned).2 := by
  unfold processFork
  simp only [atCurrent]
  cases place with
  | none => exact .refused
  | some p =>
  have new : p ∉ s.allProcs := unusedFresh fresh
  have differ : c ≠ p := fun same => new (same ▸ live)
  simp only [processAlloc,Option.map_some]
  generalize (if (s.procs c).priority ≥ numSchedQueues then numSchedQueues - 1 else (s.procs c).priority) = level
  cases cloned with
  | true =>
    have pushed := Relinks.same (pushRelinks ((s.enroll p (blank s.nextPid level)).modify p
      (fun y => {y with
        isUser := true, ppid := (s.procs c).pid, pgid := (s.procs c).pgid, sid := (s.procs c).sid
        sigact := (s.procs c).sigact, sigBlocked := (s.procs c).sigBlocked})) p)
    have same : Function.update s.procs p (blank s.nextPid level) c = s.procs c := by simp [differ]
    rw [same]
    refine .born new pushed.all pushed.next ((pushed.who p).trans ?_) (fun x here => (pushed.who x).trans ?_)
    · rw [modifyWho,if_pos rfl]
      simp [enroll,blank,Process.identity,child,who]
    have other : x ≠ p := fun equal => new (equal ▸ here)
    rw [modifyWho,if_neg other]
    simp [enroll,who,other]
  | false =>
    obtain ⟨all,next,identity⟩ := reapWho (s.enroll p (blank s.nextPid level)) p
    refine .failed (all.trans (by simp [enroll])) next (fun x here => ?_)
    have other : x ≠ p := fun equal => new (equal ▸ here)
    exact (identity x).trans (by simp [enroll,who,other])

end Scheduler
end Miviex
