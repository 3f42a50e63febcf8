import Miviex.Process

/-! The priority scheduler: sixteen ready queues threaded through the processes, one current
process and the list of all processes. Switching stacks and address spaces is not modelled. -/
namespace Miviex

open Function

structure Scheduler where
  procs : Addr → Process
  readyHead : Nat → Option Addr
  readyTail : Nat → Option Addr
  current : Option Addr
  allProcs : List Addr
  nextPid : UInt32

namespace Scheduler

def modify (s : Scheduler) (p : Addr) (f : Process → Process) : Scheduler :=
  {s with procs := update s.procs p (f (s.procs p))}

def init : Scheduler :=
  ⟨fun _ => {},fun _ => none,fun _ => none,none,[],0⟩

def defaultQuantumForPriority (priority : Nat) : Nat := 2+priority

def queuePushBack (s : Scheduler) (p : Addr) : Scheduler :=
  let q := (s.procs p).priority
  let tail := s.readyTail q
  let s := s.modify p (fun x => {x with next := none, prev := tail})
  let s := match tail with
    | some t => s.modify t (fun x => {x with next := some p})
    | none => {s with readyHead := update s.readyHead q (some p)}
  {s with readyTail := update s.readyTail q (some p)}

def queuePopFront (s : Scheduler) (q : Nat) : Option Addr × Scheduler :=
  match s.readyHead q with
  | none => (none,s)
  | some p =>
    let head := (s.procs p).next
    let s := {s with readyHead := update s.readyHead q head}
    let s := match head with
      | some h => s.modify h (fun x => {x with prev := none})
      | none => {s with readyTail := update s.readyTail q none}
    (some p,s.modify p (fun x => {x with next := none, prev := none}))

def pickNext (s : Scheduler) : Option Addr × Scheduler :=
  match (List.range numSchedQueues).find? (fun q => (s.readyHead q).isSome) with
  | some q => s.queuePopFront q
  | none => (none,s)

def processFind (s : Scheduler) (pid : UInt32) : Option Addr :=
  s.allProcs.find? (fun p => (s.procs p).pid == pid)

def blank (pid : UInt32) (priority : Nat) : Process where
  pid := pid
  state := .ready
  priority := priority
  quantum := defaultQuantumForPriority priority
  ticksLeft := defaultQuantumForPriority priority

section

variable (s : Scheduler)

/- `place` is what `k_malloc` returned for the record, none when it failed. -/
def processAlloc (place : Option Addr) (priority : Nat) : Option (Addr × Scheduler) :=
  let priority := if priority ≥ numSchedQueues then numSchedQueues - 1 else priority
  place.map (fun p => (p,
    {s with
      procs := update s.procs p (blank s.nextPid priority)
      allProcs := p::s.allProcs
      nextPid := s.nextPid + 1 }))

def processCreate (place : Option Addr) (priority : Nat) : Option Addr × Scheduler :=
  match s.processAlloc place priority with
  | none => (none,s)
  | some (p,s) => (some p,s.queuePushBack p)

def processCreateUser (place : Option Addr) (priority : Nat) :
    Option Addr × Scheduler :=
  match s.processAlloc place priority with
  | none => (none,s)
  | some (p,s) => (some p,(s.modify p (fun x => {x with isUser := true})).queuePushBack p)

def start : Scheduler :=
  match s.pickNext with
  | (none,s) => s
  | (some next,s) => {s.modify next (fun x => {x with state := .running}) with current := some next}

def requeue (prev : Option Addr) : Scheduler :=
  match prev with
  | none => s
  | some p =>
    if (s.procs p).state = .running then
      (s.modify p (fun x => {x with state := .ready, ticksLeft := x.quantum})).queuePushBack p
    else s

def schedulerYield : Scheduler :=
  match s.pickNext with
  | (none,s) => s
  | (some next,popped) =>
    let s := popped.requeue s.current
    {s.modify next (fun x => {x with state := .running}) with current := some next}

def age (c : Addr) : Scheduler :=
  s.modify c (fun x => {x with cpuTicks := x.cpuTicks+1, ticksLeft := x.ticksLeft - 1})

def schedulerTick : Scheduler :=
  match s.current with
  | none => s
  | some c =>
    let s := s.age c
    if (s.procs c).ticksLeft = 0 then s.schedulerYield else s

def block (c : Addr) (chan : Option Addr) : Scheduler :=
  s.modify c (fun x => {x with waitChan := chan, state := .blocked})

def sleepOn (chan : Option Addr) : Scheduler :=
  match s.current with
  | none => s
  | some c => (s.block c chan).schedulerYield

def unblock (p : Addr) : Scheduler :=
  (s.modify p (fun x => {x with waitChan := none, state := .ready})).queuePushBack p

def processWake (p : Addr) : Scheduler :=
  if (s.procs p).state = .blocked then s.unblock p else s

end

def wakeupOne (chan : Option Addr) (s : Scheduler) (p : Addr) : Scheduler :=
  if (s.procs p).state = .blocked ∧ (s.procs p).waitChan = chan then s.unblock p else s

def wakeup (s : Scheduler) (chan : Option Addr) : Scheduler :=
  s.allProcs.foldl (wakeupOne chan) s

def pend (s : Scheduler) (p : Addr) (sig : Nat) : Scheduler :=
  s.modify p (fun x => {x with sigPending := x.sigPending ||| sigBit sig})

def signalSend (s : Scheduler) (p : Option Addr) (sig : Nat) : Scheduler :=
  match p with
  | none => s
  | some p =>
    if !(s.procs p).isUser || (s.procs p).state == .terminated || sig < 1 || sig > nsig ||
        discarded (s.procs p) sig then s
    else
      let s := s.pend p sig
      if (s.procs p).state = .blocked ∧ signalPending (s.procs p) then s.processWake p else s

/- Unlinking a record frees it; its parent inherits the CPU time. -/
def processReap (s : Scheduler) (p : Addr) : Scheduler :=
  let x := s.procs p
  let s := match s.processFind x.ppid with
    | none => s
    | some parent => s.modify parent
        (fun y => {y with childTicks := y.childTicks+x.cpuTicks + x.childTicks})
  {s with allProcs := s.allProcs.erase p}

def adoptOne (me : Addr) (init : Option Addr) (s : Scheduler) (p : Addr) : Scheduler :=
  if (s.procs p).ppid = (s.procs me).pid ∧ p ≠ me ∧ init.isSome then
    let s := s.modify p (fun x => {x with ppid := 1})
    if (s.procs p).state = .terminated then (s.signalSend init sigChld).wakeup init else s
  else s

def ignoresChildren (p : Process) : Bool :=
  (p.action sigChld).handler == sigIgn || (p.action sigChld).flags &&& saNocldwait != 0

/- A parent that ignores its children gets no zombie: init becomes the parent. -/
def disinherit (s : Scheduler) (me : Addr) (init parent : Option Addr) : Option Addr × Scheduler :=
  match parent with
  | none => (none,s)
  | some p =>
    if parent ≠ init ∧ init.isSome ∧ ignoresChildren (s.procs p) then
      (init,(s.wakeup (some p)).modify me (fun x => {x with ppid := 1}))
    else (parent,s)

/- Everything `scheduler_exit` does before it switches away. `released` are the
channels woken by the release hooks of the descriptors it closes. -/
def terminate (s : Scheduler) (me : Addr) (status : Int) (released : List (Option Addr)) : Scheduler :=
  let init := s.processFind 1
  let s := released.foldl wakeup s
  let s := s.modify me (fun x => {x with isUser := false})
  let s := s.allProcs.foldl (adoptOne me init) s
  let found := s.processFind (s.procs me).ppid
  let (parent,s) := s.disinherit me init found
  let s := s.modify me (fun x => {x with exitStatus := status, state := .terminated})
  (s.signalSend parent sigChld).wakeup parent

def schedulerExit (s : Scheduler) (status : Int) (released : List (Option Addr)) : Scheduler :=
  match s.current with
  | none => s
  | some me => (s.terminate me status released).schedulerYield

def processFork (s : Scheduler) (place : Option Addr) (cloned : Bool) : Option Addr × Scheduler :=
  match s.current with
  | none => (none,s)
  | some parent =>
    match s.processAlloc place (s.procs parent).priority with
    | none => (none,s)
    | some (child,s) =>
      if cloned then
        let x := s.procs parent
        let s := s.modify child (fun y => {y with
          isUser := true, ppid := x.pid, pgid := x.pgid, sid := x.sid,
          sigact := x.sigact, sigBlocked := x.sigBlocked})
        (some child,s.queuePushBack child)
      else (none,s.processReap child)

end Scheduler
end Miviex
