import Mathlib.Data.BitVec
import Miviex.SchedulerRuns
import Miviex.Terminal

/-! Processes as families, groups and sessions, with the terminals they share. -/
namespace Miviex
open Function (update)

namespace Scheduler

def signalMember (pgrp : UInt32) (sig : Nat) (sent : List Addr × Scheduler) (p : Addr) :
    List Addr × Scheduler :=
  let x := sent.2.procs p
  if x.isUser ∧ x.pgid = pgrp ∧ x.state ≠ .terminated then (sent.1 ++ [p],sent.2.signalSend (some p) sig)
  else sent

/- With the processes `signal_send` was called for, in order; without one the answer is
ESRCH. -/
def signalSendPgrp (s : Scheduler) (pgrp : UInt32) (sig : Nat) : List Addr × Scheduler :=
  s.allProcs.foldl (signalMember pgrp sig) ([],s)

/- A user pointer is none when NULL; then whether, or what, it points to. The answer is the
action stored for the caller. -/
def sysRtSigaction (s : Scheduler) (me : Addr) (sig : Int) (act : Option (Option SigAction))
    (oact : Option Bool) (size : Int) : Except Errno (Option SigAction) × Scheduler :=
  if sig < 1 ∨ sig > nsig ∨ size ≠ 8 then (.error .einval,s)
  else if act.isSome ∧ (sig = sigKill ∨ sig = sigStop) then (.error .einval,s)
  else if oact = some false then (.error .efault,s)
  else
    let old := if oact.isSome then some ((s.procs me).action sig.toNat) else none
    match act with
    | none => (.ok old,s)
    | some none => (.error .efault,s)
    | some (some k) =>
      let k := {k with mask := k.mask &&& ~~~unblockable}
      let s := s.modify me (fun x => {x with sigact := update x.sigact (sig.toNat-1) k})
      if discarded (s.procs me) sig.toNat then
        (.ok old,s.modify me (fun x => {x with sigPending := x.sigPending &&& ~~~sigBit sig.toNat}))
      else (.ok old,s)

inductive Waited where
  | failed (e : Errno)
  | child (pid : UInt32) (status : Option Int)
  | nothing
  | restart
  | asleep
  deriving DecidableEq, Repr

section

variable (s : Scheduler)

def waitSelects (me : Addr) (pid : Int) (p : Addr) : Bool :=
  !(p == me || (s.procs p).ppid != (s.procs me).pid || (pid > 0 && (s.procs p).pid != UInt32.ofInt pid) ||
    (pid == 0 && (s.procs p).pgid != (s.procs me).pgid) ||
    (pid < -1 && (s.procs p).pgid != UInt32.ofInt (-pid)))

def sysWait4 (me : Addr) (pid : Int) (ustatus : Option Bool) (wnohang : Bool) :
    Waited × Scheduler :=
  if ustatus = some false then (.failed .efault,s)
  else
    match s.allProcs.find? (fun p => s.waitSelects me pid p && (s.procs p).state == .terminated) with
    | some p => (.child (s.procs p).pid (ustatus.map (fun _ => (s.procs p).exitStatus)),s.processReap p)
    | none =>
      if ¬ s.allProcs.any (s.waitSelects me pid) then (.failed .echild,s)
      else if wnohang then (.nothing,s)
      else if signalPending (s.procs me) then (.restart,s)
      else (.asleep,s.sleepOn (some me))

def selfOr (pid : Int) : Option Addr :=
  if pid = 0 then s.current else s.processFind (UInt32.ofInt pid)

def groupExists (pgid sid : UInt32) : Bool :=
  s.allProcs.any (fun p => (s.procs p).isUser && (s.procs p).pgid == pgid && (s.procs p).sid == sid)

def sysSetpgid (me : Addr) (pid pgid : Int) : Except Errno Unit × Scheduler :=
  if pgid < 0 then (.error .einval,s)
  else
    match s.selfOr pid with
    | none => (.error .esrch,s)
    | some p =>
      if p ≠ me ∧ (s.procs p).ppid ≠ (s.procs me).pid then (.error .esrch,s)
      else if (s.procs p).sid ≠ (s.procs me).sid ∨ (s.procs p).sid = (s.procs p).pid then (.error .eperm,s)
      else
        let group := if pgid = 0 then (s.procs p).pid else UInt32.ofInt pgid
        if group ≠ (s.procs p).pid ∧ ¬ s.groupExists group (s.procs me).sid then (.error .eperm,s)
        else (.ok (),s.modify p (fun x => {x with pgid := group}))

def sysSetsid (me : Addr) : Except Errno UInt32 × Scheduler :=
  if s.allProcs.any (fun p => (s.procs p).isUser && (s.procs p).pgid == (s.procs me).pid) then
    (.error .eperm,s)
  else (.ok (s.procs me).pid,s.modify me (fun x => {x with sid := x.pid, pgid := x.pid}))

end

end Scheduler

/- A signal sent through the foreground group of a terminal, one entry for each process that does not
discard it: the receiver's session and the session of the terminal. -/
structure Delivery where
  tty : Addr
  process : Addr
  sid : UInt32
  session : UInt32
  deriving DecidableEq, Repr

structure Reaping where
  parent : UInt32
  child : UInt32
  status : Option Int
  deriving DecidableEq, Repr

/- The last three are the history of the run: how many times a process was allocated by
`fork`, what `wait4` returned and what the terminals delivered. -/
structure Jobs where
  sched : Scheduler
  ctty : Addr → Option Addr
  tty : Addr → Tty
  forks : Nat
  reaped : List Reaping
  delivered : List Delivery

inductive TtyRequest where
  | tcgets
  | tcsets (flush : Bool) (t : Termios)
  | tcsbrk
  | tcflsh (arg : Nat)
  | tiocgwinsz
  | tiocswinsz (rows cols : UInt16)
  | fionread
  | tiocsctty (arg : Nat) (root : Bool)
  | tiocnotty
  | tiocgpgrp
  | tiocspgrp (pgrp : UInt32)
  | tiocgsid
  | other

def TtyRequest.pointer : TtyRequest → Bool
  | .tiocsctty _ _ => false
  | .tiocnotty => false
  | .tcflsh _ => false
  | .tcsbrk => false
  | _ => true

inductive TtyReply where
  | done
  | termios (t : Termios)
  | winsize (rows cols : UInt16)
  | number (n : UInt32)

namespace Jobs

section

variable (s : Jobs)

def setTty (t : Addr) (x : Tty) : Jobs := {s with tty := update s.tty t x}

def wakeReaders (t : Addr) (woken : Bool) : Jobs :=
  if woken then {s with sched := s.sched.wakeup (some t)} else s

def signalForeground (t : Addr) (sig : Nat) : Jobs :=
  if (s.tty t).pgrp = 0 then s
  else
    let sent := s.sched.signalSendPgrp (s.tty t).pgrp sig
    {s with
      sched := sent.2
      delivered := s.delivered ++ (sent.1.filter (fun p => !discarded (s.sched.procs p) sig)).map (fun p => ⟨t,p,(s.sched.procs p).sid,(s.tty t).sid⟩)}

def ttyInput (t : Addr) (c : UInt8) : Jobs :=
  let x := s.tty t
  let c := if x.t.iflag &&& icrnl ≠ 0 ∧ c = 13 then 10 else c
  match x.signalOf c with
  | some sig => (s.setTty t (x.flushInput.echo c)).signalForeground t sig
  | none => (s.setTty t (x.receive c).1).wakeReaders t (x.receive c).2

def disown (t : Addr) : Jobs :=
  {s with
    ctty := fun p => if p ∈ s.sched.allProcs ∧ s.ctty p = some t then none else s.ctty p
    tty := update s.tty t {s.tty t with sid := 0, pgrp := 0}}

def takeTty (p t : Addr) : Jobs :=
  {s with
    ctty := update s.ctty p (some t)
    tty := update s.tty t
      {s.tty t with sid := (s.sched.procs p).sid, pgrp := (s.sched.procs p).pgid}}

def ttyIoctl (p t : Addr) (mapped : Bool) (req : TtyRequest) : Except Errno TtyReply × Jobs :=
  let x := s.tty t
  let me := s.sched.procs p
  if req.pointer ∧ ¬ mapped then (.error .efault,s)
  else
    match req with
    | .tcsbrk => (.ok .done,s)
    | .tcgets => (.ok (.termios x.t),s)
    | .tcsets flush termios =>
      let changed := (if flush then x.flushInput else x).setTermios termios
      (.ok .done,(s.setTty t changed.1).wakeReaders t changed.2)
    | .tcflsh arg => (.ok .done,if arg = 0 ∨ arg = 2 then s.setTty t x.flushInput else s)
    | .tiocgwinsz => (.ok (.winsize x.rows x.cols),s)
    | .tiocswinsz rows cols =>
      if rows ≠ x.rows ∨ cols ≠ x.cols then
        (.ok .done,(s.setTty t {x with rows := rows, cols := cols}).signalForeground t sigWinch)
      else (.ok .done,s)
    | .fionread => (.ok (.number (UInt32.ofNat x.input.length)),s)
    | .tiocsctty arg root =>
      if s.ctty p = some t ∧ x.sid = me.sid then (.ok .done,s)
      else if me.sid ≠ me.pid ∨ s.ctty p ≠ none then (.error .eperm,s)
      else if x.sid ≠ 0 then
        if arg ≠ 1 ∨ ¬ root then (.error .eperm,s)
        else (.ok .done,(s.disown t).takeTty p t)
      else (.ok .done,s.takeTty p t)
    | .tiocnotty =>
      if s.ctty p ≠ some t then (.error .enotty,s)
      else if me.sid = me.pid then (.ok .done,s.disown t)
      else (.ok .done,{s with ctty := update s.ctty p none})
    | .tiocgpgrp => (.ok (.number x.pgrp),s)
    | .tiocspgrp pgrp =>
      if s.ctty p ≠ some t ∨ me.sid ≠ x.sid then (.error .enotty,s)
      else (.ok .done,s.setTty t {x with pgrp := pgrp})
    | .tiocgsid => if x.sid = 0 then (.error .enotty,s) else (.ok (.number x.sid),s)
    | .other => (.error .einval,s)

def ttyHangup (t : Addr) : Jobs :=
  let s := (s.setTty t (s.tty t).hangup).signalForeground t sigHup
  s.wakeReaders t true

def sysVhangup (p : Addr) (root : Bool) : Except Errno Unit × Jobs :=
  if ¬ root then (.error .eperm,s)
  else
    match s.ctty p with
    | none => (.ok (),s)
    | some t => (.ok (),s.ttyHangup t)

def setsid (me : Addr) : Jobs :=
  match s.sched.sysSetsid me with
  | (.error _,_) => s
  | (.ok _,sched) => {s with sched := sched, ctty := update s.ctty me none}

def wait4 (me : Addr) (pid : Int) (ustatus : Option Bool) (wnohang : Bool) : Jobs :=
  let waited := s.sched.sysWait4 me pid ustatus wnohang
  {s with
    sched := waited.2
    reaped := match waited.1 with
      | .child child status => s.reaped ++ [⟨(s.sched.procs me).pid,child,status⟩]
      | _ => s.reaped}

/- A record that was allocated has used up a pid, even if the fork fails after that. -/
def fork (me : Addr) (place : Option Addr) (cloned : Bool) : Jobs :=
  let forked := s.sched.processFork place cloned
  {s with
    sched := forked.2
    ctty := match forked.1 with
      | some child => update s.ctty child (s.ctty me)
      | none => s.ctty
    forks := if place.isSome then s.forks + 1 else s.forks}

end

inductive Event where
  | kernel (e : Scheduler.Event)
  | fork (place : Option Addr) (cloned : Bool)
  | sigaction (sig : Int) (act : Option (Option SigAction)) (oact : Option Bool) (size : Int)
  | wait4 (pid : Int) (ustatus : Option Bool) (wnohang : Bool)
  | setpgid (pid pgid : Int)
  | setsid
  | ioctl (t : Addr) (mapped : Bool) (req : TtyRequest)
  | typed (t : Addr) (c : UInt8)
  | vhangup (root : Bool)

def ordinary : Scheduler.Event → Bool
  | .create _ _ => false
  | .createUser _ _ => false
  | .start => false
  | .fork _ _ => false
  | .reap _ => false
  | _ => true

def caller (s : Jobs) : Option Addr := s.sched.current.filter (fun p => (s.sched.procs p).isUser)

def step (idle : Addr) (s : Jobs) : Event → Option Jobs
  | .kernel e =>
    if ordinary e then (s.sched.step idle e).map (fun sched => {s with sched := sched}) else none
  | .fork place cloned => s.caller.bind (fun me =>
      if s.sched.unused place ∧ s.forks + 1 < 2^32 then some (s.fork me place cloned) else none)
  | .sigaction sig act oact size => s.caller.map (fun me =>
      {s with sched := (s.sched.sysRtSigaction me sig act oact size).2})
  | .wait4 pid ustatus wnohang => s.caller.map (fun me => s.wait4 me pid ustatus wnohang)
  | .setpgid pid pgid => s.caller.map (fun me => {s with sched := (s.sched.sysSetpgid me pid pgid).2})
  | .setsid => s.caller.map (fun me => s.setsid me)
  | .ioctl t mapped req => s.caller.map (fun me => (s.ttyIoctl me t mapped req).2)
  | .typed t c => some (s.ttyInput t c)
  | .vhangup root => s.caller.map (fun me => (s.sysVhangup me root).2)

structure Records where
  idle : Addr
  init : Addr
  apart : init ≠ idle

/- `kernel_main` creates idle, then `process_exec` creates init with a session of its own. -/
def created (records : Records) : Scheduler :=
  ((Scheduler.boot records.idle).processCreateUser (some records.init) prioUser).2.modify
    records.init (fun x => {x with pgid := x.pid, sid := x.pid})

def boot (records : Records) : Jobs where
  sched := (created records).start
  ctty := fun _ => none
  tty := fun _ => {}
  forks := 0
  reaped := []
  delivered := []

end Jobs
end Miviex
