import Miviex.Jobs
import Miviex.Pipe
import Miviex.Resumable
import Miviex.SocketEffects
import Miviex.SocketReferences

/-! The ten calls that return `-ERESTARTSYS` when a signal finds them asleep, each as the passes
between its sleeps. -/
namespace Miviex

namespace Tty

/- One pass of the loop of `tty_read`. Whether the terminal is canonical is read once, when
the call begins. -/
def pass (x : Tty) (canon pending : Bool) (n : Nat) : Tty × Option (Except Stop (List UInt8)) :=
  if x.input ≠ [] then
    ({x with input := (takeInput canon n x.input).2},some (.ok (takeInput canon n x.input).1))
  else if canon ∧ x.eof > 0 then ({x with eof := x.eof - 1},some (.ok []))
  else if ¬ canon ∧ x.t.cc vmin = 0 then (x,some (.ok []))
  else if pending then (x,some (.error .restartsys))
  else (x,none)

theorem passRead (x : Tty) (pending n) : x.pass (x.mode icanon) pending n = match x.read n with
    | some (bytes,y) => (y,some (.ok bytes))
    | none => (x,if pending then some (.error .restartsys) else none) := by
  unfold pass read
  dsimp only
  split
  · rfl
  split
  · rfl
  split
  · rfl
  · split <;> rfl

theorem passIdle {x : Tty} {canon pending n}
    (idle : (x.pass canon pending n).2 = none ∨ (x.pass canon pending n).2 = some (.error .restartsys)) :
    (x.pass canon pending n).1 = x := by
  unfold pass at idle ⊢
  split at idle
  · rcases idle with wrong | wrong <;> cases wrong
  rename_i empty
  rw [if_neg empty]
  split at idle
  · rcases idle with wrong | wrong <;> cases wrong
  rename_i more
  rw [if_neg more]
  split
  · rfl
  split <;> rfl

end Tty

structure Kernel where
  sched : Scheduler
  pipe : Nat → Pipe
  nodes : Nodes
  tty : Nat → Tty

/- A call at its beginning, or what it keeps while it sleeps where that is something else. -/
inductive Blocking where
  | pipeRead (p size : Nat)
  | pipeWrite (p id : Nat) (src : List UInt8)
  | pipeWriting (p id : Nat) (src : List UInt8) (done : Nat)
  | streamRecv (r : Receiving)
  | streamSend (s : Nat) (src : List UInt8) (nonblock nosig : Bool)
  | streamSending (w : Sending)
  | dgramSend (m : Mailing)
  | dgramRecv (r : Receiving)
  | streamConnect (c : Connecting)
  | connecting (c : Connecting)
  | accept4 (fd : Nat) (known nonblock cloexec : Bool) (limit : Nat) (memory : Bool) (refused : Option Errno)
  | accepting (a : Accepting)
  | ttyRead (t n : Nat)
  | ttyReading (t n : Nat) (canon : Bool)
  | wait4 (pid : Int) (ustatus : Option Bool) (wnohang : Bool)

inductive Answer where
  | bytes (r : Except Stop (List UInt8))
  | count (r : Except Stop Nat)
  | sock (a : SockAnswer)
  | waited (w : Scheduler.Waited)

def Answer.Restarts : Answer → Prop
  | .bytes r => r = .error .restartsys
  | .count r => r = .error .restartsys
  | .sock a => a = .failed .restartsys
  | .waited w => w = .restart

namespace Kernel
open Resumable

abbrev Passed := Pass Kernel Blocking Answer

def asleep (k : Kernel) (chan : Addr) (c : Blocking) : Passed := ⟨{k with sched := k.sched.sleepOn (some chan)},.inr c⟩

def returns (k : Kernel) (a : Answer) : Passed := ⟨k,.inl a⟩

def setPipe (k : Kernel) (p : Nat) (x : Pipe) (woke : Bool) : Kernel :=
  {k with pipe := Function.update k.pipe p x, sched := if woke then k.sched.wakeup (some p) else k.sched}

def read (k : Kernel) (p size : Nat) (pending : Bool) : Passed :=
  let round := (k.pipe p).read pending size
  let k := k.setPipe p round.pipe round.woke
  match round.result with
  | none => k.asleep p (.pipeRead p size)
  | some r => k.returns (.bytes r)

def wrote (k : Kernel) (p id : Nat) (src : List UInt8) (round : Pipe.Round Pipe.Wrote) : Passed :=
  let k := k.setPipe p round.pipe round.woke
  match round.result with
  | .gate => k.asleep p (.pipeWrite p id src)
  | .full src done => k.asleep p (.pipeWriting p id src done)
  | .returns r => k.returns (.count r)

def onNodes (k : Kernel) (me : Addr) (recv : Receiving → Blocking) (o : NodesOutcome) : Passed :=
  let k := {k with nodes := o.dev, sched := Calls.raise (Calls.wakeAll k.sched o.wakes) me o.raised}
  match o.next with
  | .done a => k.returns (.sock a)
  | .asleep chan call => k.asleep chan (match call with
    | .recv r => recv r
    | .send w => .streamSending w
    | .mail m => .dgramSend m
    | .accept a => .accepting a
    | .connect c => .connecting c)

def onSockets (k : Kernel) (me : Addr) (recv : Receiving → Blocking) (o : SockOutcome) : Passed :=
  k.onNodes me recv ⟨k.nodes.settle o.dev,o.wakes,o.raised,o.next⟩

def readTty (k : Kernel) (t n : Nat) (canon pending : Bool) : Passed :=
  let passed := (k.tty t).pass canon pending n
  let k := {k with tty := Function.update k.tty t passed.1}
  match passed.2 with
  | none => k.asleep t (.ttyReading t n canon)
  | some r => k.returns (.bytes r)

def wait (k : Kernel) (me : Addr) (pid : Int) (ustatus : Option Bool) (wnohang : Bool) : Passed :=
  let waited := k.sched.sysWait4 me pid ustatus wnohang
  let k := {k with sched := waited.2}
  match waited.1 with
  | .asleep => ⟨k,.inr (.wait4 pid ustatus wnohang)⟩
  | w => k.returns (.waited w)

def pass (me : Addr) (k : Kernel) (c : Blocking) : Passed :=
  let pending := signalPending (k.sched.procs me)
  let d := k.nodes.dev
  match c with
  | .pipeRead p size => k.read p size pending
  | .pipeWrite p id src => k.wrote p id src ((k.pipe p).write id pending src)
  | .pipeWriting p id src done => k.wrote p id src ((k.pipe p).writeLoop id pending src.length false src done)
  | .streamRecv r => k.onSockets me .streamRecv (d.streamRecv pending r)
  | .streamSend s src nonblock nosig => k.onSockets me .streamRecv (d.streamSend pending s src nonblock nosig)
  | .streamSending w => k.onSockets me .streamRecv (Sockets.sent w.id (Sockets.sendLoop pending w.src.length d [] w))
  | .dgramSend m => k.onNodes me .dgramRecv (k.nodes.dgramSend me pending m)
  | .dgramRecv r => k.onSockets me .dgramRecv (d.dgramRecv pending r)
  | .streamConnect c => k.onNodes me .streamRecv (k.nodes.streamConnect me pending c)
  | .connecting c => k.onNodes me .streamRecv (k.nodes.connectLoop me pending c)
  | .accept4 fd known nonblock cloexec limit memory refused =>
    k.onSockets me .streamRecv (d.sysAccept4 me pending fd known nonblock cloexec limit memory refused)
  | .accepting a => k.onSockets me .streamRecv (d.acceptLoop me pending a)
  | .ttyRead t n => k.readTty t n ((k.tty t).mode icanon) pending
  | .ttyReading t n canon => k.readTty t n canon pending
  | .wait4 pid ustatus wnohang => k.wait me pid ustatus wnohang

end Kernel

def Blocking.Fresh : Blocking → Prop
  | .pipeWriting _ _ _ done => done = 0
  | .streamSending w => w.done = 0
  | _ => True

/- Besides the log of the sends, which is no part of the kernel, nothing has changed. -/
def Sockets.Untouched (d e : Sockets) : Prop :=
  e = {d with log := {d.log with sends := e.log.sends, returned := e.log.returned}}

/- No byte, message, connection, child or reference: at most the caller has gone to sleep. -/
structure Kernel.Untouched (k l : Kernel) : Prop where
  pipe : l.pipe = k.pipe
  tty : l.tty = k.tty
  sockets : Sockets.Untouched k.nodes.dev l.nodes.dev
  refs : l.nodes.refs = k.nodes.refs
  nlink : l.nodes.nlink = k.nodes.nlink
  destroyed : l.nodes.destroyed = k.nodes.destroyed
  sched : l.sched = k.sched ∨ ∃ chan, l.sched = k.sched.sleepOn (some chan)

def Idle : Answer ⊕ Blocking → Prop
  | .inl a => a.Restarts
  | .inr c => c.Fresh

theorem fillShort (cap) (r : Ring UInt8) (xs : List UInt8) (some_ : xs ≠ []) :
    (r.fill cap xs).2.length < xs.length ∨ r.fill cap xs = (r,xs) ∧ cap ≤ r.len := by
  by_cases room : r.len < cap
  · left
    rw [(Ring.fillSpec r xs (by omega)).2.1,List.length_drop]
    have length := List.length_pos_iff.mpr some_
    omega
  right
  cases xs with
  | nil => exact absurd rfl some_
  | cons x rest =>
    unfold Ring.fill
    rw [if_neg room]
    exact ⟨rfl,by omega⟩

theorem partialStops {done e} (stops : partialOr done e = .error .restartsys) : done = 0 ∧ e = .restartsys := by
  unfold partialOr at stops
  split at stops
  · cases stops
  rename_i none
  cases stops
  exact ⟨by omega,rfl⟩

namespace Pipe

theorem readIdle {p : Pipe} {pending size}
    (idle : (p.read pending size).result = none ∨ (p.read pending size).result = some (.error .restartsys)) :
    (p.read pending size).pipe = p ∧ (p.read pending size).woke = false := by
  unfold read at idle ⊢
  split at idle
  · rename_i empty
    rw [if_pos empty]
    split
    · exact ⟨rfl,rfl⟩
    split
    · exact ⟨rfl,rfl⟩
    · exact ⟨rfl,rfl⟩
  · rcases idle with wrong | wrong <;> cases wrong

def Wrote.Idle : Wrote → Prop
  | .gate => True
  | .full _ done => done = 0
  | .returns r => r = .error .restartsys

/- A round that copied a byte never ends like this, and one that could not copy any has
found the pipe full. -/
theorem writeLoopIdle (id pending fuel) (p : Pipe) (woke src done)
    (idle : (writeLoop id pending fuel p woke src done).result.Idle) :
    done = 0 ∧ p.ring.len = pipeSize ∧ (writeLoop id pending fuel p woke src done).pipe = p ∧
    (writeLoop id pending fuel p woke src done).woke = woke := by
  induction fuel generalizing p woke src done with
  | zero => cases idle
  | succ fuel ih =>
  unfold writeLoop at idle ⊢
  split at idle
  · cases idle
  rename_i left
  rw [if_neg left]
  split at idle
  · exact absurd (partialStops idle).2 (by decide)
  rename_i open_
  rw [if_neg open_]
  split at idle
  · rename_i full
    rw [if_pos full]
    refine ⟨?_,full,rfl,rfl⟩
    split at idle
    · exact (partialStops idle).1
    · exact idle
  rename_i room
  obtain ⟨zero,full,_⟩ := ih _ _ _ _ idle
  rcases fillShort pipeSize p.ring src (by simpa using left) with short | ⟨same,_⟩
  · omega
  rw [same] at full
  exact absurd full room

theorem writeIdle {id pending} {p : Pipe} {src} (idle : (p.write id pending src).result.Idle) :
    (p.write id pending src).pipe = p ∧ (p.write id pending src).woke = false := by
  unfold write at idle ⊢
  split
  · exact ⟨rfl,rfl⟩
  rename_i passes
  rw [if_neg passes] at idle
  exact (writeLoopIdle id pending src.length p false src 0 idle).2.2

end Pipe

namespace Sockets

def Stops : Calls.Next SockCall SockAnswer → Prop
  | .done answer => answer = .failed .restartsys
  | .asleep _ (.send w) => w.done = 0
  | .asleep _ _ => True

def Unnoticed (d : Sockets) (o : SockOutcome) : Prop :=
  Stops o.next → Untouched d o.dev ∧ o.wakes = [] ∧ o.raised = none

theorem failedUnnoticed (d : Sockets) (e) : Unnoticed d (d.failed e) := fun _ => ⟨rfl,rfl,rfl⟩

theorem asleepUnnoticed (d next) : Unnoticed d {dev := d, next := next} := fun _ => ⟨rfl,rfl,rfl⟩

theorem finalUnnoticed {d o} (final : ¬ Stops o.next) : Unnoticed d o := fun stops => absurd stops final

theorem passUnnoticed {d} (me) {pending call o} (pass : Pass d me pending call o) : Unnoticed d o := by
  cases pass with
  | failed | asleep | seen => exact fun _ => ⟨rfl,rfl,rfl⟩
  | took | received | mailed | dropped => exact finalUnnoticed nofun
  | installed =>
    refine finalUnnoticed ?_
    unfold answered
    split <;> exact nofun
  | joined c joins =>
    obtain ⟨_,_,_,_,_,_,_,rfl⟩ := joins
    exact finalUnnoticed nofun

theorem dgramRecvUnnoticed (d : Sockets) (pending r) : Unnoticed d (d.dgramRecv pending r) := by
  unfold dgramRecv
  dsimp only
  split
  · split
    · exact asleepUnnoticed d _
    split
    · exact failedUnnoticed d _
    split
    · exact failedUnnoticed d _
    · exact asleepUnnoticed d _
  split
  · exact asleepUnnoticed d _
  · exact finalUnnoticed nofun

def SendRound.Idle (round : SendRound) : Prop :=
  match round.result with
  | .inl r => r = .error .restartsys
  | .inr w => w.done = 0

theorem placeStuck {d : Sockets} {id p src} (same : (d.get p).ring.fill sockBuf src = ((d.get p).ring,src))
    (t) : (d.place id p src).1.get t = d.get t := by
  show (d.modify p (fun y => {y with ring := ((d.get p).ring.fill sockBuf src).1})).get t = d.get t
  rw [same,getModify]
  split
  · rename_i both
    rw [both.1]
  · rfl

theorem sendLoopIdle (pending fuel) (d : Sockets) (wakes) (w : Sending) (idle : (sendLoop pending fuel d wakes w).Idle) :
    w.done = 0 ∧ (∃ p, (d.get w.sock).peer = some p ∧ (d.get p).ring.len = sockBuf) ∧
    (sendLoop pending fuel d wakes w).dev = d ∧ (sendLoop pending fuel d wakes w).wakes = wakes ∧
    (sendLoop pending fuel d wakes w).raised = none := by
  induction fuel generalizing d wakes w with
  | zero => cases idle
  | succ fuel ih =>
  unfold sendLoop at idle ⊢
  split at idle
  · cases idle
  rename_i left
  rw [if_neg left]
  dsimp only at idle ⊢
  split at idle
  · exact absurd (partialStops idle).2 (by decide)
  rename_i p open_
  have peer := (Option.filter_eq_some_iff.mp open_).1
  split at idle
  · rename_i full
    rw [if_pos full]
    split at idle
    · exact absurd (partialStops idle).2 (by decide)
    rename_i blocking
    rw [if_neg blocking]
    split at idle
    · rename_i signal
      rw [if_pos signal]
      exact ⟨(partialStops idle).1,⟨p,peer,full⟩,rfl,rfl,rfl⟩
    rename_i quiet
    rw [if_neg quiet]
    exact ⟨idle,⟨p,peer,full⟩,rfl,rfl,rfl⟩
  rename_i room
  obtain ⟨zero,⟨q,peerAfter,full⟩,_⟩ := ih _ _ _ idle
  rcases fillShort sockBuf (d.get p).ring w.src (by simpa using left) with short | ⟨same,_⟩
  · have moved : w.done + (w.src.length - ((d.get p).ring.fill sockBuf w.src).2.length) = 0 := zero
    omega
  rw [placeStuck same] at peerAfter full
  cases peer.symm.trans peerAfter
  exact absurd full room

theorem sentIdle {id round} (stops : Stops (sent id round).next) : round.Idle := by
  unfold SendRound.Idle
  cases result : round.result with
  | inl r =>
    cases r with
    | ok n => simp [sent,result,Stops] at stops
    | error e => simpa [sent,result,Stops] using stops
  | inr w => simpa [sent,result,Stops] using stops

theorem sentUnnoticed {d id round}
    (idle : round.Idle → Untouched d round.dev ∧ round.wakes = [] ∧ round.raised = none) : Unnoticed d (sent id round) := by
  intro stops
  obtain ⟨untouched,quiet⟩ := idle (sentIdle stops)
  have noted n : Untouched d (round.dev.returns id n) := by
    unfold Untouched at untouched ⊢
    unfold returns
    rw [untouched]
  unfold sent
  split
  · exact ⟨untouched,quiet⟩
  · exact ⟨noted _,quiet⟩
  · exact ⟨noted 0,quiet⟩

theorem streamSendUnnoticed (d : Sockets) (pending s src nonblock nosig) :
    Unnoticed d (d.streamSend pending s src nonblock nosig) := by
  unfold streamSend
  split
  · exact failedUnnoticed d _
  refine sentUnnoticed (fun idle => ?_)
  obtain ⟨_,_,dev,quiet⟩ := sendLoopIdle _ _ _ _ _ idle
  rw [dev]
  exact ⟨rfl,quiet⟩

theorem accept4Unnoticed (d : Sockets) (me pending fd known nonblock cloexec limit memory refused) :
    Unnoticed d (d.sysAccept4 me pending fd known nonblock cloexec limit memory refused) := by
  unfold sysAccept4
  split
  · exact failedUnnoticed d _
  split
  · exact failedUnnoticed d _
  split
  · exact failedUnnoticed d _
  · exact passUnnoticed me (acceptPass _)

end Sockets

namespace Nodes
open Sockets (Stops)

def Unnoticed (x : Nodes) (o : NodesOutcome) : Prop := Stops o.next → o.dev = x ∧ o.wakes = [] ∧ o.raised = none

theorem dgramSendUnnoticed (x : Nodes) (me pending m) : Unnoticed x (x.dgramSend me pending m) := by
  obtain ⟨_,_,error,ok⟩ := targetTargets x me m.sock m.target
  unfold dgramSend
  split
  · exact fun _ => ⟨rfl,rfl,rfl⟩
  revert error ok
  cases x.dgramTarget me m.sock m.target with
  | mk result y =>
  intro error ok
  cases result with
  | error e => exact fun _ => ⟨error e rfl,rfl,rfl⟩
  | ok found =>
  obtain ⟨held,t⟩ := found
  have put : y.putHeld held = x := ok held t rfl
  dsimp only
  rw [put]
  split
  · split
    · exact fun _ => ⟨rfl,rfl,rfl⟩
    split
    · exact fun _ => ⟨rfl,rfl,rfl⟩
    · exact fun _ => ⟨rfl,rfl,rfl⟩
  split
  · exact fun _ => ⟨rfl,rfl,rfl⟩
  · exact nofun

theorem connectLoopUnnoticed (x : Nodes) (me pending c) : Unnoticed x (x.connectLoop me pending c) := by
  unfold connectLoop
  split
  · exact fun _ => ⟨rfl,rfl,rfl⟩
  rename_i n l y found
  rw [lookupPut found]
  dsimp only
  split
  · exact fun _ => ⟨rfl,rfl,rfl⟩
  split
  · exact fun _ => ⟨rfl,rfl,rfl⟩
  split
  · split
    · exact fun _ => ⟨rfl,rfl,rfl⟩
    · exact nofun
  split
  · exact fun _ => ⟨rfl,rfl,rfl⟩
  split
  · exact fun _ => ⟨rfl,rfl,rfl⟩
  · exact fun _ => ⟨rfl,rfl,rfl⟩

theorem streamConnectUnnoticed (x : Nodes) (me pending c) : Unnoticed x (x.streamConnect me pending c) := by
  unfold streamConnect
  split
  · exact fun _ => ⟨rfl,rfl,rfl⟩
  · exact fun _ => ⟨rfl,rfl,rfl⟩
  · exact connectLoopUnnoticed x me pending c

end Nodes

namespace Kernel
open Resumable

variable {k : Kernel} {me : Addr}

theorem Untouched.sleeps (chan) : Untouched k {k with sched := k.sched.sleepOn (some chan)} :=
  ⟨rfl,rfl,rfl,rfl,rfl,rfl,.inr ⟨chan,rfl⟩⟩

theorem Untouched.refl : Untouched k k := ⟨rfl,rfl,rfl,rfl,rfl,rfl,.inl rfl⟩

theorem setPipeSame (p) : k.setPipe p (k.pipe p) false = k := by
  simp [setPipe]

theorem readIdle {p size pending} (idle : Idle (k.read p size pending).next) : Untouched k (k.read p size pending).state := by
  unfold read at idle ⊢
  dsimp only at idle ⊢
  cases result : ((k.pipe p).read pending size).result with
  | none =>
    obtain ⟨pipe,woke⟩ := Pipe.readIdle (.inl result)
    rw [pipe,woke,setPipeSame]
    exact .sleeps p
  | some r =>
    rw [result] at idle
    have stopped : r = .error .restartsys := idle
    obtain ⟨pipe,woke⟩ := Pipe.readIdle (.inr (stopped ▸ result))
    rw [pipe,woke,setPipeSame]
    exact .refl

theorem wroteIdle {p id src round} (idle : Idle (k.wrote p id src round).next)
    (quiet : round.result.Idle → round.pipe = k.pipe p ∧ round.woke = false) :
    round.result.Idle ∧ Untouched k (k.wrote p id src round).state := by
  have stopped : round.result.Idle := by
    unfold wrote at idle
    cases result : round.result <;> rw [result] at idle <;> exact idle
  obtain ⟨pipe,woke⟩ := quiet stopped
  refine ⟨stopped,?_⟩
  unfold wrote
  rw [pipe,woke,setPipeSame]
  cases round.result with
  | gate | full => exact .sleeps p
  | returns r => exact .refl

theorem onNodesStops {recv o} (idle : Idle (k.onNodes me recv o).next) : Sockets.Stops o.next := by
  unfold onNodes at idle
  cases next : o.next with
  | done a =>
    rw [next] at idle
    exact idle
  | asleep chan call =>
    rw [next] at idle
    cases call with
    | send w => exact idle
    | _ => trivial

theorem onNodesIdle {recv o} (idle : Idle (k.onNodes me recv o).next)
    (unnoticed : k.nodes.Unnoticed o) : Untouched k (k.onNodes me recv o).state := by
  obtain ⟨nodes,wakes,raised⟩ := unnoticed (onNodesStops idle)
  unfold onNodes
  rw [nodes,wakes,raised]
  cases o.next with
  | done a => exact .refl
  | asleep chan call => exact .sleeps chan

theorem onSocketsIdle {recv o} (idle : Idle (k.onSockets me recv o).next)
    (unnoticed : k.nodes.dev.Unnoticed o) : Untouched k (k.onSockets me recv o).state := by
  obtain ⟨untouched,wakes,raised⟩ := unnoticed (onNodesStops idle)
  have sockets : Sockets.Untouched k.nodes.dev (k.nodes.settle o.dev).dev := by
    rw [untouched]
    rfl
  unfold onSockets onNodes
  rw [wakes,raised]
  cases o.next with
  | done a => exact ⟨rfl,rfl,sockets,rfl,rfl,rfl,.inl rfl⟩
  | asleep chan call => exact ⟨rfl,rfl,sockets,rfl,rfl,rfl,.inr ⟨chan,rfl⟩⟩

theorem readTtyIdle {t n canon pending} (idle : Idle (k.readTty t n canon pending).next) :
    Untouched k (k.readTty t n canon pending).state := by
  have stopped : ((k.tty t).pass canon pending n).2 = none ∨
      ((k.tty t).pass canon pending n).2 = some (.error .restartsys) := by
    unfold readTty at idle
    dsimp only at idle
    cases result : ((k.tty t).pass canon pending n).2 with
    | none => exact .inl rfl
    | some r =>
      rw [result] at idle
      exact .inr (congrArg some idle)
  unfold readTty
  dsimp only
  rw [Tty.passIdle stopped,Function.update_eq_self]
  cases ((k.tty t).pass canon pending n).2 with
  | none => exact .sleeps t
  | some r => exact .refl

theorem sysWait4Idle {s : Scheduler} {pid ustatus wnohang}
    (stops : (s.sysWait4 me pid ustatus wnohang).1 = .asleep ∨ (s.sysWait4 me pid ustatus wnohang).1 = .restart) :
    (s.sysWait4 me pid ustatus wnohang).2 = s ∨ (s.sysWait4 me pid ustatus wnohang).2 = s.sleepOn (some me) := by
  unfold Scheduler.sysWait4 at stops ⊢
  split at stops
  · rcases stops with wrong | wrong <;> cases wrong
  rename_i mapped
  rw [if_neg mapped]
  split at stops
  · rcases stops with wrong | wrong <;> cases wrong
  split
  · exact .inl rfl
  split
  · exact .inl rfl
  split
  · exact .inl rfl
  · exact .inr rfl

theorem waitIdle {pid ustatus wnohang} (idle : Idle (k.wait me pid ustatus wnohang).next) :
    Untouched k (k.wait me pid ustatus wnohang).state := by
  have stops : (k.sched.sysWait4 me pid ustatus wnohang).1 = .asleep ∨
      (k.sched.sysWait4 me pid ustatus wnohang).1 = .restart := by
    unfold wait at idle
    dsimp only at idle
    split at idle
    · rename_i asleep
      exact .inl asleep
    · exact .inr idle
  have sched := sysWait4Idle stops
  have state : (k.wait me pid ustatus wnohang).state = {k with sched := (k.sched.sysWait4 me pid ustatus wnohang).2} := by
    unfold wait
    dsimp only
    split <;> rfl
  rw [state]
  rcases sched with same | slept
  · rw [same]
    exact .refl
  rw [slept]
  exact .sleeps me

theorem passIdle {c} (idle : Idle (pass me k c).next) : c.Fresh ∧ Untouched k (pass me k c).state := by
  cases c with
  | pipeRead p size => exact ⟨trivial,readIdle idle⟩
  | pipeWrite p id src => exact ⟨trivial,(wroteIdle idle Pipe.writeIdle).2⟩
  | pipeWriting p id src done =>
    obtain ⟨stopped,untouched⟩ := wroteIdle idle (fun stopped => (Pipe.writeLoopIdle _ _ _ _ _ _ _ stopped).2.2)
    exact ⟨(Pipe.writeLoopIdle _ _ _ _ _ _ _ stopped).1,untouched⟩
  | streamRecv r => exact ⟨trivial,onSocketsIdle idle (Sockets.passUnnoticed me (Sockets.streamRecvPass r))⟩
  | streamSend s src nonblock nosig => exact ⟨trivial,onSocketsIdle idle (Sockets.streamSendUnnoticed _ _ s src nonblock nosig)⟩
  | streamSending w =>
    have round := Sockets.sendLoopIdle _ _ _ _ _ (Sockets.sentIdle (onNodesStops idle))
    refine ⟨round.1,onSocketsIdle idle (Sockets.sentUnnoticed (fun _ => ?_))⟩
    rw [round.2.2.1]
    exact ⟨rfl,round.2.2.2⟩
  | dgramSend m => exact ⟨trivial,onNodesIdle idle (Nodes.dgramSendUnnoticed _ me _ m)⟩
  | dgramRecv r => exact ⟨trivial,onSocketsIdle idle (Sockets.dgramRecvUnnoticed _ _ r)⟩
  | streamConnect c => exact ⟨trivial,onNodesIdle idle (Nodes.streamConnectUnnoticed _ me _ c)⟩
  | connecting c => exact ⟨trivial,onNodesIdle idle (Nodes.connectLoopUnnoticed _ me _ c)⟩
  | accept4 fd known nonblock cloexec limit memory refused =>
    exact ⟨trivial,onSocketsIdle idle (Sockets.accept4Unnoticed _ me _ fd known nonblock cloexec limit memory refused)⟩
  | accepting a => exact ⟨trivial,onSocketsIdle idle (Sockets.passUnnoticed me (Sockets.acceptPass a))⟩
  | ttyRead | ttyReading => exact ⟨trivial,readTtyIdle idle⟩
  | wait4 pid ustatus wnohang => exact ⟨trivial,waitIdle idle⟩

theorem interruptedDidNothing (me : Addr) {c : Blocking} {passes : List (Kernel × Kernel)} {answer : Answer}
    (run : Execution (pass me) c passes answer) (restarts : answer.Restarts) : ∀ p ∈ passes, Untouched p.1 p.2 := by
  have returning k (c : Blocking) (a : Answer) (next : (pass me k c).next = .inl a) (stop : a.Restarts) :
      c.Fresh ∧ Untouched k (pass me k c).state := by
    exact passIdle (by rw [next]; exact stop)
  have sleeping k (c kept : Blocking) (next : (pass me k c).next = .inr kept) (new : kept.Fresh) :
      c.Fresh ∧ Untouched k (pass me k c).state := by
    exact passIdle (by rw [next]; exact new)
  exact (Execution.untouched returning sleeping run restarts).2

def sampleKernel (pending : BitVec 64) : Kernel where
  sched := {Scheduler.boot 0 with procs := fun _ => {sigPending := pending}}
  pipe := fun _ => Pipe.new
  nodes := {
    dev := Sockets.initial ⟨fun _ _ => .error .enoent,fun _ => false,fun _ _ => none⟩
    refs := fun _ => 0, nlink := fun _ => 0, destroyed := [], linked := nofun }
  tty := fun _ => {}

theorem sleptThenInterrupted : ∃ passes, Execution (pass 1) (.pipeRead 0 8) passes (.bytes (.error .restartsys)) ∧
    passes.length = 2 ∧ ∀ p ∈ passes, Untouched p.1 p.2 := by
  have last := @Execution.returns _ _ _ (pass 1) (sampleKernel (sigBit 10)) (Blocking.pipeRead 0 8)
    (Answer.bytes (.error .restartsys)) rfl
  have run := Execution.sleeps (sampleKernel 0) (Blocking.pipeRead 0 8) _ _ _ rfl last
  exact ⟨_,run,rfl,interruptedDidNothing 1 run rfl⟩

end Kernel

end Miviex
