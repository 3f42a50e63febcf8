import Mathlib.Logic.Function.Basic

/-! Process records as the scheduler and the signal code see them. A process is
named by the address of its `process_t`; wait channels are addresses too. -/
namespace Miviex

abbrev Addr := Nat

inductive ProcessState where
  | running
  | ready
  | blocked
  | terminated
  deriving DecidableEq, Repr

/- `k_sigaction_t`. `SIG_DFL` is 0 and `SIG_IGN` is 1; every other handler is an
address the process chose. -/
structure SigAction where
  handler : BitVec 64 := 0
  flags : BitVec 64 := 0
  restorer : BitVec 64 := 0
  mask : BitVec 64 := 0
  deriving DecidableEq, Repr

def sigDfl : BitVec 64 := 0
def sigIgn : BitVec 64 := 1

def saNocldwait : BitVec 64 := 0x00000002
def saRestorer : BitVec 64 := 0x04000000
def saRestart : BitVec 64 := 0x10000000
def saNodefer : BitVec 64 := 0x40000000
def saResethand : BitVec 64 := 0x80000000

def nsig : Nat := 64
def sigKill : Nat := 9
def sigSegv : Nat := 11
def sigChld : Nat := 17
def sigCont : Nat := 18
def sigStop : Nat := 19
def sigTstp : Nat := 20
def sigTtin : Nat := 21
def sigTtou : Nat := 22
def sigUrg : Nat := 23
def sigWinch : Nat := 28

def sigBit (sig : Nat) : BitVec 64 := (1 : BitVec 64) <<< (sig-1)

def unblockable : BitVec 64 := sigBit sigKill ||| sigBit sigStop

def numSchedQueues : Nat := 16
def prioUser : Nat := 8
def prioIdle : Nat := numSchedQueues-1

structure Process where
  pid : UInt32 := 0
  ppid : UInt32 := 0
  pgid : UInt32 := 0
  sid : UInt32 := 0
  state : ProcessState := .ready
  exitStatus : Int := 0
  waitChan : Option Addr := none
  priority : Nat := 0
  quantum : Nat := 0
  ticksLeft : Nat := 0
  cpuTicks : Nat := 0
  childTicks : Nat := 0
  isUser : Bool := false
  sigact : Nat → SigAction := fun _ => {}
  sigPending : BitVec 64 := 0
  sigBlocked : BitVec 64 := 0
  sigSaved : BitVec 64 := 0
  sigRestore : Bool := false
  next : Option Addr := none
  prev : Option Addr := none

def Process.action (p : Process) (sig : Nat) : SigAction := p.sigact (sig-1)

/- Stop signals are not implemented; their default is to be ignored. -/
def defaultIgnored (sig : Nat) : Bool :=
  [sigChld,sigCont,sigUrg,sigWinch,sigStop,sigTstp,sigTtin,sigTtou].contains sig

def discarded (p : Process) (sig : Nat) : Bool :=
  if sig = sigKill then p.pid == 1
  else (p.action sig).handler == sigIgn ||
    ((p.action sig).handler == sigDfl && (defaultIgnored sig || p.pid == 1))

def signalPending (p : Process) : Bool := p.sigPending &&& ~~~p.sigBlocked != 0

end Miviex
