import Miviex.SignalFrame

/-! Signal delivery on the way back to ring 3, `rt_sigreturn`, and the system-call entry
and return around them. `UserSpace.ok` is the answer of `vmm_user_ok` in the active
address space, stack growth included. -/
namespace Miviex
open ByteMemory

structure UserSpace where
  bytes : Memory
  ok : BitVec 64 → BitVec 64 → Bool → Bool

/- The current process on its way through the kernel. `fpu` is what `fxsave` would
store, as 64 words. -/
structure Task where
  proc : Process
  regs : Registers
  space : UserSpace
  fpu : List (BitVec 64)

def sizeofFpu : Nat := 512

def eintr : BitVec 64 := -4
def efault : BitVec 64 := -14
def einval : BitVec 64 := -22
def enosys : BitVec 64 := -38
def erestartsys : BitVec 64 := -512

namespace Task

def mapRegs (t : Task) (f : Registers → Registers) : Task := {t with regs := f t.regs}

def mapProc (t : Task) (f : Process → Process) : Task := {t with proc := f t.proc}

def frameFp (r : Registers) : BitVec 64 := (r.rsp-128 - BitVec.ofNat 64 sizeofFpu) &&& ~~~63

def frameSp (r : Registers) : BitVec 64 :=
  ((frameFp r - BitVec.ofNat 64 sizeofRtSigframe) &&& ~~~15) - 8

def oldMask (p : Process) : BitVec 64 := if p.sigRestore then p.sigSaved else p.sigBlocked

def frameOf (t : Task) (sig : Nat) (k : SigAction) : RtSigframe where
  pretcode := k.restorer
  uc := {
    mc := {
      r8 := t.regs.r8, r9 := t.regs.r9, r10 := t.regs.r10, r11 := t.regs.r11
      r12 := t.regs.r12, r13 := t.regs.r13, r14 := t.regs.r14, r15 := t.regs.r15
      rdi := t.regs.rdi, rsi := t.regs.rsi, rbp := t.regs.rbp, rbx := t.regs.rbx
      rdx := t.regs.rdx, rax := t.regs.rax, rcx := t.regs.rcx, rsp := t.regs.rsp
      rip := t.regs.rip, eflags := t.regs.rflags, cs := t.regs.cs.setWidth 16
      ss := t.regs.ss.setWidth 16, oldmask := oldMask t.proc, fpstate := frameFp t.regs }
    sigmask := oldMask t.proc }
  info := {signo := BitVec.ofNat 32 sig, code := 0}

def handlerMask (p : Process) (sig : Nat) (k : SigAction) : BitVec 64 :=
  (oldMask p ||| k.mask ||| (if k.flags &&& saNodefer != 0 then 0 else sigBit sig)) &&& ~~~unblockable

def resetHandler (p : Process) (sig : Nat) : Process :=
  {p with sigact := Function.update p.sigact (sig-1) {p.sigact (sig-1) with handler := sigDfl}}

def setupFrame (t : Task) (sig : Nat) : Option Task :=
  let k := t.proc.action sig
  let fp := frameFp t.regs
  let sp := frameSp t.regs
  if k.flags &&& saRestorer == 0 then none
  else if !t.space.ok sp (fp + BitVec.ofNat 64 sizeofFpu - sp) true then none
  else
    let bytes := storeWords (storeWords t.space.bytes fp t.fpu) sp (t.frameOf sig k).words
    let regs := {t.regs with
      rip := k.handler, rsp := sp, rdi := BitVec.ofNat 64 sig, rsi := sp+offsetofInfo
      rdx := sp+offsetofUc, rax := 0, rflags := t.regs.rflags &&& ~~~0x500 }
    let proc := {t.proc with sigBlocked := handlerMask t.proc sig k, sigRestore := false}
    let proc := if k.flags &&& saResethand != 0 then resetHandler proc sig else proc
    some {t with proc := proc, regs := regs, space := {t.space with bytes := bytes}}

def restart (r : Registers) : Registers := {r with rax := r.intNo, rip := r.rip - 2}

def signalMaskTemp (p : Process) (mask : BitVec 64) : Process :=
  {p with sigSaved := p.sigBlocked, sigRestore := true, sigBlocked := mask &&& ~~~unblockable}

def signalMaskRestore (p : Process) : Process :=
  if p.sigRestore then {p with sigBlocked := p.sigSaved, sigRestore := false} else p

def firstReady (p : Process) : Option Nat :=
  ((List.range nsig).find? (fun i => (p.sigPending &&& ~~~p.sigBlocked).getLsbD i)).map (· + 1)

def takeSignal (p : Process) (sig : Nat) : Process := {p with sigPending := p.sigPending &&& ~~~sigBit sig}

def ignores (p : Process) (sig : Nat) : Bool :=
  (p.action sig).handler == sigIgn || ((p.action sig).handler == sigDfl && defaultIgnored sig)

def settleCall (k : SigAction) (interrupted : Bool) (r : Registers) : Registers :=
  if interrupted then (if k.flags &&& saRestart != 0 then restart r else {r with rax := eintr}) else r

inductive Delivery where
  | killed (status : Nat)
  | handler (sig : Nat) (t : Task)
  | resumed (t : Task)

theorem firstReadyPending {p sig} (found : firstReady p = some sig) : ∃ i, sig = i+1 ∧ p.sigPending.getLsbD i = true := by
  obtain ⟨i,first,rfl⟩ := Option.map_eq_some_iff.mp found
  have set := List.find?_some first
  simp only [BitVec.getLsbD_and,Bool.and_eq_true] at set
  exact ⟨i,rfl,set.1⟩

theorem takeSignalLess {p sig} (found : firstReady p = some sig) :
    (takeSignal p sig).sigPending.toNat < p.sigPending.toNat := by
  obtain ⟨i,rfl,set⟩ := firstReadyPending found
  have bound : i < 64 := BitVec.lt_of_getLsbD set
  have below : (takeSignal p (i+1)).sigPending.toNat ≤ p.sigPending.toNat := by
    unfold takeSignal
    exact Nat.and_le_left
  have cleared : (takeSignal p (i+1)).sigPending.getLsbD i = false := by simp [takeSignal,sigBit,bound]
  have differ : (takeSignal p (i+1)).sigPending.toNat ≠ p.sigPending.toNat := by
    intro same
    rw [BitVec.eq_of_toNat_eq same,set] at cleared
    contradiction
  omega

def deliver (t : Task) (interrupted : Bool) : Delivery :=
  match _ : firstReady t.proc with
  | none => resume t
  | some sig =>
    if !t.proc.isUser then resume t
    else
      let taken := t.mapProc (takeSignal · sig)
      let k := t.proc.action sig
      if ignores t.proc sig then deliver taken interrupted
      else if k.handler == sigDfl then .killed sig
      else match (taken.mapRegs (settleCall k interrupted)).setupFrame sig with
        | none => .killed sigSegv
        | some t => .handler sig t
termination_by t.proc.sigPending.toNat
decreasing_by exact takeSignalLess (by assumption)
where
  resume (t : Task) : Delivery :=
    .resumed ((t.mapRegs (fun r => if interrupted then restart r else r)).mapProc signalMaskRestore)

def signalDeliver (t : Task) (fromSyscall : Bool) : Delivery :=
  t.deliver (fromSyscall && t.regs.rax == erestartsys)

inductive Reply where
  | killed (status : Nat)
  | result (value : BitVec 64) (t : Task)

def loadAction (m : Memory) (a : BitVec 64) : SigAction where
  handler := wordAt m a 0
  flags := wordAt m a 1
  restorer := wordAt m a 2
  mask := wordAt m a 3

def actionWords (k : SigAction) : List (BitVec 64) := [k.handler,k.flags,k.restorer,k.mask]

def store (t : Task) (a : BitVec 64) (ws : List (BitVec 64)) : Task :=
  {t with space := {t.space with bytes := storeWords t.space.bytes a ws}}

def installAction (p : Process) (sig : Nat) (k : SigAction) : Process :=
  let p := {p with sigact := Function.update p.sigact (sig-1) {k with mask := k.mask &&& ~~~unblockable}}
  if discarded p sig then takeSignal p sig else p

def sysRtSigaction (t : Task) : Reply :=
  let sig := t.regs.rdi.toInt
  let act := t.regs.rsi
  let oact := t.regs.rdx
  if sig < 1 || sig > nsig || t.regs.r10 != 8 then .result einval t
  else if act != 0 && (sig == sigKill || sig == sigStop) then .result einval t
  else if oact != 0 && !t.space.ok oact 32 true then .result efault t
  else
    let t := if oact != 0 then t.store oact (actionWords (t.proc.action sig.toNat)) else t
    if act == 0 then .result 0 t
    else if !t.space.ok act 32 false then .result efault t
    else .result 0 (t.mapProc (installAction · sig.toNat (loadAction t.space.bytes act)))

def sysRtSigprocmask (t : Task) : Reply :=
  let how := t.regs.rdi
  let set := t.regs.rsi
  let oset := t.regs.rdx
  if t.regs.r10 != 8 then .result einval t
  else if oset != 0 && !t.space.ok oset 8 true then .result efault t
  else
    let t := if oset != 0 then t.store oset [t.proc.sigBlocked] else t
    if set == 0 then .result 0 t
    else if !t.space.ok set 8 false then .result efault t
    else
      let m := wordAt t.space.bytes set 0
      let block (mask : BitVec 64) : Reply :=
        .result 0 (t.mapProc (fun p => {p with sigBlocked := mask &&& ~~~unblockable}))
      if how == 0 then block (t.proc.sigBlocked ||| m)
      else if how == 1 then block (t.proc.sigBlocked &&& ~~~m)
      else if how == 2 then block m
      else .result einval t

def loadFpu (m : Memory) (a : BitVec 64) : List (BitVec 64) := (List.range 64).map (wordAt m a)

/- The reserved MXCSR bits, in the low half of word 3, would fault on `fxrstor`. -/
def maskMxcsr (image : List (BitVec 64)) : List (BitVec 64) :=
  image.modify 3 (fun w => w &&& 0xFFFFFFFF0000FFBF)

def restoredFlags (eflags : BitVec 64) : BitVec 64 := (eflags &&& 0x40DD5) ||| 0x202

def restoreRegs (r : Registers) (mc : Sigcontext) : Registers :=
  {r with
    r8 := mc.r8, r9 := mc.r9, r10 := mc.r10, r11 := mc.r11, r12 := mc.r12, r13 := mc.r13
    r14 := mc.r14, r15 := mc.r15, rdi := mc.rdi, rsi := mc.rsi, rbp := mc.rbp, rbx := mc.rbx
    rdx := mc.rdx, rax := mc.rax, rcx := mc.rcx, rsp := mc.rsp, rip := mc.rip
    rflags := restoredFlags mc.eflags, cs := userCodeSel, ss := userDataSel, intNo := -1 }

def sysRtSigreturn (t : Task) : Reply :=
  if !t.space.ok t.regs.rsp (BitVec.ofNat 64 sizeofUcontext) false then .killed sigSegv
  else
    let uc := Ucontext.load t.space.bytes t.regs.rsp
    let mc := uc.mc
    if userEnd ≤ mc.rip || (mc.fpstate != 0 && !t.space.ok mc.fpstate (BitVec.ofNat 64 sizeofFpu) false) then .killed sigSegv
    else
      let fpu := if mc.fpstate != 0 then maskMxcsr (loadFpu t.space.bytes mc.fpstate) else t.fpu
      .result mc.rax {t with
        proc := {t.proc with sigBlocked := uc.sigmask &&& ~~~unblockable}
        regs := restoreRegs t.regs mc
        fpu := fpu }

def lenSyscalls : Nat := 319

def syscalls (other : Nat → Option (Task → Reply)) : Nat → Option (Task → Reply)
  | 13 => some sysRtSigaction
  | 14 => some sysRtSigprocmask
  | 15 => some sysRtSigreturn
  | n => other n

def syscallDispatch (other : Nat → Option (Task → Reply)) (t : Task) : Delivery :=
  let number := t.regs.rax.toNat
  let t := t.mapRegs (fun r => {r with intNo := r.rax})
  match if number ≥ lenSyscalls then none else syscalls other number with
  | none => (t.mapRegs (fun r => {r with rax := enosys})).signalDeliver true
  | some call =>
    match call t with
    | .killed status => .killed status
    | .result value t => (t.mapRegs (fun r => {r with rax := value})).signalDeliver true

/- The frame built by `syscall_entry`: the CPU has put rip in rcx and rflags in r11. -/
def syscallEntry (u : Registers) : Registers :=
  {u with rcx := u.rip, r11 := u.rflags, cs := userCodeSel, ss := userDataSel, intNo := 0, errCode := 0}

/- The user registers after `syscall_return` has popped the frame and executed sysret. -/
def sysret (f : Registers) : Registers :=
  {f with rcx := f.rip, r11 := f.rflags, rflags := (f.rflags &&& 0x3C7FD7) ||| 2,
          cs := userCodeSel, ss := userDataSel}

def systemCall (other : Nat → Option (Task → Reply)) (t : Task) : Delivery :=
  (t.mapRegs syscallEntry).syscallDispatch other

end Task
end Miviex
