import Miviex.Signals

/-! A caught signal from delivery to the return of its handler: what `rt_sigreturn`
restores, and when that is the interrupted context. -/
namespace Miviex.Task
open ByteMemory Ucontext

variable {t d : Task} {sig : Nat}

theorem deliverHandler {interrupted} (delivered : t.deliver interrupted = .handler sig d) :
    ∃ u : Task, u.regs = settleCall (t.proc.action sig) interrupted t.regs ∧
    u.proc.sigact = t.proc.sigact ∧ u.setupFrame sig = some d ∧ u.fpu = t.fpu ∧ u.space = t.space := by
  fun_induction deliver t interrupted with
  | case1 | case2 => cases delivered
  | case3 t first ready user taken ignored ih => exact ih delivered
  | case4 | case5 => cases delivered
  | case6 t first ready user taken k caught handled framed set =>
    cases delivered
    exact ⟨taken.mapRegs (settleCall k interrupted),rfl,rfl,set,rfl,rfl⟩

theorem setupFrameExists (restorer : (t.proc.action sig).flags &&& saRestorer ≠ 0) (ok : t.space.ok (frameSp t.regs)
    (frameFp t.regs + BitVec.ofNat 64 sizeofFpu - frameSp t.regs) true = true) : ∃ d, t.setupFrame sig = some d := by
  have flag : ((t.proc.action sig).flags &&& saRestorer == 0) = false := beq_false_of_ne restorer
  simp only [setupFrame,flag,ok,Bool.not_true,Bool.false_eq_true,if_false,Option.some.injEq,exists_eq']

/- The handler has returned to its restorer, which is about to call `rt_sigreturn`: the
return address is popped, the frame is as it was set up and can be read, and nothing is
pending that the restored mask would let through. -/
structure HandlerReturns (d e : Task) : Prop where
  popped : e.regs.rsp = d.regs.rsp+offsetofUc
  call : e.regs.rax = 15
  unmodified : ∀ j < sizeofRtSigframe,
    e.space.bytes (d.regs.rsp + BitVec.ofNat 64 j) = d.space.bytes (d.regs.rsp + BitVec.ofNat 64 j)
  readable : e.space.ok e.regs.rsp (BitVec.ofNat 64 sizeofUcontext) false = true
  image : e.space.ok (load d.space.bytes e.regs.rsp).mc.fpstate (BitVec.ofNat 64 sizeofFpu) false = true
  quiet : e.proc.sigPending &&&
    ~~~((load d.space.bytes e.regs.rsp).sigmask &&& ~~~unblockable) = 0

section

variable (set : t.setupFrame sig = some d)
include set

theorem setupFrameSome : d.regs.rsp = frameSp t.regs ∧
    d.space.bytes = storeWords (storeWords t.space.bytes (frameFp t.regs) t.fpu) (frameSp t.regs)
    (t.frameOf sig (t.proc.action sig)).words ∧ d.space.ok = t.space.ok ∧ d.proc.sigPending = t.proc.sigPending := by
  unfold setupFrame at set
  dsimp only at set
  split at set
  · cases set
  split at set
  · cases set
  cases set
  refine ⟨rfl,rfl,rfl,?_⟩
  split <;> rfl

theorem frameStored :
    load d.space.bytes (d.regs.rsp+offsetofUc) = (t.frameOf sig (t.proc.action sig)).uc := by
  obtain ⟨sp,bytes,_⟩ := setupFrameSome set
  rw [sp]
  refine loadStoredFrame (m := storeWords t.space.bytes (frameFp t.regs) t.fpu) (fun j _ => ?_)
  rw [bytes]

theorem frameLoaded {e} (returns : HandlerReturns d e) :
    load e.space.bytes e.regs.rsp = (t.frameOf sig (t.proc.action sig)).uc := by
  obtain ⟨sp,bytes,_⟩ := setupFrameSome set
  rw [returns.popped,sp]
  refine loadStoredFrame (m := storeWords t.space.bytes (frameFp t.regs) t.fpu) (fun j bound => ?_)
  rw [← sp,returns.unmodified j bound,bytes,sp]

end

theorem deliverQuiet {interrupted} (quiet : t.proc.sigPending &&& ~~~t.proc.sigBlocked = 0) : t.deliver interrupted =
    .resumed ((t.mapRegs (fun r => if interrupted then restart r else r)).mapProc signalMaskRestore) := by
  have none : firstReady t.proc = none := by simp [firstReady,quiet]
  fun_cases deliver t interrupted with
  | case1 => rfl
  | case2 first ready => rw [none] at ready; cases ready
  | case3 first ready => rw [none] at ready; cases ready
  | case4 first ready => rw [none] at ready; cases ready
  | case5 first ready => rw [none] at ready; cases ready
  | case6 first ready => rw [none] at ready; cases ready

/- The frame that `rt_sigreturn` leaves to `syscall_return`. A restored rax that looks
like an interrupted call is restarted, with -1 as the number of the call. -/
def restoredFrame (entry r : Registers) : Registers :=
  let f : Registers := {entry with
    r8 := r.r8, r9 := r.r9, r10 := r.r10, r11 := r.r11, r12 := r.r12, r13 := r.r13
    r14 := r.r14, r15 := r.r15, rdi := r.rdi, rsi := r.rsi, rbp := r.rbp, rbx := r.rbx
    rdx := r.rdx, rax := r.rax, rcx := r.rcx, rsp := r.rsp, rip := r.rip
    rflags := restoredFlags r.rflags, cs := userCodeSel, ss := userDataSel, intNo := -1 }
  if r.rax = erestartsys then restart f else f

theorem sigreturnResult {e} (other : Nat → Option (Task → Reply))
    (set : t.setupFrame sig = some d) (returns : HandlerReturns d e) :
    (userEnd ≤ t.regs.rip → e.systemCall other = .killed sigSegv) ∧
    (¬ userEnd ≤ t.regs.rip → ∃ f, e.systemCall other = .resumed f ∧ f.regs = restoredFrame (syscallEntry e.regs) t.regs) := by
  have loaded := frameLoaded set returns
  have stored := frameStored set
  rw [← returns.popped] at stored
  have readable := returns.readable
  have image := returns.image
  have quiet := returns.quiet
  rw [stored] at image quiet
  have number : e.regs.rax.toNat = 15 := by rw [returns.call]; rfl
  have same : (e.mapRegs syscallEntry).regs.rax.toNat = 15 := number
  have found : (if 15 ≥ lenSyscalls then none else syscalls other 15) = some sysRtSigreturn := rfl
  unfold systemCall syscallDispatch
  simp only [same,found]
  generalize entered : (e.mapRegs syscallEntry).mapRegs (fun r => {r with intNo := r.rax}) = k
  have atEntry : load k.space.bytes k.regs.rsp = (t.frameOf sig (t.proc.action sig)).uc := entered ▸ loaded
  have open' : k.space.ok k.regs.rsp (BitVec.ofNat 64 sizeofUcontext) false = true := entered ▸ readable
  have imageOk : k.space.ok (t.frameOf sig (t.proc.action sig)).uc.mc.fpstate
    (BitVec.ofNat 64 sizeofFpu) false = true := entered ▸ image
  have rip : (t.frameOf sig (t.proc.action sig)).uc.mc.rip = t.regs.rip := rfl
  constructor
  · intro high
    simp [sysRtSigreturn,open',atEntry,rip,high]
  intro low
  simp only [sysRtSigreturn,open',atEntry,rip,low,imageOk,Bool.not_true,Bool.and_false,
    decide_false,Bool.or_false,Bool.false_eq_true,if_false,signalDeliver]
  rw [deliverQuiet (entered ▸ quiet)]
  refine ⟨_,rfl,?_⟩
  unfold restoredFrame
  by_cases stuck : t.regs.rax = erestartsys
  · simp [mapProc,mapRegs,restoreRegs,frameOf,stuck,syscallEntry,← entered]
  · simp [mapProc,mapRegs,restoreRegs,frameOf,stuck,syscallEntry,← entered]

/- The context to return to: at the end of an interrupted call, the call again or its
EINTR, as the caught signal's flags ask. -/
def interruptedAt (t : Task) (fromSyscall : Bool) (sig : Nat) : Registers :=
  settleCall (t.proc.action sig) (fromSyscall && t.regs.rax == erestartsys) t.regs

def arithmeticFlags : BitVec 64 := 0x8D5

structure SameContext (fromSyscall : Bool) (u v : Registers) : Prop where
  rip : u.rip = v.rip
  rsp : u.rsp = v.rsp
  rax : u.rax = v.rax
  rbx : u.rbx = v.rbx
  rdx : u.rdx = v.rdx
  rsi : u.rsi = v.rsi
  rdi : u.rdi = v.rdi
  rbp : u.rbp = v.rbp
  r8 : u.r8 = v.r8
  r9 : u.r9 = v.r9
  r10 : u.r10 = v.r10
  r12 : u.r12 = v.r12
  r13 : u.r13 = v.r13
  r14 : u.r14 = v.r14
  r15 : u.r15 = v.r15
  rcx : fromSyscall = false → u.rcx = v.rcx
  r11 : fromSyscall = false → u.r11 = v.r11
  flags : u.rflags &&& arithmeticFlags = v.rflags &&& arithmeticFlags

structure Resumable (fromSyscall : Bool) (r : Registers) : Prop where
  rip : r.rip < userEnd
  rax : r.rax ≠ erestartsys
  rcx : fromSyscall = false → r.rcx = r.rip
  r11 : fromSyscall = false → r.r11 = restoredFlags r.rflags

theorem arithmeticRestored (w) : (restoredFlags w &&& 0x3C7FD7 ||| 2) &&& arithmeticFlags = w &&& arithmeticFlags := by
  have masks : ∀ i < 64, arithmeticFlags.getLsbD i = true → (0x40DD5 : BitVec 64).getLsbD i = true ∧
      (0x3C7FD7 : BitVec 64).getLsbD i = true ∧ (0x202 : BitVec 64).getLsbD i = false ∧
      (2 : BitVec 64).getLsbD i = false := by decide
  apply BitVec.eq_of_getLsbD_eq
  intro i bound
  simp only [restoredFlags,BitVec.getLsbD_and,BitVec.getLsbD_or]
  cases kept : arithmeticFlags.getLsbD i with
  | false => simp
  | true =>
    obtain ⟨first,second,third,fourth⟩ := masks i bound kept
    rw [first,second,third,fourth,Bool.and_true,Bool.or_false,Bool.and_true,Bool.or_false]

theorem sysretSame {fromSyscall} (entry) (r : Registers) (low : ¬ userEnd ≤ r.rip) :
    SameContext fromSyscall (sysret (restoredFrame entry r)) r ↔ Resumable fromSyscall r := by
  by_cases stuck : r.rax = erestartsys
  · refine iff_of_false (fun same => ?_) (fun resumable => resumable.rax stuck)
    have rax := same.rax
    simp only [sysret,restoredFrame,stuck,if_true,restart] at rax
    exact absurd rax (by decide)
  unfold restoredFrame
  rw [if_neg stuck]
  constructor
  · intro same
    exact ⟨BitVec.not_le.mp low,stuck,fun h => (same.rcx h).symm,fun h => (same.r11 h).symm⟩
  intro resumable
  refine ⟨rfl,rfl,rfl,rfl,rfl,rfl,rfl,rfl,rfl,rfl,rfl,rfl,rfl,rfl,rfl,?_,?_,?_⟩
  · exact fun h => (resumable.rcx h).symm
  · exact fun h => (resumable.r11 h).symm
  · exact arithmeticRestored r.rflags

theorem sigreturnResumes {t d e : Task} {fromSyscall : Bool} {sig : Nat}
    (other : Nat → Option (Task → Reply)) (delivered : t.signalDeliver fromSyscall = .handler sig d)
    (returns : HandlerReturns d e) :
    (∃ f, e.systemCall other = .resumed f ∧ SameContext fromSyscall (sysret f.regs) (t.interruptedAt fromSyscall sig)) ↔
    Resumable fromSyscall (t.interruptedAt fromSyscall sig) := by
  obtain ⟨u,regs,_,set,_⟩ := deliverHandler delivered
  have context : t.interruptedAt fromSyscall sig = u.regs := regs.symm
  rw [context]
  obtain ⟨killed,resumed⟩ := sigreturnResult other set returns
  by_cases high : userEnd ≤ u.regs.rip
  · refine iff_of_false ?_ (fun resumable => BitVec.not_le.mpr resumable.rip high)
    rintro ⟨f,result,_⟩
    rw [killed high] at result
    cases result
  obtain ⟨f,result,frame⟩ := resumed high
  rw [← sysretSame (syscallEntry e.regs) u.regs high]
  constructor
  · rintro ⟨g,again,same⟩
    rw [result] at again
    cases again
    rw [← frame]
    exact same
  intro same
  exact ⟨f,result,by rw [frame]; exact same⟩

theorem deliverCaught {interrupted} (ready : firstReady t.proc = some sig)
    (user : t.proc.isUser = true) (wanted : ignores t.proc sig = false) (caught : (t.proc.action sig).handler ≠ sigDfl)
    (set : ((t.mapProc (takeSignal · sig)).mapRegs (settleCall (t.proc.action sig) interrupted)).setupFrame sig = some d) :
    t.deliver interrupted = .handler sig d := by
  fun_cases deliver t interrupted with
  | case1 none => rw [ready] at none; cases none
  | case2 first found kernel => simp [user] at kernel
  | case3 first found _ _ ignored =>
    cases Option.some.inj (ready.symm.trans found)
    rw [wanted] at ignored
    cases ignored
  | case4 first found _ k _ default =>
    cases Option.some.inj (ready.symm.trans found)
    exact absurd (eq_of_beq default) caught
  | case5 first found _ _ k _ _ failed =>
    cases Option.some.inj (ready.symm.trans found)
    rw [set] at failed
    cases failed
  | case6 first found _ _ k _ _ framed again =>
    cases Option.some.inj (ready.symm.trans found)
    rw [set] at again
    cases again
    rfl

def sampleSpace : UserSpace where
  bytes := fun _ => 0
  ok := fun a n _ => userEnd-0x800000 ≤ a && a.toNat + n.toNat ≤ userEnd.toNat

structure Catches (p : Process) : Prop where
  user : p.isUser = true
  ready : firstReady p = some 10
  wanted : ignores p 10 = false
  caught : (p.action 10).handler ≠ sigDfl
  restorer : (p.action 10).flags &&& saRestorer ≠ 0
  alone : (takeSignal p 10).sigPending = 0

def stacked (p : Process) (r : Registers) : Task where
  proc := p
  regs := {r with rsp := 0x7FFFFFFFE000}
  space := sampleSpace
  fpu := List.replicate 64 0

def returned (d : Task) : Task :=
  d.mapRegs (fun r => {r with rsp := r.rsp+offsetofUc, rax := 15})

theorem catcherReturns {p} (catches : Catches p) (r : Registers) (fromSyscall) (settled : r.rax ≠ erestartsys) :
    ∃ d, (stacked p r).signalDeliver fromSyscall = .handler 10 d ∧ HandlerReturns d (returned d) := by
  have running : (fromSyscall && (stacked p r).regs.rax == erestartsys) = false := by simp [stacked,settled]
  let taken := ((stacked p r).mapProc (takeSignal · 10)).mapRegs (settleCall ((stacked p r).proc.action 10) false)
  have rsp : taken.regs.rsp = 0x7FFFFFFFE000 := rfl
  have fp : frameFp taken.regs = 0x7FFFFFFFDD80 := by
    unfold frameFp
    rw [rsp]
    decide
  have sp : frameSp taken.regs = 0x7FFFFFFFDBB8 := by
    unfold frameSp
    rw [fp]
    decide
  obtain ⟨d,set⟩ : ∃ d, taken.setupFrame 10 = some d := by
    refine setupFrameExists ?_ ?_
    · exact catches.restorer
    rw [fp,sp]
    change sampleSpace.ok _ _ true = true
    decide
  obtain ⟨place,_,ok,pending⟩ := setupFrameSome set
  have empty : d.proc.sigPending = 0 := by
    rw [pending]
    exact catches.alone
  have stored := frameStored set
  refine ⟨d,?_,rfl,rfl,fun _ _ => rfl,?_,?_,?_⟩
  · unfold signalDeliver
    rw [running]
    exact deliverCaught catches.ready catches.user catches.wanted catches.caught set
  · change d.space.ok (d.regs.rsp+offsetofUc) _ _ = _
    rw [place,ok,sp]
    change sampleSpace.ok _ _ false = true
    decide
  · change d.space.ok (load d.space.bytes (d.regs.rsp+offsetofUc)).mc.fpstate _ _ = _
    rw [stored,ok]
    change taken.space.ok (frameFp taken.regs) _ _ = _
    rw [fp]
    change sampleSpace.ok _ _ false = true
    decide
  change d.proc.sigPending &&& _ = 0
  rw [empty]
  exact BitVec.zero_and

def sampleProc : Process where
  pid := 5
  isUser := true
  sigPending := sigBit 10
  sigact := fun i => if i = 9 then {handler := 0x401000, flags := saRestorer, restorer := 0x402000} else {}

theorem sampleCatches : Catches sampleProc := ⟨rfl,by decide,by decide,by decide,by decide,by decide⟩

def sampleTask (r : Registers) : Task := stacked sampleProc r

theorem sampleReturns (r : Registers) (fromSyscall) (settled : r.rax ≠ erestartsys) :
    ∃ d, (sampleTask r).signalDeliver fromSyscall = .handler 10 d ∧ HandlerReturns d (returned d) :=
  catcherReturns sampleCatches r fromSyscall settled

/- An interrupt takes a process whose rcx is not its rip: rcx is lost. -/
theorem interruptLosesRcx : ∃ (t d e f : Task), t.signalDeliver false = .handler 10 d ∧ HandlerReturns d e ∧
    e.systemCall (fun _ => none) = .resumed f ∧ t.regs.rcx = 7 ∧ (sysret f.regs).rcx = 0x400000 ∧
    ¬ SameContext false (sysret f.regs) (t.interruptedAt false 10) := by
  let r : Registers := {rip := 0x400000, rcx := 7, rflags := 0x202}
  obtain ⟨d,delivered,returns⟩ := sampleReturns r false (by decide)
  obtain ⟨u,regs,_,set,_⟩ := deliverHandler delivered
  have same : u.regs = (sampleTask r).regs := regs
  obtain ⟨f,result,frame⟩ := (sigreturnResult (fun _ => none) set returns).2 (by rw [same]; decide)
  have rcx : (sysret f.regs).rcx = 0x400000 := by rw [frame,same]; rfl
  refine ⟨sampleTask r,d,returned d,f,delivered,returns,result,rfl,rcx,fun context => ?_⟩
  have kept := context.rcx rfl
  rw [rcx] at kept
  exact absurd kept (by decide)

theorem syscallExitResumes : ∃ (t d e : Task), t.signalDeliver true = .handler 10 d ∧ HandlerReturns d e ∧
    ∃ f, e.systemCall (fun _ => none) = .resumed f ∧ SameContext true (sysret f.regs) (t.interruptedAt true 10) := by
  let r : Registers := {rip := 0x400000, rax := 3, rflags := 0x246}
  obtain ⟨d,delivered,returns⟩ := sampleReturns r true (by decide)
  refine ⟨sampleTask r,d,returned d,delivered,returns,?_⟩
  refine (sigreturnResumes (fun _ => none) delivered returns).mpr ⟨?_,?_,?_,?_⟩
  · decide
  · decide
  · intro h; cases h
  · intro h; cases h

end Miviex.Task
