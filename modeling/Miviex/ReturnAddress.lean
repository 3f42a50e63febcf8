import Miviex.ElfLoader
import Miviex.Runs
import Miviex.SignalReturn

/-! The instruction pointer that sysret takes over the life of a process: its visits to the kernel
by interrupts and system calls, the signals sent to it, execve and fork. -/
open Miviex.Task List Option

namespace Miviex

structure User where
  regs : Registers
  space : UserSpace
  fpu : List (BitVec 64)

/- What a call without a model of its own does to its caller: it returns a value, writes
user memory, and signals arrive or masks change while it sleeps. It leaves the saved
registers and the signal actions alone. -/
structure Effect where
  value : BitVec 64
  pending : BitVec 64
  blocked : BitVec 64
  saved : BitVec 64
  restore : Bool
  space : UserSpace

def plainCall (x : Effect) (t : Task) : Reply :=
  .result x.value {t with
    proc := {t.proc with
      sigPending := x.pending, sigBlocked := x.blocked, sigSaved := x.saved, sigRestore := x.restore}
    space := x.space }

/- The arguments of execve as the kernel finds them: `refused` is an error before the
file is loaded, `space` the user memory afterwards. -/
structure Program where
  refused : Option Errno
  machine : Machine
  old : AddressSpace
  img : List Byte
  args : Machine.ExecArgs
  space : UserSpace

def Errno.result (e : Errno) : BitVec 64 := -BitVec.ofNat 64 e.code

/- Caught signals revert to default; ignored ones and the mask stay. -/
def clearHandlers (p : Process) : Process :=
  {p with sigact := fun i => if (p.sigact i).handler = sigIgn then p.sigact i else {}}

def execRegs (image : Machine.Image) : Registers where
  rip := BitVec.ofNat 64 image.entry
  rsp := BitVec.ofNat 64 image.stack.rsp
  rflags := 0x202
  cs := userCodeSel
  ss := userDataSel

def freshFpu : List (BitVec 64) := [0x37F,0,0,0x1F80] ++ replicate 60 0

def sysExecve (x : Program) (t : Task) : Reply :=
  match x.refused with
  | some e => .result e.result t
  | none =>
    match (x.machine.processExecve x.old x.img x.args).1 with
    | .error e => .result e.result t
    | .ok image => .result 0 {
        proc := clearHandlers t.proc, regs := execRegs image, space := x.space, fpu := freshFpu }

def otherCalls (plain : Option Effect) (x : Program) : Nat → Option (Task → Reply)
  | 59 => some (sysExecve x)
  | _ => plain.map plainCall

/- One visit to the kernel, or a signal sent by somebody else. After a fork the run can
follow the parent, for which it is a plain call, or the child. -/
inductive Visit where
  | sent (sig : Nat)
  | interrupt (u : User)
  | syscall (u : User) (plain : Option Effect) (x : Program)
  | forked (u : User) (pid : UInt32)

structure Life where
  proc : Process
  left : Option Registers

namespace Life

def born (p : Process) : Life := ⟨{p with sigact := fun _ => {}, sigPending := 0, sigBlocked := 0},none⟩

def task (l : Life) (u : User) : Task := ⟨l.proc,u.regs,u.space,u.fpu⟩

def outcome : Delivery → Option Task
  | .killed _ => none
  | .handler _ t => some t
  | .resumed t => some t

def forkedProc (p : Process) (pid : UInt32) : Process :=
  {pid := pid, ppid := p.pid, pgid := p.pgid, sid := p.sid, priority := p.priority, isUser := true,
    sigact := p.sigact, sigBlocked := p.sigBlocked}

/- The saved rip lies behind the two-byte syscall instruction, inside the user half. -/
def entered (u : User) : Bool := 2 ≤ u.regs.rip && u.regs.rip < userEnd

def step (l : Life) : Visit → Option Life
  | .sent sig =>
    if sig < 1 || sig > nsig || discarded l.proc sig then some {l with left := none}
    else some ⟨{l.proc with sigPending := l.proc.sigPending ||| sigBit sig},none⟩
  | .interrupt u => (outcome ((l.task u).signalDeliver false)).map (fun t => ⟨t.proc,none⟩)
  | .syscall u plain x =>
    if entered u then
      (outcome ((l.task u).systemCall (otherCalls plain x))).map (fun t => ⟨t.proc,some t.regs⟩)
    else none
  | .forked u pid =>
    if entered u then
      some ⟨forkedProc l.proc pid,some {syscallEntry u.regs with intNo := u.regs.rax, rax := 0}⟩
    else none

def HandlersLow (p : Process) : Prop := ∀ i, (p.sigact i).handler < userEnd

variable {t d : Task} {value : BitVec 64} {l : Life}

theorem setupFrameRip {sig} (low : HandlersLow t.proc) (set : t.setupFrame sig = some d) :
    HandlersLow d.proc ∧ d.regs.rip < userEnd := by
  unfold setupFrame at set
  dsimp only at set
  split at set
  · cases set
  split at set
  · cases set
  cases set
  refine ⟨fun i => ?_,low (sig-1)⟩
  split
  · by_cases same : i = sig-1
    · subst same
      simp only [resetHandler,Function.update_self]
      decide
    simp only [resetHandler,Function.update_of_ne same]
    exact low i
  · exact low i

theorem deliverRip {interrupted} (low : HandlersLow t.proc) (out : outcome (t.deliver interrupted) = some d) :
    HandlersLow d.proc ∧ (d.regs.rip < userEnd ∨ d.regs.rip = if interrupted then t.regs.rip - 2 else t.regs.rip) := by
  have resume (t : Task) (low : HandlersLow t.proc) (out : outcome (deliver.resume interrupted t) = some d) :
      HandlersLow d.proc ∧ d.regs.rip = if interrupted then t.regs.rip - 2 else t.regs.rip := by
    cases out
    refine ⟨?_,?_⟩
    · change HandlersLow (signalMaskRestore t.proc)
      unfold signalMaskRestore
      split <;> exact low
    · cases interrupted <;> rfl
  fun_induction deliver t interrupted with
  | case1 t none => exact (resume t low out).imp_right .inr
  | case2 t first ready kernel => exact (resume t low out).imp_right .inr
  | case3 t first ready user taken ignored ih => exact ih low out
  | case4 | case5 => cases out
  | case6 t first ready user taken k caught handled framed set =>
    cases out
    exact (setupFrameRip (t := taken.mapRegs (settleCall k interrupted)) low set).imp_right .inl

/- What a call may leave for `signal_deliver`: a value that asks for a restart needs room
for the instruction before rip. -/
structure Harmless (value : BitVec 64) (t : Task) : Prop where
  handlers : HandlersLow t.proc
  rip : t.regs.rip < userEnd
  room : value = erestartsys → 2 ≤ t.regs.rip

theorem backBelow {rip} (low : rip < userEnd) (room : 2 ≤ rip) : rip-2 < userEnd := by
  bv_omega

theorem deliverBelow (harmless : Harmless value t)
    (out : outcome ((t.mapRegs (fun r => {r with rax := value})).signalDeliver true) = some d) :
    HandlersLow d.proc ∧ d.regs.rip < userEnd := by
  obtain ⟨handlers,below | resumed⟩ := deliverRip (t := t.mapRegs (fun r => {r with rax := value}))
    harmless.handlers out
  · exact ⟨handlers,below⟩
  refine ⟨handlers,?_⟩
  rw [resumed]
  split
  · rename_i restarted
    have stopped : value = erestartsys := by simpa [mapRegs] using restarted
    exact backBelow harmless.rip (harmless.room stopped)
  · exact harmless.rip

def entryOf (img : List Byte) : Option Nat :=
  (loadBias img).map (fun bias => ((Ehdr.read img).eEntry + bias) % 2^64)

variable {m : Machine} {img : List Byte} {x : Program} {u : User} {plain : Option Effect}

theorem loadElfEntry {n as l} (load : m.loadElf as img = (some l,n)) : entryOf img = some l.entry := by
  unfold Machine.loadElf at load
  split at load
  · cases load
  split at load
  · cases load
  rename_i bias based
  split at load
  · cases load
  cases load
  simp [entryOf,based]

theorem loadImageEntry {x image} (load : (m.loadImage img x).1 = .ok image) : entryOf img = some image.entry := by
  unfold Machine.loadImage at load
  split at load
  · cases load
  split at load
  · cases load
  split at load
  · cases load
  rename_i elf
  split at load
  · cases load
  cases load
  exact loadElfEntry elf

theorem execveEntry {old x image} (exec : (m.processExecve old img x).1 = .ok image) : entryOf img = some image.entry := by
  unfold Machine.processExecve at exec
  split at exec
  · cases exec
  rename_i load
  cases exec
  exact loadImageEntry (congrArg Prod.fst load)

def atCall (l : Life) (u : User) : Task :=
  ((l.task u).mapRegs syscallEntry).mapRegs (fun r => {r with intNo := r.rax})

/- The visits that plant an address outside the user half: a handler, the entry point of
a program, or a context whose restart steps back below zero. -/
def Hostile (l : Life) : Visit → Prop
  | .syscall u _ x =>
    (u.regs.rax = 13 ∧ ∃ value t, (l.atCall u).sysRtSigaction = .result value t ∧ ¬ HandlersLow t.proc) ∨
    (u.regs.rax = 15 ∧ (Ucontext.load u.space.bytes u.regs.rsp).mc.rax = erestartsys ∧
      (Ucontext.load u.space.bytes u.regs.rsp).mc.rip < 2) ∨
    (u.regs.rax = 59 ∧ x.refused = none ∧ (x.machine.processExecve x.old x.img x.args).1.isOk = true ∧
      ∃ entry, entryOf x.img = some entry ∧ userEndAddr ≤ entry)
  | _ => False

theorem sigactionValue (call : t.sysRtSigaction = .result value d) : d.regs = t.regs ∧ value ≠ erestartsys := by
  unfold sysRtSigaction at call
  dsimp only at call
  repeat' split at call
  all_goals
    cases call
    exact ⟨rfl,by decide⟩

theorem sigprocmaskValue (call : t.sysRtSigprocmask = .result value d) :
    d.regs = t.regs ∧ d.proc.sigact = t.proc.sigact ∧ value ≠ erestartsys := by
  unfold sysRtSigprocmask at call
  dsimp only at call
  repeat' split at call
  all_goals
    cases call
    exact ⟨rfl,rfl,by decide⟩

theorem sigreturnValue (call : t.sysRtSigreturn = .result value d) :
    d.proc.sigact = t.proc.sigact ∧ d.regs.rip = (Ucontext.load t.space.bytes t.regs.rsp).mc.rip ∧
    d.regs.rip < userEnd ∧ value = (Ucontext.load t.space.bytes t.regs.rsp).mc.rax := by
  unfold sysRtSigreturn at call
  dsimp only at call
  split at call
  · cases call
  split at call
  · cases call
  rename_i checked
  cases call
  simp only [Bool.or_eq_true,decide_eq_true_eq,not_or] at checked
  exact ⟨rfl,rfl,BitVec.not_le.mp checked.1,rfl⟩

section

variable (low : HandlersLow l.proc) (inside : entered u = true) (friendly : ¬ Hostile l (.syscall u plain x))
include low inside friendly

theorem execveHarmless (number : u.regs.rax = 59) (call : sysExecve x (l.atCall u) = .result value d) : Harmless value d := by
  simp only [entered,Bool.and_eq_true,decide_eq_true_eq] at inside
  unfold sysExecve at call
  split at call
  · cases call
    exact ⟨low,inside.2,fun _ => inside.1⟩
  rename_i admitted
  split at call
  · cases call
    exact ⟨low,inside.2,fun _ => inside.1⟩
  rename_i image exec
  cases call
  refine ⟨fun i => ?_,?_,fun h => absurd h (by decide)⟩
  · simp only [clearHandlers]
    split
    · exact low i
    · decide
  by_contra high
  have far : userEndAddr ≤ image.entry := by
    by_contra near
    apply high
    have top : userEnd.toNat = userEndAddr := by decide
    exact Nat.lt_of_le_of_lt (Nat.mod_le _ _) (Nat.lt_of_not_le near)
  exact friendly (.inr (.inr ⟨number,admitted,by rw [exec]; rfl,image.entry,execveEntry exec,far⟩))

theorem callHarmless {call} (found : syscalls (otherCalls plain x) u.regs.rax.toNat = some call)
    (result : call (l.atCall u) = .result value d) : Harmless value d := by
  have bounds := inside
  simp only [entered,Bool.and_eq_true,decide_eq_true_eq] at bounds
  have number (n : Nat) (_ : n < 2^64) (same : u.regs.rax.toNat = n) : u.regs.rax = BitVec.ofNat 64 n := by
    rw [← same,BitVec.ofNat_toNat,BitVec.setWidth_eq]
  unfold syscalls at found
  split at found
  · rename_i isSigaction
    cases found
    obtain ⟨regs,settled⟩ := sigactionValue result
    refine ⟨?_,by rw [regs]; exact bounds.2,fun h => absurd h settled⟩
    by_contra high
    exact friendly (.inl ⟨number 13 (by decide) isSigaction,value,d,result,high⟩)
  · cases found
    obtain ⟨regs,actions,settled⟩ := sigprocmaskValue result
    exact ⟨fun i => by rw [actions]; exact low i,by rw [regs]; exact bounds.2,fun h => absurd h settled⟩
  · rename_i isSigreturn
    cases found
    obtain ⟨actions,rip,below,restored⟩ := sigreturnValue result
    refine ⟨fun i => by rw [actions]; exact low i,below,fun stopped => ?_⟩
    by_contra short
    rw [restored] at stopped
    rw [rip] at short
    exact friendly (.inr (.inl ⟨number 15 (by decide) isSigreturn,stopped,BitVec.not_le.mp short⟩))
  unfold otherCalls at found
  split at found
  · rename_i isExecve
    cases found
    exact execveHarmless low inside friendly (number 59 (by decide) isExecve) result
  obtain ⟨effect,_,rfl⟩ := map_eq_some_iff.mp found
  cases result
  exact ⟨low,bounds.2,fun _ => bounds.1⟩

end

structure Confined (l : Life) : Prop where
  handlers : HandlersLow l.proc
  left : ∀ f, l.left = some f → f.rip < userEnd

theorem syscallConfined {m} (low : HandlersLow l.proc) (friendly : ¬ Hostile l (.syscall u plain x))
    (taken : l.step (.syscall u plain x) = some m) : Confined m := by
  unfold step at taken
  dsimp only at taken
  split at taken
  swap
  · cases taken
  rename_i inside
  obtain ⟨d,out,rfl⟩ := map_eq_some_iff.mp taken
  have bounds := inside
  simp only [entered,Bool.and_eq_true,decide_eq_true_eq] at bounds
  have done : HandlersLow d.proc ∧ d.regs.rip < userEnd := by
    unfold systemCall syscallDispatch at out
    dsimp only at out
    split at out
    · exact deliverBelow (t := l.atCall u) ⟨low,bounds.2,fun _ => bounds.1⟩ out
    rename_i call found
    have entry : syscalls (otherCalls plain x) u.regs.rax.toNat = some call := by
      split at found
      · cases found
      · exact found
    split at out
    · cases out
    rename_i value t result
    exact deliverBelow (callHarmless low inside friendly entry result) out
  refine ⟨done.1,fun f h => ?_⟩
  cases h
  exact done.2

theorem stepConfined {m v} (confined : Confined l) (friendly : ¬ Hostile l v) (taken : l.step v = some m) : Confined m := by
  have low := confined.handlers
  cases v with
  | sent sig =>
    unfold step at taken
    dsimp only at taken
    split at taken
    · cases taken
      exact ⟨low,fun f h => by cases h⟩
    cases taken
    exact ⟨low,fun f h => by cases h⟩
  | interrupt u =>
    obtain ⟨d,out,rfl⟩ := map_eq_some_iff.mp taken
    exact ⟨(deliverRip (t := l.task u) low out).1,fun f h => by cases h⟩
  | syscall u plain x => exact syscallConfined low friendly taken
  | forked u pid =>
    unfold step at taken
    dsimp only at taken
    split at taken
    · rename_i inside
      cases taken
      simp only [entered,Bool.and_eq_true,decide_eq_true_eq] at inside
      refine ⟨low,fun f h => ?_⟩
      cases h
      exact inside.2
    · cases taken

theorem sysretBelowUserEnd (p : Process) (visits : List Visit)
    (friendly : ∀ move ∈ Runs.moves step (born p) visits, ¬ Hostile move.1 move.2) :
    ∀ l ∈ Runs.visited step (born p) visits, ∀ f, l.left = some f → f.rip < userEnd := by
  have start : Confined (born p) := ⟨fun _ => (by decide : (0 : BitVec 64) < userEnd),fun f h => by cases h⟩
  have preserved l v m (confined : Confined l) (friendly : ¬ Hostile l v) (taken : step l v = some m) : Confined m :=
    stepConfined confined friendly taken
  exact fun l reached => (Runs.visitedInvariant preserved start friendly l reached).left

def sampleUser (number : BitVec 64) (words : List (BitVec 64)) : User where
  regs := {rip := 0x401002, rsp := 0x7FFFFFFFE000, rax := number}
  space := ⟨ByteMemory.storeWords (fun _ => 0) 0x1000 words,fun _ _ _ => true⟩
  fpu := replicate 64 0

def sampleEffect (pending : BitVec 64) : Effect := ⟨0,pending,0,0,false,(sampleUser 0 []).space⟩

def sampleProgram (img : List Byte) : Program where
  refused := none
  machine := ⟨fun _ _ => .zero,fun _ _ => 0,fun _ => false,fun _ => .zero,
    (List.range 24).map (fun i => some (i+1)),replicate 4 true⟩
  old := ⟨99,0x402000,0x402000,mmapTop⟩
  img := img
  args := ⟨[],[],[],⟨0,0,0,0⟩,replicate 16 0⟩
  space := (sampleUser 0 []).space

def plainVisits : List Visit :=
  [.interrupt (sampleUser 0 []),.syscall (sampleUser 39 []) (some (sampleEffect 0)) (sampleProgram [])]

theorem plainReturnBelow :
    (∃ l ∈ Runs.visited step (born {isUser := true}) plainVisits, l.left.map Registers.rip = some 0x401002) ∧
    ∀ l ∈ Runs.visited step (born {isUser := true}) plainVisits, ∀ f, l.left = some f → f.rip < userEnd := by
  have final : (Runs.run step (born {isUser := true}) plainVisits).bind
    (fun l => l.left.map Registers.rip) = some 0x401002 := by decide +kernel
  obtain ⟨l,reached,rip⟩ := bind_eq_some_iff.mp final
  refine ⟨⟨l,Runs.visitedLast reached,rip⟩,sysretBelowUserEnd {isUser := true} _ (fun move member hostile => ?_)⟩
  have listed := Runs.movesEvent move member
  simp only [plainVisits,mem_cons,not_mem_nil,or_false] at listed
  rcases listed with isInterrupt | isCall
  · rw [isInterrupt] at hostile
    exact hostile
  rw [isCall] at hostile
  rcases hostile with ⟨number,_⟩ | ⟨number,_⟩ | ⟨number,_⟩ <;> exact absurd number (by decide)

def farEntry : List Byte :=
  elfMag ++ [2,1] ++ replicate 10 0 ++ [2,0,62,0,0,0,0,0] ++ wordBytes 0x800000000000 ++
    replicate 22 0 ++ [56,0,0,0] ++ replicate 6 0

/- rt_sigaction(10, {0x800000000000, SA_RESTORER, ..}), then the signal during a call. -/
def byHandler : List Visit :=
  let u := sampleUser 13 [0x800000000000,saRestorer,0x402000,0]
  [.syscall {u with regs := {u.regs with rdi := 10, rsi := 0x1000, r10 := 8}} none (sampleProgram []),
    .syscall (sampleUser 39 []) (some (sampleEffect (sigBit 10))) (sampleProgram [])]

def byEntry : List Visit := [.syscall (sampleUser 59 []) none (sampleProgram farEntry)]

/- rt_sigreturn from a context with rip = 0 and rax = -ERESTARTSYS. -/
def byRestart : List Visit :=
  let u := sampleUser 15 ((replicate 38 0).set 18 erestartsys)
  [.syscall {u with regs := {u.regs with rsp := 0x1000}} none (sampleProgram [])]

def LeavesUserHalf (visits : List Visit) : Prop :=
  ∃ l ∈ Runs.visited step (born {isUser := true}) visits, ∃ f, l.left = some f ∧ ¬ f.rip < userEnd

theorem leavesUserHalf {visits} (rip) (high : ¬ rip < userEnd)
    (final : (Runs.run step (born {isUser := true}) visits).bind (fun l => l.left.map Registers.rip) = some rip) :
    LeavesUserHalf visits := by
  obtain ⟨l,reached,left⟩ := bind_eq_some_iff.mp final
  obtain ⟨f,isLeft,same⟩ := map_eq_some_iff.mp left
  exact ⟨l,Runs.visitedLast reached,f,isLeft,by rw [same]; exact high⟩

theorem hostileSysret : LeavesUserHalf byHandler ∧ LeavesUserHalf byEntry ∧ LeavesUserHalf byRestart :=
  ⟨leavesUserHalf 0x800000000000 (by decide) (by decide +kernel),
    leavesUserHalf 0x800000000000 (by decide) (by decide +kernel),
    leavesUserHalf (-2) (by decide) (by decide +kernel)⟩

end Life
end Miviex
