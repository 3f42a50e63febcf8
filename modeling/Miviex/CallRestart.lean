import Miviex.SignalNesting

/-! What becomes of a system call that returns `-ERESTARTSYS`: the context in which the program
goes on, at once or after the handlers that the visit started have returned. -/
open Miviex.Task

namespace Miviex

open ByteMemory

structure Context where
  rip : BitVec 64
  rax : BitVec 64
  rdi : BitVec 64
  rsi : BitVec 64
  rdx : BitVec 64
  r10 : BitVec 64
  r8 : BitVec 64
  r9 : BitVec 64
  deriving DecidableEq

def Registers.context (r : Registers) : Context := ⟨r.rip,r.rax,r.rdi,r.rsi,r.rdx,r.r10,r.r8,r.r9⟩

def Sigcontext.context (c : Sigcontext) : Context := ⟨c.rip,c.rax,c.rdi,c.rsi,c.rdx,c.r10,c.r8,c.r9⟩

def Context.again (c : Context) : Context := {c with rip := c.rip - 2}

def Context.interrupted (c : Context) : Context := {c with rax := eintr}

inductive ComesBack : Delivery → Task → Prop where
  | resumed (t : Task) : ComesBack (.resumed t) t
  | handled (sig : Nat) (d e : Task) (value : BitVec 64) (f v : Task) : FrameKept d e →
      e.enter.sysRtSigreturn = .result value f → ComesBack (f.leave value) v → ComesBack (.handler sig d) v

def Carries (c : Context) : Delivery → Prop
  | .killed _ => True
  | .resumed t => t.regs.context = c
  | .handler _ d => (Ucontext.load d.space.bytes (d.regs.rsp+offsetofUc)).mc.context = c

variable {sig : Nat} {p : Process}

theorem setupFrameCarries {t : Task} {d} (set : t.setupFrame sig = some d) : Carries t.regs.context (.handler sig d) := by
  show (Ucontext.load d.space.bytes (d.regs.rsp+offsetofUc)).mc.context = _
  rw [frameStored set]
  rfl

theorem deliverCarries (t : Task) : Carries t.regs.context (t.deliver false) := by
  generalize off : false = interrupted
  fun_induction Task.deliver t interrupted with
  | case1 | case2 =>
    subst off
    rfl
  | case3 t first ready user taken ignored ih => exact ih
  | case4 | case5 => exact trivial
  | case6 t first ready user taken k caught handled framed set =>
    subst off
    exact setupFrameCarries (t := taken.mapRegs (settleCall k false)) set

theorem leaveCarries (t : Task) {value} (settled : value ≠ erestartsys) :
    Carries {t.regs.context with rax := value} (t.leave value) := by
  have off : (true && value == erestartsys) = false := by simp [settled]
  show Carries _ (Task.deliver _ (true && value == erestartsys))
  rw [off]
  exact deliverCarries (t.mapRegs (fun r => {r with rax := value}))

theorem sigreturnContext {e f : Task} {value} (returned : e.enter.sysRtSigreturn = .result value f) :
    value = (Ucontext.load e.space.bytes e.regs.rsp).mc.rax ∧
    f.regs.context = (Ucontext.load e.space.bytes e.regs.rsp).mc.context ∧ f.regs.intNo = -1 ∧
    f.proc = {e.proc with sigBlocked := (Ucontext.load e.space.bytes e.regs.rsp).sigmask &&& ~~~unblockable} := by
  unfold sysRtSigreturn at returned
  dsimp only at returned
  split at returned
  · cases returned
  split at returned
  · cases returned
  cases returned
  exact ⟨rfl,rfl,rfl,rfl⟩

theorem comesBackCarries {x v c} (settled : c.rax ≠ erestartsys)
    (back : ComesBack x v) (carries : Carries c x) : v.regs.context = c := by
  induction back with
  | resumed t => exact carries
  | handled sig d e value f v kept returned _ ih =>
  obtain ⟨result,context,_,_⟩ := sigreturnContext returned
  rw [frameKeptLoad kept] at result context
  have frame : (Ucontext.load d.space.bytes (d.regs.rsp+offsetofUc)).mc.context = c := carries
  have rax : value = c.rax := result.trans (congrArg Context.rax frame)
  have final : value ≠ erestartsys := by rw [rax]; exact settled
  have next := leaveCarries f final
  have same : ({f.regs.context with rax := value} : Context) = c := by rw [context,frame,rax]
  rw [same] at next
  exact ih next

def Ready (p : Process) (sig : Nat) : Prop := 1 ≤ sig ∧ (p.sigPending &&& ~~~p.sigBlocked).getLsbD (sig-1) = true

structure FirstCaught (p : Process) (sig : Nat) : Prop where
  ready : Ready p sig
  wanted : ignores p sig = false
  caught : (p.action sig).handler ≠ sigDfl
  before : ∀ j < sig, Ready p j → ignores p j = true

def NoneCaught (p : Process) : Prop := ∀ j, Ready p j → ignores p j = true

theorem FirstCaught.unique {i j} (one : FirstCaught p i) (other : FirstCaught p j) : i = j := by
  rcases Nat.lt_trichotomy i j with below | same | above
  · exact absurd (other.before i below one.ready) (by simp [one.wanted])
  · exact same
  · exact absurd (one.before j above other.ready) (by simp [other.wanted])

theorem FirstCaught.some (first : FirstCaught p sig) : ¬ NoneCaught p := by
  intro none
  exact absurd (none sig first.ready) (by simp [first.wanted])

theorem firstReadyNone (none : firstReady p = none) (j) : ¬ Ready p j := by
  rintro ⟨positive,set⟩
  have bound : j-1 < 64 := BitVec.lt_of_getLsbD set
  unfold firstReady at none
  rw [Option.map_eq_none_iff,List.find?_eq_none] at none
  exact none (j-1) (List.mem_range.mpr bound) set

theorem firstReadySome (found : firstReady p = some sig) : Ready p sig ∧ ∀ j < sig, ¬ Ready p j := by
  obtain ⟨i,first,rfl⟩ := Option.map_eq_some_iff.mp found
  obtain ⟨set,_,unset⟩ := List.find?_range_eq_some.mp first
  refine ⟨⟨Nat.le_add_left 1 i,set⟩,?_⟩
  rintro j below ⟨positive,due⟩
  have clear := unset (j-1) (by omega)
  rw [due] at clear
  exact absurd clear (by decide)

theorem readyTaken {j} (positive : 1 ≤ sig) : Ready (takeSignal p sig) j ↔ Ready p j ∧ j ≠ sig := by
  unfold Ready takeSignal sigBit
  grind

theorem FirstCaught.taken {later} (positive : 1 ≤ sig) (ignored : ignores p sig = true)
    (first : FirstCaught (takeSignal p sig) later) : FirstCaught p later := by
  refine ⟨((readyTaken positive).mp first.ready).1,first.wanted,first.caught,fun j below ready => ?_⟩
  by_cases same : j = sig
  · exact same ▸ ignored
  · exact first.before j below ((readyTaken positive).mpr ⟨ready,same⟩)

theorem NoneCaught.taken (positive : 1 ≤ sig) (ignored : ignores p sig = true)
    (none : NoneCaught (takeSignal p sig)) : NoneCaught p := by
  intro j ready
  by_cases same : j = sig
  · exact same ▸ ignored
  · exact none j ((readyTaken positive).mpr ⟨ready,same⟩)

def Settles (t : Task) : Delivery → Prop
  | .killed _ => True
  | .resumed v => NoneCaught t.proc ∧ v.regs.context = (restart t.regs).context
  | .handler sig d => FirstCaught t.proc sig ∧
      Carries (settleCall (t.proc.action sig) true t.regs).context (.handler sig d)

theorem deliverSettles (t : Task) (user : t.proc.isUser = true) : Settles t (t.deliver true) := by
  generalize on : true = interrupted
  fun_induction Task.deliver t interrupted with
  | case1 t none =>
    subst on
    exact ⟨fun j ready => absurd ready (firstReadyNone none j),rfl⟩
  | case2 t first ready kernel => simp [user] at kernel
  | case3 t first ready _ taken ignored ih =>
    have positive := (firstReadySome ready).1.1
    have later := ih user
    revert later
    cases taken.deliver interrupted with
    | killed status => exact id
    | resumed | handler => exact fun later => ⟨later.1.taken positive ignored,later.2⟩
  | case4 | case5 => exact trivial
  | case6 t first ready _ taken k caught handled framed set =>
    subst on
    obtain ⟨due,lowest⟩ := firstReadySome ready
    have wanted : ignores t.proc first = false := by simpa using caught
    have handles : (t.proc.action first).handler ≠ sigDfl := by simpa using handled
    exact ⟨⟨due,wanted,handles,fun j below ready => absurd ready (lowest j below)⟩,
      setupFrameCarries (t := taken.mapRegs (settleCall k true)) set⟩

/- Where an interrupted call goes on: at `again` unless the deciding action lacks SA_RESTART. -/
def GoesOn (p : Process) (again interrupted c : Context) : Prop :=
  (NoneCaught p ∧ c = again) ∨
  ∃ sig, FirstCaught p sig ∧ c = if (p.action sig).flags &&& saRestart != 0 then again else interrupted

theorem leaveGoesOn {u v : Task} (user : u.proc.isUser = true) (number : u.regs.intNo ≠ erestartsys)
    (back : ComesBack (u.leave erestartsys) v) :
    GoesOn u.proc (restart u.regs).context u.regs.context.interrupted v.regs.context := by
  have settles := deliverSettles (u.mapRegs (fun r => {r with rax := erestartsys})) user
  change ComesBack (Task.deliver (u.mapRegs (fun r => {r with rax := erestartsys})) true) v at back
  revert settles back
  cases Task.deliver (u.mapRegs (fun r => {r with rax := erestartsys})) true with
  | killed status =>
    intro _ back
    cases back
  | resumed w =>
    intro settles back
    cases back
    exact .inl settles
  | handler sig d =>
  rintro ⟨first,carries⟩ back
  refine .inr ⟨sig,first,?_⟩
  unfold settleCall at carries
  change Carries (if (u.proc.action sig).flags &&& saRestart != 0 then _ else _ : Registers).context _ at carries
  split at carries
  · rename_i restarts
    rw [if_pos restarts]
    exact comesBackCarries number back carries
  rename_i fails
  rw [if_neg fails]
  exact comesBackCarries (show eintr ≠ erestartsys by decide) back carries

def called (plain : Option Effect) (x : Program) (t : Task) : Option (Task → Reply) :=
  if t.regs.rax.toNat ≥ lenSyscalls then none else syscalls (otherCalls plain x) t.regs.rax.toNat

theorem calledNumber {plain x t call} (found : called plain x t = some call) : t.regs.rax ≠ erestartsys ∧
    syscalls (otherCalls plain x) t.regs.rax.toNat = some call := by
  unfold called at found
  split at found
  · cases found
  rename_i listed
  refine ⟨fun wrong => listed ?_,found⟩
  rw [wrong]
  decide

theorem signalsFinal (t : Task) (u) :
    t.sysRtSigaction ≠ .result erestartsys u ∧ t.sysRtSigprocmask ≠ .result erestartsys u := by
  unfold sysRtSigaction sysRtSigprocmask
  constructor <;> intro answer <;>
    dsimp only at answer
  all_goals
    repeat' split at answer
    all_goals
      injection answer with value _
      exact absurd value (by decide)

theorem interruptedRegs {plain x n t u call} (other : n ≠ 15) (found : syscalls (otherCalls plain x) n = some call)
    (answer : call t = .result erestartsys u) : u.regs = t.regs ∧ u.proc.isUser = t.proc.isUser := by
  unfold syscalls at found
  split at found
  · cases found
    exact absurd answer (signalsFinal t u).1
  · cases found
    exact absurd answer (signalsFinal t u).2
  · exact absurd rfl other
  unfold otherCalls at found
  split at found
  · cases found
    unfold sysExecve at answer
    split at answer
    · injection answer with _ same
      exact same ▸ ⟨rfl,rfl⟩
    split at answer
    · injection answer with _ same
      exact same ▸ ⟨rfl,rfl⟩
    injection answer with value _
    exact absurd value (by decide)
  obtain ⟨effect,_,same⟩ := Option.map_eq_some_iff.mp found
  subst same
  injection answer with _ after
  exact after ▸ ⟨rfl,rfl⟩

theorem systemCallLeaves (plain x) (t : Task) : t.systemCall (otherCalls plain x) = match called plain x t with
      | none => t.enter.leave enosys
      | some call => match call t.enter with
        | .killed status => .killed status
        | .result value u => u.leave value := rfl

section

variable {plain : Option Effect} {x : Program} {t u v : Task} {call : Task → Reply}

section

variable (user : t.proc.isUser = true)
include user

theorem plainGoesOn (other : t.regs.rax.toNat ≠ 15)
    (found : called plain x t = some call) (answer : call t.enter = .result erestartsys u)
    (back : ComesBack (t.systemCall (otherCalls plain x)) v) :
    GoesOn u.proc t.regs.context.again t.regs.context.interrupted v.regs.context := by
  obtain ⟨number,listed⟩ := calledNumber found
  obtain ⟨regs,same⟩ := interruptedRegs other listed answer
  simp only [systemCallLeaves,found,answer] at back
  have goes := leaveGoesOn (same.trans user) (by rw [regs]; exact number) back
  rw [regs] at goes
  exact goes

theorem neverVisible (other : t.regs.rax.toNat ≠ 15)
    (back : ComesBack (t.systemCall (otherCalls plain x)) v) : v.regs.rax ≠ erestartsys := by
  have left : ∀ {u : Task} {value : BitVec 64}, value ≠ erestartsys → ComesBack (u.leave value) v →
      v.regs.rax ≠ erestartsys := by
    intro u value settled back
    have context := comesBackCarries settled back (leaveCarries u settled)
    have rax : v.regs.rax = value := congrArg Context.rax context
    rw [rax]
    exact settled
  cases found : called plain x t with
  | none =>
    simp only [systemCallLeaves,found] at back
    exact left (by decide) back
  | some call =>
  cases answer : call t.enter with
  | killed status =>
    simp only [systemCallLeaves,found,answer] at back
    cases back
  | result value u =>
  by_cases interrupted : value = erestartsys
  · subst interrupted
    have number : t.regs.context.again.rax ≠ erestartsys := (calledNumber found).1
    rcases plainGoesOn user other found answer back with ⟨_,context⟩ | ⟨sig,_,context⟩
    · exact fun wrong => number ((congrArg Context.rax context).symm.trans wrong)
    intro wrong
    have rax := (congrArg Context.rax context).symm.trans wrong
    split at rax
    · exact number rax
    · exact absurd (show eintr = erestartsys from rax) (by decide)
  simp only [systemCallLeaves,found,answer] at back
  exact left interrupted back

/- A context that `rt_sigreturn` restores is no call that could be made again: the frame has
-1 for its number. -/
theorem sigreturnGoesOn (number : t.regs.rax.toNat = 15)
    (answer : t.enter.sysRtSigreturn = .result erestartsys u) (back : ComesBack (u.leave erestartsys) v) :
    GoesOn u.proc t.regs.context.again t.regs.context.interrupted v.regs.context ↔
    ∃ sig, FirstCaught u.proc sig ∧ (u.proc.action sig).flags &&& saRestart = 0 ∧
    u.regs.context.interrupted = t.regs.context.interrupted := by
  obtain ⟨_,_,unnumbered,proc⟩ := sigreturnContext answer
  have userAfter : u.proc.isUser = true := by rw [proc]; exact user
  have goes := leaveGoesOn userAfter (by rw [unnumbered]; decide) back
  have differ : (restart u.regs).context ≠ t.regs.context.again := by
    intro same
    have rax : u.regs.intNo = t.regs.rax := congrArg Context.rax same
    rw [← rax,unnumbered] at number
    exact absurd number (by decide)
  constructor
  · intro claimed
    rcases goes with ⟨none,real⟩ | ⟨sig,first,real⟩
    · rcases claimed with ⟨_,wrong⟩ | ⟨sig,first,_⟩
      · exact absurd (real.symm.trans wrong) differ
      · exact absurd none first.some
    rcases claimed with ⟨none,_⟩ | ⟨other,sameFirst,wrong⟩
    · exact absurd none first.some
    have same := sameFirst.unique first
    subst same
    rw [real] at wrong
    split at wrong
    · exact absurd wrong differ
    rename_i fails
    exact ⟨other,first,by simpa using fails,wrong⟩
  rintro ⟨sig,first,fails,same⟩
  rcases goes with ⟨none,_⟩ | ⟨other,sameFirst,real⟩
  · exact absurd none first.some
  have one := sameFirst.unique first
  subst one
  refine .inr ⟨other,first,?_⟩
  simp only [fails,bne_self_eq_false,Bool.false_eq_true,if_false] at real ⊢
  rw [real,same]

theorem callGoesOnOrFails (back : ComesBack (t.systemCall (otherCalls plain x)) v) :
    (∀ call u, called plain x t = some call → call t.enter = .result erestartsys u →
    (GoesOn u.proc t.regs.context.again t.regs.context.interrupted v.regs.context ↔
    t.regs.rax.toNat ≠ 15 ∨ ∃ sig, FirstCaught u.proc sig ∧ (u.proc.action sig).flags &&& saRestart = 0 ∧
    u.regs.context.interrupted = t.regs.context.interrupted)) ∧ (t.regs.rax.toNat ≠ 15 → v.regs.rax ≠ erestartsys) := by
  refine ⟨fun call u found answer => ?_,fun other => neverVisible user other back⟩
  by_cases other : t.regs.rax.toNat = 15
  · have listed := (calledNumber found).2
    rw [other] at listed
    cases listed
    simp only [systemCallLeaves,found,answer] at back
    rw [sigreturnGoesOn user other answer back]
    simp only [other,ne_eq,not_true_eq_false,false_or]
  · exact iff_of_true (plainGoesOn user other found answer back) (.inl other)

end

end

def wokenRead : Task where
  proc := {isUser := true}
  regs := {rip := 0x401002, rsp := 0x7FFFFFFFE000, rax := 0, rdi := 3, rsi := 0x1000, rdx := 64}
  space := (Life.sampleUser 0 []).space
  fpu := []

def wokenEffect : Effect := ⟨erestartsys,0,0,0,false,wokenRead.space⟩

theorem leaveQuiet {u : Task} (quiet : u.proc.sigPending &&& ~~~u.proc.sigBlocked = 0) :
    ∃ v, u.leave erestartsys = .resumed v ∧ v.regs.context = (restart u.regs).context :=
  ⟨_,deliverQuiet (t := u.mapRegs (fun r => {r with rax := erestartsys})) quiet,rfl⟩

theorem readMadeAgain : ∃ v, wokenRead.systemCall (otherCalls (some wokenEffect) (Life.sampleProgram [])) = .resumed v ∧
    GoesOn {isUser := true} wokenRead.regs.context.again wokenRead.regs.context.interrupted v.regs.context ∧
    v.regs.rax ≠ erestartsys := by
  let u : Task := {wokenRead.enter with proc := {isUser := true}}
  obtain ⟨v,resumed,_⟩ := leaveQuiet (u := u) (by decide)
  have made : wokenRead.systemCall (otherCalls (some wokenEffect) (Life.sampleProgram [])) = .resumed v := resumed
  have back := made ▸ ComesBack.resumed v
  obtain ⟨goes,visible⟩ := callGoesOnOrFails rfl back
  exact ⟨v,resumed,(goes (plainCall wokenEffect) u rfl rfl).mpr (.inl (by decide)),visible (by decide)⟩

/- A program whose rax is -512 when a signal interrupts it: `rt_sigreturn` from that frame
takes the restored rax for the result of an interrupted call. -/
def restoringTask : Task where
  proc := {isUser := true}
  regs := {rip := 0x402009, rsp := 0x1000, rax := 15}
  space := (Life.sampleUser 0 (((List.replicate 38 0).set 18 erestartsys).set 21 0x401000)).space
  fpu := []

def replyValue : Reply → Option (BitVec 64)
  | .killed _ => none
  | .result value _ => some value

theorem restoredRaxRestarted : ∃ u v, called none (Life.sampleProgram []) restoringTask = some sysRtSigreturn ∧
    restoringTask.enter.sysRtSigreturn = .result erestartsys u ∧
    ComesBack (restoringTask.systemCall (otherCalls none (Life.sampleProgram []))) v ∧ v.regs.rip = 0x400ffe ∧ v.regs.rax = -1 ∧
    ¬ GoesOn u.proc restoringTask.regs.context.again restoringTask.regs.context.interrupted v.regs.context := by
  have value : replyValue restoringTask.enter.sysRtSigreturn = some erestartsys := by decide +kernel
  have rip : (Ucontext.load restoringTask.space.bytes restoringTask.regs.rsp).mc.rip = 0x401000 := by decide +kernel
  obtain ⟨u,answer⟩ : ∃ u, restoringTask.enter.sysRtSigreturn = .result erestartsys u := by
    cases reply : restoringTask.enter.sysRtSigreturn with
    | killed status => simp [reply,replyValue] at value
    | result other u => exact ⟨u,by simpa [reply,replyValue] using value⟩
  obtain ⟨_,context,unnumbered,proc⟩ := sigreturnContext answer
  obtain ⟨v,resumed,restarted⟩ := leaveQuiet (u := u) (by rw [proc]; exact BitVec.zero_and)
  have found : called none (Life.sampleProgram []) restoringTask = some sysRtSigreturn := rfl
  have back : ComesBack (restoringTask.systemCall (otherCalls none (Life.sampleProgram []))) v := by
    simp only [systemCallLeaves,found,answer,resumed]
    exact .resumed v
  have number : v.regs.rax = -1 := (congrArg Context.rax restarted).trans unnumbered
  have place : v.regs.rip = 0x400ffe := by
    have moved : v.regs.rip = u.regs.rip-2 := congrArg Context.rip restarted
    have before : u.regs.rip = 0x401000 := (congrArg Context.rip context).trans rip
    rw [moved,before]
    decide
  refine ⟨u,v,found,answer,back,place,number,?_⟩
  rintro (⟨_,wrong⟩ | ⟨sig,_,wrong⟩)
  · exact absurd (number.symm.trans (congrArg Context.rax wrong)) (by decide)
  split at wrong
  · exact absurd (number.symm.trans (congrArg Context.rax wrong)) (by decide)
  · exact absurd (number.symm.trans (congrArg Context.rax wrong)) (by decide)

end Miviex
