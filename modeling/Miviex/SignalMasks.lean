import Miviex.ReturnAddress

/-! The blocked mask of a process over its life. `rt_sigsuspend` and `ppoll` wait under a
temporary mask, so a process can also be asleep in one of them; every way back to ring 3
goes through `signal_deliver`, except that of a new child. -/
open Miviex.Task Function

namespace Miviex

open ByteMemory

namespace Task

/- `rt_sigsuspend` up to its wait, or the error it returns without one. -/
def beginSuspend (t : Task) : Except (BitVec 64) Task :=
  if t.regs.rsi != 8 then .error einval
  else if !t.space.ok t.regs.rdi 8 false then .error efault
  else .ok (t.mapProc (signalMaskTemp · (wordAt t.space.bytes t.regs.rdi 0)))

def badTime (sec nsec : BitVec 64) : Bool := sec.toInt < 0 || nsec.toInt < 0 || nsec.toInt ≥ 1000000000

/- `ppoll` up to `do_poll`; without a mask it waits under the one there is. -/
def beginPoll (t : Task) : Except (BitVec 64) Task :=
  let uts := t.regs.rdx
  let mask := t.regs.r10
  if uts != 0 && !t.space.ok uts 16 false then .error efault
  else if uts != 0 && badTime (wordAt t.space.bytes uts 0) (wordAt t.space.bytes uts 1) then .error einval
  else if mask == 0 then .ok t
  else if t.regs.r8 != 8 then .error einval
  else if !t.space.ok mask 8 false then .error efault
  else .ok (t.mapProc (signalMaskTemp · (wordAt t.space.bytes mask 0)))

def endPoll (t : Task) (value : BitVec 64) : Task :=
  if value != eintr then t.mapProc signalMaskRestore else t

def leave (t : Task) (value : BitVec 64) : Delivery :=
  (t.mapRegs (fun r => {r with rax := value})).signalDeliver true

def enter (t : Task) : Task := (t.mapRegs syscallEntry).mapRegs (fun r => {r with intNo := r.rax})

end Task

/- A call without a model of its own leaves the masks and the actions alone. -/
structure Outcome where
  value : BitVec 64
  pending : BitVec 64
  space : UserSpace

def quietCall (x : Outcome) (t : Task) : Reply :=
  .result x.value {t with proc := {t.proc with sigPending := x.pending}, space := x.space}

def quietCalls (plain : Option Outcome) (x : Program) : Nat → Option (Task → Reply)
  | 59 => some (sysExecve x)
  | _ => plain.map quietCall

inductive Thread where
  | user (p : Process)
  | suspended (t : Task)
  | polling (t : Task)

inductive Turn where
  | sent (sig : Nat)
  | interrupt (u : User)
  | syscall (u : User) (plain : Option Outcome) (x : Program)
  | woken
  | polled (value : BitVec 64) (space : UserSpace)
  | forked (u : User) (pid : UInt32)

namespace Thread

def proc : Thread → Process
  | user p => p
  | suspended t => t.proc
  | polling t => t.proc

def setProc (p : Process) : Thread → Thread
  | user _ => user p
  | suspended t => suspended {t with proc := p}
  | polling t => polling {t with proc := p}

def send (p : Process) (sig : Nat) : Process :=
  if sig < 1 || sig > nsig || discarded p sig then p else {p with sigPending := p.sigPending ||| sigBit sig}

def back (x : Delivery) : Option Thread := (Life.outcome x).map (fun t => user t.proc)

def call (t : Task) (plain : Option Outcome) (x : Program) : Option Thread :=
  match t.regs.rax.toNat with
  | 130 => match t.enter.beginSuspend with
    | .error e => back (t.enter.leave e)
    | .ok t => some (suspended t)
  | 271 => match t.enter.beginPoll with
    | .error e => back (t.enter.leave e)
    | .ok t => some (polling t)
  | _ => back (t.systemCall (quietCalls plain x))

/- `do_poll` returns `EINTR` only when a signal is due; otherwise any result is possible. -/
def step : Thread → Turn → Option Thread
  | l, .sent sig => some (l.setProc (send l.proc sig))
  | user p, .interrupt u => back ((Task.mk p u.regs u.space u.fpu).signalDeliver false)
  | user p, .syscall u plain x => call ⟨p,u.regs,u.space,u.fpu⟩ plain x
  | user p, .forked _ pid => some (user (Life.forkedProc p pid))
  | suspended t, .woken => if signalPending t.proc then back (t.leave eintr) else some (suspended t)
  | polling t, .polled value space =>
    if value = eintr ∧ ¬ signalPending t.proc then none
    else back ((Task.endPoll {t with space := space} value).leave value)
  | _, _ => none

def born (p : Process) : Thread :=
  user {p with sigact := fun _ => {}, sigPending := 0, sigBlocked := 0, sigSaved := 0, sigRestore := false}

end Thread

structure Deliverable (p : Process) : Prop where
  blocked : p.sigBlocked &&& unblockable = 0
  saved : p.sigRestore = true → p.sigSaved &&& unblockable = 0
  kill : (p.action sigKill).handler = sigDfl
  stop : (p.action sigStop).handler = sigDfl

theorem stripped (m) : m &&& ~~~unblockable &&& unblockable = 0 := by
  rw [BitVec.and_assoc,BitVec.not_and_self]
  exact BitVec.and_zero

section

variable {p : Process} {t d : Task}

section

variable (good : Deliverable p)
include good

theorem Deliverable.remask (m) : Deliverable {p with sigBlocked := m &&& ~~~unblockable} :=
  ⟨stripped m,good.saved,good.kill,good.stop⟩

theorem Deliverable.pend (pending) : Deliverable {p with sigPending := pending} :=
  ⟨good.blocked,good.saved,good.kill,good.stop⟩

theorem Deliverable.temp (m) : Deliverable (signalMaskTemp p m) :=
  ⟨stripped m,fun _ => good.blocked,good.kill,good.stop⟩

theorem Deliverable.restore : Deliverable (signalMaskRestore p) ∧ (signalMaskRestore p).sigRestore = false := by
  unfold signalMaskRestore
  split
  · rename_i set
    exact ⟨⟨good.saved set,fun wrong => absurd wrong Bool.false_ne_true,good.kill,good.stop⟩,rfl⟩
  rename_i clear
  exact ⟨good,Bool.eq_false_iff.mpr clear⟩

theorem Deliverable.reset (sig) : Deliverable (resetHandler p sig) := by
  have kept i (default : (p.sigact i).handler = sigDfl) : ((resetHandler p sig).sigact i).handler = sigDfl := by
    unfold resetHandler
    rcases eq_or_ne i (sig-1) with same | other
    · rw [same]
      dsimp only
      rw [update_self]
    dsimp only
    rw [update_of_ne other]
    exact default
  exact ⟨good.blocked,good.saved,kept 8 good.kill,kept 18 good.stop⟩

end

def Returns (x : Delivery) : Prop := ∀ d, Life.outcome x = some d → Deliverable d.proc ∧ d.proc.sigRestore = false

def Answers (r : Reply) : Prop := ∀ value u, r = .result value u → Deliverable u.proc

section

variable (good : Deliverable t.proc)
include good

theorem Deliverable.frame {sig} (set : t.setupFrame sig = some d) :
    Deliverable d.proc ∧ d.proc.sigRestore = false := by
  have masked : Deliverable {t.proc with
      sigBlocked := handlerMask t.proc sig (t.proc.action sig), sigRestore := false} :=
    ⟨stripped _,fun wrong => absurd wrong Bool.false_ne_true,good.kill,good.stop⟩
  unfold setupFrame at set
  dsimp only at set
  split at set
  · cases set
  split at set
  · cases set
  cases set
  split
  · exact ⟨masked.reset sig,rfl⟩
  · exact ⟨masked,rfl⟩

theorem Deliverable.deliver {interrupted}
    (out : Life.outcome (t.deliver interrupted) = some d) : Deliverable d.proc ∧ d.proc.sigRestore = false := by
  fun_induction Task.deliver t interrupted with
  | case1 | case2 =>
    cases out
    exact good.restore
  | case3 t first ready user taken ignored ih => exact ih (good.pend _) out
  | case4 | case5 => cases out
  | case6 t first ready user taken k caught handled framed set =>
    cases out
    exact Deliverable.frame (t := taken.mapRegs (settleCall k interrupted)) (good.pend _) set

theorem Deliverable.leave (value) : Returns (t.leave value) :=
  fun _ out => Deliverable.deliver (t := t.mapRegs (fun r => {r with rax := value})) good out

theorem Answers.same (value) : Answers (.result value t) := by
  intro _ u same
  cases same
  exact good

end

theorem Deliverable.install {sig} (good : Deliverable p) (k) (notKill : sig-1 ≠ 8) (notStop : sig-1 ≠ 18) :
    Deliverable (installAction p sig k) := by
  have set (action) : Deliverable {p with sigact := update p.sigact (sig-1) action} := by
    refine ⟨good.blocked,good.saved,?_,?_⟩
    · change (update p.sigact (sig-1) action 8).handler = sigDfl
      rw [update_of_ne (Ne.symm notKill)]
      exact good.kill
    · change (update p.sigact (sig-1) action 18).handler = sigDfl
      rw [update_of_ne (Ne.symm notStop)]
      exact good.stop
  unfold installAction
  dsimp only
  split
  · exact (set _).pend _
  · exact set _

section

variable (good : Deliverable t.proc)
include good

theorem sigactionAnswers : Answers t.sysRtSigaction := by
  unfold sysRtSigaction
  dsimp only
  split
  · exact Answers.same good _
  split
  · exact Answers.same good _
  split
  · exact Answers.same good _
  rename_i range refused _
  have stored : Deliverable (if t.regs.rdx != 0 then
      t.store t.regs.rdx (actionWords (t.proc.action t.regs.rdi.toInt.toNat)) else t).proc := by
    split <;> exact good
  generalize (if t.regs.rdx != 0 then
    t.store t.regs.rdx (actionWords (t.proc.action t.regs.rdi.toInt.toNat)) else t) = u at stored
  split
  · exact Answers.same stored _
  split
  · exact Answers.same stored _
  rename_i given _
  simp only [Bool.and_eq_true,bne_iff_ne,Bool.or_eq_true,beq_iff_eq,not_and,not_or] at refused given
  obtain ⟨notKill,notStop⟩ := refused given
  have kill : t.regs.rdi.toInt ≠ 9 := notKill
  have stop : t.regs.rdi.toInt ≠ 19 := notStop
  intro value u answer
  cases answer
  exact stored.install _ (by omega) (by omega)

theorem sigprocmaskAnswers : Answers t.sysRtSigprocmask := by
  have stored : Deliverable (if t.regs.rdx != 0 then t.store t.regs.rdx [t.proc.sigBlocked] else t).proc := by
    split <;> exact good
  unfold sysRtSigprocmask
  dsimp only
  split
  · exact Answers.same good _
  split
  · exact Answers.same good _
  generalize (if t.regs.rdx != 0 then t.store t.regs.rdx [t.proc.sigBlocked] else t) = u at stored
  split
  · exact Answers.same stored _
  split
  · exact Answers.same stored _
  have masked : ∀ mask value, Answers (.result value
      (u.mapProc (fun p => {p with sigBlocked := mask &&& ~~~unblockable}))) := fun mask value =>
    Answers.same (t := u.mapProc (fun p => {p with sigBlocked := mask &&& ~~~unblockable})) (stored.remask mask) value
  split
  · exact masked _ _
  split
  · exact masked _ _
  split
  · exact masked _ _
  · exact Answers.same stored _

theorem sigreturnAnswers : Answers t.sysRtSigreturn := by
  intro value u answer
  unfold sysRtSigreturn at answer
  dsimp only at answer
  split at answer
  · cases answer
  split at answer
  · cases answer
  cases answer
  exact good.remask _

theorem execveAnswers (x) : Answers (sysExecve x t) := by
  have cleared : Deliverable (clearHandlers t.proc) := by
    have kept i (default : (t.proc.sigact i).handler = sigDfl) : ((clearHandlers t.proc).sigact i).handler = sigDfl := by
      unfold clearHandlers
      dsimp only
      split
      · exact default
      · rfl
    exact ⟨good.blocked,good.saved,kept 8 good.kill,kept 18 good.stop⟩
  unfold sysExecve
  split
  · exact Answers.same good _
  split
  · exact Answers.same good _
  intro value u answer
  cases answer
  exact cleared

theorem callAnswers (plain x) {n call} (found : syscalls (quietCalls plain x) n = some call) : Answers (call t) := by
  unfold syscalls at found
  split at found
  · cases found
    exact sigactionAnswers good
  · cases found
    exact sigprocmaskAnswers good
  · cases found
    exact sigreturnAnswers good
  unfold quietCalls at found
  split at found
  · cases found
    exact execveAnswers good x
  obtain ⟨outcome,_,same⟩ := Option.map_eq_some_iff.mp found
  subst same
  intro value u answer
  cases answer
  exact good.pend _

theorem systemCallReturns (plain x) : Returns (t.systemCall (quietCalls plain x)) := by
  intro d out
  unfold systemCall syscallDispatch at out
  dsimp only at out
  split at out
  · exact Deliverable.leave (t := t.enter) good _ d out
  rename_i call found
  split at out
  · cases out
  rename_i value u answer
  have good' : Deliverable t.enter.proc := good
  have known : syscalls (quietCalls plain x) (t.mapRegs syscallEntry).regs.rax.toNat = some call := by
    split at found
    · cases found
    · exact found
  exact Deliverable.leave (callAnswers good' plain x known value u answer) value d out

theorem beginSuspendGood {u} (began : t.beginSuspend = .ok u) : Deliverable u.proc := by
  unfold beginSuspend at began
  split at began
  · cases began
  split at began
  · cases began
  cases began
  exact good.temp _

theorem beginPollGood {u} (began : t.beginPoll = .ok u) : Deliverable u.proc := by
  unfold beginPoll at began
  dsimp only at began
  split at began
  · cases began
  split at began
  · cases began
  split at began
  · cases began
    exact good
  split at began
  · cases began
  split at began
  · cases began
  cases began
  exact good.temp _

end

end

namespace Thread

structure Sound (l : Thread) : Prop where
  deliverable : Deliverable l.proc
  own : ∀ p, l = user p → p.sigRestore = false

theorem Sound.ofUser {p} (good : Deliverable p) (clear : p.sigRestore = false) : Sound (user p) := by
  refine ⟨good,fun q same => ?_⟩
  cases same
  exact clear

theorem backSound {x l} (returns : Returns x) (out : back x = some l) : Sound l := by
  obtain ⟨d,outcome,same⟩ := Option.map_eq_some_iff.mp out
  subst same
  obtain ⟨good,clear⟩ := returns d outcome
  exact Sound.ofUser good clear

theorem callSound {t l} (good : Deliverable t.proc) (plain x) (taken : call t plain x = some l) : Sound l := by
  have entered : Deliverable t.enter.proc := good
  unfold call at taken
  split at taken
  · split at taken
    · exact backSound (entered.leave _) taken
    rename_i u began
    cases taken
    exact ⟨beginSuspendGood entered began,fun _ wrong => by cases wrong⟩
  · split at taken
    · exact backSound (entered.leave _) taken
    rename_i u began
    cases taken
    exact ⟨beginPollGood entered began,fun _ wrong => by cases wrong⟩
  · exact backSound (systemCallReturns good plain x) taken

theorem sendSound {l} (sound : Sound l) (sig) : Sound (l.setProc (send l.proc sig)) := by
  have good : Deliverable (send l.proc sig) := by
    unfold send
    split
    · exact sound.deliverable
    · exact sound.deliverable.pend _
  have restore : (send l.proc sig).sigRestore = l.proc.sigRestore := by
    unfold send
    split <;> rfl
  cases l with
  | user p => exact Sound.ofUser good (restore.trans (sound.own p rfl))
  | suspended | polling => exact ⟨good,fun _ wrong => by cases wrong⟩

theorem stepSound {l k e} (sound : Sound l) (taken : step l e = some k) : Sound k := by
  have good := sound.deliverable
  unfold step at taken
  split at taken
  · cases taken
    exact sendSound sound _
  · rename_i p u
    exact backSound (fun d out => Deliverable.deliver (t := ⟨p,u.regs,u.space,u.fpu⟩) good out) taken
  · exact callSound (t := ⟨_,_,_,_⟩) good _ _ taken
  · cases taken
    exact Sound.ofUser ⟨good.blocked,fun wrong => absurd wrong Bool.false_ne_true,good.kill,good.stop⟩ rfl
  · rename_i t
    split at taken
    · exact backSound (Deliverable.leave (t := t) good eintr) taken
    cases taken
    exact sound
  · rename_i t value space
    split at taken
    · cases taken
    have ended : Deliverable (Task.endPoll {t with space := space} value).proc := by
      unfold endPoll
      split
      · exact (Deliverable.restore (p := t.proc) good).1
      · exact good
    exact backSound (ended.leave value) taken
  · cases taken

theorem bornSound (p) : Sound (born p) :=
  Sound.ofUser ⟨show (0 : BitVec 64) &&& unblockable = 0 by decide,fun wrong => absurd wrong Bool.false_ne_true,
    rfl,rfl⟩ rfl

theorem killStaysDeliverable (p : Process) (turns : List Turn) : ∀ l ∈ Runs.visited step (born p) turns,
    l.proc.sigBlocked &&& unblockable = 0 ∧ (l.proc.sigRestore = true → l.proc.sigSaved &&& unblockable = 0) ∧
    (l.proc.action sigKill).handler = sigDfl ∧ (l.proc.action sigStop).handler = sigDfl ∧
    ∀ q, l = user q → q.sigRestore = false := by
  intro l reached
  have sound : Sound l := Runs.visitedAlways (fun _ _ _ sound taken => stepSound sound taken) (bornSound p) l reached
  exact ⟨sound.deliverable.blocked,sound.deliverable.saved,sound.deliverable.kill,sound.deliverable.stop,sound.own⟩

def suspendAll : List Turn :=
  let u := Life.sampleUser 130 [-1]
  [.syscall {u with regs := {u.regs with rdi := 0x1000, rsi := 8}} none (Life.sampleProgram [])]

theorem suspendedDeliverable : ∃ l ∈ Runs.visited step (born {isUser := true}) suspendAll,
    l.proc.sigRestore = true ∧ l.proc.sigBlocked &&& unblockable = 0 ∧ l.proc.sigSaved &&& unblockable = 0 := by
  have final : (Runs.run step (born {isUser := true}) suspendAll).map (fun l => l.proc.sigRestore) = some true := by
    decide +kernel
  obtain ⟨l,seen,restore⟩ := Runs.visitedShows final
  have visited := seen
  obtain ⟨blocked,saved,_⟩ := killStaysDeliverable {isUser := true} suspendAll l visited
  exact ⟨l,visited,restore,blocked,saved restore⟩

end Thread

end Miviex
