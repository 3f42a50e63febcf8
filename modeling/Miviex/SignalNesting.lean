import Miviex.SignalMasks

/-! Handlers that are interrupted by further handlers. The mask to restore travels through the
frame on the user stack, or through `sig_saved` while a temporary mask is in force. -/
open Miviex.Task List Bool

namespace Miviex

open ByteMemory

/- One visit of a process in ring 3 to the kernel that does not change its own mask, and
what `signal_deliver` makes of it. A wait under a temporary mask ends with whatever became
pending meanwhile. -/
inductive Visits : Task → Delivery → Prop where
  | interrupt (t : Task) : Visits t (t.signalDeliver false)
  | call (t : Task) (p : Process) (space : UserSpace) (value : BitVec 64) :
      p.sigBlocked = t.proc.sigBlocked → p.sigRestore = t.proc.sigRestore →
      Visits t (Task.leave {t.enter with proc := p, space := space} value)
  | suspend (t u : Task) (pending : BitVec 64) : t.enter.beginSuspend = .ok u →
      signalPending {u.proc with sigPending := pending} = true →
      Visits t ((u.mapProc (fun p => {p with sigPending := pending})).leave eintr)
  | poll (t u : Task) (pending : BitVec 64) (space : UserSpace) (value : BitVec 64) : t.enter.beginPoll = .ok u →
      (value = eintr → signalPending {u.proc with sigPending := pending} = true) →
      Visits t ((Task.endPoll {u with proc := {u.proc with sigPending := pending}, space := space} value).leave value)

/- The handler has come back to its restorer and left its frame as it was. -/
structure FrameKept (d e : Task) : Prop where
  popped : e.regs.rsp = d.regs.rsp+offsetofUc
  unmodified : ∀ j < sizeofRtSigframe,
    e.space.bytes (d.regs.rsp + BitVec.ofNat 64 j) = d.space.bytes (d.regs.rsp + BitVec.ofNat 64 j)

inductive Point where
  | running (t : Task)
  | delivered (x : Delivery)

/- From a point the process gets to `e` at the same depth: user code and visits alternate, and each
handler on the way runs to its `rt_sigreturn`, whose delivery may start the next handler at once.
Signals may be sent at any time. -/
inductive Nests : Point → Task → Prop where
  | stay (t : Task) : Nests (.running t) t
  | runs (t u e : Task) : u.proc.sigBlocked = t.proc.sigBlocked → u.proc.sigRestore = t.proc.sigRestore →
      Nests (.running u) e → Nests (.running t) e
  | visit (t : Task) (x : Delivery) (v e : Task) : Visits t x → Nests (.delivered x) v → Nests (.running v) e →
      Nests (.running t) e
  | resumed (t : Task) : Nests (.delivered (.resumed t)) t
  | handled (sig : Nat) (d e : Task) (value : BitVec 64) (f v : Task) : Nests (.running d) e → FrameKept d e →
      e.enter.sysRtSigreturn = .result value f → Nests (.delivered (f.leave value)) v →
      Nests (.delivered (.handler sig d)) v

def Owes (mask : BitVec 64) : Delivery → Prop
  | .killed _ => True
  | .resumed t => t.proc.sigBlocked = mask ∧ t.proc.sigRestore = false
  | .handler _ d => (Ucontext.load d.space.bytes (d.regs.rsp+offsetofUc)).sigmask = mask ∧
      d.proc.sigRestore = false ∧ d.proc.sigBlocked &&& unblockable = 0

theorem restoredMask (p) : (signalMaskRestore p).sigBlocked = oldMask p ∧ (signalMaskRestore p).sigRestore = false := by
  unfold signalMaskRestore oldMask
  split
  · exact ⟨rfl,rfl⟩
  rename_i clear
  exact ⟨rfl,eq_false_iff.mpr clear⟩

variable {t d e : Task} {sig : Nat}

theorem setupFrameOwes (set : t.setupFrame sig = some d) : Owes (oldMask t.proc) (.handler sig d) := by
  refine ⟨by rw [frameStored set]; rfl,?_⟩
  unfold setupFrame at set
  dsimp only at set
  split at set
  · cases set
  split at set
  · cases set
  cases set
  split <;> exact ⟨rfl,stripped _⟩

theorem deliverOwes (t : Task) (interrupted) : Owes (oldMask t.proc) (t.deliver interrupted) := by
  fun_induction Task.deliver t interrupted with
  | case1 t none => exact restoredMask t.proc
  | case2 t first ready kernel => exact restoredMask t.proc
  | case3 t first ready user taken ignored ih => exact ih
  | case4 | case5 => exact trivial
  | case6 t first ready user taken k caught handled framed set =>
    exact setupFrameOwes (t := taken.mapRegs (settleCall k interrupted)) set

structure Own (p : Process) : Prop where
  restore : p.sigRestore = false
  clean : p.sigBlocked &&& unblockable = 0

theorem Own.oldMask {p} (own : Own p) : oldMask p = p.sigBlocked := by
  unfold Task.oldMask
  rw [own.restore]
  rfl

theorem suspendOwes {u} (began : t.beginSuspend = .ok u) : Task.oldMask u.proc = t.proc.sigBlocked := by
  unfold beginSuspend at began
  split at began
  · cases began
  split at began
  · cases began
  cases began
  rfl

theorem pollOwes {u} (own : Own t.proc) (began : t.beginPoll = .ok u) : Task.oldMask u.proc = t.proc.sigBlocked := by
  unfold beginPoll at began
  dsimp only at began
  split at began
  · cases began
  split at began
  · cases began
  split at began
  · cases began
    exact own.oldMask
  split at began
  · cases began
  split at began
  · cases began
  cases began
  rfl

theorem endPollOwes (t : Task) (value) : Task.oldMask (t.endPoll value).proc = Task.oldMask t.proc := by
  unfold endPoll
  split
  · obtain ⟨blocked,restore⟩ := restoredMask t.proc
    show Task.oldMask (signalMaskRestore t.proc) = Task.oldMask t.proc
    rw [← blocked]
    unfold Task.oldMask
    rw [restore]
    rfl
  · rfl

theorem leaveOwes (t : Task) (value) : Owes (Task.oldMask t.proc) (t.leave value) :=
  deliverOwes (t.mapRegs (fun r => {r with rax := value})) _

theorem visitOwes {x} (own : Own t.proc) (visit : Visits t x) : Owes t.proc.sigBlocked x := by
  cases visit with
  | interrupt =>
    rw [← own.oldMask]
    exact deliverOwes t _
  | call p space value blocked restore =>
    have same : Task.oldMask p = t.proc.sigBlocked := by
      unfold Task.oldMask
      rw [restore,own.restore,blocked]
      rfl
    rw [← same]
    exact leaveOwes {t.enter with proc := p, space := space} value
  | suspend u pending began waits =>
    have same : Task.oldMask u.proc = t.proc.sigBlocked := suspendOwes (t := t.enter) began
    rw [← same]
    exact leaveOwes (u.mapProc (fun p => {p with sigPending := pending})) eintr
  | poll u pending space value began waits =>
    have same : Task.oldMask u.proc = t.proc.sigBlocked := pollOwes (t := t.enter) own began
    have owes := leaveOwes (Task.endPoll {u with proc := {u.proc with sigPending := pending}, space := space} value) value
    rw [endPollOwes] at owes
    rw [← same]
    exact owes

theorem frameKeptLoad (kept : FrameKept d e) :
    Ucontext.load e.space.bytes e.regs.rsp = Ucontext.load d.space.bytes (d.regs.rsp+offsetofUc) := by
  rw [kept.popped]
  have word i (bound : i < 38) : wordAt e.space.bytes (d.regs.rsp+offsetofUc) i =
      wordAt d.space.bytes (d.regs.rsp+offsetofUc) i := by
    have here : wordAt e.space.bytes (d.regs.rsp+offsetofUc) i = wordAt e.space.bytes d.regs.rsp (1+i) :=
      wordAtShift e.space.bytes d.regs.rsp 1 i
    have there : wordAt d.space.bytes (d.regs.rsp+offsetofUc) i = wordAt d.space.bytes d.regs.rsp (1+i) :=
      wordAtShift d.space.bytes d.regs.rsp 1 i
    have inside : 1+i < 55 := by omega
    rw [here,there]
    exact wordAtCongr inside kept.unmodified
  unfold Ucontext.load
  simp (disch := decide) only [word]

theorem sigreturnMask {f value} (returned : e.enter.sysRtSigreturn = .result value f) :
    f.proc.sigBlocked = (Ucontext.load e.space.bytes e.regs.rsp).sigmask &&& ~~~unblockable ∧
    f.proc.sigRestore = e.proc.sigRestore ∧ let fp := (Ucontext.load e.space.bytes e.regs.rsp).mc.fpstate
      f.fpu = if fp != 0 then maskMxcsr (loadFpu e.space.bytes fp) else e.fpu := by
  unfold sysRtSigreturn at returned
  dsimp only at returned
  split at returned
  · cases returned
  split at returned
  · cases returned
  cases returned
  exact ⟨rfl,rfl,rfl⟩

theorem unstripped {m} (clean : m &&& unblockable = 0) : m &&& ~~~unblockable = m := by
  apply BitVec.eq_of_getLsbD_eq
  intro i bound
  have apart : (m &&& unblockable).getLsbD i = false := by rw [clean]; exact BitVec.getLsbD_zero
  rw [BitVec.getLsbD_and] at apart ⊢
  rw [BitVec.getLsbD_not,decide_eq_true bound,Bool.true_and]
  cases set : m.getLsbD i with
  | false => rfl
  | true =>
    rw [set,Bool.true_and] at apart
    rw [apart]
    rfl

def Regains (e : Task) : Point → Prop
  | .running t => Own t.proc → Own e.proc ∧ e.proc.sigBlocked = t.proc.sigBlocked
  | .delivered x => ∀ mask, mask &&& unblockable = 0 → Owes mask x → Own e.proc ∧ e.proc.sigBlocked = mask

theorem handlerGives {mask f value} (clean : mask &&& unblockable = 0)
    (owes : Owes mask (.handler sig d)) (own : Own e.proc) (kept : FrameKept d e)
    (returned : e.enter.sysRtSigreturn = .result value f) : Own f.proc ∧ f.proc.sigBlocked = mask := by
  obtain ⟨blocked,restore,_⟩ := sigreturnMask returned
  have same : f.proc.sigBlocked = mask := by rw [blocked,frameKeptLoad kept,owes.1,unstripped clean]
  exact ⟨⟨restore.trans own.restore,by rw [same]; exact clean⟩,same⟩

theorem nestsRegains {a} (nests : Nests a e) : Regains e a := by
  induction nests with
  | stay t => exact fun own => ⟨own,rfl⟩
  | runs t u e blocked restore _ ih =>
    intro own
    have ownU : Own u.proc := ⟨restore.trans own.restore,by rw [blocked]; exact own.clean⟩
    obtain ⟨ownE,same⟩ := ih ownU
    exact ⟨ownE,same.trans blocked⟩
  | visit t x v e visit _ _ back rest =>
    intro own
    obtain ⟨ownV,same⟩ := back _ own.clean (visitOwes own visit)
    obtain ⟨ownE,still⟩ := rest ownV
    exact ⟨ownE,still.trans same⟩
  | resumed t =>
    intro mask clean owes
    exact ⟨⟨owes.2,by rw [owes.1]; exact clean⟩,owes.1⟩
  | handled sig d e value f v _ kept returned _ body back =>
    intro mask clean owes
    obtain ⟨ownE,_⟩ := body ⟨owes.2.1,owes.2.2⟩
    obtain ⟨ownF,same⟩ := handlerGives clean owes ownE kept returned
    refine back mask clean ?_
    rw [← same,← ownF.oldMask]
    exact leaveOwes f value

/- After the outermost handler returns the mask is the one before the first delivery, and
before the temporary mask if that ended a wait under one. -/
theorem masksNest (p : Process) (turns : List Turn) (t : Task)
    (reached : Thread.user t.proc ∈ Runs.visited Thread.step (Thread.born p) turns) {sig : Nat} {d e f : Task}
    {value : BitVec 64} (visit : Visits t (.handler sig d)) (body : Nests (.running d) e) (kept : FrameKept d e)
    (returned : e.enter.sysRtSigreturn = .result value f) : f.proc.sigBlocked = t.proc.sigBlocked ∧
    ∀ v, Nests (.delivered (f.leave value)) v → v.proc.sigBlocked = t.proc.sigBlocked := by
  have sound : Thread.Sound (.user t.proc) :=
    Runs.visitedAlways (fun _ _ _ sound taken => Thread.stepSound sound taken) (Thread.bornSound p) _ reached
  have own : Own t.proc := ⟨sound.own _ rfl,sound.deliverable.blocked⟩
  have owes := visitOwes own visit
  obtain ⟨ownE,_⟩ := nestsRegains body ⟨owes.2.1,owes.2.2⟩
  obtain ⟨ownF,same⟩ := handlerGives own.clean owes ownE kept returned
  refine ⟨same,fun v nests => ?_⟩
  refine (nestsRegains nests _ own.clean ?_).2
  rw [← same,← ownF.oldMask]
  exact leaveOwes f value

theorem sigreturnSucceeds (set : t.setupFrame sig = some d) (returns : HandlerReturns d e)
    (low : ¬ userEnd ≤ t.regs.rip) : ∃ value f, e.enter.sysRtSigreturn = .result value f := by
  have stored := frameStored set
  rw [← returns.popped] at stored
  have image := returns.image
  rw [stored] at image
  have loaded : Ucontext.load e.enter.space.bytes e.enter.regs.rsp = (t.frameOf sig (t.proc.action sig)).uc :=
    frameLoaded (e := e) set returns
  have readable : e.enter.space.ok e.enter.regs.rsp (BitVec.ofNat 64 sizeofUcontext) false = true := returns.readable
  have imageOk : e.enter.space.ok (t.frameOf sig (t.proc.action sig)).uc.mc.fpstate (BitVec.ofNat 64 sizeofFpu) false =
    true := image
  have rip : (t.frameOf sig (t.proc.action sig)).uc.mc.rip = t.regs.rip := rfl
  simp only [sysRtSigreturn,readable,loaded,rip,low,imageOk,Bool.not_true,Bool.and_false,decide_false,
    Bool.or_false,Bool.false_eq_true,if_false]
  exact ⟨_,_,rfl⟩

theorem beginSuspendMask (size : t.regs.rsi = 8) (readable : t.space.ok t.regs.rdi 8 false = true) :
    t.beginSuspend = .ok (t.mapProc (signalMaskTemp · (wordAt t.space.bytes t.regs.rdi 0))) := by
  simp only [beginSuspend,size,readable,bne_self_eq_false,Bool.false_eq_true,Bool.not_true,if_false]

def catchTen : List Turn :=
  let call (number : BitVec 64) words (r : Registers → Registers) : Turn :=
    let u := Life.sampleUser number words
    .syscall {u with regs := r u.regs} none (Life.sampleProgram [])
  [call 13 [0x401000,saRestorer,0x402000,0] (fun r => {r with rdi := 10, rsi := 0x1000, r10 := 8}),
    call 14 [sigBit 10] (fun r => {r with rdi := 0, rsi := 0x1000, r10 := 8})]

/- Signal 10 arrives while the process waits with no signal blocked. -/
def awaited (p : Process) : Process := {signalMaskTemp p 0 with sigPending := sigBit 10}

def isCatcher : Thread → Bool
  | .user p =>
    let w := awaited p
    p.sigBlocked == sigBit 10 && w.isUser && firstReady w == some 10 && !ignores w 10 && (w.action 10).handler != sigDfl &&
      (w.action 10).flags &&& saRestorer != 0 && (takeSignal w 10).sigPending == 0 && signalPending w
  | _ => false

theorem catcherReached : ∃ p, Thread.user p ∈ Runs.visited Thread.step (Thread.born {isUser := true}) catchTen ∧
    p.sigBlocked = sigBit 10 ∧ Catches (awaited p) ∧ signalPending (awaited p) = true := by
  have final : (Runs.run Thread.step (Thread.born {isUser := true}) catchTen).map isCatcher = some true := by
    decide +kernel
  obtain ⟨l,seen,catcher⟩ := Runs.visitedShows final
  cases l with
  | user p =>
    simp only [isCatcher,and_eq_true,beq_iff_eq,bne_iff_ne,not_eq_true'] at catcher
    obtain ⟨⟨⟨⟨⟨⟨⟨blocked,user⟩,ready⟩,wanted⟩,caught⟩,restorer⟩,alone⟩,pending⟩ := catcher
    exact ⟨p,seen,blocked,⟨user,ready,wanted,caught,restorer,alone⟩,pending⟩
  | suspended | polling => cases catcher

/- A handler that ends a `rt_sigsuspend` gives back the mask from before the wait. -/
theorem maskBackAfterHandler : ∃ (t u d f : Task) (value : BitVec 64), t.proc.sigBlocked = sigBit 10 ∧
    t.enter.beginSuspend = .ok u ∧ u.proc.sigBlocked = 0 ∧
    (u.mapProc (fun p => {p with sigPending := sigBit 10})).leave eintr = .handler 10 d ∧
    (returned d).enter.sysRtSigreturn = .result value f ∧ f.proc.sigBlocked = sigBit 10 := by
  obtain ⟨p,reached,blocked,catches,pending⟩ := catcherReached
  let r : Registers := {rip := 0x400000, rflags := 0x202, rdi := 0x7FFFFFFFE000, rsi := 8}
  let t := stacked p r
  have readable : sampleSpace.ok 0x7FFFFFFFE000 8 false = true := by decide
  have empty : wordAt sampleSpace.bytes 0x7FFFFFFFE000 0 = 0 := by decide
  have waits : t.enter.beginSuspend = .ok (t.enter.mapProc (signalMaskTemp · 0)) := by
    rw [← empty]
    exact beginSuspendMask rfl readable
  have settled : eintr ≠ erestartsys := by decide
  obtain ⟨d,delivered,returns⟩ := catcherReturns catches {t.enter.regs with rax := eintr} true settled
  obtain ⟨u,regs,_,set,_⟩ := deliverHandler delivered
  have same : u.regs.rip = 0x400000 := by rw [regs]; rfl
  obtain ⟨value,f,answer⟩ := sigreturnSucceeds set returns (by rw [same]; decide)
  have visit : Visits t (.handler 10 d) := delivered ▸ Visits.suspend t _ (sigBit 10) waits pending
  have back := Nests.runs d (returned d) (returned d) rfl rfl (Nests.stay (returned d))
  have mask := masksNest {isUser := true} catchTen t reached visit back ⟨returns.popped,returns.unmodified⟩ answer
  exact ⟨t,_,d,f,value,blocked,waits,rfl,delivered,answer,mask.1.trans blocked⟩

theorem frameBelow (r : Registers) : ∃ k, k ≤ 15 ∧ frameFp r - frameSp r = BitVec.ofNat 64 (448+k) := by
  let y := frameFp r - BitVec.ofNat 64 sizeofRtSigframe
  have apart : (y &&& ~~~15) &&& (y &&& 15) = 0 := by
    apply BitVec.eq_of_getLsbD_eq
    intro i bound
    simp only [BitVec.getLsbD_and,BitVec.getLsbD_not]
    cases (15 : BitVec 64).getLsbD i <;> simp
  have whole : (y &&& ~~~15) + (y &&& 15) = y := by
    rw [BitVec.add_eq_or_of_and_eq_zero _ _ apart]
    apply BitVec.eq_of_getLsbD_eq
    intro i bound
    simp only [BitVec.getLsbD_or,BitVec.getLsbD_and,BitVec.getLsbD_not,bound,decide_true,Bool.true_and]
    cases y.getLsbD i <;> cases (15 : BitVec 64).getLsbD i <;> rfl
  refine ⟨(y &&& 15).toNat,by rw [BitVec.toNat_and]; exact Nat.and_le_right,?_⟩
  have top : frameFp r = (y &&& ~~~15) + (y &&& 15) + BitVec.ofNat 64 sizeofRtSigframe := by
    rw [whole]
    exact (sub_add_cancel _ _).symm
  have bottom : frameSp r = (y &&& ~~~15) - 8 := rfl
  rw [top,bottom,BitVec.ofNat_add,BitVec.ofNat_toNat,BitVec.setWidth_eq]
  show _ + BitVec.ofNat 64 440 - (_ - BitVec.ofNat 64 8) = _
  grind

theorem storeWordsApart {m : Memory} {a x : BitVec 64} {ws} (past : 8 * ws.length ≤ (x-a).toNat) :
    storeWords m a ws x = m x := by
  unfold storeWords
  rw [getElem?_eq_none (by omega)]

/- Delivery stores the image below the red zone and the frame below the image. -/
theorem imageStored (image : t.fpu.length = 64) (set : t.setupFrame sig = some d) :
    loadFpu d.space.bytes (frameFp t.regs) = t.fpu := by
  obtain ⟨_,bytes,_⟩ := setupFrameSome set
  obtain ⟨k,small,gap⟩ := frameBelow t.regs
  refine ext_getElem (by simp [loadFpu,image]) (fun i inside _ => ?_)
  have bound : i < t.fpu.length := by simpa [loadFpu,image] using inside
  simp only [loadFpu,getElem_map,getElem_range,bytes]
  have same j (near : j < 8 * t.fpu.length) : storeWords (storeWords t.space.bytes (frameFp t.regs) t.fpu) (frameSp t.regs)
      (t.frameOf sig (t.proc.action sig)).words (frameFp t.regs + BitVec.ofNat 64 j) =
        storeWords t.space.bytes (frameFp t.regs) t.fpu (frameFp t.regs + BitVec.ofNat 64 j) := by
    apply storeWordsApart
    have offset : frameFp t.regs + BitVec.ofNat 64 j - frameSp t.regs = BitVec.ofNat 64 (448+k+j) := by
      rw [BitVec.ofNat_add (448+k),← gap]
      grind
    have size : (t.frameOf sig (t.proc.action sig)).words.length = 55 := rfl
    rw [offset,size,BitVec.toNat_ofNat]
    omega
  rw [wordAtCongr bound same]
  exact wordAtStored bound (by omega)

theorem maskedSame {image : List (BitVec 64)} {w : BitVec 64} (here : image[3]? = some w)
    (defined : w &&& 0xFFFF0000 = 0) : maskMxcsr image = image ↔ w.getLsbD 6 = false := by
  have masks : ∀ i < 64, i ≠ 6 → (0xFFFF0000 : BitVec 64).getLsbD i = false →
    (0xFFFFFFFF0000FFBF : BitVec 64).getLsbD i = true := by decide
  have same : maskMxcsr image = image ↔ w &&& 0xFFFFFFFF0000FFBF = w := by
    unfold maskMxcsr
    constructor
    · intro kept
      have third := congrArg (·[3]?) kept
      simpa [here] using third
    · intro kept
      refine ext_getElem? (fun i => ?_)
      rw [getElem?_modify]
      by_cases at3 : 3 = i
      · rw [← at3,here]
        simpa using kept
      · simp [at3]
  rw [same]
  constructor
  · intro kept
    rw [← kept,BitVec.getLsbD_and]
    exact and_false _
  intro clear
  apply BitVec.eq_of_getLsbD_eq
  intro i bound
  rw [BitVec.getLsbD_and]
  cases set : w.getLsbD i with
  | false => rfl
  | true =>
  have reserved : (0xFFFF0000 : BitVec 64).getLsbD i = false := by
    have none : (w &&& 0xFFFF0000).getLsbD i = false := by rw [defined]; exact BitVec.getLsbD_zero
    rwa [BitVec.getLsbD_and,set,Bool.true_and] at none
  have other : i ≠ 6 := by
    rintro rfl
    rw [clear] at set
    cases set
  rw [masks i bound other reserved]
  rfl

/- The image of the delivery is unmodified, like the frame. -/
structure ImageKept (d e : Task) : Prop extends FrameKept d e where
  image : let fp := (Ucontext.load d.space.bytes (d.regs.rsp+offsetofUc)).mc.fpstate
    ∀ j < sizeofFpu, e.space.bytes (fp + BitVec.ofNat 64 j) = d.space.bytes (fp + BitVec.ofNat 64 j)

theorem frameAboveZero (inside : ∀ a n w, t.space.ok a n w = true → n = 0 ∨ a.toNat + n.toNat ≤ userEnd.toNat)
    (set : t.setupFrame sig = some d) : frameFp t.regs ≠ 0 := by
  intro zero
  obtain ⟨k,small,gap⟩ := frameBelow t.regs
  unfold setupFrame at set
  dsimp only at set
  split at set
  · cases set
  split at set
  · cases set
  rename_i ok
  have range := inside _ _ _ (by simpa using ok)
  rw [zero] at gap range
  have place : frameSp t.regs = - BitVec.ofNat 64 (448+k) := by rw [← gap]; simp
  have full : 0 + BitVec.ofNat 64 sizeofFpu - frameSp t.regs ≠ 0 := by
    rw [place,sizeofFpu]
    bv_omega
  replace range := range.resolve_left full
  rw [place,BitVec.toNat_neg,BitVec.toNat_ofNat] at range
  have top : userEnd.toNat = 0x7FFFFFFFF000 := rfl
  omega

/- The handler may do what it likes with the FPU and be interrupted by any others: the image
comes back from its place on the stack, but for the one bit of MXCSR that is always cleared,
denormals-are-zeros. -/
theorem fpuRestored (t d e f : Task) (fromSyscall : Bool) (sig : Nat) (value mxcsr : BitVec 64)
    (image : t.fpu.length = 64) (word : t.fpu[3]? = some mxcsr) (defined : mxcsr &&& 0xFFFF0000 = 0)
    (inside : ∀ a n w, t.space.ok a n w = true → n = 0 ∨ a.toNat + n.toNat ≤ userEnd.toNat)
    (delivered : t.signalDeliver fromSyscall = .handler sig d) (kept : ImageKept d e)
    (returned : e.enter.sysRtSigreturn = .result value f) : f.fpu = t.fpu ↔ mxcsr.getLsbD 6 = false := by
  obtain ⟨u,_,_,set,fpu,space⟩ := deliverHandler delivered
  have loaded : Ucontext.load e.space.bytes e.regs.rsp = (u.frameOf sig (u.proc.action sig)).uc :=
    (frameKeptLoad kept.toFrameKept).trans (frameStored set)
  have place : (u.frameOf sig (u.proc.action sig)).uc.mc.fpstate = frameFp u.regs := rfl
  have image' := kept.image
  rw [frameStored set,place] at image'
  have same : loadFpu e.space.bytes (frameFp u.regs) = t.fpu := by
    rw [← fpu,← imageStored (fpu ▸ image) set]
    refine map_congr_left (fun i here => ?_)
    exact wordAtCongr (mem_range.mp here) image'
  have above := frameAboveZero (space ▸ inside) set
  have restored := (sigreturnMask returned).2.2
  rw [loaded,place] at restored
  dsimp only at restored
  rw [restored,if_pos (bne_iff_ne.mpr above),same]
  exact maskedSame word defined

theorem zeroImageBack : ∃ (t d f : Task) (value : BitVec 64), t.signalDeliver false = .handler 10 d ∧
    (returned d).enter.sysRtSigreturn = .result value f ∧ f.fpu = t.fpu := by
  let r : Registers := {rip := 0x400000, rflags := 0x202}
  obtain ⟨d,delivered,returns⟩ := sampleReturns r false (by decide)
  obtain ⟨u,regs,_,set,_⟩ := deliverHandler delivered
  have low : ¬ userEnd ≤ u.regs.rip := by rw [show u.regs = (sampleTask r).regs from regs]; decide
  obtain ⟨value,f,answer⟩ := sigreturnSucceeds set returns low
  have inside a n w (ok : sampleSpace.ok a n w = true) : n = 0 ∨ a.toNat+n.toNat ≤ userEnd.toNat := by
    simp only [sampleSpace,and_eq_true,decide_eq_true_eq] at ok
    exact .inr ok.2
  refine ⟨sampleTask r,d,f,value,delivered,answer,?_⟩
  exact (fpuRestored (sampleTask r) d (returned d) f false 10 value 0 rfl rfl (by decide) inside delivered
    ⟨⟨returns.popped,returns.unmodified⟩,fun _ _ => rfl⟩ answer).mpr (by decide)

/- MXCSR as it is after a reset, with denormals-are-zeros set. -/
def zeroingTask : Task := {sampleTask {rip := 0x400000, rflags := 0x202} with
  fpu := [0x37F,0,0,0x1FC0] ++ replicate 60 0}

def handled (t : Task) : Option (List (BitVec 64)) :=
  match t.signalDeliver false with
  | .handler _ d => match (returned d).enter.sysRtSigreturn with
    | .result _ f => some f.fpu
    | .killed _ => none
  | _ => none

theorem zeroingLost : zeroingTask.fpu[3]? = some 0x1FC0 ∧
    (handled zeroingTask).map (fun image => image[3]?) = some (some 0x1F80) := by
  decide +kernel

end Miviex
