import Miviex.Wakeups

/-! System calls that may sleep. A call runs until it returns or sleeps on a channel, and goes on
from there. What the calls work on is left open: a device gives them, and says what `fork` and
`exit` do to it. -/
namespace Miviex
open List Option Scheduler
open Function (update update_of_ne update_self)

def sigPipe : Nat := 13

namespace Calls
open Scheduler (Dozes Undisturbed Consistent Touched own sleptSince sleptSinceMild)

inductive Next (C R : Type) where
  | done (answer : R)
  | asleep (chan : Addr) (call : C)

def Next.call {C R : Type} : Next C R → Option C
  | .done _ => none
  | .asleep _ call => some call

/- Up to the next sleep: the channels woken in order, then the signal the caller raised
for itself. -/
structure Outcome (D C R : Type) where
  dev : D
  wakes : List Addr := []
  raised : Option Nat := none
  next : Next C R

/- The Boolean is `signal_pending` of the caller. `exit` also gives the channels that closing
the descriptors wakes. -/
structure Device (D C R Q : Type) where
  enter : D → Addr → Bool → Q → Outcome D C R
  resume : D → Addr → Bool → C → Outcome D C R
  fork : D → Addr → Addr → D
  exit : D → Addr → D × List Addr

structure System (D C R : Type) where
  sched : Scheduler
  dev : D
  calls : Addr → Option C
  answers : List (Addr × R)

inductive Event (Q : Type) where
  | kernel (e : Scheduler.Event)
  | request (q : Q)
  | resume
  | fork (place : Option Addr) (cloned : Bool)
  | exit (status : Int)

def born : Scheduler.Event → Option Addr
  | .create place _ => place
  | .createUser place _ => place
  | _ => none

variable {D C R Q : Type}

def wakeAll (s : Scheduler) (wakes : List Addr) : Scheduler := wakes.foldl (fun s a => s.wakeup (some a)) s

def raise (s : Scheduler) (me : Addr) : Option Nat → Scheduler
  | none => s
  | some sig => s.signalSend (some me) sig

namespace System

def caller (idle : Addr) (s : System D C R) : Option Addr :=
  s.sched.current.filter (fun p => p ≠ idle && (s.sched.procs p).isUser)

def pending (s : System D C R) (me : Addr) : Bool := signalPending (s.sched.procs me)

def finish (s : System D C R) (me : Addr) (o : Outcome D C R) : System D C R :=
  let sched := raise (wakeAll s.sched o.wakes) me o.raised
  match o.next with
  | .done answer =>
    ⟨sched,o.dev,update s.calls me none,s.answers ++ [(me,answer)]⟩
  | .asleep chan call =>
    ⟨sched.sleepOn (some chan),o.dev,update s.calls me (some call),s.answers⟩

def fork (device : Device D C R Q) (s : System D C R) (me : Addr) (place : Option Addr) (cloned : Bool) :
    System D C R :=
  match s.sched.processFork place cloned with
  | (none,sched) => {s with sched := sched}
  | (some child,sched) =>
    {s with sched := sched, dev := device.fork s.dev me child, calls := update s.calls child none}

def exit (device : Device D C R Q) (s : System D C R) (me : Addr) (status : Int) : System D C R :=
  let left := device.exit s.dev me
  {s with sched := s.sched.schedulerExit status (left.2.map some), dev := left.1}

/- Refused: what the scheduler refuses, a second call of a process in the middle of one, and
going on with none. -/
def step (device : Device D C R Q) (idle : Addr) (s : System D C R) : Event Q → Option (System D C R)
  | .kernel (.fork _ _) => none
  | .kernel (.exit _ _) => none
  | .kernel e =>
    if own e && (s.sched.current.bind s.calls).isSome then none
    else (s.sched.step idle e).map (fun sched => {s with
      sched := sched
      calls := match born e with
        | none => s.calls
        | some p => update s.calls p none})
  | .request q => (s.caller idle).bind (fun me =>
      match s.calls me with
      | none => some (s.finish me (device.enter s.dev me (s.pending me) q))
      | some _ => none)
  | .resume => (s.caller idle).bind (fun me =>
      match s.calls me with
      | none => none
      | some call => some (s.finish me (device.resume s.dev me (s.pending me) call)))
  | .fork place cloned => (s.caller idle).bind (fun me =>
      if (s.calls me).isNone ∧ s.sched.unused place then some (s.fork device me place cloned) else none)
  | .exit status => (s.caller idle).bind (fun me =>
      if (s.calls me).isNone ∧ (s.sched.procs me).pid ≠ 1 then some (s.exit device me status) else none)

def boot (idle : Addr) (dev : D) : System D C R := ⟨Scheduler.boot idle,dev,fun _ => none,[]⟩

end System

/- What a step does to the device and to the calls in progress. -/
inductive Turn (device : Device D C R Q) (s t : System D C R) : Prop where
  | still (dev : t.dev = s.dev) (answers : t.answers = s.answers)
      (calls : ∀ p c, t.calls p = some c → s.calls p = some c)
      (kept : ∀ p, p ∈ s.sched.allProcs → t.calls p = s.calls p)
  | entered (me : Addr) (q : Q) (o : Outcome D C R) (outside : s.calls me = none)
      (entry : o = device.enter s.dev me (s.pending me) q) (result : t = s.finish me o)
  | resumed (me : Addr) (call : C) (o : Outcome D C R) (inside : s.calls me = some call)
      (goes : o = device.resume s.dev me (s.pending me) call) (result : t = s.finish me o)
  | forked (me child : Addr) (outside : s.calls me = none) (fresh : child ∉ s.sched.allProcs)
      (dev : t.dev = device.fork s.dev me child) (answers : t.answers = s.answers)
      (calls : t.calls = update s.calls child none)
  | exited (me : Addr) (outside : s.calls me = none)
      (dev : t.dev = (device.exit s.dev me).1) (answers : t.answers = s.answers) (calls : t.calls = s.calls)

/- What a step was. -/
inductive Did (device : Device D C R Q) (idle : Addr) (s : System D C R) : Event Q → System D C R → Prop where
  | kernel {e t} (taken : s.step device idle (.kernel e) = some t) :
      Did device idle s (.kernel e) t
  | request {me} (q : Q) (calls : s.caller idle = some me) (outside : s.calls me = none) :
      Did device idle s (.request q) (s.finish me (device.enter s.dev me (s.pending me) q))
  | resume {me call} (calls : s.caller idle = some me) (inside : s.calls me = some call) :
      Did device idle s .resume (s.finish me (device.resume s.dev me (s.pending me) call))
  | unforked {place cloned sched} (unused : s.sched.unused place = true)
      (forked : s.sched.processFork place cloned = (none,sched)) :
      Did device idle s (.fork place cloned) {s with sched := sched}
  | forked {me child place cloned sched} (outside : s.calls me = none)
      (unused : s.sched.unused place = true) (forked : s.sched.processFork place cloned = (some child,sched)) :
      Did device idle s (.fork place cloned)
        {s with sched := sched, dev := device.fork s.dev me child, calls := update s.calls child none}
  | exit {me} (status : Int) (calls : s.caller idle = some me) (outside : s.calls me = none) :
      Did device idle s (.exit status) (s.exit device me status)

theorem finishDev (s : System D C R) (me) (o : Outcome D C R) : (s.finish me o).dev = o.dev := by
  unfold System.finish
  cases o.next <;> rfl

theorem finishCalls (s : System D C R) (me) (o : Outcome D C R) : (s.finish me o).calls = update s.calls me o.next.call := by
  unfold System.finish
  cases o.next <;> rfl

theorem exitDev (device : Device D C R Q) (s : System D C R) (me status) :
    (s.exit device me status).dev = (device.exit s.dev me).1 := rfl

variable {idle me p : Addr} {s t : System D C R} {device : Device D C R Q}

theorem callerCurrent (calls : s.caller idle = some me) : s.sched.current = some me ∧ me ≠ idle := by
  simp only [System.caller,filter_eq_some_iff,Bool.and_eq_true,decide_eq_true_eq] at calls
  exact ⟨calls.1,calls.2.1⟩

theorem bornFresh {s : Scheduler} {t e} (moved : s.step idle e = some t) (new : born e = some p) : p ∉ s.allProcs := by
  cases e with
  | create place priority | createUser place priority =>
    simp only [Scheduler.step,ite_none_right_eq_some] at moved
    cases new
    exact unusedFresh moved.1
  | _ => cases new

theorem kernelStep {e} (taken : s.step device idle (.kernel e) = some t) :
    ∃ sched, s.sched.step idle e = some sched ∧ (own e = true → s.sched.current.bind s.calls = none) ∧
    t.sched = sched ∧ t.dev = s.dev ∧ t.answers = s.answers ∧
    (∀ p c, t.calls p = some c → s.calls p = some c) ∧ ∀ p, p ∈ s.sched.allProcs → t.calls p = s.calls p := by
  have shape : (if own e && (s.sched.current.bind s.calls).isSome then none
      else (s.sched.step idle e).map (fun sched => ({s with
        sched := sched
        calls := match born e with
          | none => s.calls
          | some p => update s.calls p none} : System D C R))) = some t := by
    cases e <;> first | exact taken | cases taken
  split at shape
  · cases shape
  rename_i allowed
  obtain ⟨sched,moved,rfl⟩ := map_eq_some_iff.mp shape
  refine ⟨sched,moved,fun mine => ?_,rfl,rfl,rfl,fun p c inside => ?_,fun p live => ?_⟩
  · simpa [mine] using allowed
  · cases new : born e with
    | none => simpa [new] using inside
    | some q =>
      simp only [new] at inside
      by_cases same : p = q
      · subst same; simp at inside
      · simpa [same] using inside
  cases new : born e with
  | none => rfl
  | some q =>
    have apart : p ≠ q := by
      rintro rfl
      exact bornFresh moved new live
    exact update_of_ne apart none s.calls

theorem stepDid {e} (taken : s.step device idle e = some t) : Did device idle s e t := by
  cases e with
  | kernel e => exact .kernel taken
  | request q =>
    obtain ⟨me,calls,taken⟩ := bind_eq_some_iff.mp taken
    split at taken
    · cases taken; exact .request q calls ‹_›
    · cases taken
  | resume =>
    obtain ⟨me,calls,taken⟩ := bind_eq_some_iff.mp taken
    split at taken
    · cases taken
    · cases taken; exact .resume calls ‹_›
  | fork place cloned =>
    simp only [System.step,bind_eq_some_iff,ite_none_right_eq_some,Option.some.injEq,isNone_iff_eq_none] at taken
    obtain ⟨me,_,⟨outside,unused⟩,rfl⟩ := taken
    unfold System.fork
    split
    · exact .unforked unused ‹_›
    · exact .forked outside unused ‹_›
  | exit status =>
    simp only [System.step,bind_eq_some_iff,ite_none_right_eq_some,Option.some.injEq,isNone_iff_eq_none] at taken
    obtain ⟨me,calls,⟨outside,_⟩,rfl⟩ := taken
    exact .exit status calls outside

theorem stepTurn {e} (taken : s.step device idle e = some t) : Turn device s t := by
  cases stepDid taken with
  | kernel taken =>
    obtain ⟨_,_,_,_,dev,answers,calls,kept⟩ := kernelStep taken
    exact .still dev answers calls kept
  | @request me q _ outside => exact .entered me q _ outside rfl rfl
  | @resume me call _ inside => exact .resumed me call _ inside rfl rfl
  | unforked => exact .still rfl rfl (fun _ _ inside => inside) (fun _ _ => rfl)
  | @forked me child _ _ _ outside unused forked =>
    exact .forked me child outside (unusedFresh (forkPlace forked ▸ unused)) rfl rfl rfl
  | @exit me _ _ outside => exact .exited me outside rfl rfl rfl

theorem wakeAllTouched {rel} (mild : Scheduler.Mild rel) (s wakes) : Touched rel p s (wakeAll s wakes) :=
  touchedFold mild (fun t a => wakeupTouched mild t (some a)) wakes s

theorem raiseTouched {rel} (mild : Scheduler.Mild rel) (s me raised) : Touched rel p s (raise s me raised) := by
  cases raised with
  | none => exact Touched.refl mild s
  | some sig => exact signalSendTouched mild s (some me) sig

theorem wakeAllUndisturbed (s wakes p) : Undisturbed s (wakeAll s wakes) p :=
  (wakeAllTouched sleptSinceMild s wakes).undisturbed

theorem wakeAllEmpties (s) {wakes a} (woken : a ∈ wakes) (p) : ¬ Dozes (wakeAll s wakes) p (some a) := by
  induction wakes generalizing s with
  | nil => cases woken
  | cons first rest ih =>
    intro dozes
    rcases mem_cons.mp woken with same | later
    · subst same
      exact wakeupEmpties s (some a) p (wakeAllUndisturbed _ rest p _ dozes).1
    · exact ih (s.wakeup (some first)) later dozes

theorem wakeAllSignals (s : Scheduler) (wakes p) : signalPending ((wakeAll s wakes).procs p) = signalPending (s.procs p) := by
  refine List.foldlRecOn wakes (fun s a => s.wakeup (some a)) (b := s)
    (motive := fun t => signalPending (t.procs p) = signalPending (s.procs p)) rfl ?_
  intro t same a _
  exact (wakeupSignals t (some a) p).trans same

theorem wokenHarmless {s} (live : me ∈ s.allProcs) (wakes raised) :
    Scheduler.Harmless idle s (raise (wakeAll s wakes) me raised) := by
  have woken : Scheduler.Harmless idle s (wakeAll s wakes) :=
    harmlessFold (fun _ _ => True) (fun _ _ _ _ _ => trivial)
      (fun t a _ => wakeupHarmless idle t (some a)) wakes s (fun _ _ => trivial)
  refine harmlessTrans woken (fun calm => ?_)
  cases raised with
  | none => exact harmlessRefl idle _
  | some sig =>
    have sent : Scheduler.Harmless idle (wakeAll s wakes) ((wakeAll s wakes).signalSend (some me) sig) := by
      refine signalSendHarmless sig (fun x same => ?_)
      cases same
      rw [calm.all]
      exact live
    exact sent

theorem wokenCurrent {s} (consistent : Consistent idle s) (atCurrent : s.current = some me) (wakes raised) :
    Consistent idle (raise (wakeAll s wakes) me raised) ∧ (raise (wakeAll s wakes) me raised).current = some me := by
  have harmless : Scheduler.Harmless idle s _ := wokenHarmless (consistent.currentLive me atCurrent) wakes raised
  exact ⟨harmlessConsistent harmless consistent,(harmless consistent.toSettled).2.current.trans atCurrent⟩

theorem finishConsistent (consistent : Consistent idle s.sched)
    (atCurrent : s.sched.current = some me) (notIdle : me ≠ idle) (o : Outcome D C R) :
    Consistent idle (s.finish me o).sched := by
  obtain ⟨ready,current⟩ := wokenCurrent consistent atCurrent o.wakes o.raised
  unfold System.finish
  cases o.next with
  | done answer => exact ready
  | asleep chan call =>
    simp only [Scheduler.sleepOn,current]
    exact yieldConsistent (sleepSettled ready current notIdle (some chan))

theorem stepConsistent {e} (consistent : Consistent idle s.sched) (taken : s.step device idle e = some t) :
    Consistent idle t.sched := by
  cases stepDid taken with
  | kernel taken =>
    obtain ⟨sched,moved,_,rfl,_⟩ := kernelStep taken
    exact Scheduler.stepConsistent consistent moved
  | request _ calls | resume calls =>
    obtain ⟨atCurrent,notIdle⟩ := callerCurrent calls
    exact finishConsistent consistent atCurrent notIdle _
  | @unforked _ cloned _ unused forked | @forked _ _ _ cloned _ _ unused forked =>
    have after := forkConsistent consistent cloned unused
    rwa [forked] at after
  | exit status calls =>
    obtain ⟨atCurrent,notIdle⟩ := callerCurrent calls
    simp only [System.exit,schedulerExit,atCurrent]
    exact yieldConsistent (terminateSettled consistent atCurrent notIdle status _).1

/- A sleeping call waits on its own channel, for what it waits for, with no signal to answer. -/
def Rested (Waits : D → C → Prop) (chan : C → Addr) (s : System D C R) : Prop :=
  ∀ p on c, Dozes s.sched p on → s.calls p = some c → on = some (chan c) ∧ Waits s.dev c ∧ s.pending p = false

/- What the text of a call has to keep to: it sleeps for what it waits for only, and whoever
waits for something it changes is woken. -/
structure Wakeful (Waits : D → C → Prop) (chan : C → Addr) (d : D) (pending : Bool) (o : Outcome D C R) :
    Prop where
  keeps : ∀ c, Waits d c → chan c ∉ o.wakes → Waits o.dev c
  sleeps : ∀ on c, o.next = .asleep on c → on = chan c ∧ Waits o.dev c ∧ pending = false ∧ o.raised = none

structure Heeds (Asleep : C → Prop) (Waits : D → C → Prop) (chan : C → Addr) (d : D) (pending : Bool)
    (o : Outcome D C R) : Prop where
  keeps : ∀ c, Asleep c → Waits d c → chan c ∉ o.wakes → Waits o.dev c
  sleeps : ∀ on c, o.next = .asleep on c → on = chan c ∧ Waits o.dev c ∧ pending = false ∧ o.raised = none

def Asleep (s : System D C R) (c : C) : Prop := ∃ p on, Dozes s.sched p on ∧ s.calls p = some c

section Rest
variable {Waits : D → C → Prop} {chan : C → Addr} {s t : System D C R}

theorem Wakeful.heeds {d pending} {o : Outcome D C R} (wakeful : Wakeful Waits chan d pending o)
    (asleep : C → Prop) : Heeds asleep Waits chan d pending o :=
  ⟨fun c _ waits unwoken => wakeful.keeps c waits unwoken,wakeful.sleeps⟩

theorem finishRested {idle me o} (consistent : Consistent idle s.sched)
    (atCurrent : s.sched.current = some me) (rested : Rested Waits chan s)
    (heeds : Heeds (Asleep s) Waits chan s.dev (s.pending me) o) : Rested Waits chan (s.finish me o) := by
  obtain ⟨_,current⟩ := wokenCurrent consistent atCurrent o.wakes o.raised
  intro p on c dozes inside
  rw [finishCalls] at inside
  rw [finishDev]
  by_cases mine : p = me
  · subst mine
    rw [update_self] at inside
    cases ends : o.next with
    | done answer => rw [ends] at inside; cases inside
    | asleep chan_ call =>
    rw [ends] at inside
    cases Option.some.inj inside
    obtain ⟨same,waits,quiet,silent⟩ := heeds.sleeps chan_ c ends
    have shape : (s.finish p o).sched = (raise (wakeAll s.sched o.wakes) p o.raised).sleepOn (some chan_) := by
      simp only [System.finish,ends]
    rw [shape] at dozes
    obtain ⟨before,silence⟩ := (sleepTouched sleptSinceMild current (some chan_)).2.undisturbed on dozes
    refine ⟨?_,waits,?_⟩
    · rw [← before.on,← same]
      simp [Scheduler.block,Scheduler.modify]
    unfold System.pending
    rw [shape]
    refine silence ?_
    have signals := wakeAllSignals s.sched o.wakes p
    rw [silent]
    simp only [raise,Scheduler.block]
    rw [modifySignals rfl p,signals]
    exact quiet
  rw [update_of_ne mine] at inside
  have sent : Undisturbed (wakeAll s.sched o.wakes) (s.finish me o).sched p := by
    have raised : Touched sleptSince p (wakeAll s.sched o.wakes) (raise (wakeAll s.sched o.wakes) me o.raised) :=
      raiseTouched sleptSinceMild _ me o.raised
    cases ends : o.next with
    | done answer =>
      simp only [System.finish,ends]
      exact raised.undisturbed
    | asleep chan_ call =>
      simp only [System.finish,ends]
      exact raised.undisturbed.trans ((sleepTouched sleptSinceMild current (some chan_)).1 mine).undisturbed
  obtain ⟨still,quiet⟩ := sent on dozes
  obtain ⟨before,silent⟩ := wakeAllUndisturbed s.sched o.wakes p on still
  obtain ⟨same,waits,none_⟩ := rested p on c before inside
  refine ⟨same,heeds.keeps c ⟨p,on,before,inside⟩ waits (fun woken => ?_),quiet (silent none_)⟩
  exact wakeAllEmpties s.sched woken p (same ▸ still)

theorem kernelRested {device : Device D C R Q} {idle e} (rested : Rested Waits chan s)
    (taken : s.step device idle (.kernel e) = some t) : Rested Waits chan t := by
  obtain ⟨sched,moved,alone,rfl,dev,_,calls,_⟩ := kernelStep taken
  intro p on c dozes inside
  have before := calls p c inside
  -- whoever is in a call did not do this itself
  have other : own e = true → s.sched.current ≠ some p := by
    intro mine atCurrent
    have free := alone mine
    rw [atCurrent,bind_some,before] at free
    cases free
  obtain ⟨slept,quiet⟩ := stepUndisturbed moved other on dozes
  rw [dev]
  obtain ⟨same,waits,silent⟩ := rested p on c slept before
  exact ⟨same,waits,quiet silent⟩

theorem stepRested {device idle} {e : Event Q} (consistent : Consistent idle s.sched) (rested : Rested Waits chan s)
    (entering : ∀ me q, e = .request q → s.caller idle = some me →
    Heeds (Asleep s) Waits chan s.dev (s.pending me) (device.enter s.dev me (s.pending me) q))
    (resuming : ∀ me call, e = .resume → s.caller idle = some me → s.calls me = some call →
    Heeds (Asleep s) Waits chan s.dev (s.pending me) (device.resume s.dev me (s.pending me) call))
    (forking : ∀ me child c, Waits s.dev c → Waits (device.fork s.dev me child) c)
    (leaving : ∀ me c, s.caller idle = some me → Asleep s c → Waits s.dev c →
    chan c ∉ (device.exit s.dev me).2 → Waits (device.exit s.dev me).1 c)
    (taken : s.step device idle e = some t) : Rested Waits chan t := by
  cases stepDid taken with
  | kernel taken => exact kernelRested rested taken
  | @request me q calls => exact finishRested consistent (callerCurrent calls).1 rested (entering me q rfl calls)
  | @resume me call calls inside =>
    exact finishRested consistent (callerCurrent calls).1 rested (resuming me call rfl calls inside)
  | @unforked place cloned _ _ forked =>
    intro p on c dozes inside
    have undisturbed := forkUndisturbed s.sched place cloned p
    rw [forked] at undisturbed
    obtain ⟨slept,quiet⟩ := undisturbed on dozes
    obtain ⟨same,waits,silent⟩ := rested p on c slept inside
    exact ⟨same,waits,quiet silent⟩
  | @forked me child place cloned _ _ _ forked =>
    intro p on c dozes inside
    have undisturbed := forkUndisturbed s.sched place cloned p
    rw [forked] at undisturbed
    obtain ⟨slept,quiet⟩ := undisturbed on dozes
    have before : s.calls p = some c := by
      by_cases same : p = child
      · subst same; simp at inside
      · simpa [same] using inside
    obtain ⟨same,waits,silent⟩ := rested p on c slept before
    exact ⟨same,forking me child c waits,quiet silent⟩
  | @exit me status calls outside =>
    intro p on c dozes inside
    have other : p ≠ me := by
      rintro rfl
      cases outside.symm.trans inside
    have left := exitTouched sleptSinceMild (callerCurrent calls).1 other status ((device.exit s.dev me).2.map some)
    rw [foldl_map] at left
    obtain ⟨still,quiet⟩ := left.undisturbed on dozes
    obtain ⟨slept,silent⟩ := wakeAllUndisturbed s.sched (device.exit s.dev me).2 p on still
    obtain ⟨same,waits,none_⟩ := rested p on c slept inside
    refine ⟨same,leaving me c calls ⟨p,on,slept,inside⟩ waits (fun woken => ?_),quiet (silent none_)⟩
    exact wakeAllEmpties s.sched woken p (same ▸ still)

end Rest

section Holders
variable {Holds : D → Addr → Prop} {s t : System D C R}

theorem finishAlive {idle me p} (consistent : Consistent idle s.sched)
    (atCurrent : s.sched.current = some me) (o : Outcome D C R) (alive : Scheduler.Alive s.sched p) :
    Scheduler.Alive (s.finish me o).sched p := by
  obtain ⟨_,current⟩ := wokenCurrent consistent atCurrent o.wakes o.raised
  have woken : Scheduler.Alive (raise (wakeAll s.sched o.wakes) me o.raised) p :=
    (alive.touched (wakeAllTouched survivesMild s.sched o.wakes)).touched
      (raiseTouched survivesMild _ me o.raised)
  unfold System.finish
  cases o.next with
  | done answer => exact woken
  | asleep chan call => exact sleepAlive woken current (some chan)

/- Only living processes have something of the device: a call gives to its caller, `fork` to the
child, and `exit` takes everything from the one that exits. -/
theorem stepHolders {device idle} {e : Event Q} (consistent : Consistent idle s.sched)
    (holders : ∀ p, Holds s.dev p → Scheduler.Alive s.sched p)
    (entering : ∀ me pending q p, Holds (device.enter s.dev me pending q).dev p → p = me ∨ Holds s.dev p)
    (resuming : ∀ me pending call p, s.calls me = some call →
    Holds (device.resume s.dev me pending call).dev p → p = me ∨ Holds s.dev p)
    (forking : ∀ me child p, Holds (device.fork s.dev me child) p → p = child ∨ Holds s.dev p)
    (leaving : ∀ me p, Holds (device.exit s.dev me).1 p → p ≠ me ∧ Holds s.dev p)
    (taken : s.step device idle e = some t) : ∀ p, Holds t.dev p → Scheduler.Alive t.sched p := by
  have running me (atCurrent : s.sched.current = some me) : Scheduler.Alive s.sched me :=
    ⟨consistent.currentLive me atCurrent,by rw [consistent.currentRuns me atCurrent]; nofun⟩
  intro p holds
  cases stepDid taken with
  | kernel taken =>
    obtain ⟨sched,moved,_,rfl,dev,_⟩ := kernelStep taken
    rw [dev] at holds
    refine stepAlive (holders p holds) moved (fun status released same => ?_)
    subst same
    cases taken
  | @request me q calls =>
    obtain ⟨atCurrent,_⟩ := callerCurrent calls
    rw [finishDev] at holds
    refine finishAlive consistent atCurrent _ ?_
    rcases entering me _ q p holds with rfl | before
    · exact running p atCurrent
    · exact holders p before
  | @resume me call calls inside =>
    obtain ⟨atCurrent,_⟩ := callerCurrent calls
    rw [finishDev] at holds
    refine finishAlive consistent atCurrent _ ?_
    rcases resuming me _ call p inside holds with rfl | before
    · exact running p atCurrent
    · exact holders p before
  | @unforked _ cloned _ unused forked =>
    have stays := (holders p holds).forked unused cloned
    rwa [forked] at stays
  | @forked me child _ cloned _ _ unused forked =>
    rcases forking me child p holds with rfl | before
    · exact childAlive forked
    have stays := (holders p before).forked unused cloned
    rwa [forked] at stays
  | @exit me status calls =>
    obtain ⟨other,before⟩ := leaving me p holds
    have left := exitTouched survivesMild (callerCurrent calls).1 other status
      ((device.exit s.dev me).2.map some)
    rw [foldl_map] at left
    exact ((holders p before).touched (wakeAllTouched survivesMild s.sched _)).touched left

end Holders
end Calls
end Miviex
