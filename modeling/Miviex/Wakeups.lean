import Miviex.SchedulerRuns

/-! What the scheduler does to one process. A relation between its record before and after is
`Mild` when relinking, waking, running and an unheard signal keep it; an operation keeps it for
the processes it is not about. -/
namespace Miviex.Scheduler

open List

def slumber (x : Process) : ProcessState × Option Addr × Bool := (x.state,x.waitChan,signalPending x)

def pended (x : Process) (sig : Nat) : Process := {x with sigPending := x.sigPending ||| sigBit sig}

structure Mild (rel : Process → Process → Prop) : Prop where
  trans : ∀ x y z, rel x y → rel y z → rel x z
  same : ∀ x y, slumber y = slumber x → rel x y
  up : ∀ x y, y.state = .ready ∨ y.state = .running → rel x y
  unheard : ∀ x sig, ¬ ((pended x sig).state = .blocked ∧ signalPending (pended x sig) = true) → rel x (pended x sig)

structure Touched (rel : Process → Process → Prop) (p : Addr) (s t : Scheduler) : Prop where
  all : t.allProcs = s.allProcs
  at_ : rel (s.procs p) (t.procs p)

section Mild
variable {rel : Process → Process → Prop} {s t u : Scheduler} {p : Addr} (mild : Mild rel)
include mild

theorem Touched.refl (s) : Touched rel p s s := ⟨rfl,mild.same _ _ rfl⟩

theorem Touched.trans (first : Touched rel p s t) (second : Touched rel p t u) : Touched rel p s u :=
  ⟨second.all.trans first.all,mild.trans _ _ _ first.at_ second.at_⟩

theorem Touched.kept (all : t.allProcs = s.allProcs) (same : slumber (t.procs p) = slumber (s.procs p)) :
    Touched rel p s t := ⟨all,mild.same _ _ same⟩

theorem Touched.modify {c f} (fine : p ≠ c ∨ ((f (s.procs c)).state = .ready ∨ (f (s.procs c)).state = .running) ∨
    slumber (f (s.procs c)) = slumber (s.procs c)) : Touched rel p s (s.modify c f) := by
  refine ⟨rfl,?_⟩
  by_cases same : p = c
  · subst same
    have here : (s.modify p f).procs p = f (s.procs p) := by simp [Scheduler.modify]
    rw [here]
    rcases fine with other | up | kept
    · exact absurd rfl other
    · exact mild.up _ _ up
    · exact mild.same _ _ kept
  refine mild.same _ _ ?_
  simp [Scheduler.modify,same]

theorem touchedFold {α : Type} {f} (each : ∀ s x, Touched rel p s (f s x))
    (xs : List α) (s) : Touched rel p s (xs.foldl f s) := by
  induction xs generalizing s with
  | nil => exact Touched.refl mild s
  | cons x rest ih => exact Touched.trans mild (each s x) (ih (f s x))

theorem Relinks.touched (relinks : Relinks s t) : Touched rel p s t := by
  refine Touched.kept mild relinks.all ?_
  obtain ⟨_,_,same⟩ := relinks.procs p
  rw [same]
  rfl

section

variable (s : Scheduler)

theorem requeueTouched (prev) : Touched rel p s (s.requeue prev) := by
  unfold requeue
  cases prev with
  | none => exact Touched.refl mild s
  | some c =>
    dsimp only
    split
    · exact Touched.trans mild (Touched.modify mild (.inr (.inl (.inl rfl)))) ((pushRelinks _ c).touched mild)
    · exact Touched.refl mild s

theorem yieldTouched : Touched rel p s s.schedulerYield := by
  unfold schedulerYield
  have picked : Touched rel p s s.pickNext.2 := (pickRelinks s).touched mild
  cases choice : s.pickNext with
  | mk found popped =>
  rw [choice] at picked
  cases found with
  | none => exact picked
  | some next =>
    have runs : Touched rel p (popped.requeue s.current)
        ((popped.requeue s.current).modify next (fun x => {x with state := .running})) :=
      Touched.modify mild (.inr (.inl (.inr rfl)))
    have ran := Touched.trans mild (Touched.trans mild picked (requeueTouched mild popped s.current)) runs
    exact ⟨ran.all,ran.at_⟩

theorem tickTouched : Touched rel p s s.schedulerTick := by
  unfold schedulerTick
  cases s.current with
  | none => exact Touched.refl mild s
  | some c =>
    have aged : Touched rel p s (s.age c) := Touched.modify mild (.inr (.inr rfl))
    dsimp only
    split
    · exact Touched.trans mild aged (yieldTouched mild _)
    · exact aged

theorem unblockTouched (q) : Touched rel p s (s.unblock q) :=
  Touched.trans mild (Touched.modify mild (.inr (.inl (.inl rfl)))) ((pushRelinks _ q).touched mild)

theorem wakeTouched (q) : Touched rel p s (s.processWake q) := by
  unfold processWake
  split
  · exact unblockTouched mild s q
  · exact Touched.refl mild s

end

theorem wakeupOneTouched (chan s q) : Touched rel p s (wakeupOne chan s q) := by
  unfold wakeupOne
  split
  · exact unblockTouched mild s q
  · exact Touched.refl mild s

theorem wakeupTouched (s : Scheduler) (chan) : Touched rel p s (s.wakeup chan) :=
  touchedFold mild (fun t q => wakeupOneTouched mild chan t q) s.allProcs s

theorem signalSendTouched (s : Scheduler) (q sig) : Touched rel p s (s.signalSend q sig) := by
  unfold signalSend
  cases q with
  | none => exact Touched.refl mild s
  | some q =>
  dsimp only
  split
  · exact Touched.refl mild s
  by_cases same : p = q
  · subst same
    have here : (s.pend p sig).procs p = pended (s.procs p) sig := by simp [pend,modify,pended]
    split
    · rename_i heard
      -- whoever hears the signal is READY afterwards
      unfold processWake
      rw [if_pos heard.1]
      refine ⟨(pushFrame _ p).all,mild.up _ _ (.inl ?_)⟩
      unfold unblock
      rw [(pushFrame _ p).state]
      simp [modify]
    rename_i deaf
    rw [here] at deaf
    refine ⟨rfl,?_⟩
    rw [here]
    exact mild.unheard _ sig deaf
  have sent : Touched rel p s (s.pend q sig) := Touched.modify mild (.inl same)
  split
  · exact Touched.trans mild sent (wakeTouched mild _ q)
  · exact sent

theorem notifyTouched (s : Scheduler) (parent) : Touched rel p s ((s.signalSend parent sigChld).wakeup parent) :=
  Touched.trans mild (signalSendTouched mild s parent sigChld) (wakeupTouched mild _ parent)

theorem adoptOneTouched (me init s q) : Touched rel p s (adoptOne me init s q) := by
  unfold adoptOne
  split
  · have moved : Touched rel p s (s.modify q (fun x => {x with ppid := 1})) := Touched.modify mild (.inr (.inr rfl))
    dsimp only
    split
    · exact Touched.trans mild moved (notifyTouched mild _ init)
    · exact moved
  · exact Touched.refl mild s

theorem disinheritTouched (s : Scheduler) (me init parent) : Touched rel p s (s.disinherit me init parent).2 := by
  unfold disinherit
  cases parent with
  | none => exact Touched.refl mild s
  | some q =>
    dsimp only
    split
    · have left : Touched rel p (s.wakeup (some q))
        ((s.wakeup (some q)).modify me (fun x => {x with ppid := 1})) := Touched.modify mild (.inr (.inr rfl))
      exact Touched.trans mild (wakeupTouched mild s (some q)) left
    · exact Touched.refl mild s

theorem exitTouched {me} (atCurrent : s.current = some me) (other : p ≠ me) (status) (released : List (Option Addr)) :
    Touched rel p (released.foldl wakeup s) (s.schedulerExit status released) := by
  simp only [schedulerExit,atCurrent]
  refine Touched.trans mild ?_ (yieldTouched mild _)
  unfold terminate
  dsimp only
  generalize released.foldl wakeup s = closed
  have opened : Touched rel p closed (closed.modify me (fun x => {x with isUser := false})) :=
    Touched.modify mild (.inr (.inr rfl))
  refine Touched.trans mild opened ?_
  generalize closed.modify me (fun x => {x with isUser := false}) = kernel
  refine Touched.trans mild (touchedFold mild
    (fun t q => adoptOneTouched mild me (s.processFind 1) t q) kernel.allProcs kernel) ?_
  generalize kernel.allProcs.foldl (adoptOne me (s.processFind 1)) kernel = orphaned
  refine Touched.trans mild (disinheritTouched mild orphaned me (s.processFind 1)
    (orphaned.processFind (orphaned.procs me).ppid)) ?_
  generalize orphaned.disinherit me (s.processFind 1) (orphaned.processFind (orphaned.procs me).ppid) = pair
  exact Touched.trans mild (Touched.modify mild (.inl other)) (notifyTouched mild _ pair.1)

theorem sleepTouched {c} (atCurrent : s.current = some c) (chan) :
    (p ≠ c → Touched rel p s (s.sleepOn chan)) ∧ Touched rel p (s.block c chan) (s.sleepOn chan) := by
  simp only [sleepOn,atCurrent]
  refine ⟨fun other => ?_,yieldTouched mild _⟩
  exact Touched.trans mild (Touched.modify mild (.inl other)) (yieldTouched mild _)

theorem inheritTouched (s : Scheduler) (q) : Touched rel p s (s.inherit q) := by
  unfold inherit
  split
  · exact Touched.refl mild s
  · exact Touched.modify mild (.inr (.inr rfl))

end Mild

structure Dozes (s : Scheduler) (p : Addr) (chan : Option Addr) : Prop where
  live : p ∈ s.allProcs
  asleep : (s.procs p).state = .blocked
  on : (s.procs p).waitChan = chan

/- Whoever sleeps afterwards has slept since before, and got no signal it has not blocked. -/
def Undisturbed (s t : Scheduler) (p : Addr) : Prop :=
  ∀ chan, Dozes t p chan → Dozes s p chan ∧ (signalPending (s.procs p) = false → signalPending (t.procs p) = false)

def sleptSince (x y : Process) : Prop :=
  y.state = .blocked → x.state = .blocked ∧ y.waitChan = x.waitChan ∧ (signalPending x = false → signalPending y = false)

theorem sleptSinceMild : Mild sleptSince := by
  refine ⟨fun x y z first second asleep => ?_,fun x y same asleep => ?_,fun x y up asleep => ?_,
    fun x sig deaf asleep => ?_⟩
  · obtain ⟨between,chan,quiet⟩ := second asleep
    obtain ⟨before,on,silent⟩ := first between
    exact ⟨before,chan.trans on,fun none_ => quiet (silent none_)⟩
  · simp only [slumber,Prod.mk.injEq] at same
    obtain ⟨state,chan,signals⟩ := same
    exact ⟨state ▸ asleep,chan,fun none_ => signals ▸ none_⟩
  · rcases up with ready | runs
    · rw [ready] at asleep; contradiction
    · rw [runs] at asleep; contradiction
  refine ⟨asleep,rfl,fun _ => ?_⟩
  by_contra heard
  exact deaf ⟨asleep,by simpa using heard⟩

variable {s t u : Scheduler} {p : Addr}

theorem Undisturbed.trans (first : Undisturbed s t p) (second : Undisturbed t u p) : Undisturbed s u p := by
  intro chan dozes
  obtain ⟨between,quiet⟩ := second chan dozes
  obtain ⟨before,silent⟩ := first chan between
  exact ⟨before,fun none_ => quiet (silent none_)⟩

theorem Touched.undisturbed (touched : Touched sleptSince p s t) : Undisturbed s t p := by
  intro chan dozes
  obtain ⟨asleep,on,quiet⟩ := touched.at_ dozes.asleep
  exact ⟨⟨touched.all ▸ dozes.live,asleep,on ▸ dozes.on⟩,quiet⟩

theorem Undisturbed.refl (s p) : Undisturbed s s p := (Touched.refl sleptSinceMild s).undisturbed

theorem Undisturbed.awake (up : (t.procs p).state ≠ .blocked) : Undisturbed s t p :=
  fun _ dozes => absurd dozes.asleep up

theorem unblockAwake (s : Scheduler) (p) : ((s.unblock p).procs p).state = .ready := by
  unfold unblock
  rw [(pushFrame _ p).state]
  simp [modify]

theorem wakeupEmpties (s : Scheduler) (chan p) : ¬ Dozes (s.wakeup chan) p chan := by
  have passed : ∀ (list : List Addr) (s : Scheduler), p ∈ list → ¬ Dozes (list.foldl (wakeupOne chan) s) p chan := by
    intro list
    induction list with
    | nil => intro s member; cases member
    | cons q rest ih =>
    intro s member dozes
    rcases mem_cons.mp member with same | later
    swap
    · exact ih (wakeupOne chan s q) later dozes
    subst same
    have after : Touched sleptSince p (wakeupOne chan s p) (rest.foldl (wakeupOne chan) (wakeupOne chan s p)) :=
      touchedFold sleptSinceMild (fun t q => wakeupOneTouched sleptSinceMild chan t q) rest _
    have still := (after.undisturbed chan dozes).1
    unfold wakeupOne at still
    split at still
    · have up := unblockAwake s p
      rw [still.asleep] at up
      contradiction
    rename_i stays
    exact stays ⟨still.asleep,still.on⟩
  intro dozes
  exact passed s.allProcs s ((wakeupTouched sleptSinceMild s chan).undisturbed chan dozes).1.live dozes

theorem modifySignals {c f} (keeps : signalPending (f (s.procs c)) = signalPending (s.procs c)) (p) :
    signalPending ((s.modify c f).procs p) = signalPending (s.procs p) := by
  by_cases same : p = c
  · subst same
    simpa [modify] using keeps
  · simp [modify,same]

theorem unblockSignals (s : Scheduler) (q p) : signalPending ((s.unblock q).procs p) = signalPending (s.procs p) := by
  unfold unblock
  generalize marked : s.modify q (fun x => {x with waitChan := none, state := .ready}) = u
  have before : signalPending (u.procs p) = signalPending (s.procs p) := by
    rw [← marked]
    exact modifySignals rfl p
  rw [← before]
  obtain ⟨_,_,same⟩ := (pushRelinks u q).procs p
  rw [same]
  rfl

theorem wakeupSignals (s : Scheduler) (chan p) : signalPending ((s.wakeup chan).procs p) = signalPending (s.procs p) := by
  refine foldlRecOn s.allProcs (wakeupOne chan) (b := s)
    (motive := fun t => signalPending (t.procs p) = signalPending (s.procs p)) rfl ?_
  intro t same q _
  unfold wakeupOne
  split
  · exact (unblockSignals t q p).trans same
  · exact same

variable {q : Addr} {x : Process} {place : Option Addr}

theorem enrolledUndisturbed (ready : x.state = .ready) (p) : Undisturbed s (s.enroll q x) p := by
  by_cases same : p = q
  · subst same
    exact Undisturbed.awake (by simp [enroll,ready])
  intro chan dozes
  have record : (s.enroll q x).procs p = s.procs p := by simp [enroll,same]
  have live : p ∈ s.allProcs := (mem_cons.mp dozes.live).resolve_left same
  rw [record]
  exact ⟨⟨live,record ▸ dozes.asleep,record ▸ dozes.on⟩,fun quiet => quiet⟩

theorem enrollUndisturbed (ready : x.state = .ready) (p) : Undisturbed s ((s.enroll q x).queuePushBack q) p :=
  (enrolledUndisturbed ready p).trans ((pushRelinks _ q).touched sleptSinceMild).undisturbed

theorem createUndisturbed (s : Scheduler) (place priority p) :
    Undisturbed s (s.processCreate place priority).2 p ∧ Undisturbed s (s.processCreateUser place priority).2 p := by
  unfold processCreate processCreateUser
  cases allocated : s.processAlloc place priority with
  | none => exact ⟨Undisturbed.refl s p,Undisturbed.refl s p⟩
  | some pair =>
    obtain ⟨q,t⟩ := pair
    obtain ⟨_,x,rfl,ready,_⟩ := allocEnrolls allocated
    dsimp only
    rw [enrollModify]
    refine ⟨enrollUndisturbed ready p,enrollUndisturbed ?_ p⟩
    exact ready

theorem reapUndisturbed (s : Scheduler) (q p) : Undisturbed s (s.processReap q) p := by
  refine (inheritTouched sleptSinceMild s q).undisturbed.trans (fun chan dozes => ?_)
  exact ⟨⟨mem_of_mem_erase dozes.live,dozes.asleep,dozes.on⟩,fun quiet => quiet⟩

theorem forkPlace {cloned child} (forked : s.processFork place cloned = (some child,t)) : place = some child := by
  have ends := forkEnds s place cloned
  rw [forked] at ends
  cases ends
  rfl

theorem forkUndisturbed (s : Scheduler) (place cloned p) : Undisturbed s (s.processFork place cloned).2 p := by
  have ends := forkEnds s place cloned
  generalize s.processFork place cloned = result at ends ⊢
  cases ends with
  | nothing => exact Undisturbed.refl s p
  | @failed q x ready => exact (enrolledUndisturbed ready p).trans (reapUndisturbed _ q p)
  | born ready => exact enrollUndisturbed ready p

def own : Event → Bool
  | .sleepOn _ => true
  | .signals _ _ _ => true
  | .exit _ _ => true
  | _ => false

theorem stepUndisturbed {idle e} (taken : step idle s e = some t)
    (other : own e = true → s.current ≠ some p) : Undisturbed s t p := by
  cases stepSteps taken with
  | create fresh => exact (createUndisturbed s _ _ p).1
  | createUser fresh => exact (createUndisturbed s _ _ p).2
  | start | yield => exact (yieldTouched sleptSinceMild s).undisturbed
  | tick => exact (tickTouched sleptSinceMild s).undisturbed
  | sleepOn atCurrent notIdle =>
    refine ((sleepTouched sleptSinceMild atCurrent _).1 (fun same => ?_)).undisturbed
    exact other rfl (same ▸ atCurrent)
  | wake live => exact (wakeTouched sleptSinceMild s _).undisturbed
  | wakeup => exact (wakeupTouched sleptSinceMild s _).undisturbed
  | send live => exact (signalSendTouched sleptSinceMild s (some _) _).undisturbed
  | signals atCurrent =>
    refine (Touched.modify sleptSinceMild (.inl (fun same => ?_))).undisturbed
    exact other rfl (same ▸ atCurrent)
  | fork atCurrent fresh => exact forkUndisturbed s _ _ p
  | @exit c status released atCurrent notIdle notInit =>
    have apart : p ≠ c := fun same => other rfl (same ▸ atCurrent)
    have woken : Touched sleptSince p s (released.foldl wakeup s) :=
      touchedFold sleptSinceMild (fun t chan => wakeupTouched sleptSinceMild t chan) released s
    exact (Touched.trans sleptSinceMild woken (exitTouched sleptSinceMild atCurrent apart status released)).undisturbed
  | reap dead => exact reapUndisturbed s _ p

structure Alive (s : Scheduler) (p : Addr) : Prop where
  live : p ∈ s.allProcs
  awake : (s.procs p).state ≠ .terminated

def survives (x y : Process) : Prop := x.state ≠ .terminated → y.state ≠ .terminated

theorem survivesMild : Mild survives := by
  refine ⟨fun x y z first second alive => second (first alive),fun x y same alive => ?_,fun x y up _ => ?_,
    fun x sig _ alive => alive⟩
  · simp only [slumber,Prod.mk.injEq] at same
    rw [same.1]
    exact alive
  rcases up with ready | runs
  · rw [ready]; nofun
  · rw [runs]; nofun

section

variable (alive : Alive s p)
include alive

theorem Alive.touched (touched : Touched survives p s t) : Alive t p :=
  ⟨touched.all ▸ alive.live,touched.at_ alive.awake⟩

theorem Alive.enrolled (fresh : q ∉ s.allProcs) : Alive (s.enroll q x) p := by
  have other : p ≠ q := fun same => fresh (same ▸ alive.live)
  exact ⟨mem_cons_of_mem q alive.live,by simpa [enroll,other] using alive.awake⟩

theorem Alive.reaped (other : p ≠ q) : Alive (s.processReap q) p := by
  have inherited : Alive (s.inherit q) p := alive.touched (inheritTouched survivesMild s q)
  exact ⟨(mem_erase_of_ne other).mpr inherited.live,inherited.awake⟩

theorem Alive.created (fresh : s.unused place = true) (priority) :
    Alive (s.processCreate place priority).2 p ∧ Alive (s.processCreateUser place priority).2 p := by
  unfold processCreate processCreateUser
  cases allocated : s.processAlloc place priority with
  | none => exact ⟨alive,alive⟩
  | some pair =>
  obtain ⟨q,t⟩ := pair
  obtain ⟨rfl,x,rfl,_⟩ := allocEnrolls allocated
  have new := unusedFresh fresh
  dsimp only
  rw [enrollModify]
  exact ⟨(alive.enrolled new).touched ((pushRelinks _ q).touched survivesMild),
    (alive.enrolled new).touched ((pushRelinks _ q).touched survivesMild)⟩

theorem Alive.forked (fresh : s.unused place = true) (cloned) : Alive (s.processFork place cloned).2 p := by
  have ends := forkEnds s place cloned
  generalize s.processFork place cloned = result at ends ⊢
  cases ends with
  | nothing => exact alive
  | failed =>
    have new := unusedFresh fresh
    exact (alive.enrolled new).reaped (fun same => new (same ▸ alive.live))
  | @born q => exact (alive.enrolled (unusedFresh fresh)).touched ((pushRelinks _ q).touched survivesMild)

end

theorem enrollAlive (ready : x.state = .ready) : Alive ((s.enroll q x).queuePushBack q) q := by
  have frame := pushFrame (s.enroll q x) q
  refine ⟨?_,?_⟩
  · rw [frame.all]; exact mem_cons_self
  · rw [frame.state]; simp [enroll,ready]

theorem createdAlive (s : Scheduler) (p priority) : Alive (s.processCreateUser (some p) priority).2 p := by
  cases allocated : s.processAlloc (some p) priority with
  | none => cases allocated
  | some made =>
    obtain ⟨q,t⟩ := made
    obtain ⟨place,x,rfl,ready,_⟩ := allocEnrolls allocated
    cases place
    simp only [processCreateUser,allocated]
    rw [enrollModify]
    exact enrollAlive ready

theorem childAlive {cloned child} (forked : s.processFork place cloned = (some child,t)) : Alive t child := by
  have ends := forkEnds s place cloned
  rw [forked] at ends
  cases ends with
  | born ready => exact enrollAlive ready

theorem sleepAlive {c} (alive : Alive s p) (atCurrent : s.current = some c) (chan) : Alive (s.sleepOn chan) p := by
  have blocked : Alive (s.block c chan) p := by
    refine ⟨alive.live,?_⟩
    by_cases same : p = c
    · subst same; simp [block,modify]
    · simpa [block,modify,same] using alive.awake
  exact blocked.touched (sleepTouched survivesMild atCurrent chan).2

theorem stepAlive {idle e} (alive : Alive s p) (taken : step idle s e = some t)
    (stays : ∀ status released, e = .exit status released → s.current ≠ some p) : Alive t p := by
  cases stepSteps taken with
  | create fresh => exact (alive.created fresh _).1
  | createUser fresh => exact (alive.created fresh _).2
  | start | yield => exact alive.touched (yieldTouched survivesMild s)
  | tick => exact alive.touched (tickTouched survivesMild s)
  | sleepOn atCurrent notIdle => exact sleepAlive alive atCurrent _
  | wake live => exact alive.touched (wakeTouched survivesMild s _)
  | wakeup => exact alive.touched (wakeupTouched survivesMild s _)
  | send live => exact alive.touched (signalSendTouched survivesMild s (some _) _)
  | @signals c sigact pending blocked atCurrent =>
    refine ⟨alive.live,?_⟩
    by_cases same : p = c
    · subst same; simpa [modify] using alive.awake
    · simpa [modify,same] using alive.awake
  | fork atCurrent fresh => exact alive.forked fresh _
  | @exit c status released atCurrent notIdle notInit =>
    have apart : p ≠ c := fun same => stays status released rfl (same ▸ atCurrent)
    have woken : Touched survives p s (released.foldl wakeup s) :=
      touchedFold survivesMild (fun t chan => wakeupTouched survivesMild t chan) released s
    exact alive.touched (Touched.trans survivesMild woken (exitTouched survivesMild atCurrent apart status released))
  | reap dead => exact alive.reaped (fun same => alive.awake (same ▸ dead))

end Miviex.Scheduler
