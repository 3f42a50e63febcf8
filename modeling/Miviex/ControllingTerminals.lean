import Miviex.Sessions

/-! Who holds which terminal. A session holds at most one: only its leader may take a terminal,
and only while no member of the session holds one. -/
namespace Miviex.Jobs
open Option Nat Runs Scheduler Runs
open Function (update update_idem update_of_ne update_self)

variable {records : Records} {s t u : Jobs} {me a : Addr}

def endless (idle : Addr) (s : Jobs) : Event → Option Jobs
  | .fork place cloned => s.caller.bind (fun me =>
      if s.sched.unused place then some (s.fork me place cloned) else none)
  | e => s.step idle e

def Reuses (s : Jobs) : Event → Prop
  | .fork (some _) _ => 2^32 ≤ s.forks+2
  | _ => False

variable {e : Event} {x : Addr} {priority : Nat}

theorem endlessStep {idle} (room : s.forks+2 ≤ 2^32) (taken : s.endless idle e = some t) : step idle s e = some t := by
  cases e with
  | fork place cloned =>
    simp only [endless,bind_eq_some_iff,ite_none_right_eq_some,Option.some.injEq] at taken
    obtain ⟨me,called,unused,rfl⟩ := taken
    have bounded : s.sched.unused place = true ∧ s.forks + 1 < 2^32 := ⟨unused,by omega⟩
    simp only [step,called,bind_some,if_pos bounded]
  | _ => exact taken

/- The leader of a session holds what its members hold, members hold the same, and a
session is named by its leader as long as that lives. -/
structure Controlled (s : Jobs) : Prop where
  session : ∀ p ∈ s.sched.allProcs, ∀ a, s.ctty p = some a → (s.sched.who p).sid = (s.tty a).sid ∧ (s.sched.who p).sid ≠ 0
  leads : ∀ p, Active s.sched p → (s.sched.who p).sid = (s.sched.who p).pid →
    ∀ q ∈ s.sched.allProcs, (s.sched.who q).sid = (s.sched.who p).sid → ∀ a, s.ctty q = some a → s.ctty p = some a
  one : ∀ p ∈ s.sched.allProcs, ∀ q ∈ s.sched.allProcs, (s.sched.who p).sid = (s.sched.who q).sid →
    ∀ a b, s.ctty p = some a → s.ctty q = some b → a = b
  named : ∀ p, Active s.sched p → ∀ q ∈ s.sched.allProcs, (s.sched.who q).sid = (s.sched.who p).pid →
    (s.sched.who p).sid = (s.sched.who p).pid

structure Settled (s t : Scheduler) : Prop where
  live : ∀ p ∈ t.allProcs, p ∈ s.allProcs
  pid : ∀ p ∈ t.allProcs, (t.who p).pid = (s.who p).pid
  sid : ∀ p ∈ t.allProcs, (t.who p).sid = (s.who p).sid
  active : ∀ p, Active t p → Active s p

theorem Carried.settled {s t} (carried : Carried s t) : Settled s t :=
  ⟨carried.live,carried.pid,carried.sid,carried.active⟩

structure Held (s t : Jobs) : Prop where
  ctty : t.ctty = s.ctty
  sid : ∀ a, (t.tty a).sid = (s.tty a).sid

theorem Held.refl (s) : Held s s := ⟨rfl,fun _ => rfl⟩

theorem Held.trans (first : Held s t) (second : Held t u) : Held s u :=
  ⟨second.ctty.trans first.ctty,fun a => (second.sid a).trans (first.sid a)⟩

section

variable (controlled : Controlled s)
include controlled

theorem Controlled.descends {n k p} (below : ∀ y ∈ s.sched.allProcs, (s.sched.who y).sid.toNat < n)
    (stems : ∀ x ∈ t.sched.allProcs, ∃ y, Stems s.sched t.sched n k p x y ∧ t.ctty x = s.ctty y)
    (tty : ∀ a, (t.tty a).sid = (s.tty a).sid) : Controlled t := by
  -- a process whose pid names a session was there before
  have leader x (hx : Active t.sched x) y (live : y ∈ s.sched.allProcs) (same : (s.sched.who y).sid = (t.sched.who x).pid) :
      Active s.sched x ∧ (t.sched.who x).sid = (s.sched.who x).sid ∧ (t.sched.who x).pid = (s.sched.who x).pid ∧
      t.ctty x = s.ctty x := by
    obtain ⟨z,stem,holds⟩ := stems x hx.live
    rcases stem.pid with ⟨rfl,pid⟩ | ⟨_,number,_⟩
    · exact ⟨stem.active hx,stem.sid,pid,holds⟩
    have bound := below y live
    rw [same] at bound
    omega
  refine ⟨?_,?_,?_,?_⟩
  · intro x live b holds
    obtain ⟨y,stem,ctty⟩ := stems x live
    rw [stem.sid,tty]
    exact controlled.session y stem.live b (ctty ▸ holds)
  · intro x hx leads z live same b holds
    obtain ⟨y,stem,ctty⟩ := stems z live
    rw [stem.sid] at same
    obtain ⟨before,sid,pid,holder⟩ := leader x hx y stem.live (same.trans leads)
    rw [holder]
    exact controlled.leads x before (sid.symm.trans (leads.trans pid)) y stem.live (same.trans sid) b (ctty ▸ holds)
  · intro x liveX z liveZ same b c holdsX holdsZ
    obtain ⟨y,stemX,cttyX⟩ := stems x liveX
    obtain ⟨w,stemZ,cttyZ⟩ := stems z liveZ
    rw [stemX.sid,stemZ.sid] at same
    exact controlled.one y stemX.live w stemZ.live same b c (cttyX ▸ holdsX) (cttyZ ▸ holdsZ)
  intro x hx z live same
  obtain ⟨y,stem,_⟩ := stems z live
  rw [stem.sid] at same
  obtain ⟨before,sid,pid,_⟩ := leader x hx y stem.live same
  rw [sid,pid]
  exact controlled.named x before y stem.live (same.trans pid)

theorem Controlled.held (settled : Settled s.sched t.sched) (held : Held s t) : Controlled t := by
  refine controlled.descends (p := 0) (k := 0) (fun y _ => (s.sched.who y).sid.toNat_lt) (fun x here => ⟨x,?_,?_⟩) held.sid
  · exact ⟨settled.live x here,settled.sid x here,settled.active x,.inl ⟨rfl,settled.pid x here⟩⟩
  · rw [held.ctty]

theorem Controlled.disowned (a) : Controlled (s.disown a) := by
  have before p (live : p ∈ s.sched.allProcs) b (holds : (s.disown a).ctty p = some b) : s.ctty p = some b ∧ b ≠ a := by
    unfold disown at holds
    dsimp only at holds
    split at holds
    · cases holds
    rename_i kept
    refine ⟨holds,fun same => kept ⟨live,?_⟩⟩
    rw [holds,same]
  refine ⟨?_,?_,?_,controlled.named⟩
  · intro p live b holds
    obtain ⟨old,other⟩ := before p live b holds
    have owner : (s.disown a).tty b = s.tty b := update_of_ne other _ _
    rw [owner]
    exact controlled.session p live b old
  · intro p active leader q live same b holds
    obtain ⟨old,other⟩ := before q live b holds
    have leads := controlled.leads p active leader q live same b old
    unfold disown
    dsimp only
    rw [if_neg]
    · exact leads
    rintro ⟨_,given⟩
    exact other (Option.some.inj (leads.symm.trans given))
  intro p liveP q liveQ same b c holdsP holdsQ
  exact controlled.one p liveP q liveQ same b c (before p liveP b holdsP).1 (before q liveQ c holdsQ).1

theorem Controlled.taken (active : Active s.sched me) (unique : ∀ p, Active s.sched p →
    (s.sched.who p).pid = (s.sched.who me).pid → p = me) (nonzero : (s.sched.who me).pid ≠ 0)
    (leader : (s.sched.who me).sid = (s.sched.who me).pid) (empty : s.ctty me = none)
    (free : (s.tty a).sid = 0) : Controlled (s.takeTty me a) := by
  have members q (live : q ∈ s.sched.allProcs) (same : (s.sched.who q).sid = (s.sched.who me).sid) : s.ctty q = none := by
    cases holds : s.ctty q with
    | none => rfl
    | some b =>
      have mine := controlled.leads me active leader q live same b holds
      rw [empty] at mine
      cases mine
  have mine : (s.takeTty me a).ctty me = some a := update_self _ _ _
  have theirs p (other : p ≠ me) : (s.takeTty me a).ctty p = s.ctty p := update_of_ne other _ _
  have owner : ((s.takeTty me a).tty a).sid = (s.sched.who me).sid := by
    unfold takeTty
    dsimp only
    rw [update_self]
    rfl
  refine ⟨?_,?_,?_,controlled.named⟩
  · intro p live b holds
    by_cases self : p = me
    · subst self
      rw [mine] at holds
      cases holds
      exact ⟨owner.symm,fun zero => nonzero (leader.symm.trans zero)⟩
    rw [theirs p self] at holds
    obtain ⟨session,set⟩ := controlled.session p live b holds
    have other : b ≠ a := by
      rintro rfl
      exact set (session.trans free)
    have kept : (s.takeTty me a).tty b = s.tty b := update_of_ne other _ _
    rw [kept]
    exact ⟨session,set⟩
  · intro p hp leads q live same b holds
    by_cases self : q = me
    · subst self
      rw [mine] at holds
      have atLeader : p = q := unique p hp (leads.symm.trans (same.symm.trans leader))
      rw [atLeader,mine]
      exact holds
    rw [theirs q self] at holds
    have held := controlled.leads p hp leads q live same b holds
    by_cases atLeader : p = me
    · rw [atLeader,empty] at held
      cases held
    rw [theirs p atLeader]
    exact held
  intro p liveP q liveQ same b c holdsP holdsQ
  by_cases selfP : p = me <;> by_cases selfQ : q = me
  · subst selfP selfQ
    exact Option.some.inj (holdsP.symm.trans holdsQ)
  · rw [theirs q selfQ,members q liveQ (selfP ▸ same.symm)] at holdsQ
    cases holdsQ
  · rw [theirs p selfP,members p liveP (selfQ ▸ same)] at holdsP
    cases holdsP
  rw [theirs p selfP] at holdsP
  rw [theirs q selfQ] at holdsQ
  exact controlled.one p liveP q liveQ same b c holdsP holdsQ

theorem Controlled.dropped (follower : (s.sched.who me).sid ≠ (s.sched.who me).pid) :
    Controlled {s with ctty := update s.ctty me none} := by
  have before p b (holds : update s.ctty me none p = some b) : s.ctty p = some b := by
    by_cases self : p = me
    · rw [self,update_self] at holds
      cases holds
    · rwa [update_of_ne self] at holds
  refine ⟨fun p live b holds => controlled.session p live b (before p b holds),?_,?_,controlled.named⟩
  · intro p active leads q live same b holds
    have other : p ≠ me := fun self => follower (self ▸ leads)
    show update s.ctty me none p = some b
    rw [update_of_ne other]
    exact controlled.leads p active leads q live same b (before q b holds)
  intro p liveP q liveQ same b c holdsP holdsQ
  exact controlled.one p liveP q liveQ same b c (before p b holdsP) (before q c holdsQ)

/- The new session has no member but its leader: a pid names a session only as long as
its process leads it, and a leader is refused. -/
theorem Controlled.started (active : Active s.sched me)
    (unique : ∀ p, Active s.sched p → (s.sched.who p).pid = (s.sched.who me).pid → p = me)
    (follower : (s.sched.who me).sid ≠ (s.sched.who me).pid) : Controlled {s with
      sched := leading s.sched me
      ctty := update s.ctty me none} := by
  have pids x : ((leading s.sched me).who x).pid = (s.sched.who x).pid := (leadingKeeps s.sched me x).1
  have mine : ((leading s.sched me).who me).sid = (s.sched.who me).pid := by rw [leadingWho,if_pos rfl]
  have theirs x (other : x ≠ me) : ((leading s.sched me).who x).sid = (s.sched.who x).sid := by
    rw [leadingWho,if_neg other]
  have awake x (hx : Active (leading s.sched me) x) : Active s.sched x := leadingActive hx
  have alone : ∀ q ∈ s.sched.allProcs, (s.sched.who q).sid ≠ (s.sched.who me).pid := fun q live same =>
    follower (controlled.named me active q live same)
  have holder p b (holds : update s.ctty me none p = some b) : p ≠ me ∧ s.ctty p = some b := by
    by_cases self : p = me
    · rw [self,update_self] at holds
      cases holds
    rw [update_of_ne self] at holds
    exact ⟨self,holds⟩
  refine ⟨?_,?_,?_,?_⟩
  · intro p live b holds
    obtain ⟨other,old⟩ := holder p b holds
    rw [theirs p other]
    exact controlled.session p live b old
  · intro p hp leads q live same b holds
    obtain ⟨other,old⟩ := holder q b holds
    have elsewhere : p ≠ me := by
      rintro rfl
      exact alone q live ((theirs q other).symm.trans (same.trans mine))
    have leads' : (s.sched.who p).sid = (s.sched.who p).pid := (theirs p elsewhere).symm.trans (leads.trans (pids p))
    have same' : (s.sched.who q).sid = (s.sched.who p).sid :=
      (theirs q other).symm.trans (same.trans (theirs p elsewhere))
    show update s.ctty me none p = some b
    rw [update_of_ne elsewhere]
    exact controlled.leads p (awake p hp) leads' q live same' b old
  · intro p liveP q liveQ same b c holdsP holdsQ
    obtain ⟨otherP,oldP⟩ := holder p b holdsP
    obtain ⟨otherQ,oldQ⟩ := holder q c holdsQ
    exact controlled.one p liveP q liveQ ((theirs p otherP).symm.trans (same.trans (theirs q otherQ))) b c oldP oldQ
  intro p hp q live same
  by_cases self : p = me
  · rw [self]
    exact mine.trans (pids me).symm
  have same' := same.trans (pids p)
  have other : q ≠ me := by
    rintro rfl
    exact self (unique p (awake p hp) (same'.symm.trans mine))
  refine (theirs p self).trans (Eq.trans ?_ (pids p).symm)
  exact controlled.named p (awake p hp) q live ((theirs q other).symm.trans same')

end

theorem setTtyHeld {x} (owner : x.sid = (s.tty a).sid) : Held s (s.setTty a x) := by
  refine ⟨rfl,fun b => ?_⟩
  by_cases same : b = a
  · subst same
    have updated : (s.setTty b x).tty b = x := update_self _ _ _
    rw [updated]
    exact owner
  have kept : (s.setTty a x).tty b = s.tty b := update_of_ne same _ _
  rw [kept]

theorem wakeReadersHeld (s : Jobs) (a woken) : Held s (s.wakeReaders a woken) := by
  unfold wakeReaders
  split
  · exact ⟨rfl,fun _ => rfl⟩
  · exact Held.refl s

theorem signalForegroundHeld (s : Jobs) (a sig) : Held s (s.signalForeground a sig) := by
  unfold signalForeground
  split
  · exact Held.refl s
  · exact ⟨rfl,fun _ => rfl⟩

theorem ttyInputHeld (s : Jobs) (a c) : Held s (s.ttyInput a c) := by
  unfold ttyInput
  dsimp only
  split
  · exact (setTtyHeld (Tty.echoSilent (s.tty a).flushInput _).owner.1).trans (signalForegroundHeld _ a _)
  · exact (setTtyHeld (Tty.receiveOwner (s.tty a) _).1).trans (wakeReadersHeld _ a _)

theorem sysVhangupHeld (s : Jobs) (p root) : Held s (s.sysVhangup p root).2 := by
  unfold sysVhangup
  split
  · exact Held.refl s
  split
  · exact Held.refl s
  rename_i a _
  have cleared : (s.tty a).hangup.sid = (s.tty a).sid := rfl
  exact ((setTtyHeld cleared).trans (signalForegroundHeld _ a sigHup)).trans (wakeReadersHeld _ a true)

inductive Exchange (s : Jobs) (me a : Addr) : Jobs → Prop where
  | held {t : Jobs} (held : Held s t) : Exchange s me a t
  | taken (leader : (s.sched.who me).sid = (s.sched.who me).pid) (empty : s.ctty me = none)
      (free : (s.tty a).sid = 0) : Exchange s me a (s.takeTty me a)
  | stolen (leader : (s.sched.who me).sid = (s.sched.who me).pid) (empty : s.ctty me = none) :
      Exchange s me a ((s.disown a).takeTty me a)
  | disowned : Exchange s me a (s.disown a)
  | dropped (follower : (s.sched.who me).sid ≠ (s.sched.who me).pid) :
      Exchange s me a {s with ctty := update s.ctty me none}

theorem ttyIoctlExchange (s : Jobs) (me a mapped req) : Exchange s me a (s.ttyIoctl me a mapped req).2 := by
  have same : Exchange s me a s := .held (Held.refl s)
  unfold ttyIoctl
  split
  · exact same
  cases req with
  | tcsets flush termios =>
    refine .held ((setTtyHeld ?_).trans (wakeReadersHeld _ a _))
    cases flush with
    | true => exact (Tty.setTermiosOwner (s.tty a).flushInput termios).1
    | false => exact (Tty.setTermiosOwner (s.tty a) termios).1
  | tcflsh arg =>
    dsimp only
    split
    · exact .held (setTtyHeld rfl)
    · exact same
  | tiocswinsz rows cols =>
    dsimp only
    split
    · have resized : ({s.tty a with rows := rows, cols := cols} : Tty).sid = (s.tty a).sid := rfl
      exact .held ((setTtyHeld resized).trans (signalForegroundHeld _ a sigWinch))
    · exact same
  | tiocsctty arg root =>
    dsimp only
    split
    · exact same
    split
    · exact same
    rename_i refused
    rw [not_or,not_not,not_not] at refused
    split
    · split
      · exact same
      · exact .stolen refused.1 refused.2
    rename_i free
    exact .taken refused.1 refused.2 (not_not.mp free)
  | tiocnotty =>
    dsimp only
    split
    · exact same
    split
    · exact .disowned
    rename_i follower
    exact .dropped follower
  | tiocspgrp pgrp =>
    dsimp only
    split
    · exact same
    have named : ({s.tty a with pgrp := pgrp} : Tty).sid = (s.tty a).sid := rfl
    exact .held (setTtyHeld named)
  | tiocgsid =>
    dsimp only
    split
    · exact same
    · exact same
  | _ => exact same

theorem Exchange.controlled (exchange : Exchange s me a t) (controlled : Controlled s) (settled : Settled s.sched t.sched)
    (active : Active s.sched me) (unique : ∀ p, Active s.sched p → (s.sched.who p).pid = (s.sched.who me).pid → p = me)
    (nonzero : (s.sched.who me).pid ≠ 0) : Controlled t := by
  cases exchange with
  | held held => exact controlled.held settled held
  | taken leader empty free => exact controlled.taken active unique nonzero leader empty free
  | stolen leader empty =>
    have released : (s.disown a).ctty me = none := by
      unfold disown
      dsimp only
      split
      · rfl
      · exact empty
    have free : ((s.disown a).tty a).sid = 0 := by
      unfold disown
      dsimp only
      rw [update_self]
    exact (controlled.disowned a).taken active unique nonzero leader released free
  | disowned => exact controlled.disowned a
  | dropped follower => exact controlled.dropped follower

structure Numbered (records : Records) (s : Jobs) : Prop where
  family : Family records s
  room : s.forks+2 ≤ 2^32
  grouped : Grouped s.sched (s.forks+2)
  controlled : Controlled s

theorem Numbered.nonzero (good : Numbered records s) (active : Active s.sched me) : (s.sched.who me).pid ≠ 0 := by
  intro zero
  have notIdle : me ≠ records.idle := by
    rintro rfl
    have user := active.user
    rw [good.family.idleKernel] at user
    cases user
  have full := (good.family.old me active.live notIdle).2 zero
  have room := good.room
  omega

theorem groupSettled (s : Scheduler) (p group) : Settled s (intoGroup s p group) := by
  have kept := intoGroupKeeps s p group
  exact ⟨fun _ here => here,fun x _ => (kept x).1,fun x _ => (kept x).2.1,fun x active =>
    ⟨active.live,(kept x).2.2.1.symm.trans active.user,(kept x).2.2.2.symm.trans active.awake⟩⟩

theorem turnSettled (turn : Turn records s e t) (noFork : ∀ place cloned, e ≠ .fork place cloned)
    (noSession : e ≠ .setsid) : Settled s.sched t.sched := by
  cases turn with
  | quiet restyled forks reaped other => exact (restyledCarried restyled).settled
  | exit atCurrent notIdle notInit exited => exact (exitCarried exited).settled
  | fork => exact absurd rfl (noFork _ _)
  | reap => exact (reapCarried s.sched _).settled
  | group => exact groupSettled s.sched _ _
  | session => exact absurd rfl noSession

theorem forkControlled {place cloned} (good : Numbered records s)
    (called : s.caller = some me) (unused : s.sched.unused place = true)
    (fresh : ¬ Reuses s (.fork place cloned)) : Controlled (s.fork me place cloned) := by
  have forked := forkForked (callerCurrent called).1 cloned unused (callerActive good.family.consistent called).live
  have small (given : place.isSome = true) : s.forks+2 < 2^32 := by
    obtain ⟨p,rfl⟩ := isSome_iff_exists.mp given
    exact Nat.lt_of_not_le fresh
  have stems := forkDescends good.family called small forked
  refine good.controlled.descends (fun y live => (good.grouped.given y live).2.2) (fun x here => ?_) (fun _ => rfl)
    (p := place.getD 0) (k := (if place.isSome then s.forks + 1 else s.forks) + 2)
  obtain ⟨y,stem,which⟩ := stems x here
  refine ⟨y,stem.toStems,?_⟩
  unfold fork
  dsimp only
  rcases which with ⟨born,rfl⟩ | ⟨other,rfl⟩
  · rw [born]
    exact update_self _ _ _
  cases made : (s.sched.processFork place cloned).1 with
  | some child =>
    have differ : y ≠ child := fun same => other (made.trans (congrArg some same.symm))
    exact update_of_ne differ _ _
  | none => rfl

theorem stepNumbered (good : Numbered records s) (fresh : ¬ Reuses s e)
    (endlessly : s.endless records.idle e = some t) : Numbered records t := by
  have taken := endlessStep good.room endlessly
  have turn := good.family.turn taken
  have small place cloned (forks : e = .fork (some place) cloned) : s.forks+2 < 2^32 := by
    rw [forks] at fresh
    exact Nat.lt_of_not_le fresh
  have room := turnRoom good.room small turn
  refine ⟨stepFamily good.family taken,room,stepGrouped good.family good.grouped taken room,?_⟩
  have settled := turnSettled turn
  have quiet (u : Jobs) (settled : Settled s.sched u.sched) (ctty : u.ctty = s.ctty) (tty : u.tty = s.tty) :
      Controlled u :=
    good.controlled.held settled ⟨ctty,fun a => by rw [tty]⟩
  cases stepSteps taken with
  | kernel | sigaction | wait4 | setpgid => exact quiet _ (settled nofun nofun) rfl rfl
  | fork called unused room => exact forkControlled good called unused fresh
  | @setsid me called =>
    have active := callerActive good.family.consistent called
    rcases setsidCases s me with same | ⟨free,moved⟩
    · rw [same]
      exact good.controlled
    rw [moved]
    refine good.controlled.started active (fun p hp same => good.grouped.unique p me hp active same) ?_
    intro leader
    exact free me active.live active.user (good.grouped.leader me active.live leader)
  | @ioctl me a mapped req called =>
    have active := callerActive good.family.consistent called
    exact (ttyIoctlExchange s me a mapped req).controlled good.controlled (settled nofun nofun) active
      (fun p hp same => good.grouped.unique p me hp active same) (good.nonzero active)
  | typed => exact good.controlled.held (settled nofun nofun) (ttyInputHeld s _ _)
  | vhangup called => exact good.controlled.held (settled nofun nofun) (sysVhangupHeld s _ _)

theorem bootNumbered (records) : Numbered records (boot records) := by
  refine ⟨bootFamily records,by show 0 + 2 ≤ 2^32; decide,bootGrouped records,?_,?_,?_,?_⟩
  · intro p _ a holds
    cases holds
  · intro p _ _ q _ _ a holds
    cases holds
  · intro p _ q _ _ a b holds
    cases holds
  intro p active q live same
  obtain ⟨all,_,idle,init⟩ := bootWho records
  have member x (here : x ∈ (boot records).sched.allProcs) : x = records.init ∨ x = records.idle := by
    rw [all] at here
    simpa using here
  rcases member p active.live with first | second
  · rw [first,init]
  have user := active.user
  rw [second,idle] at user
  cases user

/- In every run that gives out no pid twice. -/
theorem controllingTerminals (records : Records) (events : List Event)
    (fresh : ∀ m ∈ moves (endless records.idle) (boot records) events, ¬ Reuses m.1 m.2) :
    ∀ s ∈ visited (endless records.idle) (boot records) events,
    (∀ p ∈ s.sched.allProcs, ∀ a, s.ctty p = some a → (s.sched.procs p).sid = (s.tty a).sid) ∧
    (∀ p ∈ s.sched.allProcs, ∀ q ∈ s.sched.allProcs, (s.sched.procs p).sid = (s.sched.procs q).sid →
    ∀ a b, s.ctty p = some a → s.ctty q = some b → a = b) := by
  intro s reached
  have good := visitedInvariant (fun _ _ _ good fresh taken => stepNumbered good fresh taken)
    (bootNumbered records) fresh s reached
  exact ⟨fun p live a holds => (good.controlled.session p live a holds).1,good.controlled.one⟩

instance (s : Jobs) (e : Event) : Decidable (Reuses s e) :=
  match e with
  | .fork (some _) _ => inferInstanceAs (Decidable (2^32 ≤ s.forks+2))
  | .fork none _ => .isFalse id
  | .kernel _ | .sigaction _ _ _ _ | .wait4 _ _ _ | .setpgid _ _ | .setsid | .ioctl _ _ _ | .typed _ _ | .vhangup _ =>
    .isFalse id

def openSession : List Event :=
  [.fork (some 2) true,.kernel .yield,.setsid,.ioctl 7 true (.tiocsctty 0 false),.fork (some 3) true,
    .kernel .yield,.kernel .yield]

theorem sessionHoldsOne : ∃ s ∈ visited (endless 0) (boot ⟨0,1,by decide⟩) openSession,
    ([2,3].map s.ctty = [some 7,some 7] ∧ (s.tty 7).sid = 2) ∧
    (∀ p ∈ s.sched.allProcs, ∀ a, s.ctty p = some a → (s.sched.procs p).sid = (s.tty a).sid) ∧
    (∀ p ∈ s.sched.allProcs, ∀ q ∈ s.sched.allProcs, (s.sched.procs p).sid = (s.sched.procs q).sid →
      ∀ a b, s.ctty p = some a → s.ctty q = some b → a = b) := by
  have ended : (run (endless 0) (boot ⟨0,1,by decide⟩) openSession).map (fun s =>
      ([2,3].map s.ctty,(s.tty 7).sid)) = some ([some 7,some 7],2) := by decide +kernel
  have fresh : ∀ m ∈ moves (endless 0) (boot ⟨0,1,by decide⟩) openSession, ¬ Reuses m.1 m.2 := by decide +kernel
  obtain ⟨s,seen,facts⟩ := visitedShows ended
  exact ⟨s,seen,⟨congrArg Prod.fst facts,congrArg Prod.snd facts⟩,controllingTerminals ⟨0,1,by decide⟩ openSession fresh s seen⟩

theorem reapBlank {s : Scheduler} {p} (idle : (s.procs p).cpuTicks = 0 ∧ (s.procs p).childTicks = 0) :
    s.processReap p = {s with allProcs := s.allProcs.erase p} := by
  unfold processReap
  dsimp only
  split
  · rfl
  rename_i parent _
  have same : s.modify parent (fun y => {y with
      childTicks := y.childTicks + (s.procs p).cpuTicks + (s.procs p).childTicks}) = s := by
    simp [Scheduler.modify,idle.1,idle.2]
  rw [same]

def wasted (s : Jobs) (x : Addr) (priority k : Nat) : Jobs :=
  {s with
    sched := {s.sched with
      procs := update s.sched.procs x (Scheduler.blank (s.sched.nextPid + UInt32.ofNat k) priority)
      nextPid := s.sched.nextPid + UInt32.ofNat (k+1)}
    forks := s.forks + (k+1)}

structure Forking (s : Jobs) (me x : Addr) (priority : Nat) : Prop where
  called : s.caller = some me
  level : (s.sched.procs me).priority = priority
  low : priority < numSchedQueues
  apart : me ≠ x
  unused : x ∉ s.sched.allProcs

theorem Forking.wasted (forking : Forking s me x priority) (k) : Forking (s.wasted x priority k) me x priority := by
  have kept : (s.wasted x priority k).sched.procs me = s.sched.procs me := update_of_ne forking.apart _ _
  refine ⟨?_,?_,forking.low,forking.apart,forking.unused⟩
  · obtain ⟨atCurrent,user⟩ := filter_eq_some_iff.mp forking.called
    refine filter_eq_some_iff.mpr ⟨atCurrent,?_⟩
    rw [kept]
    exact user
  rw [kept]
  exact forking.level

theorem forkFails (forking : Forking s me x priority) : s.fork me (some x) false = s.wasted x priority 0 := by
  obtain ⟨atCurrent,_⟩ := callerCurrent forking.called
  have level : (if (s.sched.procs me).priority ≥ numSchedQueues then numSchedQueues - 1
      else (s.sched.procs me).priority) = priority := by
    rw [forking.level,if_neg (not_le.mpr forking.low)]
  have failed : s.sched.processFork (some x) false = (none,{s.sched with
      procs := update s.sched.procs x (Scheduler.blank s.sched.nextPid priority)
      nextPid := s.sched.nextPid + 1}) := by
    unfold processFork processAlloc
    simp only [atCurrent,map_some,level,Bool.false_eq_true,if_false]
    rw [reapBlank (by simp [Scheduler.blank])]
    simp
  unfold fork Jobs.wasted
  rw [failed]
  simp

theorem wastedAgain (s : Jobs) (x priority k) : (s.wasted x priority k).wasted x priority 0 = s.wasted x priority (k+1) := by
  have next : s.sched.nextPid + UInt32.ofNat (k+1) + UInt32.ofNat (0+1) = s.sched.nextPid + UInt32.ofNat (k+1+1) := by
    rw [UInt32.ofNat_add (k+1) 1,UInt32.add_assoc]
  unfold Jobs.wasted
  simp only [update_idem,next,Nat.add_assoc]
  simp

theorem forksFail {idle} (forking : Forking s me x priority) (k) :
    run (endless idle) s (List.replicate (k+1) (.fork (some x) false)) = some (s.wasted x priority k) := by
  induction k with
  | zero =>
    have unused : s.sched.unused (some x) = true := by simpa [Scheduler.unused] using forking.unused
    simp only [List.replicate,run,endless,forking.called,bind_some,unused,if_true,forkFails forking]
  | succ k ih =>
    have again := forking.wasted k
    have unused : (s.wasted x priority k).sched.unused (some x) = true := by simpa [Scheduler.unused] using again.unused
    rw [List.replicate_succ',runAppend,ih]
    simp only [bind_some,run,endless,again.called,unused,if_true,forkFails again,wastedAgain]

/- The member gives the terminal up, uses up all pids but that of its leader and forks. The
child is a second leader, which holds nothing and so may take another terminal. -/
def leaveTerminal : List Event := openSession ++ [.ioctl 7 true .tiocnotty]

def takeAnother : List Event :=
  [.fork (some 4) true,.kernel .yield,.kernel .yield,.kernel .yield,.ioctl 8 true (.tiocsctty 0 false)]

def secondLeader : List Event :=
  leaveTerminal ++ (List.replicate (4294967293+1) (.fork (some 4) false) ++ takeAnother)

theorem sessionHoldsTwo : ∃ s ∈ visited (endless 0) (boot ⟨0,1,by decide⟩) secondLeader,
    2 ∈ s.sched.allProcs ∧ 4 ∈ s.sched.allProcs ∧
    [2,4].map (fun p => ((s.sched.procs p).state == .terminated,(s.sched.procs p).sid,s.ctty p)) =
      [(false,2,some 7),(false,2,some 8)] := by
  have member : (run (endless 0) (boot ⟨0,1,by decide⟩) leaveTerminal).map (fun s =>
      (s.caller,(s.sched.procs 3).priority,s.sched.allProcs)) = some (some 3,8,[3,2,1,0]) := by
    decide +kernel
  have ended : (run (endless 0) (boot ⟨0,1,by decide⟩) leaveTerminal).bind (fun s =>
      (run (endless 0) (s.wasted 4 8 4294967293) takeAnother).map (fun s => (s.sched.allProcs,
        [2,4].map (fun p => ((s.sched.procs p).state == .terminated,(s.sched.procs p).sid,s.ctty p))))) =
      some ([4,3,2,1,0],[(false,2,some 7),(false,2,some 8)]) := by decide +kernel
  obtain ⟨s,left,facts⟩ := map_eq_some_iff.mp member
  rw [left] at ended
  obtain ⟨t,taken,held⟩ := map_eq_some_iff.mp ended
  have all : s.sched.allProcs = [3,2,1,0] := congrArg (fun x => x.2.2) facts
  have forking : Forking s 3 4 8 :=
    ⟨congrArg Prod.fst facts,congrArg (fun x => x.2.1) facts,by decide,by decide,by rw [all]; decide⟩
  have reached : run (endless 0) (boot ⟨0,1,by decide⟩) secondLeader = some t := by
    unfold secondLeader
    rw [runAppend,left,bind_some,runAppend,forksFail forking,bind_some]
    exact taken
  have live : t.sched.allProcs = [4,3,2,1,0] := congrArg Prod.fst held
  exact ⟨t,visitedLast reached,by rw [live]; decide,by rw [live]; decide,congrArg Prod.snd held⟩

end Miviex.Jobs
