import Miviex.ProcessIdentity

/-! What one step of a run does to the processes, said once: nothing, an exit, a fork, a child
handed to its parent, a move to another group, a new session. -/
namespace Miviex.Jobs
open Option Scheduler

open Scheduler (Same Restyled Exited Forked Consistent Harmless)

variable {s t : Jobs} {me : Addr}

structure Quiet (s t : Jobs) : Prop where
  same : Same s.sched t.sched
  consistent : ∀ idle, Consistent idle s.sched → Consistent idle t.sched
  forks : t.forks = s.forks
  reaped : t.reaped = s.reaped

theorem Quiet.refl (s) : Quiet s s := ⟨Same.refl _,fun _ h => h,rfl,rfl⟩

theorem Quiet.trans {u} (first : Quiet s t) (second : Quiet t u) : Quiet s u :=
  ⟨first.same.trans second.same,fun idle h => second.consistent idle (first.consistent idle h),
    second.forks.trans first.forks,second.reaped.trans first.reaped⟩

theorem setTtyQuiet (s : Jobs) (t x) : Quiet s (s.setTty t x) := ⟨Same.refl _,fun _ h => h,rfl,rfl⟩

theorem wakeReadersQuiet (s : Jobs) (t woken) : Quiet s (s.wakeReaders t woken) := by
  unfold wakeReaders
  split
  · exact ⟨wakeupSame s.sched (some t),fun idle h =>
      harmlessConsistent (wakeupHarmless idle s.sched (some t)) h,rfl,rfl⟩
  · exact Quiet.refl s

variable {idle : Addr} {records : Records}

theorem signalPgrpConsistent {s} (consistent : Consistent idle s) (pgrp sig) : Consistent idle (s.signalSendPgrp pgrp sig).2 := by
  refine (List.foldlRecOn s.allProcs (signalMember pgrp sig) (b := ([],s))
    (motive := fun sent => Consistent idle sent.2 ∧ sent.2.allProcs = s.allProcs) ⟨consistent,rfl⟩ ?_).1
  rintro ⟨reached,t⟩ ⟨sofar,all⟩ p live
  unfold signalMember
  dsimp only
  split
  · have harmless : Harmless idle t (t.signalSend (some p) sig) :=
      signalSendHarmless sig (fun x same => by cases same; rw [all]; exact live)
    exact ⟨harmlessConsistent harmless sofar,(signalSendSame t (some p) sig).all.trans all⟩
  · exact ⟨sofar,all⟩

section

variable (s : Jobs)

theorem signalForegroundQuiet (t sig) : Quiet s (s.signalForeground t sig) := by
  unfold signalForeground
  split
  · exact Quiet.refl s
  exact ⟨(signalSendPgrpSame s.sched (s.tty t).pgrp sig).1,
    fun idle h => signalPgrpConsistent h (s.tty t).pgrp sig,rfl,rfl⟩

theorem ttyInputQuiet (t c) : Quiet s (s.ttyInput t c) := by
  unfold ttyInput
  dsimp only
  split
  · exact (setTtyQuiet s t _).trans (signalForegroundQuiet _ t _)
  · exact (setTtyQuiet s t _).trans (wakeReadersQuiet _ t _)

theorem disownQuiet (t) : Quiet s (s.disown t) := ⟨Same.refl _,fun _ h => h,rfl,rfl⟩

theorem takeTtyQuiet (p t) : Quiet s (s.takeTty p t) := ⟨Same.refl _,fun _ h => h,rfl,rfl⟩

theorem ttyIoctlQuiet (p t mapped req) : Quiet s (s.ttyIoctl p t mapped req).2 := by
  have same := Quiet.refl s
  unfold ttyIoctl
  split
  · exact same
  cases req with
  | tcsets flush termios => exact (setTtyQuiet s t _).trans (wakeReadersQuiet _ t _)
  | tcflsh arg =>
    dsimp only
    split
    · exact setTtyQuiet s t _
    · exact same
  | tiocswinsz rows cols =>
    dsimp only
    split
    · exact (setTtyQuiet s t _).trans (signalForegroundQuiet _ t _)
    · exact same
  | tiocsctty arg root =>
    dsimp only
    split
    · exact same
    split
    · exact same
    split
    · split
      · exact same
      · exact (disownQuiet s t).trans (takeTtyQuiet _ p t)
    · exact takeTtyQuiet s p t
  | tiocnotty =>
    dsimp only
    split
    · exact same
    split
    · exact disownQuiet s t
    · exact ⟨Same.refl _,fun _ h => h,rfl,rfl⟩
  | tiocspgrp pgrp =>
    dsimp only
    split
    · exact same
    · exact setTtyQuiet s t _
  | tiocgsid =>
    dsimp only
    split
    · exact same
    · exact same
  | _ => exact same

theorem ttyHangupQuiet (t) : Quiet s (s.ttyHangup t) :=
  ((setTtyQuiet s t _).trans (signalForegroundQuiet _ t sigHup)).trans (wakeReadersQuiet _ t true)

theorem sysVhangupQuiet (p root) : Quiet s (s.sysVhangup p root).2 := by
  unfold sysVhangup
  split
  · exact Quiet.refl s
  split
  · exact Quiet.refl s
  · exact ttyHangupQuiet s _

end

theorem callerCurrent (called : s.caller = some me) : s.sched.current = some me ∧ (s.sched.who me).isUser = true := by
  obtain ⟨atCurrent,user⟩ := filter_eq_some_iff.mp called
  exact ⟨atCurrent,user⟩

inductive Turn (records : Records) (s : Jobs) : Event → Jobs → Prop where
  | quiet {e t} (restyled : Restyled s.sched t.sched) (forks : t.forks = s.forks)
      (reaped : t.reaped = s.reaped) (other : ∀ status released, e ≠ .kernel (.exit status released)) :
      Turn records s e t
  | exit {me status released sched}
      (atCurrent : s.sched.current = some me) (notIdle : me ≠ records.idle)
      (notInit : (s.sched.who me).pid ≠ 1) (exited : Exited me records.init status s.sched sched) :
      Turn records s (.kernel (.exit status released)) {s with sched := sched}
  | fork {me place child cloned sched ctty}
      (called : s.caller = some me) (room : s.forks+1 < 2^32) (forked : Forked me s.sched place child sched) :
      Turn records s (.fork place cloned)
        {s with sched := sched, ctty := ctty, forks := if place.isSome then s.forks + 1 else s.forks}
  | reap {me p pid ustatus wnohang} (called : s.caller = some me)
      (live : p ∈ s.sched.allProcs) (selected : s.sched.waitSelects me pid p = true)
      (dead : (s.sched.procs p).state = .terminated)
      (answer : (s.sched.sysWait4 me pid ustatus wnohang).1 =
        .child (s.sched.procs p).pid (ustatus.map (fun _ => (s.sched.procs p).exitStatus))) :
      Turn records s (.wait4 pid ustatus wnohang)
        {s with
          sched := s.sched.processReap p
          reaped := s.reaped ++ [⟨(s.sched.procs me).pid,(s.sched.procs p).pid,
            ustatus.map (fun _ => (s.sched.procs p).exitStatus)⟩]}
  | group {me p pid pgid group} (called : s.caller = some me)
      (live : p ∈ s.sched.allProcs) (session : (s.sched.who p).sid = (s.sched.who me).sid)
      (follower : (s.sched.who p).sid ≠ (s.sched.who p).pid)
      (named : group = (s.sched.who p).pid ∨ s.sched.groupExists group (s.sched.who me).sid = true) :
      Turn records s (.setpgid pid pgid)
        {s with sched := s.sched.modify p (fun x => {x with pgid := group})}
  | session {me : Addr} (called : s.caller = some me)
      (free : ∀ p ∈ s.sched.allProcs, (s.sched.who p).isUser = true → (s.sched.who p).pgid ≠ (s.sched.who me).pid) :
      Turn records s .setsid
        {s with
          sched := s.sched.modify me (fun x => {x with sid := x.pid, pgid := x.pid})
          ctty := Function.update s.ctty me none}

theorem sysWait4Cases {s} (consistent : Consistent idle s)
    (atCurrent : s.current = some me) (notIdle : me ≠ idle) (pid) (ustatus : Option Bool) (wnohang) :
    (∃ p ∈ s.allProcs, s.waitSelects me pid p = true ∧ (s.procs p).state = .terminated ∧ s.sysWait4 me pid ustatus wnohang =
    (.child (s.procs p).pid (ustatus.map (fun _ => (s.procs p).exitStatus)),s.processReap p)) ∨
    ((∀ child status, (s.sysWait4 me pid ustatus wnohang).1 ≠ .child child status) ∧
    Same s (s.sysWait4 me pid ustatus wnohang).2) := by
  cases result : s.sysWait4 me pid ustatus wnohang with
  | mk answer after =>
  unfold sysWait4 at result
  split at result
  · cases result
    exact .inr ⟨nofun,Same.refl _⟩
  split at result
  · rename_i p found
    cases result
    have picked := List.find?_some found
    rw [Bool.and_eq_true,beq_iff_eq] at picked
    exact .inl ⟨p,List.mem_of_find?_eq_some found,picked.1,picked.2,rfl⟩
  right
  split at result
  · cases result
    exact ⟨nofun,Same.refl _⟩
  split at result
  · cases result
    exact ⟨nofun,Same.refl _⟩
  split at result
  · cases result
    exact ⟨nofun,Same.refl _⟩
  cases result
  exact ⟨nofun,sleepSame consistent atCurrent notIdle (some me)⟩

theorem selfOrLive {s : Scheduler} {pid p} (found : s.selfOr pid = some p)
    (current : ∀ c, s.current = some c → c ∈ s.allProcs) : p ∈ s.allProcs := by
  unfold selfOr at found
  split at found
  · exact current p found
  · exact processFindLive found

theorem sysSetpgidCases {s : Scheduler} (current : ∀ c, s.current = some c → c ∈ s.allProcs) (me pid pgid) :
    (s.sysSetpgid me pid pgid).2 = s ∨ ∃ p ∈ s.allProcs, ∃ group,
    (s.who p).sid = (s.who me).sid ∧ (s.who p).sid ≠ (s.who p).pid ∧
    (group = (s.who p).pid ∨ s.groupExists group (s.who me).sid = true) ∧
    (s.sysSetpgid me pid pgid).2 = s.modify p (fun x => {x with pgid := group}) := by
  cases result : s.sysSetpgid me pid pgid with
  | mk answer after =>
  unfold sysSetpgid at result
  split at result
  · cases result; exact .inl rfl
  split at result
  · cases result; exact .inl rfl
  rename_i p found
  split at result
  · cases result; exact .inl rfl
  split at result
  · cases result; exact .inl rfl
  rename_i checked
  rw [not_or,not_not] at checked
  dsimp only at result
  generalize (if pgid = 0 then (s.procs p).pid else UInt32.ofInt pgid) = group at result
  split at result
  · cases result; exact .inl rfl
  rename_i granted
  cases result
  rw [not_and_or,not_not,not_not] at granted
  exact .inr ⟨p,selfOrLive found current,group,checked.1,checked.2,granted,rfl⟩

theorem setsidCases (s : Jobs) (me) : s.setsid me = s ∨
    (∀ p ∈ s.sched.allProcs, (s.sched.who p).isUser = true → (s.sched.who p).pgid ≠ (s.sched.who me).pid) ∧
    s.setsid me = {s with
      sched := s.sched.modify me (fun x => {x with sid := x.pid, pgid := x.pid})
      ctty := Function.update s.ctty me none} := by
  unfold setsid sysSetsid
  by_cases taken : s.sched.allProcs.any
      (fun p => (s.sched.procs p).isUser && (s.sched.procs p).pgid == (s.sched.procs me).pid) = true
  · rw [if_pos taken]
    exact .inl rfl
  rw [if_neg taken]
  refine .inr ⟨fun p live user same => taken ?_,rfl⟩
  rw [List.any_eq_true]
  refine ⟨p,live,?_⟩
  rw [Bool.and_eq_true,beq_iff_eq]
  exact ⟨user,same⟩

theorem setsidTurn (called : s.caller = some me) : Turn records s .setsid (s.setsid me) := by
  rcases setsidCases s me with same | ⟨free,moved⟩
  · rw [same]
    exact .quiet (Same.refl _).restyled rfl rfl nofun
  rw [moved]
  exact .session called free

inductive Steps (idle : Addr) (s : Jobs) : Event → Jobs → Prop where
  | kernel {e sched} (ordinary : ordinary e = true)
      (moved : s.sched.step idle e = some sched) : Steps idle s (.kernel e) {s with sched := sched}
  | fork {me place cloned} (called : s.caller = some me)
      (fresh : s.sched.unused place = true) (room : s.forks+1 < 2^32) :
      Steps idle s (.fork place cloned) (s.fork me place cloned)
  | sigaction {me sig size act oact}
      (called : s.caller = some me) :
      Steps idle s (.sigaction sig act oact size) {s with sched := (s.sched.sysRtSigaction me sig act oact size).2}
  | wait4 {me pid ustatus wnohang} (called : s.caller = some me) :
      Steps idle s (.wait4 pid ustatus wnohang) (s.wait4 me pid ustatus wnohang)
  | setpgid {me pid pgid} (called : s.caller = some me) :
      Steps idle s (.setpgid pid pgid) {s with sched := (s.sched.sysSetpgid me pid pgid).2}
  | setsid {me : Addr} (called : s.caller = some me) : Steps idle s .setsid (s.setsid me)
  | ioctl {me tty mapped req} (called : s.caller = some me) :
      Steps idle s (.ioctl tty mapped req) (s.ttyIoctl me tty mapped req).2
  | typed {tty c} : Steps idle s (.typed tty c) (s.ttyInput tty c)
  | vhangup {me root} (called : s.caller = some me) :
      Steps idle s (.vhangup root) (s.sysVhangup me root).2

theorem stepSteps {e} (taken : step idle s e = some t) : Steps idle s e t := by
  cases e with
  | kernel e =>
    simp only [step,ite_none_right_eq_some,map_eq_some_iff] at taken
    obtain ⟨ordinary,sched,moved,rfl⟩ := taken
    exact .kernel ordinary moved
  | fork place cloned =>
    simp only [step,bind_eq_some_iff,ite_none_right_eq_some,Option.some.injEq] at taken
    obtain ⟨me,called,⟨fresh,room⟩,rfl⟩ := taken
    exact .fork called fresh room
  | typed tty c =>
    cases Option.some.inj taken
    exact .typed
  | sigaction | wait4 | setpgid | setsid | ioctl | vhangup =>
    simp only [step,map_eq_some_iff] at taken
    obtain ⟨me,called,rfl⟩ := taken
    constructor
    exact called

section

variable (consistent : Consistent records.idle s.sched)
include consistent

theorem wait4Turn (called : s.caller = some me)
    (notIdle : me ≠ records.idle) (pid ustatus wnohang) :
    Turn records s (.wait4 pid ustatus wnohang) (s.wait4 me pid ustatus wnohang) := by
  rcases sysWait4Cases consistent (callerCurrent called).1 notIdle pid ustatus wnohang with
    ⟨p,live,selected,dead,result⟩ | ⟨nobody,same⟩
  · unfold wait4
    rw [result]
    exact Turn.reap called live selected dead (congrArg Prod.fst result)
  refine .quiet same.restyled rfl ?_ nofun
  unfold wait4
  dsimp only
  split
  · rename_i child status answer
    exact absurd answer (nobody child status)
  · rfl

theorem setpgidTurn (called : s.caller = some me) (pid pgid) :
    Turn records s (.setpgid pid pgid) {s with sched := (s.sched.sysSetpgid me pid pgid).2} := by
  rcases sysSetpgidCases consistent.currentLive me pid pgid with
    same | ⟨p,live,group,session,follower,named,moved⟩
  · rw [same]
    exact .quiet (Same.refl _).restyled rfl rfl nofun
  rw [moved]
  exact .group called live session follower named

theorem stepTurn {e} (kernel : (s.sched.who records.idle).isUser = false)
    (found : s.sched.processFind 1 = some records.init) (taken : step records.idle s e = some t) : Turn records s e t := by
  have notIdle : ∀ {me}, s.caller = some me → me ≠ records.idle := by
    rintro me called rfl
    rw [(callerCurrent called).2] at kernel
    cases kernel
  have quiet : ∀ {t : Jobs}, Quiet s t → (∀ status released, e ≠ .kernel (.exit status released)) →
    Turn records s e t := fun calm other => .quiet calm.same.restyled calm.forks calm.reaped other
  cases stepSteps taken with
  | kernel ordinary moved =>
    cases stepRoutine consistent found ordinary moved with
    | quiet restyled other =>
      exact .quiet restyled rfl rfl (fun status released same => other status released (by injection same))
    | exit atCurrent notIdle notInit exited => exact .exit atCurrent notIdle notInit exited
  | @fork me place cloned called fresh room =>
    have atCurrent := (callerCurrent called).1
    exact .fork called room (forkForked atCurrent cloned fresh (consistent.currentLive me atCurrent))
  | sigaction called => exact .quiet (sigactionRestyled s.sched _ _ _ _ _) rfl rfl nofun
  | wait4 called => exact wait4Turn consistent called (notIdle called) _ _ _
  | setpgid called => exact setpgidTurn consistent called _ _
  | setsid called => exact setsidTurn called
  | ioctl called => exact quiet (ttyIoctlQuiet s _ _ _ _) nofun
  | typed => exact quiet (ttyInputQuiet s _ _) nofun
  | vhangup called => exact quiet (sysVhangupQuiet s _ _) nofun

end

theorem sigactionConsistent {s} (consistent : Consistent idle s) (me sig act oact size) :
    Consistent idle (s.sysRtSigaction me sig act oact size).2 :=
  sigactionWrites me sig act oact size consistent
    (fun _ => harmlessConsistent (harmlessModify rfl rfl rfl rfl) consistent)
    (fun _ _ written => harmlessConsistent (harmlessModify rfl rfl rfl rfl) written)

theorem wait4Consistent (consistent : Consistent idle s.sched) (called : s.caller = some me)
    (notIdle : me ≠ idle) (pid ustatus wnohang) : Consistent idle (s.wait4 me pid ustatus wnohang).sched := by
  have atCurrent := (callerCurrent called).1
  show Consistent idle (s.sched.sysWait4 me pid ustatus wnohang).2
  unfold sysWait4
  split
  · exact consistent
  split
  · rename_i p found
    have picked := List.find?_some found
    rw [Bool.and_eq_true,beq_iff_eq] at picked
    exact reapConsistent consistent picked.2
  split
  · exact consistent
  split
  · exact consistent
  split
  · exact consistent
  simp only [Scheduler.sleepOn,atCurrent]
  exact yieldConsistent (sleepSettled consistent atCurrent notIdle (some me))

theorem stepConsistent {e} (consistent : Consistent idle s.sched)
    (kernel : (s.sched.who idle).isUser = false) (taken : step idle s e = some t) : Consistent idle t.sched := by
  cases stepSteps taken with
  | kernel ordinary moved => exact Scheduler.stepConsistent consistent moved
  | fork called fresh room => exact forkConsistent consistent _ fresh
  | sigaction called => exact sigactionConsistent consistent _ _ _ _ _
  | wait4 called =>
    refine wait4Consistent consistent called ?_ _ _ _
    rintro rfl
    rw [(callerCurrent called).2] at kernel
    cases kernel
  | @setpgid me pid pgid called =>
    show Consistent idle (s.sched.sysSetpgid me pid pgid).2
    rcases sysSetpgidCases consistent.currentLive me pid pgid with same | ⟨p,_,group,_,_,_,moved⟩
    · rw [same]
      exact consistent
    rw [moved]
    exact harmlessConsistent (harmlessModify rfl rfl rfl rfl) consistent
  | @setsid me called =>
    rcases setsidCases s me with same | ⟨_,moved⟩
    · rw [same]
      exact consistent
    rw [moved]
    dsimp only
    exact harmlessConsistent (harmlessModify rfl rfl rfl rfl) consistent
  | ioctl called => exact (ttyIoctlQuiet s _ _ _ _).consistent idle consistent
  | typed => exact (ttyInputQuiet s _ _).consistent idle consistent
  | vhangup called => exact (sysVhangupQuiet s _ _).consistent idle consistent

end Miviex.Jobs
