import Miviex.Sessions

/-! The signals that terminals send. They go to the group that `TIOCSPGRP` last named, and nothing
ties that number to the session of the terminal. -/
namespace Miviex.Jobs

open Runs Function Scheduler

variable {records : Records} {s t : Jobs}

/- The foreground group and the process that could name it anew are of the terminal's
session, and no process to come will have the number as its pid. -/
def Owned (s : Scheduler) (n : Nat) (x : Tty) : Prop :=
  x.pgrp ≠ 0 → x.pgrp.toNat < n ∧ ∀ p, Active s p → (s.who p).pgid = x.pgrp ∨ (s.who p).pid = x.pgrp → (s.who p).sid = x.sid

structure Terminals (s : Jobs) : Prop where
  owned : ∀ t, Owned s.sched (s.forks+2) (s.tty t)
  inside : ∀ d ∈ s.delivered, d.sid = d.session

/- The steps after which a terminal may signal another session: a foreground group that is
of another session or still free, a new session under the number of a foreground group,
and a pid given out for the second time. -/
inductive Stray (s : Jobs) : Event → Prop where
  | foreground {me t mapped pgrp} (called : s.caller = some me)
      (own : s.ctty me = some t) (session : (s.sched.who me).sid = (s.tty t).sid)
      (loose : ¬ Owned s.sched (s.forks+2) {s.tty t with pgrp := pgrp}) :
      Stray s (.ioctl t mapped (.tiocspgrp pgrp))
  | session {me t} (called : s.caller = some me)
      (free : ∀ p ∈ s.sched.allProcs, (s.sched.who p).isUser = true → (s.sched.who p).pgid ≠ (s.sched.who me).pid)
      (named : (s.tty t).pgrp = (s.sched.who me).pid) : Stray s .setsid
  | number {place cloned} (full : 2^32 ≤ s.forks+2) : Stray s (.fork (some place) cloned)

variable {n : Nat} {x : Tty} {me : Addr}

theorem Owned.descends {s t k p} (owned : Owned s n x) (more : n ≤ k)
    (stems : ∀ q ∈ t.allProcs, ∃ y, Descends s t n k p q y) : Owned t k x := by
  intro set
  obtain ⟨below,members⟩ := owned set
  refine ⟨lt_of_lt_of_le below more,fun q hq which => ?_⟩
  obtain ⟨y,stem⟩ := stems q hq.live
  rw [stem.sid]
  refine members y (stem.active hq) ?_
  rcases which with member | named
  · exact .inl (stem.pgid.symm.trans member)
  rcases stem.pid with ⟨_,pid⟩ | ⟨_,number,_⟩
  · exact .inr (pid.symm.trans named)
  rw [named] at number
  omega

theorem Owned.carried {s t k} (owned : Owned s n x) (carried : Carried s t) (more : n ≤ k) : Owned t k x :=
  owned.descends (p := 0) more (fun q here => ⟨q,carried.descends q here⟩)

theorem Owned.moved {s p group} (owned : Owned s n x) (grouped : Grouped s n)
    (named : group = (s.who p).pid ∨ s.groupExists group (s.who p).sid = true) :
    Owned (s.modify p (fun x => {x with pgid := group})) n x := by
  intro set
  obtain ⟨below,members⟩ := owned set
  refine ⟨below,fun q hq which => ?_⟩
  have user := hq.user
  have awake := hq.awake
  rw [modifyWho] at which user awake ⊢
  split at which
  · rename_i same
    rw [if_pos same] at user awake ⊢
    have active : Active s p := ⟨same ▸ hq.live,user,awake⟩
    rcases which with member | pid
    · have joined : group = x.pgrp := member
      show (s.who p).sid = x.sid
      rcases named with own | found
      · exact members p active (.inr (own.symm.trans joined))
      obtain ⟨r,live,userR,group',session⟩ := groupFound found
      rw [← session]
      exact members r ⟨live,userR,grouped.users r live userR⟩ (.inl (group'.trans joined))
    · exact members p active (.inr pid)
  rename_i differ
  rw [if_neg differ] at user awake ⊢
  exact members q ⟨hq.live,user,awake⟩ which

theorem Owned.session {s} (owned : Owned s n x) (other : x.pgrp ≠ (s.who me).pid) :
    Owned (s.modify me (fun x => {x with sid := x.pid, pgid := x.pid})) n x := by
  intro set
  obtain ⟨below,members⟩ := owned set
  refine ⟨below,fun q hq which => ?_⟩
  have user := hq.user
  have awake := hq.awake
  rw [modifyWho] at which user awake ⊢
  split at which
  · rcases which with group | pid
    · exact absurd group.symm other
    · exact absurd pid.symm other
  rename_i differ
  rw [if_neg differ] at user awake ⊢
  exact members q ⟨hq.live,user,awake⟩ which

theorem quietTerminals (quiet : Quiet s t)
    (ttys : ∀ a, Owned s.sched (s.forks+2) (t.tty a)) (inside : ∀ d ∈ t.delivered, d.sid = d.session) : Terminals t := by
  refine ⟨fun a => ?_,inside⟩
  rw [quiet.forks]
  exact (ttys a).carried (restyledCarried quiet.same.restyled) (le_refl _)

theorem ownedSame {s y} (owned : Owned s n x) (same : Tty.SameOwner x y) : Owned s n y := by
  unfold Owned
  rw [same.1,same.2]
  exact owned

section

variable (terminals : Terminals s)
include terminals

theorem ownedUpdate {a} (owned : Owned s.sched (s.forks+2) x) : ∀ b, Owned s.sched (s.forks+2) (update s.tty a x b) := by
  intro b
  by_cases same : b = a
  · rw [same,update_self]
    exact owned
  rw [update_of_ne same]
  exact terminals.owned b

theorem setTtyTerminals {a} (same : Tty.SameOwner (s.tty a) x) : Terminals (s.setTty a x) :=
  quietTerminals (setTtyQuiet s a x) (ownedUpdate terminals (ownedSame (terminals.owned a) same)) terminals.inside

theorem wakeReadersTerminals (a woken) : Terminals (s.wakeReaders a woken) := by
  have quiet := wakeReadersQuiet s a woken
  unfold wakeReaders at quiet ⊢
  split
  · rename_i wakes
    rw [if_pos wakes] at quiet
    exact quietTerminals quiet terminals.owned terminals.inside
  · exact terminals

theorem signalForegroundTerminals (a sig) : Terminals (s.signalForeground a sig) := by
  have quiet := signalForegroundQuiet s a sig
  unfold signalForeground at quiet ⊢
  split
  · exact terminals
  rename_i set
  rw [if_neg set] at quiet
  refine quietTerminals quiet terminals.owned (fun d here => ?_)
  rcases List.mem_append.mp here with old | new
  · exact terminals.inside d old
  obtain ⟨p,reached,made⟩ := List.mem_map.mp new
  obtain ⟨live,user,group,awake⟩ := (signalSendPgrpSame s.sched (s.tty a).pgrp sig).2 p (List.mem_of_mem_filter reached)
  rw [← made]
  exact (terminals.owned a set).2 p ⟨live,user,awake⟩ (.inl group)

theorem ttyInputTerminals (a c) : Terminals (s.ttyInput a c) := by
  unfold ttyInput
  dsimp only
  split
  · exact signalForegroundTerminals (setTtyTerminals terminals (Tty.echoSilent (s.tty a).flushInput _).owner) a _
  · exact wakeReadersTerminals (setTtyTerminals terminals (Tty.receiveOwner (s.tty a) _)) a _

theorem ttyHangupTerminals (a) : Terminals (s.ttyHangup a) := by
  have cleared : Tty.SameOwner (s.tty a) (s.tty a).hangup := ⟨rfl,rfl⟩
  exact wakeReadersTerminals (signalForegroundTerminals (setTtyTerminals terminals cleared) a sigHup) a true

theorem disownTerminals (a) : Terminals (s.disown a) :=
  quietTerminals (disownQuiet s a) (ownedUpdate terminals (fun set => absurd rfl set)) terminals.inside

theorem takeTtyTerminals (grouped : Grouped s.sched (s.forks+2))
    (active : Active s.sched me) (leads : (s.sched.who me).sid = (s.sched.who me).pid) (a) : Terminals (s.takeTty me a) := by
  refine quietTerminals (takeTtyQuiet s me a) (ownedUpdate terminals (fun _ => ?_)) terminals.inside
  have group := grouped.leader me active.live leads
  refine ⟨(grouped.given me active.live).2.1,fun p hp which => ?_⟩
  show (s.sched.who p).sid = (s.sched.who me).sid
  rcases which with member | pid
  · exact grouped.groups p me hp active member
  · rw [grouped.unique p me hp active (pid.trans group)]

theorem ttyIoctlTerminals (grouped : Grouped s.sched (s.forks+2))
    (called : s.caller = some me) (active : Active s.sched me) (a mapped req)
    (straight : ¬ Stray s (.ioctl a mapped req)) : Terminals (s.ttyIoctl me a mapped req).2 := by
  unfold ttyIoctl
  split
  · exact terminals
  cases req with
  | tcsets flush termios =>
    refine wakeReadersTerminals (setTtyTerminals terminals ?_) a _
    cases flush with
    | true => exact Tty.setTermiosOwner (s.tty a).flushInput termios
    | false => exact Tty.setTermiosOwner (s.tty a) termios
  | tcflsh arg =>
    dsimp only
    split
    · exact setTtyTerminals terminals ⟨rfl,rfl⟩
    · exact terminals
  | tiocswinsz rows cols =>
    dsimp only
    split
    · have resized : Tty.SameOwner (s.tty a) {s.tty a with rows := rows, cols := cols} := ⟨rfl,rfl⟩
      exact signalForegroundTerminals (setTtyTerminals terminals resized) a sigWinch
    · exact terminals
  | tiocsctty arg root =>
    dsimp only
    split
    · exact terminals
    split
    · exact terminals
    rename_i refused
    rw [not_or,not_not] at refused
    split
    · split
      · exact terminals
      · exact takeTtyTerminals (disownTerminals terminals a) grouped active refused.1 a
    · exact takeTtyTerminals terminals grouped active refused.1 a
  | tiocnotty =>
    dsimp only
    split
    · exact terminals
    split
    · exact disownTerminals terminals a
    · exact ⟨terminals.owned,terminals.inside⟩
  | tiocspgrp pgrp =>
    dsimp only
    split
    · exact terminals
    rename_i granted
    rw [not_or,not_not,not_not] at granted
    have owned : Owned s.sched (s.forks+2) {s.tty a with pgrp := pgrp} := by
      by_contra loose
      exact straight (.foreground called granted.1 granted.2 loose)
    exact quietTerminals (setTtyQuiet s a _) (ownedUpdate terminals owned) terminals.inside
  | tiocgsid =>
    dsimp only
    split
    · exact terminals
    · exact terminals
  | _ => exact terminals

end

theorem turnOwned {e} (family : Family records s) (grouped : Grouped s.sched (s.forks+2))
    (terminals : Terminals s) (straight : ¬ Stray s e) (turn : Turn records s e t) :
    ∀ a, Owned t.sched (t.forks+2) (s.tty a) := by
  intro a
  have owned := terminals.owned a
  have grown := turnForks turn
  cases turn with
  | quiet restyled forks reaped other => exact owned.carried (restyledCarried restyled) (by omega)
  | exit atCurrent notIdle notInit exited => exact owned.carried (exitCarried exited) (le_refl _)
  | fork called _ forked =>
    refine owned.descends (by omega) (fun x here =>
      (forkDescends family called (fun given => ?_) forked x here).imp (fun _ stem => stem.1))
    obtain ⟨p,rfl⟩ := Option.isSome_iff_exists.mp given
    exact Nat.lt_of_not_le (fun full => straight (.number full))
  | reap called live selected dead answer => exact owned.carried (reapCarried s.sched _) (le_refl _)
  | group called live session follower named => exact owned.moved grouped (session ▸ named)
  | session called free => exact owned.session (fun named => straight (.session called free named))

structure Signalled (records : Records) (s : Jobs) : Prop where
  family : Family records s
  room : s.forks+2 ≤ 2^32
  grouped : Grouped s.sched (s.forks+2)
  terminals : Terminals s

theorem stepSignalled {e} (good : Signalled records s) (straight : ¬ Stray s e)
    (taken : step records.idle s e = some t) : Signalled records t := by
  have turn := good.family.turn taken
  have small place cloned (forks : e = .fork (some place) cloned) : s.forks+2 < 2^32 :=
    Nat.lt_of_not_le (fun full => straight (by rw [forks]; exact .number full))
  have room := turnRoom good.room small turn
  have owned := turnOwned good.family good.grouped good.terminals straight turn
  refine ⟨stepFamily good.family taken,room,stepGrouped good.family good.grouped taken room,?_⟩
  -- without a terminal in the event the terminals and their history are untouched
  have untouched : t.tty = s.tty → t.delivered = s.delivered → Terminals t := fun ttys history =>
    ⟨fun a => ttys ▸ owned a,fun d here => good.terminals.inside d (history ▸ here)⟩
  cases stepSteps taken with
  | kernel | fork | sigaction | wait4 | setpgid => exact untouched rfl rfl
  | @setsid me called =>
    rcases setsidCases s me with same | ⟨_,moved⟩
    · exact untouched (by rw [same]) (by rw [same])
    · exact untouched (by rw [moved]) (by rw [moved])
  | ioctl called =>
    exact ttyIoctlTerminals good.terminals good.grouped called (callerActive good.family.consistent called) _ _ _ straight
  | typed => exact ttyInputTerminals good.terminals _ _
  | vhangup called =>
    unfold sysVhangup
    split
    · exact good.terminals
    split
    · exact good.terminals
    · exact ttyHangupTerminals good.terminals _

theorem bootSignalled (records) : Signalled records (boot records) :=
  ⟨bootFamily records,by show 0 + 2 ≤ 2^32; decide,bootGrouped records,
    fun _ set => absurd rfl set,fun _ here => by cases here⟩

theorem terminalSignalsInside (records : Records) (events : List Event)
    (straight : ∀ m ∈ moves (step records.idle) (boot records) events, ¬ Stray m.1 m.2) :
    ∀ s ∈ visited (step records.idle) (boot records) events, ∀ d ∈ s.delivered, d.sid = d.session := by
  intro s reached
  have good := Runs.visitedInvariant (fun _ _ _ good straight taken => stepSignalled good straight taken)
    (bootSignalled records) straight s reached
  exact good.terminals.inside

/- Init gets a signal that it has a handler for. -/
def interruptSelf : List Event :=
  [.sigaction 2 (some (some {handler := 0x400000})) none 8,.ioctl 7 true (.tiocsctty 0 false),.typed 7 3]

theorem interruptStaysInside : ∃ s ∈ visited (step 0) (boot ⟨0,1,by decide⟩) interruptSelf,
    s.delivered = [⟨7,1,1,1⟩] ∧ ∀ d ∈ s.delivered, d.sid = d.session := by
  have straight : ∀ m ∈ moves (step 0) (boot ⟨0,1,by decide⟩) interruptSelf, ¬ Stray m.1 m.2 := by
    intro m member stray
    have listed := movesEvent m member
    obtain ⟨before,e⟩ := m
    simp only [interruptSelf,List.mem_cons,List.not_mem_nil,or_false] at listed
    rcases listed with same | same | same <;> subst same <;> cases stray
  have ended : (Runs.run (step 0) (boot ⟨0,1,by decide⟩) interruptSelf).map (fun s => s.delivered) =
      some [⟨7,1,1,1⟩] := by decide +kernel
  obtain ⟨s,seen,same⟩ := visitedShows ended
  exact ⟨s,seen,same,terminalSignalsInside ⟨0,1,by decide⟩ interruptSelf straight s seen⟩

/- A child of init takes the terminal for its own session, makes the group of init the
foreground group and types ^C. The other child, which is in that group, gets the signal. -/
def interruptSibling : List Event :=
  [.fork (some 2) true,.fork (some 3) true,.kernel .yield,.kernel .yield,.setsid,.ioctl 7 true (.tiocsctty 0 false),
    .ioctl 7 true (.tiocspgrp 1),.typed 7 3]

theorem interruptLeavesSession : ∃ s ∈ visited (step 0) (boot ⟨0,1,by decide⟩) interruptSibling, s.delivered = [⟨7,2,1,3⟩] := by
  have ended : (Runs.run (step 0) (boot ⟨0,1,by decide⟩) interruptSibling).map (fun s => s.delivered) =
      some [⟨7,2,1,3⟩] := by decide +kernel
  obtain ⟨s,seen,same⟩ := visitedShows ended
  exact ⟨s,seen,same⟩

end Miviex.Jobs
