import Miviex.ProcessTree

/-! Groups and sessions, and the signals of a terminal. A group lies in one session, also
when its leader has left it: the pid that names the group cannot start a session while the
group has members. -/
namespace Miviex.Jobs
open List Nat Runs Scheduler

open Scheduler (Restyled Exited Forked Consistent)

variable {records : Records} {s t : Jobs}

structure Active (s : Scheduler) (p : Addr) : Prop where
  live : p ∈ s.allProcs
  user : (s.who p).isUser = true
  awake : (s.who p).dead = false

structure Grouped (s : Scheduler) (n : Nat) : Prop where
  groups : ∀ p q, Active s p → Active s q → (s.who p).pgid = (s.who q).pgid → (s.who p).sid = (s.who q).sid
  named : ∀ p q, Active s p → Active s q → (s.who p).pgid = (s.who q).pid → (s.who p).sid = (s.who q).sid
  leader : ∀ p ∈ s.allProcs, (s.who p).sid = (s.who p).pid → (s.who p).pgid = (s.who p).pid
  given : ∀ p ∈ s.allProcs, (s.who p).pid.toNat < n ∧ (s.who p).pgid.toNat < n ∧ (s.who p).sid.toNat < n
  unique : ∀ p q, Active s p → Active s q → (s.who p).pid = (s.who q).pid → p = q
  users : ∀ p ∈ s.allProcs, (s.who p).isUser = true → (s.who p).dead = false

structure Carried (s t : Scheduler) : Prop where
  live : ∀ p ∈ t.allProcs, p ∈ s.allProcs
  pid : ∀ p ∈ t.allProcs, (t.who p).pid = (s.who p).pid
  pgid : ∀ p ∈ t.allProcs, (t.who p).pgid = (s.who p).pgid
  sid : ∀ p ∈ t.allProcs, (t.who p).sid = (s.who p).sid
  active : ∀ p, Active t p → Active s p
  users : ∀ p ∈ t.allProcs, (t.who p).isUser = true → (s.who p).isUser = true ∧ (t.who p).dead = (s.who p).dead

theorem carriedWho {s t} (live : ∀ p ∈ t.allProcs, p ∈ s.allProcs)
    (same : ∀ p ∈ t.allProcs, t.who p = {s.who p with ppid := (t.who p).ppid, sigact := (t.who p).sigact}) :
    Carried s t := by
  refine ⟨live,fun p here => by rw [same p here],fun p here => by rw [same p here],
    fun p here => by rw [same p here],fun p active => ⟨live p active.live,?_,?_⟩,fun p here user => ?_⟩
  · have user := active.user
    rwa [same p active.live] at user
  · have awake := active.awake
    rwa [same p active.live] at awake
  rw [same p here] at user ⊢
  exact ⟨user,rfl⟩

variable {me p : Addr} {n : Nat} {group : UInt32}

theorem exitCarried {s t init status} (exited : Exited me init status s t) : Carried s t := by
  have live p (here : p ∈ t.allProcs) : p ∈ s.allProcs := exited.all ▸ here
  have ids p (here : p ∈ t.allProcs) : (t.who p).pid = (s.who p).pid ∧ (t.who p).pgid = (s.who p).pgid ∧
      (t.who p).sid = (s.who p).sid := by
    by_cases mine : p = me
    · rw [mine,exited.self]
      exact ⟨rfl,rfl,rfl⟩
    have keeps := orphanKeeps (s.who me).pid (s.who p)
    rw [exited.other p (live p here) mine]
    exact ⟨keeps.1,keeps.2.2.2.2.1,keeps.2.2.2.2.2⟩
  have users p (here : p ∈ t.allProcs) (user : (t.who p).isUser = true) :
      (s.who p).isUser = true ∧ (t.who p).dead = (s.who p).dead := by
    have mine : p ≠ me := by
      rintro rfl
      rw [exited.self] at user
      cases user
    have keeps := orphanKeeps (s.who me).pid (s.who p)
    rw [← exited.other p (live p here) mine] at keeps
    exact ⟨keeps.2.2.1.symm.trans user,keeps.2.2.2.1⟩
  refine ⟨live,fun p here => (ids p here).1,fun p here => (ids p here).2.1,fun p here => (ids p here).2.2,?_,users⟩
  intro p active
  obtain ⟨user,same⟩ := users p active.live active.user
  exact ⟨live p active.live,user,same.symm.trans active.awake⟩

/- What a process `x` of `t` stands for at `s`: for itself or, as the `p` just forked under the
number `n`, for its parent. -/
structure Stems (s t : Scheduler) (n k : Nat) (p x y : Addr) : Prop where
  live : y ∈ s.allProcs
  sid : (t.who x).sid = (s.who y).sid
  active : Active t x → Active s y
  pid : x = y ∧ (t.who x).pid = (s.who y).pid ∨ x = p ∧ (t.who x).pid.toNat = n ∧ n < k

structure Descends (s t : Scheduler) (n k : Nat) (p x y : Addr) : Prop extends Stems s t n k p x y where
  pgid : (t.who x).pgid = (s.who y).pgid
  user : (t.who x).isUser = true → (s.who y).isUser = true ∧ (t.who x).dead = (s.who y).dead

theorem Carried.descends {s t k} (carried : Carried s t) : ∀ x ∈ t.allProcs, Descends s t n k p x x := by
  intro x here
  exact ⟨⟨carried.live x here,carried.sid x here,carried.active x,.inl ⟨rfl,carried.pid x here⟩⟩,
    carried.pgid x here,carried.users x here⟩

theorem Grouped.descends {s t k} (grouped : Grouped s n) (more : n ≤ k)
    (stems : ∀ x ∈ t.allProcs, ∃ y, Descends s t n k p x y) : Grouped t k := by
  refine ⟨?_,?_,?_,?_,?_,?_⟩
  · intro x z hx hz same
    obtain ⟨x',stemX⟩ := stems x hx.live
    obtain ⟨z',stemZ⟩ := stems z hz.live
    rw [stemX.pgid,stemZ.pgid] at same
    rw [stemX.sid,stemZ.sid]
    exact grouped.groups x' z' (stemX.active hx) (stemZ.active hz) same
  · intro x z hx hz same
    obtain ⟨x',stemX⟩ := stems x hx.live
    obtain ⟨z',stemZ⟩ := stems z hz.live
    rw [stemX.pgid] at same
    rcases stemZ.pid with ⟨_,pid⟩ | ⟨_,number,_⟩
    · rw [stemX.sid,stemZ.sid]
      exact grouped.named x' z' (stemX.active hx) (stemZ.active hz) (same.trans pid)
    have below := (grouped.given x' stemX.live).2.1
    rw [same] at below
    omega
  · intro x here leads
    obtain ⟨y,stem⟩ := stems x here
    rw [stem.sid] at leads
    rcases stem.pid with ⟨_,pid⟩ | ⟨_,number,_⟩
    · rw [stem.pgid,pid]
      exact grouped.leader y stem.live (leads.trans pid)
    have below := (grouped.given y stem.live).2.2
    rw [leads] at below
    omega
  · intro x here
    obtain ⟨y,stem⟩ := stems x here
    obtain ⟨a,b,c⟩ := grouped.given y stem.live
    rw [stem.pgid,stem.sid]
    refine ⟨?_,lt_of_lt_of_le b more,lt_of_lt_of_le c more⟩
    rcases stem.pid with ⟨_,pid⟩ | ⟨_,number,room⟩
    · rw [pid]
      exact lt_of_lt_of_le a more
    · exact number ▸ room
  · intro x z hx hz same
    obtain ⟨x',stemX⟩ := stems x hx.live
    obtain ⟨z',stemZ⟩ := stems z hz.live
    have belowX := (grouped.given x' stemX.live).1
    have belowZ := (grouped.given z' stemZ.live).1
    rcases stemX.pid with ⟨ownX,pidX⟩ | ⟨newX,numberX,_⟩ <;>
      rcases stemZ.pid with ⟨ownZ,pidZ⟩ | ⟨newZ,numberZ,_⟩
    · rw [ownX,ownZ]
      exact grouped.unique x' z' (stemX.active hx) (stemZ.active hz) (pidX.symm.trans (same.trans pidZ))
    · rw [← pidX,same] at belowX
      omega
    · rw [← pidZ,← same] at belowZ
      omega
    · rw [newX,newZ]
  intro x here user
  obtain ⟨y,stem⟩ := stems x here
  obtain ⟨before,same⟩ := stem.user user
  exact same.trans (grouped.users y stem.live before)

theorem Grouped.carried {s t k} (grouped : Grouped s n) (carried : Carried s t) (more : n ≤ k) : Grouped t k :=
  grouped.descends (p := 0) more (fun x here => ⟨x,carried.descends x here⟩)

theorem groupFound {s : Scheduler} {sid} (found : s.groupExists group sid = true) :
    ∃ r ∈ s.allProcs, (s.who r).isUser = true ∧ (s.who r).pgid = group ∧ (s.who r).sid = sid := by
  obtain ⟨r,live,checks⟩ := any_eq_true.mp found
  simp only [Bool.and_eq_true,beq_iff_eq] at checks
  exact ⟨r,live,checks.1.1,checks.1.2,checks.2⟩

/- The group a process may join: the one it can name itself, or one that has a member in
its session. Either way all members are of that session. -/
theorem joinSession {s} (grouped : Grouped s n) (active : Active s p)
    (named : group = (s.who p).pid ∨ s.groupExists group (s.who p).sid = true) :
    ∀ q, Active s q → (s.who q).pgid = group ∨ (s.who q).pid = group → (s.who q).sid = (s.who p).sid := by
  intro q hq which
  rcases named with own | found
  · subst own
    rcases which with member | same
    · exact grouped.named q p hq active member
    · rw [grouped.unique q p hq active same]
  obtain ⟨r,live,user,group',session⟩ := groupFound found
  have hr : Active s r := ⟨live,user,grouped.users r live user⟩
  rw [← session]
  rcases which with member | same
  · exact grouped.groups q r hq hr (member.trans group'.symm)
  · exact (grouped.named r q hr hq (group'.trans same.symm)).symm

abbrev intoGroup (s : Scheduler) (p : Addr) (group : UInt32) : Scheduler := s.modify p (fun x => {x with pgid := group})

abbrev leading (s : Scheduler) (p : Addr) : Scheduler := s.modify p (fun x => {x with sid := x.pid, pgid := x.pid})

theorem intoGroupWho (s p group x) : (intoGroup s p group).who x = if x = p then {s.who p with pgid := group} else s.who x := by
  rw [modifyWho]
  rfl

theorem intoGroupKeeps (s p group x) : let y := (intoGroup s p group).who x
    y.pid = (s.who x).pid ∧ y.sid = (s.who x).sid ∧ y.isUser = (s.who x).isUser ∧ y.dead = (s.who x).dead := by
  rw [intoGroupWho]
  split
  · rename_i same; subst same; exact ⟨rfl,rfl,rfl,rfl⟩
  · exact ⟨rfl,rfl,rfl,rfl⟩

theorem leadingWho (s p x) : (leading s p).who x =
    if x = p then {s.who p with pgid := (s.who p).pid, sid := (s.who p).pid} else s.who x := by
  rw [modifyWho]
  rfl

theorem leadingKeeps (s p x) : let y := (leading s p).who x
    y.pid = (s.who x).pid ∧ y.isUser = (s.who x).isUser ∧ y.dead = (s.who x).dead := by
  rw [leadingWho]
  split
  · rename_i same; subst same; exact ⟨rfl,rfl,rfl⟩
  · exact ⟨rfl,rfl,rfl⟩

theorem leadingActive {s p x} (active : Active (leading s p) x) : Active s x :=
  ⟨active.live,(leadingKeeps s p x).2.1.symm.trans active.user,(leadingKeeps s p x).2.2.symm.trans active.awake⟩

theorem Grouped.moved {s} (grouped : Grouped s n) (here : p ∈ s.allProcs) (follower : (s.who p).sid ≠ (s.who p).pid)
    (named : group = (s.who p).pid ∨ s.groupExists group (s.who p).sid = true) : Grouped (intoGroup s p group) n := by
  have kept := intoGroupKeeps s p group
  have groupAt : ((intoGroup s p group).who p).pgid = group := by rw [intoGroupWho,if_pos rfl]
  have groupElse x (other : x ≠ p) : ((intoGroup s p group).who x).pgid = (s.who x).pgid := by
    rw [intoGroupWho,if_neg other]
  have before x (hx : Active (intoGroup s p group) x) : Active s x :=
    ⟨hx.live,(kept x).2.2.1.symm.trans hx.user,(kept x).2.2.2.symm.trans hx.awake⟩
  refine ⟨?_,?_,?_,?_,?_,?_⟩
  · intro x y hx hy same
    rw [(kept x).2.1,(kept y).2.1]
    by_cases atX : x = p <;> by_cases atY : y = p
    · rw [atX,atY]
    · rw [atX,groupAt,groupElse y atY] at same
      rw [atX]
      exact (joinSession grouped (before p (atX ▸ hx)) named y (before y hy) (.inl same.symm)).symm
    · rw [atY,groupAt,groupElse x atX] at same
      rw [atY]
      exact joinSession grouped (before p (atY ▸ hy)) named x (before x hx) (.inl same)
    rw [groupElse x atX,groupElse y atY] at same
    exact grouped.groups x y (before x hx) (before y hy) same
  · intro x y hx hy same
    rw [(kept y).1] at same
    rw [(kept x).2.1,(kept y).2.1]
    by_cases atX : x = p
    · rw [atX,groupAt] at same
      rw [atX]
      exact (joinSession grouped (before p (atX ▸ hx)) named y (before y hy) (.inr same.symm)).symm
    rw [groupElse x atX] at same
    exact grouped.named x y (before x hx) (before y hy) same
  · intro x live leads
    rw [(kept x).1,(kept x).2.1] at leads
    have other : x ≠ p := by
      rintro rfl
      exact follower leads
    rw [(kept x).1,groupElse x other]
    exact grouped.leader x live leads
  · intro x live
    obtain ⟨a,b,c⟩ := grouped.given x live
    rw [(kept x).1,(kept x).2.1]
    refine ⟨a,?_,c⟩
    by_cases atX : x = p
    · rw [atX,groupAt]
      rcases named with own | found
      · rw [own]
        exact (grouped.given p here).1
      obtain ⟨r,alive,_,member,_⟩ := groupFound found
      rw [← member]
      exact (grouped.given r alive).2.1
    rw [groupElse x atX]
    exact b
  · intro x y hx hy same
    rw [(kept x).1,(kept y).1] at same
    exact grouped.unique x y (before x hx) (before y hy) same
  intro x live user
  rw [(kept x).2.2.2]
  exact grouped.users x live ((kept x).2.2.1.symm.trans user)

theorem Grouped.session {s} (grouped : Grouped s n) (active : Active s me)
    (free : ∀ p ∈ s.allProcs, (s.who p).isUser = true → (s.who p).pgid ≠ (s.who me).pid) : Grouped (leading s me) n := by
  have identity := leadingWho s me
  have kept := leadingKeeps s me
  have before x (hx : Active (leading s me) x) : Active s x := leadingActive hx
  have away x (hx : Active s x) : (s.who x).pgid ≠ (s.who me).pid := free x hx.live hx.user
  refine ⟨?_,?_,?_,?_,?_,?_⟩
  · intro x y hx hy same
    rw [identity,identity] at same ⊢
    by_cases atX : x = me <;> by_cases atY : y = me
    · rw [atX,atY]
    · rw [if_pos atX,if_neg atY] at same
      exact absurd same.symm (away y (before y hy))
    · rw [if_neg atX,if_pos atY] at same
      exact absurd same (away x (before x hx))
    rw [if_neg atX,if_neg atY] at same ⊢
    exact grouped.groups x y (before x hx) (before y hy) same
  · intro x y hx hy same
    rw [(kept y).1] at same
    by_cases atX : x = me
    · rw [atX,identity,if_pos rfl] at same
      have atY := grouped.unique me y active (before y hy) same
      rw [atX,← atY]
    rw [identity,if_neg atX] at same
    by_cases atY : y = me
    · rw [atY] at same
      exact absurd same (away x (before x hx))
    rw [identity,identity,if_neg atX,if_neg atY]
    exact grouped.named x y (before x hx) (before y hy) same
  · intro x live leads
    rw [identity] at leads ⊢
    split at leads
    · rename_i atX
      rw [if_pos atX]
    rename_i atX
    rw [if_neg atX]
    exact grouped.leader x live leads
  · intro x live
    rw [identity]
    split
    · obtain ⟨a,_,_⟩ := grouped.given me active.live
      exact ⟨a,a,a⟩
    · exact grouped.given x live
  · intro x y hx hy same
    rw [(kept x).1,(kept y).1] at same
    exact grouped.unique x y (before x hx) (before y hy) same
  intro x live user
  rw [(kept x).2.2]
  exact grouped.users x live ((kept x).2.1.symm.trans user)

theorem callerActive (consistent : Consistent records.idle s.sched) (called : s.caller = some me) : Active s.sched me := by
  obtain ⟨atCurrent,user⟩ := callerCurrent called
  exact ⟨consistent.currentLive me atCurrent,user,currentAwake consistent atCurrent⟩

theorem restyledCarried {s t} (restyled : Restyled s t) : Carried s t :=
  carriedWho (fun p here => restyled.all ▸ here) (fun p _ => by rw [restyled.who p])

theorem reapCarried (s : Scheduler) (p) : Carried s (s.processReap p) := by
  obtain ⟨all,_,identity⟩ := reapWho s p
  refine carriedWho (fun x here => ?_) (fun x _ => by rw [identity x])
  rw [all] at here
  exact mem_of_mem_erase here

theorem turnForks {e} (turn : Turn records s e t) : s.forks ≤ t.forks := by
  cases turn with
  | quiet restyled forks reaped other => exact forks.ge
  | exit => exact le_refl _
  | fork called room forked =>
    dsimp only
    split <;> omega
  | reap | group | session => exact le_refl _

theorem turnRoom {e} (room : s.forks+2 ≤ 2^32)
    (small : ∀ place cloned, e = .fork (some place) cloned → s.forks + 2 < 2^32) (turn : Turn records s e t) :
    t.forks + 2 ≤ 2^32 := by
  cases turn with
  | quiet restyled forks reaped other => omega
  | exit => exact room
  | @fork me place child cloned sched ctty called _ forked =>
    cases place with
    | none => exact room
    | some p => exact small p cloned rfl
  | reap | group | session => exact room

theorem forkDescends {place child sched} (family : Family records s) (called : s.caller = some me)
    (small : place.isSome = true → s.forks + 2 < 2^32) (forked : Forked me s.sched place child sched) :
    ∀ x ∈ sched.allProcs, ∃ y, Descends s.sched sched (s.forks+2)
    ((if place.isSome then s.forks + 1 else s.forks) + 2) (place.getD 0) x y ∧
    (child = some x ∧ y = me ∨ child ≠ some x ∧ y = x) := by
  intro x here
  have active := callerActive family.consistent called
  have old {k p} (here : x ∈ s.sched.allProcs) (same : sched.who x = s.sched.who x) :
      Descends s.sched sched (s.forks+2) k p x x :=
    ⟨⟨here,by rw [same],fun active => ⟨here,same ▸ active.user,same ▸ active.awake⟩,.inl ⟨rfl,by rw [same]⟩⟩,
      by rw [same],fun user => ⟨same ▸ user,by rw [same]⟩⟩
  cases forked with
  | refused => exact ⟨x,old here rfl,.inr ⟨nofun,rfl⟩⟩
  | failed all next other => exact ⟨x,old (all ▸ here) (other x (all ▸ here)),.inr ⟨nofun,rfl⟩⟩
  | born fresh all next self other =>
  rcases mem_cons.mp (all ▸ here) with rfl | before
  · have number : s.sched.nextPid.toNat = s.forks+2 := by
      rw [family.next,UInt32.toNat_ofNat']
      exact mod_eq_of_lt (small rfl)
    refine ⟨me,?_,.inl ⟨rfl,rfl⟩⟩
    constructor <;> try rw [self]
    · exact ⟨active.live,by rw [self]; rfl,fun _ => active,.inr ⟨rfl,by rw [self]; exact number,lt_succ_self _⟩⟩
    · rfl
    · exact fun _ => ⟨active.user,active.awake.symm⟩
  · exact ⟨x,old before (other x before),.inr ⟨fun same => fresh (Option.some.inj same ▸ before),rfl⟩⟩

theorem stepGrouped {e} (family : Family records s) (grouped : Grouped s.sched (s.forks+2))
    (taken : step records.idle s e = some t) (room : t.forks+2 ≤ 2^32) : Grouped t.sched (t.forks+2) := by
  have turn := family.turn taken
  have grown := turnForks turn
  cases turn with
  | quiet restyled forks reaped other => exact grouped.carried (restyledCarried restyled) (by omega)
  | exit atCurrent notIdle notInit exited => exact grouped.carried (exitCarried exited) (le_refl _)
  | fork called _ forked =>
    refine grouped.descends (by omega) (fun x here =>
      (forkDescends family called (fun given => ?_) forked x here).imp (fun _ stem => stem.1))
    simp only [given,if_true] at room
    omega
  | reap called live selected dead answer => exact grouped.carried (reapCarried s.sched _) (le_refl _)
  | group called live session follower named => exact grouped.moved live follower (session ▸ named)
  | session called free => exact grouped.session (callerActive family.consistent called) free

theorem bootGrouped (records) : Grouped (boot records).sched ((boot records).forks + 2) := by
  obtain ⟨all,_,idle,init⟩ := bootWho records
  have members p (here : p ∈ (boot records).sched.allProcs) : p = records.init ∨ p = records.idle := by
    rw [all] at here
    simpa using here
  have only p (active : Active (boot records).sched p) : p = records.init := by
    rcases members p active.live with first | second
    · exact first
    have user := active.user
    rw [second,idle] at user
    cases user
  have small : (boot records).forks = 0 := rfl
  refine ⟨?_,?_,?_,?_,?_,?_⟩
  · intro p q hp hq _
    rw [only p hp,only q hq]
  · intro p q hp hq _
    rw [only p hp,only q hq]
  · intro p here _
    rcases members p here with first | second
    · rw [first,init]
    · rw [second,idle]
  · intro p here
    rw [small]
    rcases members p here with first | second
    · rw [first,init]
      decide
    rw [second,idle]
    decide
  · intro p q hp hq _
    rw [only p hp,only q hq]
  intro p here _
  rcases members p here with first | second
  · rw [first,init]
  · rw [second,idle]

theorem visitedGrouped (records : Records) (events) : ∀ s ∈ visited (step records.idle) (boot records) events,
    Family records s ∧ (s.forks+2 ≤ 2^32 → Grouped s.sched (s.forks+2)) := by
  refine visitedAlways (fun s e t good taken => ?_) ⟨bootFamily records,fun _ => bootGrouped records⟩
  obtain ⟨family,grouped⟩ := good
  refine ⟨stepFamily family taken,fun room => stepGrouped family (grouped ?_) taken room⟩
  have grown := turnForks (family.turn taken)
  omega

/- In every state with at most 2^32 processes ever created. -/
theorem sessionsPartitionGroups (records : Records) (events : List Event) :
    ∀ s ∈ visited (step records.idle) (boot records) events, s.forks + 2 ≤ 2^32 →
    (∀ p ∈ s.sched.allProcs, ∀ q ∈ s.sched.allProcs, (s.sched.procs p).isUser = true → (s.sched.procs p).state ≠ .terminated →
    (s.sched.procs q).isUser = true → (s.sched.procs q).state ≠ .terminated →
    (s.sched.procs p).pgid = (s.sched.procs q).pgid → (s.sched.procs p).sid = (s.sched.procs q).sid) ∧
    (∀ p ∈ s.sched.allProcs, (s.sched.procs p).sid = (s.sched.procs p).pid →
    (s.sched.procs p).pgid = (s.sched.procs p).pid) := by
  intro s reached room
  have grouped := (visitedGrouped records events s reached).2 room
  have active p (live : p ∈ s.sched.allProcs) (user : (s.sched.procs p).isUser = true)
      (awake : (s.sched.procs p).state ≠ .terminated) :
      Active s.sched p :=
    ⟨live,user,by simpa [Scheduler.who,Process.identity] using awake⟩
  refine ⟨fun p hp q hq userP awakeP userQ awakeQ same => ?_,grouped.leader⟩
  exact grouped.groups p q (active p hp userP awakeP) (active q hq userQ awakeQ) same

def split : List Event :=
  [.fork (some 2) true,.kernel .yield,.setsid,.fork (some 3) true,.kernel .yield]

theorem sessionsSplit : ∃ s ∈ visited (step 0) (boot ⟨0,1,by decide⟩) split,
    ([1,2,3].map (fun p => ((s.sched.procs p).pgid,(s.sched.procs p).sid)) = [(1,1),(2,2),(2,2)]) ∧ s.forks + 2 ≤ 2^32 ∧
    (∀ p ∈ s.sched.allProcs, ∀ q ∈ s.sched.allProcs, (s.sched.procs p).isUser = true → (s.sched.procs p).state ≠ .terminated →
      (s.sched.procs q).isUser = true → (s.sched.procs q).state ≠ .terminated →
      (s.sched.procs p).pgid = (s.sched.procs q).pgid → (s.sched.procs p).sid = (s.sched.procs q).sid) := by
  have ended : (Runs.run (step 0) (boot ⟨0,1,by decide⟩) split).map (fun s =>
      ([1,2,3].map (fun p => ((s.sched.procs p).pgid,(s.sched.procs p).sid)),s.forks)) =
      some ([(1,1),(2,2),(2,2)],2) := by decide +kernel
  obtain ⟨s,seen,facts⟩ := visitedShows ended
  have room : s.forks+2 ≤ 2^32 := by
    rw [show s.forks = 2 from congrArg Prod.snd facts]
    decide
  exact ⟨s,seen,congrArg Prod.fst facts,room,(sessionsPartitionGroups ⟨0,1,by decide⟩ split s seen room).1⟩

end Miviex.Jobs
