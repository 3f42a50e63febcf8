import Miviex.JobSteps

/-! The process tree. Every process but idle and init has a living parent, since a process that
exits hands its children to init first; a dead process waits for the `wait4` of the parent it has
then. -/
namespace Miviex.Jobs
open List Bool Nat Scheduler Runs

open Scheduler (Same Restyled Exited Forked Consistent)

def Old (n : Nat) (pid : UInt32) : Prop := pid.toNat < n ∧ (pid = 0 → n = 2^32+1)

variable {n : Nat} {e : Event} {p me : Addr}

theorem Old.later {pid} (old : Old n pid) (room : n ≤ 2^32) : Old (n+1) pid := by
  refine ⟨lt_succ_of_lt old.1,fun zero => ?_⟩
  have full := old.2 zero
  omega

theorem freshToNat (room : n ≤ 2^32) : (UInt32.ofNat n).toNat = if n = 2^32 then 0 else n := by
  rw [UInt32.toNat_ofNat']
  split
  · rename_i full; simp only [full,mod_self]
  · exact mod_eq_of_lt (by omega)

theorem Old.fresh {pid} (old : Old n pid) (room : n ≤ 2^32) : pid ≠ UInt32.ofNat n := by
  intro same
  have value := freshToNat room
  rw [← same] at value
  have below := old.1
  split at value
  · have zero : pid = 0 := UInt32.toNat_inj.mp (by simpa using value)
    have full := old.2 zero
    omega
  · omega

theorem oldNew (given : 0 < n) (room : n ≤ 2^32) : Old (n+1) (UInt32.ofNat n) := by
  have value := freshToNat room
  refine ⟨?_,fun zero => ?_⟩
  · rw [value]
    split <;> omega
  rw [zero] at value
  split at value
  · omega
  simp at value
  omega

structure Family (records : Records) (s : Jobs) : Prop where
  consistent : Consistent records.idle s.sched
  bound : s.forks < 2^32
  next : s.sched.nextPid = UInt32.ofNat (s.forks+2)
  idleKernel : (s.sched.who records.idle).isUser = false
  idlePid : (s.sched.who records.idle).pid = 0
  initLive : records.init ∈ s.sched.allProcs
  initPid : (s.sched.who records.init).pid = 1
  initAwake : (s.sched.who records.init).dead = false
  old : ∀ p ∈ s.sched.allProcs, p ≠ records.idle → Old (s.forks+2) (s.sched.who p).pid
  unique : ∀ p ∈ s.sched.allProcs, ∀ q ∈ s.sched.allProcs, p ≠ records.idle → q ≠ records.idle →
    (s.sched.who p).pid = (s.sched.who q).pid → p = q
  parents : ∀ p ∈ s.sched.allProcs, p ≠ records.idle → p ≠ records.init → ∃ q ∈ s.sched.allProcs,
    q ≠ records.idle ∧ q ≠ p ∧ (s.sched.who q).pid = (s.sched.who p).ppid ∧ (s.sched.who q).dead = false
  ppids : ∀ p ∈ s.sched.allProcs, p ≠ records.idle → p ≠ records.init → (s.sched.who p).ppid ≠ 0
  reapedOld : ∀ x ∈ s.reaped, Old (s.forks+2) x.child
  reapedGone : ∀ x ∈ s.reaped, ∀ p ∈ s.sched.allProcs, p ≠ records.idle → (s.sched.who p).pid ≠ x.child
  reapedOnce : (s.reaped.map Reaping.child).Nodup

variable {records : Records} {s t : Jobs}

theorem Family.initFound (family : Family records s) : s.sched.processFind 1 = some records.init := by
  cases found : s.sched.processFind 1 with
  | none =>
    have absent := List.find?_eq_none.mp found records.init family.initLive
    exact absurd (beq_iff_eq.mpr family.initPid) absent
  | some p =>
  have live := processFindLive found
  have pid : (s.sched.who p).pid = 1 := by
    have picked := List.find?_some found
    exact beq_iff_eq.mp picked
  have notIdle : p ≠ records.idle := by
    rintro rfl
    rw [family.idlePid] at pid
    cases pid
  rw [family.unique p live _ family.initLive notIdle records.apart (pid.trans family.initPid.symm)]

theorem Family.turn (family : Family records s) (taken : step records.idle s e = some t) : Turn records s e t :=
  stepTurn family.consistent family.idleKernel family.initFound taken

structure SameKin (s t : Scheduler) : Prop where
  all : t.allProcs = s.allProcs
  next : t.nextPid = s.nextPid
  pid : ∀ p, (t.who p).pid = (s.who p).pid
  ppid : ∀ p, (t.who p).ppid = (s.who p).ppid
  exitStatus : ∀ p, (t.who p).exitStatus = (s.who p).exitStatus
  isUser : ∀ p, (t.who p).isUser = (s.who p).isUser
  dead : ∀ p, (t.who p).dead = (s.who p).dead

theorem restyledKin {s t} (restyled : Restyled s t) : SameKin s t :=
  ⟨restyled.all,restyled.next,fun p => by rw [restyled.who p],fun p => by rw [restyled.who p],
    fun p => by rw [restyled.who p],fun p => by rw [restyled.who p],fun p => by rw [restyled.who p]⟩

theorem modifyKin {s f}
    (keeps : (f (s.procs p)).identity = {s.who p with pgid := (f (s.procs p)).pgid, sid := (f (s.procs p)).sid}) :
    SameKin s (s.modify p f) := by
  have each : ∀ x, (s.modify p f).who x =
      {s.who x with pgid := ((s.modify p f).who x).pgid, sid := ((s.modify p f).who x).sid} := by
    intro x
    rw [modifyWho]
    split
    · rename_i same; subst same; exact keeps
    · rfl
  exact ⟨rfl,rfl,fun x => by rw [each x],fun x => by rw [each x],fun x => by rw [each x],
    fun x => by rw [each x],fun x => by rw [each x]⟩

theorem Family.kin (family : Family records s) (kin : SameKin s.sched t.sched)
    (consistent : Consistent records.idle t.sched) (forks : t.forks = s.forks) (reaped : t.reaped = s.reaped) :
    Family records t := by
  refine ⟨consistent,forks ▸ family.bound,?_,?_,?_,?_,?_,?_,?_,?_,?_,?_,?_,?_,?_⟩
  · rw [kin.next,forks]; exact family.next
  · rw [kin.isUser]; exact family.idleKernel
  · rw [kin.pid]; exact family.idlePid
  · rw [kin.all]; exact family.initLive
  · rw [kin.pid]; exact family.initPid
  · rw [kin.dead]; exact family.initAwake
  · intro p live other
    rw [kin.all] at live
    rw [kin.pid,forks]; exact family.old p live other
  · intro p live q live' other other' same
    rw [kin.all] at live live'
    rw [kin.pid,kin.pid] at same
    exact family.unique p live q live' other other' same
  · intro p live other other'
    rw [kin.all] at live
    obtain ⟨q,alive,notIdle,differ,pid,awake⟩ := family.parents p live other other'
    refine ⟨q,kin.all ▸ alive,notIdle,differ,?_,?_⟩
    · rw [kin.pid,kin.ppid]; exact pid
    · rw [kin.dead]; exact awake
  · intro p live other other'
    rw [kin.all] at live
    rw [kin.ppid]; exact family.ppids p live other other'
  · rw [reaped,forks]; exact family.reapedOld
  · intro x here p live other
    rw [kin.all] at live
    rw [reaped] at here
    rw [kin.pid]; exact family.reapedGone x here p live other
  · rw [reaped]; exact family.reapedOnce

theorem orphanKeeps (pid) (x : Identity) : (orphan pid x).pid = x.pid ∧
    (orphan pid x).exitStatus = x.exitStatus ∧ (orphan pid x).isUser = x.isUser ∧
    (orphan pid x).dead = x.dead ∧ (orphan pid x).pgid = x.pgid ∧ (orphan pid x).sid = x.sid := by
  unfold orphan
  split <;> exact ⟨rfl,rfl,rfl,rfl,rfl,rfl⟩

section

variable (family : Family records s)
include family

theorem Family.exited {status sched}
    (consistent : Consistent records.idle sched) (live : me ∈ s.sched.allProcs) (notIdle : me ≠ records.idle)
    (notInit : (s.sched.who me).pid ≠ 1) (exited : Exited me records.init status s.sched sched) :
    Family records {s with sched := sched} := by
  have differ : records.init ≠ me := fun same => notInit (same ▸ family.initPid)
  have kept p (here : p ∈ s.sched.allProcs) : (sched.who p).pid = (s.sched.who p).pid := by
    by_cases same : p = me
    · rw [same,exited.self]
    · rw [exited.other p here same,(orphanKeeps _ _).1]
  have awake p (here : p ∈ s.sched.allProcs) (other : p ≠ me) : (sched.who p).dead = (s.sched.who p).dead := by
    rw [exited.other p here other,(orphanKeeps _ _).2.2.2.1]
  -- whoever is told that 1 is the parent now has init
  have adopted p (other : p ≠ records.init) (parent : (sched.who p).ppid = 1) : ∃ q ∈ s.sched.allProcs,
      q ≠ records.idle ∧ q ≠ p ∧ (sched.who q).pid = (sched.who p).ppid ∧ (sched.who q).dead = false := by
    refine ⟨records.init,family.initLive,records.apart,other.symm,?_,?_⟩
    · rw [kept _ family.initLive,family.initPid,parent]
    · rw [awake _ family.initLive differ,family.initAwake]
  constructor <;> try simp only [exited.all]
  case idleKernel =>
    rw [exited.other _ family.consistent.idleLive (Ne.symm notIdle),(orphanKeeps _ _).2.2.1,family.idleKernel]
  case old =>
    intro p here
    rw [kept p here]
    exact family.old p here
  case unique =>
    intro p here q here'
    rw [kept p here,kept q here']
    exact family.unique p here q here'
  case parents =>
    intro p here other other'
    obtain ⟨q,alive,away,apart,pid,alert⟩ := family.parents p here other other'
    by_cases mine : p = me
    · subst mine
      by_cases given : s.sched.disinherits p records.init = true
      · exact adopted p other' (by rw [exited.self,given]; rfl)
      refine ⟨q,alive,away,apart,?_,?_⟩
      · rw [kept q alive,pid,exited.self,if_neg given]
      · rw [awake q alive apart,alert]
    have moved := exited.other p here mine
    by_cases child : (s.sched.who p).ppid = (s.sched.who me).pid
    · exact adopted p other' (by rw [moved,orphan,if_pos child])
    refine ⟨q,alive,away,apart,?_,?_⟩
    · rw [kept q alive,pid,moved,orphan,if_neg child]
    rw [awake q alive,alert]
    rintro rfl
    exact child pid.symm
  case ppids =>
    intro p here other other'
    have before := family.ppids p here other other'
    by_cases mine : p = me
    · rw [mine,exited.self]
      dsimp only
      split
      · decide
      · exact mine ▸ before
    rw [exited.other p here mine,orphan]
    split
    · show (1 : UInt32) ≠ 0
      decide
    · exact before
  case reapedGone =>
    intro x recorded p here
    rw [kept p here]
    exact family.reapedGone x recorded p here
  exacts [consistent,family.bound,exited.next.trans family.next,(kept _ family.consistent.idleLive).trans family.idlePid,
    family.initLive,(kept _ family.initLive).trans family.initPid,(awake _ family.initLive differ).trans family.initAwake,
    family.reapedOld,family.reapedOnce]

theorem Family.reaped {status}
    (consistent : Consistent records.idle (s.sched.processReap p)) (live : p ∈ s.sched.allProcs)
    (dead : (s.sched.procs p).state = .terminated) : Family records {s with
      sched := s.sched.processReap p
      reaped := s.reaped ++ [⟨(s.sched.procs me).pid,(s.sched.procs p).pid,status⟩]} := by
  obtain ⟨all,next,identity⟩ := reapWho s.sched p
  have gone : (s.sched.who p).dead = true := by simp [Scheduler.who,Process.identity,dead]
  have notIdle : p ≠ records.idle := by
    rintro rfl
    rcases family.consistent.idleAwake with h | h <;> rw [dead] at h <;> cases h
  have notInit : records.init ≠ p := by
    rintro rfl
    cases gone.symm.trans family.initAwake
  have remains x : x ∈ (s.sched.processReap p).allProcs ↔ x ≠ p ∧ x ∈ s.sched.allProcs := by
    rw [all]
    exact family.consistent.distinct.mem_erase_iff
  have recorded x (here : x ∈ s.reaped ++ [(⟨(s.sched.procs me).pid,(s.sched.procs p).pid,status⟩ : Reaping)]) :
      x ∈ s.reaped ∨ x.child = (s.sched.who p).pid := by
    rcases mem_append.mp here with old | new
    · exact .inl old
    rw [mem_singleton.mp new]
    exact .inr rfl
  constructor <;> try simp only [identity,remains]
  case old => exact fun x here => family.old x here.2
  case unique => exact fun x here y here' => family.unique x here.2 y here'.2
  case parents =>
    intro x here other other'
    obtain ⟨q,alive,away,apart,pid,awake⟩ := family.parents x here.2 other other'
    refine ⟨q,⟨?_,alive⟩,away,apart,pid,awake⟩
    rintro rfl
    cases gone.symm.trans awake
  case ppids => exact fun x here => family.ppids x here.2
  case reapedOld =>
    intro x here
    rcases recorded x here with old | new
    · exact family.reapedOld x old
    · exact new ▸ family.old p live notIdle
  case reapedGone =>
    rintro x here y ⟨differ,before⟩ other
    rcases recorded x here with old | new
    · exact family.reapedGone x old y before other
    rw [new]
    exact fun same => differ (family.unique y before p live other notIdle same)
  case reapedOnce =>
    rw [map_append,map_singleton]
    refine nodup_append.mpr ⟨family.reapedOnce,nodup_singleton _,?_⟩
    intro a inOld b inNew same
    obtain ⟨x,here,child⟩ := mem_map.mp inOld
    rw [mem_singleton.mp inNew] at same
    exact family.reapedGone x here p live notIdle (same.symm.trans child.symm)
  exacts [consistent,family.bound,next.trans family.next,family.idleKernel,family.idlePid,⟨notInit,family.initLive⟩,
    family.initPid,family.initAwake]

theorem Family.grown {sched ctty p} (consistent : Consistent records.idle sched)
    (live : me ∈ s.sched.allProcs) (awake : (s.sched.who me).dead = false) (notIdle : me ≠ records.idle)
    (room : s.forks+1 < 2^32) (next : sched.nextPid = s.sched.nextPid+1)
    (inside : ∀ x ∈ s.sched.allProcs, x ∈ sched.allProcs) (kept : ∀ x ∈ s.sched.allProcs, sched.who x = s.sched.who x)
    (others : ∀ x ∈ sched.allProcs, x ∈ s.sched.allProcs ∨ x = p ∧ me ≠ x ∧ (sched.who x).pid = s.sched.nextPid ∧
    (sched.who x).ppid = (s.sched.who me).pid) :
    Family records {s with sched := sched, ctty := ctty, forks := s.forks + 1} := by
  have space : s.forks+2 ≤ 2^32 := by omega
  have number : s.sched.nextPid+1 = UInt32.ofNat (s.forks+1+2) := by
    rw [family.next,show s.forks + 1 + 2 = s.forks+2 + 1 by omega,UInt32.ofNat_add (s.forks+2) 1]
    rfl
  have newcomer x (old : x ∈ s.sched.allProcs) (away : x ≠ records.idle) : (sched.who x).pid ≠ s.sched.nextPid := by
    rw [family.next,kept x old]
    exact (family.old x old away).fresh space
  refine ⟨consistent,room,next.trans number,?_,?_,inside _ family.initLive,?_,?_,?_,?_,?_,?_,?_,?_,family.reapedOnce⟩
  · exact (congrArg Identity.isUser (kept _ family.consistent.idleLive)).trans family.idleKernel
  · exact (congrArg Identity.pid (kept _ family.consistent.idleLive)).trans family.idlePid
  · exact (congrArg Identity.pid (kept _ family.initLive)).trans family.initPid
  · exact (congrArg Identity.dead (kept _ family.initLive)).trans family.initAwake
  · intro x here away
    rcases others x here with old | ⟨_,_,pid,_⟩
    · rw [kept x old]
      exact (family.old x old away).later space
    rw [pid,family.next]
    exact oldNew (by omega) space
  · intro x here y here' away away' same
    rcases others x here with old | ⟨new,_,pid,_⟩ <;> rcases others y here' with old' | ⟨new',_,pid',_⟩
    · rw [kept x old,kept y old'] at same
      exact family.unique x old y old' away away' same
    · exact absurd (same.trans pid') (newcomer x old away)
    · exact absurd (same.symm.trans pid) (newcomer y old' away')
    · rw [new,new']
  · intro x here away away'
    rcases others x here with old | ⟨_,differ,_,parent⟩
    · obtain ⟨q,alive,away'',apart,pid,alert⟩ := family.parents x old away away'
      exact ⟨q,inside q alive,away'',apart,by rw [kept q alive,kept x old,pid],by rw [kept q alive,alert]⟩
    · exact ⟨me,inside me live,notIdle,differ,by rw [kept me live,parent],by rw [kept me live,awake]⟩
  · intro x here away away'
    rcases others x here with old | ⟨_,_,_,parent⟩
    · rw [kept x old]
      exact family.ppids x old away away'
    rw [parent]
    intro zero
    have full := (family.old me live notIdle).2 zero
    omega
  · exact fun x here => (family.reapedOld x here).later space
  intro x recorded y here away
  rcases others y here with old | ⟨_,_,pid,_⟩
  · rw [kept y old]
    exact family.reapedGone x recorded y old away
  rw [pid,family.next]
  exact ((family.reapedOld x recorded).fresh space).symm

theorem Family.forked {place child sched}
    {ctty} (consistent : Consistent records.idle sched) (live : me ∈ s.sched.allProcs)
    (awake : (s.sched.who me).dead = false) (notIdle : me ≠ records.idle) (room : s.forks+1 < 2^32)
    (forked : Forked me s.sched place child sched) : Family records
    {s with sched := sched, ctty := ctty, forks := if place.isSome then s.forks + 1 else s.forks} := by
  cases forked with
  | refused => exact family.kin (restyledKin (Same.refl s.sched).restyled) consistent rfl rfl
  | failed all next other =>
    exact family.grown (p := me) consistent live awake notIdle room next (fun x here => all ▸ here) other
      (fun x here => .inl (all ▸ here))
  | @born p t fresh all next self other =>
    refine family.grown (p := p) consistent live awake notIdle room next (fun x here => all ▸ mem_cons_of_mem p here) other
      (fun x here => ?_)
    rw [all] at here
    rcases mem_cons.mp here with rfl | old
    · exact .inr ⟨rfl,fun same => fresh (same ▸ live),by rw [self]; rfl,by rw [self]; rfl⟩
    · exact .inl old

end

theorem currentAwake (consistent : Consistent records.idle s.sched)
    (atCurrent : s.sched.current = some me) : (s.sched.who me).dead = false := by
  simp [Scheduler.who,Process.identity,consistent.currentRuns me atCurrent]

theorem createdShape (records : Records) : ∃ x : Process, x.identity = ⟨1,0,0,0,0,fun _ => {},true,false⟩ ∧
    created records = (((Scheduler.boot records.idle).enroll records.init x).queuePushBack records.init).modify
    records.init (fun x => {x with pgid := x.pid, sid := x.pid}) := by
  have next : (Scheduler.boot records.idle).nextPid = 1 := (pushRelinks _ records.idle).nextPid
  have joined := enrollModify (Scheduler.boot records.idle) records.init
    (Scheduler.blank (Scheduler.boot records.idle).nextPid prioUser) (fun x => {x with isUser := true})
  refine ⟨_,?_,congrArg (fun u => (u.queuePushBack records.init).modify records.init
    (fun x => {x with pgid := x.pid, sid := x.pid})) joined⟩
  rfl

theorem createdConsistent (records : Records) : Consistent records.idle (created records) := by
  have all : (Scheduler.boot records.idle).allProcs = [records.idle] := (pushFrame _ records.idle).all
  have fresh : (Scheduler.boot records.idle).unused (some records.init) = true := by
    simp [Scheduler.unused,all,records.apart]
  have made := (createConsistent (bootConsistent records.idle) prioUser fresh).2
  exact harmlessConsistent (harmlessModify rfl rfl rfl rfl) made

theorem bootYields (records) : (boot records).sched = (created records).schedulerYield := by
  refine startEq ?_
  obtain ⟨x,_,shape⟩ := createdShape records
  have stopped : (Scheduler.boot records.idle).current = none := (pushFrame _ records.idle).current
  exact (pushFrame _ records.init).current.trans stopped

theorem bootWho (records : Records) :
    (boot records).sched.allProcs = [records.init,records.idle] ∧ (boot records).sched.nextPid = 2 ∧
    (boot records).sched.who records.idle = ⟨0,0,0,0,0,fun _ => {},false,false⟩ ∧
    (boot records).sched.who records.init = ⟨1,0,1,1,0,fun _ => {},true,false⟩ := by
  have started := yieldSame (createdConsistent records).toSettled
  rw [← bootYields] at started
  obtain ⟨x,identity,shape⟩ := createdShape records
  have first := (pushRelinks (Scheduler.init.enroll records.idle (Scheduler.blank 0 prioIdle)) records.idle).same
  have second := (pushRelinks ((Scheduler.boot records.idle).enroll records.init x) records.init).same
  have differ := records.apart
  refine ⟨?_,?_,?_,?_⟩
  · rw [started.all,shape]
    exact second.all.trans (congrArg (records.init::·) first.all)
  · rw [started.next,shape]
    exact second.next.trans (congrArg (· + 1) first.next)
  · rw [started.who,shape,modifyWho,if_neg (Ne.symm differ),second.who]
    have old : ((Scheduler.boot records.idle).enroll records.init x).who records.idle =
        (Scheduler.boot records.idle).who records.idle := by
      simp [Scheduler.who,Scheduler.enroll,Ne.symm differ]
    rw [old]
    refine (first.who records.idle).trans ?_
    simp [Scheduler.who,Scheduler.enroll,Scheduler.blank,Process.identity]
  rw [started.who,shape,modifyWho,if_pos rfl]
  have new : (((Scheduler.boot records.idle).enroll records.init x).queuePushBack records.init).who records.init =
      x.identity := by
    rw [second.who]
    simp [Scheduler.who,Scheduler.enroll]
  rw [identity] at new
  simp only [Scheduler.who,Process.identity,Identity.mk.injEq] at new ⊢
  simp [new]

theorem bootFamily (records) : Family records (boot records) := by
  obtain ⟨all,next,idle,init⟩ := bootWho records
  have only p (here : p ∈ (boot records).sched.allProcs) (other : p ≠ records.idle) : p = records.init := by
    rw [all] at here
    rcases mem_cons.mp here with same | rest
    · exact same
    · exact absurd (mem_singleton.mp rest) other
  have consistent : Consistent records.idle (boot records).sched := by
    rw [bootYields]
    exact yieldConsistent (createdConsistent records).toSettled
  have small : (boot records).forks = 0 := rfl
  refine ⟨consistent,by rw [small]; decide,by rw [next,small]; decide,by rw [idle],by rw [idle],?_,
    by rw [init],by rw [init],?_,?_,?_,?_,?_,?_,nodup_nil⟩
  · rw [all]
    exact mem_cons_self
  · intro p here other
    rw [only p here other,init,small]
    exact ⟨by decide,fun zero => absurd zero (by decide)⟩
  · intro p here q here' other other' _
    rw [only p here other,only q here' other']
  · intro p here other notInit
    exact absurd (only p here other) notInit
  · intro p here other notInit
    exact absurd (only p here other) notInit
  · intro x here
    cases here
  intro x here
  cases here

structure Stays (s t : Jobs) (p : Addr) : Prop where
  live : p ∈ t.sched.allProcs
  dead : (t.sched.procs p).state = .terminated
  pid : (t.sched.procs p).pid = (s.sched.procs p).pid
  status : (t.sched.procs p).exitStatus = (s.sched.procs p).exitStatus
  parent : (t.sched.procs p).ppid = (s.sched.procs p).ppid ∨ (t.sched.procs p).ppid = 1

/- A dead process that the step hands out: the step is a `wait4` of the process that its
`ppid` names, selects it, and answers with its pid and exit status. -/
structure Collected (s : Jobs) (e : Event) (t : Jobs) (p : Addr) : Prop where
  gone : p ∉ t.sched.allProcs
  call : ∃ me pid ustatus wnohang, e = .wait4 pid ustatus wnohang ∧ s.caller = some me ∧
    (s.sched.procs me).pid = (s.sched.procs p).ppid ∧ s.sched.waitSelects me pid p = true ∧
    (s.sched.sysWait4 me pid ustatus wnohang).1 =
      .child (s.sched.procs p).pid (ustatus.map (fun _ => (s.sched.procs p).exitStatus))

theorem deadIff {s : Scheduler} : (s.who p).dead = true ↔ (s.procs p).state = .terminated := by
  simp [Scheduler.who,Process.identity]

theorem kinStays (kin : SameKin s.sched t.sched) (live : p ∈ s.sched.allProcs)
    (dead : (s.sched.procs p).state = .terminated) : Stays s t p :=
  ⟨kin.all ▸ live,deadIff.mp ((kin.dead p).trans (deadIff.mpr dead)),kin.pid p,kin.exitStatus p,.inl (kin.ppid p)⟩

theorem selectsChild {s : Scheduler} {pid} (selected : s.waitSelects me pid p = true) :
    (s.procs p).ppid = (s.procs me).pid := by
  simp only [waitSelects,not_eq_true',or_eq_false_iff] at selected
  simpa using selected.1.1.1.2

theorem ofIntToNat (pid : UInt32) : UInt32.ofInt (pid.toNat : Int) = pid := by
  have small := pid.toNat_lt
  rw [← UInt32.toNat_inj,UInt32.ofInt,UInt32.toNat_ofNat']
  omega

structure GivenUp (records : Records) (pid : UInt32) (s : Jobs) : Prop where
  family : Family records s
  old : Old (s.forks+2) pid
  held : ∀ p ∈ s.sched.allProcs, p ≠ records.idle → (s.sched.who p).pid = pid →
    (s.sched.who p).dead = true ∧ (s.sched.who p).ppid = 1
  reaped : ∀ x ∈ s.reaped, x.child = pid → x.parent = 1

section

variable (family : Family records s)
include family

theorem zombieReapable {ustatus} (live : p ∈ s.sched.allProcs)
    (dead : (s.sched.procs p).state = .terminated) (numbered : 2 ≤ (s.sched.procs p).pid)
    (called : s.caller = some me) (parent : (s.sched.procs me).pid = (s.sched.procs p).ppid)
    (mapped : ustatus ≠ some false) (wnohang) : (s.sched.sysWait4 me (s.sched.procs p).pid.toNat ustatus wnohang).1 =
    .child (s.sched.procs p).pid (ustatus.map (fun _ => (s.sched.procs p).exitStatus)) := by
  have positive : 2 ≤ (s.sched.procs p).pid.toNat := numbered
  have asked := ofIntToNat (s.sched.procs p).pid
  have own : p ≠ me := by
    rintro rfl
    have awake := currentAwake family.consistent (callerCurrent called).1
    rw [deadIff.mpr dead] at awake
    cases awake
  have selects : s.sched.waitSelects me ((s.sched.procs p).pid.toNat : Int) p = true := by
    simp [waitSelects,own,parent,asked]
    omega
  cases found : s.sched.allProcs.find? (fun q => s.sched.waitSelects me ((s.sched.procs p).pid.toNat : Int) q &&
      (s.sched.procs q).state == .terminated) with
  | none =>
    have absent := List.find?_eq_none.mp found p live
    simp [selects,dead] at absent
  | some q =>
    have picked := List.find?_some found
    have alive := mem_of_find?_eq_some found
    have same : q = p := by
      have pid : (s.sched.procs q).pid = (s.sched.procs p).pid := by
        simp only [and_eq_true,waitSelects,not_eq_true',or_eq_false_iff] at picked
        have match_ := picked.1.1.1.2
        rw [asked] at match_
        have ordered : 0 < (s.sched.procs p).pid.toNat := by omega
        simpa [ordered] using match_
      have away : ∀ x, (s.sched.procs x).pid = (s.sched.procs p).pid → x ≠ records.idle := by
        rintro x equal rfl
        have zero : (s.sched.procs records.idle).pid = 0 := family.idlePid
        rw [← equal,zero] at positive
        simp at positive
      exact family.unique q alive p live (away q pid) (away p rfl) pid
    unfold sysWait4
    rw [if_neg mapped,found,same]

section

variable (taken : step records.idle s e = some t)
include taken

theorem stepFamily : Family records t := by
  have consistent := stepConsistent family.consistent family.idleKernel taken
  have notIdle : ∀ {me}, s.caller = some me → me ≠ records.idle := by
    rintro me called rfl
    have user := (callerCurrent called).2
    rw [family.idleKernel] at user
    cases user
  cases family.turn taken with
  | quiet restyled forks reaped other => exact family.kin (restyledKin restyled) consistent forks reaped
  | exit atCurrent notIdle notInit exited =>
    exact family.exited consistent (family.consistent.currentLive _ atCurrent) notIdle notInit exited
  | fork called room forked =>
    have atCurrent := (callerCurrent called).1
    exact family.forked consistent (family.consistent.currentLive _ atCurrent)
      (currentAwake family.consistent atCurrent) (notIdle called) room forked
  | reap called live selected dead answer => exact family.reaped consistent live dead
  | group | session =>
    refine family.kin ?_ consistent rfl rfl
    dsimp only
    exact modifyKin rfl

theorem deadStep
    (live : p ∈ s.sched.allProcs) (dead : (s.sched.procs p).state = .terminated) : Stays s t p ∨ Collected s e t p := by
  have gone : (s.sched.who p).dead = true := deadIff.mpr dead
  cases family.turn taken with
  | quiet restyled forks reaped other => exact .inl (kinStays (restyledKin restyled) live dead)
  | @exit me status released sched atCurrent notIdle notInit exited =>
    have other : p ≠ me := by
      rintro rfl
      rw [currentAwake family.consistent atCurrent] at gone
      cases gone
    have moved := exited.other p live other
    have keeps := orphanKeeps (s.sched.who me).pid (s.sched.who p)
    rw [← moved] at keeps
    refine .inl ⟨by rw [exited.all]; exact live,deadIff.mp (keeps.2.2.2.1.trans gone),keeps.1,keeps.2.1,?_⟩
    show (sched.who p).ppid = (s.sched.who p).ppid ∨ (sched.who p).ppid = 1
    rw [moved,orphan]
    split
    · exact .inr rfl
    · exact .inl rfl
  | @fork me place child cloned sched ctty called room forked =>
    have facts : p ∈ sched.allProcs ∧ sched.who p = s.sched.who p := by
      cases forked with
      | born fresh all next self other => exact ⟨by rw [all]; exact mem_cons_of_mem _ live,other p live⟩
      | failed all next other => exact ⟨by rw [all]; exact live,other p live⟩
      | refused => exact ⟨live,rfl⟩
    obtain ⟨still,same⟩ := facts
    exact .inl ⟨still,deadIff.mp ((congrArg Identity.dead same).trans gone),congrArg Identity.pid same,
      congrArg Identity.exitStatus same,.inl (congrArg Identity.ppid same)⟩
  | @reap me q pid ustatus wnohang called alive selected dead' answer =>
    obtain ⟨all,_,identity⟩ := reapWho s.sched q
    by_cases same : p = q
    · subst same
      refine .inr ⟨?_,me,pid,ustatus,wnohang,rfl,called,(selectsChild selected).symm,selected,answer⟩
      rw [all]
      exact fun here => (family.consistent.distinct.mem_erase_iff.mp here).1 rfl
    refine .inl ⟨?_,deadIff.mp ((congrArg Identity.dead (identity p)).trans gone),
      congrArg Identity.pid (identity p),congrArg Identity.exitStatus (identity p),
      .inl (congrArg Identity.ppid (identity p))⟩
    rw [all]
    exact family.consistent.distinct.mem_erase_iff.mpr ⟨same,live⟩
  | group | session =>
    refine .inl (kinStays ?_ live dead)
    dsimp only
    exact modifyKin rfl

/- Whoever is live after a step was live before under the same pid, or has the number of the fork. -/
theorem stepPids (here : p ∈ t.sched.allProcs) :
    p ∈ s.sched.allProcs ∧ (t.sched.who p).pid = (s.sched.who p).pid ∨
    (t.sched.who p).pid = UInt32.ofNat (s.forks+2) ∧ s.forks + 2 ≤ 2^32 := by
  cases family.turn taken with
  | quiet restyled forks reaped other => exact .inl ⟨restyled.all ▸ here,(restyledKin restyled).pid p⟩
  | @exit me status released sched atCurrent notIdle notInit exited =>
    have live : p ∈ s.sched.allProcs := exited.all ▸ here
    refine .inl ⟨live,?_⟩
    by_cases mine : p = me
    · rw [mine,exited.self]
    · rw [exited.other p live mine,(orphanKeeps _ _).1]
  | @fork me place child cloned sched ctty called room forked =>
    cases forked with
    | refused => exact .inl ⟨here,rfl⟩
    | failed all next other => exact .inl ⟨all ▸ here,congrArg Identity.pid (other p (all ▸ here))⟩
    | born fresh all next self other =>
      rcases mem_cons.mp (all ▸ here) with rfl | live
      · refine .inr ⟨?_,by omega⟩
        rw [self,← family.next]
        rfl
      · exact .inl ⟨live,congrArg Identity.pid (other p live)⟩
  | reap called live selected dead answer =>
    obtain ⟨all,_,identity⟩ := reapWho s.sched _
    exact .inl ⟨mem_of_mem_erase (all ▸ here),congrArg Identity.pid (identity p)⟩
  | group | session =>
    refine .inl ⟨here,?_⟩
    dsimp only
    exact (modifyKin rfl).pid p

end

theorem exitGivenUp {parent status released}
    (atCurrent : s.sched.current = some me) (live : parent ∈ s.sched.allProcs)
    (named : (s.sched.procs parent).pid = (s.sched.procs me).ppid) (notInit : (s.sched.procs parent).pid ≠ 1)
    (ignores : ignoresChildren (s.sched.procs parent) = true)
    (taken : step records.idle s (.kernel (.exit status released)) = some t) : GivenUp records (s.sched.procs me).pid t := by
  have after := stepFamily family taken
  cases family.turn taken with
  | quiet restyled forks reaped other => exact absurd rfl (other status released)
  | @exit me' _ _ sched atCurrent' notIdle notInit' exited =>
  cases Option.some.inj (atCurrent.symm.trans atCurrent')
  have here := family.consistent.currentLive me atCurrent
  have notFirst : me ≠ records.init := by
    rintro rfl
    exact notInit' family.initPid
  have nonzero := family.ppids me here notIdle notFirst
  have away : ∀ x, (s.sched.who x).pid = (s.sched.who me).ppid → x ≠ records.idle := by
    rintro x same rfl
    rw [family.idlePid] at same
    exact nonzero same.symm
  have gives : s.sched.disinherits me records.init = true := by
    unfold disinherits
    cases found : s.sched.processFind (s.sched.who me).ppid with
    | none =>
      have absent := List.find?_eq_none.mp found parent live
      exact absurd (beq_iff_eq.mpr named) absent
    | some q =>
    have picked := List.find?_some found
    have pid : (s.sched.who q).pid = (s.sched.who me).ppid := beq_iff_eq.mp picked
    have same : q = parent := family.unique q (processFindLive found) parent live (away q pid)
      (away parent named) (pid.trans named.symm)
    have other : parent ≠ records.init := by
      rintro rfl
      exact notInit family.initPid
    simp [same,ignores,other]
  refine ⟨after,family.old me here notIdle,fun p inside other same => ?_,fun x recorded child => ?_⟩
  · have live' : p ∈ s.sched.allProcs := exited.all ▸ inside
    have mine : p = me := by
      by_contra differ
      have kept : (sched.who p).pid = (s.sched.who p).pid := by
        rw [exited.other p live' differ]
        exact (orphanKeeps _ _).1
      exact differ (family.unique p live' me here other notIdle (kept.symm.trans same))
    rw [mine,exited.self,gives]
    exact ⟨rfl,rfl⟩
  · exact absurd child.symm (family.reapedGone x recorded me here notIdle)

end

theorem stepGivenUp {pid} (given : GivenUp records pid s) (taken : step records.idle s e = some t) : GivenUp records pid t := by
  have family := stepFamily given.family taken
  have held p (here : p ∈ t.sched.allProcs) (other : p ≠ records.idle) (same : (t.sched.who p).pid = pid) :
      (t.sched.who p).dead = true ∧ (t.sched.who p).ppid = 1 := by
    rcases stepPids given.family taken here with ⟨live,kept⟩ | ⟨number,space⟩
    · obtain ⟨dead,parent⟩ := given.held p live other (kept.symm.trans same)
      rcases deadStep given.family taken live (deadIff.mp dead) with stays | collected
      · exact ⟨deadIff.mpr stays.dead,stays.parent.elim (fun kept => kept.trans parent) id⟩
      · exact absurd here collected.gone
    · exact absurd (same.symm.trans number) (given.old.fresh space)
  cases given.family.turn taken with
  | quiet restyled forks reaped other => exact ⟨family,forks ▸ given.old,held,reaped ▸ given.reaped⟩
  | exit | group | session => exact ⟨family,given.old,held,given.reaped⟩
  | fork called room forked =>
    refine ⟨family,?_,held,given.reaped⟩
    dsimp only
    split
    · exact given.old.later (by omega)
    · exact given.old
  | @reap me q wanted ustatus wnohang called live selected dead answer =>
  refine ⟨family,given.old,held,fun x here child => ?_⟩
  rcases mem_append.mp here with old | new
  · exact given.reaped x old child
  rw [mem_singleton.mp new] at child ⊢
  have notIdle : q ≠ records.idle := by
    rintro rfl
    rcases given.family.consistent.idleAwake with h | h <;> rw [dead] at h <;> cases h
  exact (selectsChild selected).symm.trans (given.held q live notIdle child).2

structure TreeLaw (records : Records) (s : Jobs) : Prop where
  parents : ∀ p ∈ s.sched.allProcs, 2 ≤ (s.sched.procs p).pid → ∃ q ∈ s.sched.allProcs,
    (s.sched.procs q).pid = (s.sched.procs p).ppid ∧ (s.sched.procs q).state ≠ .terminated
  reapable : ∀ p ∈ s.sched.allProcs, (s.sched.procs p).state = .terminated → 2 ≤ (s.sched.procs p).pid →
    ∀ me, s.caller = some me → (s.sched.procs me).pid = (s.sched.procs p).ppid →
    ∀ ustatus wnohang, ustatus ≠ some false → (s.sched.sysWait4 me (s.sched.procs p).pid.toNat ustatus wnohang).1 =
        .child (s.sched.procs p).pid (ustatus.map (fun _ => (s.sched.procs p).exitStatus))
  removal : ∀ e t, step records.idle s e = some t → ∀ p ∈ s.sched.allProcs,
    (s.sched.procs p).state = .terminated → Stays s t p ∨ Collected s e t p
  once : (s.reaped.map Reaping.child).Nodup
  ignored : ∀ me, s.sched.current = some me → ∀ parent ∈ s.sched.allProcs,
    (s.sched.procs parent).pid = (s.sched.procs me).ppid → (s.sched.procs parent).pid ≠ 1 →
    ignoresChildren (s.sched.procs parent) = true →
    ∀ status released t, step records.idle s (.kernel (.exit status released)) = some t →
    ∀ later u, Runs.run (step records.idle) t later = some u →
    ∀ x ∈ u.reaped, x.child = (s.sched.procs me).pid → x.parent ≠ (s.sched.procs parent).pid

theorem familyLaw (family : Family records s) : TreeLaw records s := by
  refine ⟨?_,?_,?_,family.reapedOnce,?_⟩
  · intro p live numbered
    have notIdle : p ≠ records.idle := by
      rintro rfl
      have zero : (s.sched.procs records.idle).pid = 0 := family.idlePid
      rw [zero] at numbered
      exact absurd numbered (by decide)
    have notInit : p ≠ records.init := by
      rintro rfl
      have one : (s.sched.procs records.init).pid = 1 := family.initPid
      rw [one] at numbered
      exact absurd numbered (by decide)
    obtain ⟨q,alive,_,_,pid,awake⟩ := family.parents p live notIdle notInit
    refine ⟨q,alive,pid,fun dead => ?_⟩
    rw [deadIff.mpr dead] at awake
    cases awake
  · intro p live dead numbered me called parent ustatus wnohang mapped
    exact zombieReapable family live dead numbered called parent mapped wnohang
  · intro e t taken p live dead
    exact deadStep family taken live dead
  intro me atCurrent parent live named notInit ignores status released t taken later u reached x recorded child same
  have given := exitGivenUp family atCurrent live named notInit ignores taken
  have final := runInvariant (fun _ _ _ given taken => stepGivenUp given taken) given reached
  rw [final.reaped x recorded child] at same
  exact notInit same.symm

theorem processTree (records : Records) (events : List Event) :
    ∀ s ∈ visited (step records.idle) (boot records) events, TreeLaw records s := by
  intro s reached
  exact familyLaw (visitedAlways (fun _ _ _ family taken => stepFamily family taken) (bootFamily records)
    s reached)

def waited : List Event :=
  [.fork (some 2) true,.wait4 (-1) (some true) false,.kernel (.exit 7 []),.wait4 (-1) (some true) false]

theorem processTreeWaited : ∃ s ∈ visited (step 0) (boot ⟨0,1,by decide⟩) waited,
    s.reaped = [⟨1,2,some 7⟩] ∧ TreeLaw ⟨0,1,by decide⟩ s := by
  have ended : (Runs.run (step 0) (boot ⟨0,1,by decide⟩) waited).map (fun s => s.reaped) =
      some [⟨1,2,some 7⟩] := by decide +kernel
  obtain ⟨s,seen,collected⟩ := visitedShows ended
  exact ⟨s,seen,collected,processTree ⟨0,1,by decide⟩ waited s seen⟩

end Miviex.Jobs
