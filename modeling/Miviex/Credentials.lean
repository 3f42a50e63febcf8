import Miviex.ControllingTerminals
import Miviex.Signals

/-! The user and group ids of processes and the calls that set them. Without an effective
uid 0 a call moves ids only among the three the process has, so a line of descent never
gets an id that its first process did not have. -/
namespace Miviex

open ByteMemory Function

structure Ids where
  real : UInt32
  effective : UInt32
  saved : UInt32
  deriving DecidableEq, Repr

structure Credentials where
  uids : Ids
  gids : Ids
  groups : List UInt32
  deriving DecidableEq, Repr

namespace Credentials

def keep : UInt32 := UInt32.ofInt (-1)

def ngroupsMax : Int := 32

def foreign (cur : Ids) (want : UInt32) : Bool :=
  want != keep && want != cur.real && want != cur.effective && want != cur.saved

def setres (cur : Ids) (nr ne ns : UInt32) (root : Bool) : Except Errno Unit × Ids :=
  if ¬ root ∧ [nr,ne,ns].any (foreign cur) then (.error .eperm,cur)
  else (.ok (),⟨if nr ≠ keep then nr else cur.real,if ne ≠ keep then ne else cur.effective,
      if ns ≠ keep then ns else cur.saved⟩)

section

variable (p : Credentials)

def root : Bool := p.uids.effective == 0

def sysSetresuid (r e s : Int) : Except Errno Unit × Credentials :=
  let set := setres p.uids (UInt32.ofInt r) (UInt32.ofInt e) (UInt32.ofInt s) p.root
  (set.1,{p with uids := set.2})

def sysSetresgid (r e s : Int) : Except Errno Unit × Credentials :=
  let set := setres p.gids (UInt32.ofInt r) (UInt32.ofInt e) (UInt32.ofInt s) p.root
  (set.1,{p with gids := set.2})

def sysSetuid (uid : Int) : Except Errno Unit × Credentials :=
  if UInt32.ofInt uid = keep then (.error .einval,p)
  else if p.root then
    (.ok (),{p with uids := ⟨UInt32.ofInt uid,UInt32.ofInt uid,UInt32.ofInt uid⟩})
  else p.sysSetresuid (-1) uid (-1)

def sysSetgid (gid : Int) : Except Errno Unit × Credentials :=
  if UInt32.ofInt gid = keep then (.error .einval,p)
  else if p.root then
    (.ok (),{p with gids := ⟨UInt32.ofInt gid,UInt32.ofInt gid,UInt32.ofInt gid⟩})
  else p.sysSetresgid (-1) gid (-1)

end

def followed (cur : Ids) (r e : Int) : UInt32 :=
  let ne := if UInt32.ofInt e = keep then cur.effective else UInt32.ofInt e
  if UInt32.ofInt r ≠ keep ∨ ne ≠ cur.real then ne else keep

def sysSetreuid (p : Credentials) (r e : Int) : Except Errno Unit × Credentials :=
  p.sysSetresuid r e (followed p.uids r e).toNat

def sysSetregid (p : Credentials) (r e : Int) : Except Errno Unit × Credentials :=
  p.sysSetresgid r e (followed p.gids r e).toNat

def sysSetgroups (p : Credentials) (space : UserSpace) (size : Int) (list : BitVec 64) :
    Except Errno Unit × Credentials :=
  if ¬ p.root then (.error .eperm,p)
  else if size < 0 ∨ size > ngroupsMax then (.error .einval,p)
  else if ¬ space.ok list (BitVec.ofInt 64 (size * 4)) false then (.error .efault,p)
  else (.ok (),{p with groups := (List.range size.toNat).map (fun i =>
    UInt32.ofBitVec (load32 space.bytes (list + BitVec.ofNat 64 (4 * i))))})

inductive Call where
  | setuid (uid : Int)
  | setgid (gid : Int)
  | setreuid (r e : Int)
  | setregid (r e : Int)
  | setresuid (r e s : Int)
  | setresgid (r e s : Int)
  | setgroups (space : UserSpace) (size : Int) (list : BitVec 64)

def apply (p : Credentials) : Call → Except Errno Unit × Credentials
  | .setuid uid => p.sysSetuid uid
  | .setgid gid => p.sysSetgid gid
  | .setreuid r e => p.sysSetreuid r e
  | .setregid r e => p.sysSetregid r e
  | .setresuid r e s => p.sysSetresuid r e s
  | .setresgid r e s => p.sysSetresgid r e s
  | .setgroups space size list => p.sysSetgroups space size list

end Credentials

def Ids.Has (ids : Ids) (x : UInt32) : Prop := x = ids.real ∨ x = ids.effective ∨ x = ids.saved

structure Ids.Within (a b : Ids) : Prop where
  real : b.Has a.real
  effective : b.Has a.effective
  saved : b.Has a.saved

namespace Credentials

theorem withinRefl (a : Ids) : a.Within a := ⟨.inl rfl,.inr (.inl rfl),.inr (.inr rfl)⟩

theorem withinHas {a b : Ids} {x} (within : a.Within b) (has : a.Has x) : b.Has x := by
  rcases has with rfl | rfl | rfl
  · exact within.real
  · exact within.effective
  · exact within.saved

theorem withinTrans {a b : Ids} {c} (first : a.Within b) (second : b.Within c) : a.Within c :=
  ⟨withinHas second first.real,withinHas second first.effective,withinHas second first.saved⟩

theorem foreignHas {cur want} (fine : foreign cur want = false) (set : want ≠ keep) : cur.Has want := by
  unfold foreign at fine
  simp only [Bool.and_eq_false_iff,bne_eq_false_iff_eq] at fine
  rcases fine with ((same | real) | effective) | saved
  · exact absurd same set
  · exact .inl real
  · exact .inr (.inl effective)
  · exact .inr (.inr saved)

theorem setresFailed {cur nr ne ns root e}
    (failed : (setres cur nr ne ns root).1 = .error e) : (setres cur nr ne ns root).2 = cur := by
  unfold setres at failed ⊢
  split
  · rfl
  rename_i granted
  rw [if_neg granted] at failed
  cases failed

theorem setresWithin (cur nr ne ns) : (setres cur nr ne ns false).2.Within cur := by
  have refl := withinRefl cur
  unfold setres
  split
  · exact refl
  rename_i granted
  have fine : foreign cur nr = false ∧ foreign cur ne = false ∧ foreign cur ns = false := by simpa using granted
  refine ⟨?_,?_,?_⟩
  · split
    · rename_i set
      exact foreignHas fine.1 set
    · exact refl.real
  · dsimp only
    split
    · rename_i set
      exact foreignHas fine.2.1 set
    · exact refl.effective
  dsimp only
  split
  · rename_i set
    exact foreignHas fine.2.2 set
  · exact refl.saved

structure Bounded (p q : Credentials) : Prop where
  uids : q.uids.Within p.uids
  gids : q.gids.Within p.gids
  groups : q.groups = p.groups

theorem boundedRefl (p) : Bounded p p := ⟨withinRefl p.uids,withinRefl p.gids,rfl⟩

theorem boundedTrans {p q r} (first : Bounded p q) (second : Bounded q r) : Bounded p r :=
  ⟨withinTrans second.uids first.uids,withinTrans second.gids first.gids,second.groups.trans first.groups⟩

theorem setresuidBounded {p} (plain : p.root = false) (r e s) : Bounded p (p.sysSetresuid r e s).2 := by
  unfold sysSetresuid
  rw [plain]
  exact ⟨setresWithin p.uids _ _ _,withinRefl p.gids,rfl⟩

theorem setresgidBounded {p} (plain : p.root = false) (r e s) : Bounded p (p.sysSetresgid r e s).2 := by
  unfold sysSetresgid
  rw [plain]
  exact ⟨withinRefl p.uids,setresWithin p.gids _ _ _,rfl⟩

theorem applyBounded {p} (plain : p.root = false) (c) : Bounded p (p.apply c).2 := by
  cases c with
  | setuid uid =>
    simp only [apply,sysSetuid,plain]
    split
    · exact boundedRefl p
    · exact setresuidBounded plain (-1) uid (-1)
  | setgid gid =>
    simp only [apply,sysSetgid,plain]
    split
    · exact boundedRefl p
    · exact setresgidBounded plain (-1) gid (-1)
  | setreuid r e => exact setresuidBounded plain r e _
  | setregid r e => exact setresgidBounded plain r e _
  | setresuid r e s => exact setresuidBounded plain r e s
  | setresgid r e s => exact setresgidBounded plain r e s
  | setgroups space size list =>
    have refused : p.apply (.setgroups space size list) = (.error .eperm,p) := by simp [apply,sysSetgroups,plain]
    rw [refused]
    exact boundedRefl p

theorem applyFailed {p : Credentials} {c e} (failed : (p.apply c).1 = .error e) : (p.apply c).2 = p := by
  have users r e' s (refused : (p.sysSetresuid r e' s).1 = .error e) : (p.sysSetresuid r e' s).2 = p := by
    unfold sysSetresuid at refused ⊢
    dsimp only at refused ⊢
    rw [setresFailed refused]
  have groups r e' s (refused : (p.sysSetresgid r e' s).1 = .error e) : (p.sysSetresgid r e' s).2 = p := by
    unfold sysSetresgid at refused ⊢
    dsimp only at refused ⊢
    rw [setresFailed refused]
  cases c with
  | setuid uid =>
    simp only [apply,sysSetuid] at failed ⊢
    split_ifs at failed ⊢
    · rfl
    · exact users (-1) uid (-1) failed
  | setgid gid =>
    simp only [apply,sysSetgid] at failed ⊢
    split_ifs at failed ⊢
    · rfl
    · exact groups (-1) gid (-1) failed
  | setreuid r e' => exact users r e' _ failed
  | setregid r e' => exact groups r e' _ failed
  | setresuid r e' s => exact users r e' s failed
  | setresgid r e' s => exact groups r e' s failed
  | setgroups space size list =>
  simp only [apply,sysSetgroups] at failed ⊢
  split
  · rfl
  rename_i privileged
  rw [if_neg privileged] at failed
  split
  · rfl
  rename_i sized
  rw [if_neg sized] at failed
  split
  · rfl
  rename_i mapped
  rw [if_neg mapped] at failed
  cases failed

theorem boundedPlain {p q} (bounded : Bounded p q)
    (nonzero : p.uids.real ≠ 0 ∧ p.uids.effective ≠ 0 ∧ p.uids.saved ≠ 0) : q.root = false := by
  obtain ⟨real,effective,saved⟩ := nonzero
  unfold root
  rw [beq_eq_false_iff_ne]
  rcases bounded.uids.effective with same | same | same
  · rw [same]; exact real
  · rw [same]; exact effective
  · rw [same]; exact saved

end Credentials

/- The processes with their credentials. `line` marks the records of one process and of
those that descend from it. -/
structure Users where
  jobs : Jobs
  creds : Addr → Credentials
  line : Addr → Bool

namespace Users

inductive Event where
  | job (e : Jobs.Event)
  | cred (c : Credentials.Call)

def born (s : Users) : Jobs.Event → Option Addr
  | .fork place cloned => (s.jobs.sched.processFork place cloned).1
  | _ => none

def inherit (s : Users) (jobs : Jobs) (parent child : Option Addr) : Users :=
  match parent, child with
  | some p, some c =>
    {s with
      jobs := jobs
      creds := update s.creds c (s.creds p)
      line := update s.line c (s.line p)}
  | _, _ => {s with jobs := jobs}

def step (idle : Addr) (s : Users) : Event → Option Users
  | .job e => (s.jobs.endless idle e).map (fun jobs => s.inherit jobs s.jobs.caller (s.born e))
  | .cred c => s.jobs.caller.map (fun me =>
      {s with creds := update s.creds me ((s.creds me).apply c).2})

def Confined (first : Credentials) (s : Users) : Prop :=
  ∀ p, s.line p = true → Credentials.Bounded first (s.creds p)

theorem inheritConfined {first s} (confined : Confined first s) (jobs parent child) :
    Confined first (s.inherit jobs parent child) := by
  unfold inherit
  split
  · rename_i p c
    intro x member
    dsimp only at member ⊢
    by_cases same : x = c
    · rw [same,update_self] at member ⊢
      exact confined p member
    rw [update_of_ne same] at member ⊢
    exact confined x member
  · exact confined

theorem stepConfined {idle first s t e} (nonzero : first.uids.real ≠ 0 ∧ first.uids.effective ≠ 0 ∧ first.uids.saved ≠ 0)
    (confined : Confined first s) (taken : s.step idle e = some t) : Confined first t := by
  cases e with
  | job e =>
    simp only [step,Option.map_eq_some_iff] at taken
    obtain ⟨jobs,_,rfl⟩ := taken
    exact inheritConfined confined jobs s.jobs.caller (s.born e)
  | cred c =>
  simp only [step,Option.map_eq_some_iff] at taken
  obtain ⟨me,_,rfl⟩ := taken
  intro x member
  dsimp only at member ⊢
  by_cases same : x = me
  · rw [same] at member ⊢
    rw [update_self]
    have bounded := confined me member
    exact Credentials.boundedTrans bounded (Credentials.applyBounded (Credentials.boundedPlain bounded nonzero) c)
  rw [update_of_ne same]
  exact confined x member

theorem credentialsNeverGrow (idle : Addr) (s : Users) (p : Addr) (line : ∀ x, s.line x = true → x = p)
    (nonzero : (s.creds p).uids.real ≠ 0 ∧ (s.creds p).uids.effective ≠ 0 ∧ (s.creds p).uids.saved ≠ 0)
    (events : List Event) : (∀ t ∈ Runs.visited (step idle) s events, ∀ x, t.line x = true →
    (t.creds x).uids.Within (s.creds p).uids ∧ (t.creds x).gids.Within (s.creds p).gids ∧
    (t.creds x).groups = (s.creds p).groups) ∧
    (∀ (q : Credentials) (c : Credentials.Call) (e : Errno), (q.apply c).1 = .error e → (q.apply c).2 = q) := by
  refine ⟨fun t reached x member => ?_,fun q c e failed => Credentials.applyFailed failed⟩
  have start : Confined (s.creds p) s := by
    intro y member
    rw [line y member]
    exact Credentials.boundedRefl (s.creds p)
  have bounded := Runs.visitedAlways (fun _ _ _ confined taken => stepConfined nonzero confined taken) start t reached
    x member
  exact ⟨bounded.uids,bounded.gids,bounded.groups⟩

def unprivileged : Users where
  jobs := Jobs.boot ⟨0,1,by decide⟩
  creds := fun _ => ⟨⟨1000,1000,1001⟩,⟨100,100,100⟩,[100,7]⟩
  line := fun p => p == 1

def askForRoot : List Event :=
  [.job (.fork (some 2) true),.job (.kernel .yield),.cred (.setresuid (-1) 1001 (-1)),.cred (.setuid 0)]

theorem childNeverRoot : ∃ t ∈ Runs.visited (step 0) unprivileged askForRoot,
    (t.line 2 = true ∧ t.creds 2 = ⟨⟨1000,1001,1001⟩,⟨100,100,100⟩,[100,7]⟩) ∧
    (t.creds 2).uids.Within (unprivileged.creds 1).uids ∧ ((t.creds 2).apply (.setuid 0)).2 = t.creds 2 := by
  have ended : (Runs.run (step 0) unprivileged askForRoot).map (fun t => (t.line 2,t.creds 2)) =
    some (true,⟨⟨1000,1001,1001⟩,⟨100,100,100⟩,[100,7]⟩) := by decide +kernel
  obtain ⟨t,seen,facts⟩ := Runs.visitedShows ended
  have member : t.line 2 = true := congrArg Prod.fst facts
  have creds : t.creds 2 = ⟨⟨1000,1001,1001⟩,⟨100,100,100⟩,[100,7]⟩ := congrArg Prod.snd facts
  have line x (same : unprivileged.line x = true) : x = 1 := by simpa [unprivileged] using same
  have grown := credentialsNeverGrow 0 unprivileged 1 line (by decide) askForRoot
  refine ⟨t,seen,⟨member,creds⟩,(grown.1 t seen 2 member).1,grown.2 (t.creds 2) (.setuid 0) .eperm ?_⟩
  rw [creds]
  decide

end Users
end Miviex
