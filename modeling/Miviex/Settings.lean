import Miviex.PathWalk
import Miviex.SignalMasks

/-! The settings of the whole system: the names of the host, the wall clock, the mounts, the
console log level and Ctrl-Alt-Del, with the system calls that set them. -/
namespace Miviex
open List Option

open ByteMemory

def utsLen : Nat := 65
def nsPerSec : BitVec 64 := 1000000000
def logBuf : Nat := 65536

/- `hostname` and `domainname` are the whole buffers. -/
structure Settings where
  hostname : List (BitVec 8)
  domainname : List (BitVec 8)
  bootNs : BitVec 64
  consoleLevel : Int
  savedLevel : Int
  cadRestart : Bool
  deriving DecidableEq

/- `log` is what the ring of kernel messages holds, oldest byte first, and `monotonic` what
`clock_monotonic_ns` answers. `rest` is everything else. -/
structure Host (R : Type) where
  settings : Settings
  vfs : Vfs
  log : List (BitVec 8)
  monotonic : BitVec 64
  rest : R

structure Arguments where
  a1 : BitVec 64 := 0
  a2 : BitVec 64 := 0
  a3 : BitVec 64 := 0
  a4 : BitVec 64 := 0
  a5 : BitVec 64 := 0
  a6 : BitVec 64 := 0

structure Caller where
  cred : Cred
  space : UserSpace

/- No value: the call does not come back. -/
structure Finished (R : Type) where
  value : Option (BitVec 64)
  host : Host R
  space : UserSpace

namespace Host

variable {R : Type}

def finished (h : Host R) (p : Caller) (value : BitVec 64) : Finished R := ⟨some value,h,p.space⟩

def set (h : Host R) (f : Settings → Settings) : Host R := {h with settings := f h.settings}

def setName (dst : List (BitVec 8)) (space : UserSpace) (uname len : BitVec 64) : Except Errno (List (BitVec 8)) :=
  if len.toInt < 0 ∨ len.toInt ≥ utsLen then .error .einval
  else if ¬ space.ok uname len false then .error .efault
  else .ok (loadBytes space.bytes uname len.toNat ++ 0::dst.drop (len.toNat+1))

def sysSethostname (h : Host R) (p : Caller) (a : Arguments) : Finished R :=
  match setName h.settings.hostname p.space a.a1 a.a2 with
  | .error e => h.finished p e.result
  | .ok name => (h.set ({· with hostname := name})).finished p 0

def sysSetdomainname (h : Host R) (p : Caller) (a : Arguments) : Finished R :=
  match setName h.settings.domainname p.space a.a1 a.a2 with
  | .error e => h.finished p e.result
  | .ok name => (h.set ({· with domainname := name})).finished p 0

def getTs (space : UserSpace) (uts : BitVec 64) : Except Errno (BitVec 64) :=
  if ¬ space.ok uts 16 false then .error .efault
  else if Task.badTime (wordAt space.bytes uts 0) (wordAt space.bytes uts 1) then .error .einval
  else .ok (wordAt space.bytes uts 0 * nsPerSec + wordAt space.bytes uts 1)

def clockSetRealtimeNs (h : Host R) (ns : BitVec 64) : Host R := h.set ({· with bootNs := ns - h.monotonic})

def sysClockSettime (h : Host R) (p : Caller) (a : Arguments) : Finished R :=
  if a.a1 ≠ 0 then h.finished p Errno.einval.result
  else match getTs p.space a.a2 with
    | .error e => h.finished p e.result
    | .ok ns => (h.clockSetRealtimeNs ns).finished p 0

def badMicro (sec usec : BitVec 64) : Bool := sec.toInt < 0 || usec.toInt < 0 || usec.toInt ≥ 1000000

def getTv (space : UserSpace) (utv : BitVec 64) : Except Errno (BitVec 64) :=
  if ¬ space.ok utv 16 false then .error .efault
  else if badMicro (wordAt space.bytes utv 0) (wordAt space.bytes utv 1) then .error .einval
  else .ok (wordAt space.bytes utv 0 * nsPerSec + wordAt space.bytes utv 1 * 1000)

section

variable (h : Host R) (p : Caller) (a : Arguments)

def sysSettimeofday : Finished R :=
  if a.a1 = 0 then h.finished p 0
  else match getTv p.space a.a1 with
    | .error e => h.finished p e.result
    | .ok ns => (h.clockSetRealtimeNs ns).finished p 0

def readLog (clear : Bool) : Finished R :=
  if a.a3.toInt < 0 then h.finished p Errno.einval.result
  else if ¬ p.space.ok a.a2 a.a3 true then h.finished p Errno.efault.result
  else
    let n := min a.a3.toNat h.log.length
    let space := {p.space with bytes := storeBytes p.space.bytes a.a2 (h.log.drop (h.log.length-n))}
    ⟨some (BitVec.ofNat 64 n),if clear then {h with log := []} else h,space⟩

def sysSyslog : Finished R :=
  if a.a1 ≠ 3 ∧ a.a1 ≠ 10 ∧ p.cred.euid ≠ 0 then h.finished p Errno.eperm.result
  else match a.a1.toNat with
    | 0 => h.finished p 0
    | 1 => h.finished p 0
    | 2 => h.readLog p a false
    | 3 => h.readLog p a false
    | 4 => h.readLog p a true
    | 5 => {h with log := []}.finished p 0
    | 6 => (h.set (fun s => {s with savedLevel := s.consoleLevel, consoleLevel := 1})).finished p 0
    | 7 => (h.set (fun s => {s with consoleLevel := s.savedLevel})).finished p 0
    | 8 =>
      if a.a3.toInt < 1 ∨ a.a3.toInt > 8 then h.finished p Errno.einval.result
      else (h.set ({· with consoleLevel := a.a3.toInt})).finished p 0
    | 9 => h.finished p (BitVec.ofNat 64 h.log.length)
    | 10 => h.finished p (BitVec.ofNat 64 logBuf)
    | _ => h.finished p Errno.einval.result

def sysReboot : Finished R :=
  let magic2 := (a.a2.setWidth 32).toNat
  if p.cred.euid ≠ 0 then h.finished p Errno.eperm.result
  else if a.a1.setWidth 32 ≠ 0xFEE1DEAD#32 ∨
      (magic2 ≠ 672274793 ∧ magic2 ≠ 85072278 ∧ magic2 ≠ 369367448 ∧ magic2 ≠ 537993216) then
    h.finished p Errno.einval.result
  else match (a.a3.setWidth 32).toNat with
    | 0x01234567 | 0xA1B2C3D4 | 0xCDEF0123 | 0x4321FEDC => ⟨none,h,p.space⟩
    | 0x89ABCDEF => (h.set ({· with cadRestart := true})).finished p 0
    | 0 => (h.set ({· with cadRestart := false})).finished p 0
    | _ => h.finished p Errno.einval.result

end

def mountFlags (flags : BitVec 64) : Vfs.MountFlags where
  rdonly := flags.getLsbD 0
  remount := flags.getLsbD 5
  bind := flags.getLsbD 12
  move := flags.getLsbD 13

inductive PathCall where
  | names (call : Vfs.NameCall)
  | openat (dir : Except Errno Addr) (path : List UInt8) (flags : Vfs.OpenFlags) (mode : BitVec 32) (slot : Option Nat)
      (places : Vfs.Places)

def PathCall.run (s : Vfs) (k : Hooks) (c : Cred) (memory : Bool) : PathCall → Option (Except Errno Nat × Vfs)
  | names call => (call.run s k c memory).map (fun (r,t) => (r.map (fun _ => 0),t))
  | openat dir path flags mode slot places => s.sysOpenat k c memory dir path flags mode slot places

/- open, rename, mkdir, rmdir, link, unlink and symlink, and the calls with `at` they are made of. -/
def pathCalls : List Nat := [2,82,83,84,86,87,88,257,258,263,264,265,266,316]

/- What the paths in the caller's memory lead to: for the two mount calls and the calls above. -/
structure Paths where
  target : Except Errno Addr
  type : Vfs.MountType
  places : Vfs.Places
  hooks : Hooks
  memory : Bool
  call : PathCall

def answer {α : Type} (h : Host R) (p : Caller) (value : α → BitVec 64) (result : Option (Except Errno α × Vfs)) :
    Option (Finished R) :=
  result.map (fun (r,vfs) => {h with vfs := vfs}.finished p (match r with
    | .ok x => value x
    | .error e => e.result))

def sysMount (h : Host R) (p : Caller) (a : Arguments) (m : Paths) : Option (Finished R) :=
  if p.cred.euid ≠ 0 then some (h.finished p Errno.eperm.result)
  else match m.target with
    | .error e => some (h.finished p e.result)
    | .ok t => h.answer p (fun _ => 0) (h.vfs.sysMount p.cred t m.type (mountFlags a.a4) m.places)

def sysUmount2 (h : Host R) (p : Caller) (m : Paths) : Option (Finished R) :=
  if p.cred.euid ≠ 0 then some (h.finished p Errno.eperm.result)
  else match m.target with
    | .error e => some (h.finished p e.result)
    | .ok t => h.answer p (fun _ => 0) (h.vfs.sysUmount2 p.cred t)

def mounting : Vfs.Op → Bool
  | .mount .. => true
  | .umount .. => true
  | _ => false

/- Any other call changes inodes (their modes, owners, times and contents), and names through
the other operations of vfs.c. -/
inductive FsStep where
  | names (op : Vfs.Op) (plain : mounting op = false)
  | inodes (inodes : Addr → Inode)

def fsStep (s : Vfs) : FsStep → Option Vfs
  | .names op _ => (s.apply op).map Prod.snd
  | .inodes inodes => some {s with inodes := inodes}

structure Other (R : Type) where
  value : Option (BitVec 64)
  steps : List FsStep
  log : List (BitVec 8)
  rest : R
  space : UserSpace

/- The dispatch table. `other` has the handlers that set nothing, which may read everything;
it is none for a number without a handler. -/
def dispatch (other : Nat → Arguments → Host R → Option (Other R)) (m : Paths) (h : Host R) (p : Caller)
    (number : Nat) (a : Arguments) : Option (Finished R) :=
  match number with
  | 103 => some (h.sysSyslog p a)
  | 164 => some (h.sysSettimeofday p a)
  | 165 => h.sysMount p a m
  | 166 => h.sysUmount2 p m
  | 169 => some (h.sysReboot p a)
  | 170 => some (h.sysSethostname p a)
  | 171 => some (h.sysSetdomainname p a)
  | 227 => some (h.sysClockSettime p a)
  | n =>
    if n ∈ pathCalls then h.answer p (BitVec.ofNat 64) (m.call.run h.vfs m.hooks p.cred m.memory)
    else match other n a h with
      | none => some (h.finished p enosys)
      | some o => (o.steps.foldlM fsStep h.vfs).map (fun vfs =>
          ⟨o.value,{h with vfs := vfs, log := o.log, rest := o.rest},o.space⟩)

end Host

namespace Vfs

def SameMounts (s t : Vfs) : Prop := t.mounts = s.mounts ∧ t.readOnly = s.readOnly

variable {s t u : Vfs}

theorem SameMounts.trans (one : SameMounts s t) (two : SameMounts t u) : SameMounts s u :=
  ⟨two.1.trans one.1,two.2.trans one.2⟩

theorem reclaimMounts (s : Vfs) (n) : SameMounts s (s.reclaim n) := by
  unfold reclaim
  split <;> exact ⟨rfl,rfl⟩

theorem iputMounts (s : Vfs) (n) : SameMounts s (s.vfsIput n) := reclaimMounts {s.modifyInode n _ with held := _} n

/- Whatever a part of a call answers, the mounts are those of `s`; `state` is the file system in
the answer. -/
def KeepsMounts {α : Type} (s : Vfs) (state : α → Vfs) (x : Option α) : Prop := ∀ a, x = some a → SameMounts s (state a)

section

variable {α β : Type} {state : α → Vfs} {g : β → Vfs} {x : Option β}

theorem keepsSome {a} (same : SameMounts s (state a)) : KeepsMounts s state (some a) := by
  rintro _ ⟨⟩
  exact same

theorem keepsStill : KeepsMounts s (fun _ => s) x := fun _ _ => ⟨rfl,rfl⟩

theorem KeepsMounts.map {f : β → α} (kept : KeepsMounts s g x) (each : ∀ b, SameMounts (g b) (state (f b))) :
    KeepsMounts s state (x.map f) := by
  intro a done
  obtain ⟨b,found,rfl⟩ := map_eq_some_iff.mp done
  exact (kept b found).trans (each b)

theorem KeepsMounts.bind {f : β → Option α} (kept : KeepsMounts s g x)
    (each : ∀ b, KeepsMounts (g b) state (f b)) : KeepsMounts s state (x.bind f) := by
  intro a done
  obtain ⟨b,found,ends⟩ := bind_eq_some_iff.mp done
  exact (kept b found).trans (each b a ends)

theorem keepsSame {r : β} : KeepsMounts s Prod.snd (some (r,s)) := keepsSome ⟨rfl,rfl⟩

end

theorem addChildMounts {parent child} : KeepsMounts s id (s.vfsAddChild parent child) := by
  unfold vfsAddChild
  dsimp only
  split
  · exact keepsSome ⟨rfl,rfl⟩
  · exact keepsStill.map (fun _ => ⟨rfl,rfl⟩)

theorem detachMounts {d} : KeepsMounts s id (s.detach d) := by
  unfold detach
  split
  · exact nofun
  · exact keepsStill.map (fun previous => by cases previous <;> exact ⟨rfl,rfl⟩)

variable {dir : Addr} {c : Cred} {name : Name} {k : Hooks} {memory : Bool}

theorem dropMounts {d} : KeepsMounts s id (s.drop dir d) := by
  refine detachMounts.map (fun u => ?_)
  have reclaimed := reclaimMounts ((((u.freeDentry d).unname (s.inode d)).vfsTouch (s.inode d) changed).vfsTouch dir modified)
  exact reclaimed (s.inode d)

theorem createMounts {type mode places} : KeepsMounts s Prod.snd (s.vfsCreate c dir name type mode places) := by
  have grown : KeepsMounts s Prod.snd (s.ramfsCreate dir name type mode places) := by
    unfold ramfsCreate
    split
    · split
      · exact nofun
      · exact addChildMounts.map (fun _ => ⟨rfl,rfl⟩)
    · exact keepsSame
  refine keepsStill.bind (fun found => ?_)
  split
  · exact keepsSame
  · exact grown.map (fun (made,_) => by cases made <;> exact ⟨rfl,rfl⟩)

theorem unlinkMounts : KeepsMounts s Prod.snd (s.vfsUnlink c dir name) := by
  refine keepsStill.bind (fun found => ?_)
  split
  · exact keepsSame
  split
  · exact keepsSame
  · exact dropMounts.map (fun _ => ⟨rfl,rfl⟩)

theorem rmdirMounts : KeepsMounts s Prod.snd (s.vfsRmdir c dir name) := by
  refine keepsStill.bind (fun found => ?_)
  split
  · exact keepsSame
  refine keepsStill.bind (fun refused => ?_)
  split
  · exact keepsSame
  · exact dropMounts.map (fun _ => ⟨rfl,rfl⟩)

theorem linkMounts {target places} : KeepsMounts s Prod.snd (s.vfsLink c dir name target places) := by
  refine keepsStill.bind (fun found => ?_)
  split
  · exact keepsSame
  split
  · exact keepsSame
  · exact nofun
  · exact addChildMounts.map (fun _ => ⟨rfl,rfl⟩)

theorem relocateMounts {odir src ndir nname} : KeepsMounts s id (s.relocate odir src ndir nname) := by
  refine detachMounts.bind (fun u => ?_)
  split
  · exact nofun
  · exact addChildMounts.map (fun _ => ⟨rfl,rfl⟩)

theorem renameMounts {odir ndir oname nname noreplace} :
    KeepsMounts s Prod.snd (s.vfsRename c odir oname ndir nname noreplace) := by
  refine keepsStill.bind (fun found => ?_)
  split
  · exact keepsSame
  split
  · exact keepsSame
  refine keepsStill.bind (fun refused => ?_)
  split
  · exact keepsSame
  refine keepsStill.bind (fun dst => ?_)
  unfold renameOver
  split
  · exact relocateMounts.map (fun _ => ⟨rfl,rfl⟩)
  refine keepsStill.bind (fun replacing => ?_)
  split
  · exact keepsSame
  · exact keepsSame
  · exact dropMounts.bind (fun _ => relocateMounts.map (fun _ => ⟨rfl,rfl⟩))

theorem NameCall.runMounts (call : NameCall) : KeepsMounts s Prod.snd (call.run s k c memory) := by
  cases call with
  | mkdirat dir path mode places =>
    refine keepsStill.bind (fun parent => ?_)
    split
    · exact keepsSame
    · exact createMounts.map (fun _ => ⟨rfl,rfl⟩)
  | unlinkat dir path removedir =>
    refine keepsStill.bind (fun parent => ?_)
    split
    · exact keepsSame
    split
    · exact rmdirMounts
    · exact unlinkMounts
  | renameat2 again odir old ndir new known noreplace =>
    dsimp only [run,sysRenameat2]
    split
    · exact keepsSame
    refine keepsStill.bind (fun first => ?_)
    split
    · exact keepsSame
    refine keepsStill.bind (fun second => ?_)
    split
    · exact keepsSame
    · exact renameMounts
  | linkat again odir old follow ndir new places =>
    refine keepsStill.bind (fun found => ?_)
    split
    · exact keepsSame
    refine keepsStill.bind (fun parent => ?_)
    split
    · exact keepsSame
    · exact linkMounts
  | symlinkat target dir path room places =>
    dsimp only [run,sysSymlinkat]
    split
    · exact keepsSame
    · exact keepsSame
    refine keepsStill.bind (fun parent => ?_)
    split
    · exact keepsSame
    refine createMounts.map (fun (made,t) => ?_)
    cases made <;> cases room <;> exact ⟨rfl,rfl⟩

theorem resolveMounts {base path flags mode places} :
    KeepsMounts s Prod.snd (s.resolve k c memory base path flags mode places) := by
  refine keepsStill.bind (fun found => ?_)
  split
  · split
    · exact keepsSame
    split <;> exact keepsSame
  split
  · exact keepsSame
  refine keepsStill.bind (fun parent => ?_)
  split
  · exact keepsSame
  refine createMounts.bind (fun (made,t) => ?_)
  cases made with
  | error e => exact keepsSame
  | ok n => exact keepsStill.map (fun _ => ⟨rfl,rfl⟩)

theorem openatMounts {here path flags mode slot places} :
    KeepsMounts s Prod.snd (s.sysOpenat k c memory here path flags mode slot places) := by
  unfold sysOpenat
  split
  · exact keepsSame
  split
  · exact keepsSame
  refine KeepsMounts.map (g := Prod.snd) (resolveMounts.map (fun (found,t) => ?_)) (fun (opened,t) => ?_)
  · cases found with
    | error e => exact ⟨rfl,rfl⟩
    | ok o =>
    dsimp only
    split
    · exact ⟨rfl,rfl⟩
    split <;> split <;> exact ⟨rfl,rfl⟩
  cases opened with
  | error e => exact ⟨rfl,rfl⟩
  | ok o =>
  cases slot with
  | some fd => exact ⟨rfl,rfl⟩
  | none => exact iputMounts t o.node

theorem applyMounts {op} (plain : Host.mounting op = false) : KeepsMounts s Prod.snd (s.apply op) := by
  cases op with
  | create c dir name type mode places => exact createMounts.map (fun _ => ⟨rfl,rfl⟩)
  | unlink c dir name => exact unlinkMounts
  | rmdir c dir name => exact rmdirMounts
  | link c dir name target places => exact linkMounts
  | rename c odir oname ndir nname noreplace => exact renameMounts
  | mount | umount => cases plain
  | bind c dir name mode places =>
    refine KeepsMounts.map (g := Prod.snd) (createMounts.map (fun (made,_) => ?_)) (fun _ => ⟨rfl,rfl⟩)
    cases made <;> exact ⟨rfl,rfl⟩
  | unbind n => exact keepsSome (reclaimMounts {s.modifyInode n _ with bound := _} n)
  | hold n => exact keepsSome ⟨rfl,rfl⟩
  | release n => exact keepsSome (iputMounts s n)
  | register name mode gid places =>
    refine KeepsMounts.map (g := id) ?_ (fun _ => ⟨rfl,rfl⟩)
    unfold devRegister
    split
    · split
      · exact nofun
      · exact addChildMounts
    · exact keepsSome ⟨rfl,rfl⟩
  | tick now => exact keepsSome ⟨rfl,rfl⟩

end Vfs

namespace Host

variable {R : Type} {h : Host R} {p : Caller} {a : Arguments} {m : Paths}

def Kept (h k : Host R) : Prop := k.settings = h.settings ∧ Vfs.SameMounts h.vfs k.vfs

structure Renames (dst : List (BitVec 8)) (p : Caller) (a : Arguments) : Prop where
  positive : 0 ≤ a.a2.toInt
  short : a.a2.toInt < utsLen
  readable : p.space.ok a.a1 a.a2 false = true
  new : loadBytes p.space.bytes a.a1 a.a2.toNat ++ [0] ≠ dst.take (a.a2.toNat+1)

theorem pathCallMounts {s : Vfs} {k c memory} (call : PathCall) : s.KeepsMounts Prod.snd (call.run s k c memory) := by
  cases call with
  | names call => exact (call.runMounts).map (fun _ => ⟨rfl,rfl⟩)
  | openat dir path flags mode slot places => exact Vfs.openatMounts

def SetsClock (h : Host R) (time : Except Errno (BitVec 64)) : Prop :=
  ∃ ns, time = .ok ns ∧ ns ≠ h.settings.bootNs+h.monotonic

def OpenToAll (h : Host R) (p : Caller) (number : Nat) (a : Arguments) : Prop :=
  (number = 170 ∧ Renames h.settings.hostname p a) ∨ (number = 171 ∧ Renames h.settings.domainname p a) ∨
  (number = 164 ∧ a.a1 ≠ 0 ∧ SetsClock h (getTv p.space a.a1)) ∨
  (number = 227 ∧ a.a1 = 0 ∧ SetsClock h (getTs p.space a.a2))

theorem Kept.refl (h : Host R) : Kept h h := ⟨rfl,rfl,rfl⟩

theorem setNameOk {dst name} (set : setName dst p.space a.a1 a.a2 = .ok name) : name = dst ↔ ¬ Renames dst p a := by
  unfold setName at set
  split at set
  · cases set
  rename_i range
  split at set
  · cases set
  rename_i readable
  cases set
  have length : (loadBytes p.space.bytes a.a1 a.a2.toNat ++ [0]).length = a.a2.toNat+1 := by simp [loadBytes]
  have shape : loadBytes p.space.bytes a.a1 a.a2.toNat ++ 0::dst.drop (a.a2.toNat+1) =
    (loadBytes p.space.bytes a.a1 a.a2.toNat ++ [0]) ++ dst.drop (a.a2.toNat+1) := by simp
  constructor
  · intro same renames
    refine renames.new ?_
    rw [shape] at same
    have taken := congrArg (List.take (a.a2.toNat+1)) same
    rwa [take_left' length] at taken
  intro kept
  have old : loadBytes p.space.bytes a.a1 a.a2.toNat ++ [0] = dst.take (a.a2.toNat+1) := by
    by_contra new
    exact kept ⟨by omega,by omega,by simpa using readable,new⟩
  rw [shape,old,take_append_drop]

theorem setNameRefused {dst e} (set : setName dst p.space a.a1 a.a2 = .error e) : ¬ Renames dst p a := by
  intro renames
  unfold setName at set
  split at set
  · have positive := renames.positive
    have short := renames.short
    omega
  split at set
  · rename_i unreadable
    exact unreadable renames.readable
  · cases set

theorem nameKept {dst name host} (set : setName dst p.space a.a1 a.a2 = .ok name)
    (renamed : host.settings = h.settings → name = dst) (same : name = dst → Kept h host) :
    Kept h host ↔ ¬ Renames dst p a := by
  rw [← setNameOk set]
  exact ⟨fun kept => renamed kept.1,same⟩

theorem sethostnameKept : Kept h (h.sysSethostname p a).host ↔ ¬ Renames h.settings.hostname p a := by
  unfold sysSethostname
  split
  · rename_i e failed
    exact iff_of_true (Kept.refl h) (setNameRefused failed)
  · rename_i name set
    exact nameKept set (congrArg Settings.hostname) (fun same => by rw [same]; exact Kept.refl h)

theorem setdomainnameKept : Kept h (h.sysSetdomainname p a).host ↔ ¬ Renames h.settings.domainname p a := by
  unfold sysSetdomainname
  split
  · rename_i e failed
    exact iff_of_true (Kept.refl h) (setNameRefused failed)
  · rename_i name set
    exact nameKept set (congrArg Settings.domainname) (fun same => by rw [same]; exact Kept.refl h)

theorem setClockKept (h : Host R) (ns) : Kept h (h.clockSetRealtimeNs ns) ↔ ¬ SetsClock h (.ok ns) := by
  have shown : ns-h.monotonic = h.settings.bootNs ↔ ns = h.settings.bootNs+h.monotonic := by
    constructor
    · intro same
      rw [← same,BitVec.sub_add_cancel]
    intro same
    rw [same,BitVec.add_sub_cancel]
  constructor
  · rintro ⟨kept,_⟩ ⟨other,same,new⟩
    cases same
    exact new (shown.mp (congrArg Settings.bootNs kept))
  intro old
  have same : ns = h.settings.bootNs+h.monotonic := by
    by_contra new
    exact old ⟨ns,rfl,new⟩
  refine ⟨?_,rfl,rfl⟩
  show {h.settings with bootNs := ns - h.monotonic} = h.settings
  rw [shown.mpr same]

theorem clockSettimeKept : Kept h (h.sysClockSettime p a).host ↔ ¬ (a.a1 = 0 ∧ SetsClock h (getTs p.space a.a2)) := by
  unfold sysClockSettime
  split
  · rename_i other
    exact iff_of_true (Kept.refl h) (fun wrong => other wrong.1)
  rename_i realtime
  have zero : a.a1 = 0 := by simpa using realtime
  split
  · rename_i e failed
    refine iff_of_true (Kept.refl h) ?_
    rintro ⟨_,ns,wrong,_⟩
    cases failed.symm.trans wrong
  rename_i ns read
  simp only [zero,true_and,read]
  exact setClockKept h ns

theorem settimeofdayKept : Kept h (h.sysSettimeofday p a).host ↔ ¬ (a.a1 ≠ 0 ∧ SetsClock h (getTv p.space a.a1)) := by
  unfold sysSettimeofday
  split
  · rename_i null
    exact iff_of_true (Kept.refl h) (fun wrong => wrong.1 null)
  rename_i given
  split
  · rename_i e failed
    refine iff_of_true (Kept.refl h) ?_
    rintro ⟨_,ns,wrong,_⟩
    cases failed.symm.trans wrong
  rename_i ns read
  simp only [ne_eq,given,not_false_eq_true,true_and,read]
  exact setClockKept h ns

theorem readLogKept (clear) : Kept h (h.readLog p a clear).host := by
  unfold readLog
  split
  · exact Kept.refl h
  split
  · exact Kept.refl h
  · cases clear <;> exact ⟨rfl,rfl,rfl⟩

theorem syslogKept (user : p.cred.euid ≠ 0) : Kept h (h.sysSyslog p a).host := by
  unfold sysSyslog
  split
  · exact Kept.refl h
  rename_i allowed
  have reads : a.a1 = 3 ∨ a.a1 = 10 := by
    by_contra neither
    exact allowed ⟨fun three => neither (.inl three),fun ten => neither (.inr ten),user⟩
  rcases reads with three | ten
  · rw [three]
    exact readLogKept false
  rw [ten]
  exact Kept.refl h

theorem fsStepsMounts {steps : List FsStep} {s} : Vfs.KeepsMounts s id (steps.foldlM fsStep s) := by
  induction steps generalizing s with
  | nil => exact Vfs.keepsSome ⟨rfl,rfl⟩
  | cons step rest ih =>
    refine Vfs.KeepsMounts.bind (g := id) ?_ (fun _ => ih)
    cases step with
    | names op plain => exact (Vfs.applyMounts plain).map (fun _ => ⟨rfl,rfl⟩)
    | inodes inodes => exact Vfs.keepsSome ⟨rfl,rfl⟩

theorem settingsKept {other : Nat → Arguments → Host R → Option (Other R)} {number : Nat} {f : Finished R}
    (user : p.cred.euid ≠ 0) (done : dispatch other m h p number a = some f) : Kept h f.host ↔ ¬ OpenToAll h p number a := by
  unfold dispatch at done
  unfold OpenToAll
  split at done
  · cases done
    exact iff_of_true (syslogKept user) (by simp)
  · cases done
    simpa using settimeofdayKept (h := h) (p := p) (a := a)
  · unfold sysMount at done
    rw [if_pos user] at done
    cases done
    exact iff_of_true (Kept.refl h) (by simp)
  · unfold sysUmount2 at done
    rw [if_pos user] at done
    cases done
    exact iff_of_true (Kept.refl h) (by simp)
  · cases done
    unfold sysReboot
    rw [if_pos user]
    exact iff_of_true (Kept.refl h) (by simp)
  · cases done
    simpa using sethostnameKept (h := h) (p := p) (a := a)
  · cases done
    simpa using setdomainnameKept (h := h) (p := p) (a := a)
  · cases done
    simpa using clockSettimeKept (h := h) (p := p) (a := a)
  rename_i n _ notTime _ _ _ notHost notDomain notClock
  refine iff_of_true ?_ (by
    rintro (⟨wrong,_⟩ | ⟨wrong,_⟩ | ⟨wrong,_⟩ | ⟨wrong,_⟩)
    · exact notHost wrong
    · exact notDomain wrong
    · exact notTime wrong
    · exact notClock wrong)
  split at done
  · obtain ⟨⟨result,vfs⟩,ran,same⟩ := map_eq_some_iff.mp done
    cases same
    exact ⟨rfl,pathCallMounts m.call _ ran⟩
  split at done
  · cases done
    exact Kept.refl h
  obtain ⟨vfs,walked,same⟩ := map_eq_some_iff.mp done
  cases same
  exact ⟨rfl,fsStepsMounts vfs walked⟩

def sampleHost : Host Unit where
  settings := {
    hostname := [40,110,111,110,101,41] ++ List.replicate 59 0
    domainname := [40,110,111,110,101,41] ++ List.replicate 59 0
    bootNs := 0, consoleLevel := 7, savedLevel := 7, cadRestart := true }
  vfs := Vfs.blank
  log := []
  monotonic := 10000000
  rest := ()

def guest : Caller := ⟨{uid := 1000, euid := 1000},fun _ => 0,fun _ _ _ => true⟩

def noPaths : Paths where
  target := .error .enoent
  type := .unknown
  places := {}
  hooks := ⟨fun _ => false,fun _ _ => none,fun _ => .error .enoent,fun _ => none,fun _ => true⟩
  memory := true
  call := .names (.unlinkat (.error .ebadf) [] false)

theorem guestRefused : ∃ f, dispatch (fun _ _ _ => none) noPaths sampleHost guest 169
    {a1 := 0xFEE1DEAD, a2 := 672274793} = some f ∧ Kept sampleHost f.host := by
  have called : dispatch (fun _ _ _ => none) noPaths sampleHost guest 169 {a1 := 0xFEE1DEAD, a2 := 672274793} =
    some (sampleHost.sysReboot guest {a1 := 0xFEE1DEAD, a2 := 672274793}) := rfl
  exact ⟨_,called,(settingsKept (by decide) called).mpr (by simp [OpenToAll])⟩

theorem guestSetsHostAndClock :
    (∃ f, dispatch (fun _ _ _ => none) noPaths sampleHost guest 170 {a1 := 0x1000, a2 := 0} = some f ∧
    f.value = some 0 ∧ guest.cred.euid ≠ 0 ∧ f.host.settings.hostname ≠ sampleHost.settings.hostname) ∧
    (∃ f, dispatch (fun _ _ _ => none) noPaths sampleHost guest 227 {a1 := 0, a2 := 0x1000} = some f ∧
    f.value = some 0 ∧ guest.cred.euid ≠ 0 ∧ f.host.settings.bootNs ≠ sampleHost.settings.bootNs) :=
  ⟨⟨_,rfl,by decide +kernel,by decide,by decide +kernel⟩,⟨_,rfl,by decide +kernel,by decide,by decide +kernel⟩⟩

end Host

end Miviex
