import Miviex.Vfs

/-! Mounting and unmounting, the state `vfs_init` builds, and the namespace operations as
the system calls apply them. A process is here only through the inodes it holds. -/
namespace Miviex.Vfs

open Function

def allocRoot (s : Vfs) (n d : Addr) (x : Inode) (name : Name) : Vfs :=
  (s.allocInode n {x with ptr := some d}).allocDentry d name n

/- When there is no memory for the dentry nothing gives the inode back. -/
def ramfsInit (s : Vfs) (dev : Nat) (mode : BitVec 32) (places : Places) : Option Addr × Vfs :=
  let root := ramfsInode .directory mode dev s.now
  match places.inode, places.dentry with
  | some n, some d => (some d,s.allocRoot n d {root with creates := true} [47])
  | some n, none => (none,{s with inodes := update s.inodes n root, lost := n::s.lost})
  | none, _ => (none,s)

def devfsInode : Inode where
  type := .directory
  mode := 0o755
  dev := devfsDev

def procfsInode : Inode where
  type := .directory
  mode := 0o555
  dev := procfsDev

def procName : Name := [112,114,111,99]
def devName : Name := [100,101,118]

/- The root inode is static; only its dentry is new at every mount. -/
def procfsMount (s : Vfs) (places : Places) : Option Addr × Vfs :=
  match s.procMounted, places.dentry with
  | false, some d =>
    (some d,{s.allocRoot s.procRoot d (s.inodes s.procRoot) procName with procMounted := true})
  | _, _ => (none,s)

def adopt (s : Vfs) (parent : Addr) (children : List Addr) : Vfs :=
  children.foldl (fun s c => s.setParent c (some parent)) s

/- The mountpoint takes over the inode and the children of the root's dentry, which is
freed. Without a mountpoint the root only gets its record. -/
def vfsMount (s : Vfs) (mp : Option Addr) (root : Addr) (type : FsType) (readOnly record : Bool) :
    Option (Except Errno Unit × Vfs) :=
  if ¬ record then some (.error .enomem,s)
  else
    let top := s.inode root
    let s := {s with readOnly := update s.readOnly top readOnly}
    match mp with
    | none => some (.ok (),{s with mounts := ⟨root,none,none,top,type⟩::s.mounts})
    | some mp =>
      let m : Mount := ⟨mp,some (s.inode mp),s.firstChild mp,top,type⟩
      let first := s.firstChild root
      (PointerChain.collect s.nextSibling s.live.length first).map (fun children =>
        let s := (s.setInode mp top).setFirst mp first
        let s := (s.adopt mp children).modifyInode top (fun x => {x with ptr := some mp})
        (.ok (),{s.freeDentry root with mounts := m::s.mounts}))

/- `free_tree` gives a name back without looking at the directory's own pointer. -/
def freeName (s : Vfs) (d : Addr) : Vfs :=
  let n := s.inode d
  ((s.modifyInode n (fun x => {x with nlink := x.nlink - 1})).reclaim n).freeDentry d

def freeTree (bound : Nat) : Nat → Vfs → Option Addr → Option Vfs
  | _, s, none => some s
  | 0, _, some _ => none
  | fuel + 1, s, some head =>
    (PointerChain.collect s.nextSibling bound (some head)).bind (fun siblings =>
      siblings.foldlM (fun s d =>
        (freeTree bound fuel s (s.firstChild d)).map (fun s => s.freeName d)) s)

def vfsUmount (s : Vfs) (m : Mount) : Option (Except Errno Unit × Vfs) :=
  match m.covered with
  | none => some (.error .ebusy,s)
  | some covered =>
    let s := {s with mounts := s.mounts.erase m}
    let children := s.firstChild m.mp
    let s := (s.setInode m.mp covered).setFirst m.mp m.coveredChildren
    if (s.inodes m.root).destroys then
      (freeTree s.live.length (s.live.length+1) s children).map (fun s =>
        (.ok (),(s.modifyInode m.root (fun x => {x with nlink := 0})).reclaim m.root))
    else some (.ok (),s)

inductive MountType where
  | proc
  | tmpfs
  | ramfs
  | devtmpfs
  | unknown
  deriving DecidableEq, Repr

structure MountFlags where
  rdonly : Bool := false
  remount : Bool := false
  bind : Bool := false
  move : Bool := false

/- The root dentry of the file system to mount. A device number is used up even when the
allocation fails. -/
def newRoot (s : Vfs) (type : MountType) (places : Places) : Except Errno (FsType × Addr) × Vfs :=
  let answer (type : FsType) (made : Option Addr × Vfs) : Except Errno (FsType × Addr) × Vfs :=
    (made.1.elim (.error .ebusy) (fun root => .ok (type,root)),made.2)
  let numbered := {s with nextDev := (s.nextDev+1) % 2^32}
  match type with
  | .proc => answer .proc (s.procfsMount places)
  | .tmpfs => answer .tmpfs (numbered.ramfsInit s.nextDev 0o1777 places)
  | .ramfs => answer .ramfs (numbered.ramfsInit s.nextDev 0o755 places)
  | .devtmpfs => (.error .ebusy,s)
  | .unknown => (.error .enodev,s)

def mountsRoot (s : Vfs) (t : Addr) : Bool :=
  (s.vfsMountOf (s.dev t)).any (fun m => m.root == t)

def sysMount (s : Vfs) (c : Cred) (t : Addr) (type : MountType) (flags : MountFlags) (places : Places) :
    Option (Except Errno Unit × Vfs) :=
  if c.euid ≠ 0 then some (.error .eperm,s)
  else if ¬ s.isDir t then some (.error .enotdir,s)
  else if flags.remount then
    if s.mountsRoot t then some (.ok (),{s with readOnly := update s.readOnly t flags.rdonly})
    else some (.error .einval,s)
  else if flags.bind ∨ flags.move then some (.error .einval,s)
  else if s.mountsRoot t then some (.error .ebusy,s)
  else
    match s.newRoot type places with
    | (.error e,s) => some (.error e,s)
    | (.ok (fs,root),s) => s.vfsMount (s.inodes t).ptr root fs flags.rdonly places.record

def fsBusy (s : Vfs) (dev : Nat) : Bool :=
  s.held.any (fun n => s.dev n == dev) ||
  s.mounts.any (fun m => m.covered.any (fun n => s.dev n == dev))

def procfsUnmounted (s : Vfs) : Vfs :=
  {s with procMounted := false, liveInodes := s.liveInodes.erase s.procRoot}

def sysUmount2 (s : Vfs) (c : Cred) (t : Addr) : Option (Except Errno Unit × Vfs) :=
  if c.euid ≠ 0 then some (.error .eperm,s)
  else
    match (s.vfsMountOf (s.dev t)).filter (fun m => m.root == t) with
    | none => some (.error .einval,s)
    | some m =>
      if s.fsBusy (s.dev t) ∨ m.type = .devtmpfs then some (.error .ebusy,s)
      else (s.vfsUmount m).map (fun (answer,s) =>
        match answer with
        | .ok () => (.ok (),if m.type = .proc then s.procfsUnmounted else s)
        | .error e => (.error e,s))

def blank : Vfs where
  parent := fun _ => none
  firstChild := fun _ => none
  nextSibling := fun _ => none
  inode := fun _ => 0
  name := fun _ => []
  order := fun _ => 0
  inodes := update (fun _ => {}) 0 procfsInode
  live := []
  liveInodes := []
  fsRoot := 1
  mounts := []
  readOnly := fun _ => false
  held := []
  bound := []
  lost := []
  now := 0
  seq := 2
  nextDev := 16
  procRoot := 0
  procMounted := false

def vfsInit : Option Vfs :=
  ((blank.ramfsInit ramfsDev 0o755 ⟨some 1,some 1,true⟩).2.vfsMount none 1 .rootfs false true).bind
    (fun (_,s) =>
      ((s.allocRoot 2 2 devfsInode devName).vfsCreate {} (s.inode s.fsRoot) devName .directory 0o755
          ⟨some 3,some 3,true⟩).bind (fun (made,s) =>
        match made with
        | .error _ => some s
        | .ok n => (s.vfsMount (s.inodes n).ptr 2 .devtmpfs false true).map (·.2)))

def boot : Vfs := vfsInit.get (by decide +kernel)

def devDir : Addr := 2

def devfsNode (mode : BitVec 32) (gid : UInt32) (now : Nat) : Inode where
  type := .charDevice
  mode := mode &&& 0o7777
  gid := gid
  dev := devfsDev
  atime := now
  mtime := now
  ctime := now

/- `dev_register`. What the driver keeps in the node's pointer is left out. -/
def devRegister (s : Vfs) (name : Name) (mode : BitVec 32) (gid : UInt32) (places : Places) : Option Vfs :=
  match places.inode, places.dentry with
  | some n, some d =>
    match (s.inodes devDir).ptr with
    | none => none
    | some parent =>
      ((s.allocInode n (devfsNode mode gid s.now)).allocDentry d name n).vfsAddChild parent d
  | _, _ => some s

/- `sys_bind` from the point where the directory is resolved; an earlier bind of the socket is
refused by the caller. -/
def sysBind (s : Vfs) (c : Cred) (dir : Addr) (name : Name) (mode : BitVec 32) (places : Places) :
    Option (Except Errno Addr × Vfs) :=
  (s.vfsCreate c dir name .socket mode places).map (fun (made,t) =>
    match made with
    | .error e => (.error (if e = .eexist then .eaddrinuse else e),t)
    | .ok n => (.ok n,{t.modifyInode n (fun x => {x with refs := x.refs + 1}) with bound := n::t.bound}))

def unbind (s : Vfs) (n : Addr) : Vfs :=
  {s.modifyInode n (fun x => {x with refs := x.refs - 1}) with bound := s.bound.erase n}.reclaim n

/- A namespace operation on resolved inodes, with the credentials of its caller. `hold` and
`release` take and give back the reference of a working directory or an open file. -/
inductive Op where
  | create (c : Cred) (dir : Addr) (name : Name) (type : FileType) (mode : BitVec 32) (places : Places)
  | unlink (c : Cred) (dir : Addr) (name : Name)
  | rmdir (c : Cred) (dir : Addr) (name : Name)
  | link (c : Cred) (dir : Addr) (name : Name) (target : Addr) (places : Places)
  | rename (c : Cred) (odir : Addr) (oname : Name) (ndir : Addr) (nname : Name) (noreplace : Bool)
  | mount (c : Cred) (t : Addr) (type : MountType) (flags : MountFlags) (places : Places)
  | umount (c : Cred) (t : Addr)
  | bind (c : Cred) (dir : Addr) (name : Name) (mode : BitVec 32) (places : Places)
  | unbind (n : Addr)
  | hold (n : Addr)
  | release (n : Addr)
  | register (name : Name) (mode : BitVec 32) (gid : UInt32) (places : Places)
  | tick (now : Nat)

def apply (s : Vfs) : Op → Option (Except Errno Unit × Vfs)
  | .create c dir name type mode places =>
    (s.vfsCreate c dir name type mode places).map (fun (made,t) => (made.map (fun _ => ()),t))
  | .unlink c dir name => s.vfsUnlink c dir name
  | .rmdir c dir name => s.vfsRmdir c dir name
  | .link c dir name target places => s.vfsLink c dir name target places
  | .rename c odir oname ndir nname noreplace => s.vfsRename c odir oname ndir nname noreplace
  | .mount c t type flags places => s.sysMount c t type flags places
  | .umount c t => s.sysUmount2 c t
  | .bind c dir name mode places =>
    (s.sysBind c dir name mode places).map (fun (made,t) => (made.map (fun _ => ()),t))
  | .unbind n => some (.ok (),s.unbind n)
  | .hold n => some (.ok (),s.vfsIget n)
  | .release n => some (.ok (),s.vfsIput n)
  | .register name mode gid places => (s.devRegister name mode gid places).map (fun t => (.ok (),t))
  | .tick now => some (.ok (),{s with now := now})

def Fresh (s : Vfs) (places : Places) : Prop :=
  (∀ n ∈ places.inode, n ∉ s.liveInodes ∧ n ∉ s.lost ∧ n ≠ s.procRoot) ∧ ∀ d ∈ places.dentry, d ∉ s.live

instance (s : Vfs) (places : Places) : Decidable (s.Fresh places) := inferInstanceAs (Decidable (_ ∧ _))

end Miviex.Vfs
