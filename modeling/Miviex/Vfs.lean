import Mathlib.Data.BitVec
import Miviex.Process
import Miviex.Errno
import Miviex.PointerChain

/-! The virtual file system: inodes, the dentries that name them, and mounts, by their addresses;
`live` and `liveInodes` are what `k_malloc` has given out. A call answers none where the C code
would follow a NULL pointer or loop for ever. Inode numbers are left out; link and reference
counts do not come round, as each unit is an object in memory. -/
namespace Miviex
open PointerChain
open Function (update)

abbrev Name := List UInt8

inductive FileType where
  | file
  | directory
  | charDevice
  | blockDevice
  | pipe
  | symlink
  | socket
  deriving DecidableEq, Repr

/- `creates` and `destroys` say whether the `create` and `destroy` hooks are set; the
only ones there are belong to ramfs. `ptr` is the dentry of a directory, `data` the
contents of a regular file or the target of a symlink; `length` is its length. -/
structure Inode where
  type : FileType := .file
  mode : BitVec 32 := 0
  uid : UInt32 := 0
  gid : UInt32 := 0
  nlink : Nat := 1
  refs : Nat := 0
  dev : Nat := 0
  creates : Bool := false
  destroys : Bool := false
  ptr : Option Addr := none
  data : List UInt8 := []
  atime : Nat := 0
  mtime : Nat := 0
  ctime : Nat := 0

inductive FsType where
  | rootfs
  | devtmpfs
  | proc
  | tmpfs
  | ramfs
  deriving DecidableEq, Repr

structure Mount where
  mp : Addr
  covered : Option Addr := none
  coveredChildren : Option Addr := none
  root : Addr
  type : FsType
  deriving DecidableEq, Repr

structure Cred where
  uid : UInt32 := 0
  gid : UInt32 := 0
  euid : UInt32 := 0
  egid : UInt32 := 0
  groups : List UInt32 := []

def nameMax : Nat := 127
def ramfsDev : Nat := 1
def procfsDev : Nat := 3
def devfsDev : Nat := 5

def mayExec : BitVec 32 := 1
def mayWrite : BitVec 32 := 2
def mayRead : BitVec 32 := 4

def sIsgid : BitVec 32 := 0o2000
def sIsvtx : BitVec 32 := 0o1000

namespace Cred

def inGroup (c : Cred) (gid primary : UInt32) : Bool := primary == gid || c.groups.contains gid

def check (c : Cred) (n : Inode) (mask : BitVec 32) (real : Bool) : Bool :=
  let uid := if real then c.uid else c.euid
  let gid := if real then c.gid else c.egid
  if uid = 0 then
    !(mask &&& mayExec != 0 && n.type != .directory && n.mode &&& 0o111 == 0)
  else
    let perm := if uid = n.uid then n.mode >>> 6
      else if c.inGroup n.gid gid then n.mode >>> 3
      else n.mode
    (perm &&& 7) &&& mask == mask

def permission (c : Cred) (n : Inode) (mask : BitVec 32) : Bool := c.check n mask false

def access (c : Cred) (n : Inode) (mask : BitVec 32) : Bool := c.check n mask true

def owns (c : Cred) (n : Inode) : Bool := c.euid == 0 || c.euid == n.uid

def mayDelete (c : Cred) (dir victim : Inode) : Bool :=
  dir.mode &&& sIsvtx == 0 || c.euid == 0 || c.euid == dir.uid || c.euid == victim.uid

end Cred

/- The fields of a `dentry_t` by its address; its `seq` is `order`. `held` has one entry for every
reference to an inode, by a working directory or an open file, `bound` one for every socket bound
to one. `lost` are inodes allocated and then forgotten. `procRoot` is the static root of procfs,
live while `/proc` is mounted. `readOnly` is `MS_RDONLY` of the mount with the given root, `now`
the clock during a call. -/
structure Vfs where
  parent : Addr → Option Addr
  firstChild : Addr → Option Addr
  nextSibling : Addr → Option Addr
  inode : Addr → Addr
  name : Addr → Name
  order : Addr → Nat
  inodes : Addr → Inode
  live : List Addr
  liveInodes : List Addr
  fsRoot : Addr
  mounts : List Mount
  readOnly : Addr → Bool
  held : List Addr
  bound : List Addr
  lost : List Addr
  now : Nat
  seq : Nat
  nextDev : Nat
  procRoot : Addr
  procMounted : Bool

namespace Vfs

section

variable (s : Vfs)

def modifyInode (n : Addr) (f : Inode → Inode) : Vfs :=
  {s with inodes := update s.inodes n (f (s.inodes n))}

def allocDentry (d : Addr) (name : Name) (n : Addr) : Vfs :=
  {s with
    parent := update s.parent d none
    firstChild := update s.firstChild d none
    nextSibling := update s.nextSibling d none
    inode := update s.inode d n
    name := update s.name d name
    order := update s.order d 0
    live := d::s.live}

def allocInode (n : Addr) (x : Inode) : Vfs :=
  {s with inodes := update s.inodes n x, liveInodes := n::s.liveInodes}

def freeDentry (d : Addr) : Vfs := {s with live := s.live.erase d}

def setParent (d : Addr) (p : Option Addr) : Vfs :=
  {s with parent := update s.parent d p}

def setFirst (d : Addr) (c : Option Addr) : Vfs :=
  {s with firstChild := update s.firstChild d c}

def setNext (d : Addr) (c : Option Addr) : Vfs :=
  {s with nextSibling := update s.nextSibling d c}

def setInode (d n : Addr) : Vfs := {s with inode := update s.inode d n}

def setName (d : Addr) (name : Name) : Vfs := {s with name := update s.name d name}

end

def dev (s : Vfs) (n : Addr) : Nat := (s.inodes n).dev

def isDir (s : Vfs) (n : Addr) : Prop := (s.inodes n).type = .directory

instance (s : Vfs) (n : Addr) : Decidable (s.isDir n) := inferInstanceAs (Decidable (_ = _))

/- A directory without its dentry: `rmdir` or `rename` took it away while some process
still had it. -/
def removed (s : Vfs) (n : Addr) : Prop := (s.inodes n).ptr = none

instance (s : Vfs) (n : Addr) : Decidable (s.removed n) := inferInstanceAs (Decidable (_ = _))

def vfsChild (s : Vfs) (dir : Addr) (name : Name) : Option (Option Addr) :=
  if s.isDir dir then
    match (s.inodes dir).ptr with
    | none => some none
    | some d => search s.nextSibling (fun c => s.name c == name) s.live.length
        (s.firstChild d)
  else some none

def vfsMountOf (s : Vfs) (dev : Nat) : Option Mount :=
  s.mounts.find? (fun m => s.dev m.root == dev)

def vfsReadonly (s : Vfs) (n : Addr) : Bool :=
  (s.vfsMountOf (s.dev n)).any (fun m => s.readOnly m.root)

structure Stamps where
  atime : Bool := false
  mtime : Bool := false
  ctime : Bool := false

def changed : Stamps := {ctime := true}
def modified : Stamps := {mtime := true, ctime := true}

def stamp (now : Nat) (which : Stamps) (x : Inode) : Inode :=
  {x with
    atime := if which.atime then now else x.atime
    mtime := if which.mtime then now else x.mtime
    ctime := if which.ctime then now else x.ctime}

section

variable (s : Vfs)

def vfsTouch (n : Addr) (which : Stamps) : Vfs := s.modifyInode n (stamp s.now which)

def reclaim (n : Addr) : Vfs :=
  if (s.inodes n).nlink = 0 ∧ (s.inodes n).refs = 0 ∧ (s.inodes n).destroys
  then {s with liveInodes := s.liveInodes.erase n} else s

def vfsIget (n : Addr) : Vfs :=
  {s.modifyInode n (fun x => {x with refs := x.refs + 1}) with held := n::s.held}

def vfsIput (n : Addr) : Vfs :=
  {s.modifyInode n (fun x => {x with refs := x.refs - 1}) with held := s.held.erase n}.reclaim n

def enroll (child parent : Addr) : Vfs :=
  {s.setParent child (some parent) with
    order := update s.order child s.seq
    seq := (s.seq+1) % 2^64}

def vfsAddChild (parent child : Addr) : Option Vfs :=
  let s := s.enroll child parent
  match s.firstChild parent with
  | none => some (s.setFirst parent (some child))
  | some first => (last s.nextSibling s.live.length first).map (fun current =>
      s.setNext current (some child))

/- `*pp = d->next_sibling`, where `pp` is the pointer that leads to `d`. -/
def unhook (d parent : Addr) (previous : Option Addr) : Vfs :=
  match previous with
  | none => s.setFirst parent (s.nextSibling d)
  | some p => s.setNext p (s.nextSibling d)

def detach (d : Addr) : Option Vfs :=
  match s.parent d with
  | none => none
  | some parent =>
    (before s.nextSibling d s.live.length none (s.firstChild parent)).map (fun previous =>
      (s.unhook d parent previous).setNext d none)

def unname (n : Addr) : Vfs :=
  s.modifyInode n (fun x => {x with
    ptr := if x.type = .directory then none else x.ptr
    nlink := x.nlink - 1})

def drop (dir d : Addr) : Option Vfs :=
  let n := s.inode d
  (s.detach d).map (fun s =>
    ((((s.freeDentry d).unname n).vfsTouch n changed).vfsTouch dir modified).reclaim n)

end

/- Where `k_malloc` puts the inode and the dentry a call asks for, none where it fails, and
whether it has room for the record of a mount or of an open file. -/
structure Places where
  inode : Option Addr := none
  dentry : Option Addr := none
  record : Bool := false

def ramfsInode (type : FileType) (mode : BitVec 32) (dev now : Nat) : Inode where
  type := type
  mode := mode &&& 0o7777
  dev := dev
  destroys := true
  atime := now
  mtime := now
  ctime := now

def ramfsCreate (s : Vfs) (dir : Addr) (name : Name) (type : FileType) (mode : BitVec 32)
    (places : Places) : Option (Option Addr × Vfs) :=
  match places.inode, places.dentry with
  | some n, some d =>
    match (s.inodes dir).ptr with
    | none => none
    | some parent =>
      let node := ramfsInode type mode (s.dev dir) s.now
      let node := if type = .directory then {node with ptr := some d, creates := true} else node
      let s := (s.allocInode n node).allocDentry d name n
      (s.vfsAddChild parent d).map (fun s => (some n,s))
  | _, _ => some (none,s)

def createRefused (s : Vfs) (c : Cred) (dir : Addr) (name : Name) (found : Option Addr) : Option Errno :=
  if ¬ s.isDir dir then some .enotdir
  else if name.length > nameMax then some .enametoolong
  else if found.isSome then some .eexist
  else if ¬ (s.inodes dir).creates then some .eperm
  else if s.removed dir then some .enoent
  else if s.vfsReadonly dir then some .erofs
  else if ¬ c.permission (s.inodes dir) (mayWrite ||| mayExec) then some .eacces
  else none

def bequeath (c : Cred) (dir x : Inode) : Inode :=
  let x := {x with uid := c.euid}
  if dir.mode &&& sIsgid != 0 then
    {x with gid := dir.gid, mode := if x.type = .directory then x.mode ||| sIsgid else x.mode}
  else {x with gid := c.egid}

def vfsCreate (s : Vfs) (c : Cred) (dir : Addr) (name : Name) (type : FileType) (mode : BitVec 32)
    (places : Places) : Option (Except Errno Addr × Vfs) :=
  (s.vfsChild dir name).bind (fun found =>
    match s.createRefused c dir name found with
    | some e => some (.error e,s)
    | none => (s.ramfsCreate dir name type mode places).map (fun (made,t) =>
        match made with
        | none => (.error .enomem,t)
        | some n => (.ok n,(t.modifyInode n (bequeath c (t.inodes dir))).vfsTouch dir modified)))

def mayDelete (s : Vfs) (c : Cred) (dir victim : Addr) : Option Errno :=
  if s.vfsReadonly dir then some .erofs
  else if ¬ c.permission (s.inodes dir) (mayWrite ||| mayExec) then some .eacces
  else if ¬ c.mayDelete (s.inodes dir) (s.inodes victim) then some .eperm
  else none

section

variable (s : Vfs)

def unlinkRefused (c : Cred) (dir d : Addr) : Option Errno :=
  if s.isDir (s.inode d) then some .eisdir
  else if ¬ (s.inodes dir).creates then some .eperm
  else s.mayDelete c dir (s.inode d)

def vfsUnlink (c : Cred) (dir : Addr) (name : Name) : Option (Except Errno Unit × Vfs) :=
  (s.vfsChild dir name).bind (fun found =>
    match found with
    | none => some (.error (if s.isDir dir then .enoent else .enotdir),s)
    | some d =>
      match s.unlinkRefused c dir d with
      | some e => some (.error e,s)
      | none => (s.drop dir d).map (fun s => (.ok (),s)))

def mountpoint (n : Addr) : Option Bool :=
  (s.inodes n).ptr.bind (fun d => (s.parent d).map (fun p => s.dev n != s.dev (s.inode p)))

def rmdirRefused (c : Cred) (dir d : Addr) : Option (Option Errno) :=
  if ¬ s.isDir (s.inode d) then some (some .enotdir)
  else (s.mountpoint (s.inode d)).map (fun mounted =>
    if mounted then some .ebusy
    else if (s.firstChild d).isSome then some .enotempty
    else s.mayDelete c dir (s.inode d))

def vfsRmdir (c : Cred) (dir : Addr) (name : Name) : Option (Except Errno Unit × Vfs) :=
  (s.vfsChild dir name).bind (fun found =>
    match found with
    | none => some (.error (if s.isDir dir then .enoent else .enotdir),s)
    | some d => (s.rmdirRefused c dir d).bind (fun refused =>
        match refused with
        | some e => some (.error e,s)
        | none => (s.drop dir d).map (fun s => (.ok (),s))))

def linkRefused (c : Cred) (dir : Addr) (name : Name) (target : Addr) (found : Option Addr) :
    Option Errno :=
  if s.isDir target then some .eperm
  else if ¬ s.isDir dir then some .enotdir
  else if s.dev dir ≠ s.dev target ∨ ¬ (s.inodes dir).creates then some .exdev
  else if s.removed dir then some .enoent
  else if found.isSome then some .eexist
  else if name.length > nameMax then some .enametoolong
  else if s.vfsReadonly dir then some .erofs
  else if ¬ c.permission (s.inodes dir) (mayWrite ||| mayExec) then some .eacces
  else none

def vfsLink (c : Cred) (dir : Addr) (name : Name) (target : Addr) (places : Places) :
    Option (Except Errno Unit × Vfs) :=
  (s.vfsChild dir name).bind (fun found =>
    match s.linkRefused c dir name target found with
    | some e => some (.error e,s)
    | none =>
      match places.dentry,(s.inodes dir).ptr with
      | none,_ => some (.error .enomem,s)
      | some _,none => none
      | some d,some parent =>
        ((s.allocDentry d name target).vfsAddChild parent d).map (fun s =>
          (.ok (),((s.modifyInode target (fun x => {x with nlink := x.nlink + 1})).vfsTouch target
            changed).vfsTouch dir modified)))

def inside (src : Addr) (ndir : Addr) : Option Bool :=
  (search s.parent (fun a => a == src) s.live.length (s.inodes ndir).ptr).map (·.isSome)

/- A directory that moves: not a mountpoint, and not into its own subtree. -/
def moveRefused (src ndir : Addr) : Option (Option Errno) :=
  if s.isDir (s.inode src) then
    (s.mountpoint (s.inode src)).bind (fun mounted =>
      if mounted then some (some .ebusy)
      else (s.inside src ndir).map (fun within => if within then some .einval else none))
  else some none

def renameAllowed (c : Cred) (odir ndir src : Addr) : Option Errno :=
  match s.mayDelete c odir (s.inode src) with
  | some e => some e
  | none =>
    if ¬ c.permission (s.inodes ndir) (mayWrite ||| mayExec) then some .eacces
    else if s.isDir (s.inode src) ∧ odir ≠ ndir ∧ ¬ c.permission (s.inodes (s.inode src)) mayWrite
    then some .eacces
    else none

end

inductive Replacing where
  | refused (e : Errno)
  | nothing
  | entry

def replaces (s : Vfs) (c : Cred) (ndir src dst : Addr) (noreplace : Bool) : Option Replacing :=
  if ¬ c.mayDelete (s.inodes ndir) (s.inodes (s.inode dst)) then some (.refused .eperm)
  else if noreplace then some (.refused .eexist)
  else if s.inode dst = s.inode src then some .nothing
  else if s.isDir (s.inode src) ∧ ¬ s.isDir (s.inode dst) then some (.refused .enotdir)
  else if ¬ s.isDir (s.inode src) ∧ s.isDir (s.inode dst) then some (.refused .eisdir)
  else if s.isDir (s.inode dst) then
    if (s.firstChild dst).isSome then some (.refused .enotempty)
    else (s.mountpoint (s.inode dst)).map (fun mounted =>
      if mounted then .refused .enotempty else .entry)
  else some .entry

def relocate (s : Vfs) (odir src ndir : Addr) (nname : Name) : Option Vfs :=
  (s.detach src).bind (fun s =>
    match (s.inodes ndir).ptr with
    | none => none
    | some parent => ((s.setName src nname).vfsAddChild parent src).map (fun s =>
        ((s.vfsTouch (s.inode src) changed).vfsTouch odir modified).vfsTouch ndir modified))

def renameTarget (s : Vfs) (odir ndir : Addr) (nname : Name) : Option Errno :=
  if ¬ s.isDir ndir then some .enotdir
  else if s.dev odir ≠ s.dev ndir ∨ ¬ (s.inodes ndir).creates then some .exdev
  else if s.removed ndir then some .enoent
  else if nname.length > nameMax then some .enametoolong
  else none

def renameOver (s : Vfs) (c : Cred) (odir src ndir : Addr) (nname : Name) (noreplace : Bool)
    (dst : Option Addr) : Option (Except Errno Unit × Vfs) :=
  match dst with
  | none => (s.relocate odir src ndir nname).map (fun s => (.ok (),s))
  | some d => (s.replaces c ndir src d noreplace).bind (fun replacing =>
      match replacing with
      | .refused e => some (.error e,s)
      | .nothing => some (.ok (),s)
      | .entry => (s.drop ndir d).bind (fun s =>
          (s.relocate odir src ndir nname).map (fun s => (.ok (),s))))

def vfsRename (s : Vfs) (c : Cred) (odir : Addr) (oname : Name) (ndir : Addr) (nname : Name)
    (noreplace : Bool) : Option (Except Errno Unit × Vfs) :=
  (s.vfsChild odir oname).bind (fun found =>
    match found with
    | none => some (.error .enoent,s)
    | some src =>
      match s.renameTarget odir ndir nname with
      | some e => some (.error e,s)
      | none => (s.moveRefused src ndir).bind (fun refused =>
          match refused.or (s.renameAllowed c odir ndir src) with
          | some e => some (.error e,s)
          | none => (s.vfsChild ndir nname).bind (fun dst =>
              s.renameOver c odir src ndir nname noreplace dst)))

end Vfs
end Miviex
