import Mathlib.Data.List.DropRight
import Miviex.Descriptors
import Miviex.VfsMounts

/-! Paths: `walk` with its symlinks, `file_open`, and the system calls that create, remove and
rename by path. Directories outside the dentry lists, and the links in them, answer through
hooks. -/
namespace Miviex

def maxSymlinks : Nat := 40

/- `own` says which directories have a `finddir` that is not the one of the dentry lists,
`readLink` what reading a symlink gives, and `truncates` whether `ramfs_truncate` gets the
memory it may ask for. -/
structure Hooks where
  own : Addr → Bool
  finddir : Addr → Name → Option Addr
  readLink : Addr → Except Errno (List UInt8)
  opens : Addr → Option Errno
  truncates : Addr → Bool

namespace Vfs

def slash : UInt8 := 47
def dot : Name := [46]
def dotDot : Name := [46,46]

def above (s : Vfs) (dir : Addr) : Addr :=
  match (s.inodes dir).ptr with
  | none => dir
  | some d => (s.parent d).elim dir s.inode

def step (s : Vfs) (k : Hooks) (dir : Addr) (name : Name) : Option (Option Addr) :=
  if name = dot then some (some dir)
  else if name = dotDot then some (some (s.above dir))
  else if k.own dir then some (k.finddir dir name)
  else (s.vfsChild dir name).map (·.map s.inode)

/- The dentry that names an inode: a directory's own, else the entry we came through. -/
def nameOf (s : Vfs) (dir n : Addr) (comp : Name) : Option (Option Addr) :=
  if s.isDir n then some (s.inodes n).ptr else s.vfsChild dir comp

def startOf (s : Vfs) (base : Addr) (path : List UInt8) : Addr :=
  if path.head? = some slash then s.inode s.fsRoot else base

def ownName (s : Vfs) (n : Addr) : Option Addr := if s.isDir n then (s.inodes n).ptr else none

def slashAfterFile (s : Vfs) (n : Addr) (rest : List UInt8) : Prop :=
  rest ≠ [] ∧ ¬ s.isDir n ∧ ∀ b ∈ rest, b = slash

instance (s : Vfs) (n : Addr) (rest : List UInt8) : Decidable (s.slashAfterFile n rest) :=
  inferInstanceAs (Decidable (_ ∧ _ ∧ _))

theorem restShorter {path more : List UInt8} {first} (split : path.dropWhile (· == slash) = first::more) :
    (more.dropWhile (· != slash)).length < path.length := by
  have inner := (List.dropWhile_sublist (fun b => b != slash) (l := more)).length_le
  have outer := (List.dropWhile_sublist (fun b => b == slash) (l := path)).length_le
  rw [split,List.length_cons] at outer
  omega

abbrev Walked := Option (Except Errno (Addr × Option Addr))

/- After a component: the rest of the path, unless a file is followed by slashes. -/
def onward (s : Vfs) (rest : List UInt8) (goOn : Addr → Option Addr → Walked) (next : Addr) (nd : Option Addr) : Walked :=
  if s.slashAfterFile next rest then some (.error .enotdir) else goOn next nd

/- One round of `walk` in `cur`. `nested` walks the target of a symlink, if one more may be
nested; `memory` is whether the copy of the target can be allocated. -/
def component (s : Vfs) (k : Hooks) (c : Cred) (memory follow : Bool) (cur : Addr) (comp : Name) (rest : List UInt8)
    (nested : Option (List UInt8 → Walked)) (goOn : Addr → Option Addr → Walked) : Walked :=
  if comp.length > nameMax then some (.error .enametoolong)
  else if ¬ s.isDir cur then some (.error .enotdir)
  else if ¬ c.permission (s.inodes cur) mayExec then some (.error .eacces)
  else (s.step k cur comp).bind (fun found =>
    match found with
    | none => some (.error .enoent)
    | some next => (s.nameOf cur next comp).bind (fun nd =>
        if (s.inodes next).type = .symlink ∧ (rest ≠ [] ∨ follow) then
          match nested with
          | none => some (.error .eloop)
          | some follows =>
            if ¬ memory then some (.error .enomem)
            else match k.readLink next with
              | .error e => some (.error e)
              | .ok target => (follows target).bind (fun found =>
                  match found with
                  | .error e => some (.error e)
                  | .ok (next,nd) => s.onward rest goOn next nd)
        else s.onward rest goOn next nd))

def walkPath (s : Vfs) (k : Hooks) (c : Cred) (memory : Bool) (nested : Addr → Option (List UInt8 → Walked))
    (path : List UInt8) (follow : Bool) (cur : Addr) (d : Option Addr) : Walked :=
  match _split : path.dropWhile (· == slash) with
  | [] => some (.ok (cur,d))
  | first::more =>
    s.component k c memory follow cur (first::more.takeWhile (· != slash)) (more.dropWhile (· != slash)) (nested cur)
      (fun next nd => s.walkPath k c memory nested (more.dropWhile (· != slash)) follow next nd)
termination_by path.length
decreasing_by exact restShorter _split

section

variable {s : Vfs} {k : Hooks} {c : Cred} {memory follow : Bool} {nested : Addr → Option (List UInt8 → Walked)}
  {path : List UInt8} {cur : Addr} {d : Option Addr}

theorem walkPathDone (split : path.dropWhile (· == slash) = []) :
    s.walkPath k c memory nested path follow cur d = some (.ok (cur,d)) := by
  unfold walkPath
  split
  · rfl
  rename_i first more wrong
  cases split.symm.trans wrong

theorem walkPathOn {first more} (split : path.dropWhile (· == slash) = first::more) :
    s.walkPath k c memory nested path follow cur d =
    s.component k c memory follow cur (first::more.takeWhile (· != slash)) (more.dropWhile (· != slash)) (nested cur)
    (fun next nd => s.walkPath k c memory nested (more.dropWhile (· != slash)) follow next nd) := by
  rw [walkPath.eq_def]
  split
  · rename_i wrong
    cases split.symm.trans wrong
  rename_i first' more' same
  cases split.symm.trans same
  rfl

end

/- `links` is how many more symlinks may be nested. A target is relative to the directory of
its link. -/
def walk (s : Vfs) (k : Hooks) (c : Cred) (memory : Bool) : Nat → Addr → List UInt8 → Bool → Walked
  | 0, base, path, follow =>
    s.walkPath k c memory (fun _ => none) path follow (s.startOf base path) (s.ownName (s.startOf base path))
  | links + 1, base, path, follow =>
    s.walkPath k c memory (fun cur => some (fun target => s.walk k c memory links cur target true)) path follow
      (s.startOf base path) (s.ownName (s.startOf base path))

def vfsResolveDentry (s : Vfs) (k : Hooks) (c : Cred) (memory : Bool) (base : Addr) (path : List UInt8)
    (follow : Bool) : Walked :=
  if path = [] then some (.error .enoent)
  else s.walk k c memory maxSymlinks base path follow

def vfsResolve (s : Vfs) (k : Hooks) (c : Cred) (memory : Bool) (base : Addr) (path : List UInt8) (follow : Bool) :
    Option (Except Errno Addr) :=
  (s.vfsResolveDentry k c memory base path follow).map (·.map Prod.fst)

def trimmed (path : List UInt8) : List UInt8 :=
  let short := path.rdropWhile (· == slash)
  if short = [] then path.take 1 else short

def lastName (path : List UInt8) : Name := (trimmed path).rtakeWhile (· != slash)

def directoryPart (path : List UInt8) : List UInt8 := (trimmed path).rdropWhile (· != slash)

def vfsParent (s : Vfs) (k : Hooks) (c : Cred) (memory : Bool) (base : Addr) (path : List UInt8) :
    Option (Except Errno (Addr × Name)) :=
  let name := lastName path
  if name.length > nameMax then some (.error .enametoolong)
  else if name = [] ∨ name = dot ∨ name = dotDot then
    some (.error (if name = [] ∧ path ≠ [] then .eexist else .einval))
  else if directoryPart path = [] then some (.ok (base,name))
  else if ¬ memory then some (.error .enomem)
  else (s.vfsResolve k c memory base (directoryPart path) true).map (fun found =>
    match found with
    | .error e => .error e
    | .ok n => if s.isDir n then .ok (n,name) else .error .enotdir)

structure OpenFlags where
  acc : Access
  creat : Bool := false
  excl : Bool := false
  nofollow : Bool := false
  directory : Bool := false
  trunc : Bool := false

structure Opened where
  node : Addr
  dentry : Option Addr
  created : Bool

def resolve (s : Vfs) (k : Hooks) (c : Cred) (memory : Bool) (base : Addr) (path : List UInt8) (flags : OpenFlags)
    (mode : BitVec 32) (places : Places) : Option (Except Errno Opened × Vfs) :=
  (s.vfsResolveDentry k c memory base path (!flags.nofollow)).bind (fun found =>
    match found with
    | .ok (node,d) =>
      if flags.creat ∧ flags.excl then some (.error .eexist,s)
      else if (s.inodes node).type = .symlink then some (.error .eloop,s)
      else some (.ok ⟨node,d,false⟩,s)
    | .error e =>
      if ¬ flags.creat ∨ e ≠ .enoent then some (.error e,s)
      else (s.vfsParent k c memory base path).bind (fun parent =>
        match parent with
        | .error e => some (.error e,s)
        | .ok (dir,name) => (s.vfsCreate c dir name .file mode places).bind (fun (made,t) =>
            match made with
            | .error e => some (.error e,t)
            | .ok n => (t.vfsChild dir name).map (fun d => (.ok ⟨n,d,true⟩,t)))))

def openRefused (s : Vfs) (k : Hooks) (c : Cred) (o : Opened) (flags : OpenFlags) : Option Errno :=
  let x := s.inodes o.node
  let writes := flags.acc ≠ .rdonly ∨ flags.trunc
  let mask := (if flags.acc ≠ .wronly then mayRead else 0) ||| (if writes then mayWrite else 0)
  if x.type = .socket then some .enxio
  else if flags.directory ∧ x.type ≠ .directory then some .enotdir
  else if x.type = .directory ∧ flags.acc ≠ .rdonly then some .eisdir
  else if writes ∧ s.vfsReadonly o.node ∧ x.type ≠ .charDevice ∧ x.type ≠ .pipe then some .erofs
  else if ¬ o.created ∧ ¬ c.permission x mask then some .eacces
  else k.opens o.node

def truncated (now : Nat) (x : Inode) : Inode :=
  if x.destroys ∧ x.type ≠ .directory then stamp now modified {x with data := []} else x

def cuts (s : Vfs) (k : Hooks) (n : Addr) (flags : OpenFlags) : Prop :=
  flags.trunc ∧ flags.acc ≠ .rdonly ∧ ((s.inodes n).data ≠ [] ∨ k.truncates n)

instance (s : Vfs) (k : Hooks) (n : Addr) (flags : OpenFlags) : Decidable (s.cuts k n flags) :=
  inferInstanceAs (Decidable (_ ∧ _ ∧ _))

/- `file_open`; the open description is one more reference. -/
def fileOpen (s : Vfs) (k : Hooks) (c : Cred) (memory : Bool) (base : Addr) (path : List UInt8) (flags : OpenFlags)
    (mode : BitVec 32) (places : Places) : Option (Except Errno Opened × Vfs) :=
  (s.resolve k c memory base path flags mode places).map (fun (found,s) =>
    match found with
    | .error e => (.error e,s)
    | .ok o =>
      match s.openRefused k c o flags with
      | some e => (.error e,s)
      | none =>
        let s := if s.cuts k o.node flags then s.modifyInode o.node (truncated s.now) else s
        if ¬ places.record then (.error .enomem,s) else (.ok o,s.vfsIget o.node))

def baseDir (s : Vfs) (dir : Except Errno Addr) (path : List UInt8) : Except Errno Addr :=
  if path.head? = some slash then .ok (s.inode s.fsRoot) else dir

def atInode (s : Vfs) (k : Hooks) (c : Cred) (memory : Bool) (dir : Except Errno Addr) (path : List UInt8)
    (follow : Bool) : Option (Except Errno Addr) :=
  match s.baseDir dir path with
  | .error e => some (.error e)
  | .ok base => s.vfsResolve k c memory base path follow

def atParent (s : Vfs) (k : Hooks) (c : Cred) (memory : Bool) (dir : Except Errno Addr) (path : List UInt8) :
    Option (Except Errno (Addr × Name)) :=
  if path = [] then some (.error .enoent)
  else match s.baseDir dir path with
    | .error e => some (.error e)
    | .ok base => s.vfsParent k c memory base path

def sysMkdirat (s : Vfs) (k : Hooks) (c : Cred) (memory : Bool) (dir : Except Errno Addr) (path : List UInt8)
    (mode : BitVec 32) (places : Places) : Option (Except Errno Unit × Vfs) :=
  (s.atParent k c memory dir path).bind (fun parent =>
    match parent with
    | .error e => some (.error e,s)
    | .ok (dir,name) => (s.vfsCreate c dir name .directory (mode &&& 0o7777) places).map (fun (made,t) =>
        (made.map (fun _ => ()),t)))

def busyRoot (e : Errno) : Errno := if e = .eexist then .ebusy else e

section

variable (s : Vfs) (k : Hooks) (c : Cred)

def sysUnlinkat (memory : Bool) (dir : Except Errno Addr) (path : List UInt8)
    (removedir : Bool) : Option (Except Errno Unit × Vfs) :=
  (s.atParent k c memory dir path).bind (fun parent =>
    match parent with
    | .error e => some (.error (busyRoot e),s)
    | .ok (dir,name) => if removedir then s.vfsRmdir c dir name else s.vfsUnlink c dir name)

def sysLinkat (memory again : Bool) (odir : Except Errno Addr) (old : List UInt8)
    (follow : Bool) (ndir : Except Errno Addr) (new : List UInt8) (places : Places) : Option (Except Errno Unit × Vfs) :=
  (s.atInode k c memory odir old follow).bind (fun found =>
    match found with
    | .error e => some (.error e,s)
    | .ok target => (s.atParent k c again ndir new).bind (fun parent =>
        match parent with
        | .error e => some (.error e,s)
        | .ok (dir,name) => s.vfsLink c dir name target places))

/- `known` is whether the flags are; the only one is `RENAME_NOREPLACE`. -/
def sysRenameat2 (memory again : Bool) (odir : Except Errno Addr) (old : List UInt8)
    (ndir : Except Errno Addr) (new : List UInt8) (known noreplace : Bool) : Option (Except Errno Unit × Vfs) :=
  if ¬ known then some (.error .einval,s)
  else (s.atParent k c memory odir old).bind (fun first =>
    match first with
    | .error e => some (.error (busyRoot e),s)
    | .ok (odir,oname) => (s.atParent k c again ndir new).bind (fun second =>
        match second with
        | .error e => some (.error (busyRoot e),s)
        | .ok (ndir,nname) => s.vfsRename c odir oname ndir nname noreplace))

/- `room` is whether `ramfs_write` gets memory for the target. -/
def sysSymlinkat (memory : Bool) (target : Except Errno (List UInt8))
    (dir : Except Errno Addr) (path : List UInt8) (room : Bool) (places : Places) : Option (Except Errno Unit × Vfs) :=
  match target with
  | .error e => some (.error e,s)
  | .ok [] => some (.error .enoent,s)
  | .ok text => (s.atParent k c memory dir path).bind (fun parent =>
      match parent with
      | .error e => some (.error e,s)
      | .ok (dir,name) => (s.vfsCreate c dir name .symlink 0o777 places).map (fun (made,t) =>
          match made with
          | .error e => (.error e,t)
          | .ok n =>
            if room then (.ok (),t.modifyInode n (fun x => stamp t.now modified {x with data := text}))
            else (.error .enomem,t)))

/- `slot` is the number `fd_install` finds; without one the description is closed again. -/
def sysOpenat (memory : Bool) (dir : Except Errno Addr) (path : List UInt8)
    (flags : OpenFlags) (mode : BitVec 32) (slot : Option Nat) (places : Places) : Option (Except Errno Nat × Vfs) :=
  if path = [] then some (.error .enoent,s)
  else match s.baseDir dir path with
    | .error e => some (.error e,s)
    | .ok base => (s.fileOpen k c memory base path flags mode places).map (fun (opened,s) =>
        match opened,slot with
        | .error e,_ => (.error e,s)
        | .ok _,some fd => (.ok fd,s)
        | .ok o,none => (.error .emfile,s.vfsIput o.node))

end

inductive NameCall where
  | mkdirat (dir : Except Errno Addr) (path : List UInt8) (mode : BitVec 32) (places : Places)
  | unlinkat (dir : Except Errno Addr) (path : List UInt8) (removedir : Bool)
  | renameat2 (again : Bool) (odir : Except Errno Addr) (old : List UInt8) (ndir : Except Errno Addr)
      (new : List UInt8) (known noreplace : Bool)
  | linkat (again : Bool) (odir : Except Errno Addr) (old : List UInt8) (follow : Bool) (ndir : Except Errno Addr)
      (new : List UInt8) (places : Places)
  | symlinkat (target : Except Errno (List UInt8)) (dir : Except Errno Addr) (path : List UInt8) (room : Bool)
      (places : Places)

namespace NameCall

def run (s : Vfs) (k : Hooks) (c : Cred) (memory : Bool) : NameCall → Option (Except Errno Unit × Vfs)
  | mkdirat dir path mode places => s.sysMkdirat k c memory dir path mode places
  | unlinkat dir path removedir => s.sysUnlinkat k c memory dir path removedir
  | renameat2 again odir old ndir new known noreplace => s.sysRenameat2 k c memory again odir old ndir new known noreplace
  | linkat again odir old follow ndir new places => s.sysLinkat k c memory again odir old follow ndir new places
  | symlinkat target dir path room places => s.sysSymlinkat k c memory target dir path room places

end NameCall

end Vfs
end Miviex
