import Miviex.Errno
import Miviex.Process
import Miviex.References

/-! Open file descriptions and the descriptor tables of the processes. A description is
freed when its last descriptor goes, and is handed to the release hook of what it is open
on. Offsets and paths are left out. -/
namespace Miviex
open Function (update)

inductive Access where
  | rdonly
  | wronly
  | rdwr
  deriving DecidableEq, Repr

structure File (O : Type) where
  object : O
  access : Access
  nonblock : Bool
  refs : Nat
  deriving Repr

structure Polled where
  pin : Bool := false
  pout : Bool := false
  perr : Bool := false
  phup : Bool := false
  deriving DecidableEq, Repr

def maxFds : Nat := 64

def ioMax : Nat := 0x7FFFF000

/- `file` has the descriptions in use; `next` names the one `file_alloc` makes. -/
structure Files (O : Type) where
  file : Nat → Option (File O)
  fds : Addr → Nat → Option Nat
  cloexec : Addr → Nat → Bool
  next : Nat

namespace Files

variable {O : Type}

def empty : Files O := ⟨fun _ => none,fun _ _ => none,fun _ _ => false,0⟩

section

variable (t : Files O)

def setFd (me : Addr) (i : Nat) (f : Option Nat) (cloexec : Bool) : Files O :=
  {t with
    fds := update t.fds me (update (t.fds me) i f)
    cloexec := update t.cloexec me (update (t.cloexec me) i cloexec)}

def fdFile (me : Addr) (fd : Nat) : Option Nat := if fd < maxFds then t.fds me fd else none

def fileAlloc (object : O) (access : Access) (nonblock : Bool) : Nat × Files O :=
  (t.next,{t with
    file := update t.file t.next (some ⟨object,access,nonblock,1⟩)
    next := t.next + 1})

def fileGet (f : Nat) : Files O :=
  {t with file := update t.file f ((t.file f).map (fun x => {x with refs := x.refs + 1}))}

/- With the description its release hook is called for, if this was the last reference. -/
def filePut (f : Nat) : Files O × Option (File O) :=
  match t.file f with
  | none => (t,none)
  | some x =>
    if x.refs = 1 then ({t with file := update t.file f none},some x)
    else ({t with file := update t.file f (some {x with refs := x.refs - 1})},none)

/- `limit` is the soft limit RLIMIT_NOFILE of the caller. -/
def fdInstall (me : Addr) (limit : Nat) (f low : Nat) (cloexec : Bool) :
    Except Errno Nat × Files O × Option (File O) :=
  match (List.range (min limit maxFds)).find? (fun i => low ≤ i && (t.fds me i).isNone) with
  | some i => (.ok i,t.setFd me i (some f) cloexec,none)
  | none => (.error .emfile,t.filePut f)

def sysClose (me : Addr) (fd : Nat) : Except Errno Unit × Files O × Option (File O) :=
  match t.fdFile me fd with
  | none => (.error .ebadf,t,none)
  | some f => (.ok (),(t.setFd me fd none false).filePut f)

def sysDup (me : Addr) (limit fd low : Nat) (cloexec : Bool) :
    Except Errno Nat × Files O × Option (File O) :=
  match t.fdFile me fd with
  | none => (.error .ebadf,t,none)
  | some f => if low ≥ maxFds then (.error .einval,t,none) else (t.fileGet f).fdInstall me limit f low cloexec

def putSlot (me : Addr) (i : Nat) : Files O × Option (File O) :=
  match t.fds me i with
  | none => (t,none)
  | some f => t.filePut f

def sysDup3 (me : Addr) (old new : Nat) (cloexec : Bool) :
    Except Errno Nat × Files O × Option (File O) :=
  match t.fdFile me old with
  | none => (.error .ebadf,t,none)
  | some f =>
    if new ≥ maxFds then (.error .ebadf,t,none)
    else if old = new then (.error .einval,t,none)
    else
      let (t,released) := t.putSlot me new
      (.ok new,(t.fileGet f).setFd me new (some f) cloexec,released)

def sysDup2 (me : Addr) (old new : Nat) : Except Errno Nat × Files O × Option (File O) :=
  if old = new then
    (match t.fdFile me old with | none => .error .ebadf | some _ => .ok new,t,none)
  else t.sysDup3 me old new false

def setCloexec (me : Addr) (fd : Nat) (cloexec : Bool) : Except Errno Unit × Files O :=
  match t.fdFile me fd with
  | none => (.error .ebadf,t)
  | some f => (.ok (),t.setFd me fd (some f) cloexec)

/- `F_SETFL`: the access mode stays. -/
def setNonblock (me : Addr) (fd : Nat) (nonblock : Bool) : Except Errno Unit × Files O :=
  match t.fdFile me fd with
  | none => (.error .ebadf,t)
  | some f =>
    (.ok (),{t with file := update t.file f ((t.file f).map (fun x => {x with nonblock := nonblock}))})

end

def closeOne (me : Addr) (only : Nat → Bool) (t : Files O × List (File O)) (i : Nat) : Files O × List (File O) :=
  if only i then
    let (files,released) := t.1.putSlot me i
    (files.setFd me i none false,t.2 ++ released.toList)
  else t

def closeAll (t : Files O) (me : Addr) : Files O × List (File O) :=
  (List.range maxFds).foldl (closeOne me (fun _ => true)) (t,[])

def closeOnExec (t : Files O) (me : Addr) : Files O × List (File O) :=
  (List.range maxFds).foldl (closeOne me (t.cloexec me)) (t,[])

def copyOne (me child : Addr) (t : Files O) (i : Nat) : Files O :=
  match t.fds me i with
  | none => t
  | some f => (t.fileGet f).setFd child i (some f) (t.cloexec me i)

def forkFds (t : Files O) (me child : Addr) : Files O := (List.range maxFds).foldl (copyOne me child) t

end Files
end Miviex
