import Miviex.Pipe
import Miviex.Socket

/-! The calls that make, copy and close descriptors, over one table. Of `net` only the sockets are
used, not its own table. -/
namespace Miviex

inductive Object where
  | node (n : Addr)
  | pipe (k : Nat)
  | sock (s : Nat)
  deriving DecidableEq, Repr

structure OpenFiles where
  files : Files Object
  pipe : Nat → Option Pipe
  nextPipe : Nat
  net : Sockets

/- `found` is what looking up the path and the checks of `file_open` answer. `memory`, `made`,
`first` and `second` are whether allocations succeed, `refused` is why an image cannot be loaded. -/
inductive FileRequest where
  | openat (found : Except Errno Addr) (access : Access) (nonblock cloexec memory : Bool) (limit : Nat)
  | pipe2 (mapped memory cloexec : Bool) (limit : Nat)
  | socketpair (family type proto : Int) (mapped nonblock cloexec : Bool) (limit : Nat) (made first second : Bool)
  | dup (fd low limit : Nat) (cloexec : Bool)
  | dup2 (old new : Nat)
  | dup3 (old new : Nat) (cloexec : Bool)
  | setCloexec (fd : Nat) (cloexec : Bool)
  | setNonblock (fd : Nat) (nonblock : Bool)
  | execve (refused : Option Errno)
  | close (fd : Nat)

inductive FileAnswer where
  | number (n : Nat)
  | ends (first second : Nat)
  | failed (e : Errno)
  deriving DecidableEq, Repr

abbrev FileOutcome := Calls.Outcome OpenFiles Empty FileAnswer

namespace OpenFiles

def pipeChan (k : Nat) : Addr := 2 * k
def sockChan (s : Nat) : Addr := 2 * s + 1

def pipeRelease (access : Access) (p : Pipe) : Option Pipe :=
  let p := p.release access
  if p.readers = 0 ∧ p.writers = 0 then none else some p

def sockFree (d : OpenFiles) (s : Nat) : OpenFiles × List Addr :=
  let (net,wakes) := d.net.sockFree s
  ({d with net := net},wakes.map sockChan)

def releaseOne (d : OpenFiles × List Addr) (x : File Object) : OpenFiles × List Addr :=
  match x.object with
  | .node _ => d
  | .pipe k =>
    ({d.1 with pipe := Function.update d.1.pipe k ((d.1.pipe k).bind (pipeRelease x.access))},d.2 ++ [pipeChan k])
  | .sock s =>
    let (left,wakes) := d.1.sockFree s
    (left,d.2 ++ wakes)

def release (d : OpenFiles) (gone : List (File Object)) : OpenFiles × List Addr := gone.foldl releaseOne (d,[])

def answered (d : OpenFiles) (wakes : List Addr) (result : Except Errno Nat) : FileOutcome where
  dev := d
  wakes := wakes
  next := .done (match result with
    | .ok n => .number n
    | .error e => .failed e)

def failed (d : OpenFiles) (e : Errno) : FileOutcome := d.answered [] (.error e)

def closing {α : Type} (d : OpenFiles) (answer : α → Nat) (result : Except Errno α × Files Object × Option (File Object)) :
    FileOutcome :=
  let (d,wakes) := {d with files := result.2.1}.release result.2.2.toList
  d.answered wakes (result.1.map answer)

def sysOpenat (d : OpenFiles) (me : Addr) (found : Except Errno Addr) (access : Access) (nonblock cloexec memory : Bool)
    (limit : Nat) : FileOutcome :=
  match found with
  | .error e => d.failed e
  | .ok n =>
    if ¬ memory then d.failed .enomem
    else
      let (f,files) := d.files.fileAlloc (.node n) access nonblock
      d.closing id (files.fdInstall me limit f 0 cloexec)

def pipeCreate (d : OpenFiles) : Nat × Nat × OpenFiles :=
  let (rd,files) := d.files.fileAlloc (.pipe d.nextPipe) .rdonly false
  let (wr,files) := files.fileAlloc (.pipe d.nextPipe) .wronly false
  (rd,wr,{d with
    files := files
    pipe := Function.update d.pipe d.nextPipe (some Pipe.new)
    nextPipe := d.nextPipe + 1})

/- A descriptor for each end of a new pipe: the table, the descriptions that were closed
again, and the two numbers. -/
def installEnds (t : Files Object) (me : Addr) (limit rd wr : Nat) (cloexec : Bool) :
    Except Errno (Nat × Nat) × Files Object × List (File Object) :=
  match t.fdInstall me limit rd 0 cloexec with
  | (.error e,t,gone) =>
    let (t,left) := t.filePut wr
    (.error e,t,gone.toList ++ left.toList)
  | (.ok r,t,_) =>
    match t.fdInstall me limit wr 0 cloexec with
    | (.error e,t,gone) =>
      let (_,t,left) := t.sysClose me r
      (.error e,t,gone.toList ++ left.toList)
    | (.ok w,t,_) => (.ok (r,w),t,[])

section

variable (d : OpenFiles) (me : Addr)

def sysPipe2 (mapped memory cloexec : Bool) (limit : Nat) : FileOutcome :=
  if ¬ mapped then d.failed .efault
  else if ¬ memory then d.failed .enomem
  else
    let (rd,wr,d) := d.pipeCreate
    let (result,files,gone) := installEnds d.files me limit rd wr cloexec
    let (d,wakes) := {d with files := files}.release gone
    {dev := d, wakes := wakes, next := .done (match result with
      | .ok (r,w) => .ends r w
      | .error e => .failed e)}

def sockInstall (limit s : Nat) (nonblock cloexec memory : Bool) :
    Except Errno Nat × OpenFiles × List Addr :=
  if ¬ memory then (.error .enomem,d.sockFree s)
  else
    let (f,files) := d.files.fileAlloc (.sock s) .rdwr nonblock
    let (result,files,gone) := files.fdInstall me limit f 0 cloexec
    (result,{d with files := files}.release gone.toList)

def sysSocketpair (family type proto : Int) (mapped nonblock cloexec : Bool) (limit : Nat)
    (made first second : Bool) : FileOutcome :=
  match Sockets.sockType family type proto with
  | .error e => d.failed e
  | .ok type =>
    if ¬ mapped then d.failed .efault
    else if ¬ made then d.failed .enomem
    else
      let (a,b,net) := d.net.sockPair type
      match {d with net := net}.sockInstall me limit a nonblock cloexec first with
      | (.error e,d,wakes) =>
        let (d,more) := d.sockFree b
        d.answered (wakes ++ more) (.error e)
      | (.ok fa,d,wakes) =>
        match d.sockInstall me limit b nonblock cloexec second with
        | (.error e,d,more) =>
          let (_,files,gone) := d.files.sysClose me fa
          let (d,last) := {d with files := files}.release gone.toList
          d.answered (wakes ++ more ++ last) (.error e)
        | (.ok fb,d,more) => {dev := d, wakes := wakes ++ more, next := .done (.ends fa fb)}

def processExecve : Option Errno → FileOutcome
  | some e => d.failed e
  | none =>
    let (files,gone) := d.files.closeOnExec me
    let (d,wakes) := {d with files := files}.release gone
    d.answered wakes (.ok 0)

def enter (_ : Bool) : FileRequest → FileOutcome
  | .openat found access nonblock cloexec memory limit => d.sysOpenat me found access nonblock cloexec memory limit
  | .pipe2 mapped memory cloexec limit => d.sysPipe2 me mapped memory cloexec limit
  | .socketpair family type proto mapped nonblock cloexec limit made first second =>
    d.sysSocketpair me family type proto mapped nonblock cloexec limit made first second
  | .dup fd low limit cloexec => d.closing id (d.files.sysDup me limit fd low cloexec)
  | .dup2 old new => d.closing id (d.files.sysDup2 me old new)
  | .dup3 old new cloexec => d.closing id (d.files.sysDup3 me old new cloexec)
  | .setCloexec fd cloexec =>
    let (result,files) := d.files.setCloexec me fd cloexec
    d.closing (fun _ => 0) (result,files,none)
  | .setNonblock fd nonblock =>
    let (result,files) := d.files.setNonblock me fd nonblock
    d.closing (fun _ => 0) (result,files,none)
  | .execve refused => d.processExecve me refused
  | .close fd => d.closing (fun _ => 0) (d.files.sysClose me fd)

def exit : OpenFiles × List Addr :=
  {d with files := (d.files.closeAll me).1}.release (d.files.closeAll me).2

end

def device : Calls.Device OpenFiles Empty FileAnswer FileRequest where
  enter := enter
  resume := fun _ _ _ call => nomatch call
  fork := fun d me child => {d with files := d.files.forkFds me child}
  exit := exit

def stdio (d : OpenFiles) (p : Addr) : Option Addr → OpenFiles
  | none => d
  | some console =>
    let (con,t) := d.files.fileAlloc (.node console) .rdwr false
    let t := t.setFd p 0 (some con) false
    let t := (t.fileGet con).setFd p 1 (some con) false
    {d with files := (t.fileGet con).setFd p 2 (some con) false}

def initial (view : View) : OpenFiles := ⟨Files.empty,fun _ => none,0,Sockets.initial view⟩

abbrev Machine := Calls.System OpenFiles Empty FileAnswer

def step (idle : Addr) (s : Machine) (e : Calls.Event FileRequest) : Option Machine := s.step device idle e

def start (idle : Addr) (view : View) (p : Addr) (console : Option Addr) : Option Machine :=
  (step idle (Calls.System.boot idle (initial view)) (.kernel (.createUser (some p) prioUser))).map (fun s =>
    {s with dev := s.dev.stdio p console})

end OpenFiles
end Miviex
