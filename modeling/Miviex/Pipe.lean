import Miviex.BlockingCalls
import Miviex.Descriptors
import Miviex.RingBuffer

/-! Pipes, with the calls that reach them. Reads and writes sleep in the middle; what a sleeping
call keeps is in `Reading` and `Writing`. Two histories are recorded beside the code: the bytes
put in, each with the number of its write call, and the bytes taken out. -/
namespace Miviex

def pipeSize : Nat := 4096
def pipeBuf : Nat := 4096
def iovMax : Nat := 1024

structure Pipe where
  ring : Ring UInt8
  readers : Nat
  writers : Nat
  accepted : List (Nat × UInt8)
  taken : List UInt8

namespace Pipe

def new : Pipe := ⟨⟨fun _ => 0,0,0⟩,1,1,[],[]⟩

structure Round (α : Type) where
  pipe : Pipe
  woke : Bool
  result : α

def read (p : Pipe) (pending : Bool) (size : Nat) : Round (Option (Except Stop (List UInt8))) :=
  if p.ring.len = 0 then
    if p.writers = 0 then ⟨p,false,some (.ok [])⟩
    else if pending then ⟨p,false,some (.error .restartsys)⟩
    else ⟨p,false,none⟩
  else
    let k := if size < p.ring.len then size else p.ring.len
    let bytes := p.ring.peek pipeSize k
    ⟨{p with ring := p.ring.drop pipeSize k, taken := p.taken ++ bytes},true,some (.ok bytes)⟩

/- Where a write is: asleep in the first loop, asleep in the second with the bytes left and
the number done, or finished. -/
inductive Wrote where
  | gate
  | full (src : List UInt8) (done : Nat)
  | returns (r : Except Stop Nat)

/- The second loop. Every round that neither returns nor sleeps copies at least one byte. -/
def writeLoop (id : Nat) (pending : Bool) : Nat → Pipe → Bool → List UInt8 → Nat → Round Wrote
  | 0, p, woke, _, done => ⟨p,woke,.returns (.ok done)⟩
  | fuel + 1, p, woke, src, done =>
    if src.isEmpty then ⟨p,woke,.returns (.ok done)⟩
    else if p.readers = 0 then ⟨p,woke,.returns (partialOr done (.errno .epipe))⟩
    else if p.ring.len = pipeSize then
      ⟨p,woke,if pending then .returns (partialOr done .restartsys) else .full src done⟩
    else
      let filled := p.ring.fill pipeSize src
      let k := src.length-filled.2.length
      let p := {p with ring := filled.1, accepted := p.accepted ++ (src.take k).map (fun b => (id,b))}
      writeLoop id pending fuel p true filled.2 (done+k)

def write (id : Nat) (pending : Bool) (p : Pipe) (src : List UInt8) : Round Wrote :=
  if src.length ≤ pipeSize ∧ pipeSize - p.ring.len < src.length ∧ p.readers ≠ 0 then
    ⟨p,false,if pending then .returns (.error .restartsys) else .gate⟩
  else writeLoop id pending src.length p false src 0

def release (p : Pipe) (access : Access) : Pipe :=
  if access = .rdonly then {p with readers := p.readers - 1} else {p with writers := p.writers - 1}

def poll (p : Pipe) (access : Access) : Polled :=
  if access = .rdonly then {pin := p.ring.len > 0, phup := p.writers = 0}
  else if p.readers = 0 then {perr := true}
  else {pout := p.ring.len < pipeSize}

end Pipe

/- A read of the pieces `rest`, the first of them being read; `got` is what came so far. -/
structure Reading where
  pipe : Nat
  rest : List (Nat × Bool)
  got : List UInt8

/- A write in the middle of one piece of `len` bytes: in the first loop with all of `src` to
go, or in the second with `done` bytes of the piece gone. `before` counts the pieces before it. -/
structure Writing where
  pipe : Nat
  id : Nat
  gate : Bool
  src : List UInt8
  done : Nat
  len : Nat
  rest : List (List UInt8)
  before : Nat

inductive PipeCall where
  | read (r : Reading)
  | write (w : Writing)

inductive PipeAnswer where
  | bytes (data : List UInt8)
  | number (n : Nat)
  | ends (rd wr : Nat)
  | failed (e : Stop)

structure PipeTurn where
  pipe : Pipe
  woke : Bool
  raised : Option Nat
  next : PipeAnswer ⊕ PipeCall

/- `do_iov` for reading; a plain read is one piece. A piece is its length and whether its
memory is mapped. -/
def readPieces (k : Nat) (pending : Bool) : List (Nat × Bool) → List UInt8 → Pipe → Bool → PipeTurn
  | [], got, p, woke => ⟨p,woke,none,.inl (.bytes got)⟩
  | (len,mapped)::rest, got, p, woke =>
    if ¬ mapped then ⟨p,woke,none,.inl (if got.isEmpty then .failed (.errno .efault) else .bytes got)⟩
    else if len = 0 then readPieces k pending rest got p woke
    else
      let round := p.read pending len
      match round.result with
      | none => ⟨round.pipe,woke || round.woke,none,.inr (.read ⟨k,(len,mapped)::rest,got⟩)⟩
      | some (.error e) =>
        ⟨round.pipe,woke || round.woke,none,.inl (if got.isEmpty then .failed e else .bytes got)⟩
      | some (.ok bytes) =>
        if bytes.length < len then ⟨round.pipe,woke || round.woke,none,.inl (.bytes (got ++ bytes))⟩
        else readPieces k pending rest (got ++ bytes) round.pipe (woke || round.woke)

/- After a `pipe_write` of a piece: `more` goes on with the pieces after it. -/
def afterWrite (k id : Nat) (src : List UInt8) (len : Nat) (rest : List (List UInt8)) (before : Nat) (woke : Bool)
    (more : Nat → Pipe → Bool → PipeTurn) (round : Pipe.Round Pipe.Wrote) : PipeTurn :=
  let woke := woke || round.woke
  match round.result with
  | .gate => ⟨round.pipe,woke,none,.inr (.write ⟨k,id,true,src,0,len,rest,before⟩)⟩
  | .full src done => ⟨round.pipe,woke,none,.inr (.write ⟨k,id,false,src,done,len,rest,before⟩)⟩
  | .returns (.error e) =>
    ⟨round.pipe,woke,if e = .errno .epipe then some sigPipe else none,.inl (if before ≠ 0 then .number before else .failed e)⟩
  | .returns (.ok r) =>
    if r < len then ⟨round.pipe,woke,none,.inl (.number (before+r))⟩
    else more (before+r) round.pipe woke

/- One `do_write` for each piece. The size of a `pipe_write` has 32 bits. -/
def writePieces (k id : Nat) (pending : Bool) : List (List UInt8) → Nat → Pipe → Bool → PipeTurn
  | [] => fun before p woke => ⟨p,woke,none,.inl (.number before)⟩
  | data::rest => fun before p woke =>
    let src := data.take (data.length % 2^32)
    afterWrite k id src data.length rest before woke (writePieces k id pending rest) (p.write id pending src)

def resumeWrite (pending : Bool) (w : Writing) (p : Pipe) : PipeTurn :=
  let round := if w.gate then p.write w.id pending w.src
    else p.writeLoop w.id pending w.src.length false w.src w.done
  afterWrite w.pipe w.id w.src w.len w.rest w.before false (writePieces w.pipe w.id pending w.rest) round

/- A pipe is named by the number of its creation, which is also the channel its callers
sleep on. `issued` has the bytes of every write call, in the order of their numbers. -/
structure Pipes where
  files : Files Nat
  pipe : Nat → Pipe
  next : Nat
  issued : List (List UInt8)

/- Pointers of the caller are given by what they point to, none when not mapped. `limit` is
the number of descriptors the caller may have; `memory` is whether allocations succeed. -/
inductive PipeRequest where
  | pipe2 (mapped memory cloexec : Bool) (limit : Nat)
  | close (fd : Nat)
  | dup (fd low limit : Nat) (cloexec : Bool)
  | dup2 (old new : Nat)
  | dup3 (old new : Nat) (cloexec : Bool)
  | setCloexec (fd : Nat) (cloexec : Bool)
  | exec
  | read (fd len : Nat) (mapped : Bool)
  | readv (fd : Nat) (iov : Option (List (Nat × Bool)))
  | write (fd : Nat) (data : Option (List UInt8))
  | writev (fd : Nat) (iov : Option (List (Option (List UInt8)))) (memory : Bool)

abbrev PipeOutcome := Calls.Outcome Pipes PipeCall PipeAnswer

namespace Pipes

def releaseOne (d : Pipes) (x : File Nat) : Pipes :=
  {d with pipe := Function.update d.pipe x.object ((d.pipe x.object).release x.access)}

def release (d : Pipes) (released : List (File Nat)) : Pipes × List Addr :=
  (released.foldl releaseOne d,released.map File.object)

def failed (d : Pipes) (e : Errno) : PipeOutcome := {dev := d, next := .done (.failed (.errno e))}

def closing {α : Type} (d : Pipes) (answer : α → PipeAnswer) (result : Except Errno α × Files Nat × Option (File Nat)) :
    PipeOutcome :=
  let (d,wakes) := {d with files := result.2.1}.release result.2.2.toList
  {dev := d, wakes := wakes, next := .done (match result.1 with
    | .ok a => answer a
    | .error e => .failed (.errno e))}

section

variable (d : Pipes)

def sysPipe2 (me : Addr) (mapped memory cloexec : Bool) (limit : Nat) : PipeOutcome :=
  if ¬ mapped then d.failed .efault
  else if ¬ memory then d.failed .enomem
  else
    let (rd,files) := d.files.fileAlloc d.next .rdonly false
    let (wr,files) := files.fileAlloc d.next .wronly false
    let d := {d with pipe := Function.update d.pipe d.next Pipe.new, next := d.next + 1}
    match files.fdInstall me limit rd 0 cloexec with
    | (.error e,files,gone) =>
      let (files,left) := files.filePut wr
      let (d,wakes) := {d with files := files}.release (gone.toList ++ left.toList)
      {dev := d, wakes := wakes, next := .done (.failed (.errno e))}
    | (.ok r,files,_) =>
      match files.fdInstall me limit wr 0 cloexec with
      | (.error e,files,gone) =>
        let (_,files,left) := files.sysClose me r
        let (d,wakes) := {d with files := files}.release (gone.toList ++ left.toList)
        {dev := d, wakes := wakes, next := .done (.failed (.errno e))}
      | (.ok w,files,_) => {dev := {d with files := files}, next := .done (.ends r w)}

def work (k : Nat) (t : PipeTurn) : PipeOutcome where
  dev := {d with pipe := Function.update d.pipe k t.pipe}
  wakes := if t.woke then [k] else []
  raised := t.raised
  next := match t.next with
    | .inl answer => .done answer
    | .inr call => .asleep k call

def openFile (me : Addr) (fd : Nat) : Option (File Nat) := (d.files.fdFile me fd).bind d.files.file

def readFrom (pending : Bool) (x : File Nat) (pieces : List (Nat × Bool)) : PipeOutcome :=
  if x.access = .wronly ∧ pieces ≠ [] then d.failed .ebadf
  else d.work x.object (readPieces x.object pending pieces [] (d.pipe x.object) false)

def writeTo (pending : Bool) (x : File Nat) (pieces : List (List UInt8)) : PipeOutcome :=
  {d with issued := d.issued ++ [pieces.flatten]}.work x.object
    (writePieces x.object d.issued.length pending pieces 0 (d.pipe x.object) false)

def sysRead (me : Addr) (pending : Bool) (fd len : Nat) (mapped : Bool) : PipeOutcome :=
  match d.openFile me fd with
  | none => d.failed .ebadf
  | some x => d.readFrom pending x [(min len ioMax,mapped)]

def sysReadv (me : Addr) (pending : Bool) (fd : Nat) (iov : Option (List (Nat × Bool))) : PipeOutcome :=
  match d.openFile me fd, iov with
  | none, _ => d.failed .ebadf
  | some _, none => d.failed .efault
  | some x, some pieces =>
    if pieces.length > iovMax then d.failed .einval
    else d.readFrom pending x (pieces.map (fun piece => (min piece.1 ioMax,piece.2)))

def sysWrite (me : Addr) (pending : Bool) (fd : Nat) (data : Option (List UInt8)) : PipeOutcome :=
  match d.openFile me fd with
  | none => d.failed .ebadf
  | some x =>
    if x.access = .rdonly then d.failed .ebadf
    else match data with
      | none => d.failed .efault
      | some bytes => d.writeTo pending x [bytes.take ioMax]

/- `pipe_writev`: gathered into one write unless there is more than PIPE_BUF. -/
def pipeWritev (pending : Bool) (x : File Nat) (pieces : List (Option (List UInt8))) (memory : Bool) :
    PipeOutcome :=
  match pieces.mapM id with
  | none => d.failed .efault
  | some pieces =>
    if x.access = .rdonly then d.failed .ebadf
    else if pieces.flatten.length > pipeBuf then d.writeTo pending x pieces
    else if pieces.flatten.length = 0 then {dev := d, next := .done (.number 0)}
    else if ¬ memory then d.failed .enomem
    else d.writeTo pending x [pieces.flatten]

def sysWritev (me : Addr) (pending : Bool) (fd : Nat) (iov : Option (List (Option (List UInt8))))
    (memory : Bool) : PipeOutcome :=
  match d.openFile me fd, iov with
  | none, _ => d.failed .ebadf
  | some _, none => d.failed .efault
  | some x, some pieces =>
    if pieces.length > iovMax then d.failed .einval else d.pipeWritev pending x pieces memory

def execClose (me : Addr) : PipeOutcome :=
  let (files,gone) := d.files.closeOnExec me
  let (d,wakes) := {d with files := files}.release gone
  {dev := d, wakes := wakes, next := .done (.number 0)}

def enter (me : Addr) (pending : Bool) : PipeRequest → PipeOutcome
  | .pipe2 mapped memory cloexec limit => d.sysPipe2 me mapped memory cloexec limit
  | .close fd => d.closing (fun _ => .number 0) (d.files.sysClose me fd)
  | .dup fd low limit cloexec => d.closing .number (d.files.sysDup me limit fd low cloexec)
  | .dup2 old new => d.closing .number (d.files.sysDup2 me old new)
  | .dup3 old new cloexec => d.closing .number (d.files.sysDup3 me old new cloexec)
  | .setCloexec fd cloexec =>
    let (result,files) := d.files.setCloexec me fd cloexec
    d.closing (fun _ => .number 0) (result,files,none)
  | .exec => d.execClose me
  | .read fd len mapped => d.sysRead me pending fd len mapped
  | .readv fd iov => d.sysReadv me pending fd iov
  | .write fd data => d.sysWrite me pending fd data
  | .writev fd iov memory => d.sysWritev me pending fd iov memory

def resume (_ : Addr) (pending : Bool) : PipeCall → PipeOutcome
  | .read r => d.work r.pipe (readPieces r.pipe pending r.rest r.got (d.pipe r.pipe) false)
  | .write w => d.work w.pipe (resumeWrite pending w (d.pipe w.pipe))

def exit (me : Addr) : Pipes × List Addr :=
  {d with files := (d.files.closeAll me).1}.release (d.files.closeAll me).2

end

def device : Calls.Device Pipes PipeCall PipeAnswer PipeRequest where
  enter := enter
  resume := resume
  fork := fun d me child => {d with files := d.files.forkFds me child}
  exit := exit

def initial : Pipes := ⟨Files.empty,fun _ => ⟨⟨fun _ => 0,0,0⟩,0,0,[],[]⟩,0,[]⟩

end Pipes
end Miviex
