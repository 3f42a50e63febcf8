import Miviex.BlockingCalls
import Miviex.Descriptors
import Miviex.RingBuffer

/-! Local sockets: streams, two sockets pointing at each other with a ring buffer each, listening
sockets and datagrams. A socket is named by the number of its creation, also the channel its
callers sleep on. What went through is recorded beside the code, in `Traffic`. -/
namespace Miviex
open Function (update)

def sockBuf : Nat := 16384
def backlogMax : Nat := 32
def afUnix : Int := 1

abbrev Path := List UInt8

inductive SockType where
  | stream
  | dgram
  deriving DecidableEq, Repr

inductive SockState where
  | unconnected
  | listening
  | connected
  deriving DecidableEq, Repr

structure Msg where
  data : List UInt8
  source : Path
  deriving DecidableEq, Repr

structure Sock where
  type : SockType
  state : SockState := .unconnected
  peer : Option Nat := none
  peername : Path := []
  name : Path := []
  bound : Option Nat := none
  ring : Ring UInt8 := ⟨fun _ => 0,0,0⟩
  msgs : List Msg := []
  queued : Nat := 0
  backlog : List Nat := []
  maxback : Nat := 0
  eof : Bool := false
  rdShut : Bool := false
  wrShut : Bool := false

/- By socket: the bytes put into its ring, each with the number of its send, the bytes taken out,
and the other ends it was connected to. `sends` has the socket of every stream send, in the order
of their numbers, `returned` what the finished ones returned. -/
structure Traffic where
  placed : Nat → List (Nat × UInt8)
  taken : Nat → List UInt8
  mates : Nat → List Nat
  sends : List Nat
  returned : List (Nat × Nat)

/- What paths mean to a process, and which of the files are sockets it may write to. Other
file-system calls change it. -/
structure View where
  resolve : Addr → Path → Except Errno Nat
  isSocket : Nat → Bool
  permission : Addr → Nat → Option Errno

/- `sock` has the sockets in use and `ptr` the socket behind a socket file. -/
structure Sockets where
  files : Files Nat
  sock : Nat → Option Sock
  next : Nat
  ptr : Nat → Option Nat
  nextNode : Nat
  view : View
  log : Traffic

structure Receiving where
  sock : Nat
  size : Nat
  nonblock : Bool
  peek : Bool
  source : Path

structure Sending where
  sock : Nat
  id : Nat
  src : List UInt8
  done : Nat
  nonblock : Bool
  nosig : Bool
  on : Nat

structure Mailing where
  sock : Nat
  data : List UInt8
  target : Option Path
  nonblock : Bool
  memory : Bool
  on : Nat

structure Accepting where
  sock : Nat
  file : Nat
  nonblock : Bool
  cloexec : Bool
  limit : Nat
  memory : Bool
  refused : Option Errno

structure Connecting where
  sock : Nat
  path : Path
  nonblock : Bool
  memory : Bool
  on : Nat

inductive SockCall where
  | recv (r : Receiving)
  | send (w : Sending)
  | mail (m : Mailing)
  | accept (a : Accepting)
  | connect (c : Connecting)

inductive SockAnswer where
  | number (n : Nat)
  | data (bytes : List UInt8) (source : Path)
  | pair (first second : Nat)
  | failed (e : Stop)

abbrev SockOutcome := Calls.Outcome Sockets SockCall SockAnswer

/- Pointers of the caller are given by what they point to: no buffer is a buffer that is not
mapped. `made` and `memory` are whether allocations succeed, `parent` and `created` are what
`vfs_parent` and `vfs_create` answer, and `known` is whether `accept4` knows all its flags. -/
inductive SockRequest where
  | socket (family type proto : Int) (nonblock cloexec : Bool) (limit : Nat) (made memory : Bool)
  | socketpair (family type proto : Int) (mapped nonblock cloexec : Bool) (limit : Nat) (made first second : Bool)
  | bind (fd : Nat) (address : Except Errno Path) (parent : Option Errno) (created : Except Errno Unit)
  | listen (fd : Nat) (backlog : Int)
  | connect (fd : Nat) (unspec : Bool) (address : Except Errno Path) (memory : Bool)
  | accept (fd : Nat) (known nonblock cloexec : Bool) (limit : Nat) (memory : Bool) (refused : Option Errno)
  | send (fd : Nat) (data : Option (List UInt8)) (address : Option (Except Errno Path)) (dontwait nosig memory : Bool)
  | recv (fd size : Nat) (mapped dontwait peek : Bool)
  | write (fd : Nat) (data : Option (List UInt8)) (memory : Bool)
  | read (fd size : Nat) (mapped : Bool)
  | shutdown (fd : Nat) (how : Int)
  | close (fd : Nat)
  | dup (fd low limit : Nat) (cloexec : Bool)
  | dup2 (old new : Nat)
  | dup3 (old new : Nat) (cloexec : Bool)
  | setCloexec (fd : Nat) (cloexec : Bool)
  | setNonblock (fd : Nat) (nonblock : Bool)
  | exec
  | files (view : View)

namespace Sockets

def blank : Sock := {type := .stream}

section

variable (d : Sockets)

def get (s : Nat) : Sock := (d.sock s).getD blank

def modify (s : Nat) (f : Sock → Sock) : Sockets :=
  {d with sock := update d.sock s ((d.sock s).map f)}

def consumed (s : Nat) (bytes : List UInt8) : Sockets :=
  {d with log := {d.log with taken := update d.log.taken s (d.log.taken s ++ bytes)}}

def coupled (a b : Nat) : Sockets :=
  {d with log := {d.log with
    mates := update (update d.log.mates a (d.log.mates a ++ [b])) b (d.log.mates b ++ [a])}}

def sockNew (type : SockType) : Nat × Sockets :=
  (d.next,{d with sock := update d.sock d.next (some {type := type}), next := d.next + 1})

/- The peer of a socket that goes learns that nothing more will come. -/
def unpeer (s : Nat) : Sockets × List Addr :=
  match (d.get s).peer with
  | none => (d,[])
  | some p => (d.modify p (fun y => {y with peer := none, eof := true}),[p])

def unbind (s : Nat) : Sockets :=
  match (d.get s).bound with
  | none => d
  | some n => {d with ptr := update d.ptr n none}

def remove (s : Nat) : Sockets := {d with sock := update d.sock s none}

end

/- A connection that nobody accepted: `connect` made it, it has no backlog. -/
def dropOne (d : Sockets × List Addr) (s : Nat) : Sockets × List Addr :=
  let (left,wakes) := d.1.unpeer s
  ((left.unbind s).remove s,d.2 ++ wakes ++ [s])

def sockFree (d : Sockets) (s : Nat) : Sockets × List Addr :=
  let (left,wakes) := (d.get s).backlog.foldl dropOne (d.unpeer s)
  ((left.unbind s).remove s,wakes ++ [s])

def freeOne (d : Sockets × List Addr) (x : File Nat) : Sockets × List Addr :=
  let (left,wakes) := d.1.sockFree x.object
  (left,d.2 ++ wakes)

def release (d : Sockets) (gone : List (File Nat)) : Sockets × List Addr := gone.foldl freeOne (d,[])

def sockInstall (d : Sockets) (me : Addr) (limit s : Nat) (nonblock cloexec memory : Bool) :
    Except Errno Nat × Sockets × List Addr :=
  if ¬ memory then (.error .enomem,d.sockFree s)
  else
    let (f,files) := d.files.fileAlloc s .rdwr nonblock
    let (result,files,gone) := files.fdInstall me limit f 0 cloexec
    (result,{d with files := files}.release gone.toList)

/- The socket bound to a path; `vfs_iget` and `vfs_iput` around the use of it cancel out. -/
def lookup (d : Sockets) (me : Addr) (path : Path) : Except Errno Nat :=
  match d.view.resolve me path with
  | .error e => .error e
  | .ok n =>
    if ¬ d.view.isSocket n then .error .econnrefused
    else match d.view.permission me n with
      | some e => .error e
      | none => match d.ptr n with
        | none => .error .econnrefused
        | some s => .ok s

def failed (d : Sockets) (e : Stop) : SockOutcome := {dev := d, next := .done (.failed e)}

def answered (d : Sockets) (wakes : List Addr) (result : Except Errno Nat) : SockOutcome where
  dev := d
  wakes := wakes
  next := .done (match result with
    | .ok n => .number n
    | .error e => .failed (.errno e))

def streamRecv (d : Sockets) (pending : Bool) (r : Receiving) : SockOutcome :=
  let x := d.get r.sock
  if x.ring.len = 0 then
    if x.state ≠ .connected then d.failed (.errno .enotconn)
    else if x.eof ∨ x.rdShut then {dev := d, next := .done (.data [] r.source)}
    else if r.nonblock then d.failed (.errno .eagain)
    else if pending then d.failed .restartsys
    else {dev := d, next := .asleep r.sock (.recv r)}
  else
    let k := if r.size < x.ring.len then r.size else x.ring.len
    let bytes := x.ring.peek sockBuf k
    if r.peek then {dev := d, next := .done (.data bytes r.source)}
    else
      {dev := (d.modify r.sock (fun x => {x with ring := x.ring.drop sockBuf k})).consumed r.sock bytes,
       wakes := [r.sock], next := .done (.data bytes r.source)}

def dgramRecv (d : Sockets) (pending : Bool) (r : Receiving) : SockOutcome :=
  let x := d.get r.sock
  match x.msgs with
  | [] =>
    if x.rdShut ∨ (x.peername = [] ∧ x.eof) then {dev := d, next := .done (.data [] r.source)}
    else if r.nonblock then d.failed (.errno .eagain)
    else if pending then d.failed .restartsys
    else {dev := d, next := .asleep r.sock (.recv r)}
  | m::rest =>
    let bytes := m.data.take r.size
    if r.peek then {dev := d, next := .done (.data bytes m.source)}
    else
      {dev := d.modify r.sock (fun x => {x with msgs := rest, queued := x.queued - m.data.length}),
       wakes := [r.sock], next := .done (.data bytes m.source)}

def doRecv (d : Sockets) (pending : Bool) (r : Receiving) : SockOutcome :=
  match (d.get r.sock).type with
  | .stream => d.streamRecv pending r
  | .dgram => d.dgramRecv pending r

structure SendRound where
  dev : Sockets
  wakes : List Addr
  raised : Option Nat
  result : Except Stop Nat ⊕ Sending

/- One round of copying: bytes go into the ring of the peer while there is room. -/
def place (d : Sockets) (id p : Nat) (src : List UInt8) : Sockets × List UInt8 :=
  let filled := (d.get p).ring.fill sockBuf src
  let bytes := (src.take (src.length-filled.2.length)).map (fun b => (id,b))
  ({d.modify p (fun y => {y with ring := filled.1}) with
      log := {d.log with placed := update d.log.placed p (d.log.placed p ++ bytes)}},filled.2)

/- The loop of `stream_send`; every round that neither returns nor sleeps copies a byte. -/
def sendLoop (pending : Bool) : Nat → Sockets → List Addr → Sending → SendRound
  | 0, d, wakes, w => ⟨d,wakes,none,.inl (.ok w.done)⟩
  | fuel + 1, d, wakes, w =>
    if w.src.isEmpty then ⟨d,wakes,none,.inl (.ok w.done)⟩
    else
      let x := d.get w.sock
      match x.peer.filter (fun p => !(x.wrShut || (d.get p).rdShut)) with
      | none =>
        ⟨d,wakes,if w.done ≠ 0 ∨ w.nosig then none else some sigPipe,.inl (partialOr w.done (.errno .epipe))⟩
      | some p =>
        if (d.get p).ring.len = sockBuf then
          if w.nonblock then ⟨d,wakes,none,.inl (partialOr w.done (.errno .eagain))⟩
          else if pending then ⟨d,wakes,none,.inl (partialOr w.done .restartsys)⟩
          else ⟨d,wakes,none,.inr {w with on := p}⟩
        else
          let (d,rest) := d.place w.id p w.src
          sendLoop pending fuel d (wakes ++ [p])
            {w with src := rest, done := w.done + (w.src.length-rest.length)}

def returns (d : Sockets) (id n : Nat) : Sockets :=
  {d with log := {d.log with returned := d.log.returned ++ [(id,n)]}}

def sent (id : Nat) (round : SendRound) : SockOutcome :=
  match round.result with
  | .inr w => {dev := round.dev, wakes := round.wakes, raised := round.raised, next := .asleep w.on (.send w)}
  | .inl (.ok n) =>
    {dev := round.dev.returns id n, wakes := round.wakes, raised := round.raised, next := .done (.number n)}
  | .inl (.error e) =>
    {dev := round.dev.returns id 0, wakes := round.wakes, raised := round.raised, next := .done (.failed e)}

section

variable (d : Sockets)

def begins (s : Nat) : Sockets := {d with log := {d.log with sends := d.log.sends ++ [s]}}

def streamSend (pending : Bool) (s : Nat) (src : List UInt8) (nonblock nosig : Bool) : SockOutcome :=
  if (d.get s).state ≠ .connected then d.failed (.errno .enotconn)
  else
    let id := d.log.sends.length
    sent id (sendLoop pending src.length (d.begins s) [] ⟨s,id,src,0,nonblock,nosig,0⟩)

def dgramTarget (me : Addr) (s : Nat) (target : Option Path) : Except Errno Nat :=
  let x := d.get s
  match target, x.peer with
  | none, some p => .ok p
  | none, none =>
    if x.peername = [] then .error (if x.state = .connected then .econnrefused else .enotconn)
    else named x.peername
  | some path, _ => named path
where
  named (path : Path) : Except Errno Nat :=
    match d.lookup me path with
    | .error e => .error e
    | .ok t => if (d.get t).type ≠ .dgram then .error .eprototype else .ok t

/- The loop of `dgram_send`: the target is looked up again after every sleep. -/
def dgramSend (me : Addr) (pending : Bool) (m : Mailing) : SockOutcome :=
  if m.data.length > sockBuf then d.failed (.errno .emsgsize)
  else match d.dgramTarget me m.sock m.target with
    | .error e => d.failed (.errno e)
    | .ok t =>
      if (d.get t).queued + m.data.length > sockBuf then
        if m.nonblock then d.failed (.errno .eagain)
        else if pending then d.failed .restartsys
        else {dev := d, next := .asleep t (.mail {m with on := t})}
      else if ¬ m.memory then d.failed (.errno .enomem)
      else
        {dev := d.modify t (fun y => {y with
            msgs := y.msgs ++ [⟨m.data,(d.get m.sock).name⟩], queued := y.queued + m.data.length}),
         wakes := [t], next := .done (.number m.data.length)}

def doSend (me : Addr) (pending : Bool) (s : Nat) (data : List UInt8) (target : Option Path)
    (nonblock nosig memory : Bool) : SockOutcome :=
  let x := d.get s
  match x.type, target with
  | .stream, some _ => d.failed (.errno (if x.state = .connected then .eisconn else .eopnotsupp))
  | .stream, none => d.streamSend pending s data nonblock nosig
  | .dgram, _ => d.dgramSend me pending ⟨s,data,target,nonblock,memory,0⟩

def linked (s l : Nat) (path : Path) : Sockets :=
  let (srv,d) := d.sockNew .stream
  let d := d.modify srv (fun y => {y with state := .connected, peer := some s, name := (d.get l).name})
  d.modify s (fun x => {x with state := .connected, peer := some srv, peername := path})

def join (s l : Nat) (path : Path) : Sockets :=
  ((d.linked s l path).modify l (fun z => {z with backlog := z.backlog ++ [d.next]})).coupled s d.next

/- The loop of `stream_connect`. It looks at the listener only, not at the state its own
socket is in by then. -/
def connectLoop (me : Addr) (pending : Bool) (c : Connecting) : SockOutcome :=
  match d.lookup me c.path with
  | .error e => d.failed (.errno e)
  | .ok l =>
    let z := d.get l
    if z.type ≠ .stream then d.failed (.errno .eprototype)
    else if z.state ≠ .listening then d.failed (.errno .econnrefused)
    else if z.backlog.length < z.maxback then
      if ¬ c.memory then d.failed (.errno .enomem)
      else {dev := d.join c.sock l c.path, wakes := [l], next := .done (.number 0)}
    else if c.nonblock then d.failed (.errno .eagain)
    else if pending then d.failed .restartsys
    else {dev := d, next := .asleep l (.connect {c with on := l})}

def streamConnect (me : Addr) (pending : Bool) (c : Connecting) : SockOutcome :=
  match (d.get c.sock).state with
  | .connected => d.failed (.errno .eisconn)
  | .listening => d.failed (.errno .einval)
  | .unconnected => d.connectLoop me pending c

/- The loop of `sys_accept4`; the flag of the description is read again after every sleep. -/
def acceptLoop (me : Addr) (pending : Bool) (a : Accepting) : SockOutcome :=
  match (d.get a.sock).backlog with
  | [] =>
    if ((d.files.file a.file).map File.nonblock).getD false then d.failed (.errno .eagain)
    else if pending then d.failed .restartsys
    else {dev := d, next := .asleep a.sock (.accept a)}
  | c::rest =>
    let d := d.modify a.sock (fun x => {x with backlog := rest})
    match a.refused with
    | some e =>
      let (d,wakes) := d.sockFree c
      {dev := d, wakes := a.sock::wakes, next := .done (.failed (.errno e))}
    | none =>
      let (result,d,wakes) := d.sockInstall me a.limit c a.nonblock a.cloexec a.memory
      d.answered (a.sock::wakes) result

def fdSock (me : Addr) (fd : Nat) : Option (Nat × File Nat) :=
  (d.files.fdFile me fd).bind (fun f => (d.files.file f).map (fun x => (f,x)))

end

def sockType (family type proto : Int) : Except Errno SockType :=
  if family ≠ afUnix then .error .eafnosupport
  else if type ≠ 1 ∧ type ≠ 2 then .error .esocktnosupport
  else if proto ≠ 0 then .error .eprotonosupport
  else .ok (if type = 1 then .stream else .dgram)

def sysSocket (d : Sockets) (me : Addr) (family type proto : Int) (nonblock cloexec : Bool) (limit : Nat)
    (made memory : Bool) : SockOutcome :=
  match sockType family type proto with
  | .error e => d.failed (.errno e)
  | .ok type =>
    if ¬ made then d.failed (.errno .enomem)
    else
      let (s,d) := d.sockNew type
      let (result,d,wakes) := d.sockInstall me limit s nonblock cloexec memory
      d.answered wakes result

def sockPair (d : Sockets) (type : SockType) : Nat × Nat × Sockets :=
  let (a,d) := d.sockNew type
  let (b,d) := d.sockNew type
  let d := d.modify a (fun x => {x with peer := some b, state := .connected})
  let d := d.modify b (fun x => {x with peer := some a, state := .connected})
  (a,b,d.coupled a b)

def sysSocketpair (d : Sockets) (me : Addr) (family type proto : Int) (mapped nonblock cloexec : Bool) (limit : Nat)
    (made first second : Bool) : SockOutcome :=
  match sockType family type proto with
  | .error e => d.failed (.errno e)
  | .ok type =>
    if ¬ mapped then d.failed (.errno .efault)
    else if ¬ made then d.failed (.errno .enomem)
    else
      let (a,b,d) := d.sockPair type
      match d.sockInstall me limit a nonblock cloexec first with
      | (.error e,d,wakes) =>
        let (d,more) := d.sockFree b
        d.answered (wakes ++ more) (.error e)
      | (.ok fa,d,wakes) =>
        match d.sockInstall me limit b nonblock cloexec second with
        | (.error e,d,more) =>
          let (_,files,gone) := d.files.sysClose me fa
          let (d,last) := {d with files := files}.release gone.toList
          d.answered (wakes ++ more ++ last) (.error e)
        | (.ok fb,d,more) => {dev := d, wakes := wakes ++ more, next := .done (.pair fa fb)}

def bindTo (d : Sockets) (s : Nat) (path : Path) : Sockets :=
  {d.modify s (fun x => {x with bound := some d.nextNode, name := path}) with
    ptr := update d.ptr d.nextNode (some s), nextNode := d.nextNode + 1}

def sysBind (d : Sockets) (me : Addr) (fd : Nat) (address : Except Errno Path) (parent : Option Errno)
    (created : Except Errno Unit) : SockOutcome :=
  match d.fdSock me fd, address with
  | none, _ => d.failed (.errno .ebadf)
  | some _, .error e => d.failed (.errno e)
  | some (_,x), .ok path =>
    if (d.get x.object).bound.isSome then d.failed (.errno .einval)
    else match parent, created with
      | some e, _ => d.failed (.errno e)
      | none, .error e => d.failed (.errno (if e = .eexist then .eaddrinuse else e))
      | none, .ok _ => {dev := d.bindTo x.object path, next := .done (.number 0)}

def clampBacklog (backlog : Int) : Nat :=
  if backlog < 1 then 1 else if backlog > backlogMax then backlogMax else backlog.toNat

section

variable (d : Sockets)

/- Nobody is woken, also when the backlog of a listening socket gets longer. -/
def sysListen (me : Addr) (fd : Nat) (backlog : Int) : SockOutcome :=
  match d.fdSock me fd with
  | none => d.failed (.errno .ebadf)
  | some (_,x) =>
    let s := d.get x.object
    if s.type ≠ .stream then d.failed (.errno .eopnotsupp)
    else if s.bound.isNone ∨ s.state = .connected then d.failed (.errno .einval)
    else
      {dev := d.modify x.object (fun s => {s with state := .listening, maxback := clampBacklog backlog}),
       next := .done (.number 0)}

def sysConnect (me : Addr) (pending : Bool) (fd : Nat) (unspec : Bool) (address : Except Errno Path)
    (memory : Bool) : SockOutcome :=
  match d.fdSock me fd with
  | none => d.failed (.errno .ebadf)
  | some (_,x) =>
    if (d.get x.object).type = .dgram ∧ unspec then
      {dev := d.modify x.object (fun s => {s with peername := [], state := .unconnected}),
       next := .done (.number 0)}
    else match address with
      | .error e => d.failed (.errno e)
      | .ok path =>
        match (d.get x.object).type with
        | .stream => d.streamConnect me pending ⟨x.object,path,x.nonblock,memory,0⟩
        | .dgram =>
          match d.dgramTarget me x.object (some path) with
          | .error e => d.failed (.errno e)
          | .ok _ =>
            {dev := d.modify x.object (fun s => {s with peername := path, state := .connected}),
             next := .done (.number 0)}

def sysAccept4 (me : Addr) (pending : Bool) (fd : Nat) (known nonblock cloexec : Bool) (limit : Nat)
    (memory : Bool) (refused : Option Errno) : SockOutcome :=
  match d.fdSock me fd with
  | none => d.failed (.errno .ebadf)
  | some (f,x) =>
    if ¬ known then d.failed (.errno .einval)
    else if (d.get x.object).state ≠ .listening then d.failed (.errno .einval)
    else d.acceptLoop me pending ⟨x.object,f,nonblock,cloexec,limit,memory,refused⟩

def sysSend (me : Addr) (pending : Bool) (fd : Nat) (data : Option (List UInt8))
    (address : Option (Except Errno Path)) (dontwait nosig memory : Bool) : SockOutcome :=
  match d.fdSock me fd, data, address with
  | none, _, _ => d.failed (.errno .ebadf)
  | some _, none, _ => d.failed (.errno .efault)
  | some _, some _, some (.error e) => d.failed (.errno e)
  | some (_,x), some bytes, some (.ok path) =>
    d.doSend me pending x.object bytes (some path) (x.nonblock || dontwait) nosig memory
  | some (_,x), some bytes, none => d.doSend me pending x.object bytes none (x.nonblock || dontwait) nosig memory

/- The sender of a stream is the name of the peer at the time of the call. -/
def receiving (x : File Nat) (size : Nat) (dontwait peek : Bool) : Receiving :=
  ⟨x.object,size,x.nonblock || dontwait,peek,
    match (d.get x.object).type,(d.get x.object).peer with
    | .stream,some p => (d.get p).name
    | _,_ => []⟩

def sysRecv (me : Addr) (pending : Bool) (fd size : Nat) (mapped dontwait peek : Bool) : SockOutcome :=
  match d.fdSock me fd with
  | none => d.failed (.errno .ebadf)
  | some (_,x) =>
    if ¬ mapped then d.failed (.errno .efault) else d.doRecv pending (d.receiving x size dontwait peek)

def sockWrite (me : Addr) (pending : Bool) (fd : Nat) (data : Option (List UInt8)) (memory : Bool) :
    SockOutcome :=
  match d.fdSock me fd, data with
  | none, _ => d.failed (.errno .ebadf)
  | some _, none => d.failed (.errno .efault)
  | some (_,x), some bytes =>
    if bytes.isEmpty then {dev := d, next := .done (.number 0)}
    else d.doSend me pending x.object (bytes.take ioMax) none x.nonblock false memory

def sockRead (me : Addr) (pending : Bool) (fd size : Nat) (mapped : Bool) : SockOutcome :=
  match d.fdSock me fd with
  | none => d.failed (.errno .ebadf)
  | some (_,x) =>
    if ¬ mapped then d.failed (.errno .efault)
    else if size = 0 then {dev := d, next := .done (.data [] [])}
    else d.doRecv pending (d.receiving x (min size ioMax) false false)

def shutRead (s : Nat) : Sockets × List Addr := (d.modify s (fun x => {x with rdShut := true}),[s])

def shutWrite (s : Nat) : Sockets × List Addr :=
  let d := d.modify s (fun x => {x with wrShut := true})
  match (d.get s).peer with
  | none => (d,[])
  | some p => (d.modify p (fun y => {y with eof := true}),[p])

def sysShutdown (me : Addr) (fd : Nat) (how : Int) : SockOutcome :=
  match d.fdSock me fd with
  | none => d.failed (.errno .ebadf)
  | some (_,x) =>
    let s := x.object
    if how < 0 ∨ how > 2 then d.failed (.errno .einval)
    else if (d.get s).state ≠ .connected then d.failed (.errno .enotconn)
    else
      let (d,reading) := if how ≠ 1 then d.shutRead s else (d,[])
      let (d,writing) := if how ≠ 0 then d.shutWrite s else (d,[])
      {dev := d, wakes := reading ++ writing, next := .done (.number 0)}

def sockPoll (s : Nat) : Polled :=
  let x := d.get s
  if x.state = .listening then {pin := 0 < x.backlog.length}
  else if x.type = .dgram then {pin := !x.msgs.isEmpty, pout := true}
  else if x.state ≠ .connected then {}
  else
    {pin := 0 < x.ring.len || x.eof || x.rdShut
     pout := x.peer.any (fun p => (d.get p).ring.len < sockBuf)
     phup := x.peer.isNone && x.eof}

end

def closing {α : Type} (d : Sockets) (answer : α → Nat) (result : Except Errno α × Files Nat × Option (File Nat)) :
    SockOutcome :=
  let (d,wakes) := {d with files := result.2.1}.release result.2.2.toList
  d.answered wakes (result.1.map answer)

section

variable (d : Sockets) (me : Addr)

def execClose : SockOutcome :=
  let (files,gone) := d.files.closeOnExec me
  let (d,wakes) := {d with files := files}.release gone
  d.answered wakes (.ok 0)

def enter (pending : Bool) : SockRequest → SockOutcome
  | .socket family type proto nonblock cloexec limit made memory =>
    d.sysSocket me family type proto nonblock cloexec limit made memory
  | .socketpair family type proto mapped nonblock cloexec limit made first second =>
    d.sysSocketpair me family type proto mapped nonblock cloexec limit made first second
  | .bind fd address parent created => d.sysBind me fd address parent created
  | .listen fd backlog => d.sysListen me fd backlog
  | .connect fd unspec address memory => d.sysConnect me pending fd unspec address memory
  | .accept fd known nonblock cloexec limit memory refused =>
    d.sysAccept4 me pending fd known nonblock cloexec limit memory refused
  | .send fd data address dontwait nosig memory => d.sysSend me pending fd data address dontwait nosig memory
  | .recv fd size mapped dontwait peek => d.sysRecv me pending fd size mapped dontwait peek
  | .write fd data memory => d.sockWrite me pending fd data memory
  | .read fd size mapped => d.sockRead me pending fd size mapped
  | .shutdown fd how => d.sysShutdown me fd how
  | .close fd => d.closing (fun _ => 0) (d.files.sysClose me fd)
  | .dup fd low limit cloexec => d.closing id (d.files.sysDup me limit fd low cloexec)
  | .dup2 old new => d.closing id (d.files.sysDup2 me old new)
  | .dup3 old new cloexec => d.closing id (d.files.sysDup3 me old new cloexec)
  | .setCloexec fd cloexec =>
    let (result,files) := d.files.setCloexec me fd cloexec
    d.closing (fun _ => 0) (result,files,none)
  | .setNonblock fd nonblock =>
    let (result,files) := d.files.setNonblock me fd nonblock
    d.closing (fun _ => 0) (result,files,none)
  | .exec => d.execClose me
  | .files view => {dev := {d with view := view}, next := .done (.number 0)}

def resume (pending : Bool) : SockCall → SockOutcome
  | .recv r => d.doRecv pending r
  | .send w => sent w.id (sendLoop pending w.src.length d [] w)
  | .mail m => d.dgramSend me pending m
  | .accept a => d.acceptLoop me pending a
  | .connect c => d.connectLoop me pending c

def exit : Sockets × List Addr :=
  {d with files := (d.files.closeAll me).1}.release (d.files.closeAll me).2

end

def device : Calls.Device Sockets SockCall SockAnswer SockRequest where
  enter := enter
  resume := resume
  fork := fun d me child => {d with files := d.files.forkFds me child}
  exit := exit

def initial (view : View) : Sockets :=
  ⟨Files.empty,fun _ => none,0,fun _ => none,0,view,⟨fun _ => [],fun _ => [],fun _ => [],[],[]⟩⟩

abbrev Machine := Calls.System Sockets SockCall SockAnswer

def step (idle : Addr) (s : Machine) (e : Calls.Event SockRequest) : Option Machine := s.step device idle e

def boot (idle : Addr) (view : View) : Machine := Calls.System.boot idle (initial view)

end Sockets
end Miviex
