import Miviex.Socket

/-! What a pass of a socket call and a whole request come to, said once: the ways in which the
loops of the calls end, and what is left of a request after the checks that come first. -/
namespace Miviex

def SockCall.sock : SockCall → Nat
  | .recv r => r.sock
  | .send w => w.sock
  | .mail m => m.sock
  | .accept a => a.sock
  | .connect c => c.sock

def SockCall.chan : SockCall → Addr
  | .recv r => r.sock
  | .send w => w.on
  | .mail m => m.on
  | .accept a => a.sock
  | .connect c => c.on

def SockCall.Waits (d : Sockets) : SockCall → Prop
  | .recv r => (d.get r.sock).type = .stream →
    (d.get r.sock).ring.len = 0 ∧ (d.get r.sock).eof = false ∧ (d.get r.sock).rdShut = false
  | .send w => (d.get w.on).ring.len = sockBuf ∧ (d.get w.sock).peer = some w.on ∧
    (d.get w.sock).wrShut = false ∧ (d.get w.on).rdShut = false
  | .mail _ => True
  | .accept a => (d.get a.sock).backlog = []
  | .connect c => (d.get c.on).type = .stream ∧ (d.get c.on).state = .listening ∧
    (d.get c.on).maxback ≤ (d.get c.on).backlog.length

namespace Sockets

variable {d : Sockets} {me : Addr} {pending : Bool}

def Joins (d : Sockets) (s : Nat) (o : SockOutcome) : Prop :=
  ∃ l n path, d.ptr n = some l ∧ (d.get l).type = .stream ∧ (d.get l).state = .listening ∧
    (d.get l).backlog.length < (d.get l).maxback ∧
    o = {dev := d.join s l path, wakes := [l], next := .done (.number 0)}

def Listens (d : Sockets) (me : Addr) (q : SockRequest) (o : SockOutcome) : Prop :=
  ∃ fd backlog g x, q = .listen fd backlog ∧ d.fdSock me fd = some (g,x) ∧ (d.get x.object).type = .stream ∧
    (d.get x.object).bound ≠ none ∧ (d.get x.object).state ≠ .connected ∧
    o = {dev := d.modify x.object (fun x => {x with state := .listening, maxback := clampBacklog backlog}),
         next := .done (.number 0)}

theorem lookupPtr {path l} (found : d.lookup me path = .ok l) : ∃ n, d.ptr n = some l := by
  unfold lookup at found
  split at found
  · cases found
  rename_i n _
  split at found
  · cases found
  split at found
  · cases found
  split at found
  · cases found
  rename_i s points
  cases found
  exact ⟨n,points⟩

inductive Pass (d : Sockets) (me : Addr) (pending : Bool) : SockCall → SockOutcome → Prop where
  | failed (call stop) : Pass d me pending call (d.failed stop)
  | asleep (call next : SockCall) (sock : next.sock = call.sock) (waits : next.Waits d) (quiet : pending = false)
      (other : ∀ w, next ≠ .send w) : Pass d me pending call {dev := d, next := .asleep next.chan next}
  | seen (r bytes source) : Pass d me pending (.recv r) {dev := d, next := .done (.data bytes source)}
  | took (r k bytes source) (inside : k ≤ (d.get r.sock).ring.len) : Pass d me pending (.recv r)
      {dev := (d.modify r.sock (fun x => {x with ring := x.ring.drop sockBuf k})).consumed r.sock
         ((d.get r.sock).ring.peek sockBuf k),
       wakes := [r.sock], next := .done (.data bytes source)}
  | received (r bytes source rest gone) : Pass d me pending (.recv r)
      {dev := d.modify r.sock (fun x => {x with msgs := rest, queued := x.queued - gone}),
       wakes := [r.sock], next := .done (.data bytes source)}
  | mailed (m t msg size) : Pass d me pending (.mail m)
      {dev := d.modify t (fun y => {y with msgs := y.msgs ++ [msg], queued := y.queued + size}),
       wakes := [t], next := .done (.number size)}
  | dropped (a c rest e) (queue : (d.get a.sock).backlog = c::rest) : Pass d me pending (.accept a)
      {dev := ((d.modify a.sock (fun x => {x with backlog := rest})).sockFree c).1,
       wakes := a.sock::((d.modify a.sock (fun x => {x with backlog := rest})).sockFree c).2,
       next := .done (.failed (.errno e))}
  | installed (a c rest result) {e wakes} (queue : (d.get a.sock).backlog = c::rest)
      (done : (d.modify a.sock (fun x => {x with backlog := rest})).sockInstall me a.limit c a.nonblock a.cloexec a.memory =
        (result,e,wakes)) : Pass d me pending (.accept a) (e.answered (a.sock::wakes) result)
  | joined (c : Connecting) {o} (joins : Joins d c.sock o) : Pass d me pending (.connect c) o

theorem streamRecvPass (r) : Pass d me pending (.recv r) (d.streamRecv pending r) := by
  unfold streamRecv
  dsimp only
  split
  · rename_i empty
    split
    · exact .failed _ _
    split
    · exact .seen r [] r.source
    rename_i more
    split
    · exact .failed _ _
    split
    · exact .failed _ _
    rename_i quiet
    simp only [not_or,Bool.not_eq_true] at more
    exact .asleep (.recv r) (.recv r) rfl (fun _ => ⟨empty,more⟩) (by simpa using quiet) nofun
  split
  · exact .seen r _ r.source
  refine .took r _ _ r.source ?_
  split <;> omega

theorem recvPass (r) : Pass d me pending (.recv r) (d.doRecv pending r) := by
  unfold doRecv
  split
  · exact streamRecvPass r
  rename_i dgram
  unfold dgramRecv
  dsimp only
  split
  · split
    · exact .seen r [] r.source
    split
    · exact .failed _ _
    split
    · exact .failed _ _
    rename_i quiet
    refine .asleep (.recv r) (.recv r) rfl (fun stream => ?_) (by simpa using quiet) nofun
    rw [dgram] at stream
    cases stream
  split
  · exact .seen r _ _
  · exact .received r _ _ _ _

theorem mailPass (m) : Pass d me pending (.mail m) (d.dgramSend me pending m) := by
  unfold dgramSend
  split
  · exact .failed _ _
  split
  · exact .failed _ _
  rename_i t _
  split
  · split
    · exact .failed _ _
    split
    · exact .failed _ _
    rename_i quiet
    exact .asleep (.mail m) (.mail {m with on := t}) rfl trivial (by simpa using quiet) nofun
  split
  · exact .failed _ _
  · exact .mailed m t _ _

theorem acceptPass (a) : Pass d me pending (.accept a) (d.acceptLoop me pending a) := by
  unfold acceptLoop
  split
  · rename_i empty
    split
    · exact .failed _ _
    split
    · exact .failed _ _
    rename_i quiet
    exact .asleep (.accept a) (.accept a) rfl empty (by simpa using quiet) nofun
  rename_i queue
  split
  · exact .dropped a _ _ _ queue
  · exact .installed a _ _ _ queue rfl

theorem connectPass (c) : Pass d me pending (.connect c) (d.connectLoop me pending c) := by
  unfold connectLoop
  split
  · exact .failed _ _
  rename_i l found
  obtain ⟨n,points⟩ := lookupPtr found
  dsimp only
  split
  · exact .failed _ _
  rename_i stream
  split
  · exact .failed _ _
  rename_i listening
  split
  · rename_i room
    split
    · exact .failed _ _
    · exact .joined c ⟨l,n,c.path,points,not_not.mp stream,not_not.mp listening,room,rfl⟩
  rename_i full
  split
  · exact .failed _ _
  split
  · exact .failed _ _
  rename_i quiet
  exact .asleep (.connect c) (.connect {c with on := l}) rfl
    ⟨not_not.mp stream,not_not.mp listening,Nat.le_of_not_lt full⟩ (by simpa using quiet) nofun

theorem resumePass {call} (other : ∀ w, call ≠ .send w) : Pass d me pending call (d.resume me pending call) := by
  cases call with
  | recv r => exact recvPass r
  | send w => exact absurd rfl (other w)
  | mail m => exact mailPass m
  | accept a => exact acceptPass a
  | connect c => exact connectPass c

def OnTable : SockRequest → Prop
  | .socketpair .. | .shutdown .. | .close .. | .dup .. | .dup2 .. | .dup3 .. | .setCloexec .. | .setNonblock .. | .exec
  | .files .. => True
  | _ => False

/- A request after its checks; those about descriptors, a pair and `shutdown` are not told apart. -/
inductive Entry (d : Sockets) (me : Addr) (pending : Bool) (q : SockRequest) : SockOutcome → Prop where
  | failed (stop) : Entry d me pending q (d.failed stop)
  | done (answer) : Entry d me pending q {dev := d, next := .done answer}
  | made (kind) {limit nonblock cloexec memory result e wakes}
      (done : (d.sockNew kind).2.sockInstall me limit d.next nonblock cloexec memory = (result,e,wakes)) :
      Entry d me pending q (e.answered wakes result)
  | bound (path) {fd g x} (found : d.fdSock me fd = some (g,x)) (unbound : (d.get x.object).bound = none) :
      Entry d me pending q {dev := d.bindTo x.object path, next := .done (.number 0)}
  | listens {o} (listens : Listens d me q o) : Entry d me pending q o
  | aimed (path state) {fd g x} (found : d.fdSock me fd = some (g,x)) (dgram : (d.get x.object).type = .dgram)
      (calm : state ≠ .listening) : Entry d me pending q
        {dev := d.modify x.object (fun s => {s with peername := path, state := state}), next := .done (.number 0)}
  | passed (call) {o fd g x} (found : d.fdSock me fd = some (g,x)) (sock : call.sock = x.object)
      (fresh : ∀ c, call = .connect c → (d.get x.object).type = .stream ∧ (d.get x.object).state = .unconnected)
      (pass : Pass d me pending call o) : Entry d me pending q o
  | sent (data nonblock nosig) {fd g x} (found : d.fdSock me fd = some (g,x)) (stream : (d.get x.object).type = .stream) :
      Entry d me pending q (d.streamSend pending x.object data nonblock nosig)
  | table (o) (here : OnTable q) : Entry d me pending q o

theorem doSendEntry {q fd g x} (found : d.fdSock me fd = some (g,x)) (data target nonblock nosig memory) :
    Entry d me pending q (d.doSend me pending x.object data target nonblock nosig memory) := by
  unfold doSend
  dsimp only
  split
  · exact .failed _
  · rename_i stream
    exact .sent data nonblock nosig found stream
  · exact .passed (.mail _) found rfl nofun (mailPass _)

theorem connectEntry {q} (fd unspec address memory) :
    Entry d me pending q (d.sysConnect me pending fd unspec address memory) := by
  unfold sysConnect
  split
  · exact .failed _
  rename_i found
  split
  · rename_i dissolves
    exact .aimed [] .unconnected found dissolves.1 nofun
  split
  · exact .failed _
  split
  · rename_i stream
    unfold streamConnect
    split
    · exact .failed _
    · exact .failed _
    rename_i unconnected
    exact .passed (.connect _) found rfl (fun _ _ => ⟨stream,unconnected⟩) (connectPass _)
  rename_i dgram
  split
  · exact .failed _
  · exact .aimed _ .connected found dgram nofun

theorem enterEntry (q) : Entry d me pending q (d.enter me pending q) := by
  cases q with
  | socket family type proto nonblock cloexec limit made memory =>
    simp only [enter,sysSocket]
    split
    · exact .failed _
    split
    · exact .failed _
    · exact .made _ rfl
  | bind fd address parent created =>
    simp only [enter,sysBind]
    split
    · exact .failed _
    · exact .failed _
    rename_i found
    split
    · exact .failed _
    rename_i unbound
    split
    · exact .failed _
    · exact .failed _
    · exact .bound _ found (by simpa using unbound)
  | listen fd backlog =>
    simp only [enter,sysListen]
    split
    · exact .failed _
    rename_i g x found
    split
    · exact .failed _
    rename_i stream
    split
    · exact .failed _
    rename_i ready
    simp only [not_or,Option.isNone_iff_eq_none] at ready
    exact .listens ⟨fd,backlog,g,x,rfl,found,not_not.mp stream,ready.1,ready.2,rfl⟩
  | connect fd unspec address memory => exact connectEntry fd unspec address memory
  | accept fd known nonblock cloexec limit memory refused =>
    simp only [enter,sysAccept4]
    split
    · exact .failed _
    rename_i found
    split
    · exact .failed _
    split
    · exact .failed _
    · exact .passed (.accept _) found rfl nofun (acceptPass _)
  | send fd data address dontwait nosig memory =>
    simp only [enter,sysSend]
    split
    · exact .failed _
    · exact .failed _
    · exact .failed _
    · rename_i found
      exact doSendEntry found _ _ _ _ _
    rename_i found
    exact doSendEntry found _ _ _ _ _
  | recv fd size mapped dontwait peek =>
    simp only [enter,sysRecv]
    split
    · exact .failed _
    rename_i found
    split
    · exact .failed _
    · exact .passed (.recv _) found rfl nofun (recvPass _)
  | write fd data memory =>
    simp only [enter,sockWrite]
    split
    · exact .failed _
    · exact .failed _
    rename_i found
    split
    · exact .done _
    · exact doSendEntry found _ _ _ _ _
  | read fd size mapped =>
    simp only [enter,sockRead]
    split
    · exact .failed _
    rename_i found
    split
    · exact .failed _
    split
    · exact .done _
    · exact .passed (.recv _) found rfl nofun (recvPass _)
  | _ => exact .table _ trivial

end Sockets
end Miviex
